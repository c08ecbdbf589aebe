import NativeGuard.Json.Alike
import NativeGuard.Protocol.Nesting
import NativeGuard.Protocol.Readers

/-!
# Behind the pre-scan

Once the pre-scan has passed a text, the parsers may be run with any larger nesting
limit: they end alike, on well-formed texts and on all others (`skipValue_alike`). A
parser that has opened `k` containers stands where the pre-scan counts `k`, so
`Within maxDepth k` is kept by every scanner, and the level a parser works at is one
that the pre-scan has admitted.
-/

namespace NativeGuard.Protocol

open Json Json.Scan

variable {σ ε α β : Type} {maxDepth k : Nat}

/-! ## §1  Tokens -/

/-- The pre-scan passes the bytes left, with `k` containers open. -/
def Within (maxDepth k : Nat) (s : Bytes) : Prop := exceedsAt maxDepth k s = false

theorem within_nil : Within maxDepth k [] := rfl

theorem within_neutral {w s : Bytes} (hw : ∀ b ∈ w, isNeutral b = true)
    (h : Within maxDepth k (w ++ s)) : Within maxDepth k s := by
  unfold Within at h ⊢
  rwa [exceedsAt_neutral maxDepth k hw] at h

theorem within_neutral_cons {b : UInt8} {s : Bytes} (hb : isNeutral b = true)
    (h : Within maxDepth k (b :: s)) : Within maxDepth k s :=
  within_neutral (w := [b]) (List.forall_mem_singleton.mpr hb) h

/-- An opening bracket is counted, and admitted. -/
theorem within_open {b : UInt8} {s : Bytes} (hb : b = 0x7B ∨ b = 0x5B)
    (h : Within maxDepth k (b :: s)) : k + 1 ≤ maxDepth ∧ Within maxDepth (k + 1) s := by
  unfold Within at h ⊢
  rw [exceedsAt_open maxDepth k hb, Bool.or_eq_false_iff, decide_eq_false_iff_not,
    not_lt] at h
  exact h

theorem within_close {b : UInt8} {s : Bytes} (hb : b = 0x7D ∨ b = 0x5D)
    (h : Within maxDepth (k + 1) (b :: s)) : Within maxDepth k s := by
  unfold Within at h ⊢
  rwa [exceedsAt_close maxDepth k hb] at h

/-- Behind the closing byte that was seen, one level less is open. -/
theorem alike_close {b : UInt8} (hb : b = 0x7D ∨ b = 0x5D) (a : α) :
    Alike (fun s => s.head? = some b ∧ Within maxDepth (k + 1) s)
      (next >>= fun _ => pure a : Scan ε α) (next >>= fun _ => pure a)
      fun _ => Within maxDepth k := by
  apply alike_next.bind
  intro c
  refine alike_pure fun s hs => ?_
  obtain ⟨hhead, hclose, hs⟩ := hs
  rw [hhead] at hclose
  rw [hclose] at hs
  exact within_close hb hs

/-- Both scans keep what the pre-scan counts. -/
def AlikeWithin (maxDepth k : Nat) (p q : Scan ε α) : Prop :=
  Alike (Within maxDepth k) p q fun _ => Within maxDepth k

theorem skipWhitespace_alike :
    AlikeWithin maxDepth k (skipWhitespace : Scan ε Unit) skipWhitespace := by
  apply alike_self
  intro s u rest hs h
  rcases skipWhitespace_split h with ⟨gap, rfl, -⟩
  exact within_neutral (neutral_gap gap) hs

theorem scanString_alike : AlikeWithin maxDepth k scanString scanString := by
  apply alike_self
  intro s token rest hs h
  rcases scanString_sound h with ⟨t, rfl, -⟩
  unfold Within at hs ⊢
  rwa [exceedsAt_string] at hs

theorem scanNumber_alike : AlikeWithin maxDepth k scanNumber scanNumber := by
  apply alike_self
  intro s u rest hs h
  rcases scanNumber_sound h with ⟨t, rfl⟩
  exact within_neutral (neutral_number t) hs

/-- A literal that is not there leaves the cursor where it was. -/
theorem attempt_literal_alike (w : Literal) :
    AlikeWithin maxDepth k (attempt (scanLiteral w.bytes) : Scan ε Bool)
      (attempt (scanLiteral w.bytes)) := by
  apply alike_self
  intro s found rest hs h
  by_cases hpre : w.bytes <+: s
  · obtain ⟨tail, rfl⟩ := hpre
    unfold attempt at h
    rw [scanLiteral_append] at h
    cases h
    exact within_neutral (neutral_literal w) hs
  · unfold attempt at h
    rw [scanLiteral_error hpre] at h
    cases h
    exact hs

/-! ## §2  Loops -/

/-- Two object loops that differ in their handlers only, which are alike. -/
structure ObjectLoop.LoopsAlike (maxDepth k : Nat) (L L' : ObjectLoop σ ε) : Prop where
  malformed : L'.malformed = L.malformed
  checkKey : L'.checkKey = L.checkKey
  trailing : L'.trailing = L.trailing
  member : ∀ st key, AlikeWithin maxDepth k (L.member st key) (L'.member st key)

namespace ObjectLoop.LoopsAlike

variable {L L' : ObjectLoop σ ε}

theorem separator (h : L.LoopsAlike maxDepth (k + 1) L')
    {again again' : σ → Scan ε (σ × LoopExit)}
    (hagain : ∀ st, Alike (Within maxDepth (k + 1)) (again st) (again' st)
      fun _ => Within maxDepth k) (st : σ) :
    Alike (Within maxDepth (k + 1)) (L.separator again st) (L'.separator again' st)
      fun _ => Within maxDepth k := by
  unfold ObjectLoop.separator
  rw [h.malformed, h.trailing]
  apply skipWhitespace_alike.bind
  rintro ⟨⟩
  apply alike_next.bind
  intro c
  apply alike_of_ite
  · rintro rfl
    exact alike_pure fun s hs => within_close (Or.inl rfl) hs.2
  intro _
  apply alike_of_ite
  · rintro rfl
    apply (skipWhitespace_alike.conseq fun s hs =>
      within_neutral_cons (b := 0x2C) (by decide) hs.2).bind
    rintro ⟨⟩
    apply alike_peek.bind
    intro d
    apply alike_of_ite
    · rintro rfl
      cases L.trailing with
      | unchecked => exact (hagain st).conseq fun s hs => hs.2
      | rejected => exact alike_fail _
      | closes =>
          exact alike_close (Or.inl rfl) _
    · intro _
      exact (hagain st).conseq fun s hs => hs.2
  · intro _
    exact alike_fail _

theorem turn (h : L.LoopsAlike maxDepth (k + 1) L')
    {again again' : σ → Scan ε (σ × LoopExit)}
    (hagain : ∀ st, Alike (Within maxDepth (k + 1)) (again st) (again' st)
      fun _ => Within maxDepth k) (st : σ) :
    Alike (Within maxDepth (k + 1)) (L.turn again st) (L'.turn again' st)
      fun _ => Within maxDepth k := by
  unfold ObjectLoop.turn
  rw [h.malformed, h.checkKey]
  apply alike_peek.bind
  intro c
  apply alike_of_ite
  · rintro rfl
    refine alike_pure fun s hs => ?_
    rw [List.head?_eq_none_iff.mp hs.1]
    exact within_nil
  intro _
  apply ((scanString_alike.orFail _).conseq fun s hs => hs.2).bind
  intro key
  apply (alike_ofExcept _).bind
  rintro ⟨⟩
  apply skipWhitespace_alike.bind
  rintro ⟨⟩
  apply (alike_expect 0x3A _).bind
  rintro ⟨⟩
  apply (skipWhitespace_alike.conseq fun s hs => within_neutral_cons (by decide) hs).bind
  rintro ⟨⟩
  apply (h.member st key).bind
  intro st'
  exact h.separator hagain st'

theorem run (h : L.LoopsAlike maxDepth (k + 1) L') (fuel : Nat) (st : σ) :
    Alike (Within maxDepth (k + 1)) (L.run fuel st) (L'.run fuel st)
      fun _ => Within maxDepth k := by
  induction fuel generalizing st with
  | zero =>
      unfold ObjectLoop.run
      rw [h.malformed]
      exact alike_fail _
  | succ fuel ih => exact h.turn ih st

/-- The loop behind an opening brace, up to the brace that closes it. -/
theorem parse (h : L.LoopsAlike maxDepth (k + 1) L') (st : σ) :
    Alike (Within maxDepth (k + 1)) (L.parse st) (L'.parse st)
      fun _ => Within maxDepth k := by
  unfold ObjectLoop.parse
  apply skipWhitespace_alike.bind
  rintro ⟨⟩
  apply alike_peek.bind
  intro c
  apply alike_of_ite
  · rintro rfl
    exact alike_close (Or.inl rfl) _
  · intro _
    apply alike_remaining.bind
    intro s
    exact (h.run _ st).conseq fun t ht => ht.2.2

/-- A whole document. -/
theorem document (h : 1 ≤ maxDepth → L.LoopsAlike maxDepth 1 L')
    (notObject : ε) (leave : σ → LoopExit → Except ε Unit) (extra : σ → ε) (st : σ) :
    Alike (Within maxDepth 0) (L.document notObject leave extra st)
      (L'.document notObject leave extra st) fun _ _ => True := by
  unfold ObjectLoop.document
  apply skipWhitespace_alike.bind
  rintro ⟨⟩
  apply (alike_expect 0x7B _).bind
  rintro ⟨⟩
  have hparse : Alike (fun s => Within maxDepth 0 (0x7B :: s)) (L.parse st) (L'.parse st)
      fun _ => Within maxDepth 0 := by
    intro s hs
    rcases within_open (Or.inl rfl) hs with ⟨hadmitted, hs⟩
    exact (h hadmitted).parse st s hs
  apply hparse.bind
  rintro ⟨st', exit⟩
  apply (alike_ofExcept _).bind
  rintro ⟨⟩
  apply skipWhitespace_alike.bind
  rintro ⟨⟩
  apply alike_remaining.bind
  intro s
  apply alike_of_ite
  · intro _
    exact alike_pure fun _ _ => trivial
  · intro _
    exact alike_fail _

end ObjectLoop.LoopsAlike

/-- Two array loops that differ in their handlers only, which are alike. -/
structure ArrayLoop.LoopsAlike (maxDepth k : Nat) (L L' : ArrayLoop σ ε) : Prop where
  malformed : L'.malformed = L.malformed
  trailing : L'.rejectsTrailing = L.rejectsTrailing
  element : ∀ st, AlikeWithin maxDepth k (L.element st) (L'.element st)

namespace ArrayLoop.LoopsAlike

variable {L L' : ArrayLoop σ ε}

theorem separator (h : L.LoopsAlike maxDepth (k + 1) L') {again again' : σ → Scan ε σ}
    (hagain : ∀ st, Alike (Within maxDepth (k + 1)) (again st) (again' st)
      fun _ => Within maxDepth k) (st : σ) :
    Alike (Within maxDepth (k + 1)) (L.separator again st) (L'.separator again' st)
      fun _ => Within maxDepth k := by
  unfold ArrayLoop.separator
  rw [h.malformed, h.trailing]
  apply skipWhitespace_alike.bind
  rintro ⟨⟩
  apply alike_next.bind
  intro c
  apply alike_of_ite
  · rintro rfl
    exact alike_pure fun s hs => within_close (Or.inr rfl) hs.2
  intro _
  apply alike_of_ite
  · rintro rfl
    apply (skipWhitespace_alike.conseq fun s hs =>
      within_neutral_cons (b := 0x2C) (by decide) hs.2).bind
    rintro ⟨⟩
    apply alike_peek.bind
    intro d
    apply alike_of_ite
    · intro _
      exact alike_fail _
    · intro _
      exact (hagain st).conseq fun s hs => hs.2
  · intro _
    exact alike_fail _

theorem turn (h : L.LoopsAlike maxDepth (k + 1) L') {again again' : σ → Scan ε σ}
    (hagain : ∀ st, Alike (Within maxDepth (k + 1)) (again st) (again' st)
      fun _ => Within maxDepth k) (st : σ) :
    Alike (Within maxDepth (k + 1)) (L.turn again st) (L'.turn again' st)
      fun _ => Within maxDepth k := by
  unfold ArrayLoop.turn
  rw [h.malformed]
  apply alike_peek.bind
  intro c
  apply alike_of_ite
  · intro _
    exact alike_fail _
  intro _
  apply ((h.element st).conseq fun s hs => hs.2).bind
  intro st'
  exact h.separator hagain st'

theorem run (h : L.LoopsAlike maxDepth (k + 1) L') (fuel : Nat) (st : σ) :
    Alike (Within maxDepth (k + 1)) (L.run fuel st) (L'.run fuel st)
      fun _ => Within maxDepth k := by
  induction fuel generalizing st with
  | zero =>
      unfold ArrayLoop.run
      rw [h.malformed]
      exact alike_fail _
  | succ fuel ih => exact h.turn ih st

theorem parse (h : L.LoopsAlike maxDepth (k + 1) L') (st : σ) :
    Alike (Within maxDepth (k + 1)) (L.parse st) (L'.parse st)
      fun _ => Within maxDepth k := by
  unfold ArrayLoop.parse
  apply skipWhitespace_alike.bind
  rintro ⟨⟩
  apply alike_peek.bind
  intro c
  apply alike_of_ite
  · rintro rfl
    exact alike_close (Or.inr rfl) _
  · intro _
    apply alike_remaining.bind
    intro s
    exact (h.run _ st).conseq fun t ht => ht.2.2

end ArrayLoop.LoopsAlike

/-! ## §3  Readers -/

/-- Two readers that end alike behind the pre-scan. -/
def Reader.AlikeWithin (maxDepth k : Nat) (r r' : Reader ε α) : Prop :=
  Protocol.AlikeWithin maxDepth k r.scan r'.scan

namespace Reader.AlikeWithin

variable {r r' other other' : Reader ε α}

theorem fail (e : ε) : (Reader.fail e : Reader ε α).AlikeWithin maxDepth k (.fail e) :=
  alike_fail e

theorem check (h : r.AlikeWithin maxDepth k r') (f : α → Except ε β) :
    (r.check f).AlikeWithin maxDepth k (r'.check f) :=
  Alike.bind h fun a => alike_ofExcept (f a)

theorem map (h : r.AlikeWithin maxDepth k r') (f : α → β) :
    (r.map f).AlikeWithin maxDepth k (r'.map f) := h.check _

theorem once (h : r.AlikeWithin maxDepth k r') (seen : Bool) (e : ε) :
    (Reader.once seen e r).AlikeWithin maxDepth k (.once seen e r') := by
  cases seen with
  | true => exact fail e
  | false => exact h

theorem orFail {r r' : Reader Unit α} (h : r.AlikeWithin maxDepth k r') (e : ε) :
    (r.orFail e).AlikeWithin maxDepth k (r'.orFail e) := Alike.orFail h e

theorem captured (h : r.AlikeWithin maxDepth k r') :
    r.captured.AlikeWithin maxDepth k r'.captured := Alike.captured h

theorem onByte (b : UInt8) (h : r.AlikeWithin maxDepth k r')
    (hother : other.AlikeWithin maxDepth k other') :
    (Reader.onByte b r other).AlikeWithin maxDepth k (.onByte b r' other') := by
  apply alike_peek.bind
  intro c
  apply alike_of_ite
  · intro _
    exact Alike.conseq h fun s hs => hs.2
  · intro _
    exact Alike.conseq hother fun s hs => hs.2

theorem string (e : ε) : (Reader.string e).AlikeWithin maxDepth k (.string e) :=
  scanString_alike.orFail e

theorem number (e : ε) : (Reader.number e).AlikeWithin maxDepth k (.number e) :=
  scanNumber_alike.orFail e

theorem literal (w : Literal) (e : ε) :
    (Reader.literal w e).AlikeWithin maxDepth k (.literal w e) := by
  apply (attempt_literal_alike w).bind
  intro found
  apply alike_of_ite
  · intro _
    exact alike_pure fun s hs => hs
  · intro _
    exact alike_fail e

/-- The members are read one level down, which the pre-scan has admitted. -/
theorem object {R R' : ObjectReader σ ε}
    (h : k + 1 ≤ maxDepth → R.loop.LoopsAlike maxDepth (k + 1) R'.loop) (notObject : ε)
    (st : σ) (finish : σ → LoopExit → Except ε α) :
    (R.object notObject st finish).AlikeWithin maxDepth k (R'.object notObject st finish) := by
  apply (alike_expect 0x7B _).bind
  rintro ⟨⟩
  have hparse : Alike (fun s => Within maxDepth k (0x7B :: s)) (R.loop.parse st)
      (R'.loop.parse st) fun _ => Within maxDepth k := by
    intro s hs
    rcases within_open (Or.inl rfl) hs with ⟨hadmitted, hs⟩
    exact (h hadmitted).parse st s hs
  apply hparse.bind
  rintro ⟨st', exit⟩
  exact alike_ofExcept _

theorem array {R R' : ArrayReader σ ε}
    (h : k + 1 ≤ maxDepth → R.loop.LoopsAlike maxDepth (k + 1) R'.loop) (notArray : ε)
    (st : σ) : (R.array notArray st).AlikeWithin maxDepth k (R'.array notArray st) := by
  apply (alike_expect 0x5B _).bind
  rintro ⟨⟩
  intro s hs
  rcases within_open (Or.inr rfl) hs with ⟨hadmitted, hs⟩
  exact (h hadmitted).parse st s hs

/-- A reader that is not tried, since the limit is too low for its container, would
have failed: the pre-scan admits no container at this level. -/
theorem not_open {b : UInt8} (hb : b = 0x7B ∨ b = 0x5B) (hk : maxDepth < k + 1) (e : ε)
    (f : Unit → Scan ε α) :
    Protocol.AlikeWithin maxDepth k (Scan.fail e) (expect b e >>= f) := by
  intro s hs
  have hexpect : expect b e s = (.error e, s.tail) := by
    have hne : ¬ s.head? = some b := by
      intro hhead
      obtain ⟨rest, rfl⟩ : ∃ rest, s = b :: rest := List.head?_eq_some_iff.mp hhead
      exact absurd (within_open hb hs).1 (Nat.not_le.mpr hk)
    show (if s.head? = some b then pure () else Scan.fail e : Scan ε Unit) s.tail = _
    rw [if_neg hne]
    rfl
  rw [bind_apply, hexpect]
  exact SameRun.error e s s.tail

theorem not_object {R : ObjectReader σ ε} (hk : maxDepth < k + 1) (notObject : ε) (st : σ)
    (finish : σ → LoopExit → Except ε α) :
    (Reader.fail notObject).AlikeWithin maxDepth k (R.object notObject st finish) :=
  not_open (Or.inl rfl) hk notObject _

theorem not_array {R : ArrayReader σ ε} (hk : maxDepth < k + 1) (notArray : ε) (st : σ) :
    (Reader.fail notArray).AlikeWithin maxDepth k (R.array notArray st) :=
  not_open (Or.inr rfl) hk notArray _

end Reader.AlikeWithin

/-! ## §4  `skip_value` -/

/-- A value is skipped alike with any levels that reach to the limit of the pre-scan. -/
theorem skipValueAt_alike (levels levels' : Nat) (hk : k ≤ maxDepth)
    (h : maxDepth < k + levels) (h' : maxDepth < k + levels') :
    (skipValueAt levels).AlikeWithin maxDepth k (skipValueAt levels') := by
  induction levels generalizing k levels' with
  | zero => omega
  | succ levels ih =>
      obtain ⟨levels', rfl⟩ : ∃ n, levels' = n + 1 := ⟨levels' - 1, by omega⟩
      have hinner : k + 1 ≤ maxDepth →
          (skipValueAt levels).AlikeWithin maxDepth (k + 1) (skipValueAt levels') :=
        fun hadmitted => ih levels' hadmitted (by omega) (by omega)
      refine .onByte _ (.map (.string _) _) <| .onByte _ (.object ?_ _ _ _) <|
        .onByte _ (.array ?_ _ _) <| .onByte _ (.literal _ _) <|
        .onByte _ (.literal _ _) <| .onByte _ (.literal _ _) (.number _)
      · exact fun hadmitted => ⟨rfl, rfl, rfl, fun _ _ => hinner hadmitted⟩
      · exact fun hadmitted => ⟨rfl, rfl, fun _ => hinner hadmitted⟩

/-- Behind the pre-scan `skip_value` does not fail for the depth. -/
theorem skipValue_alike {maxDepth' : Nat} (hk : k ≤ maxDepth) (hle : maxDepth ≤ maxDepth')
    (e : ε) : (skipValue k maxDepth e).AlikeWithin maxDepth k (skipValue k maxDepth' e) :=
  (skipValueAt_alike _ _ hk (by omega) (by omega)).orFail e

/-! ## §5  Larger limits -/

theorem exceedsFrom_mono {maxDepth' : Nat} (hle : maxDepth ≤ maxDepth') (fuel depth : Nat)
    (s : Bytes) (h : exceedsFrom maxDepth fuel depth s = false) :
    exceedsFrom maxDepth' fuel depth s = false := by
  induction fuel generalizing depth s with
  | zero => rfl
  | succ fuel ih =>
      cases s with
      | nil => rfl
      | cons b s =>
          unfold exceedsFrom at h ⊢
          split at h
          · rename_i hquote
            rw [if_pos hquote]
            split at h
            · exact ih _ _ h
            · rfl
          rename_i hquote
          rw [if_neg hquote]
          split at h
          · rename_i hopen
            rw [if_pos hopen]
            split at h
            · cases h
            · rename_i hdepth
              rw [if_neg (by omega)]
              exact ih _ _ h
          rename_i hopen
          rw [if_neg hopen]
          split at h
          · rename_i hclose
            rw [if_pos hclose]
            exact ih _ _ h
          · rename_i hclose
            rw [if_neg hclose]
            exact ih _ _ h

theorem exceedsNesting_mono {maxDepth' : Nat} (hle : maxDepth ≤ maxDepth') {json : Bytes}
    (h : exceedsNesting json maxDepth = false) : exceedsNesting json maxDepth' = false :=
  exceedsFrom_mono hle _ _ _ h

end NativeGuard.Protocol

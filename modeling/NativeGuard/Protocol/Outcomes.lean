import NativeGuard.Protocol.Readers

/-!
# Outcomes of readers

A reader that ignores something of its input, the nesting limit it was given or
the value of a member it skips, ends alike on inputs that differ in nothing else.
`SameOutcome` says how two runs end alike; the lemmas carry it through the
readers and, by an induction over the members, through the object loop.
`Reader.ReportsAt` bounds the errors of one run in the same way.
-/

namespace NativeGuard.Protocol

open Json Json.Scan

variable {σ τ ε α β γ δ : Type}

/-! ## §1  Outcomes -/

/-- Both runs fail with one error, or both succeed with related results. -/
inductive SameOutcome (S : α → β → Prop) : Except ε α → Except ε β → Prop where
  | ok {a : α} {b : β} (h : S a b) : SameOutcome S (.ok a) (.ok b)
  | error (e : ε) : SameOutcome S (.error e) (.error e)

namespace SameOutcome

variable {S : α → β → Prop} {T : γ → δ → Prop}

theorem refl {S : α → α → Prop} (h : ∀ a, S a a) (x : Except ε α) :
    SameOutcome S x x := by
  cases x with
  | ok a => exact ok (h a)
  | error e => exact error e

theorem bind {x : Except ε α} {y : Except ε β} {k : α → Except ε γ} {l : β → Except ε δ}
    (h : SameOutcome S x y) (hnext : ∀ a b, S a b → SameOutcome T (k a) (l b)) :
    SameOutcome T (x >>= k) (y >>= l) := by
  cases h with
  | ok hab => exact hnext _ _ hab
  | error e => exact error e

end SameOutcome

/-! ## §2  Two runs of a reader -/

/-- Readers that dispatch on the first byte take the same branch. -/
theorem onByte_same {S : α → β → Prop} {b : UInt8} {r other : Reader ε α}
    {r' other' : Reader ε β} {v v' : Value}
    (hhead : v.render.head? = some b ↔ v'.render.head? = some b)
    (hhere : v.render.head? = some b → SameOutcome S (r.read v) (r'.read v'))
    (hother : v.render.head? ≠ some b →
      SameOutcome S (other.read v) (other'.read v')) :
    SameOutcome S ((Reader.onByte b r other).read v)
      ((Reader.onByte b r' other').read v') := by
  show SameOutcome S (if _ then _ else _) (if _ then _ else _)
  by_cases hv : v.render.head? = some b
  · rw [if_pos hv, if_pos (hhead.mp hv)]
    exact hhere hv
  · rw [if_neg hv, if_neg (mt hhead.mpr hv)]
    exact hother hv

/-- Values within their limits are skipped alike, whatever they are. -/
theorem skipValue_same {e : ε} {depth maxDepth maxDepth' : Nat} {v v' : Value}
    (h : depth + v.nesting ≤ maxDepth) (h' : depth + v'.nesting ≤ maxDepth') :
    (skipValue depth maxDepth e).read v = .ok () ∧
      (skipValue depth maxDepth' e).read v' = .ok () := by
  rw [skipValue_read, skipValue_read]
  exact ⟨if_pos h, if_pos h'⟩

/-- The object loop runs alike on members that its handlers treat alike. -/
theorem members_same {R : ObjectReader σ ε} {R' : ObjectReader τ ε} {S : σ → τ → Prop}
    {M : Member Value → Member Value → Prop} {ms ms' : List (Member Value)}
    (hms : List.Forall₂ M ms ms')
    (hkey : ∀ st st' m m', S st st' → M m m' → SameOutcome (fun _ _ => True)
      (R.checkKey st (tokenOf m.key.val)) (R'.checkKey st' (tokenOf m'.key.val)))
    (hmember : ∀ st st' m m', m ∈ ms → m' ∈ ms' → S st st' → M m m' → SameOutcome S
      ((R.member st (tokenOf m.key.val)).read m.value)
      ((R'.member st' (tokenOf m'.key.val)).read m'.value))
    {st : σ} {st' : τ} (hst : S st st') :
    SameOutcome S (R.members st ms) (R'.members st' ms') := by
  induction hms generalizing st st' with
  | nil => exact SameOutcome.ok hst
  | @cons m m' ms ms' hm hms ih =>
      refine (hkey st st' m m' hst hm).bind fun _ _ _ => ?_
      have hhead := hmember st st' m m' List.mem_cons_self List.mem_cons_self hst hm
      refine hhead.bind fun s s' hs => ih ?_ hs
      intro t t' n n' hn hn'
      exact hmember t t' n n' (List.mem_cons_of_mem m hn) (List.mem_cons_of_mem m' hn')

/-! ## §3  The errors of a reader -/

/-- An error that `r` reports on `v` is one of `P`. -/
def Reader.ReportsAt (r : Reader ε α) (P : ε → Prop) (v : Value) : Prop :=
  ∀ e, r.read v = .error e → P e

/-- Whatever `r` is given, an error it reports is one of `P`. -/
def Reader.Reports (r : Reader ε α) (P : ε → Prop) : Prop :=
  ∀ v e, r.read v = .error e → P e

theorem except_bind_error {x : Except ε α} {f : α → Except ε β} {e : ε} :
    (x >>= f) = .error e ↔ x = .error e ∨ ∃ a, x = .ok a ∧ f a = .error e := by
  cases x with
  | error e' =>
      show Except.error e' = .error e ↔ _
      simp
  | ok a =>
      show f a = .error e ↔ _
      simp

/-- The loop reports what its key check and its handlers report. -/
theorem members_reportsAt {R : ObjectReader σ ε} {P : ε → Prop} {ms : List (Member Value)}
    (hkey : ∀ st key e, R.checkKey st key = .error e → P e)
    (hmember : ∀ st, ∀ m ∈ ms, (R.member st (tokenOf m.key.val)).ReportsAt P m.value)
    {st : σ} {e : ε} (h : R.members st ms = .error e) : P e := by
  induction ms generalizing st with
  | nil => cases h
  | cons m ms ih =>
      rcases except_bind_error.mp h with h | ⟨_, -, h⟩
      · exact hkey _ _ _ h
      rcases except_bind_error.mp h with h | ⟨st', -, h⟩
      · exact hmember _ m List.mem_cons_self _ h
      · exact ih (fun st m hm => hmember st m (List.mem_cons_of_mem _ hm)) h

theorem elements_reportsAt {R : ArrayReader σ ε} {P : ε → Prop} {es : List (Element Value)}
    (helement : ∀ st, ∀ x ∈ es, (R.element st).ReportsAt P x.value)
    {st : σ} {e : ε} (h : R.elements st es = .error e) : P e := by
  induction es generalizing st with
  | nil => cases h
  | cons x es ih =>
      rcases except_bind_error.mp h with h | ⟨st', -, h⟩
      · exact helement _ x List.mem_cons_self _ h
      · exact ih (fun st x hx => helement st x (List.mem_cons_of_mem _ hx)) h

namespace Reader.ReportsAt

variable {P : ε → Prop} {r other : Reader ε α} {e : ε} {v : Value}

theorem fail (h : P e) : (Reader.fail e : Reader ε α).ReportsAt P v := by
  rintro e' ⟨⟩
  exact h

theorem check {k : α → Except ε β} (h : r.ReportsAt P v)
    (hk : ∀ a e, k a = .error e → P e) : (r.check k).ReportsAt P v := by
  intro e hread
  rcases except_bind_error.mp hread with hr | ⟨a, -, hr⟩
  · exact h e hr
  · exact hk a e hr

theorem map (f : α → β) (h : r.ReportsAt P v) : (r.map f).ReportsAt P v := h.check nofun

theorem once (seen : Bool) (hseen : P e) (h : r.ReportsAt P v) :
    (Reader.once seen e r).ReportsAt P v := by
  cases seen with
  | true => exact fail hseen
  | false => exact h

theorem captured (h : r.ReportsAt P v) : r.captured.ReportsAt P v := by
  intro e hread
  apply h e
  cases hr : r.read v with
  | ok a =>
      have hok : r.captured.read v = .ok (a, v.render) := by
        show (r.read v).map _ = _
        rw [hr]
        rfl
      rw [hok] at hread
      cases hread
  | error e' =>
      have herr : r.captured.read v = .error e' := by
        show (r.read v).map _ = _
        rw [hr]
        rfl
      rw [herr] at hread
      rw [Except.error.inj hread]

theorem onByte {b : UInt8} (h : v.render.head? = some b → r.ReportsAt P v)
    (hother : other.ReportsAt P v) : (Reader.onByte b r other).ReportsAt P v := by
  intro e hread
  have hcases : (if v.render.head? = some b then r.read v else other.read v) = .error e :=
    hread
  split at hcases
  · rename_i hhead
    exact h hhead e hcases
  · exact hother e hcases

theorem string (h : P e) : (Reader.string e).ReportsAt P v := by
  intro e' hread
  cases v with
  | str t => cases hread
  | num t => cases hread; exact h
  | lit w => cases hread; exact h
  | obj gap ms => cases hread; exact h
  | arr gap es => cases hread; exact h

theorem number (h : P e) : (Reader.number e).ReportsAt P v := by
  intro e' hread
  cases v with
  | str t => cases hread; exact h
  | num t => cases hread
  | lit w => cases hread; exact h
  | obj gap ms => cases hread; exact h
  | arr gap es => cases hread; exact h

theorem literal (w : Literal) (h : P e) : (Reader.literal w e).ReportsAt P v := by
  intro e' hread
  have hcases : Reader.readLiteralOr w (Except.ok () : Except ε Unit)
      (fun _ => .error e) v = .error e' := hread
  by_cases hv : v = .lit w
  · rw [hv, readLiteralOr_self] at hcases
    cases hcases
  · rw [readLiteralOr_ne hv] at hcases
    rw [← Except.error.inj hcases]
    exact h

theorem skipValue {depth maxDepth : Nat} (h : ¬ depth + v.nesting ≤ maxDepth → P e) :
    (Protocol.skipValue depth maxDepth e).ReportsAt P v := by
  intro e' hread
  rw [skipValue_read] at hread
  unfold accept at hread
  split at hread
  · cases hread
  · rename_i hdeep
    cases hread
    exact h hdeep

theorem object {R : ObjectReader σ ε} {notObject : ε} {st : σ}
    {finish : σ → LoopExit → Except ε α} (hobject : P notObject)
    (hkey : ∀ st key e, R.checkKey st key = .error e → P e)
    (hmember : ∀ st gap ms, v = .obj gap ms → ∀ m ∈ ms,
      (R.member st (tokenOf m.key.val)).ReportsAt P m.value)
    (hfinish : ∀ st exit e, finish st exit = .error e → P e) :
    (R.object notObject st finish).ReportsAt P v := by
  intro e hread
  cases v with
  | obj gap ms =>
      rcases except_bind_error.mp hread with h | ⟨st', -, h⟩
      · exact members_reportsAt hkey (fun st m hm => hmember st gap ms rfl m hm) h
      · exact hfinish _ _ _ h
  | str t => cases hread; exact hobject
  | num t => cases hread; exact hobject
  | lit w => cases hread; exact hobject
  | arr gap es => cases hread; exact hobject

theorem array {R : ArrayReader σ ε} {notArray : ε} {st : σ} (harray : P notArray)
    (helement : ∀ st gap es, v = .arr gap es → ∀ x ∈ es,
      (R.element st).ReportsAt P x.value) :
    (R.array notArray st).ReportsAt P v := by
  intro e hread
  cases v with
  | arr gap es => exact elements_reportsAt (fun st x hx => helement st gap es rfl x hx) hread
  | str t => cases hread; exact harray
  | num t => cases hread; exact harray
  | lit w => cases hread; exact harray
  | obj gap ms => cases hread; exact harray

end Reader.ReportsAt

namespace Reader.Reports

variable {P : ε → Prop} {r other : Reader ε α} {e : ε}

theorem fail (h : P e) : (Reader.fail e : Reader ε α).Reports P :=
  fun _ => ReportsAt.fail h

theorem check {k : α → Except ε β} (h : r.Reports P) (hk : ∀ a e, k a = .error e → P e) :
    (r.check k).Reports P := fun v => ReportsAt.check (h v) hk

theorem map (f : α → β) (h : r.Reports P) : (r.map f).Reports P := h.check nofun

theorem captured (h : r.Reports P) : r.captured.Reports P :=
  fun v => ReportsAt.captured (h v)

theorem onByte (b : UInt8) (h : r.Reports P) (hother : other.Reports P) :
    (Reader.onByte b r other).Reports P :=
  fun v => ReportsAt.onByte (fun _ => h v) (hother v)

theorem string (h : P e) : (Reader.string e).Reports P := fun _ => ReportsAt.string h

theorem skipValue (depth maxDepth : Nat) (h : P e) :
    (Protocol.skipValue depth maxDepth e).Reports P := fun _ => ReportsAt.skipValue fun _ => h

end Reader.Reports

theorem members_reports {R : ObjectReader σ ε} {P : ε → Prop}
    (hkey : ∀ st key e, R.checkKey st key = .error e → P e)
    (hmember : ∀ st key, (R.member st key).Reports P) {st : σ} {ms : List (Member Value)}
    {e : ε} (h : R.members st ms = .error e) : P e :=
  members_reportsAt hkey (fun st m _ => hmember st (tokenOf m.key.val) m.value) h

theorem Reader.Reports.object {R : ObjectReader σ ε} {P : ε → Prop} {notObject : ε} {st : σ}
    {finish : σ → LoopExit → Except ε α} (hobject : P notObject)
    (hkey : ∀ st key e, R.checkKey st key = .error e → P e)
    (hmember : ∀ st key, (R.member st key).Reports P)
    (hfinish : ∀ st exit e, finish st exit = .error e → P e) :
    (R.object notObject st finish).Reports P :=
  fun _ => ReportsAt.object hobject hkey (fun st _ _ _ m _ => hmember st _ m.value) hfinish

/-- Where every known key occurs once, a loop fails at the first value that is not
accepted, with the error of its handler. -/
theorem OncePerKey.members_error {R : ObjectReader σ ε} {known : List Bytes}
    {seen : σ → Bytes → Bool} {ok : Bytes → Value → Prop} {update : σ → Bytes → Value → σ}
    (h : OncePerKey R known seen ok update) {st : σ} {ms : List (Member Value)} {e : ε}
    (hkeys : ∀ m ∈ ms, 0x5C ∉ m.key.val)
    (honce : ∀ key ∈ known, (valuesAt key ms).length ≤ if seen st key then 0 else 1)
    (herror : R.members st ms = .error e) :
    ∃ st', ∃ m ∈ ms, seen st' m.key.val = false ∧ ¬ ok m.key.val m.value ∧
      (R.member st' (tokenOf m.key.val)).read m.value = .error e := by
  induction ms generalizing st with
  | nil => cases herror
  | cons m ms ih =>
      have hkey : R.checkKey st (tokenOf m.key.val) = .ok () :=
        (h.key st _).mpr (hkeys m List.mem_cons_self)
      -- a known key that has been seen would stand here a second time
      have hunseen : seen st m.key.val = false := by
        by_cases hknown : m.key.val ∈ known
        · have hcount := honce _ hknown
          rw [valuesAt_cons_of_eq rfl, List.length_cons] at hcount
          by_contra hseen
          rw [Bool.not_eq_false] at hseen
          rw [if_pos hseen] at hcount
          omega
        · exact h.unknown st _ hknown
      have hrun : ((R.member st (tokenOf m.key.val)).read m.value >>= fun st' =>
          R.members st' ms) = .error e := by
        rcases except_bind_error.mp herror with hfail | ⟨_, -, hrun⟩
        · rw [hkey] at hfail
          cases hfail
        · exact hrun
      rcases except_bind_error.mp hrun with hfail | ⟨st', hst', hrest⟩
      · refine ⟨st, m, List.mem_cons_self, hunseen, fun hok => ?_, hfail⟩
        rw [(h.member st _ _ _).mpr ⟨hunseen, hok, rfl⟩] at hfail
        cases hfail
      · obtain ⟨-, -, rfl⟩ := (h.member st _ _ _).mp hst'
        have honce' : ∀ key ∈ known, (valuesAt key ms).length ≤
            if seen (update st m.key.val m.value) key then 0 else 1 := by
          intro key hknown
          have hcount := honce key hknown
          rw [h.marks]
          by_cases heq : m.key.val = key
          · rw [valuesAt_cons_of_eq heq, List.length_cons, ← heq, hunseen] at hcount
            rw [← heq] at hknown ⊢
            simp only [hknown, decide_true, Bool.and_self, Bool.or_true, if_true]
            simp only [Bool.false_eq_true, if_false] at hcount
            omega
          · rw [valuesAt_cons_of_ne heq] at hcount
            simpa [Ne.symm heq] using hcount
        rcases ih (fun m hm => hkeys m (List.mem_cons_of_mem _ hm)) honce' hrest with
          ⟨st'', m', hm', hfail⟩
        exact ⟨st'', m', List.mem_cons_of_mem _ hm', hfail⟩

end NativeGuard.Protocol

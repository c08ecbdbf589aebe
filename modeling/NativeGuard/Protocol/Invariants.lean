import NativeGuard.Json.Triple
import NativeGuard.Protocol.Readers

/-!
# Invariants of the object loop

What holds of a parser's state at every turn, on any input. An invariant may
speak of the number of bytes left, which never grows; a member takes the bytes
of its quoted key and its colon at least (`ObjectLoop.Keeps`). What holds when
the object is opened then holds when its loop is left, and of every error it
ends in (`ObjectLoop.parse_keeps`).
-/

namespace NativeGuard.Protocol

open Json Json.Scan

variable {σ ε α : Type}

theorem skipWhitespace_triple {P : Bytes → Prop} {E : ε → Prop}
    (h : ∀ gap rest, P (gap ++ rest) → P rest) :
    Triple P (skipWhitespace : Scan ε Unit) (fun _ => P) E := by
  intro s hs
  rw [← List.takeWhile_append_dropWhile (p := isWhitespace) (l := s)] at hs
  exact h _ _ hs

/-- A reader leaves no more than it found. -/
theorem Reader.scan_le (r : Reader ε α) {s rest : Bytes} {a : α}
    (h : r.scan s = (.ok a, rest)) : rest.length ≤ s.length := by
  by_cases hne : rest = []
  · rw [hne]
    exact Nat.zero_le _
  · obtain ⟨v, rfl⟩ := r.takes s a rest h hne
    rw [List.length_append]
    omega

namespace ObjectLoop

/-- `I st n` is kept by every turn, `n` being the bytes left, and `E` holds of the
errors. -/
structure Keeps (L : ObjectLoop σ ε) (I : σ → Nat → Prop) (E : ε → Prop) : Prop where
  mono : ∀ {st n n'}, I st n → n' ≤ n → I st n'
  malformed : ∀ {st n}, I st n → E (L.malformed st)
  checkKey : ∀ {st n key e}, I st n → L.checkKey st key = .error e → E e
  member : ∀ st (t : StringText), L.checkKey st (tokenOf t.val) = .ok () →
    Triple (fun s => I st (t.val.length + 3 + s.length)) (L.member st (tokenOf t.val))
      (fun st' s => I st' s.length) E

variable {L : ObjectLoop σ ε} {I : σ → Nat → Prop} {E : ε → Prop}

theorem Keeps.separator (h : L.Keeps I E) {again : σ → Scan ε (σ × LoopExit)}
    (hagain : ∀ st, Triple (fun s => I st s.length) (again st)
      (fun out s => I out.1 s.length) E) (st : σ) :
    Triple (fun s => I st s.length) (L.separator again st)
      (fun out s => I out.1 s.length) E := by
  have hskip : Triple (fun s => I st s.length) (skipWhitespace : Scan ε Unit)
      (fun _ s => I st s.length) E := by
    apply skipWhitespace_triple
    intro gap rest hs
    exact h.mono hs (by simp)
  have hnext : Triple (fun s => I st s.length) (next : Scan ε _)
      (fun _ s => I st s.length) E := by
    apply triple_next
    intro s hs
    exact h.mono hs (by simp)
  unfold ObjectLoop.separator
  apply hskip.bind
  rintro ⟨⟩
  apply hnext.bind
  intro c
  apply triple_of_ite
  · intro _
    exact triple_pure fun s hs => hs
  · intro _
    apply triple_of_ite
    · intro _
      apply hskip.bind
      rintro ⟨⟩
      apply (triple_peek fun s hs => hs : Triple _ _ (fun _ s => I st s.length) E).bind
      intro d
      apply triple_of_ite
      · intro _
        cases L.trailing with
        | unchecked => exact hagain st
        | rejected => exact triple_fail fun s hs => h.malformed hs
        | closes =>
            apply hnext.bind
            intro _
            exact triple_pure fun s hs => hs
      · intro _
        exact hagain st
    · intro _
      exact triple_fail fun s hs => h.malformed hs

theorem Keeps.turn (h : L.Keeps I E) {again : σ → Scan ε (σ × LoopExit)}
    (hagain : ∀ st, Triple (fun s => I st s.length) (again st)
      (fun out s => I out.1 s.length) E) (st : σ) :
    Triple (fun s => I st s.length) (L.turn again st)
      (fun out s => I out.1 s.length) E := by
  unfold ObjectLoop.turn
  apply (triple_peek fun s hs => hs : Triple _ _ (fun _ s => I st s.length) E).bind
  intro c
  apply triple_of_ite
  · intro _
    exact triple_pure fun s hs => hs
  intro _
  -- the key, with its two quotes
  have hkey : Triple (fun s => I st s.length) (scanString.orFail (L.malformed st))
      (fun key s => ∃ t : StringText, key = tokenOf t.val ∧
        I st (t.val.length + 2 + s.length)) E := by
    apply triple_orFail
    · intro s hs
      exact h.malformed hs
    · intro s key rest hs hscan
      obtain ⟨t, rfl, hkey⟩ := scanString_sound hscan
      refine ⟨t, hkey, h.mono hs ?_⟩
      simp only [List.length_cons, List.length_append]
      omega
  apply hkey.bind
  intro key s hs
  obtain ⟨t, rfl, hs⟩ := hs
  revert s
  have hcheck : Triple (fun s => I st (t.val.length + 2 + s.length))
      (ofExcept (L.checkKey st (tokenOf t.val)))
      (fun _ s => L.checkKey st (tokenOf t.val) = .ok () ∧
        I st (t.val.length + 2 + s.length)) E := by
    apply triple_ofExcept
    · rintro s ⟨⟩ hs hok
      exact ⟨hok, hs⟩
    · intro s e hs herror
      exact h.checkKey hs herror
  apply hcheck.bind
  rintro ⟨⟩ s ⟨hok, hs⟩
  revert s
  have hskip : ∀ n, Triple (fun s => I st (n + s.length)) (skipWhitespace : Scan ε Unit)
      (fun _ s => I st (n + s.length)) E := by
    intro n
    apply skipWhitespace_triple
    intro gap rest hs
    exact h.mono hs (by simp)
  apply (hskip _).bind
  rintro ⟨⟩
  have hcolon : Triple (fun s => I st (t.val.length + 2 + s.length))
      (expect 0x3A (L.malformed st))
      (fun _ s => I st (t.val.length + 3 + s.length)) E := by
    apply triple_expect
    · intro rest hs
      exact h.mono hs (by simp only [List.length_cons]; omega)
    · intro s hs
      exact h.malformed hs
  apply hcolon.bind
  rintro ⟨⟩
  apply (hskip _).bind
  rintro ⟨⟩
  apply (h.member st t hok).bind
  intro st'
  exact h.separator hagain st'

theorem Keeps.run (h : L.Keeps I E) (fuel : Nat) (st : σ) :
    Triple (fun s => I st s.length) (L.run fuel st) (fun out s => I out.1 s.length) E := by
  induction fuel generalizing st with
  | zero => exact triple_fail fun s hs => h.malformed hs
  | succ fuel ih => exact h.turn ih st

/-- What holds behind the opening brace holds when the loop is left. -/
theorem Keeps.parse (h : L.Keeps I E) (st : σ) :
    Triple (fun s => I st s.length) (L.parse st) (fun out s => I out.1 s.length) E := by
  unfold ObjectLoop.parse
  have hskip : Triple (fun s => I st s.length) (skipWhitespace : Scan ε Unit)
      (fun _ s => I st s.length) E := by
    apply skipWhitespace_triple
    intro gap rest hs
    exact h.mono hs (by simp)
  apply hskip.bind
  rintro ⟨⟩
  apply (triple_peek fun s hs => hs : Triple _ _ (fun _ s => I st s.length) E).bind
  intro c
  apply triple_of_ite
  · intro _
    have hnext : Triple (fun s => I st s.length) (next : Scan ε _)
        (fun _ s => I st s.length) E := by
      apply triple_next
      intro s hs
      exact h.mono hs (by simp)
    apply hnext.bind
    intro _
    exact triple_pure fun s hs => hs
  · intro _
    apply (triple_remaining fun s hs => hs : Triple _ _ (fun _ s => I st s.length) E).bind
    intro s₀
    exact h.run _ st

/-- A message of at most `size` bytes: what the invariant says of the object without
its opening brace. -/
theorem Keeps.document (h : L.Keeps I E) {notObject : ε}
    {leave : σ → LoopExit → Except ε Unit} {extra : σ → ε} {st : σ} {size : Nat}
    (hinit : ∀ n, n + 1 ≤ size → I st n) (hnotObject : E notObject)
    (hleave : ∀ {st n exit e}, I st n → leave st exit = .error e → E e)
    (hextra : ∀ {st n}, I st n → E (extra st)) :
    Triple (fun s => s.length ≤ size) (L.document notObject leave extra st)
      (fun out s => I out.1 s.length) E := by
  unfold ObjectLoop.document
  have hskip : ∀ {P : Nat → Prop}, (∀ {n n'}, P n → n' ≤ n → P n') →
      Triple (fun s => P s.length) (skipWhitespace : Scan ε Unit)
        (fun _ s => P s.length) E := by
    intro P hP
    apply skipWhitespace_triple
    intro gap rest hs
    exact hP hs (by simp)
  apply (hskip fun hn hle => Nat.le_trans hle hn).bind
  rintro ⟨⟩
  have hbrace : Triple (fun s => s.length ≤ size) (expect 0x7B notObject)
      (fun _ s => I st s.length) E := by
    apply triple_expect
    · intro rest hs
      exact hinit _ hs
    · intro _ _
      exact hnotObject
  apply hbrace.bind
  rintro ⟨⟩
  apply (h.parse st).bind
  rintro ⟨st', exit⟩
  have hleft : Triple (fun s => I st' s.length) (ofExcept (leave st' exit))
      (fun _ s => I st' s.length) E := by
    apply triple_ofExcept
    · intro s _ hs _
      exact hs
    · intro s e hs herror
      exact hleave hs herror
  apply hleft.bind
  rintro ⟨⟩
  apply (hskip h.mono).bind
  rintro ⟨⟩
  apply (triple_remaining fun s hs => hs : Triple _ _ (fun _ s => I st' s.length) E).bind
  intro s₀
  apply triple_of_ite
  · intro _
    exact triple_pure fun s hs => hs
  · intro _
    exact triple_fail fun s hs => hextra hs

end ObjectLoop

end NativeGuard.Protocol

import NativeGuard.Json.Scan

/-!
# Two scans of one text

`Alike P p q Q` says of two scans started on a text of which `P` holds that both end
in one error, or in one result with the same bytes left, of which `Q` holds. Where the
bytes are left on an error does not matter, since nothing reads on behind it.
-/

namespace NativeGuard.Json.Scan

variable {ε α β : Type}

/-- Two runs that end alike. -/
inductive SameRun (Q : α → Bytes → Prop) : Except ε α × Bytes → Except ε α × Bytes → Prop where
  | ok {a : α} {rest : Bytes} (h : Q a rest) : SameRun Q (.ok a, rest) (.ok a, rest)
  | error (e : ε) (rest rest' : Bytes) : SameRun Q (.error e, rest) (.error e, rest')

theorem SameRun.result {Q : α → Bytes → Prop} {r r' : Except ε α × Bytes}
    (h : SameRun Q r r') : r.1 = r'.1 := by
  cases h with
  | ok h => rfl
  | error e rest rest' => rfl

def Alike (P : Bytes → Prop) (p q : Scan ε α) (Q : α → Bytes → Prop) : Prop :=
  ∀ s, P s → SameRun Q (p s) (q s)

variable {P P' : Bytes → Prop} {Q : α → Bytes → Prop} {R : β → Bytes → Prop}

/-- A scan is like itself, if its result is as it should be. -/
theorem alike_self {p : Scan ε α} (h : ∀ s a rest, P s → p s = (.ok a, rest) → Q a rest) :
    Alike P p p Q := by
  intro s hs
  rcases hr : p s with ⟨r, rest⟩
  cases r with
  | ok a => exact SameRun.ok (h s a rest hs hr)
  | error e => exact SameRun.error e rest rest

theorem alike_pure {a : α} (h : ∀ s, P s → Q a s) : Alike P (pure a : Scan ε α) (pure a) Q :=
  fun s hs => SameRun.ok (h s hs)

theorem alike_fail (e : ε) : Alike P (fail e : Scan ε α) (fail e) Q :=
  fun s _ => SameRun.error e s s

theorem alike_ofExcept (r : Except ε α) :
    Alike P (ofExcept r) (ofExcept r) fun _ => P := by
  intro s hs
  cases r with
  | ok a => exact SameRun.ok hs
  | error e => exact SameRun.error e s s

theorem Alike.conseq {p q : Scan ε α} (h : Alike P p q Q) (hpre : ∀ s, P' s → P s) :
    Alike P' p q Q := fun s hs => h s (hpre s hs)

theorem Alike.bind {p q : Scan ε α} {f g : α → Scan ε β} (hp : Alike P p q Q)
    (hf : ∀ a, Alike (Q a) (f a) (g a) R) : Alike P (p >>= f) (q >>= g) R := by
  intro s hs
  rw [bind_apply, bind_apply]
  have hrun := hp s hs
  generalize p s = r at hrun ⊢
  generalize q s = r' at hrun ⊢
  cases hrun with
  | ok h => exact hf _ _ h
  | error e rest rest' => exact SameRun.error e rest rest'

theorem alike_peek :
    Alike P (peek : Scan ε _) peek fun c s => s.head? = c ∧ P s :=
  fun _ hs => SameRun.ok ⟨rfl, hs⟩

theorem alike_remaining : Alike P (remaining : Scan ε _) remaining fun t s => t = s ∧ P s :=
  fun _ hs => SameRun.ok ⟨rfl, hs⟩

/-- Behind a byte, what held in front of it. -/
theorem alike_next : Alike P (next : Scan ε _) next
    fun c rest => (c.toList ++ rest).head? = c ∧ P (c.toList ++ rest) := by
  intro s hs
  refine SameRun.ok ?_
  cases s with
  | nil => exact ⟨rfl, hs⟩
  | cons c rest => exact ⟨rfl, hs⟩

theorem alike_expect (b : UInt8) (e : ε) :
    Alike P (expect b e) (expect b e) fun _ rest => P (b :: rest) := by
  apply alike_self
  intro s u rest hs h
  rw [← expect_eq_ok.mp h]
  exact hs

theorem Alike.orFail {p q : Scan Unit α} (h : Alike P p q Q) (e : ε) :
    Alike P (p.orFail e) (q.orFail e) Q := by
  intro s hs
  have hrun := h s hs
  unfold Scan.orFail
  generalize p s = r at hrun ⊢
  generalize q s = r' at hrun ⊢
  cases hrun with
  | ok h => exact SameRun.ok h
  | error u rest rest' => exact SameRun.error e rest rest'

theorem Alike.captured {p q : Scan ε α} {P' : Bytes → Prop}
    (h : Alike P p q fun _ => P') : Alike P p.captured q.captured fun _ => P' := by
  intro s hs
  have hrun := h s hs
  unfold Scan.captured
  generalize p s = r at hrun ⊢
  generalize q s = r' at hrun ⊢
  cases hrun with
  | ok h => exact SameRun.ok h
  | error e rest rest' => exact SameRun.error e rest rest'

theorem alike_of_ite {c : Prop} [Decidable c] {p p' q q' : Scan ε α}
    (hp : c → Alike P p q Q) (hq : ¬ c → Alike P p' q' Q) :
    Alike P (if c then p else p') (if c then q else q') Q := by
  by_cases h : c
  · rw [if_pos h, if_pos h]
    exact hp h
  · rw [if_neg h, if_neg h]
    exact hq h

end NativeGuard.Json.Scan

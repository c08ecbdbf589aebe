import NativeGuard.Json.Scan

/-!
# Triples for scans

`Triple P p Q E` says of a scan started where `P` holds that it ends where `Q`
holds of its result, or in an error of which `E` holds. Unlike `Agrees` it asks
for no knowledge of the text, so it covers the inputs that a parser gives up on
half-way.
-/

namespace NativeGuard.Json.Scan

variable {ε α β : Type}

def Triple (P : Bytes → Prop) (p : Scan ε α) (Q : α → Bytes → Prop) (E : ε → Prop) :
    Prop :=
  ∀ s, P s → match p s with
    | (.ok a, rest) => Q a rest
    | (.error e, _) => E e

variable {P : Bytes → Prop} {Q : α → Bytes → Prop} {R : β → Bytes → Prop} {E : ε → Prop}

theorem Triple.of_ok {p : Scan ε α} (h : Triple P p Q E) {s rest : Bytes} {a : α}
    (hs : P s) (hp : p s = (.ok a, rest)) : Q a rest := by
  have hq := h s hs
  rw [hp] at hq
  exact hq

theorem Triple.of_error {p : Scan ε α} (h : Triple P p Q E) {s : Bytes} {e : ε}
    (hs : P s) (hp : (p s).1 = .error e) : E e := by
  have hq := h s hs
  rcases hr : p s with ⟨r, rest⟩
  rw [hr] at hq hp
  cases hp
  exact hq

theorem triple_pure {a : α} (h : ∀ s, P s → Q a s) : Triple P (pure a : Scan ε α) Q E :=
  h

theorem triple_fail {e : ε} (h : ∀ s, P s → E e) : Triple P (fail e : Scan ε α) Q E :=
  h

theorem Triple.bind {p : Scan ε α} {f : α → Scan ε β} (hp : Triple P p Q E)
    (hf : ∀ a, Triple (Q a) (f a) R E) : Triple P (p >>= f) R E := by
  intro s hs
  have hq := hp s hs
  rw [bind_apply]
  rcases hr : p s with ⟨r, rest⟩
  rw [hr] at hq
  cases r with
  | ok a => exact hf a rest hq
  | error e => exact hq

/-- A scan whose failures are all reported as `e`. -/
theorem triple_orFail {p : Scan Unit α} {e : ε} (he : ∀ s, P s → E e)
    (hp : ∀ s a rest, P s → p s = (.ok a, rest) → Q a rest) :
    Triple P (p.orFail e) Q E := by
  intro s hs
  unfold orFail
  rcases hr : p s with ⟨r, rest⟩
  cases r with
  | ok a => exact hp s a rest hs hr
  | error u => exact he s hs

theorem triple_ofExcept {r : Except ε α} (hok : ∀ s a, P s → r = .ok a → Q a s)
    (herror : ∀ s e, P s → r = .error e → E e) : Triple P (ofExcept r) Q E := by
  intro s hs
  unfold ofExcept
  cases r with
  | ok a => exact hok s a hs rfl
  | error e => exact herror s e hs rfl

theorem triple_next {Q : Option UInt8 → Bytes → Prop}
    (h : ∀ s, P s → Q s.head? s.tail) : Triple P (next : Scan ε _) Q E := h

theorem triple_peek {Q : Option UInt8 → Bytes → Prop}
    (h : ∀ s, P s → Q s.head? s) : Triple P (peek : Scan ε _) Q E := h

theorem triple_remaining {Q : Bytes → Bytes → Prop}
    (h : ∀ s, P s → Q s s) : Triple P (remaining : Scan ε _) Q E := h

theorem triple_expect {b : UInt8} {e : ε} {Q : Unit → Bytes → Prop}
    (hok : ∀ rest, P (b :: rest) → Q () rest) (herror : ∀ s, P s → E e) :
    Triple P (expect b e) Q E := by
  intro s hs
  cases s with
  | nil => exact herror [] hs
  | cons c rest =>
      by_cases hc : c = b
      · subst hc
        rw [expect_run]
        exact hok rest hs
      · have hfail : expect b e (c :: rest) = (.error e, rest) := by
          have hne : ¬ some c = some b := fun h => hc (Option.some.inj h)
          show (if some c = some b then pure () else fail e : Scan ε Unit) rest = _
          rw [if_neg hne]
          rfl
        rw [hfail]
        exact herror _ hs

theorem triple_captured {p : Scan ε α} {Q : α × Bytes → Bytes → Prop}
    (hok : ∀ s a rest, P s → p s = (.ok a, rest) →
      Q (a, s.take (s.length - rest.length)) rest)
    (herror : ∀ s e, P s → (p s).1 = .error e → E e) : Triple P p.captured Q E := by
  intro s hs
  unfold captured
  rcases hr : p s with ⟨r, rest⟩
  cases r with
  | ok a => exact hok s a rest hs hr
  | error e => exact herror s e hs (by rw [hr])

theorem triple_of_ite {c : Prop} [Decidable c] {p q : Scan ε α} (hp : c → Triple P p Q E)
    (hq : ¬ c → Triple P q Q E) : Triple P (if c then p else q) Q E := by
  by_cases h : c
  · rw [if_pos h]
    exact hp h
  · rw [if_neg h]
    exact hq h

end NativeGuard.Json.Scan

import NativeGuard.Json.Grammar

/-!
# Scans: parsers over a cursor

A scan reads from the bytes left of its input and returns a result together
with the bytes it left, on failure too: the cursor of a hand-written parser is
a by-reference offset and stays where the failing step put it.

`Agrees p s r rest` is the calculus for running a scan on a known text: `p`
started at `s` gives the result `r`, and when `r` is a success leaves exactly
`rest`. It composes along `bind` (`Agrees.bind`), so a scan written step by
step agrees with the same program written over trees.
-/

namespace NativeGuard.Json

/-- A parser over the bytes left of the input. -/
def Scan (ε α : Type) : Type := Bytes → Except ε α × Bytes

namespace Scan

variable {ε α β : Type}

instance : Monad (Scan ε) where
  pure a := fun s => (.ok a, s)
  bind p f := fun s =>
    match p s with
    | (.ok a, rest) => f a rest
    | (.error e, rest) => (.error e, rest)

def fail (e : ε) : Scan ε α := fun s => (.error e, s)

/-- Report any failure of `p` as `e`. -/
def orFail (p : Scan Unit α) (e : ε) : Scan ε α := fun s =>
  match p s with
  | (.ok a, rest) => (.ok a, rest)
  | (.error _, rest) => (.error e, rest)

/-- Use a scan as a condition; the cursor stays where `p` left it. -/
def attempt (p : Scan Unit Unit) : Scan ε Bool := fun s =>
  match p s with
  | (.ok _, rest) => (.ok true, rest)
  | (.error _, rest) => (.ok false, rest)

def ofExcept (r : Except ε α) : Scan ε α := fun s => (r, s)

/-- The bytes left. -/
def remaining : Scan ε Bytes := fun s => (.ok s, s)

/-- The next byte, not consumed; `none` at the end of the input. -/
def peek : Scan ε (Option UInt8) := fun s => (.ok s.head?, s)

/-- The next byte, consumed; `none` at the end of the input. -/
def next : Scan ε (Option UInt8) := fun s => (.ok s.head?, s.tail)

/-- Consume one byte, which must be `b`. -/
def expect (b : UInt8) (e : ε) : Scan ε Unit := do
  let c ← next
  if c = some b then pure () else fail e

/-- Run `p` and return its result with the slice of the input it consumed. -/
def captured (p : Scan ε α) : Scan ε (α × Bytes) := fun s =>
  match p s with
  | (.ok a, rest) => (.ok (a, s.take (s.length - rest.length)), rest)
  | (.error e, rest) => (.error e, rest)

/-! ## Runs that succeed -/

theorem pure_apply (a : α) (s : Bytes) : (pure a : Scan ε α) s = (.ok a, s) :=
  rfl

theorem bind_apply (p : Scan ε α) (f : α → Scan ε β) (s : Bytes) :
    (p >>= f) s = match p s with
      | (.ok a, rest) => f a rest
      | (.error e, rest) => (.error e, rest) := rfl

theorem bind_eq_ok {p : Scan ε α} {f : α → Scan ε β} {s rest : Bytes} {b : β} :
    (p >>= f) s = (.ok b, rest) ↔
      ∃ a mid, p s = (.ok a, mid) ∧ f a mid = (.ok b, rest) := by
  rw [bind_apply]
  rcases hp : p s with ⟨r, mid⟩
  cases r with
  | ok a => simp
  | error e => simp

@[simp] theorem fail_ne_ok {e : ε} {s rest : Bytes} {a : α} :
    fail e s = (.ok a, rest) ↔ False := by
  simp [fail]

@[simp] theorem pure_eq_ok {a b : α} {s rest : Bytes} :
    (pure a : Scan ε α) s = (.ok b, rest) ↔ a = b ∧ s = rest := by
  simp [pure_apply]

theorem orFail_eq_ok {p : Scan Unit α} {e : ε} {s rest : Bytes} {a : α} :
    p.orFail e s = (.ok a, rest) ↔ p s = (.ok a, rest) := by
  unfold orFail
  rcases p s with ⟨r, mid⟩
  cases r <;> simp

@[simp] theorem ofExcept_eq_ok {r : Except ε α} {s rest : Bytes} {a : α} :
    ofExcept r s = (.ok a, rest) ↔ r = .ok a ∧ s = rest := by
  simp [ofExcept]

@[simp] theorem remaining_eq_ok {s rest a : Bytes} :
    (remaining : Scan ε Bytes) s = (.ok a, rest) ↔ a = s ∧ s = rest := by
  simp [remaining, eq_comm]

@[simp] theorem peek_eq_ok {s rest : Bytes} {b : Option UInt8} :
    (peek : Scan ε _) s = (.ok b, rest) ↔ b = s.head? ∧ s = rest := by
  simp [peek, eq_comm]

@[simp] theorem next_eq_ok {s rest : Bytes} {b : Option UInt8} :
    (next : Scan ε _) s = (.ok b, rest) ↔ b = s.head? ∧ s.tail = rest := by
  simp [next, eq_comm]

@[simp] theorem expect_eq_ok {b : UInt8} {e : ε} {s rest : Bytes} {u : Unit} :
    expect b e s = (.ok u, rest) ↔ s = b :: rest := by
  unfold expect
  rw [bind_eq_ok]
  constructor
  · rintro ⟨c, mid, hc, h⟩
    obtain ⟨rfl, rfl⟩ := next_eq_ok.mp hc
    cases s with
    | nil => simp at h
    | cons x s =>
        by_cases hx : x = b
        · simp [hx] at h
          rw [hx, h]
        · simp [hx] at h
  · rintro rfl
    exact ⟨some b, rest, by simp, by simp⟩

theorem expect_run (b : UInt8) (e : ε) (rest : Bytes) :
    expect b e (b :: rest) = (.ok (), rest) :=
  expect_eq_ok.mpr rfl

theorem captured_eq_ok {p : Scan ε α} {s rest : Bytes} {a : α} {slice : Bytes} :
    p.captured s = (.ok (a, slice), rest) ↔
      p s = (.ok a, rest) ∧ slice = s.take (s.length - rest.length) := by
  unfold captured
  rcases p s with ⟨r, mid⟩
  cases r with
  | ok b =>
      simp only [Prod.mk.injEq, Except.ok.injEq]
      constructor
      · rintro ⟨⟨rfl, rfl⟩, rfl⟩
        exact ⟨⟨rfl, rfl⟩, rfl⟩
      · rintro ⟨⟨rfl, rfl⟩, rfl⟩
        exact ⟨⟨rfl, rfl⟩, rfl⟩
  | error e => simp

theorem peek_run (s : Bytes) : (peek : Scan ε _) s = (.ok s.head?, s) := rfl

theorem next_run (s : Bytes) : (next : Scan ε _) s = (.ok s.head?, s.tail) := rfl

theorem remaining_run (s : Bytes) : (remaining : Scan ε _) s = (.ok s, s) := rfl

/-! The same along `bind`, for reading a run step by step. -/

theorem peek_bind (f : Option UInt8 → Scan ε β) (s : Bytes) :
    (peek >>= f) s = f s.head? s := rfl

theorem next_bind (f : Option UInt8 → Scan ε β) (s : Bytes) :
    (next >>= f) s = f s.head? s.tail := rfl

theorem remaining_bind (f : Bytes → Scan ε β) (s : Bytes) :
    (remaining >>= f) s = f s s := rfl

theorem expect_bind_ok {b : UInt8} {e : ε} {f : Unit → Scan ε β}
    {s rest : Bytes} {r : β} (h : (expect b e >>= f) s = (.ok r, rest)) :
    ∃ tail, s = b :: tail ∧ f () tail = (.ok r, rest) := by
  obtain ⟨u, mid, hu, h⟩ := bind_eq_ok.mp h
  exact ⟨mid, expect_eq_ok.mp hu, h⟩

theorem ofExcept_bind_ok {r : Except ε α} {f : α → Scan ε β} {s rest : Bytes}
    {b : β} (h : (ofExcept r >>= f) s = (.ok b, rest)) :
    ∃ a, r = .ok a ∧ f a s = (.ok b, rest) := by
  obtain ⟨a, mid, ha, h⟩ := bind_eq_ok.mp h
  obtain ⟨hr, rfl⟩ := ofExcept_eq_ok.mp ha
  exact ⟨a, hr, h⟩

/-- The slice between two cursors on one text. -/
theorem take_length_sub (x rest : Bytes) :
    (x ++ rest).take ((x ++ rest).length - rest.length) = x := by
  simp

/-! ## Agreement with a known result -/

/-- `p` started at `s` gives `r`, leaving exactly `rest` if it succeeds. -/
def Agrees (p : Scan ε α) (s : Bytes) (r : Except ε α) (rest : Bytes) : Prop :=
  match r with
  | .ok a => p s = (.ok a, rest)
  | .error e => (p s).1 = .error e

theorem agrees_ok {p : Scan ε α} {s rest : Bytes} {a : α} :
    Agrees p s (.ok a) rest ↔ p s = (.ok a, rest) := Iff.rfl

theorem agrees_error {p : Scan ε α} {s rest : Bytes} {e : ε} :
    Agrees p s (.error e) rest ↔ (p s).1 = .error e := Iff.rfl

theorem Agrees.result {p : Scan ε α} {s rest : Bytes} {r : Except ε α}
    (h : Agrees p s r rest) : (p s).1 = r := by
  cases r with
  | ok a => rw [agrees_ok.mp h]
  | error e => exact h

theorem Agrees.bind {p : Scan ε α} {f : α → Scan ε β} {s mid rest : Bytes}
    {r : Except ε α} {g : α → Except ε β} (hp : Agrees p s r mid)
    (hf : ∀ a, r = .ok a → Agrees (f a) mid (g a) rest) :
    Agrees (p >>= f) s (r >>= g) rest := by
  cases r with
  | ok a =>
      have h := hf a rfl
      rw [agrees_ok] at hp
      unfold Agrees at h ⊢
      rw [bind_apply, hp]
      exact h
  | error e =>
      rw [agrees_error] at hp
      show ((p >>= f) s).1 = .error e
      rw [bind_apply]
      rcases hps : p s with ⟨r, m⟩
      rw [hps] at hp
      cases hp
      rfl

/-- `Agrees.bind` for a first step that cannot fail. -/
theorem Agrees.bind_ok {p : Scan ε α} {f : α → Scan ε β} {s mid rest : Bytes}
    {a : α} {r : Except ε β} (hp : p s = (.ok a, mid))
    (hf : Agrees (f a) mid r rest) : Agrees (p >>= f) s r rest := by
  unfold Agrees at hf ⊢
  rw [bind_apply, hp]
  exact hf

theorem agrees_pure (a : α) (s : Bytes) :
    Agrees (pure a : Scan ε α) s (.ok a) s := rfl

theorem agrees_fail (e : ε) (s rest : Bytes) :
    Agrees (fail e : Scan ε α) s (.error e) rest := rfl

/-- Where another byte stands, nothing behind `expect` runs. -/
theorem agrees_expect_ne {b : UInt8} {e : ε} {f : Unit → Scan ε α} {s : Bytes}
    (h : s.head? ≠ some b) (rest : Bytes) : Agrees (expect b e >>= f) s (.error e) rest := by
  have hexpect : Agrees (expect b e) s (.error e) rest := by
    unfold expect
    refine Agrees.bind_ok (next_run s) ?_
    rw [if_neg h]
    exact agrees_fail e _ rest
  exact Agrees.bind hexpect (g := fun _ => .error e) nofun

theorem agrees_ofExcept (r : Except ε α) (s : Bytes) :
    Agrees (ofExcept r) s r s := by
  cases r <;> rfl

theorem except_bind_ok {r : Except ε α} {f : α → Except ε β} {b : β} :
    (r >>= f) = .ok b ↔ ∃ a, r = .ok a ∧ f a = .ok b := by
  cases r with
  | ok a =>
      constructor
      · intro h
        exact ⟨a, rfl, h⟩
      · rintro ⟨_, ⟨⟩, h⟩
        exact h
  | error e =>
      constructor
      · intro h
        cases h
      · rintro ⟨_, ⟨⟩, -⟩

theorem except_mapError_ok {ε' : Type} {r : Except ε α} {f : ε → ε'} {a : α} :
    r.mapError f = .ok a ↔ r = .ok a := by
  cases r with
  | ok b => simp [Except.mapError]
  | error e => simp [Except.mapError]

/-- The tree-level counterpart of `orFail`. -/
def failWith (e : ε) : Except Unit α → Except ε α
  | .ok a => .ok a
  | .error _ => .error e

@[simp] theorem failWith_ok (e : ε) (a : α) : failWith e (.ok a) = .ok a := rfl

@[simp] theorem failWith_error (e : ε) (u : Unit) :
    failWith e (.error u : Except Unit α) = .error e := rfl

theorem Agrees.orFail {p : Scan Unit α} {s rest : Bytes} {r : Except Unit α}
    (e : ε) (h : Agrees p s r rest) :
    Agrees (p.orFail e) s (failWith e r) rest := by
  cases r with
  | ok a =>
      rw [agrees_ok] at h
      exact orFail_eq_ok.mpr h
  | error u =>
      have h : (p s).1 = .error u := h
      show (p.orFail e s).1 = .error e
      unfold Scan.orFail
      rcases hps : p s with ⟨r, m⟩
      rw [hps] at h
      cases h
      rfl

/-- A scan that agrees on `x ++ rest` and consumes `x` captures `x`. -/
theorem Agrees.captured {p : Scan ε α} {x rest : Bytes} {r : Except ε α}
    (h : Agrees p (x ++ rest) r rest) :
    Agrees p.captured (x ++ rest) (r.map fun a => (a, x)) rest := by
  cases r with
  | ok a =>
      rw [agrees_ok] at h
      exact captured_eq_ok.mpr ⟨h, (take_length_sub x rest).symm⟩
  | error e =>
      have h : (p (x ++ rest)).1 = .error e := h
      show (p.captured (x ++ rest)).1 = .error e
      unfold Scan.captured
      rcases hps : p (x ++ rest) with ⟨r, m⟩
      rw [hps] at h
      cases h
      rfl

end Scan

end NativeGuard.Json

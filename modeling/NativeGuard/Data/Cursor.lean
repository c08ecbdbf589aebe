import Mathlib.Order.Basic

/-!
# Programs over an offset

A hand-written scanner holds an offset by reference and indexes the buffer with it. A
`Cursor` is such a program: reading outside the buffer and subtracting an offset beyond
the size are faults, not results, and so is a loop that takes more turns than there are
elements left. `Runs` says of a program that it has no fault, that its offset stays
between its start and the size, and what it returns; its rules follow the constructs of
the program. A frame counts the activations of a recursive program that nest.
-/

namespace NativeGuard.Data

inductive Fault where
  | outside
  | wrapped
  | unfinished
deriving DecidableEq, Repr

/-- `frames` is the deepest nest of activations. -/
structure Run (ε α : Type) where
  result : Except ε α
  offset : Nat
  frames : Nat := 0
deriving DecidableEq

def Cursor (γ ε α : Type) : Type := List γ → Nat → Except Fault (Run ε α)

namespace Cursor

variable {γ ε ε' α β σ : Type}

/-! ## §1  Programs -/

instance : Monad (Cursor γ ε) where
  pure a := fun _ i => .ok ⟨.ok a, i, 0⟩
  bind p f := fun s i =>
    match p s i with
    | .error fault => .error fault
    | .ok ⟨.error e, j, n⟩ => .ok ⟨.error e, j, n⟩
    | .ok ⟨.ok a, j, n⟩ =>
        match f a s j with
        | .error fault => .error fault
        | .ok run => .ok { run with frames := max n run.frames }

def fail (e : ε) : Cursor γ ε α := fun _ i => .ok ⟨.error e, i, 0⟩

def ofExcept (r : Except ε α) : Cursor γ ε α := fun _ i => .ok ⟨r, i, 0⟩

def mapError (f : ε' → ε) (p : Cursor γ ε' α) : Cursor γ ε α := fun s i =>
  match p s i with
  | .error fault => .error fault
  | .ok ⟨.error e, j, n⟩ => .ok ⟨.error (f e), j, n⟩
  | .ok ⟨.ok a, j, n⟩ => .ok ⟨.ok a, j, n⟩

/-- Report any failure of `p` as `e`. -/
def orFail (p : Cursor γ ε' α) (e : ε) : Cursor γ ε α := p.mapError fun _ => e

/-- The result of `p`, if it has one; the offset stays where `p` left it. -/
def attempt (p : Cursor γ ε' α) : Cursor γ ε (Option α) := fun s i =>
  match p s i with
  | .error fault => .error fault
  | .ok ⟨.error _, j, n⟩ => .ok ⟨.ok none, j, n⟩
  | .ok ⟨.ok a, j, n⟩ => .ok ⟨.ok (some a), j, n⟩

def offset : Cursor γ ε Nat := fun _ i => .ok ⟨.ok i, i, 0⟩

/-- `offset < size`. -/
def inside : Cursor γ ε Bool := fun s i => .ok ⟨.ok (decide (i < s.length)), i, 0⟩

/-- `offset >= size`. -/
def outside : Cursor γ ε Bool := fun s i => .ok ⟨.ok (decide (i ≥ s.length)), i, 0⟩

/-- `offset == size`. -/
def atEnd : Cursor γ ε Bool := fun s i => .ok ⟨.ok (decide (i = s.length)), i, 0⟩

/-- `size - offset`. -/
def left : Cursor γ ε Nat := fun s i =>
  if i ≤ s.length then .ok ⟨.ok (s.length - i), i, 0⟩ else .error .wrapped

/-- The element at an index. -/
def entry (index : Nat) : Cursor γ ε γ := fun s i =>
  match s[index]? with
  | some a => .ok ⟨.ok a, i, 0⟩
  | none => .error .outside

/-- The elements from `first` to before `last`. -/
def slice (first last : Nat) : Cursor γ ε (List γ) := fun s i =>
  if first ≤ last ∧ last ≤ s.length then
    .ok ⟨.ok ((s.drop first).take (last - first)), i, 0⟩
  else .error .outside

def advance (n : Nat) : Cursor γ ε Unit := fun _ i => .ok ⟨.ok (), i + n, 0⟩

def current : Cursor γ ε γ := do
  entry (← offset)

def take : Cursor γ ε γ := do
  let a ← current
  advance 1
  pure a

/-- One activation more. -/
def frame (p : Cursor γ ε α) : Cursor γ ε α := fun s i =>
  match p s i with
  | .error fault => .error fault
  | .ok run => .ok { run with frames := run.frames + 1 }

/-- A program that may go as deep as there are elements left, and one step more. -/
def withFuel (p : Nat → Cursor γ ε α) : Cursor γ ε α := fun s i =>
  p (s.length - i + 1) s i

def turns (body : σ → Cursor γ ε (σ ⊕ α)) : Nat → σ → Cursor γ ε α
  | 0, _ => fun _ _ => .error .unfinished
  | fuel + 1, st => do
      match ← body st with
      | .inl st => turns body fuel st
      | .inr a => pure a

/-- Take turns until the body leaves the loop. -/
def loop (body : σ → Cursor γ ε (σ ⊕ α)) (st : σ) : Cursor γ ε α :=
  withFuel fun fuel => turns body fuel st

/-! ## §2  Runs -/

/-- Started at `i`, `p` runs without a fault, stays in the buffer, nests at most `n`
activations and ends with a result and an offset that satisfy `Q`. -/
def Runs (s : List γ) (i n : Nat) (p : Cursor γ ε α) (Q : Except ε α → Nat → Prop) : Prop :=
  ∃ run, p s i = .ok run ∧ i ≤ run.offset ∧ run.offset ≤ s.length ∧ run.frames ≤ n ∧
    Q run.result run.offset

variable {s : List γ} {i n : Nat} {Q : Except ε α → Nat → Prop}

theorem Runs.mono {p : Cursor γ ε α} {n' : Nat} {P : Except ε α → Nat → Prop}
    (h : Runs s i n' p P) (hn : n' ≤ n)
    (himp : ∀ r j, i ≤ j → j ≤ s.length → P r j → Q r j) : Runs s i n p Q := by
  obtain ⟨run, hrun, hle, hsize, hframes, hpost⟩ := h
  exact ⟨run, hrun, hle, hsize, Nat.le_trans hframes hn, himp _ _ hle hsize hpost⟩

theorem Runs.post {p : Cursor γ ε α} {P : Except ε α → Nat → Prop} (h : Runs s i n p P)
    (himp : ∀ r j, i ≤ j → j ≤ s.length → P r j → Q r j) : Runs s i n p Q :=
  h.mono (Nat.le_refl _) himp

theorem runs_ofExcept {r : Except ε α} (hi : i ≤ s.length) (h : Q r i) :
    Runs s i n (ofExcept r) Q :=
  ⟨_, rfl, Nat.le_refl _, hi, Nat.zero_le _, h⟩

theorem runs_pure {a : α} (hi : i ≤ s.length) (h : Q (.ok a) i) : Runs s i n (pure a) Q :=
  ⟨_, rfl, Nat.le_refl _, hi, Nat.zero_le _, h⟩

theorem runs_fail {e : ε} (hi : i ≤ s.length) (h : Q (.error e) i) : Runs s i n (fail e) Q :=
  ⟨_, rfl, Nat.le_refl _, hi, Nat.zero_le _, h⟩

theorem bind_ok {p : Cursor γ ε α} {f : α → Cursor γ ε β} {a : α} {j m : Nat} {run : Run ε β}
    (hp : p s i = .ok ⟨.ok a, j, m⟩) (hf : f a s j = .ok run) :
    (p >>= f) s i = .ok { run with frames := max m run.frames } := by
  have hbind : (p >>= f) s i = match p s i with
      | .error fault => .error fault
      | .ok ⟨.error e, j, n⟩ => .ok ⟨.error e, j, n⟩
      | .ok ⟨.ok a, j, n⟩ =>
          match f a s j with
          | .error fault => .error fault
          | .ok run => .ok { run with frames := max n run.frames } := rfl
  rw [hp] at hbind
  dsimp only at hbind
  rwa [hf] at hbind

theorem bind_error {p : Cursor γ ε α} {f : α → Cursor γ ε β} {e : ε} {j m : Nat}
    (hp : p s i = .ok ⟨.error e, j, m⟩) : (p >>= f) s i = .ok ⟨.error e, j, m⟩ := by
  have hbind : (p >>= f) s i = match p s i with
      | .error fault => .error fault
      | .ok ⟨.error e, j, n⟩ => .ok ⟨.error e, j, n⟩
      | .ok ⟨.ok a, j, n⟩ =>
          match f a s j with
          | .error fault => .error fault
          | .ok run => .ok { run with frames := max n run.frames } := rfl
  rwa [hp] at hbind

/-- A program in two steps that returns has failed in the first, or returns what the
second returned. -/
theorem bind_cases {p : Cursor γ ε α} {f : α → Cursor γ ε β} {run : Run ε β}
    (h : (p >>= f) s i = .ok run) :
    (∃ e, run.result = .error e ∧ p s i = .ok ⟨.error e, run.offset, run.frames⟩) ∨
      ∃ a j m₁ m₂, p s i = .ok ⟨.ok a, j, m₁⟩ ∧
        f a s j = .ok ⟨run.result, run.offset, m₂⟩ := by
  have hbind : (p >>= f) s i = match p s i with
      | .error fault => .error fault
      | .ok ⟨.error e, j, n⟩ => .ok ⟨.error e, j, n⟩
      | .ok ⟨.ok a, j, n⟩ =>
          match f a s j with
          | .error fault => .error fault
          | .ok run => .ok { run with frames := max n run.frames } := rfl
  rw [h] at hbind
  rcases hp : p s i with fault | ⟨e | a, j, n⟩
  · rw [hp] at hbind
    cases hbind
  · rw [hp] at hbind
    cases hbind
    exact .inl ⟨e, rfl, rfl⟩
  · rw [hp] at hbind
    dsimp only at hbind
    rcases hf : f a s j with fault | ⟨r, l, n'⟩
    · rw [hf] at hbind
      cases hbind
    · rw [hf] at hbind
      cases hbind
      exact .inr ⟨a, j, n, n', rfl, hf⟩

/-- A program that succeeds has succeeded in its first step. -/
theorem bind_inv {p : Cursor γ ε α} {f : α → Cursor γ ε β} {b : β} {k m : Nat}
    (h : (p >>= f) s i = .ok ⟨.ok b, k, m⟩) :
    ∃ a j m₁ m₂, p s i = .ok ⟨.ok a, j, m₁⟩ ∧ f a s j = .ok ⟨.ok b, k, m₂⟩ := by
  obtain ⟨e, hresult, -⟩ | hsecond := bind_cases h
  · cases hresult
  · exact hsecond

theorem frame_inv {p : Cursor γ ε α} {r : Except ε α} {k m : Nat}
    (h : frame p s i = .ok ⟨r, k, m⟩) : ∃ m', p s i = .ok ⟨r, k, m'⟩ := by
  have hframe : frame p s i = match p s i with
      | .error fault => .error fault
      | .ok run => .ok { run with frames := run.frames + 1 } := rfl
  rw [h] at hframe
  rcases hp : p s i with fault | ⟨r', l, n⟩
  · rw [hp] at hframe
    cases hframe
  · rw [hp] at hframe
    cases hframe
    exact ⟨n, rfl⟩

theorem Runs.bind {p : Cursor γ ε α} {f : α → Cursor γ ε β} {P : Except ε α → Nat → Prop}
    {Q : Except ε β → Nat → Prop} (hp : Runs s i n p P)
    (hf : ∀ a j, i ≤ j → j ≤ s.length → P (.ok a) j → Runs s j n (f a) Q)
    (he : ∀ e j, i ≤ j → j ≤ s.length → P (.error e) j → Q (.error e) j) :
    Runs s i n (p >>= f) Q := by
  obtain ⟨⟨r, j, m⟩, hrun, hle, hsize, hframes, hpost⟩ := hp
  cases r with
  | error e => exact ⟨_, bind_error hrun, hle, hsize, hframes, he e j hle hsize hpost⟩
  | ok a =>
      obtain ⟨run, hnext, hle', hsize', hframes', hpost'⟩ := hf a j hle hsize hpost
      exact ⟨_, bind_ok hrun hnext, Nat.le_trans hle hle', hsize',
        Nat.max_le.mpr ⟨hframes, hframes'⟩, hpost'⟩

/-- A step that is known. -/
theorem Runs.step {p : Cursor γ ε α} {f : α → Cursor γ ε β} {Q : Except ε β → Nat → Prop}
    {a : α} {j : Nat} (hp : p s i = .ok ⟨.ok a, j, 0⟩) (hle : i ≤ j)
    (hf : Runs s j n (f a) Q) : Runs s i n (p >>= f) Q := by
  obtain ⟨run, hrun, hle', hsize, hframes, hpost⟩ := hf
  have hfirst : Runs s i n p fun r k => r = .ok a ∧ k = j :=
    ⟨_, hp, hle, Nat.le_trans hle' hsize, Nat.zero_le _, rfl, rfl⟩
  refine hfirst.bind (fun b k _ _ h => ?_) fun e k _ _ h => by cases h.1
  obtain ⟨hb, rfl⟩ := h
  cases hb
  exact ⟨run, hrun, hle', hsize, hframes, hpost⟩

theorem Runs.mapError {p : Cursor γ ε' α} {f : ε' → ε} {P : Except ε' α → Nat → Prop}
    (h : Runs s i n p P) (hok : ∀ a j, i ≤ j → j ≤ s.length → P (.ok a) j → Q (.ok a) j)
    (herror : ∀ e j, i ≤ j → j ≤ s.length → P (.error e) j → Q (.error (f e)) j) :
    Runs s i n (p.mapError f) Q := by
  obtain ⟨⟨r, j, m⟩, hrun, hle, hsize, hframes, hpost⟩ := h
  have hreport : p.mapError f s i = match p s i with
      | .error fault => .error fault
      | .ok ⟨.error e, j, n⟩ => .ok ⟨.error (f e), j, n⟩
      | .ok ⟨.ok a, j, n⟩ => .ok ⟨.ok a, j, n⟩ := rfl
  rw [hrun] at hreport
  cases r with
  | error e => exact ⟨_, hreport, hle, hsize, hframes, herror e j hle hsize hpost⟩
  | ok a => exact ⟨_, hreport, hle, hsize, hframes, hok a j hle hsize hpost⟩

theorem Runs.attempt {p : Cursor γ ε' α} {P : Except ε' α → Nat → Prop} (h : Runs s i n p P) :
    Runs s i n (attempt p : Cursor γ ε (Option α)) fun r j =>
      (∃ a, r = .ok (some a) ∧ P (.ok a) j) ∨ ∃ e, r = .ok none ∧ P (.error e) j := by
  obtain ⟨⟨r, j, m⟩, hrun, hle, hsize, hframes, hpost⟩ := h
  have hattempt : (Cursor.attempt p : Cursor γ ε (Option α)) s i = match p s i with
      | .error fault => .error fault
      | .ok ⟨.error _, j, n⟩ => .ok ⟨.ok none, j, n⟩
      | .ok ⟨.ok a, j, n⟩ => .ok ⟨.ok (some a), j, n⟩ := rfl
  rw [hrun] at hattempt
  cases r with
  | error e => exact ⟨_, hattempt, hle, hsize, hframes, Or.inr ⟨e, rfl, hpost⟩⟩
  | ok a => exact ⟨_, hattempt, hle, hsize, hframes, Or.inl ⟨a, rfl, hpost⟩⟩

theorem Runs.frame {p : Cursor γ ε α} (h : Runs s i n p Q) : Runs s i (n + 1) (frame p) Q := by
  obtain ⟨run, hrun, hle, hsize, hframes, hpost⟩ := h
  have hframe : Cursor.frame p s i = match p s i with
      | .error fault => .error fault
      | .ok run => .ok { run with frames := run.frames + 1 } := rfl
  rw [hrun] at hframe
  exact ⟨_, hframe, hle, hsize, Nat.succ_le_succ hframes, hpost⟩

/-- The program ends inside the buffer, and has not gone back. -/
def Stays (p : Cursor γ ε α) (s : List γ) (i : Nat) : Prop :=
  ∃ run, p s i = .ok run ∧ i ≤ run.offset ∧ run.offset ≤ s.length

/-- ... and if it succeeds, it has gone on. -/
def Advances (p : Cursor γ ε α) (s : List γ) (i : Nat) : Prop :=
  ∃ run, p s i = .ok run ∧ i ≤ run.offset ∧ run.offset ≤ s.length ∧
    ∀ a, run.result = .ok a → i < run.offset

def NestsAtMost (p : Cursor γ ε α) (s : List γ) (i n : Nat) : Prop :=
  ∃ run, p s i = .ok run ∧ run.frames ≤ n

theorem Runs.stays {p : Cursor γ ε α} (h : Runs s i n p Q) : Stays p s i := by
  obtain ⟨run, hrun, hle, hsize, -⟩ := h
  exact ⟨run, hrun, hle, hsize⟩

theorem Runs.advances {p : Cursor γ ε α} (h : Runs s i n p Q)
    (hmoves : ∀ a j, i ≤ j → j ≤ s.length → Q (.ok a) j → i < j) : Advances p s i := by
  obtain ⟨⟨r, j, m⟩, hrun, hle, hsize, -, hpost⟩ := h
  refine ⟨_, hrun, hle, hsize, fun a ha => hmoves a j hle hsize ?_⟩
  cases ha
  exact hpost

theorem Runs.nests {p : Cursor γ ε α} (h : Runs s i n p Q) : NestsAtMost p s i n := by
  obtain ⟨run, hrun, -, -, hframes, -⟩ := h
  exact ⟨run, hrun, hframes⟩

/-! ## §3  Steps -/

/-- Behind a failure nothing runs. -/
theorem runs_failed {e : ε} {f : α → Cursor γ ε β} {Q : Except ε β → Nat → Prop}
    (hi : i ≤ s.length) (h : Q (.error e) i) : Runs s i n (ofExcept (.error e) >>= f) Q :=
  ⟨_, bind_error rfl, Nat.le_refl _, hi, Nat.zero_le _, h⟩

section steps

variable {f : Nat → Cursor γ ε α} {g : γ → Cursor γ ε α} {yes no : Cursor γ ε α}

theorem runs_offset (hf : Runs s i n (f i) Q) : Runs s i n (offset >>= f) Q :=
  Runs.step rfl (Nat.le_refl _) hf

/-- A test that leaves the offset alone. -/
theorem runs_if {test : Cursor γ ε Bool} {p : Prop} [Decidable p]
    (htest : test s i = .ok ⟨.ok (decide p), i, 0⟩) (hyes : p → Runs s i n yes Q)
    (hno : ¬ p → Runs s i n no Q) :
    Runs s i n (test >>= fun b => if b = true then yes else no) Q := by
  refine Runs.step htest (Nat.le_refl i) ?_
  by_cases h : p
  · rw [decide_eq_true h]
    exact hyes h
  · rw [decide_eq_false h]
    exact hno h

theorem runs_inside (hyes : i < s.length → Runs s i n yes Q)
    (hno : ¬ i < s.length → Runs s i n no Q) :
    Runs s i n (inside >>= fun b => if b = true then yes else no) Q :=
  runs_if rfl hyes hno

theorem runs_outside (hyes : ¬ i < s.length → Runs s i n yes Q)
    (hno : i < s.length → Runs s i n no Q) :
    Runs s i n (outside >>= fun b => if b = true then yes else no) Q :=
  runs_if rfl (fun h => hyes (Nat.not_lt.mpr h)) fun h => hno (Nat.not_le.mp h)

theorem runs_atEnd (hi : i ≤ s.length) (hyes : ¬ i < s.length → Runs s i n yes Q)
    (hno : i < s.length → Runs s i n no Q) :
    Runs s i n (atEnd >>= fun b => if b = true then yes else no) Q :=
  runs_if rfl (fun h => hyes (h ▸ Nat.lt_irrefl _)) fun h => hno (Nat.lt_of_le_of_ne hi h)

theorem runs_left (hi : i ≤ s.length) (hf : Runs s i n (f (s.length - i)) Q) :
    Runs s i n (left >>= f) Q :=
  Runs.step (if_pos hi) (Nat.le_refl _) hf

theorem runs_advance {f : Unit → Cursor γ ε α} {k : Nat} (hf : Runs s (i + k) n (f ()) Q) :
    Runs s i n (advance k >>= f) Q :=
  Runs.step rfl (Nat.le_add_right i k) hf

theorem entry_eq {index : Nat} {a : γ} (ha : s[index]? = some a) :
    (entry index : Cursor γ ε γ) s i = .ok ⟨.ok a, i, 0⟩ := by
  unfold entry
  rw [ha]

theorem runs_entry {index : Nat} {a : γ} (ha : s[index]? = some a) (hg : Runs s i n (g a) Q) :
    Runs s i n (entry index >>= g) Q :=
  Runs.step (entry_eq ha) (Nat.le_refl _) hg

theorem current_eq {a : γ} (ha : s[i]? = some a) :
    (current : Cursor γ ε γ) s i = .ok ⟨.ok a, i, 0⟩ :=
  bind_ok (p := offset) (f := entry) rfl (entry_eq ha)

theorem runs_current {a : γ} (ha : s[i]? = some a) (hg : Runs s i n (g a) Q) :
    Runs s i n (current >>= g) Q :=
  Runs.step (current_eq ha) (Nat.le_refl _) hg

theorem runs_take {a : γ} (ha : s[i]? = some a) (hg : Runs s (i + 1) n (g a) Q) :
    Runs s i n (take >>= g) Q := by
  have htake : (take : Cursor γ ε γ) s i = .ok ⟨.ok a, i + 1, 0⟩ :=
    bind_ok (p := current) (f := fun a => advance 1 >>= fun _ => pure a) (current_eq ha) rfl
  exact Runs.step htake (Nat.le_succ i) hg

theorem runs_slice {f : List γ → Cursor γ ε α} {first last : Nat} (hle : first ≤ last)
    (hlast : last ≤ s.length) (hf : Runs s i n (f ((s.drop first).take (last - first))) Q) :
    Runs s i n (slice first last >>= f) Q :=
  Runs.step (if_pos ⟨hle, hlast⟩) (Nat.le_refl _) hf

end steps

/-! ## §4  Loops -/

/-- The invariant is kept by every turn that goes on, and such a turn moves the offset;
the induction is on the elements left. -/
theorem runs_turns {body : σ → Cursor γ ε (σ ⊕ α)} {Inv : σ → Nat → Prop} {start : Nat}
    (hbody : ∀ st j, start ≤ j → j ≤ s.length → Inv st j →
      Runs s j n (body st) fun r k => match r with
        | .ok (.inl st') => j < k ∧ Inv st' k
        | .ok (.inr a) => Q (.ok a) k
        | .error e => Q (.error e) k)
    {fuel : Nat} {st : σ} (hstart : start ≤ i) (hi : i ≤ s.length) (hinv : Inv st i)
    (hfuel : s.length - i < fuel) : Runs s i n (turns body fuel st) Q := by
  induction fuel generalizing i st with
  | zero => exact absurd hfuel (Nat.not_lt_zero _)
  | succ fuel ih =>
      refine (hbody st i hstart hi hinv).bind (fun next j hle hj hnext => ?_)
        fun e j _ _ h => h
      cases next with
      | inl st' =>
          obtain ⟨hmoved, hinv'⟩ := hnext
          exact ih (Nat.le_trans hstart hle) hj hinv' (by omega)
      | inr a => exact runs_pure hj hnext

theorem runs_loop {body : σ → Cursor γ ε (σ ⊕ α)} {st : σ} (Inv : σ → Nat → Prop)
    (hi : i ≤ s.length) (hinv : Inv st i)
    (hbody : ∀ st j, i ≤ j → j ≤ s.length → Inv st j →
      Runs s j n (body st) fun r k => match r with
        | .ok (.inl st') => j < k ∧ Inv st' k
        | .ok (.inr a) => Q (.ok a) k
        | .error e => Q (.error e) k) :
    Runs s i n (loop body st) Q :=
  runs_turns hbody (Nat.le_refl _) hi hinv (Nat.lt_succ_self _)

/-! ## §5  What every run ends with -/

/-- A run that ends, wherever it was started, ends with a value in `P` or an error in `E`. -/
def Always (p : Cursor γ ε α) (P : α → Prop) (E : ε → Prop) : Prop :=
  ∀ s i run, p s i = .ok run → match run.result with
    | .ok a => P a
    | .error e => E e

section always

variable {P : α → Prop} {P' : β → Prop} {E : ε → Prop}

theorem always_ofExcept {r : Except ε α} (h : match r with | .ok a => P a | .error e => E e) :
    Always (ofExcept r : Cursor γ ε α) P E := by
  intro s i run hrun
  cases hrun
  exact h

theorem always_pure {a : α} (h : P a) : Always (pure a : Cursor γ ε α) P E :=
  fun _ _ _ hrun => by
    cases hrun
    exact h

theorem always_fail {e : ε} (h : E e) : Always (fail e : Cursor γ ε α) P E :=
  fun _ _ _ hrun => by
    cases hrun
    exact h

theorem Always.bind {p : Cursor γ ε α} {f : α → Cursor γ ε β} (hp : Always p P E)
    (hf : ∀ a, P a → Always (f a) P' E) : Always (p >>= f) P' E := by
  intro s i run hrun
  obtain ⟨e, hresult, hfirst⟩ | ⟨a, j, m₁, m₂, hfirst, hsecond⟩ := bind_cases hrun
  · rw [hresult]
    exact hp s i _ hfirst
  · exact hf a (hp s i _ hfirst) s j ⟨run.result, run.offset, m₂⟩ hsecond

theorem Always.mapError {p : Cursor γ ε' α} {E' : ε' → Prop} {f : ε' → ε} (hp : Always p P E')
    (hf : ∀ e, E' e → E (f e)) : Always (p.mapError f) P E := by
  intro s i run hrun
  have hmap : p.mapError f s i = match p s i with
      | .error fault => .error fault
      | .ok ⟨.error e, j, n⟩ => .ok ⟨.error (f e), j, n⟩
      | .ok ⟨.ok a, j, n⟩ => .ok ⟨.ok a, j, n⟩ := rfl
  rw [hrun] at hmap
  rcases hfirst : p s i with fault | ⟨e | a, j, n⟩
  · rw [hfirst] at hmap
    cases hmap
  · rw [hfirst] at hmap
    cases hmap
    exact hf e (hp s i _ hfirst)
  · rw [hfirst] at hmap
    cases hmap
    exact hp s i _ hfirst

theorem always_orFail {p : Cursor γ ε' α} {e : ε} (h : E e) :
    Always (p.orFail e) (fun _ => True) E := by
  have hany : Always p (fun _ => True) fun _ => True := by
    intro s i run _
    split <;> trivial
  exact hany.mapError fun _ _ => h

theorem Always.frame {p : Cursor γ ε α} (h : Always p P E) : Always (frame p) P E := by
  intro s i run hrun
  obtain ⟨m', hp⟩ := frame_inv hrun
  exact h s i ⟨run.result, run.offset, m'⟩ hp

theorem always_turns {body : σ → Cursor γ ε (σ ⊕ α)} {I : σ → Prop}
    (hbody : ∀ st, I st → Always (body st) (Sum.elim I P) E) {fuel : Nat} {st : σ} (h : I st) :
    Always (turns body fuel st) P E := by
  induction fuel generalizing st with
  | zero => exact fun _ _ _ hrun => by cases hrun
  | succ fuel ih =>
      refine (hbody st h).bind fun next hnext => ?_
      cases next with
      | inl st' => exact ih hnext
      | inr a => exact always_pure hnext

theorem always_loop {body : σ → Cursor γ ε (σ ⊕ α)} {I : σ → Prop} {st : σ} (h : I st)
    (hbody : ∀ st, I st → Always (body st) (Sum.elim I P) E) : Always (loop body st) P E :=
  fun s i => always_turns hbody h s i

/-- The program can only succeed. -/
def NeverFails (p : Cursor γ ε α) : Prop := ∀ s i run, p s i = .ok run → ∃ a, run.result = .ok a

theorem NeverFails.always {p : Cursor γ ε α} (h : NeverFails p) :
    Always p (fun _ => True) E := by
  intro s i run hrun
  obtain ⟨a, ha⟩ := h s i run hrun
  rw [ha]
  trivial

theorem NeverFails.bind {p : Cursor γ ε α} {f : α → Cursor γ ε β} (hp : NeverFails p)
    (hf : ∀ a, NeverFails (f a)) : NeverFails (p >>= f) := by
  intro s i run hrun
  obtain ⟨e, -, hfirst⟩ | ⟨a, j, m₁, m₂, -, hsecond⟩ := bind_cases hrun
  · obtain ⟨a, ha⟩ := hp s i _ hfirst
    cases ha
  · exact hf a s j ⟨run.result, run.offset, m₂⟩ hsecond

theorem neverFails_pure (a : α) : NeverFails (pure a : Cursor γ ε α) :=
  fun _ _ _ hrun => by cases hrun; exact ⟨a, rfl⟩

theorem neverFails_offset : NeverFails (offset : Cursor γ ε Nat) :=
  fun _ i _ hrun => by cases hrun; exact ⟨i, rfl⟩

theorem neverFails_inside : NeverFails (inside : Cursor γ ε Bool) :=
  fun _ _ _ hrun => by cases hrun; exact ⟨_, rfl⟩

theorem neverFails_outside : NeverFails (outside : Cursor γ ε Bool) :=
  fun _ _ _ hrun => by cases hrun; exact ⟨_, rfl⟩

theorem neverFails_advance (n : Nat) : NeverFails (advance n : Cursor γ ε Unit) :=
  fun _ _ _ hrun => by cases hrun; exact ⟨(), rfl⟩

theorem neverFails_slice (first last : Nat) :
    NeverFails (slice first last : Cursor γ ε (List γ)) := by
  intro s i run hrun
  unfold slice at hrun
  split at hrun
  · cases hrun
    exact ⟨_, rfl⟩
  · cases hrun

theorem neverFails_entry (index : Nat) : NeverFails (entry index : Cursor γ ε γ) := by
  intro s i run hrun
  unfold entry at hrun
  split at hrun
  · cases hrun
    exact ⟨_, rfl⟩
  · cases hrun

theorem neverFails_current : NeverFails (current : Cursor γ ε γ) :=
  neverFails_offset.bind neverFails_entry

theorem neverFails_take : NeverFails (take : Cursor γ ε γ) :=
  neverFails_current.bind fun a => (neverFails_advance 1).bind fun _ => neverFails_pure a

/-- Go on behind a step that only succeeds. -/
theorem NeverFails.then {p : Cursor γ ε α} {f : α → Cursor γ ε β} (hp : NeverFails p)
    (hf : ∀ a, Always (f a) P' E) : Always (p >>= f) P' E :=
  hp.always.bind fun a _ => hf a

theorem NeverFails.loop {body : σ → Cursor γ ε (σ ⊕ α)} (hbody : ∀ st, NeverFails (body st))
    (st : σ) : NeverFails (loop body st) := by
  have hnever : Always (Cursor.loop body st) (fun _ => True) fun _ => False := by
    refine always_loop (I := fun _ => True) trivial fun st _ s i run hrun => ?_
    obtain ⟨st' | a, hresult⟩ := hbody st s i run hrun
    · rw [hresult]
      trivial
    · rw [hresult]
      trivial
  intro s i run hrun
  have hresult := hnever s i run hrun
  rcases hrun' : run.result with e | a
  · rw [hrun'] at hresult
    exact hresult.elim
  · exact ⟨a, rfl⟩

end always

end Cursor

/-! ## §6  What is left of the buffer -/

theorem drop_eq_nil_of_not_lt {γ : Type} {s : List γ} {i : Nat} (h : ¬ i < s.length) :
    s.drop i = [] :=
  List.drop_eq_nil_of_le (Nat.not_lt.mp h)

theorem drop_ne_nil_of_lt {γ : Type} {s : List γ} {i : Nat} (h : i < s.length) :
    s.drop i ≠ [] :=
  mt List.drop_eq_nil_iff.mp (Nat.not_le.mpr h)

/-- The element at an offset inside the buffer, and what is behind it. -/
theorem drop_cons_of_lt {γ : Type} {s : List γ} {i : Nat} (h : i < s.length) :
    ∃ a, s[i]? = some a ∧ s.drop i = a :: s.drop (i + 1) :=
  ⟨s[i], List.getElem?_eq_getElem h, List.drop_eq_getElem_cons h⟩

end NativeGuard.Data

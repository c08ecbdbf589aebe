import NativeGuard.Data.SortedTable

/-!
# Binary search

`std::lower_bound` as it runs: an interval is halved until it is empty. On a list that
a test splits into a front and a back it finds the place of the cut, which is where
`lookup` looks (`search_eq_lookup`).
-/

namespace NativeGuard.Data

variable {α κ : Type}

/-- The interval that starts at `first` and has `len` entries; its middle one decides
which half is left. -/
def lowerBoundFrom (less : α → Bool) (xs : List α) (first len : Nat) : Nat :=
  if len = 0 then first
  else
    match xs[first + len / 2]? with
    | some a =>
        if less a then lowerBoundFrom less xs (first + len / 2 + 1) (len - len / 2 - 1)
        else lowerBoundFrom less xs first (len / 2)
    | none => first
termination_by len

def lowerBound (less : α → Bool) (xs : List α) : Nat :=
  lowerBoundFrom less xs 0 xs.length

/-- Behind an entry that fails the test all fail it. -/
def Partitioned (less : α → Bool) (xs : List α) : Prop :=
  xs.Pairwise fun a b => less b = true → less a = true

/-- The test tells on which side of the cut an entry stands. -/
theorem Partitioned.less_iff {less : α → Bool} {xs : List α} (h : Partitioned less xs)
    {i : Nat} {a : α} (ha : xs[i]? = some a) :
    less a = true ↔ i < (xs.takeWhile less).length := by
  induction xs generalizing i with
  | nil => cases ha
  | cons x xs ih =>
      obtain ⟨hx, hxs⟩ := List.pairwise_cons.mp h
      cases hless : less x with
      | true =>
          rw [List.takeWhile_cons_of_pos hless, List.length_cons]
          cases i with
          | zero =>
              cases ha
              exact iff_of_true hless (Nat.succ_pos _)
          | succ i => exact (ih hxs ha).trans Nat.succ_lt_succ_iff.symm
      | false =>
          rw [List.takeWhile_cons_of_neg (by simp [hless])]
          refine iff_of_false (fun htrue => ?_) (Nat.not_lt_zero _)
          cases i with
          | zero =>
              cases ha
              exact Bool.false_ne_true (hless.symm.trans htrue)
          | succ i =>
              have hmem : a ∈ xs := List.mem_of_getElem? ha
              exact Bool.false_ne_true (hless.symm.trans (hx a hmem htrue))

/-- The cut stays in the interval. -/
theorem lowerBoundFrom_eq {less : α → Bool} {xs : List α} (h : Partitioned less xs)
    (first len : Nat) (hfirst : first ≤ (xs.takeWhile less).length)
    (hcut : (xs.takeWhile less).length ≤ first + len) (hlen : first + len ≤ xs.length) :
    lowerBoundFrom less xs first len = (xs.takeWhile less).length := by
  fun_induction lowerBoundFrom less xs first len with
  | case1 first => exact Nat.le_antisymm hfirst hcut
  | case2 first len hne a ha hless ih =>
      have hbelow := (h.less_iff ha).mp hless
      exact ih (by omega) (by omega) (by omega)
  | case3 first len hne a ha hless ih =>
      have habove := mt (h.less_iff ha).mpr hless
      exact ih hfirst (by omega) (by omega)
  | case4 first len hne hnone =>
      -- the middle of an interval that is not empty is an entry
      have hout := List.getElem?_eq_none_iff.mp hnone
      omega

theorem lowerBound_eq {less : α → Bool} {xs : List α} (h : Partitioned less xs) :
    lowerBound less xs = (xs.takeWhile less).length := by
  have hle : (xs.takeWhile less).length ≤ xs.length := (List.takeWhile_prefix less).length_le
  exact lowerBoundFrom_eq h 0 xs.length (Nat.zero_le _) (by omega) (by omega)

/-- At the cut stands the first entry that fails the test. -/
theorem getElem?_cut (less : α → Bool) (xs : List α) :
    xs[(xs.takeWhile less).length]? = (xs.dropWhile less).head? := by
  induction xs with
  | nil => rfl
  | cons x xs ih =>
      by_cases hless : less x = true
      · rw [List.takeWhile_cons_of_pos hless, List.dropWhile_cons_of_pos hless]
        exact ih
      · rw [List.takeWhile_cons_of_neg hless, List.dropWhile_cons_of_neg hless]
        rfl

/-! ## Lookup -/

set_option linter.unusedSectionVars false

variable [LE κ] [LT κ] [Std.IsLinearOrder κ] [Std.LawfulOrderLT κ]
variable [DecidableLE κ] [DecidableLT κ] [DecidableEq κ]
variable (key : α → κ)

/-- The record at the lower bound of `k`, if its key is `k`. -/
def search (xs : List α) (k : κ) : Option α :=
  match xs[lowerBound (fun a => decide (key a < k)) xs]? with
  | some a => if key a = k then some a else none
  | none => none

theorem Ascending.partitioned {xs : List α} (h : Ascending key xs) (k : κ) :
    Partitioned (fun a => decide (key a < k)) xs := by
  refine h.imp fun hab hb => ?_
  rw [decide_eq_true_eq] at hb ⊢
  exact Std.lt_trans hab hb

theorem search_eq_lookup {xs : List α} (h : Ascending key xs) (k : κ) :
    search key xs k = lookup key xs k := by
  unfold search lookup
  rw [lowerBound_eq (h.partitioned key k), getElem?_cut]
  cases xs.dropWhile fun a => decide (key a < k) with
  | nil => rfl
  | cons a rest => rfl

end NativeGuard.Data

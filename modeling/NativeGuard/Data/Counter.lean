import Mathlib.Algebra.BigOperators.Group.Finset.Basic
import NativeGuard.Data.SortedTable

/-!
# Counters

Counts kept in a table with one entry for each key seen, as a `Counter` of the
script: a key without an entry counts zero, and the total is the sum of the
entries (`Counter.total_eq_sum`).
-/

namespace NativeGuard.Data

structure Counter (κ : Type) [DecidableEq κ] where
  entries : List (κ × ℕ) := []
  distinct : (entries.map Prod.fst).Nodup := by exact List.nodup_nil

namespace Counter

variable {κ : Type} [DecidableEq κ]

def get (c : Counter κ) (k : κ) : ℕ :=
  match c.entries.find? fun e => e.1 = k with
  | some e => e.2
  | none => 0

def set (c : Counter κ) (k : κ) (n : ℕ) : Counter κ where
  entries := upsert Prod.fst (k, n) c.entries
  distinct := nodup_upsert Prod.fst c.distinct (k, n)

def keys (c : Counter κ) : Finset κ := (c.entries.map Prod.fst).toFinset

/-- `sum(counter.values())`. -/
def total (c : Counter κ) : ℕ := (c.entries.map Prod.snd).sum

theorem get_of_mem {c : Counter κ} {k : κ} {n : ℕ} (h : (k, n) ∈ c.entries) :
    c.get k = n := by
  obtain ⟨entries, distinct⟩ := c
  unfold get
  induction entries with
  | nil => exact absurd h List.not_mem_nil
  | cons e entries ih =>
      rw [List.map_cons, List.nodup_cons] at distinct
      rcases List.mem_cons.mp h with rfl | hmem
      · simp
      · have hne : e.1 ≠ k := by
          rintro rfl
          exact distinct.1 (List.mem_map.mpr ⟨_, hmem, rfl⟩)
        rw [List.find?_cons_of_neg (by simpa using hne)]
        exact ih distinct.2 hmem

theorem get_eq_zero {c : Counter κ} {k : κ} (h : k ∉ c.keys) : c.get k = 0 := by
  have hnone : (c.entries.find? fun e => e.1 = k) = none := by
    rw [List.find?_eq_none]
    rintro e he hk
    have hkey : e.1 = k := by simpa using hk
    exact h (by rw [keys, List.mem_toFinset, ← hkey]; exact List.mem_map_of_mem he)
  rw [get, hnone]

theorem mem_keys_set {c : Counter κ} {j k : κ} {n : ℕ} :
    j ∈ (c.set k n).keys ↔ j = k ∨ j ∈ c.keys := by
  simp only [keys, set, List.mem_toFinset, List.mem_map]
  constructor
  · rintro ⟨e, he, rfl⟩
    rcases (mem_upsert Prod.fst c.distinct (k, n) e).mp he with rfl | ⟨he, -⟩
    · exact Or.inl rfl
    · exact Or.inr ⟨e, he, rfl⟩
  · intro h
    by_cases hjk : j = k
    · exact ⟨(k, n), (mem_upsert Prod.fst c.distinct (k, n) _).mpr (Or.inl rfl), hjk.symm⟩
    · obtain ⟨e, he, rfl⟩ := h.resolve_left hjk
      exact ⟨e, (mem_upsert Prod.fst c.distinct (k, n) e).mpr (Or.inr ⟨he, hjk⟩), rfl⟩

theorem get_set (c : Counter κ) (k : κ) (n : ℕ) :
    (c.set k n).get = Function.update c.get k n := by
  funext j
  rcases eq_or_ne j k with rfl | hne
  · rw [Function.update_self]
    exact get_of_mem ((mem_upsert Prod.fst c.distinct (j, n) _).mpr (Or.inl rfl))
  · rw [Function.update_of_ne hne]
    by_cases hj : j ∈ c.keys
    · simp only [keys, List.mem_toFinset, List.mem_map] at hj
      obtain ⟨e, he, rfl⟩ := hj
      rw [get_of_mem he]
      exact get_of_mem ((mem_upsert Prod.fst c.distinct (k, n) e).mpr (Or.inr ⟨he, hne⟩))
    · rw [get_eq_zero hj, get_eq_zero]
      rw [mem_keys_set]
      exact not_or.mpr ⟨hne, hj⟩

/-- The total, over any set of keys that holds all keys seen. -/
theorem total_eq_sum (c : Counter κ) {S : Finset κ} (hS : c.keys ⊆ S) :
    c.total = ∑ k ∈ S, c.get k := by
  have hkeys : ∑ k ∈ c.keys, c.get k = ∑ k ∈ S, c.get k :=
    Finset.sum_subset hS fun k _ hk => get_eq_zero hk
  rw [← hkeys, keys, List.sum_toFinset _ c.distinct, List.map_map, total]
  congr 1
  refine List.map_congr_left fun e he => ?_
  exact (get_of_mem he).symm

end Counter

end NativeGuard.Data

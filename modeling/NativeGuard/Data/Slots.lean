import Mathlib.Data.List.Perm.Basic
import Mathlib.Tactic

/-!
# Slots in use

A fixed array of slots of which the first `count` are in use. Adding fills the
next slot; removing moves the last one in use into the gap and blanks it. Seen
through `live`, adding appends and removing deletes one entry, up to order
(`live_swapRemove`).
-/

namespace NativeGuard.Data

structure Slots (α : Type) where
  slots : List α
  count : Nat
  fits : count ≤ slots.length

namespace Slots

variable {α : Type}

/-- `capacity` blank slots. -/
def empty (blank : α) (capacity : Nat) : Slots α where
  slots := List.replicate capacity blank
  count := 0
  fits := Nat.zero_le _

def capacity (s : Slots α) : Nat := s.slots.length

/-- The entries in use. -/
def live (s : Slots α) : List α := s.slots.take s.count

@[simp] theorem length_live (s : Slots α) : s.live.length = s.count := by
  simp [live, s.fits]

def push (s : Slots α) (a : α) (h : s.count < s.slots.length) : Slots α where
  slots := s.slots.set s.count a
  count := s.count + 1
  fits := by simpa using h

/-- Move the last entry in use to `index` and blank its slot. -/
def swapRemove (s : Slots α) (blank : α) (index : Nat) : Slots α where
  slots := (if index = s.count - 1 then s.slots
    else s.slots.set index (s.slots.getD (s.count - 1) blank)).set
      (s.count - 1) blank
  count := s.count - 1
  fits := by
    have h := s.fits
    split
    · simp
      omega
    · simp
      omega

/-- Blank the slots in use. -/
def clear (s : Slots α) (blank : α) : Slots α where
  slots := List.replicate s.count blank ++ s.slots.drop s.count
  count := 0
  fits := Nat.zero_le _

/-! ## The capacity never changes -/

@[simp] theorem capacity_empty (blank : α) (n : Nat) :
    (empty blank n).capacity = n := by
  simp [capacity, empty]

@[simp] theorem capacity_push (s : Slots α) (a : α) (h : s.count < s.slots.length) :
    (s.push a h).capacity = s.capacity := by
  simp [capacity, push]

@[simp] theorem capacity_swapRemove (s : Slots α) (blank : α)
    (index : Nat) : (s.swapRemove blank index).capacity = s.capacity := by
  unfold capacity swapRemove
  simp only [List.length_set]
  split <;> simp

@[simp] theorem capacity_clear (s : Slots α) (blank : α) :
    (s.clear blank).capacity = s.capacity := by
  have h := s.fits
  simp only [capacity, clear, List.length_append, List.length_replicate,
    List.length_drop]
  omega

/-! ## The entries in use -/

@[simp] theorem live_empty (blank : α) (n : Nat) : (empty blank n).live = [] := by
  simp [live, empty]

@[simp] theorem live_clear (s : Slots α) (blank : α) : (s.clear blank).live = [] := by
  simp [live, clear]

theorem live_push (s : Slots α) (a : α) (h : s.count < s.slots.length) :
    (s.push a h).live = s.live ++ [a] := by
  have hget : (s.slots.set s.count a)[s.count]? = some a := by simp [h]
  show (s.slots.set s.count a).take (s.count + 1) = s.slots.take s.count ++ [a]
  rw [List.take_add_one, hget, List.take_set_of_le (le_refl s.count)]
  rfl

/-- Overwriting an entry by the last one and dropping that deletes the entry. -/
theorem perm_swap_dropLast (l : List α) (z : α) (i : Nat)
    (h : i < (l ++ [z]).length) :
    (l ++ [z]).Perm ((l ++ [z])[i] :: ((l ++ [z]).set i z).dropLast) := by
  by_cases hi : i < l.length
  · have hset : ((l ++ [z]).set i z).dropLast = l.set i z := by
      rw [List.set_append_left _ _ hi, List.dropLast_concat]
    rw [hset, List.getElem_append_left hi]
    calc l ++ [z]
        |>.Perm (z :: l) := List.perm_append_singleton z l
      _ |>.Perm (z :: l[i] :: l.eraseIdx i) :=
          (List.getElem_cons_eraseIdx_perm hi).symm.cons z
      _ |>.Perm (l[i] :: z :: l.eraseIdx i) := List.Perm.swap _ _ _
      _ |>.Perm (l[i] :: l.set i z) :=
          (List.set_perm_cons_eraseIdx hi z).symm.cons _
  · have hlen : i = l.length := by
      simp only [List.length_append, List.length_cons, List.length_nil] at h
      omega
    subst hlen
    simp [List.perm_append_singleton]

theorem live_swapRemove (s : Slots α) (blank : α) {index : Nat}
    (h : index < s.live.length) :
    s.live.Perm (s.live[index] :: (s.swapRemove blank index).live) := by
  have hcount := s.length_live
  obtain ⟨l, z, hl⟩ : ∃ l z, s.live = l ++ [z] := by
    have hne : s.live ≠ [] := List.ne_nil_of_length_pos (by omega)
    exact ⟨s.live.dropLast, s.live.getLast hne,
      (List.dropLast_concat_getLast hne).symm⟩
  have hslots : s.slots = l ++ z :: s.slots.drop s.count := by
    have hsplit := List.take_append_drop s.count s.slots
    change s.live ++ _ = _ at hsplit
    rw [hl, List.append_assoc] at hsplit
    exact hsplit.symm
  have hlast : s.count - 1 = l.length := by
    rw [← hcount, hl]
    simp
  have hlive : (s.swapRemove blank index).live = (s.live.set index z).dropLast := by
    unfold live swapRemove
    simp only [hlast]
    change _ = (s.live.set index z).dropLast
    rw [hl, hslots]
    by_cases hindex : index = l.length
    · simp [hindex]
    · have hlt : index < l.length := by
        rw [hl] at h
        simp only [List.length_append, List.length_cons, List.length_nil] at h
        omega
      rw [if_neg hindex, List.set_append_left _ _ hlt, List.set_append_left _ _ hlt,
        List.dropLast_concat]
      simp
  rw [hlive]
  have hperm := perm_swap_dropLast l z index (by rw [← hl]; exact h)
  simpa only [hl] using hperm

end Slots

end NativeGuard.Data

import Mathlib.Data.List.Sort
import Mathlib.Tactic

/-!
# Tables sorted by a key

Lists of records kept in ascending order of a key over any linear order: the
sort that builds them, the scan for equal neighbours that finds a repeated key,
and the lookup at the lower bound. Everything is for an arbitrary record type
and key.
-/

namespace NativeGuard.Data

set_option linter.unusedSectionVars false

variable {α κ : Type} [LE κ] [LT κ] [Std.IsLinearOrder κ] [Std.LawfulOrderLT κ]
variable [DecidableLE κ] [DecidableLT κ] [DecidableEq κ]
variable (key : α → κ)

/-- Sorted by key, equal keys kept in order. -/
def sortOn (xs : List α) : List α := xs.insertionSort fun a b => key a ≤ key b

def Ascending (xs : List α) : Prop := xs.Pairwise fun a b => key a < key b

/-- Some two neighbours have the same key. -/
def adjacentEqual : List α → Bool
  | a :: b :: rest => decide (key a = key b) || adjacentEqual (b :: rest)
  | _ => false

/-- The record at the lower bound of `k`, if its key is `k`. -/
def lookup (xs : List α) (k : κ) : Option α :=
  match xs.dropWhile fun a => key a < k with
  | a :: _ => if key a = k then some a else none
  | [] => none

/-! ## Sorting -/

theorem sortOn_perm (xs : List α) : (sortOn key xs).Perm xs :=
  List.perm_insertionSort _ xs

theorem mem_sortOn {xs : List α} {a : α} : a ∈ sortOn key xs ↔ a ∈ xs :=
  (sortOn_perm key xs).mem_iff

/-- Sorting commutes with a map that keeps the key. -/
theorem sortOn_map {β : Type} (f : β → α) (xs : List β) :
    sortOn key (xs.map f) = (sortOn (fun b => key (f b)) xs).map f :=
  (List.map_insertionSort _ _ f xs fun _ _ _ _ => Iff.rfl).symm

theorem sortOn_pairwise (xs : List α) :
    (sortOn key xs).Pairwise fun a b => key a ≤ key b := by
  have htotal : Std.Total fun a b : α => key a ≤ key b :=
    ⟨fun _ _ => Std.le_total⟩
  have htrans : IsTrans α fun a b => key a ≤ key b :=
    ⟨fun _ _ _ hab hbc => Std.le_trans hab hbc⟩
  exact List.pairwise_insertionSort _ xs

theorem sortOn_sortOn (xs : List α) : sortOn key (sortOn key xs) = sortOn key xs :=
  (sortOn_pairwise key xs).insertionSort_eq

/-- In a sorted list, equal keys are neighbours. -/
theorem adjacentEqual_eq_false {xs : List α}
    (h : xs.Pairwise fun a b => key a ≤ key b) :
    adjacentEqual key xs = false ↔ Ascending key xs := by
  induction xs with
  | nil => simp [adjacentEqual, Ascending]
  | cons a xs ih =>
      obtain ⟨ha, hxs⟩ := List.pairwise_cons.mp h
      cases xs with
      | nil => simp [adjacentEqual, Ascending]
      | cons b xs =>
          rw [adjacentEqual, Bool.or_eq_false_iff, ih hxs]
          unfold Ascending
          rw [List.pairwise_cons (a := a)]
          constructor
          · rintro ⟨hne, hasc⟩
            have hne : key a ≠ key b := by simpa using hne
            have hlt : key a < key b :=
              Std.lt_of_le_of_ne (ha b List.mem_cons_self) hne
            refine ⟨fun c hc => ?_, hasc⟩
            rcases List.mem_cons.mp hc with rfl | hc
            · exact hlt
            · exact Std.lt_trans hlt ((List.pairwise_cons.mp hasc).1 c hc)
          · rintro ⟨hlt, hasc⟩
            have hne : key a ≠ key b := Std.ne_of_lt (hlt b List.mem_cons_self)
            exact ⟨by simpa using hne, hasc⟩

theorem ascending_nodup {xs : List α} (h : Ascending key xs) :
    (xs.map key).Nodup := by
  rw [List.nodup_iff_pairwise_ne, List.pairwise_map]
  exact h.imp fun hab => Std.ne_of_lt hab

theorem ascending_of_nodup {xs : List α}
    (h : xs.Pairwise fun a b => key a ≤ key b) (hnodup : (xs.map key).Nodup) :
    Ascending key xs := by
  rw [List.nodup_iff_pairwise_ne, List.pairwise_map] at hnodup
  exact h.imp₂ (fun a b hle hne => Std.lt_of_le_of_ne hle hne) hnodup

/-- The sorted list has equal neighbours exactly if a key was repeated. -/
theorem adjacentEqual_sortOn (xs : List α) :
    adjacentEqual key (sortOn key xs) = false ↔ (xs.map key).Nodup := by
  rw [adjacentEqual_eq_false key (sortOn_pairwise key xs)]
  have hperm := ((sortOn_perm key xs).map key).nodup_iff
  constructor
  · intro h
    exact hperm.mp (ascending_nodup key h)
  · intro h
    exact ascending_of_nodup key (sortOn_pairwise key xs) (hperm.mpr h)

/-- A table is its set of records. -/
theorem Ascending.ext {xs ys : List α} (hxs : Ascending key xs) (hys : Ascending key ys)
    (hmem : ∀ a, a ∈ xs ↔ a ∈ ys) : xs = ys := by
  have hperm : xs.Perm ys :=
    (List.perm_ext_iff_of_nodup (List.Nodup.of_map key (ascending_nodup key hxs))
      (List.Nodup.of_map key (ascending_nodup key hys))).mpr hmem
  refine List.Perm.eq_of_pairwise ?_ hxs hys hperm
  intro a b _ _ hab hba
  exact absurd (Std.lt_trans hab hba) Std.lt_irrefl

/-- A list without repeated keys sorts to the same table in whatever order it
is given. -/
theorem sortOn_eq_of_perm {xs ys : List α} (hperm : xs.Perm ys)
    (hnodup : (xs.map key).Nodup) : sortOn key xs = sortOn key ys := by
  have hxs := ascending_of_nodup key (sortOn_pairwise key xs)
    (((sortOn_perm key xs).map key).nodup_iff.mpr hnodup)
  have hys := ascending_of_nodup key (sortOn_pairwise key ys)
    (((sortOn_perm key ys).map key).nodup_iff.mpr ((hperm.map key).nodup_iff.mp hnodup))
  refine hxs.ext key hys fun a => ?_
  rw [mem_sortOn, mem_sortOn]
  exact hperm.mem_iff

/-- Sorting a list without repeated keys commutes with a filter. -/
theorem sortOn_filter (p : α → Bool) {xs : List α} (hnodup : (xs.map key).Nodup) :
    sortOn key (xs.filter p) = (sortOn key xs).filter p := by
  have hsorted : Ascending key (sortOn key xs) := ascending_of_nodup key (sortOn_pairwise key xs)
    (((sortOn_perm key xs).map key).nodup_iff.mpr hnodup)
  have hkept : ((xs.filter p).map key).Nodup := hnodup.sublist (List.filter_sublist.map key)
  have hfiltered : Ascending key (sortOn key (xs.filter p)) :=
    ascending_of_nodup key (sortOn_pairwise key _)
      (((sortOn_perm key (xs.filter p)).map key).nodup_iff.mpr hkept)
  apply hfiltered.ext key (hsorted.sublist List.filter_sublist)
  intro a
  rw [mem_sortOn, List.mem_filter, List.mem_filter, mem_sortOn]

/-! ## Lookup -/

theorem lookup_nil (k : κ) : lookup key ([] : List α) k = none := rfl

theorem lookup_cons_lt {a : α} {k : κ} (h : key a < k) (xs : List α) :
    lookup key (a :: xs) k = lookup key xs k := by
  simp [lookup, h]

theorem lookup_cons_not_lt {a : α} {k : κ} (h : ¬ key a < k) (xs : List α) :
    lookup key (a :: xs) k = if key a = k then some a else none := by
  simp [lookup, h]

/-- The lookup finds exactly the record with the key. -/
theorem lookup_eq_some {xs : List α} (h : Ascending key xs) {k : κ} {a : α} :
    lookup key xs k = some a ↔ a ∈ xs ∧ key a = k := by
  induction xs with
  | nil => simp [lookup_nil]
  | cons b xs ih =>
      obtain ⟨hb, hxs⟩ := List.pairwise_cons.mp h
      by_cases hlt : key b < k
      · rw [lookup_cons_lt key hlt, ih hxs, List.mem_cons]
        constructor
        · rintro ⟨ha, hk⟩
          exact ⟨Or.inr ha, hk⟩
        · rintro ⟨rfl | ha, hk⟩
          · exact absurd hk (Std.ne_of_lt hlt)
          · exact ⟨ha, hk⟩
      · rw [lookup_cons_not_lt key hlt]
        constructor
        · intro hsome
          split at hsome
          · rename_i hk
            cases hsome
            exact ⟨List.mem_cons_self, hk⟩
          · cases hsome
        · rintro ⟨ha, rfl⟩
          rcases List.mem_cons.mp ha with rfl | ha
          · exact if_pos rfl
          · exact absurd (hb a ha) hlt

theorem lookup_eq_none {xs : List α} (h : Ascending key xs) {k : κ} :
    lookup key xs k = none ↔ ∀ a ∈ xs, key a ≠ k := by
  constructor
  · intro hnone a ha hk
    rw [(lookup_eq_some key h).mpr ⟨ha, hk⟩] at hnone
    cases hnone
  · intro hall
    cases hlook : lookup key xs k with
    | none => rfl
    | some a =>
        obtain ⟨ha, hk⟩ := (lookup_eq_some key h).mp hlook
        exact absurd hk (hall a ha)

/-! ## Editing by key -/

section upsert

variable {α κ : Type} [DecidableEq κ] (key : α → κ)

/-- Put `a` in the place of the first record with its key, or behind the last. -/
def upsert (a : α) : List α → List α
  | [] => [a]
  | b :: xs => if key b = key a then a :: xs else b :: upsert a xs

/-- Where keys are not repeated, `upsert` replaces exactly the record with the
key. -/
theorem mem_upsert {xs : List α} (hnodup : (xs.map key).Nodup) (a b : α) :
    b ∈ upsert key a xs ↔ b = a ∨ (b ∈ xs ∧ key b ≠ key a) := by
  induction xs with
  | nil => simp [upsert]
  | cons c xs ih =>
      simp only [List.map_cons, List.nodup_cons, List.mem_map] at hnodup
      unfold upsert
      split
      · rename_i hc
        have hother : ∀ b ∈ xs, key b ≠ key a := by
          intro b hb hkey
          exact hnodup.1 ⟨b, hb, hkey.trans hc.symm⟩
        rw [List.mem_cons, List.mem_cons]
        constructor
        · rintro (rfl | hb)
          · exact Or.inl rfl
          · exact Or.inr ⟨Or.inr hb, hother b hb⟩
        · rintro (rfl | ⟨rfl | hb, hne⟩)
          · exact Or.inl rfl
          · exact absurd hc hne
          · exact Or.inr hb
      · rename_i hc
        rw [List.mem_cons, ih hnodup.2, List.mem_cons]
        constructor
        · rintro (rfl | rfl | ⟨hb, hne⟩)
          · exact Or.inr ⟨Or.inl rfl, hc⟩
          · exact Or.inl rfl
          · exact Or.inr ⟨Or.inr hb, hne⟩
        · rintro (rfl | ⟨rfl | hb, hne⟩)
          · exact Or.inr (Or.inl rfl)
          · exact Or.inl rfl
          · exact Or.inr (Or.inr ⟨hb, hne⟩)

theorem nodup_upsert {xs : List α} (hnodup : (xs.map key).Nodup) (a : α) :
    ((upsert key a xs).map key).Nodup := by
  induction xs with
  | nil => simp [upsert]
  | cons c xs ih =>
      have hrest := hnodup
      simp only [List.map_cons, List.nodup_cons, List.mem_map] at hrest
      unfold upsert
      split
      · rename_i hc
        simp only [List.map_cons] at hnodup ⊢
        rwa [← hc]
      · rename_i hc
        rw [List.map_cons, List.nodup_cons, List.mem_map]
        refine ⟨?_, ih hrest.2⟩
        rintro ⟨b, hb, hkey⟩
        rcases (mem_upsert key hrest.2 a b).mp hb with rfl | ⟨hb, -⟩
        · exact hc hkey.symm
        · exact hrest.1 ⟨b, hb, hkey⟩

end upsert

end NativeGuard.Data

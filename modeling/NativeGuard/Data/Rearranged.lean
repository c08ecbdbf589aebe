import NativeGuard.Data.SortedTable

/-!
# Lists up to order

`Rearranged R l l'`: the list `l'` is `l` in another order, with every entry in the
place of one that `R` relates to it. What is said of all entries, or of the only
one, carries over; and what is sorted by a key that is not repeated comes out the
same (`Rearranged.sortOn_eq`).
-/

namespace NativeGuard.Data

variable {α β γ δ κ : Type}

def Rearranged (R : α → β → Prop) (l : List α) (l' : List β) : Prop :=
  ∃ mid, l.Perm mid ∧ List.Forall₂ R mid l'

namespace Rearranged

variable {R : α → β → Prop} {l : List α} {l' : List β}

theorem of_forall₂ (h : List.Forall₂ R l l') : Rearranged R l l' := ⟨l, .refl l, h⟩

theorem mono {S : α → β → Prop} (hRS : ∀ a b, R a b → S a b) (h : Rearranged R l l') :
    Rearranged S l l' := by
  rcases h with ⟨mid, hperm, hpairs⟩
  exact ⟨mid, hperm, hpairs.imp hRS⟩

/-- What holds of every entry can be put into the relation. -/
theorem and_left {p : α → Prop} (h : Rearranged R l l') (hp : ∀ a ∈ l, p a) :
    Rearranged (fun a b => R a b ∧ p a) l l' := by
  rcases h with ⟨mid, hperm, hpairs⟩
  have hmid : ∀ a ∈ mid, p a := fun a ha => hp a (hperm.mem_iff.mpr ha)
  refine ⟨mid, hperm, ?_⟩
  clear hperm
  induction hpairs with
  | nil => exact .nil
  | cons hab _ ih =>
      rcases List.forall_mem_cons.mp hmid with ⟨ha, hrest⟩
      exact .cons ⟨hab, ha⟩ (ih hrest)

theorem trans_perm {l'' : List β} (h : Rearranged R l l') (hperm : l'.Perm l'') :
    Rearranged R l l'' := by
  rcases h with ⟨mid, hmid, hpairs⟩
  have hcomp : Relation.Comp List.Perm (List.Forall₂ R) mid l'' := by
    rw [← List.forall₂_comp_perm_eq_perm_comp_forall₂]
    exact ⟨l', hpairs, hperm⟩
  rcases hcomp with ⟨mid', hmid', hpairs'⟩
  exact ⟨mid', hmid.trans hmid', hpairs'⟩

theorem length_eq (h : Rearranged R l l') : l.length = l'.length := by
  rcases h with ⟨mid, hperm, hpairs⟩
  exact hperm.length_eq.trans hpairs.length_eq

theorem eq_nil_iff (h : Rearranged R l l') : l = [] ↔ l' = [] := by
  rw [← List.length_eq_zero_iff, ← List.length_eq_zero_iff, h.length_eq]

theorem forall_mem (h : Rearranged R l l') {p : α → Prop} {q : β → Prop}
    (hpq : ∀ a b, R a b → (p a ↔ q b)) : (∀ a ∈ l, p a) ↔ ∀ b ∈ l', q b := by
  rcases h with ⟨mid, hperm, hpairs⟩
  have hmid : (∀ a ∈ l, p a) ↔ ∀ a ∈ mid, p a := by
    constructor
    · intro hall a ha
      exact hall a (hperm.mem_iff.mpr ha)
    · intro hall a ha
      exact hall a (hperm.mem_iff.mp ha)
  rw [hmid]
  clear hmid hperm
  induction hpairs with
  | nil => simp
  | cons hab _ ih =>
      rw [List.forall_mem_cons, List.forall_mem_cons]
      exact and_congr (hpq _ _ hab) ih

/-- What is selected from the entries is rearranged with them. -/
theorem filterMap {S : γ → δ → Prop} {f : α → Option γ} {g : β → Option δ}
    (h : Rearranged R l l') (hfg : ∀ a b, R a b → Option.Rel S (f a) (g b)) :
    Rearranged S (l.filterMap f) (l'.filterMap g) := by
  rcases h with ⟨mid, hperm, hpairs⟩
  refine ⟨mid.filterMap f, hperm.filterMap f, ?_⟩
  clear hperm
  induction hpairs with
  | nil => exact .nil
  | @cons a b mid l' hab _ ih =>
      have hrel := hfg a b hab
      rcases hf : f a with _ | c <;> rcases hg : g b with _ | d
      · rw [List.filterMap_cons_none hf, List.filterMap_cons_none hg]
        exact ih
      · rw [hf, hg] at hrel
        cases hrel
      · rw [hf, hg] at hrel
        cases hrel
      · rw [hf, hg] at hrel
        cases hrel with
        | some hcd =>
            rw [List.filterMap_cons_some hf, List.filterMap_cons_some hg]
            exact .cons hcd ih

/-- Related entries with the same image have a rearranged list of images. -/
theorem map_perm {f : α → γ} {g : β → γ} (h : Rearranged R l l')
    (hfg : ∀ a b, R a b → f a = g b) : (l.map f).Perm (l'.map g) := by
  rcases h with ⟨mid, hperm, hpairs⟩
  have hmap : mid.map f = l'.map g := by
    clear hperm
    induction hpairs with
    | nil => rfl
    | cons hab _ ih => rw [List.map_cons, List.map_cons, ih, hfg _ _ hab]
  rw [← hmap]
  exact hperm.map f

/-- A list of one entry is rearranged to one. -/
theorem of_singleton {a : α} (h : Rearranged R [a] l') : ∃ b, l' = [b] ∧ R a b := by
  rcases h with ⟨mid, hperm, hpairs⟩
  rw [← List.singleton_perm.mp hperm] at hpairs
  rcases hpairs with _ | ⟨hab, hrest⟩
  cases hrest
  exact ⟨_, rfl, hab⟩

theorem to_singleton {b : β} (h : Rearranged R l [b]) : ∃ a, l = [a] ∧ R a b := by
  rcases h with ⟨mid, hperm, hpairs⟩
  rcases hpairs with _ | ⟨hab, hrest⟩
  cases hrest
  exact ⟨_, List.perm_singleton.mp hperm, hab⟩

theorem exists_single (h : Rearranged R l l') {p : α → Prop} {q : β → Prop}
    (hpq : ∀ a b, R a b → (p a ↔ q b)) :
    (∃ a, l = [a] ∧ p a) ↔ ∃ b, l' = [b] ∧ q b := by
  constructor
  · rintro ⟨a, rfl, ha⟩
    rcases h.of_singleton with ⟨b, rfl, hab⟩
    exact ⟨b, rfl, (hpq a b hab).mp ha⟩
  · rintro ⟨b, rfl, hb⟩
    rcases h.to_singleton with ⟨a, rfl, hab⟩
    exact ⟨a, rfl, (hpq a b hab).mpr hb⟩

/-- Of at most one entry there is one image. -/
theorem map_eq {f : α → γ} {g : β → γ} (h : Rearranged R l l')
    (hfg : ∀ a b, R a b → f a = g b) (hlength : l.length ≤ 1) : l.map f = l'.map g := by
  have hperm := h.map_perm hfg
  have hmap : (l.map f).length ≤ 1 := by
    rw [List.length_map]
    exact hlength
  rcases hl : l.map f with _ | ⟨c, rest⟩
  · rw [hl] at hperm
    exact (List.nil_perm.mp hperm).symm
  · rw [hl, List.length_cons] at hmap
    rw [List.eq_nil_of_length_eq_zero (l := rest) (by omega)] at hl ⊢
    rw [hl] at hperm
    exact List.singleton_perm.mp hperm

section sorted

variable [LE κ] [LT κ] [Std.IsLinearOrder κ] [Std.LawfulOrderLT κ]
variable [DecidableLE κ] [DecidableLT κ] [DecidableEq κ]

/-- Images that are sorted by a key not repeated among them. -/
theorem sortOn_eq {key : γ → κ} {f : α → γ} {g : β → γ} (h : Rearranged R l l')
    (hfg : ∀ a b, R a b → f a = g b) (hnodup : ((l.map f).map key).Nodup) :
    sortOn key (l.map f) = sortOn key (l'.map g) :=
  sortOn_eq_of_perm key (h.map_perm hfg) hnodup

end sorted

end Rearranged

end NativeGuard.Data

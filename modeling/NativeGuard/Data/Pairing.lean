import Mathlib.Algebra.BigOperators.Group.Finset.Basic
import Mathlib.Algebra.Order.BigOperators.Group.Finset
import Mathlib.Data.Finset.Card
import Mathlib.Tactic

/-!
# Pairing openings with later closings

A sequence of marks, each of which opens or closes under a key. A matching pairs
openings with later closings of the same key, each mark used at most once. The
counter of each key that goes up at an opening and down, not below zero, at a
closing counts what a maximum matching leaves over (`sum_pending_of_maximum`),
however the keys interleave. Everything is for an arbitrary type of keys.
-/

namespace NativeGuard.Data

inductive Mark (κ : Type) where
  | opens (k : κ)
  | closes (k : κ)
  | other
deriving DecidableEq

variable {κ : Type}

/-! ## §1  Matchings -/

/-- Pairs of positions: an opening and a later closing of its key. -/
structure IsMatching (xs : List (Mark κ)) (M : Finset (ℕ × ℕ)) : Prop where
  pair : ∀ p ∈ M, p.1 < p.2 ∧
    ∃ k, xs[p.1]? = some (.opens k) ∧ xs[p.2]? = some (.closes k)
  opens_once : ∀ p ∈ M, ∀ q ∈ M, p.1 = q.1 → p = q
  closes_once : ∀ p ∈ M, ∀ q ∈ M, p.2 = q.2 → p = q

structure IsMaximum (xs : List (Mark κ)) (M : Finset (ℕ × ℕ)) : Prop where
  matching : IsMatching xs M
  le : ∀ N, IsMatching xs N → N.card ≤ M.card

/-- The openings of a key that a matching leaves over. -/
noncomputable def leftAt (xs : List (Mark κ)) (M : Finset (ℕ × ℕ)) (k : κ) : Finset ℕ := by
  classical exact (Finset.range xs.length).filter fun i =>
    xs[i]? = some (.opens k) ∧ ∀ p ∈ M, p.1 ≠ i

/-- The openings that a matching leaves over. -/
noncomputable def left (xs : List (Mark κ)) (M : Finset (ℕ × ℕ)) : Finset ℕ := by
  classical exact (Finset.range xs.length).filter fun i =>
    (∃ k, xs[i]? = some (.opens k)) ∧ ∀ p ∈ M, p.1 ≠ i

theorem mem_leftAt {xs : List (Mark κ)} {M : Finset (ℕ × ℕ)} {k : κ} {i : ℕ} :
    i ∈ leftAt xs M k ↔ xs[i]? = some (.opens k) ∧ ∀ p ∈ M, p.1 ≠ i := by
  classical
  rw [leftAt, Finset.mem_filter, Finset.mem_range, and_iff_right_iff_imp]
  exact fun h => (List.getElem?_eq_some_iff.mp h.1).1

theorem mem_left {xs : List (Mark κ)} {M : Finset (ℕ × ℕ)} {i : ℕ} :
    i ∈ left xs M ↔ (∃ k, xs[i]? = some (.opens k)) ∧ ∀ p ∈ M, p.1 ≠ i := by
  classical
  rw [left, Finset.mem_filter, Finset.mem_range, and_iff_right_iff_imp]
  rintro ⟨⟨k, hk⟩, -⟩
  exact (List.getElem?_eq_some_iff.mp hk).1

theorem isMatching_empty (xs : List (Mark κ)) : IsMatching xs ∅ :=
  ⟨by simp, by simp, by simp⟩

/-- What is matched and what is left over are all openings. -/
theorem IsMatching.card_left {xs : List (Mark κ)} {M : Finset (ℕ × ℕ)}
    (hM : IsMatching xs M) : (left xs M).card + M.card = (left xs ∅).card := by
  classical
  have hinj : Set.InjOn Prod.fst (M : Set (ℕ × ℕ)) := fun p hp q hq h =>
    hM.opens_once p hp q hq h
  have hdisjoint : Disjoint (left xs M) (M.image Prod.fst) := by
    rw [Finset.disjoint_left]
    intro i hi himage
    obtain ⟨p, hp, rfl⟩ := Finset.mem_image.mp himage
    exact (mem_left.mp hi).2 p hp rfl
  have hunion : left xs M ∪ M.image Prod.fst = left xs ∅ := by
    ext i
    rw [Finset.mem_union, Finset.mem_image, mem_left, mem_left]
    constructor
    · rintro (⟨hopens, -⟩ | ⟨p, hp, rfl⟩)
      · exact ⟨hopens, by simp⟩
      · obtain ⟨-, k, hk, -⟩ := hM.pair p hp
        exact ⟨⟨k, hk⟩, by simp⟩
    · rintro ⟨hopens, -⟩
      by_cases hmatched : ∃ p ∈ M, p.1 = i
      · exact Or.inr hmatched
      · exact Or.inl ⟨hopens, fun p hp heq => hmatched ⟨p, hp, heq⟩⟩
  rw [← hunion, Finset.card_union_of_disjoint hdisjoint,
    Finset.card_image_of_injOn hinj]

/-- The openings by key. -/
theorem card_left_eq_sum {xs : List (Mark κ)} {M : Finset (ℕ × ℕ)} {keys : Finset κ}
    (hkeys : ∀ k, .opens k ∈ xs → k ∈ keys) :
    (left xs M).card = ∑ k ∈ keys, (leftAt xs M k).card := by
  classical
  have hunion : left xs M = keys.biUnion (leftAt xs M) := by
    ext i
    rw [Finset.mem_biUnion, mem_left]
    constructor
    · rintro ⟨⟨k, hk⟩, hfree⟩
      exact ⟨k, hkeys k (List.mem_of_getElem? hk), mem_leftAt.mpr ⟨hk, hfree⟩⟩
    · rintro ⟨k, -, hi⟩
      obtain ⟨hk, hfree⟩ := mem_leftAt.mp hi
      exact ⟨⟨k, hk⟩, hfree⟩
  rw [hunion, Finset.card_biUnion]
  intro k _ l _ hne
  show Disjoint (leftAt xs M k) (leftAt xs M l)
  rw [Finset.disjoint_left]
  intro i hk hl
  have hsame := (mem_leftAt.mp hk).1.symm.trans (mem_leftAt.mp hl).1
  simp only [Option.some.injEq, Mark.opens.injEq] at hsame
  exact hne hsame

/-! ## §2  One more mark -/

section step

variable {xs : List (Mark κ)} {x : Mark κ} {M : Finset (ℕ × ℕ)}

/-- The pairs that do not use the last mark. -/
def earlier (n : ℕ) (M : Finset (ℕ × ℕ)) : Finset (ℕ × ℕ) := M.filter fun p => p.2 < n

theorem IsMatching.lt_length (hM : IsMatching xs M) {p : ℕ × ℕ} (hp : p ∈ M) :
    p.1 < xs.length ∧ p.2 < xs.length := by
  obtain ⟨hlt, k, -, hcloses⟩ := hM.pair p hp
  have hsecond := (List.getElem?_eq_some_iff.mp hcloses).1
  exact ⟨hlt.trans hsecond, hsecond⟩

theorem IsMatching.append (hM : IsMatching xs M) : IsMatching (xs ++ [x]) M where
  pair := by
    intro p hp
    obtain ⟨hfirst, hsecond⟩ := hM.lt_length hp
    obtain ⟨hlt, k, hopens, hcloses⟩ := hM.pair p hp
    refine ⟨hlt, k, ?_, ?_⟩
    · rw [List.getElem?_append_left hfirst, hopens]
    · rw [List.getElem?_append_left hsecond, hcloses]
  opens_once := hM.opens_once
  closes_once := hM.closes_once

theorem IsMatching.earlier (hM : IsMatching (xs ++ [x]) M) :
    IsMatching xs (earlier xs.length M) where
  pair := by
    intro p hp
    obtain ⟨hp, hsecond⟩ := Finset.mem_filter.mp hp
    obtain ⟨hlt, k, hopens, hcloses⟩ := hM.pair p hp
    refine ⟨hlt, k, ?_, ?_⟩
    · rwa [List.getElem?_append_left (hlt.trans hsecond)] at hopens
    · rwa [List.getElem?_append_left hsecond] at hcloses
  opens_once p hp q hq := hM.opens_once p (Finset.mem_filter.mp hp).1 q
    (Finset.mem_filter.mp hq).1
  closes_once p hp q hq := hM.closes_once p (Finset.mem_filter.mp hp).1 q
    (Finset.mem_filter.mp hq).1

/-- A pair that is not an earlier one uses the last mark, a closing. -/
theorem IsMatching.last_pair (hM : IsMatching (xs ++ [x]) M) {p : ℕ × ℕ} (hp : p ∈ M)
    (hlate : p ∉ NativeGuard.Data.earlier xs.length M) :
    p.2 = xs.length ∧ ∃ k, x = .closes k ∧ xs[p.1]? = some (.opens k) := by
  obtain ⟨hlt, k, hopens, hcloses⟩ := hM.pair p hp
  have hbound := (hM.lt_length hp).2
  have hnot : ¬ p.2 < xs.length := fun h => hlate (Finset.mem_filter.mpr ⟨hp, h⟩)
  rw [List.length_append, List.length_singleton] at hbound
  have hlast : p.2 = xs.length := by omega
  refine ⟨hlast, k, ?_, ?_⟩
  · rw [hlast, List.getElem?_concat_length] at hcloses
    exact Option.some.inj hcloses
  · rwa [List.getElem?_append_left (hlast ▸ hlt)] at hopens

theorem mem_leftAt_append (hM : IsMatching xs M) {k : κ} {i : ℕ} :
    i ∈ leftAt (xs ++ [x]) M k ↔ i ∈ leftAt xs M k ∨ (i = xs.length ∧ x = .opens k) := by
  rw [mem_leftAt, mem_leftAt]
  constructor
  · rintro ⟨hopens, hfree⟩
    rcases Nat.lt_or_ge i xs.length with hlt | hge
    · rw [List.getElem?_append_left hlt] at hopens
      exact Or.inl ⟨hopens, hfree⟩
    · have hlast : i = xs.length := by
        have hbound := (List.getElem?_eq_some_iff.mp hopens).1
        rw [List.length_append, List.length_singleton] at hbound
        omega
      rw [hlast, List.getElem?_concat_length] at hopens
      exact Or.inr ⟨hlast, Option.some.inj hopens⟩
  · rintro (⟨hopens, hfree⟩ | ⟨rfl, rfl⟩)
    · refine ⟨?_, hfree⟩
      rw [List.getElem?_append_left (List.getElem?_eq_some_iff.mp hopens).1, hopens]
    · refine ⟨List.getElem?_concat_length, fun p hp => ?_⟩
      exact ((hM.lt_length hp).1).ne

theorem card_leftAt_append (hM : IsMatching xs M) [DecidableEq κ] (k : κ) :
    (leftAt (xs ++ [x]) M k).card =
      (leftAt xs M k).card + if x = .opens k then 1 else 0 := by
  classical
  by_cases hx : x = .opens k
  · have hset : leftAt (xs ++ [x]) M k = insert xs.length (leftAt xs M k) := by
      ext i
      rw [mem_leftAt_append hM, Finset.mem_insert]
      constructor
      · rintro (hi | ⟨rfl, -⟩)
        · exact Or.inr hi
        · exact Or.inl rfl
      · rintro (rfl | hi)
        · exact Or.inr ⟨rfl, hx⟩
        · exact Or.inl hi
    have hnew : xs.length ∉ leftAt xs M k := by
      rw [mem_leftAt, List.getElem?_eq_none (Nat.le_refl _)]
      rintro ⟨hnone, -⟩
      cases hnone
    rw [hset, Finset.card_insert_of_notMem hnew, if_pos hx]
  · have hset : leftAt (xs ++ [x]) M k = leftAt xs M k := by
      ext i
      rw [mem_leftAt_append hM, or_iff_left fun h => hx h.2]
    rw [hset, if_neg hx, Nat.add_zero]

/-- An opening that is left may be taken by a closing behind the sequence. -/
theorem IsMatching.take (hM : IsMatching xs M) {j : κ} {i : ℕ} (hi : i ∈ leftAt xs M j) :
    IsMatching (xs ++ [.closes j]) (insert (i, xs.length) M) := by
  obtain ⟨hopens, hfree⟩ := mem_leftAt.mp hi
  have hlt := (List.getElem?_eq_some_iff.mp hopens).1
  refine ⟨?_, ?_, ?_⟩
  · intro p hp
    rcases Finset.mem_insert.mp hp with rfl | hp
    · refine ⟨hlt, j, ?_, List.getElem?_concat_length⟩
      rw [List.getElem?_append_left hlt, hopens]
    · exact hM.append.pair p hp
  · intro p hp q hq heq
    rcases Finset.mem_insert.mp hp with rfl | hp <;>
      rcases Finset.mem_insert.mp hq with rfl | hq
    · rfl
    · exact absurd heq.symm (hfree q hq)
    · exact absurd heq (hfree p hp)
    · exact hM.opens_once p hp q hq heq
  · intro p hp q hq heq
    rcases Finset.mem_insert.mp hp with rfl | hp <;>
      rcases Finset.mem_insert.mp hq with rfl | hq
    · rfl
    · exact absurd heq.symm (hM.lt_length hq).2.ne
    · exact absurd heq (hM.lt_length hp).2.ne
    · exact hM.closes_once p hp q hq heq

theorem leftAt_insert (i n : ℕ) (k : κ) :
    leftAt xs (insert (i, n) M) k = (leftAt xs M k).erase i := by
  ext l
  rw [Finset.mem_erase, mem_leftAt, mem_leftAt, Finset.forall_mem_insert]
  constructor
  · rintro ⟨hl, hne, hrest⟩
    exact ⟨hne.symm, hl, hrest⟩
  · rintro ⟨hne, hl, hrest⟩
    exact ⟨hl, hne.symm, hrest⟩

/-- The opening that the closing takes is the only one that is left no more. -/
theorem IsMatching.card_leftAt_take (hM : IsMatching xs M) [DecidableEq κ] {j : κ} {i : ℕ}
    (hi : i ∈ leftAt xs M j) (k : κ) :
    (leftAt (xs ++ [.closes j]) (insert (i, xs.length) M) k).card =
      (leftAt xs M k).card - if j = k then 1 else 0 := by
  obtain ⟨hopens, -⟩ := mem_leftAt.mp hi
  have hcard := card_leftAt_append (x := .closes j) hM k
  rw [if_neg (by simp), Nat.add_zero] at hcard
  rw [leftAt_insert]
  by_cases hjk : j = k
  · subst hjk
    rw [Finset.card_erase_of_mem (by rw [mem_leftAt_append hM]; exact Or.inl hi), hcard,
      if_pos rfl]
  · have hout : i ∉ leftAt (xs ++ [.closes j]) M k := by
      rw [mem_leftAt_append hM, mem_leftAt, hopens]
      rintro (⟨hsame, -⟩ | ⟨-, hopen⟩)
      · exact hjk (by simpa using hsame)
      · cases hopen
    rw [Finset.erase_eq_of_notMem hout, hcard, if_neg hjk, Nat.sub_zero]

/-- At most one pair uses the last mark. -/
theorem IsMatching.card_late (hM : IsMatching (xs ++ [x]) M) :
    (M \ NativeGuard.Data.earlier xs.length M).card ≤ 1 := by
  rw [Finset.card_le_one]
  intro p hp q hq
  obtain ⟨hp, hplate⟩ := Finset.mem_sdiff.mp hp
  obtain ⟨hq, hqlate⟩ := Finset.mem_sdiff.mp hq
  exact hM.closes_once p hp q hq
    ((hM.last_pair hp hplate).1.trans (hM.last_pair hq hqlate).1.symm)

/-- Without the pairs that use the last mark, only the openings they took are left
besides, if it closes their key. -/
theorem IsMatching.leftAt_earlier_subset (hM : IsMatching (xs ++ [x]) M) [DecidableEq κ]
    (k : κ) : leftAt (xs ++ [x]) (NativeGuard.Data.earlier xs.length M) k ⊆
      leftAt (xs ++ [x]) M k ∪
        if x = .closes k then (M \ NativeGuard.Data.earlier xs.length M).image Prod.fst
        else ∅ := by
  intro i hi
  rw [Finset.mem_union]
  obtain ⟨hopens, hfree⟩ := mem_leftAt.mp hi
  by_cases hmatched : ∃ p ∈ M, p.1 = i
  · obtain ⟨p, hp, rfl⟩ := hmatched
    have hlate : p ∉ NativeGuard.Data.earlier xs.length M := fun h => hfree p h rfl
    obtain ⟨hsecond, j, hx, hj⟩ := hM.last_pair hp hlate
    rw [List.getElem?_append_left (List.getElem?_eq_some_iff.mp hj).1, hj] at hopens
    obtain rfl : j = k := by simpa using hopens
    right
    rw [if_pos hx]
    exact Finset.mem_image_of_mem _ (Finset.mem_sdiff.mpr ⟨hp, hlate⟩)
  · left
    exact mem_leftAt.mpr ⟨hopens, fun p hp heq => hmatched ⟨p, hp, heq⟩⟩

end step

/-! ## §3  The counters -/

section counters

variable [DecidableEq κ]

/-- Up at an opening, down at a closing, never below zero. -/
def tally (pending : κ → ℕ) : Mark κ → κ → ℕ
  | .opens k => Function.update pending k (pending k + 1)
  | .closes k => Function.update pending k (pending k - 1)
  | .other => pending

def pending (xs : List (Mark κ)) : κ → ℕ := xs.foldl tally fun _ => 0

theorem pending_append (xs : List (Mark κ)) (x : Mark κ) :
    pending (xs ++ [x]) = tally (pending xs) x := by
  rw [pending, List.foldl_append]
  rfl

theorem tally_apply (b : κ → ℕ) (x : Mark κ) (k : κ) :
    tally b x k = b k + (if x = .opens k then 1 else 0) - if x = .closes k then 1 else 0 := by
  cases x with
  | opens j =>
      rcases eq_or_ne k j with rfl | hne
      · simp [tally]
      · simp [tally, hne, hne.symm]
  | closes j =>
      rcases eq_or_ne k j with rfl | hne
      · simp [tally]
      · simp [tally, hne, hne.symm]
  | other => simp [tally]

/-- No matching leaves less than the counter. -/
theorem pending_le_left {xs : List (Mark κ)} {M : Finset (ℕ × ℕ)} (hM : IsMatching xs M)
    (k : κ) : pending xs k ≤ (leftAt xs M k).card := by
  classical
  induction xs using List.reverseRecOn generalizing M with
  | nil => exact Nat.zero_le _
  | append_singleton xs x ih =>
      have hearlier := hM.earlier
      have hstep := ih hearlier
      have happend := card_leftAt_append (x := x) hearlier k
      -- the last mark, if it closes `k`, takes at most one opening of `k`
      have hlast : (leftAt (xs ++ [x]) (earlier xs.length M) k).card ≤
          (leftAt (xs ++ [x]) M k).card + if x = .closes k then 1 else 0 := by
        refine (Finset.card_le_card (hM.leftAt_earlier_subset k)).trans
          ((Finset.card_union_le _ _).trans ?_)
        by_cases hx : x = .closes k
        · rw [if_pos hx, if_pos hx]
          exact Nat.add_le_add_left (Finset.card_image_le.trans hM.card_late) _
        · rw [if_neg hx, if_neg hx, Finset.card_empty]
      rw [pending_append, tally_apply]
      omega

/-- Some matching leaves just what the counters say. -/
theorem exists_pending_left (xs : List (Mark κ)) :
    ∃ M, IsMatching xs M ∧ ∀ k, (leftAt xs M k).card = pending xs k := by
  classical
  induction xs using List.reverseRecOn with
  | nil => exact ⟨∅, isMatching_empty [], fun k => rfl⟩
  | append_singleton xs x ih =>
      obtain ⟨M, hM, hcount⟩ := ih
      by_cases htake : ∃ j i, x = .closes j ∧ i ∈ leftAt xs M j
      · -- the closing takes an opening that is left
        obtain ⟨j, i, rfl, hi⟩ := htake
        refine ⟨insert (i, xs.length) M, hM.take hi, fun k => ?_⟩
        rw [hM.card_leftAt_take hi, pending_append, tally_apply, ← hcount]
        simp
      · refine ⟨M, hM.append, fun k => ?_⟩
        rw [card_leftAt_append (x := x) hM k, pending_append, tally_apply, ← hcount]
        by_cases hx : x = .closes k
        · have hnone : (leftAt xs M k).card = 0 := by
            rw [Finset.card_eq_zero, Finset.eq_empty_iff_forall_notMem]
            exact fun i hi => htake ⟨k, i, hx, hi⟩
          subst hx
          simp [hnone]
        · rw [if_neg hx, Nat.sub_zero]

/-- The counters together count what every maximum matching leaves over. -/
theorem sum_pending_of_maximum {xs : List (Mark κ)} {M : Finset (ℕ × ℕ)}
    (hM : IsMaximum xs M) {keys : Finset κ} (hkeys : ∀ k, .opens k ∈ xs → k ∈ keys) :
    ∑ k ∈ keys, pending xs k = (left xs M).card := by
  obtain ⟨N, hN, hcount⟩ := exists_pending_left xs
  have hleft : (left xs N).card = ∑ k ∈ keys, pending xs k := by
    rw [card_left_eq_sum hkeys]
    exact Finset.sum_congr rfl fun k _ => hcount k
  have hle : ∑ k ∈ keys, pending xs k ≤ (left xs M).card := by
    rw [card_left_eq_sum hkeys]
    exact Finset.sum_le_sum fun k _ => pending_le_left hM.matching k
  have hcardM := hM.matching.card_left
  have hcardN := hN.card_left
  have hmax := hM.le N hN
  omega

/-- A maximum matching exists: the counters' one. -/
theorem exists_maximum (xs : List (Mark κ)) : ∃ M, IsMaximum xs M := by
  classical
  obtain ⟨M, hM, hcount⟩ := exists_pending_left xs
  refine ⟨M, hM, fun N hN => ?_⟩
  let keys : Finset κ := (xs.filterMap fun | .opens k => some k | _ => none).toFinset
  have hkeys : ∀ k, .opens k ∈ xs → k ∈ keys := by
    intro k hk
    rw [List.mem_toFinset, List.mem_filterMap]
    exact ⟨.opens k, hk, rfl⟩
  have hle : (left xs M).card ≤ (left xs N).card := by
    rw [card_left_eq_sum hkeys, card_left_eq_sum hkeys]
    refine Finset.sum_le_sum fun k _ => ?_
    rw [hcount]
    exact pending_le_left hN k
  have hcardM := hM.card_left
  have hcardN := hN.card_left
  omega

end counters

end NativeGuard.Data

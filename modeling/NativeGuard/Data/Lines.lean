import Mathlib.Algebra.GroupWithZero.Nat
import Mathlib.Data.List.TakeWhile

/-!
# Lines of a stream

A delimiter cuts a stream into terminated lines and an open rest. What is read behind
a stream continues its rest (`splitLines_append`), so the lines can be collected piece
by piece. Reading may stop at the first line over a limit: `Overlong` says that there
is one, `shortLines` are the lines in front of it, and nothing that follows changes
either (`overlong_append`, `shortLines_append_of_overlong`).
-/

namespace NativeGuard.Data

variable {α : Type} [DecidableEq α] (d : α)

/-! ## §1  Lines -/

/-- The terminated lines and what stands behind the last delimiter. -/
def splitLines : List α → List (List α) × List α
  | [] => ([], [])
  | a :: s =>
      if a = d then ([] :: (splitLines s).1, (splitLines s).2)
      else
        match (splitLines s).1 with
        | [] => ([], a :: (splitLines s).2)
        | l :: ls => ((a :: l) :: ls, (splitLines s).2)

def linesOf (s : List α) : List (List α) := (splitLines d s).1

/-- The unfinished line. -/
def restOf (s : List α) : List α := (splitLines d s).2

variable {d}

theorem splitLines_cons_ne {a : α} (h : a ≠ d) (s : List α) :
    splitLines d (a :: s) = match linesOf d s with
      | [] => ([], a :: restOf d s)
      | l :: ls => ((a :: l) :: ls, restOf d s) := if_neg h

/-- A piece without delimiter continues the first line, or the rest. -/
theorem splitLines_open {l : List α} (h : d ∉ l) (s : List α) :
    splitLines d (l ++ s) = match linesOf d s with
      | [] => ([], l ++ restOf d s)
      | l' :: ls => ((l ++ l') :: ls, restOf d s) := by
  induction l with
  | nil =>
      cases hs : linesOf d s with
      | nil => exact Prod.ext hs rfl
      | cons l' ls => exact Prod.ext hs rfl
  | cons a l ih =>
      obtain ⟨hne, hmem⟩ : a ≠ d ∧ d ∉ l := by
        rw [List.mem_cons, not_or] at h
        exact ⟨fun heq => h.1 heq.symm, h.2⟩
      have hl := ih hmem
      rw [List.cons_append, splitLines_cons_ne hne]
      unfold linesOf restOf at hl ⊢
      rw [hl]
      cases hs : (splitLines d s).1 with
      | nil => rfl
      | cons l' ls => rfl

theorem splitLines_of_not_mem {s : List α} (h : d ∉ s) : splitLines d s = ([], s) := by
  have hopen := splitLines_open h []
  simpa [linesOf, restOf, splitLines] using hopen

/-- A line and its delimiter. -/
theorem splitLines_line {l : List α} (h : d ∉ l) (s : List α) :
    splitLines d (l ++ d :: s) = (l :: linesOf d s, restOf d s) := by
  have hcons : splitLines d (d :: s) = ([] :: linesOf d s, restOf d s) := if_pos rfl
  rw [splitLines_open h]
  unfold linesOf restOf at hcons ⊢
  rw [hcons]
  simp

theorem not_mem_restOf (s : List α) : d ∉ restOf d s := by
  induction s with
  | nil => exact List.not_mem_nil
  | cons a s ih =>
      by_cases ha : a = d
      · have hcons : splitLines d (a :: s) = ([] :: linesOf d s, restOf d s) := if_pos ha
        unfold restOf at ih ⊢
        rw [hcons]
        exact ih
      · have hcons := splitLines_cons_ne ha s
        unfold restOf at ih ⊢
        rw [hcons]
        cases linesOf d s with
        | nil =>
            rw [List.mem_cons, not_or]
            exact ⟨fun heq => ha heq.symm, ih⟩
        | cons l ls => exact ih

theorem not_mem_of_mem_linesOf {l s : List α} (h : l ∈ linesOf d s) : d ∉ l := by
  induction s generalizing l with
  | nil => cases h
  | cons a s ih =>
      by_cases ha : a = d
      · have hcons : splitLines d (a :: s) = ([] :: linesOf d s, restOf d s) := if_pos ha
        unfold linesOf at ih h
        rw [hcons] at h
        rcases List.mem_cons.mp h with rfl | hmem
        · exact List.not_mem_nil
        · exact ih hmem
      · have hcons := splitLines_cons_ne ha s
        unfold linesOf at ih h hcons
        rw [hcons] at h
        cases hs : (splitLines d s).1 with
        | nil =>
            rw [hs] at h
            cases h
        | cons l' ls =>
            rw [hs] at h ih
            rcases List.mem_cons.mp h with rfl | hmem
            · rw [List.mem_cons, not_or]
              exact ⟨fun heq => ha heq.symm, ih List.mem_cons_self⟩
            · exact ih (List.mem_cons_of_mem _ hmem)

/-- What follows a stream continues its rest. -/
theorem splitLines_append (s t : List α) :
    splitLines d (s ++ t) =
      (linesOf d s ++ linesOf d (restOf d s ++ t), restOf d (restOf d s ++ t)) := by
  induction s with
  | nil => rfl
  | cons a s ih =>
      by_cases ha : a = d
      · have hcons : ∀ u, splitLines d (a :: u) = ([] :: linesOf d u, restOf d u) :=
          fun u => if_pos ha
        rw [List.cons_append, hcons]
        unfold linesOf restOf at ih hcons ⊢
        rw [ih, hcons]
        rfl
      · rw [List.cons_append, splitLines_cons_ne ha]
        unfold linesOf restOf at ih ⊢
        rw [ih]
        have hcons := splitLines_cons_ne ha s
        unfold linesOf restOf at hcons
        rw [hcons]
        cases hs : (splitLines d s).1 with
        | nil =>
            have hrest := splitLines_cons_ne ha ((splitLines d s).2 ++ t)
            unfold linesOf restOf at hrest
            simp only [List.nil_append, List.cons_append]
            rw [hrest]
        | cons l ls => rfl

theorem linesOf_append (s t : List α) :
    linesOf d (s ++ t) = linesOf d s ++ linesOf d (restOf d s ++ t) :=
  congrArg Prod.fst (splitLines_append s t)

theorem restOf_append (s t : List α) :
    restOf d (s ++ t) = restOf d (restOf d s ++ t) := by
  have h : (splitLines d (s ++ t)).2 = restOf d (restOf d s ++ t) := by
    rw [splitLines_append]
  exact h

/-- The lines, each with its delimiter, and the rest are the stream. -/
theorem lines_join (s : List α) :
    (linesOf d s).flatMap (· ++ [d]) ++ restOf d s = s := by
  induction s with
  | nil => rfl
  | cons a s ih =>
      by_cases ha : a = d
      · have hcons : splitLines d (a :: s) = ([] :: linesOf d s, restOf d s) := if_pos ha
        unfold linesOf restOf at ih hcons ⊢
        rw [hcons, List.flatMap_cons, List.append_assoc, ih, ha]
        rfl
      · have hcons := splitLines_cons_ne ha s
        unfold linesOf restOf at ih hcons ⊢
        rw [hcons]
        cases hs : (splitLines d s).1 with
        | nil =>
            rw [hs] at ih
            exact congrArg (a :: ·) ih
        | cons l ls =>
            rw [hs] at ih
            simpa using ih

/-- A beginning of some lines has the first of them whole, and a beginning of the next. -/
theorem lines_of_prefix {ls : List (List α)} (hls : ∀ l ∈ ls, d ∉ l) {s : List α}
    (h : s <+: ls.flatMap (· ++ [d])) :
    linesOf d s <+: ls ∧ (restOf d s = [] ∨ ∃ l ∈ ls, restOf d s <+: l) := by
  induction ls generalizing s with
  | nil =>
      obtain rfl := List.prefix_nil.mp h
      exact ⟨List.prefix_rfl, Or.inl rfl⟩
  | cons l ls ih =>
      have hl := hls l List.mem_cons_self
      rw [List.flatMap_cons, List.append_assoc] at h
      rcases List.prefix_or_prefix_of_prefix h (List.prefix_append l _) with
        hopen | ⟨s', rfl⟩
      · -- the stream breaks off within the first line
        have hs : d ∉ s := fun hmem => hl (hopen.subset hmem)
        unfold linesOf restOf
        rw [splitLines_of_not_mem hs]
        exact ⟨List.nil_prefix, Or.inr ⟨l, List.mem_cons_self, hopen⟩⟩
      · have hs' := (List.prefix_append_right_inj l).mp h
        cases s' with
        | nil =>
            unfold linesOf restOf
            rw [List.append_nil, splitLines_of_not_mem hl]
            exact ⟨List.nil_prefix, Or.inr ⟨l, List.mem_cons_self, List.prefix_rfl⟩⟩
        | cons a s' =>
            obtain ⟨rfl, hs'⟩ := List.cons_prefix_cons.mp hs'
            obtain ⟨hlines, hrest⟩ := ih (fun l' hl' => hls l' (List.mem_cons_of_mem _ hl')) hs'
            have hsplit := splitLines_line hl s'
            have hfirst : linesOf a (l ++ a :: s') = l :: linesOf a s' := congrArg Prod.fst hsplit
            have hlast : restOf a (l ++ a :: s') = restOf a s' := by
              show (splitLines a (l ++ a :: s')).2 = _
              rw [hsplit]
            rw [hfirst, hlast]
            refine ⟨List.cons_prefix_cons.mpr ⟨rfl, hlines⟩, hrest.imp id ?_⟩
            rintro ⟨l', hl', hbegins⟩
            exact ⟨l', List.mem_cons_of_mem _ hl', hbegins⟩

/-! ## §2  Lines within a limit -/

variable (d) (limit : Nat)

/-- Some line, or the unfinished one, is over the limit. -/
def Overlong (s : List α) : Prop :=
  ∃ l ∈ linesOf d s ++ [restOf d s], limit < l.length

instance (s : List α) : Decidable (Overlong d limit s) := by
  unfold Overlong
  infer_instance

/-- The lines in front of the first one over the limit. -/
def shortLines (s : List α) : List (List α) :=
  (linesOf d s).takeWhile fun l => decide (l.length ≤ limit)

variable {d limit} {s : List α}

theorem not_overlong (h : ¬ Overlong d limit s) :
    (∀ l ∈ linesOf d s, l.length ≤ limit) ∧ (restOf d s).length ≤ limit := by
  constructor
  · intro l hl
    exact Nat.not_lt.mp fun hlt => h ⟨l, List.mem_append_left _ hl, hlt⟩
  · exact Nat.not_lt.mp fun hlt => h ⟨_, List.mem_append_right _ List.mem_cons_self, hlt⟩

theorem shortLines_of_not_overlong (h : ¬ Overlong d limit s) :
    shortLines d limit s = linesOf d s := by
  unfold shortLines
  rw [List.takeWhile_eq_self_iff]
  intro l hl
  exact decide_eq_true ((not_overlong h).1 l hl)

/-- Up to a stream within the limit, the rest decides. -/
theorem overlong_append_iff (h : ¬ Overlong d limit s) (t : List α) :
    Overlong d limit (s ++ t) ↔ Overlong d limit (restOf d s ++ t) := by
  unfold Overlong
  rw [linesOf_append, restOf_append]
  constructor
  · rintro ⟨l, hl, hlt⟩
    rw [List.append_assoc, List.mem_append] at hl
    rcases hl with hl | hl
    · exact absurd hlt (Nat.not_lt.mpr ((not_overlong h).1 l hl))
    · exact ⟨l, hl, hlt⟩
  · rintro ⟨l, hl, hlt⟩
    rw [List.append_assoc]
    exact ⟨l, List.mem_append_right _ hl, hlt⟩

theorem shortLines_append (h : ¬ Overlong d limit s) (t : List α) :
    shortLines d limit (s ++ t) =
      shortLines d limit s ++ shortLines d limit (restOf d s ++ t) := by
  rw [shortLines_of_not_overlong h]
  unfold shortLines
  rw [linesOf_append, List.takeWhile_append_of_pos]
  intro l hl
  exact decide_eq_true ((not_overlong h).1 l hl)

theorem overlong_of_not_mem (h : d ∉ s) : Overlong d limit s ↔ limit < s.length := by
  unfold Overlong linesOf restOf
  rw [splitLines_of_not_mem h]
  simp

theorem shortLines_of_not_mem (h : d ∉ s) : shortLines d limit s = [] := by
  unfold shortLines linesOf
  rw [splitLines_of_not_mem h]
  rfl

/-- A line within the limit comes first and changes nothing behind it. -/
theorem shortLines_line {l : List α} (h : d ∉ l) (hl : l.length ≤ limit) (s : List α) :
    (Overlong d limit (l ++ d :: s) ↔ Overlong d limit s) ∧
      shortLines d limit (l ++ d :: s) = l :: shortLines d limit s ∧
      restOf d (l ++ d :: s) = restOf d s := by
  have hlines : linesOf d (l ++ d :: s) = l :: linesOf d s :=
    congrArg Prod.fst (splitLines_line h s)
  have hrest : restOf d (l ++ d :: s) = restOf d s := by
    show (splitLines d (l ++ d :: s)).2 = _
    rw [splitLines_line h]
  refine ⟨?_, ?_, hrest⟩
  · unfold Overlong
    rw [hlines, hrest, List.cons_append]
    constructor
    · rintro ⟨l', hl', hlt⟩
      rcases List.mem_cons.mp hl' with rfl | hmem
      · exact absurd hlt (Nat.not_lt.mpr hl)
      · exact ⟨l', hmem, hlt⟩
    · rintro ⟨l', hl', hlt⟩
      exact ⟨l', List.mem_cons_of_mem l hl', hlt⟩
  · unfold shortLines
    rw [hlines]
    exact List.takeWhile_cons_of_pos (p := fun l : List α => decide (l.length ≤ limit))
      (decide_eq_true hl)

/-- A line that is too long when it is unfinished is too long however it ends. -/
theorem overlong_open {l : List α} (hopen : d ∉ l) (hlong : limit < l.length) (t : List α) :
    Overlong d limit (l ++ t) ∧ shortLines d limit (l ++ t) = [] := by
  have hsplit := splitLines_open hopen t
  unfold Overlong shortLines
  cases hlines : linesOf d t with
  | nil =>
      rw [hlines] at hsplit
      have hl : linesOf d (l ++ t) = [] := congrArg Prod.fst hsplit
      have hr : restOf d (l ++ t) = l ++ restOf d t := congrArg Prod.snd hsplit
      rw [hl, hr]
      refine ⟨⟨_, List.mem_singleton.mpr rfl, ?_⟩, rfl⟩
      rw [List.length_append]
      omega
  | cons l' ls =>
      rw [hlines] at hsplit
      have hl : linesOf d (l ++ t) = (l ++ l') :: ls := congrArg Prod.fst hsplit
      have hlt : limit < (l ++ l').length := by
        rw [List.length_append]
        omega
      rw [hl]
      refine ⟨⟨_, List.mem_append_left _ List.mem_cons_self, hlt⟩, ?_⟩
      rw [List.takeWhile_cons_of_neg]
      simpa using hlt

/-- Nothing that follows a line over the limit matters. -/
theorem overlong_append (h : Overlong d limit s) (t : List α) :
    Overlong d limit (s ++ t) ∧ shortLines d limit (s ++ t) = shortLines d limit s := by
  by_cases hlines : ∃ l ∈ linesOf d s, limit < l.length
  · obtain ⟨l, hl, hlt⟩ := hlines
    constructor
    · refine ⟨l, List.mem_append_left _ ?_, hlt⟩
      rw [linesOf_append]
      exact List.mem_append_left _ hl
    · unfold shortLines
      rw [linesOf_append, List.takeWhile_append, if_neg]
      intro hall
      have hself := List.takeWhile_eq_self_iff.mp
        (List.IsPrefix.eq_of_length (List.takeWhile_prefix _) hall)
      exact absurd (of_decide_eq_true (hself l hl)) (Nat.not_le.mpr hlt)
  · have hrest : limit < (restOf d s).length := by
      obtain ⟨l, hl, hlt⟩ := h
      rw [List.mem_append, List.mem_singleton] at hl
      rcases hl with hl | rfl
      · exact absurd ⟨l, hl, hlt⟩ hlines
      · exact hlt
    obtain ⟨⟨l, hl, hlt⟩, hnil⟩ := overlong_open (not_mem_restOf s) hrest t
    have hall : ∀ l ∈ linesOf d s, decide (l.length ≤ limit) = true := fun l hl =>
      decide_eq_true (Nat.not_lt.mp fun hlt => hlines ⟨l, hl, hlt⟩)
    constructor
    · refine ⟨l, ?_, hlt⟩
      rw [linesOf_append, restOf_append, List.append_assoc]
      exact List.mem_append_right _ hl
    · unfold shortLines at hnil ⊢
      rw [linesOf_append, List.takeWhile_append_of_pos hall, hnil, List.append_nil,
        List.takeWhile_eq_self_iff.mpr hall]

/-! ## §3  How much lines take -/

/-- Lines with their delimiters. -/
def linesLength (ls : List (List α)) : Nat := (ls.map fun l => l.length + 1).sum

omit [DecidableEq α] in
theorem linesLength_eq (ls : List (List α)) :
    linesLength ls = (ls.flatMap (· ++ [d])).length := by
  induction ls with
  | nil => rfl
  | cons l ls ih =>
      rw [List.flatMap_cons, List.length_append, ← ih]
      simp [linesLength]

theorem linesLength_add (s : List α) :
    linesLength (linesOf d s) + (restOf d s).length = s.length := by
  have hjoin := congrArg List.length (lines_join (d := d) s)
  rw [List.length_append, ← linesLength_eq] at hjoin
  exact hjoin

theorem linesLength_le (s : List α) : linesLength (linesOf d s) ≤ s.length := by
  have hadd := linesLength_add (d := d) s
  omega

/-- Behind an unfinished line, what arrives has one delimiter more than the lines behind
the first. -/
theorem shortLines_open_length {r : List α} (hr : d ∉ r) (c : List α) :
    shortLines d limit (r ++ c) = [] ∨ ∃ l ls, shortLines d limit (r ++ c) = l :: ls ∧
      l.length ≤ limit ∧ linesLength ls + 1 ≤ c.length := by
  have hsplit := splitLines_open hr c
  have hlength := linesLength_le (d := d) c
  cases hlines : linesOf d c with
  | nil =>
      rw [hlines] at hsplit
      have hnil : linesOf d (r ++ c) = [] := congrArg Prod.fst hsplit
      left
      unfold shortLines
      rw [hnil]
      rfl
  | cons l ls =>
      rw [hlines] at hsplit hlength
      have hcons : linesOf d (r ++ c) = (r ++ l) :: ls := congrArg Prod.fst hsplit
      unfold shortLines
      rw [hcons]
      by_cases hshort : (r ++ l).length ≤ limit
      · right
        rw [List.takeWhile_cons_of_pos (by simpa using hshort)]
        refine ⟨_, _, rfl, hshort, ?_⟩
        have hbegins : (ls.takeWhile fun l => decide (l.length ≤ limit)) <+: ls :=
          List.takeWhile_prefix _
        have hsum : linesLength (ls.takeWhile fun l => decide (l.length ≤ limit)) ≤
            linesLength ls := by
          obtain ⟨others, hothers⟩ := hbegins
          have hall := congrArg linesLength hothers
          unfold linesLength at hall ⊢
          rw [List.map_append, List.sum_append] at hall
          omega
        unfold linesLength at hlength hsum ⊢
        rw [List.map_cons, List.sum_cons] at hlength
        omega
      · left
        rw [List.takeWhile_cons_of_neg (by simpa using hshort)]

end NativeGuard.Data

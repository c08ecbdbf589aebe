import NativeGuard.Data.BinarySearch
import NativeGuard.Security.Policy

/-!
# The policy table as a map (`src/policy.cpp`)

What rules and defaults decide of a name is the row of the rule with that name, or the
defaults. A table that is built decides the same, in whatever order the rules come
(`policy_table_is_map`).
-/

namespace NativeGuard.Security

open Json Data

/-! ## §1  What rules decide -/

/-- The only rule of the name decides it, and the defaults decide a name without one. -/
inductive Decides (rules : List ToolRule) (defaults : PolicyDefaults) (toolName : Bytes) :
    Access → Access → Prop
  | listed (rule : ToolRule) (hmem : rule ∈ rules) (hname : rule.name = toolName)
      (honly : ∀ other ∈ rules, other.name = toolName → other = rule) :
      Decides rules defaults toolName rule.visible rule.callable
  | unlisted (hnone : ∀ rule ∈ rules, rule.name ≠ toolName) :
      Decides rules defaults toolName defaults.visible defaults.callable

namespace PolicyTable

/-- The members are set to the candidate at the end, behind both checks. -/
def buildInto (rules : List ToolRule) (defaults : PolicyDefaults) (output : PolicyTable) :
    Status × PolicyTable :=
  match build rules defaults with
  | .ok candidate => ({}, candidate)
  | .error status => (status, output)

/-- `find` with the halving of `std::lower_bound` written out. -/
def findByHalves (table : PolicyTable) (toolName : Bytes) : Option ToolRule :=
  search ToolRule.name table.rules toolName

theorem findByHalves_eq (table : PolicyTable) (toolName : Bytes) :
    table.findByHalves toolName = table.find toolName :=
  search_eq_lookup ToolRule.name table.sorted toolName

/-! ## §2  Building -/

theorem build_error {rules : List ToolRule} {defaults : PolicyDefaults} {status : Status}
    (h : build rules defaults = .error status) :
    status.code ≠ .ok ∧
      ((∃ rule ∈ rules, rule.name = []) ∨ ¬ (rules.map ToolRule.name).Nodup) := by
  unfold build at h
  split at h
  · next hempty =>
    cases h
    exact ⟨by simp, Or.inl hempty⟩
  · split at h
    · next hdup =>
      cases h
      refine ⟨by simp, Or.inr fun hnodup => ?_⟩
      rw [(adjacentEqual_sortOn ToolRule.name rules).mpr hnodup] at hdup
      cases hdup
    · cases h

/-- The order of the rules is not seen. -/
theorem build_perm {rules rules' : List ToolRule} (hperm : rules.Perm rules')
    (defaults : PolicyDefaults) : build rules defaults = build rules' defaults := by
  have hempty : (∃ rule ∈ rules, rule.name = []) ↔ ∃ rule ∈ rules', rule.name = [] :=
    exists_congr fun rule => and_congr_left fun _ => hperm.mem_iff
  have hsorted := (hperm.map ToolRule.name).nodup_iff
  rw [← adjacentEqual_sortOn, ← adjacentEqual_sortOn] at hsorted
  unfold build
  by_cases hunnamed : ∃ rule ∈ rules, rule.name = []
  · rw [dif_pos hunnamed, dif_pos (hempty.mp hunnamed)]
  rw [dif_neg hunnamed, dif_neg (mt hempty.mpr hunnamed)]
  by_cases hdup : adjacentEqual ToolRule.name (sortOn ToolRule.name rules) = true
  · have hdup' : adjacentEqual ToolRule.name (sortOn ToolRule.name rules') = true := by
      by_contra hfalse
      rw [Bool.not_eq_true] at hfalse
      exact Bool.false_ne_true ((hsorted.mpr hfalse).symm.trans hdup)
    rw [dif_pos hdup, dif_pos hdup']
  · have hfalse := eq_false_of_ne_true hdup
    have hnodup := (adjacentEqual_sortOn ToolRule.name rules).mp hfalse
    have heq := sortOn_eq_of_perm ToolRule.name hperm hnodup
    have hdup' : ¬ adjacentEqual ToolRule.name (sortOn ToolRule.name rules') = true := by
      rw [hsorted.mp hfalse]
      exact Bool.false_ne_true
    rw [dif_neg hdup, dif_neg hdup']
    simp only [heq]

/-! ## §3  Lookups -/

/-- A built table decides what its rules decide. -/
theorem build_decides {rules : List ToolRule} {defaults : PolicyDefaults}
    {table : PolicyTable} (h : build rules defaults = .ok table) (toolName : Bytes) :
    Decides rules defaults toolName (table.visibilityFor toolName)
      (table.invocationFor toolName) := by
  obtain ⟨-, hnodup, hrules, rfl⟩ := build_eq_ok h
  have hmem : ∀ rule, rule ∈ table.rules ↔ rule ∈ rules := by
    intro rule
    rw [hrules]
    exact mem_sortOn ToolRule.name
  by_cases hlisted : ∃ rule ∈ table.rules, rule.name = toolName
  · obtain ⟨rule, hrule, rfl⟩ := hlisted
    obtain ⟨hvisible, hcallable⟩ := table.lookups_of_mem hrule
    rw [hvisible, hcallable]
    refine .listed rule ((hmem rule).mp hrule) rfl fun other hother hname => ?_
    exact List.inj_on_of_nodup_map hnodup hother ((hmem rule).mp hrule) hname
  · have hnone : ∀ rule ∈ table.rules, rule.name ≠ toolName :=
      fun rule hrule hname => hlisted ⟨rule, hrule, hname⟩
    obtain ⟨hvisible, hcallable⟩ := table.lookups_of_not_mem hnone
    rw [hvisible, hcallable]
    exact .unlisted fun rule hrule => hnone rule ((hmem rule).mpr hrule)

/-- `build` fails on an unnamed or a repeated rule and keeps the output then; otherwise
the table decides what the rules decide, found by halving, whatever their order. -/
theorem policy_table_is_map (rules : List ToolRule) (defaults : PolicyDefaults)
    (output : PolicyTable) :
    ((buildInto rules defaults output).1.code ≠ .ok ↔
        (∃ rule ∈ rules, rule.name = []) ∨ ¬ (rules.map ToolRule.name).Nodup) ∧
      ((buildInto rules defaults output).1.code ≠ .ok →
        (buildInto rules defaults output).2 = output) ∧
      ((buildInto rules defaults output).1.code = .ok → ∀ toolName,
        Decides rules defaults toolName
          ((buildInto rules defaults output).2.visibilityFor toolName)
          ((buildInto rules defaults output).2.invocationFor toolName) ∧
        (buildInto rules defaults output).2.findByHalves toolName =
          (buildInto rules defaults output).2.find toolName) ∧
      ∀ rules', rules.Perm rules' →
        (buildInto rules' defaults output).1 = (buildInto rules defaults output).1 ∧
        (buildInto rules' defaults output).2.rules =
          (buildInto rules defaults output).2.rules ∧
        (∀ toolName, (buildInto rules' defaults output).2.visibilityFor toolName =
            (buildInto rules defaults output).2.visibilityFor toolName ∧
          (buildInto rules' defaults output).2.invocationFor toolName =
            (buildInto rules defaults output).2.invocationFor toolName) ∧
        (buildInto rules' defaults output).2.fingerprint =
          (buildInto rules defaults output).2.fingerprint := by
  refine ⟨?_, ?_, ?_, fun rules' hperm => ?_⟩
  · unfold buildInto
    cases hbuild : build rules defaults with
    | error status =>
        obtain ⟨hcode, hbad⟩ := build_error hbuild
        exact iff_of_true hcode hbad
    | ok table =>
        obtain ⟨hnamed, hnodup, -⟩ := build_eq_ok hbuild
        refine iff_of_false (not_not.mpr rfl) ?_
        rintro (⟨rule, hrule, hname⟩ | hrepeated)
        · exact hnamed rule hrule hname
        · exact hrepeated hnodup
  · unfold buildInto
    cases build rules defaults with
    | error status => exact fun _ => rfl
    | ok table => exact fun h => absurd rfl h
  · unfold buildInto
    cases hbuild : build rules defaults with
    | error status => exact fun h => absurd h (build_error hbuild).1
    | ok table => exact fun _ toolName =>
        ⟨build_decides hbuild toolName, table.findByHalves_eq toolName⟩
  · have hbuild : buildInto rules' defaults output = buildInto rules defaults output := by
      unfold buildInto
      rw [build_perm hperm]
    rw [hbuild]
    exact ⟨rfl, rfl, fun _ => ⟨rfl, rfl⟩, rfl⟩

end PolicyTable

end NativeGuard.Security

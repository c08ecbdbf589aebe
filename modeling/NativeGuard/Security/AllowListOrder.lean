import NativeGuard.Security.PolicyGenerator

/-!
# The order of the allow list

What `policy create` makes of an inventory depends on the names it is to allow and
not on their order: the checks stop at the first offender but report it under one
code (`generate_code`), and the rules are sorted before they are written.
-/

namespace NativeGuard.Security.PolicyGenerator

open Json Json.Scan Protocol Data

variable {limits : PolicyGeneratorLimits}

/-! ## §1  What the checks report -/

/-- The error code or the policy, without the name that offends. -/
def codeOf (r : Except PolicyGenerateFailure Bytes) : Except PolicyGenerateError Bytes :=
  r.mapError PolicyGenerateFailure.error

theorem firstDuplicate_some {names : List Bytes} (h : ¬ names.Nodup) :
    ∃ name, firstDuplicate names = some name := by
  rcases hfirst : firstDuplicate names with _ | name
  · exact absurd (firstDuplicate_none.mp hfirst) h
  · exact ⟨name, rfl⟩

/-- The names of a document that is read are not empty. -/
theorem parseInventoryDocument_named {json : Bytes} {names : List Bytes}
    (hnesting : ¬ exceedsNesting json limits.maxNestingDepth = true)
    (h : parseInventoryDocument limits json = .ok names) : ∀ name ∈ names, name ≠ [] := by
  rcases (parseInventoryDocument_ok hnesting).mp h with ⟨exit, ms, tail, -, -, hread, rfl⟩
  intro name hname
  rcases hread.named name hname with ⟨t, rfl, -, hempty, -⟩
  exact hempty

/-- The code and the policy behind the inventory, in terms of the checks. -/
def allowedPolicy (toolNames allowToolNames : List Bytes) : Except PolicyGenerateError Bytes :=
  if ¬ allowToolNames.Nodup then .error .duplicateAllowTool
  else if ¬ ∀ name ∈ allowToolNames, name ∈ toolNames then .error .unknownAllowTool
  else .ok (policyJson (sortedRules allowToolNames))

theorem allowRules_error {toolNames allowToolNames : List Bytes}
    (h : ¬ ∀ name ∈ allowToolNames, name ∈ toolNames) :
    ∃ name, allowRules toolNames allowToolNames = .error ⟨.unknownAllowTool, name⟩ := by
  have hcons : ∀ requested names, allowRules toolNames (requested :: names) =
      ((if requested ∈ toolNames then .ok (allowRule requested)
        else .error ⟨.unknownAllowTool, requested⟩) >>= fun rule =>
          allowRules toolNames names >>= fun rules => .ok (rule :: rules)) := fun _ _ =>
    List.mapM_cons
  induction allowToolNames with
  | nil => exact absurd (fun _ h => absurd h List.not_mem_nil) h
  | cons requested names ih =>
      rw [hcons]
      by_cases hknown : requested ∈ toolNames
      · rcases ih (fun hall => h (List.forall_mem_cons.mpr ⟨hknown, hall⟩)) with ⟨name, hname⟩
        rw [if_pos hknown, hname]
        exact ⟨name, rfl⟩
      · rw [if_neg hknown]
        exact ⟨requested, rfl⟩

theorem allowedPolicy_eq {toolNames allowToolNames : List Bytes}
    (hnames : ∀ name ∈ toolNames, name ≠ []) :
    codeOf (match firstDuplicate allowToolNames with
      | some name => .error ⟨.duplicateAllowTool, name⟩
      | none => allowRules toolNames allowToolNames >>= fun rules =>
          (PolicyTable.build rules ⟨.deny, .deny⟩).mapError
            (fun _ => ⟨.duplicateAllowTool, []⟩) >>= fun table =>
              .ok (policyJson table.rules)) = allowedPolicy toolNames allowToolNames := by
  unfold allowedPolicy
  by_cases hdistinct : allowToolNames.Nodup
  · rw [if_neg (not_not.mpr hdistinct), firstDuplicate_none.mpr hdistinct]
    dsimp only
    by_cases hlisted : ∀ name ∈ allowToolNames, name ∈ toolNames
    · -- the table of known, distinct names is built
      have hnamed : ∀ rule ∈ allowToolNames.map allowRule, rule.name ≠ [] := by
        intro rule hrule
        rcases List.mem_map.mp hrule with ⟨name, hname, rfl⟩
        exact hnames name (hlisted name hname)
      rcases @PolicyTable.build_ok _ ⟨.deny, .deny⟩ hnamed
        (by rw [map_allowRule_name]; exact hdistinct) with ⟨table, hbuild, hrules, -⟩
      rw [if_neg (not_not.mpr hlisted), allowRules_ok.mpr ⟨hlisted, rfl⟩]
      show codeOf ((PolicyTable.build _ _).mapError _ >>= _) = _
      rw [hbuild]
      show Except.ok (policyJson table.rules) = _
      rw [hrules]
      rfl
    · rcases allowRules_error hlisted with ⟨name, hname⟩
      rw [if_pos hlisted, hname]
      rfl
  · rcases firstDuplicate_some hdistinct with ⟨name, hname⟩
    rw [if_pos hdistinct, hname]
    rfl

/-- The checks in their order. -/
theorem generate_code (inventoryJson : Bytes) (allowToolNames : List Bytes) :
    codeOf (generatePolicyFromInventory limits inventoryJson allowToolNames) =
      if inventoryJson.length > limits.maxInventoryBytes then .error .inventoryTooLarge
      else if exceedsNesting inventoryJson limits.maxNestingDepth then
        .error .excessiveNesting
      else parseInventoryDocument limits inventoryJson >>= fun toolNames =>
        allowedPolicy toolNames allowToolNames := by
  unfold generatePolicyFromInventory
  by_cases hsize : inventoryJson.length > limits.maxInventoryBytes
  · rw [if_pos hsize, if_pos hsize]
    rfl
  rw [if_neg hsize, if_neg hsize]
  by_cases hnesting : exceedsNesting inventoryJson limits.maxNestingDepth = true
  · rw [if_pos hnesting, if_pos hnesting]
    rfl
  rw [if_neg hnesting, if_neg hnesting]
  rcases hparse : parseInventoryDocument limits inventoryJson with e | toolNames
  · rfl
  · exact allowedPolicy_eq (parseInventoryDocument_named hnesting hparse)

/-! ## §2  Permuted lists -/

theorem sortedRules_perm {names names' : List Bytes} (hperm : names.Perm names')
    (hdistinct : names.Nodup) : sortedRules names = sortedRules names' := by
  refine sortOn_eq_of_perm ToolRule.name (hperm.map allowRule) ?_
  rw [map_allowRule_name]
  exact hdistinct

theorem allowedPolicy_perm {names names' : List Bytes} (hperm : names.Perm names')
    (toolNames : List Bytes) : allowedPolicy toolNames names = allowedPolicy toolNames names' := by
  have hlisted : (∀ name ∈ names, name ∈ toolNames) ↔ ∀ name ∈ names', name ∈ toolNames :=
    forall_congr' fun _ => imp_congr_left hperm.mem_iff
  unfold allowedPolicy
  by_cases hdistinct : names.Nodup
  · simp only [hlisted, ← hperm.nodup_iff, sortedRules_perm hperm hdistinct]
  · rw [if_pos hdistinct, if_pos (hperm.nodup_iff.not.mp hdistinct)]

/-- The outcome for one inventory does not depend on the order of the allow list, and
neither does the policy on the inventories that list its names. -/
theorem allow_list_order {names names' : List Bytes} (hperm : names.Perm names') :
    (∀ limits inventoryJson,
        codeOf (generatePolicyFromInventory limits inventoryJson names) =
          codeOf (generatePolicyFromInventory limits inventoryJson names')) ∧
      ∀ limits₁ limits₂ inventoryJson₁ inventoryJson₂ policy₁ policy₂,
        generatePolicyFromInventory limits₁ inventoryJson₁ names = .ok policy₁ →
        generatePolicyFromInventory limits₂ inventoryJson₂ names' = .ok policy₂ →
        policy₁ = policy₂ := by
  constructor
  · intro limits inventoryJson
    simp only [generate_code, allowedPolicy_perm hperm]
  · intro limits₁ limits₂ inventoryJson₁ inventoryJson₂ policy₁ policy₂ h₁ h₂
    rcases generate_ok.mp h₁ with ⟨-, exit₁, ms₁, tail₁, -, -, -, -, hallow, rfl⟩
    rcases generate_ok.mp h₂ with ⟨-, exit₂, ms₂, tail₂, -, -, -, -, -, rfl⟩
    rw [sortedRules_perm hperm hallow.distinct]

theorem allow_list_order_example :
    (∀ limits inventoryJson,
        codeOf (generatePolicyFromInventory limits inventoryJson [ascii "a", ascii "b"]) =
          codeOf (generatePolicyFromInventory limits inventoryJson [ascii "b", ascii "a"])) ∧
      ∀ limits₁ limits₂ inventoryJson₁ inventoryJson₂ policy₁ policy₂,
        generatePolicyFromInventory limits₁ inventoryJson₁ [ascii "a", ascii "b"] =
          .ok policy₁ →
        generatePolicyFromInventory limits₂ inventoryJson₂ [ascii "b", ascii "a"] =
          .ok policy₂ →
        policy₁ = policy₂ :=
  allow_list_order (List.Perm.swap _ _ _)

end NativeGuard.Security.PolicyGenerator

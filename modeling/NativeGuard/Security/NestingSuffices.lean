import NativeGuard.Protocol.NestingLimit
import NativeGuard.Security.PolicyGenerator

/-!
# The pre-scan suffices

The policy loader and the policy generator scan a text for its nesting before they
parse it. Once the scan passes, the limit makes no difference any more: with a larger
one the result is the same, whatever the text (`prescan_suffices`).
-/

namespace NativeGuard.Security

open Json Json.Scan Protocol

variable {maxDepth maxDepth' k : Nat}

/-! ## §1  The loader -/

namespace PolicyLoader

theorem parseAccess_alike : parseAccess.AlikeWithin maxDepth k parseAccess :=
  .check (.string _) _

theorem defaults_alike (hle : maxDepth ≤ maxDepth') (hadmitted : 2 ≤ maxDepth) :
    (defaultsReader maxDepth).loop.LoopsAlike maxDepth 2 (defaultsReader maxDepth').loop where
  malformed := rfl
  checkKey := rfl
  trailing := rfl
  member st key := by
    show (DefaultsState.member maxDepth st key).AlikeWithin maxDepth 2
      (DefaultsState.member maxDepth' st key)
    unfold DefaultsState.member
    split
    · exact .once (.map parseAccess_alike _) _ _
    split
    · exact .once (.map parseAccess_alike _) _ _
    · exact .map (skipValue_alike hadmitted hle _) _

/-- The guard of `parse_defaults` is met by no text that has passed. -/
theorem parseDefaults_alike (hle : maxDepth ≤ maxDepth') :
    (parseDefaults maxDepth).AlikeWithin maxDepth 1 (parseDefaults maxDepth') := by
  unfold parseDefaults
  by_cases hlow : maxDepth < 2
  · rw [if_pos hlow]
    split
    · exact .fail _
    · exact .not_object hlow _ _ _
  · rw [if_neg hlow, if_neg (by omega)]
    exact .object (fun hadmitted => defaults_alike hle hadmitted) _ _ _

theorem tool_alike (hle : maxDepth ≤ maxDepth') (hadmitted : 3 ≤ maxDepth) :
    (toolReader maxDepth).loop.LoopsAlike maxDepth 3 (toolReader maxDepth').loop where
  malformed := rfl
  checkKey := rfl
  trailing := rfl
  member st key := by
    show (ToolState.member maxDepth st key).AlikeWithin maxDepth 3
      (ToolState.member maxDepth' st key)
    unfold ToolState.member
    split
    · exact .once (.map (.check (.string _) _) _) _ _
    split
    · exact .once (.map parseAccess_alike _) _ _
    split
    · exact .once (.map parseAccess_alike _) _ _
    · exact .map (skipValue_alike hadmitted hle _) _

theorem parseTool_alike (hle : maxDepth ≤ maxDepth') :
    (parseTool maxDepth).AlikeWithin maxDepth 2 (parseTool maxDepth') := by
  unfold parseTool
  by_cases hlow : maxDepth < 3
  · rw [if_pos hlow]
    split
    · exact .fail _
    · exact .not_object hlow _ _ _
  · rw [if_neg hlow, if_neg (by omega)]
    exact .object (fun hadmitted => tool_alike hle hadmitted) _ _ _

theorem tools_alike (hle : maxDepth ≤ maxDepth') :
    (toolsReader maxDepth).loop.LoopsAlike maxDepth 2 (toolsReader maxDepth').loop where
  malformed := rfl
  trailing := rfl
  element _ := (parseTool_alike hle).map _

theorem parseTools_alike (hle : maxDepth ≤ maxDepth') (tools : List ToolRule) :
    (parseTools maxDepth tools).AlikeWithin maxDepth 1 (parseTools maxDepth' tools) := by
  unfold parseTools
  by_cases hlow : maxDepth < 2
  · rw [if_pos hlow]
    split
    · exact .fail _
    · exact .not_array hlow _ _
  · rw [if_neg hlow, if_neg (by omega)]
    exact .array (fun _ => tools_alike hle) _ _

theorem policy_alike (hle : maxDepth ≤ maxDepth') (hadmitted : 1 ≤ maxDepth) :
    (policyReader maxDepth).loop.LoopsAlike maxDepth 1 (policyReader maxDepth').loop where
  malformed := rfl
  checkKey := rfl
  trailing := rfl
  member st key := by
    show (PolicyState.member maxDepth st key).AlikeWithin maxDepth 1
      (PolicyState.member maxDepth' st key)
    unfold PolicyState.member
    split
    · exact .once (.map (.check (.captured (.number _)) _) _) _ _
    split
    · exact .once (.map (parseDefaults_alike hle) _) _ _
    split
    · exact .once (.map (parseTools_alike hle _) _) _ _
    · exact .map (skipValue_alike hadmitted hle _) _

theorem parse_limit (config : Config) {json : Bytes} (hle : maxDepth ≤ maxDepth')
    (h : exceedsNesting json maxDepth = false) :
    parse { config with maxNestingDepth := maxDepth } json =
      parse { config with maxNestingDepth := maxDepth' } json := by
  unfold parse
  dsimp only
  rw [h, exceedsNesting_mono hle h]
  have hdocument := ObjectLoop.LoopsAlike.document (fun hadmitted => policy_alike hle hadmitted)
    ⟨.malformedJson, "policy must be a JSON object"⟩ PolicyState.leave
    (fun _ => ⟨.malformedJson, "trailing data after policy object"⟩) {} json h
  rw [hdocument.result]

end PolicyLoader

/-! ## §2  The generator -/

namespace PolicyGenerator

variable (limits : PolicyGeneratorLimits)

theorem tool_alike (hle : maxDepth ≤ maxDepth') (hadmitted : 3 ≤ maxDepth) :
    (toolReader { limits with maxNestingDepth := maxDepth }).loop.LoopsAlike maxDepth 3
      (toolReader { limits with maxNestingDepth := maxDepth' }).loop where
  malformed := rfl
  checkKey := rfl
  trailing := rfl
  member st key := by
    show (ToolState.member { limits with maxNestingDepth := maxDepth } st key).AlikeWithin
      maxDepth 3 (ToolState.member { limits with maxNestingDepth := maxDepth' } st key)
    unfold ToolState.member
    split
    · exact .once (.map (.onByte _ (.check (.string _) _) (.fail _)) _) _ _
    · exact .map (skipValue_alike hadmitted hle _) _

theorem parseToolName_alike (hle : maxDepth ≤ maxDepth') :
    (parseToolName { limits with maxNestingDepth := maxDepth }).AlikeWithin maxDepth 2
      (parseToolName { limits with maxNestingDepth := maxDepth' }) := by
  unfold parseToolName
  exact .object (fun hadmitted => tool_alike limits hle hadmitted) _ _ _

theorem tools_alike (hle : maxDepth ≤ maxDepth') :
    (toolsReader { limits with maxNestingDepth := maxDepth }).loop.LoopsAlike maxDepth 2
      (toolsReader { limits with maxNestingDepth := maxDepth' }).loop where
  malformed := by
    show PolicyGenerateError.malformedInventoryJson = .malformedInventoryJson
    rfl
  trailing := by
    show true = true
    rfl
  element names := by
    have hname := parseToolName_alike limits hle
    by_cases hfull : names.length ≥ limits.maxTools
    · show Reader.AlikeWithin maxDepth 2 (if _ then _ else _) (if _ then _ else _)
      rw [if_pos hfull, if_pos hfull]
      exact .fail _
    · show Reader.AlikeWithin maxDepth 2 (if _ then _ else _) (if _ then _ else _)
      rw [if_neg hfull, if_neg hfull]
      exact hname.check _

theorem inventory_alike (hle : maxDepth ≤ maxDepth') (hadmitted : 1 ≤ maxDepth) :
    (inventoryReader { limits with maxNestingDepth := maxDepth }).loop.LoopsAlike maxDepth 1
      (inventoryReader { limits with maxNestingDepth := maxDepth' }).loop where
  malformed := rfl
  checkKey := rfl
  trailing := rfl
  member st key := by
    show (InventoryState.member { limits with maxNestingDepth := maxDepth } st key).AlikeWithin
      maxDepth 1 (InventoryState.member { limits with maxNestingDepth := maxDepth' } st key)
    unfold InventoryState.member
    split
    · exact .once (.map (.check (.captured (.number _)) _) _) _ _
    split
    · exact .once (.map (.onByte _ (skipValue_alike hadmitted hle _) (.fail _)) _) _ _
    split
    · exact .once (.map (.array (fun _ => tools_alike limits hle) _ _) _) _ _
    · exact .map (skipValue_alike hadmitted hle _) _

theorem generate_limit {json : Bytes}
    (hle : maxDepth ≤ maxDepth') (h : exceedsNesting json maxDepth = false)
    (allowToolNames : List Bytes) :
    generatePolicyFromInventory { limits with maxNestingDepth := maxDepth } json
        allowToolNames =
      generatePolicyFromInventory { limits with maxNestingDepth := maxDepth' } json
        allowToolNames := by
  have hparse : parseInventoryDocument { limits with maxNestingDepth := maxDepth } json =
      parseInventoryDocument { limits with maxNestingDepth := maxDepth' } json := by
    have hdocument := ObjectLoop.LoopsAlike.document
      (fun hadmitted => inventory_alike limits hle hadmitted)
      .malformedInventoryJson (fun _ _ => .ok ()) (fun _ => .malformedInventoryJson)
      InventoryState.init json h
    unfold parseInventoryDocument
    rw [hdocument.result]
  unfold generatePolicyFromInventory
  dsimp only
  rw [h, exceedsNesting_mono hle h, hparse]

end PolicyGenerator

/-! ## §3  Both -/

/-- Once the pre-scan passes, a larger nesting limit changes nothing: neither an error
nor a policy nor the name that is blamed. -/
theorem prescan_suffices (json : Bytes) (maxDepth maxDepth' : Nat) (hle : maxDepth ≤ maxDepth')
    (h : exceedsNesting json maxDepth = false) :
    (∀ config : PolicyLoader.Config,
      PolicyLoader.parse { config with maxNestingDepth := maxDepth } json =
        PolicyLoader.parse { config with maxNestingDepth := maxDepth' } json) ∧
      ∀ (limits : PolicyGeneratorLimits) (allowToolNames : List Bytes),
        PolicyGenerator.generatePolicyFromInventory
            { limits with maxNestingDepth := maxDepth } json allowToolNames =
          PolicyGenerator.generatePolicyFromInventory
            { limits with maxNestingDepth := maxDepth' } json allowToolNames :=
  ⟨fun config => PolicyLoader.parse_limit config hle h,
    fun limits allowToolNames => PolicyGenerator.generate_limit limits hle h allowToolNames⟩

/-- Brackets that do not match, within a limit of two. -/
def mismatched : Bytes := ascii "\x7b\"defaults\":[]\x7d,\"tools\":\x7b"

theorem prescan_suffices_example :
    (2 ≤ 64 ∧ exceedsNesting mismatched 2 = false) ∧
      PolicyLoader.parse { maxNestingDepth := 2 } mismatched =
        PolicyLoader.parse { maxNestingDepth := 64 } mismatched := by
  have hscan : 2 ≤ 64 ∧ exceedsNesting mismatched 2 = false := by decide +kernel
  exact ⟨hscan, (prescan_suffices mismatched 2 64 hscan.1 hscan.2).1 {}⟩

end NativeGuard.Security

import NativeGuard.Protocol.InventoryOrder
import NativeGuard.Protocol.InventoryText
import NativeGuard.Security.GeneratedPolicy

/-!
# From `inspect` to `policy create`

The inventory that `inspect` writes for an accepted response is read by the policy
generator, under the generator's own limits: the tree that is written is an
inventory (`isInventory_written`) of the same names (`inventoryNames_written`), and
no deeper than the generator allows (`depth_written`). What remains between the two
is their bound on the size of the text (`inspected_policy_created`).
-/

namespace NativeGuard.Security.InspectedPolicy

open Json Json.Scan Protocol Protocol.Inventory Data

variable {limits : InventoryLimits} {generatorLimits : PolicyGeneratorLimits}

/-! ## §1  A written tool -/

theorem nameOf_writtenTool {v : Value} (h : IsTool limits v) :
    PolicyGenerator.nameOf (writtenTool v) = (entryOf v).name := by
  rcases h with ⟨gap, ms, rfl, hms⟩
  rcases hms.single List.mem_cons_self List.mem_cons_self with ⟨w, hw, -⟩
  rw [PolicyGenerator.nameOf, writtenTool, membersOf, membersOf, PolicyLoader.nameAt,
    (valuesAt_written ms).1, entryOf, membersOf, hw]
  simp

/-- The generator reads what is written for a tool as a tool. -/
theorem isTool_written {v : Value} (h : IsTool limits v)
    (hname : limits.maxToolNameBytes ≤ generatorLimits.maxToolNameBytes) :
    PolicyGenerator.IsTool generatorLimits (writtenTool v) := by
  rcases h with ⟨gap, ms, rfl, hms⟩
  rcases hms.single List.mem_cons_self List.mem_cons_self with ⟨w, hw, hok⟩
  rcases (show IsToolName limits w from hok) with ⟨t, rfl, hescape, hempty, hlength⟩
  exact ⟨noGap, _, rfl, writtenMembers_unescaped, .str t, (valuesAt_written ms).1.trans hw,
    ⟨t, rfl, hescape, hempty⟩, hlength.trans hname⟩

/-- A tool of the response leaves room for the two levels around it. -/
theorem depth_writtenTool {v : Value} (h : IsTool limits v)
    (hroom : 3 ≤ limits.maxNestingDepth) :
    2 + (writtenTool v).depth ≤ limits.maxNestingDepth := by
  rcases h with ⟨gap, ms, rfl, hms⟩
  have hvalue : ∀ {key : Bytes} {w : Value}, w ∈ valuesAt key ms →
      toolMemberOk limits key w := by
    intro key w hw
    rcases mem_valuesAt.mp hw with ⟨m, hm, rfl, rfl⟩
    exact hms.values m hm
  have hschema : ∀ {w : Value}, IsSchema limits w →
      w.canonical.depth ≤ limits.maxNestingDepth - 3 := by
    intro w hw
    have hdepth := depth_le_nesting w.canonical
    have hnesting := nesting_canonical_le w
    have hlimit := hw.1
    omega
  have hmembers : ∀ m ∈ writtenMembers ms, m.value.depth ≤ limits.maxNestingDepth - 3 := by
    intro m hm
    rcases mem_writtenMembers hm with ⟨w, hw, rfl⟩ | ⟨w, hw, rfl⟩ | ⟨w, hw, rfl⟩ | ⟨w, hw, rfl⟩
    · rcases (show IsToolName limits w from hvalue hw) with ⟨t, rfl, -⟩
      exact Nat.zero_le _
    · rcases (show IsDescription limits w from hvalue hw) with ⟨t, rfl, -⟩
      exact Nat.zero_le _
    · exact hschema (hvalue hw)
    · exact hschema (hvalue hw)
  have hdepth : (writtenTool (.obj gap ms)).depth ≤ limits.maxNestingDepth - 3 + 1 :=
    depth_obj_le.mpr hmembers
  omega

/-! ## §2  A written inventory -/

theorem mem_elementsOf_toolsTree {tools : List Value} {e : Element Value}
    (h : e ∈ elementsOf (toolsTree tools)) : ∃ v ∈ tools, e.value = writtenTool v := by
  rcases List.mem_map.mp (show e ∈ (tools.map writtenTool).map Element.compact from h)
    with ⟨tool, htool, rfl⟩
  rcases List.mem_map.mp htool with ⟨v, hv, rfl⟩
  exact ⟨v, hv, rfl⟩

/-- The names that `inspect` lists, as the generator reads them. -/
theorem namesOf_toolsTree {tools : List Value} (h : ∀ v ∈ tools, IsTool limits v) :
    PolicyGenerator.namesOf (toolsTree tools) =
      (tools.map entryOf).map ToolInventoryEntry.name := by
  have hname : ∀ v ∈ tools, PolicyGenerator.nameOf (writtenTool v) = (entryOf v).name :=
    fun v hv => nameOf_writtenTool (h v hv)
  rw [PolicyGenerator.namesOf, toolsTree, elementsOf, List.map_map, List.map_map, List.map_map]
  exact List.map_congr_left hname

theorem isTools_written {tools : List Value} (h : ∀ v ∈ tools, IsTool limits v)
    (hname : limits.maxToolNameBytes ≤ generatorLimits.maxToolNameBytes)
    (hcount : tools.length ≤ generatorLimits.maxTools)
    (hdistinct : ((tools.map entryOf).map ToolInventoryEntry.name).Nodup) :
    PolicyGenerator.IsTools generatorLimits (toolsTree tools) where
  array := ⟨noGap, _, rfl⟩
  count := by
    rw [toolsTree, elementsOf, List.length_map, List.length_map]
    exact hcount
  tools e he := by
    rcases mem_elementsOf_toolsTree he with ⟨v, hv, hvalue⟩
    rw [hvalue]
    exact isTool_written (h v hv) hname
  distinct := by
    rw [namesOf_toolsTree h]
    exact hdistinct

/-- What `inspect` writes is an inventory to the generator. -/
theorem isInventory_written {tools : List Value} (h : ∀ v ∈ tools, IsTool limits v)
    (hname : limits.maxToolNameBytes ≤ generatorLimits.maxToolNameBytes)
    (hcount : tools.length ≤ generatorLimits.maxTools)
    (hdistinct : ((tools.map entryOf).map ToolInventoryEntry.name).Nodup)
    (downstreamExecutable : Bytes) :
    PolicyGenerator.IsInventory generatorLimits (inventoryMembers downstreamExecutable tools)
    where
  keys := by
    simp only [inventoryMembers, List.forall_mem_cons]
    exact ⟨plainString_unescaped _ (by decide), plainString_unescaped _ (by decide),
      plainString_unescaped _ (by decide), fun _ h => absurd h List.not_mem_nil⟩
  version := by
    refine ⟨numberText 1, rfl, ?_⟩
    simp [numberText, toChars, decimal, digitByte]
    decide
  server := ⟨noGap, _, rfl⟩
  tools := ⟨toolsTree tools, rfl, isTools_written h hname hcount hdistinct⟩

theorem inventoryNames_written {tools : List Value} (h : ∀ v ∈ tools, IsTool limits v)
    (downstreamExecutable : Bytes) :
    PolicyGenerator.inventoryNames (inventoryMembers downstreamExecutable tools) =
      (tools.map entryOf).map ToolInventoryEntry.name := by
  have hvalues : valuesAt (ascii "tools") (inventoryMembers downstreamExecutable tools) =
      [toolsTree tools] := rfl
  rw [PolicyGenerator.inventoryNames, hvalues, List.flatMap_singleton, namesOf_toolsTree h]

/-- The written inventory is no deeper than the response was allowed to be. -/
theorem depth_written {tools : List Value} (h : ∀ v ∈ tools, IsTool limits v)
    (hroom : 3 ≤ limits.maxNestingDepth) (downstreamExecutable : Bytes) :
    1 + membersDepth (inventoryMembers downstreamExecutable tools) ≤
      limits.maxNestingDepth := by
  have htools : (toolsTree tools).depth ≤ limits.maxNestingDepth - 2 + 1 := by
    apply depth_arr_le.mpr
    intro e he
    rcases mem_elementsOf_toolsTree he with ⟨v, hv, hvalue⟩
    have hdepth := depth_writtenTool (h v hv) hroom
    rw [hvalue]
    omega
  have hmembers : membersDepth (inventoryMembers downstreamExecutable tools) ≤
      limits.maxNestingDepth - 1 := by
    apply membersDepth_le.mpr
    simp only [inventoryMembers, List.forall_mem_cons]
    refine ⟨Nat.zero_le _, ?_, ?_, fun _ h => absurd h List.not_mem_nil⟩
    · show 1 + max 0 0 ≤ _
      omega
    · show (toolsTree tools).depth ≤ _
      omega
  omega

/-! ## §3  From the response to the policy -/

/-- The inventory of an accepted response is written in full under a bound that its
text keeps to. Under a bound that leaves room for the newline as well, the policy
generator reads it back, and any of its tools may be allowed. -/
theorem inspected_policy_created {bound : Nat}
    {message expectedIdJson downstreamExecutable : Bytes} {inventory : ToolInventory}
    (h : parseToolsListResponse { maxMessageBytes := bound } message expectedIdJson
      downstreamExecutable = .ok inventory) :
    ((∃ text, emitInventoryJson inventory bound = some text) ↔
        (inventoryJson inventory).length ≤ bound) ∧
      ∀ text, emitInventoryJson inventory bound = some text → text.length + 1 ≤ bound →
        ∀ names : List Bytes, names.Nodup →
          (∀ name ∈ names, name ∈ inventory.tools.map ToolInventoryEntry.name) →
          ∃ policy, PolicyGenerator.generatePolicyFromInventory
              { maxInventoryBytes := bound } (text ++ [0x0A]) names = .ok policy ∧
            PolicyGenerator.LoadsAllowing policy names := by
  rcases parseToolsListResponse_ok.mp h with ⟨-, ms, -, hms, rfl⟩
  rcases inventoryOf_tools hms downstreamExecutable with
    ⟨tools, hinventory, htools, hcount, hdistinct⟩
  rw [hinventory, emitInventoryJson_eq]
  constructor
  · constructor
    · rintro ⟨text, htext⟩
      by_contra hlong
      rw [if_neg hlong] at htext
      cases htext
    · intro hle
      exact ⟨_, if_pos hle⟩
  · intro text htext hroom names hnames hlisted
    split at htext
    · cases htext
      have hread : PolicyGenerator.IsInventory { maxInventoryBytes := bound }
          (inventoryMembers downstreamExecutable tools) :=
        isInventory_written htools (le_refl 256) hcount hdistinct downstreamExecutable
      have hallow : PolicyGenerator.IsAllowList
          (inventoryMembers downstreamExecutable tools) names := by
        refine ⟨hnames, ?_⟩
        rwa [inventoryNames_written htools]
      have hdepth := depth_written htools (show 3 ≤ 64 by decide) downstreamExecutable
      have hdocument : IsText (inventoryJson ⟨downstreamExecutable, tools.map entryOf⟩ ++ [0x0A])
          (.obj noGap (inventoryMembers downstreamExecutable tools)) := by
        refine ⟨noGap, ⟨[0x0A], List.forall_mem_singleton.mpr (by decide)⟩, ?_⟩
        rw [inventoryJson_render htools]
        rfl
      rcases (documentText_cases hread.ne_nil).mpr (Or.inr ⟨noGap, hdocument⟩) with
        ⟨exit, tail, hdoc, hexit⟩
      refine ⟨_, PolicyGenerator.generate_ok.mpr
        ⟨?_, exit, _, tail, hdoc, hexit, hdepth, hread, hallow, rfl⟩,
        PolicyGenerator.allow_list_loads hread hallow (le_refl 256) (le_refl 256)⟩
      rw [List.length_append, List.length_singleton]
      exact hroom
    · cases htext

/-- A response that lists one tool, under a bound that the inventory keeps to. -/
def singleResponse : Bytes :=
  ascii "\x7b\"jsonrpc\":\"2.0\",\"id\":1,\"result\":\x7b\"tools\":[\x7b\"name\":\"a\"\x7d]\x7d\x7d"

def singleInventory : ToolInventory := ⟨ascii "srv", [{ name := ascii "a" }]⟩

theorem inspected_policy_created_example :
    ((∃ text, emitInventoryJson singleInventory 100 = some text) ↔
        (inventoryJson singleInventory).length ≤ 100) ∧
      ∀ text, emitInventoryJson singleInventory 100 = some text → text.length + 1 ≤ 100 →
        ∀ names : List Bytes, names.Nodup →
          (∀ name ∈ names, name ∈ singleInventory.tools.map ToolInventoryEntry.name) →
          ∃ policy, PolicyGenerator.generatePolicyFromInventory
              { maxInventoryBytes := 100 } (text ++ [0x0A]) names = .ok policy ∧
            PolicyGenerator.LoadsAllowing policy names :=
  inspected_policy_created
    (show parseToolsListResponse { maxMessageBytes := 100 } singleResponse (ascii "1")
      (ascii "srv") = .ok singleInventory by decide +kernel)

/-- A response that keeps to a bound, of which the inventory does not. -/
def emptyResponse : Bytes :=
  ascii "\x7b\"jsonrpc\":\"2.0\",\"id\":1,\"result\":\x7b\"tools\":[]\x7d\x7d"

/-- And an inventory of exactly the bytes of its bound has no room for the newline. -/
theorem inspected_inventory_too_large :
    (parseToolsListResponse { maxMessageBytes := 64 } emptyResponse (ascii "1")
        (ascii "srv") = .ok ⟨ascii "srv", []⟩ ∧
      IsObjectText emptyResponse ∧ emitInventoryJson ⟨ascii "srv", []⟩ 64 = none) ∧
    parseToolsListResponse { maxMessageBytes := 87 } singleResponse (ascii "1") (ascii "srv") =
        .ok singleInventory ∧
      ∃ text, emitInventoryJson singleInventory 87 = some text ∧ text.length = 87 ∧
        (PolicyGenerator.generatePolicyFromInventory { maxInventoryBytes := 87 }
          (text ++ [0x0A]) [ascii "a"]).toOption = none := by
  refine ⟨?_, by decide +kernel, ?_⟩
  swap
  · have hemits : (emitInventoryJson singleInventory 87).map (fun text => (text.length,
        (PolicyGenerator.generatePolicyFromInventory { maxInventoryBytes := 87 }
          (text ++ [0x0A]) [ascii "a"]).toOption)) = some (87, none) := by
      decide +kernel
    obtain ⟨text, htext, hpair⟩ := Option.map_eq_some_iff.mp hemits
    obtain ⟨hlength, hrefused⟩ := Prod.mk.inj hpair
    exact ⟨text, htext, hlength, hrefused⟩
  obtain ⟨hparse, hrender, hemit⟩ :
      parseToolsListResponse { maxMessageBytes := 64 } emptyResponse (ascii "1")
          (ascii "srv") = .ok ⟨ascii "srv", []⟩ ∧
        emptyResponse = (Value.obj noGap [versionMember,
          .compact (plainString (ascii "id") (.refl true)) (.num (numberText 1)),
          resultMember []]).render ∧
        emitInventoryJson ⟨ascii "srv", []⟩ 64 = none := by
    decide +kernel
  have htext : IsText emptyResponse (.obj noGap [versionMember,
      .compact (plainString (ascii "id") (.refl true)) (.num (numberText 1)),
      resultMember []]) := ⟨noGap, noGap, hrender.trans (List.append_nil _).symm⟩
  exact ⟨hparse, ⟨noGap, _, htext⟩, hemit⟩

end NativeGuard.Security.InspectedPolicy

import NativeGuard.Protocol.InventoryText
import NativeGuard.Protocol.CanonicalText

/-!
# Reading an inventory back

Consumers compare the text that `emit_inventory_json` writes byte by byte. A reader
that decodes keys and strings, and takes the other members as they are spelled, gets
the inventory back (`decodeInventory_written`), whichever tree it reads the text as,
so that the texts of two accepted inventories are equal only for equal inventories
(`inventory_encoded`).
-/

namespace NativeGuard.Protocol.Inventory

open Json Json.Scan Data

variable {limits : InventoryLimits}

/-! ## §1  A reader of inventories -/

/-- The values of the members whose key decodes to `key`. -/
def decodedAt (key : Bytes) (v : Value) : List Value :=
  ((membersOf v).filter fun m => decide (decodeString m.key.val = key)).map Member.value

def readString : List Value → Option Bytes
  | [.str t] => some (decodeString t.val)
  | _ => none

/-- The spelling of a member that may be absent. -/
def readSpelling : List Value → Option Bytes
  | [] => some []
  | [v] => some v.render
  | _ => none

def decodeTool (v : Value) : Option ToolInventoryEntry := do
  let name ← readString (decodedAt (ascii "name") v)
  let description ← readSpelling (decodedAt (ascii "description") v)
  let inputSchema ← readSpelling (decodedAt (ascii "inputSchema") v)
  let annotations ← readSpelling (decodedAt (ascii "annotations") v)
  return ⟨name, description, inputSchema, annotations⟩

def decodeTools : List (Element Value) → Option (List ToolInventoryEntry)
  | [] => some []
  | e :: es => do
      let entry ← decodeTool e.value
      let entries ← decodeTools es
      return entry :: entries

def decodeInventory (v : Value) : Option ToolInventory :=
  match decodedAt (ascii "inventory_version") v, decodedAt (ascii "server") v,
      decodedAt (ascii "tools") v with
  | [.num version], [server], [.arr _ es] => do
      let executable ← readString (decodedAt (ascii "downstream_executable") server)
      let tools ← decodeTools es
      if numberValue version.val = ToolInventory.version then
        return ⟨executable, tools⟩ else none
  | _, _, _ => none

def decodedKeys (v : Value) : List Bytes :=
  (membersOf v).map fun m => decodeString m.key.val

/-! ## §2  Reading what is written -/

/-- Where no key has an escape the reader goes by the spelling. -/
theorem decodedAt_unescaped {v : Value} (h : ∀ m ∈ membersOf v, 0x5C ∉ m.key.val)
    (key : Bytes) : decodedAt key v = valuesAt key (membersOf v) := by
  unfold decodedAt
  generalize membersOf v = ms at h ⊢
  induction ms with
  | nil => rfl
  | cons m ms ih =>
      obtain ⟨hm, hms⟩ := List.forall_mem_cons.mp h
      have hdecode := decodeString_of_no_escape hm
      by_cases hkey : m.key.val = key
      · rw [List.filter_cons_of_pos (by simpa using hdecode.trans hkey), List.map_cons, ih hms,
          valuesAt_cons_of_eq hkey]
      · rw [List.filter_cons_of_neg (by simp [hdecode, hkey]), ih hms,
          valuesAt_cons_of_ne hkey]

theorem readSpelling_map {vs : List Value} (honce : vs.length ≤ 1) (f : Value → Value) :
    readSpelling (vs.map f) = some (vs.flatMap fun v => (f v).render) := by
  rcases eq_nil_or_singleton honce with rfl | ⟨v, rfl⟩
  · rfl
  · simp [readSpelling]

/-- A written tool is read as the entry it was written for. -/
theorem decodeTool_written {v : Value} (h : IsTool limits v) :
    decodeTool (writtenTool v) = some (entryOf v) := by
  rcases h with ⟨gap, ms, rfl, hms⟩
  rcases hms.single List.mem_cons_self List.mem_cons_self with ⟨w, hw, hok⟩
  rcases (show IsToolName limits w from hok) with ⟨t, rfl, hescape, -⟩
  have hkeys : ascii "description" ∈ toolKeys ∧ ascii "inputSchema" ∈ toolKeys ∧
      ascii "annotations" ∈ toolKeys := by decide
  have hat : ∀ key, decodedAt key (writtenTool (.obj gap ms)) =
      valuesAt key (writtenMembers ms) := decodedAt_unescaped writtenMembers_unescaped
  obtain ⟨hname, hdescription, hschema, hannotations⟩ := valuesAt_written ms
  have hplain : readString (decodedAt (ascii "name") (writtenTool (.obj gap ms))) =
      some (entryOf (.obj gap ms)).name := by
    rw [hat, hname, hw]
    simp [readString, entryOf, membersOf, hw, plainText, decodeString_of_no_escape hescape]
  have hdescription' := readSpelling_map (hms.once _ hkeys.1) id
  have hschema' := readSpelling_map (hms.once _ hkeys.2.1) Value.canonical
  have hannotations' := readSpelling_map (hms.once _ hkeys.2.2) Value.canonical
  rw [List.map_id] at hdescription'
  unfold decodeTool
  rw [hplain, hat, hat, hat, hdescription, hschema, hannotations, hdescription', hschema',
    hannotations']
  rfl

theorem decodeTools_written {tools : List Value} (h : ∀ v ∈ tools, IsTool limits v) :
    decodeTools ((tools.map writtenTool).map .compact) = some (tools.map entryOf) := by
  induction tools with
  | nil => rfl
  | cons v tools ih =>
      obtain ⟨hv, htools⟩ := List.forall_mem_cons.mp h
      have htool : decodeTool (Element.compact (writtenTool v)).value = some (entryOf v) :=
        decodeTool_written hv
      rw [List.map_cons, List.map_cons, decodeTools, htool, ih htools]
      rfl

/-- The tree that is written for an inventory. -/
def inventoryTree (downstreamExecutable : Bytes) (tools : List Value) : Value :=
  .obj noGap (inventoryMembers downstreamExecutable tools)

theorem decodedKeys_inventoryTree (downstreamExecutable : Bytes) (tools : List Value) :
    decodedKeys (inventoryTree downstreamExecutable tools) =
      [ascii "inventory_version", ascii "server", ascii "tools"] := by
  have hkeys : decodeString (ascii "inventory_version") = ascii "inventory_version" ∧
      decodeString (ascii "server") = ascii "server" ∧
      decodeString (ascii "tools") = ascii "tools" := by decide
  exact congrArg₂ List.cons hkeys.1 (congrArg₂ List.cons hkeys.2.1
    (congrArg₂ List.cons hkeys.2.2 rfl))

theorem decodeInventory_written {tools : List Value} (h : ∀ v ∈ tools, IsTool limits v)
    (downstreamExecutable : Bytes) :
    decodeInventory (inventoryTree downstreamExecutable tools) =
      some ⟨downstreamExecutable, tools.map entryOf⟩ := by
  have hat : ∀ key, decodedAt key (inventoryTree downstreamExecutable tools) =
      valuesAt key (inventoryMembers downstreamExecutable tools) := by
    apply decodedAt_unescaped
    simp only [inventoryTree, membersOf, inventoryMembers, List.forall_mem_cons]
    exact ⟨plainString_unescaped _ (by decide), plainString_unescaped _ (by decide),
      plainString_unescaped _ (by decide), fun _ h => absurd h List.not_mem_nil⟩
  have hversion : valuesAt (ascii "inventory_version")
      (inventoryMembers downstreamExecutable tools) = [.num (numberText 1)] := rfl
  have hserver : valuesAt (ascii "server") (inventoryMembers downstreamExecutable tools) =
      [serverTree downstreamExecutable] := rfl
  have htools : valuesAt (ascii "tools") (inventoryMembers downstreamExecutable tools) =
      [toolsTree tools] := rfl
  have hexecutable : readString (decodedAt (ascii "downstream_executable")
      (serverTree downstreamExecutable)) = some downstreamExecutable := by
    have hescape : ∀ m ∈ membersOf (serverTree downstreamExecutable), 0x5C ∉ m.key.val := by
      rintro m (_ | ⟨_, hm⟩)
      · exact plainString_unescaped (ascii "downstream_executable") (by decide)
      · exact absurd hm List.not_mem_nil
    rw [decodedAt_unescaped hescape]
    exact congrArg some (decodeString_writtenString downstreamExecutable)
  have hone : numberValue (numberText 1).val = ToolInventory.version :=
    numberValue_decimal 1
  unfold decodeInventory
  rw [hat, hat, hat, hversion, hserver, htools]
  simp only [toolsTree, hexecutable, decodeTools_written h]
  exact if_pos hone

/-! ## §3  One tree for a text -/

theorem tidy_writtenTool {v : Value} (h : IsTool limits v) : Tidy (writtenTool v) := by
  rcases h with ⟨gap, ms, rfl, hms⟩
  rcases hms.single List.mem_cons_self List.mem_cons_self with ⟨w, hw, -⟩
  have htidy : ∀ m ∈ writtenMembers ms, Tidy m.value := by
    intro m hm
    rcases mem_writtenMembers hm with ⟨u, hu, rfl⟩ | ⟨u, hu, rfl⟩ | ⟨u, -, rfl⟩ | ⟨u, -, rfl⟩
    · rcases (show IsToolName limits u from forall_mem_valuesAt hms.values _ u hu) with
        ⟨t, rfl, -⟩
      exact .str t
    · rcases (show IsDescription limits u from forall_mem_valuesAt hms.values _ u hu) with
        ⟨t, rfl, -⟩
      exact .str t
    · exact tidy_canonical u
    · exact tidy_canonical u
  cases hwritten : writtenMembers ms with
  | nil =>
      rw [writtenTool, membersOf, hwritten]
      exact .emptyObj noGap
  | cons m rest =>
      rw [writtenTool, membersOf, hwritten]
      exact .obj (hwritten ▸ htidy)

theorem tidy_inventoryTree {tools : List Value} (h : ∀ v ∈ tools, IsTool limits v)
    (downstreamExecutable : Bytes) : Tidy (inventoryTree downstreamExecutable tools) := by
  have htools : Tidy (toolsTree tools) := by
    cases tools with
    | nil => exact .emptyArr noGap
    | cons v tools =>
        refine .arr fun e he => ?_
        rcases List.mem_map.mp (show e ∈ ((v :: tools).map writtenTool).map Element.compact
          from he) with ⟨tool, htool, rfl⟩
        rcases List.mem_map.mp htool with ⟨u, hu, rfl⟩
        exact tidy_writtenTool (h u hu)
  refine .obj ?_
  rintro m (_ | ⟨_, _ | ⟨_, _ | ⟨_, hm⟩⟩⟩)
  · exact .num _
  · exact .obj (List.forall_mem_singleton.mpr (.str _))
  · exact htools
  · exact absurd hm List.not_mem_nil

/-! ## §4  The encoding of an inventory -/

/-- The tree of an accepted inventory, from which the inventory is read back. -/
theorem inventory_tree {message expectedIdJson downstreamExecutable : Bytes}
    {inventory : ToolInventory}
    (h : parseToolsListResponse limits message expectedIdJson downstreamExecutable =
      .ok inventory) :
    ∃ v, Tidy v ∧ inventoryJson inventory = v.render ∧
      decodedKeys v = [ascii "inventory_version", ascii "server", ascii "tools"] ∧
      decodeInventory v = some inventory := by
  rcases parseToolsListResponse_ok.mp h with ⟨-, ms, -, hms, rfl⟩
  rcases inventoryOf_tools hms downstreamExecutable with ⟨tools, hinventory, htools, -⟩
  rw [hinventory]
  exact ⟨inventoryTree downstreamExecutable tools, tidy_inventoryTree htools _,
    inventoryJson_render htools _, decodedKeys_inventoryTree _ _,
    decodeInventory_written htools _⟩

/-- An accepted inventory is written in full whenever its text fits. The text is one
object of three members, every reading of it gives the inventory back, and it is that
of no other accepted inventory. -/
theorem inventory_encoded {message expectedIdJson downstreamExecutable : Bytes}
    {inventory : ToolInventory}
    (h : parseToolsListResponse limits message expectedIdJson downstreamExecutable =
      .ok inventory) :
    (∀ bound, emitInventoryJson inventory bound =
        if (inventoryJson inventory).length ≤ bound then
          some (inventoryJson inventory) else none) ∧
      (∃ v, Tidy v ∧ inventoryJson inventory = v.render) ∧
      (∀ v, Tidy v → inventoryJson inventory = v.render →
        (∃ ms, v = .obj noGap ms) ∧
          decodedKeys v = [ascii "inventory_version", ascii "server", ascii "tools"] ∧
          decodeInventory v = some inventory) ∧
      ∀ limits' message' expectedIdJson' downstreamExecutable' inventory',
        parseToolsListResponse limits' message' expectedIdJson' downstreamExecutable' =
            .ok inventory' →
          (inventoryJson inventory = inventoryJson inventory' ↔ inventory = inventory') := by
  rcases inventory_tree h with ⟨v, htidy, hrender, hkeys, hdecode⟩
  refine ⟨emitInventoryJson_eq inventory, ⟨v, htidy, hrender⟩, ?_, ?_⟩
  · intro w hw hspelled
    obtain rfl : v = w := htidy.render_injective hw (hrender.symm.trans hspelled)
    refine ⟨?_, hkeys, hdecode⟩
    cases htidy with
    | obj _ => exact ⟨_, rfl⟩
    | _ => cases hkeys
  · intro _ _ _ _ inventory' h'
    rcases inventory_tree h' with ⟨w, hw, hrender', -, hdecode'⟩
    constructor
    · intro htexts
      obtain rfl : v = w :=
        htidy.render_injective hw (hrender.symm.trans (htexts.trans hrender'))
      exact Option.some.inj (hdecode.symm.trans hdecode')
    · rintro rfl
      rfl

/-- Members in another order and with other spaces, and an escape in the description. -/
def describedResponse : Bytes :=
  ascii "\x7b\"jsonrpc\":\"2.0\",\"id\":1,\"result\":\x7b\"tools\":[" ++
    ascii "\x7b\"description\": \"\\t\",\"name\":\"a\"\x7d]\x7d\x7d"

def describedInventory : ToolInventory :=
  ⟨ascii "/bin/\"s\"", [⟨ascii "a", ascii "\"\\t\"", [], []⟩]⟩

theorem inventory_encoded_example :
    (∀ bound, emitInventoryJson describedInventory bound =
        if (inventoryJson describedInventory).length ≤ bound then
          some (inventoryJson describedInventory) else none) ∧
      (∃ v, Tidy v ∧ inventoryJson describedInventory = v.render) ∧
      (∀ v, Tidy v → inventoryJson describedInventory = v.render →
        (∃ ms, v = .obj noGap ms) ∧
          decodedKeys v = [ascii "inventory_version", ascii "server", ascii "tools"] ∧
          decodeInventory v = some describedInventory) ∧
      ∀ limits' message' expectedIdJson' downstreamExecutable' inventory',
        parseToolsListResponse limits' message' expectedIdJson' downstreamExecutable' =
            .ok inventory' →
          (inventoryJson describedInventory = inventoryJson inventory' ↔
            describedInventory = inventory') :=
  inventory_encoded
    (show parseToolsListResponse {} describedResponse (ascii "1") (ascii "/bin/\"s\"") =
      .ok describedInventory by decide +kernel)

end NativeGuard.Protocol.Inventory

import NativeGuard.Json.Write
import NativeGuard.Protocol.Collect
import NativeGuard.Protocol.CutText
import NativeGuard.Security.PolicyLoader

/-!
# The policy generator (`src/policy_generator.cpp`)

`generate_policy_from_inventory` and its three loops. The inventory is read as
the loader reads a policy, but the outermost loop is left at the end of the
input as it is at the brace. `accepts_complete_iff` says that this is the only
way in which a text that is no complete inventory is accepted.
-/

namespace NativeGuard.Security

open Json Json.Scan Protocol Data

inductive PolicyGenerateError where
  | inventoryTooLarge
  | excessiveNesting
  | malformedInventoryJson
  | missingInventoryVersion
  | unsupportedInventoryVersion
  | duplicateMember
  | missingServer
  | invalidServer
  | missingTools
  | toolsNotArray
  | missingToolName
  | nonStringToolName
  | escapedToolName
  | emptyToolName
  | oversizedToolName
  | duplicateToolName
  | excessiveToolCount
  | duplicateAllowTool
  | unknownAllowTool
deriving DecidableEq, Repr

structure PolicyGenerateFailure where
  error : PolicyGenerateError
  offendingToolName : Bytes := []
deriving DecidableEq, Repr

structure PolicyGeneratorLimits where
  maxInventoryBytes : Nat := 1024 * 1024
  maxNestingDepth : Nat := 64
  maxTools : Nat := 256
  maxToolNameBytes : Nat := 256

namespace PolicyGenerator

variable (limits : PolicyGeneratorLimits)

/-! ## §1  The parsers -/

def checkKey {σ : Type} (_ : σ) (key : StringToken) : Except PolicyGenerateError Unit :=
  if key.hasEscape then .error .malformedInventoryJson else .ok ()

def toolNameValue : Reader PolicyGenerateError Bytes :=
  .onByte 0x22
    ((Reader.string .malformedInventoryJson).check fun value =>
      if value.hasEscape then .error .escapedToolName
      else if value.contents = [] then .error .emptyToolName
      else if value.contents.length > limits.maxToolNameBytes then
        .error .oversizedToolName
      else .ok value.contents)
    (.fail .nonStringToolName)

structure ToolState where
  sawName : Bool := false
  name : Bytes := []

def ToolState.member (st : ToolState) (key : StringToken) :
    Reader PolicyGenerateError ToolState :=
  if key.contents = ascii "name" then
    .once st.sawName .duplicateMember <|
      (toolNameValue limits).map fun name => { sawName := true, name := name }
  else (skipValue 3 limits.maxNestingDepth .malformedInventoryJson).map fun _ => st

def toolReader : ObjectReader ToolState PolicyGenerateError where
  malformed _ := .malformedInventoryJson
  checkKey := checkKey
  member := ToolState.member limits
  rejectsTrailing := true

def ToolState.finish (st : ToolState) (exit : LoopExit) :
    Except PolicyGenerateError Bytes :=
  if exit = .cut then .error .malformedInventoryJson
  else if st.sawName then .ok st.name
  else .error .missingToolName

def parseToolName : Reader PolicyGenerateError Bytes :=
  (toolReader limits).object .malformedInventoryJson {} ToolState.finish

def toolsReader : ArrayReader (List Bytes) PolicyGenerateError where
  malformed := .malformedInventoryJson
  element names :=
    if names.length ≥ limits.maxTools then .fail .excessiveToolCount
    else (parseToolName limits).check fun name =>
      if name ∈ names then .error .duplicateToolName else .ok (names ++ [name])
  rejectsTrailing := true

def parseToolsArray (names : List Bytes) : Reader PolicyGenerateError (List Bytes) :=
  (toolsReader limits).array .toolsNotArray names

def parseVersion : Reader PolicyGenerateError Unit :=
  (Reader.number .unsupportedInventoryVersion).captured.check fun (_, token) =>
    if token = ascii "1" then .ok () else .error .unsupportedInventoryVersion

def parseServer : Reader PolicyGenerateError Unit :=
  .onByte 0x7B (skipValue 1 limits.maxNestingDepth .malformedInventoryJson)
    (.fail .invalidServer)

/-- The local variables of `parse_inventory_document`. -/
structure InventoryState where
  sawVersion : Bool
  sawServer : Bool
  sawTools : Bool
  toolNames : List Bytes
  unread : sawTools = false → toolNames = []

def InventoryState.init : InventoryState := ⟨false, false, false, [], fun _ => rfl⟩

def InventoryState.sawVersionMember (st : InventoryState) : InventoryState :=
  ⟨true, st.sawServer, st.sawTools, st.toolNames, st.unread⟩

def InventoryState.sawServerMember (st : InventoryState) : InventoryState :=
  ⟨st.sawVersion, true, st.sawTools, st.toolNames, st.unread⟩

def InventoryState.sawToolsMember (st : InventoryState) (names : List Bytes) :
    InventoryState :=
  ⟨st.sawVersion, st.sawServer, true, names, nofun⟩

def InventoryState.member (st : InventoryState) (key : StringToken) :
    Reader PolicyGenerateError InventoryState :=
  if key.contents = ascii "inventory_version" then
    .once st.sawVersion .duplicateMember <| parseVersion.map fun _ => st.sawVersionMember
  else if key.contents = ascii "server" then
    .once st.sawServer .duplicateMember <|
      (parseServer limits).map fun _ => st.sawServerMember
  else if key.contents = ascii "tools" then
    .once st.sawTools .duplicateMember <|
      (parseToolsArray limits st.toolNames).map st.sawToolsMember
  else (skipValue 1 limits.maxNestingDepth .malformedInventoryJson).map fun _ => st

def inventoryReader : ObjectReader InventoryState PolicyGenerateError where
  malformed _ := .malformedInventoryJson
  checkKey := checkKey
  member := InventoryState.member limits
  rejectsTrailing := true

def InventoryState.finish (st : InventoryState) :
    Except PolicyGenerateError (List Bytes) :=
  if ¬ st.sawVersion then .error .missingInventoryVersion
  else if ¬ st.sawServer then .error .missingServer
  else if ¬ st.sawTools then .error .missingTools
  else .ok st.toolNames

/-- The loop is left at the end of the input as it is at the closing brace. -/
def parseInventoryDocument (json : Bytes) : Except PolicyGenerateError (List Bytes) := do
  let (st, _) ← ((inventoryReader limits).loop.document .malformedInventoryJson
    (fun _ _ => .ok ()) (fun _ => .malformedInventoryJson) InventoryState.init json).1
  st.finish

/-! ## §2  `generate_policy_from_inventory` -/

/-- The first name that stands in the list again. -/
def firstDuplicate : List Bytes → Option Bytes
  | [] => none
  | name :: names => if name ∈ names then some name else firstDuplicate names

def allowRule (name : Bytes) : ToolRule := ⟨name, .allow, .allow⟩

def ruleJson (rule : ToolRule) : Bytes :=
  ascii "\x7b\"name\":" ++ (jsonString rule.name ++
    ascii ",\"visibility\":\"allow\",\"invocation\":\"allow\"\x7d")

def policyJson (rules : List ToolRule) : Bytes :=
  ascii "\x7b\"version\":1,\"defaults\":\x7b\"visibility\":\"deny\"," ++
    (ascii "\"invocation\":\"deny\"\x7d,\"tools\":[" ++
      (List.intercalate [0x2C] (rules.map ruleJson) ++ ascii "]\x7d"))

def allowRules (toolNames allowToolNames : List Bytes) :
    Except PolicyGenerateFailure (List ToolRule) :=
  allowToolNames.mapM fun requested =>
    if requested ∈ toolNames then .ok (allowRule requested)
    else .error ⟨.unknownAllowTool, requested⟩

def generatePolicyFromInventory (inventoryJson : Bytes) (allowToolNames : List Bytes) :
    Except PolicyGenerateFailure Bytes :=
  if inventoryJson.length > limits.maxInventoryBytes then .error ⟨.inventoryTooLarge, []⟩
  else if exceedsNesting inventoryJson limits.maxNestingDepth then
    .error ⟨.excessiveNesting, []⟩
  else do
    let toolNames ← (parseInventoryDocument limits inventoryJson).mapError fun e => ⟨e, []⟩
    match firstDuplicate allowToolNames with
    | some name => .error ⟨.duplicateAllowTool, name⟩
    | none =>
        let rules ← allowRules toolNames allowToolNames
        let table ← (PolicyTable.build rules ⟨.deny, .deny⟩).mapError
          fun _ => ⟨.duplicateAllowTool, []⟩
        .ok (policyJson table.rules)

/-! ## §3  What an inventory says -/

open PolicyLoader (IsName fits_of_depth nameAt)

/-- A tool of the inventory: an object with one name within the limit. -/
structure ToolMembers (ms : List (Member Value)) : Prop where
  keys : ∀ m ∈ ms, 0x5C ∉ m.key.val
  name : ∃ v, valuesAt (ascii "name") ms = [v] ∧ IsName v ∧
    (plainText v).length ≤ limits.maxToolNameBytes

def IsTool (v : Value) : Prop := ∃ gap ms, v = .obj gap ms ∧ ToolMembers limits ms

def nameOf (v : Value) : Bytes := nameAt (membersOf v)

/-- The names of a `tools` array, in order. -/
def namesOf (v : Value) : List Bytes := (elementsOf v).map fun e => nameOf e.value

structure IsTools (v : Value) : Prop where
  array : ∃ gap es, v = .arr gap es
  count : (elementsOf v).length ≤ limits.maxTools
  tools : ∀ e ∈ elementsOf v, IsTool limits e.value
  distinct : (namesOf v).Nodup

/-- The grammar of inventories, on the members of the document. -/
structure IsInventory (ms : List (Member Value)) : Prop where
  keys : ∀ m ∈ ms, 0x5C ∉ m.key.val
  version : ∃ t : NumberText, valuesAt (ascii "inventory_version") ms = [.num t] ∧
    t.val = ascii "1"
  server : ∃ gap server, valuesAt (ascii "server") ms = [.obj gap server]
  tools : ∃ v, valuesAt (ascii "tools") ms = [v] ∧ IsTools limits v

/-- The names of the inventory, in order. -/
def inventoryNames (ms : List (Member Value)) : List Bytes :=
  (valuesAt (ascii "tools") ms).flatMap namesOf

/-! ## §4  `parse_tool_name` and `parse_tools_array` -/

/-- The members that a loop at `level` skips are within the limit. -/
def Skips (level maxDepth : Nat) (known : List Bytes) (v : Value) : Prop :=
  ∀ m ∈ membersOf v, m.key.val ∉ known → level + m.value.nesting ≤ maxDepth

variable {limits}

theorem toolNameValue_ok {v : Value} {name : Bytes} :
    (toolNameValue limits).read v = .ok name ↔
      (IsName v ∧ (plainText v).length ≤ limits.maxToolNameBytes) ∧ name = plainText v := by
  unfold toolNameValue
  rw [Reader.shortName_ok]
  constructor
  · rintro ⟨t, rfl, ⟨hescape, hempty, hlong⟩, rfl⟩
    exact ⟨⟨⟨t, rfl, hescape, hempty⟩, hlong⟩, rfl⟩
  · rintro ⟨⟨⟨t, rfl, hescape, hempty⟩, hlong⟩, rfl⟩
    exact ⟨t, rfl, ⟨hescape, hempty, hlong⟩, rfl⟩

def toolKeys : List Bytes := [ascii "name"]

def ToolState.seen (st : ToolState) (key : Bytes) : Bool :=
  if key = ascii "name" then st.sawName else false

def ToolState.update (st : ToolState) (key : Bytes) (v : Value) : ToolState :=
  if key = ascii "name" then { sawName := true, name := plainText v } else st

def toolMemberOk (limits : PolicyGeneratorLimits) (key : Bytes) (v : Value) : Prop :=
  if key = ascii "name" then IsName v ∧ (plainText v).length ≤ limits.maxToolNameBytes
  else 3 + v.nesting ≤ limits.maxNestingDepth

theorem checkKey_ok {σ : Type} (st : σ) (raw : Bytes) :
    checkKey st (tokenOf raw) = .ok () ↔ 0x5C ∉ raw := by
  simp [checkKey, tokenOf]

theorem tool_oncePerKey (limits : PolicyGeneratorLimits) :
    OncePerKey (toolReader limits) toolKeys ToolState.seen (toolMemberOk limits)
      ToolState.update where
  key := checkKey_ok
  member st raw v st' := by
    show (ToolState.member limits st (tokenOf raw)).read v = .ok st' ↔ _
    unfold ToolState.seen toolMemberOk ToolState.update
    by_cases hname : raw = ascii "name"
    · have hm : ToolState.member limits st (tokenOf raw) = _ := if_pos hname
      simp only [hm, if_pos hname]
      exact Reader.once_map_ok fun name => toolNameValue_ok
    · have hm : ToolState.member limits st (tokenOf raw) = _ := if_neg hname
      simp only [hm, if_neg hname, true_and]
      exact skipValue_map_ok
  marks st raw v key := by
    unfold ToolState.update ToolState.seen toolKeys
    grind
  unknown st key h := by
    unfold ToolState.seen
    exact if_neg fun hkey => h (List.mem_singleton.mpr hkey)

theorem tool_init (key : Bytes) : ({} : ToolState).seen key = false := by
  unfold ToolState.seen
  split_ifs <;> rfl

theorem tool_final (ms : List (Member Value)) :
    (updates ToolState.update {} ms).name =
      (valuesAt (ascii "name") ms).foldl (fun _ v => plainText v) [] := by
  refine updates_field ToolState.name (ascii "name") plainText ?_ {} ms
  intro st raw v
  unfold ToolState.update
  split_ifs <;> rfl

theorem ToolState.finish_ok (st : ToolState) (exit : LoopExit) (hexit : exit ≠ .cut)
    (name : Bytes) :
    st.finish exit = .ok name ↔ (∀ key ∈ toolKeys, st.seen key = true) ∧ name = st.name := by
  have hseen : st.seen (ascii "name") = st.sawName := rfl
  unfold ToolState.finish toolKeys
  rw [if_neg hexit, List.forall_mem_singleton, hseen]
  cases st.sawName
  · simp
  · simp [eq_comm]

theorem toolMembers_iff {ms : List (Member Value)} (gap : Gap) :
    OnceMembers toolKeys toolKeys (toolMemberOk limits) ms ↔
      ToolMembers limits ms ∧ Skips 3 limits.maxNestingDepth toolKeys (.obj gap ms) := by
  have hother : (∀ m ∈ ms, m.key.val ∉ toolKeys → toolMemberOk limits m.key.val m.value) ↔
      Skips 3 limits.maxNestingDepth toolKeys (.obj gap ms) :=
    forall₃_congr fun m _ hkey =>
      iff_of_eq (if_neg fun heq => hkey (List.mem_singleton.mpr heq))
  rw [onceMembers_all_iff, hother]
  unfold toolKeys
  rw [List.forall_mem_singleton]
  constructor
  · rintro ⟨hkeys, ⟨v, hv, hok⟩, hskips⟩
    exact ⟨⟨hkeys, v, hv, hok⟩, hskips⟩
  · rintro ⟨⟨hkeys, v, hv, hok⟩, hskips⟩
    exact ⟨hkeys, ⟨v, hv, hok⟩, hskips⟩

/-- `parse_tool_name` reads exactly the tools. -/
theorem parseToolName_ok {v : Value} {name : Bytes} :
    (parseToolName limits).read v = .ok name ↔
      (IsTool limits v ∧ Skips 3 limits.maxNestingDepth toolKeys v) ∧ name = nameOf v := by
  have hnamed : ∀ {gap ms}, ToolMembers limits ms →
      (updates ToolState.update {} ms).name = nameOf (.obj gap ms) := by
    intro gap ms h
    obtain ⟨v, hv, -⟩ := h.name
    rw [tool_final, nameOf, membersOf, nameAt, hv]
    rfl
  unfold parseToolName
  rw [(tool_oncePerKey limits).object_ok tool_init (fun _ hkey => hkey) ToolState.finish_ok]
  constructor
  · rintro ⟨gap, ms, rfl, hms, rfl⟩
    obtain ⟨hmembers, hskips⟩ := (toolMembers_iff gap).mp hms
    exact ⟨⟨⟨gap, ms, rfl, hmembers⟩, hskips⟩, hnamed hmembers⟩
  · rintro ⟨⟨⟨gap, ms, rfl, hmembers⟩, hskips⟩, rfl⟩
    exact ⟨gap, ms, rfl, (toolMembers_iff gap).mpr ⟨hmembers, hskips⟩, (hnamed hmembers).symm⟩

/-- One turn of the loop over the array: the tool is new, and there is room for it. -/
theorem collects_tools (limits : PolicyGeneratorLimits) :
    Collects (fun n => n < limits.maxTools)
      (fun e : Element Value => IsTool limits e.value ∧
        Skips 3 limits.maxNestingDepth toolKeys e.value)
      (fun e => nameOf e.value) id
      fun names e => ((toolsReader limits).element names).read e.value :=
  collects_capped (fun _ _ => parseToolName_ok) fun names name => by simp

def SkipsTools (maxDepth : Nat) (v : Value) : Prop :=
  ∀ e ∈ elementsOf v, Skips 3 maxDepth toolKeys e.value

/-- `parse_tools_array` reads exactly the arrays of distinct tools. -/
theorem parseToolsArray_ok {v : Value} {names : List Bytes} :
    (parseToolsArray limits []).read v = .ok names ↔
      (IsTools limits v ∧ SkipsTools limits.maxNestingDepth v) ∧ names = namesOf v := by
  unfold parseToolsArray
  rw [ArrayReader.array_ok]
  simp only [ArrayReader.elements_eq, (collects_tools limits).foldlM_nil_ok,
    forall_lt_iff_le, List.map_id]
  constructor
  · rintro ⟨gap, es, rfl, hcount, hall, hnodup, rfl⟩
    exact ⟨⟨⟨⟨gap, es, rfl⟩, hcount, fun e he => (hall e he).1, hnodup⟩,
      fun e he => (hall e he).2⟩, rfl⟩
  · rintro ⟨⟨⟨⟨gap, es, rfl⟩, hcount, hall, hnodup⟩, hskips⟩, rfl⟩
    exact ⟨gap, es, rfl, hcount, fun e he => ⟨hall e he, hskips e he⟩, hnodup, rfl⟩

/-! ## §5  `parse_inventory_document` -/

theorem parseVersion_ok {v : Value} {u : Unit} :
    parseVersion.read v = .ok u ↔
      (∃ t : NumberText, v = .num t ∧ t.val = ascii "1") ∧ u = () :=
  Reader.number_token_ok

theorem parseServer_ok {v : Value} {u : Unit} :
    (parseServer limits).read v = .ok u ↔
      ((∃ gap ms, v = .obj gap ms) ∧ 1 + v.nesting ≤ limits.maxNestingDepth) ∧ u = () := by
  unfold parseServer
  simp only [Reader.onByte]
  by_cases hobj : ∃ gap ms, v = .obj gap ms
  · rw [if_pos (head_brace_iff.mpr hobj), skipValue_read]
    unfold accept
    split
    · rename_i hle
      simp [hobj, hle]
    · rename_i hle
      simp [hle]
  · rw [if_neg fun h => hobj (head_brace_iff.mp h)]
    constructor
    · intro h
      cases h
    · rintro ⟨⟨h, -⟩, -⟩
      exact absurd h hobj

def inventoryKeys : List Bytes :=
  [ascii "inventory_version", ascii "server", ascii "tools"]

def InventoryState.seen (st : InventoryState) (key : Bytes) : Bool :=
  if key = ascii "inventory_version" then st.sawVersion
  else if key = ascii "server" then st.sawServer
  else if key = ascii "tools" then st.sawTools
  else false

def InventoryState.update (st : InventoryState) (key : Bytes) (v : Value) :
    InventoryState :=
  if key = ascii "inventory_version" then st.sawVersionMember
  else if key = ascii "server" then st.sawServerMember
  else if key = ascii "tools" then st.sawToolsMember (namesOf v)
  else st

def inventoryMemberOk (limits : PolicyGeneratorLimits) (key : Bytes) (v : Value) : Prop :=
  if key = ascii "inventory_version" then ∃ t : NumberText, v = .num t ∧ t.val = ascii "1"
  else if key = ascii "server" then
    (∃ gap ms, v = .obj gap ms) ∧ 1 + v.nesting ≤ limits.maxNestingDepth
  else if key = ascii "tools" then IsTools limits v ∧ SkipsTools limits.maxNestingDepth v
  else 1 + v.nesting ≤ limits.maxNestingDepth

theorem inventory_oncePerKey (limits : PolicyGeneratorLimits) :
    OncePerKey (inventoryReader limits) inventoryKeys InventoryState.seen
      (inventoryMemberOk limits) InventoryState.update where
  key := checkKey_ok
  member st raw v st' := by
    show (InventoryState.member limits st (tokenOf raw)).read v = .ok st' ↔ _
    unfold InventoryState.seen inventoryMemberOk InventoryState.update
    by_cases hversion : raw = ascii "inventory_version"
    · have hm : InventoryState.member limits st (tokenOf raw) = _ := if_pos hversion
      simp only [hm, if_pos hversion]
      exact Reader.once_map_ok fun u => parseVersion_ok
    by_cases hserver : raw = ascii "server"
    · have hm : InventoryState.member limits st (tokenOf raw) = _ :=
        (if_neg hversion).trans (if_pos hserver)
      simp only [hm, if_neg hversion, if_pos hserver]
      exact Reader.once_map_ok fun u => parseServer_ok
    by_cases htools : raw = ascii "tools"
    · have hm : InventoryState.member limits st (tokenOf raw) = _ :=
        (if_neg hversion).trans ((if_neg hserver).trans (if_pos htools))
      simp only [hm, if_neg hversion, if_neg hserver, if_pos htools]
      -- before the array is read there are no names
      by_cases hsaw : st.sawTools = true
      · simp [Reader.once, hsaw, Reader.fail]
      · rw [st.unread (by simpa using hsaw)]
        exact Reader.once_map_ok fun names => parseToolsArray_ok
    have hm : InventoryState.member limits st (tokenOf raw) = _ :=
      (if_neg hversion).trans ((if_neg hserver).trans (if_neg htools))
    simp only [hm, if_neg hversion, if_neg hserver, if_neg htools, true_and]
    exact skipValue_map_ok
  marks st raw v key := by
    unfold InventoryState.update InventoryState.seen inventoryKeys
    unfold InventoryState.sawVersionMember InventoryState.sawServerMember
      InventoryState.sawToolsMember
    grind
  unknown st key h := by
    unfold InventoryState.seen
    unfold inventoryKeys at h
    grind

theorem inventory_init (key : Bytes) : InventoryState.init.seen key = false := by
  unfold InventoryState.seen
  split_ifs <;> rfl

theorem inventory_final (ms : List (Member Value)) :
    (updates InventoryState.update InventoryState.init ms).toolNames =
      (valuesAt (ascii "tools") ms).foldl (fun _ v => namesOf v) [] := by
  have hversion : ascii "inventory_version" ≠ ascii "tools" := by decide
  have hserver : ascii "server" ≠ ascii "tools" := by decide
  refine updates_field InventoryState.toolNames (ascii "tools") namesOf ?_
    InventoryState.init ms
  intro st raw v
  unfold InventoryState.update
  by_cases h₁ : raw = ascii "inventory_version"
  · rw [if_pos h₁, if_neg (h₁ ▸ hversion)]
    rfl
  by_cases h₂ : raw = ascii "server"
  · rw [if_neg h₁, if_pos h₂, if_neg (h₂ ▸ hserver)]
    rfl
  rw [if_neg h₁, if_neg h₂]
  split_ifs <;> rfl

theorem InventoryState.finish_ok {st : InventoryState} {names : List Bytes} :
    st.finish = .ok names ↔
      (∀ key ∈ inventoryKeys, st.seen key = true) ∧ names = st.toolNames := by
  have hversion : st.seen (ascii "inventory_version") = st.sawVersion := rfl
  have hserver : st.seen (ascii "server") = st.sawServer := rfl
  have htools : st.seen (ascii "tools") = st.sawTools := rfl
  unfold InventoryState.finish inventoryKeys
  rw [List.forall_mem_cons, List.forall_mem_cons, List.forall_mem_singleton, hversion, hserver,
    htools]
  cases st.sawVersion
  · simp
  cases st.sawServer
  · simp
  cases st.sawTools
  · simp
  simp [eq_comm]

/-- The nesting limit leaves every loop room for the members it skips. -/
theorem IsInventory.skips {ms : List (Member Value)} (h : IsInventory limits ms)
    (hdepth : 1 + membersDepth ms ≤ limits.maxNestingDepth) :
    (∀ m ∈ ms, 1 + m.value.nesting ≤ limits.maxNestingDepth) ∧
      ∀ v ∈ valuesAt (ascii "tools") ms, SkipsTools limits.maxNestingDepth v := by
  have hmember : ∀ m ∈ ms, 1 + m.value.depth ≤ limits.maxNestingDepth := by
    intro m hm
    have hle := membersDepth_le.mp (le_refl (membersDepth ms)) m hm
    omega
  constructor
  · intro m hm
    have hle := hmember m hm
    have hnesting := nesting_le_depth m.value
    omega
  · intro v hv e he
    obtain ⟨w, hw, htools⟩ := h.tools
    obtain ⟨m, hm, -, hvalue⟩ := mem_valuesAt.mp hv
    rw [hw, List.mem_singleton] at hv
    rw [hv] at he hvalue
    obtain ⟨gap, es, rfl⟩ := htools.array
    obtain ⟨gap', ms', hobj, -⟩ := htools.tools e he
    have hle := hmember m hm
    have helement := elementsDepth_le.mp (le_refl (elementsDepth es)) e he
    rw [hvalue, Value.depth] at hle
    rw [hobj] at helement ⊢
    exact (fits_of_depth (by omega) toolKeys).2

/-- Where the text is not too deep, the grammar is all that the loop asks for. -/
theorem inventoryMembers_iff {ms : List (Member Value)}
    (hdepth : 1 + membersDepth ms ≤ limits.maxNestingDepth) :
    OnceMembers inventoryKeys inventoryKeys (inventoryMemberOk limits) ms ↔
      IsInventory limits ms := by
  rw [onceMembers_all_iff]
  constructor
  · rintro ⟨hkeys, hknown, -⟩
    unfold inventoryKeys at hknown
    rw [List.forall_mem_cons, List.forall_mem_cons, List.forall_mem_singleton] at hknown
    obtain ⟨⟨v₁, hv₁, t, rfl, ht⟩, ⟨v₂, hv₂, ⟨gap, server, rfl⟩, -⟩, v₃, hv₃, hok, -⟩ := hknown
    exact ⟨hkeys, ⟨t, hv₁, ht⟩, ⟨gap, server, hv₂⟩, v₃, hv₃, hok⟩
  · intro h
    obtain ⟨hskips, hskipsTools⟩ := h.skips hdepth
    obtain ⟨t, ht, hone⟩ := h.version
    obtain ⟨gap, server, hs⟩ := h.server
    obtain ⟨v, hv, hok⟩ := h.tools
    have hserver : 1 + (Value.obj gap server).nesting ≤ limits.maxNestingDepth := by
      obtain ⟨m, hm, -, hvalue⟩ := mem_valuesAt.mp
        (show Value.obj gap server ∈ valuesAt (ascii "server") ms by simp [hs])
      rw [← hvalue]
      exact hskips m hm
    refine ⟨h.keys, ?_, fun m hm hkey => ?_⟩
    · unfold inventoryKeys
      rw [List.forall_mem_cons, List.forall_mem_cons, List.forall_mem_singleton]
      exact ⟨⟨_, ht, t, rfl, hone⟩, ⟨_, hs, ⟨gap, server, rfl⟩, hserver⟩,
        v, hv, hok, hskipsTools v (by simp [hv])⟩
    · unfold inventoryKeys at hkey
      simp only [List.mem_cons, List.not_mem_nil, or_false, not_or] at hkey
      unfold inventoryMemberOk
      rw [if_neg hkey.1, if_neg hkey.2.1, if_neg hkey.2.2]
      exact hskips m hm

/-- The loop and the flags behind it accept exactly the inventories. -/
theorem inventory_members {ms : List (Member Value)} {names : List Bytes}
    (hdepth : 1 + membersDepth ms ≤ limits.maxNestingDepth) :
    ((inventoryReader limits).members InventoryState.init ms >>= InventoryState.finish) =
        .ok names ↔
      IsInventory limits ms ∧ names = inventoryNames ms := by
  have hnames : IsInventory limits ms →
      (updates InventoryState.update InventoryState.init ms).toolNames =
        inventoryNames ms := by
    intro h
    obtain ⟨v, hv, -⟩ := h.tools
    rw [inventory_final, inventoryNames, hv]
    simp
  rw [except_bind_ok]
  simp only [InventoryState.finish_ok]
  rw [(inventory_oncePerKey limits).members_finish_ok inventory_init (fun _ hkey => hkey),
    inventoryMembers_iff hdepth]
  exact and_congr_right fun h => by rw [hnames h]

/-- Under the nesting limit the document is read exactly if it is an inventory,
closed or left behind a comma. -/
theorem parseInventoryDocument_ok {json : Bytes} {names : List Bytes}
    (hnesting : ¬ exceedsNesting json limits.maxNestingDepth = true) :
    parseInventoryDocument limits json = .ok names ↔
      ∃ exit ms tail, DocumentText exit ms tail json ∧ exit ≠ .trailing ∧
        IsInventory limits ms ∧ names = inventoryNames ms := by
  have hdepth : ∀ {exit ms tail}, DocumentText exit ms tail json →
      1 + membersDepth ms ≤ limits.maxNestingDepth := by
    intro exit ms tail hdoc
    rw [exceedsNesting_document hdoc] at hnesting
    simpa using hnesting
  unfold parseInventoryDocument
  rw [except_bind_ok]
  constructor
  · rintro ⟨⟨st, exit⟩, hdocument, hfinish⟩
    obtain ⟨ms, tail, hdoc, hrun, -, hexit⟩ := (ObjectReader.document_ok _).mp hdocument
    obtain ⟨hinventory, hnames⟩ := (inventory_members (hdepth hdoc)).mp
      (except_bind_ok.mpr ⟨st, hrun, hfinish⟩)
    exact ⟨exit, ms, tail, hdoc, hexit, hinventory, hnames⟩
  · rintro ⟨exit, ms, tail, hdoc, hexit, hinventory, hnames⟩
    obtain ⟨st, hrun, hfinish⟩ := except_bind_ok.mp
      ((inventory_members (hdepth hdoc)).mpr ⟨hinventory, hnames⟩)
    exact ⟨(st, exit), (ObjectReader.document_ok _).mpr ⟨ms, tail, hdoc, hrun, rfl, hexit⟩,
      hfinish⟩

/-! ## §6  The allow list -/

theorem firstDuplicate_none {names : List Bytes} :
    firstDuplicate names = none ↔ names.Nodup := by
  induction names with
  | nil => simp [firstDuplicate]
  | cons name names ih =>
      rw [firstDuplicate, List.nodup_cons]
      split
      · rename_i hmem
        simp [hmem]
      · rename_i hmem
        simp [hmem, ih]

theorem allowRules_ok {toolNames allowToolNames : List Bytes} {rules : List ToolRule} :
    allowRules toolNames allowToolNames = .ok rules ↔
      (∀ name ∈ allowToolNames, name ∈ toolNames) ∧ rules = allowToolNames.map allowRule := by
  unfold allowRules
  induction allowToolNames generalizing rules with
  | nil => simp [pure, Except.pure, eq_comm]
  | cons name names ih =>
      rw [List.mapM_cons, except_bind_ok, List.forall_mem_cons]
      constructor
      · rintro ⟨rule, hrule, hrest⟩
        obtain ⟨rest, hrest, hrules⟩ := except_bind_ok.mp hrest
        obtain ⟨hall, rfl⟩ := ih.mp hrest
        split at hrule
        · rename_i hmem
          cases hrule
          cases hrules
          exact ⟨⟨hmem, hall⟩, rfl⟩
        · cases hrule
      · rintro ⟨⟨hmem, hall⟩, rfl⟩
        exact ⟨_, if_pos hmem, except_bind_ok.mpr ⟨_, ih.mpr ⟨hall, rfl⟩, rfl⟩⟩

/-- The allow list of an inventory. -/
structure IsAllowList (ms : List (Member Value)) (allowToolNames : List Bytes) : Prop where
  distinct : allowToolNames.Nodup
  listed : ∀ name ∈ allowToolNames, name ∈ inventoryNames ms

theorem IsInventory.named {ms : List (Member Value)} (h : IsInventory limits ms) :
    ∀ name ∈ inventoryNames ms, ∃ t : StringText, name = t.val ∧ 0x5C ∉ t.val ∧
      t.val ≠ [] ∧ t.val.length ≤ limits.maxToolNameBytes := by
  intro name hname
  obtain ⟨v, hv, htools⟩ := h.tools
  rw [inventoryNames, hv, List.flatMap_singleton] at hname
  obtain ⟨e, he, rfl⟩ := List.mem_map.mp hname
  obtain ⟨gap, ms', hobj, hmembers⟩ := htools.tools e he
  obtain ⟨w, hw, ⟨t, rfl, hescape, hempty⟩, hlength⟩ := hmembers.name
  refine ⟨t, ?_, hescape, hempty, hlength⟩
  rw [nameOf, hobj, membersOf, nameAt, hw]
  rfl

/-- The sorted rules of the allow list. -/
def sortedRules (allowToolNames : List Bytes) : List ToolRule :=
  sortOn ToolRule.name (allowToolNames.map allowRule)

theorem map_allowRule_name (names : List Bytes) :
    (names.map allowRule).map ToolRule.name = names := by
  rw [List.map_map]
  exact List.map_id names

/-- What the generator accepts, and what it writes. -/
theorem generate_ok {inventoryJson : Bytes} {allowToolNames : List Bytes} {text : Bytes} :
    generatePolicyFromInventory limits inventoryJson allowToolNames = .ok text ↔
      inventoryJson.length ≤ limits.maxInventoryBytes ∧
        ∃ exit ms tail, DocumentText exit ms tail inventoryJson ∧ exit ≠ .trailing ∧
          1 + membersDepth ms ≤ limits.maxNestingDepth ∧ IsInventory limits ms ∧
          IsAllowList ms allowToolNames ∧ text = policyJson (sortedRules allowToolNames) := by
  unfold generatePolicyFromInventory
  by_cases hsize : inventoryJson.length > limits.maxInventoryBytes
  · rw [if_pos hsize]
    constructor
    · intro h
      cases h
    · rintro ⟨hle, -⟩
      omega
  rw [if_neg hsize]
  by_cases hnesting : exceedsNesting inventoryJson limits.maxNestingDepth = true
  · rw [if_pos hnesting]
    constructor
    · intro h
      cases h
    · rintro ⟨-, exit, ms, tail, hdoc, -, hdepth, -⟩
      rw [exceedsNesting_document hdoc, decide_eq_true_eq] at hnesting
      omega
  rw [if_neg hnesting, except_bind_ok]
  constructor
  · rintro ⟨toolNames, hnames, h⟩
    obtain ⟨exit, ms, tail, hdoc, hexit, hinventory, rfl⟩ :=
      (parseInventoryDocument_ok hnesting).mp (except_mapError_ok.mp hnames)
    have hdepth : 1 + membersDepth ms ≤ limits.maxNestingDepth := by
      rw [exceedsNesting_document hdoc] at hnesting
      simpa using hnesting
    split at h
    · cases h
    · rename_i hdistinct
      obtain ⟨rules, hrules, h⟩ := except_bind_ok.mp h
      obtain ⟨hlisted, rfl⟩ := allowRules_ok.mp hrules
      obtain ⟨table, htable, h⟩ := except_bind_ok.mp h
      cases h
      obtain ⟨-, -, htableRules, -⟩ :=
        PolicyTable.build_eq_ok (except_mapError_ok.mp htable)
      refine ⟨not_lt.mp hsize, exit, ms, tail, hdoc, hexit, hdepth, hinventory,
        ⟨firstDuplicate_none.mp hdistinct, hlisted⟩, ?_⟩
      rw [htableRules]
      rfl
  · rintro ⟨-, exit, ms, tail, hdoc, hexit, -, hinventory, hallow, rfl⟩
    have hparse := (parseInventoryDocument_ok hnesting).mpr
      ⟨exit, ms, tail, hdoc, hexit, hinventory, rfl⟩
    refine ⟨inventoryNames ms, except_mapError_ok.mpr hparse, ?_⟩
    rw [firstDuplicate_none.mpr hallow.distinct]
    have hnamed : ∀ rule ∈ allowToolNames.map allowRule, rule.name ≠ [] := by
      intro rule hrule
      obtain ⟨name, hname, rfl⟩ := List.mem_map.mp hrule
      obtain ⟨t, rfl, -, hempty, -⟩ := hinventory.named name (hallow.listed name hname)
      exact hempty
    obtain ⟨table, hbuild, htableRules, -⟩ := @PolicyTable.build_ok _ ⟨.deny, .deny⟩ hnamed
      (by rw [map_allowRule_name]; exact hallow.distinct)
    refine except_bind_ok.mpr ⟨_, allowRules_ok.mpr ⟨hallow.listed, rfl⟩, ?_⟩
    refine except_bind_ok.mpr ⟨table, except_mapError_ok.mpr hbuild, ?_⟩
    rw [htableRules]
    rfl

/-- On the text of an object, the names that are read are those of its tree. -/
theorem parseInventoryDocument_text {json : Bytes} {gap : Gap} {ms : List (Member Value)}
    {names : List Bytes} (htext : IsText json (.obj gap ms))
    (hdepth : (Value.obj gap ms).depth ≤ limits.maxNestingDepth) :
    parseInventoryDocument limits json = .ok names ↔
      IsInventory limits ms ∧ names = inventoryNames ms := by
  obtain ⟨tail, hdoc⟩ := documentText_of_isText htext
  unfold parseInventoryDocument
  rw [ObjectReader.document_agrees _ hdoc (exitOf_ne_trailing ms), bind_assoc]
  exact inventory_members hdepth

theorem generate_text {inventoryJson : Bytes} {allowToolNames : List Bytes} {text : Bytes}
    {gap : Gap} {ms : List (Member Value)} (htext : IsText inventoryJson (.obj gap ms)) :
    generatePolicyFromInventory limits inventoryJson allowToolNames = .ok text ↔
      inventoryJson.length ≤ limits.maxInventoryBytes ∧
        (Value.obj gap ms).depth ≤ limits.maxNestingDepth ∧ IsInventory limits ms ∧
        IsAllowList ms allowToolNames ∧ text = policyJson (sortedRules allowToolNames) := by
  rw [generate_ok]
  constructor
  · rintro ⟨hsize, exit, ms', tail, hdoc, hexit, hdepth', hinventory', hallow, rfl⟩
    have hnesting : exceedsNesting inventoryJson limits.maxNestingDepth = false := by
      rw [exceedsNesting_document hdoc]
      simpa using hdepth'
    have hdepth : (Value.obj gap ms).depth ≤ limits.maxNestingDepth := by
      rw [exceedsNesting_text htext] at hnesting
      simpa using hnesting
    -- both trees were read from one text
    have hparse := (parseInventoryDocument_ok (by simp [hnesting])).mpr
      ⟨exit, ms', tail, hdoc, hexit, hinventory', rfl⟩
    obtain ⟨hinventory, hnames⟩ := (parseInventoryDocument_text htext hdepth).mp hparse
    exact ⟨hsize, hdepth, hinventory, ⟨hallow.distinct, hnames ▸ hallow.listed⟩, rfl⟩
  · rintro ⟨hsize, hdepth, hinventory, hallow, rfl⟩
    obtain ⟨tail, hdoc⟩ := documentText_of_isText htext
    exact ⟨hsize, exitOf ms, ms, tail, hdoc, exitOf_ne_trailing ms, hdepth, hinventory,
      hallow, rfl⟩

/-! ## §7  Complete inventories -/

/-- One complete inventory within the limits, with an allow list of its names. -/
def CompleteInventory (limits : PolicyGeneratorLimits) (inventoryJson : Bytes)
    (allowToolNames : List Bytes) : Prop :=
  inventoryJson.length ≤ limits.maxInventoryBytes ∧ ∃ gap ms,
    IsText inventoryJson (.obj gap ms) ∧
      (Value.obj gap ms).depth ≤ limits.maxNestingDepth ∧ IsInventory limits ms ∧
      IsAllowList ms allowToolNames

/-- The generator accepts the complete inventories and no other text. -/
def AcceptsComplete (limits : PolicyGeneratorLimits) (inventoryJson : Bytes)
    (allowToolNames : List Bytes) : Prop :=
  (∃ text, generatePolicyFromInventory limits inventoryJson allowToolNames = .ok text) ↔
    CompleteInventory limits inventoryJson allowToolNames

/-- An inventory with a comma in the place of its closing brace. -/
def DanglingInventory (limits : PolicyGeneratorLimits) (inventoryJson : Bytes)
    (allowToolNames : List Bytes) : Prop :=
  inventoryJson.length ≤ limits.maxInventoryBytes ∧ ∃ ms, DanglingText ms inventoryJson ∧
    1 + membersDepth ms ≤ limits.maxNestingDepth ∧ IsInventory limits ms ∧
    IsAllowList ms allowToolNames

theorem IsInventory.ne_nil {ms : List (Member Value)} (h : IsInventory limits ms) :
    ms ≠ [] := by
  rintro rfl
  obtain ⟨t, ht, -⟩ := h.version
  cases ht

theorem generate_cases {inventoryJson : Bytes} {allowToolNames : List Bytes} :
    (∃ text, generatePolicyFromInventory limits inventoryJson allowToolNames = .ok text) ↔
      DanglingInventory limits inventoryJson allowToolNames ∨
        CompleteInventory limits inventoryJson allowToolNames := by
  simp only [generate_ok]
  constructor
  · rintro ⟨text, hsize, exit, ms, tail, hdoc, hexit, hdepth, hinventory, hallow, -⟩
    rcases (documentText_cases hinventory.ne_nil).mp ⟨exit, tail, hdoc, hexit⟩ with
      hdangling | ⟨gap, htext⟩
    · exact Or.inl ⟨hsize, ms, hdangling, hdepth, hinventory, hallow⟩
    · exact Or.inr ⟨hsize, gap, ms, htext, hdepth, hinventory, hallow⟩
  · rintro (⟨hsize, ms, hdangling, hdepth, hinventory, hallow⟩ |
      ⟨hsize, gap, ms, htext, hdepth, hinventory, hallow⟩)
    · obtain ⟨exit, tail, hdoc, hexit⟩ :=
        (documentText_cases hinventory.ne_nil).mpr (Or.inl hdangling)
      exact ⟨_, hsize, exit, ms, tail, hdoc, hexit, hdepth, hinventory, hallow, rfl⟩
    · obtain ⟨exit, tail, hdoc, hexit⟩ :=
        (documentText_cases hinventory.ne_nil).mpr (Or.inr ⟨gap, htext⟩)
      exact ⟨_, hsize, exit, ms, tail, hdoc, hexit, hdepth, hinventory, hallow, rfl⟩

/-- Only complete inventories are accepted, but for those that break off behind
a comma of their own members. -/
theorem accepts_complete_iff (limits : PolicyGeneratorLimits) (inventoryJson : Bytes)
    (allowToolNames : List Bytes) :
    AcceptsComplete limits inventoryJson allowToolNames ↔
      ¬ DanglingInventory limits inventoryJson allowToolNames := by
  unfold AcceptsComplete
  rw [generate_cases]
  constructor
  · intro haccepts hdangling
    obtain ⟨-, gap, ms, htext, -⟩ := haccepts.mp (Or.inl hdangling)
    obtain ⟨-, ms', hcut, -⟩ := hdangling
    exact hcut.not_isObjectText ⟨gap, ms, htext⟩
  · intro hdangling
    exact ⟨fun h => h.resolve_left hdangling, Or.inr⟩

/-- An inventory of no tools, cut off behind its last comma. -/
def cutInventory : Bytes :=
  ascii "\x7b\"inventory_version\":1,\"server\":\x7b\x7d,\"tools\":[],"

theorem cut_inventory_accepted :
    (∃ text, generatePolicyFromInventory {} cutInventory [] = .ok text) ∧
      ¬ IsObjectText cutInventory ∧ ¬ AcceptsComplete {} cutInventory [] := by
  obtain ⟨hok, hcomma⟩ : (generatePolicyFromInventory {} cutInventory []).isOk = true ∧
      cutInventory = cutInventory.dropLast ++ 0x2C :: noGap.val := by
    decide +kernel
  have haccepted : ∃ text, generatePolicyFromInventory {} cutInventory [] = .ok text := by
    cases hgenerate : generatePolicyFromInventory {} cutInventory [] with
    | ok text => exact ⟨text, rfl⟩
    | error e =>
        rw [hgenerate] at hok
        cases hok
  have hcut : ¬ IsObjectText cutInventory := by
    rw [hcomma]
    exact not_isObjectText_of_comma noGap
  refine ⟨haccepted, hcut, fun haccepts => ?_⟩
  obtain ⟨-, gap, ms, htext, -⟩ := haccepts.mp haccepted
  exact hcut ⟨gap, ms, htext⟩

end PolicyGenerator

end NativeGuard.Security

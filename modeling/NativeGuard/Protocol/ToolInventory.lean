import NativeGuard.Data.Decimal
import NativeGuard.Protocol.Canonicalize

/-!
# The tool inventory (`src/tool_inventory.cpp`)

`parse_tools_list_response`, `validate_initialize_response` and
`emit_inventory_json`, with the three loops that read a result. §3 and §4 say
which results the loops accept and what they make of them.
-/

namespace NativeGuard.Protocol

open Json Json.Scan Data

structure InventoryLimits where
  maxMessageBytes : Nat := 1024 * 1024
  maxNestingDepth : Nat := 64
  maxTools : Nat := 256
  maxToolNameBytes : Nat := 256
  maxToolDescriptionBytes : Nat := 8192
  maxToolSchemaBytes : Nat := 65536

/-- An empty text stands for a member that is absent. -/
@[ext] structure ToolInventoryEntry where
  name : Bytes := []
  descriptionJson : Bytes := []
  inputSchemaJson : Bytes := []
  annotationsJson : Bytes := []
deriving DecidableEq, Repr

structure ToolInventory where
  downstreamExecutable : Bytes
  tools : List ToolInventoryEntry
deriving DecidableEq, Repr

def ToolInventory.version : Nat := 1

namespace Inventory

variable (limits : InventoryLimits)

/-! ## §1  The parsers -/

def checkKey {σ : Type} (_ : σ) (key : StringToken) : Except InventoryError Unit :=
  if key.hasEscape then .error .malformedJson else .ok ()

def nameValue : Reader InventoryError Bytes :=
  .onByte 0x22
    ((Reader.string .malformedJson).check fun value =>
      if value.hasEscape then .error .escapedToolName
      else if value.contents = [] then .error .emptyToolName
      else if value.contents.length > limits.maxToolNameBytes then .error .oversizedToolName
      else .ok value.contents)
    (.fail .nonStringToolName)

/-- The token is kept with its quotes. -/
def descriptionValue : Reader InventoryError Bytes :=
  (Reader.string .malformedJson).captured.check fun (value, json) =>
    if value.contents.length > limits.maxToolDescriptionBytes then
      .error .oversizedDescription
    else .ok json

def schemaValue : Reader InventoryError Bytes :=
  captureCanonicalValue 4 limits.maxNestingDepth limits.maxToolSchemaBytes

/-- The local variables of `parse_tool_object`. -/
structure ToolState where
  sawName : Bool := false
  sawDescription : Bool := false
  sawInputSchema : Bool := false
  sawAnnotations : Bool := false
  entry : ToolInventoryEntry := {}

def ToolState.member (st : ToolState) (key : StringToken) : Reader InventoryError ToolState :=
  if key.contents = ascii "name" then
    .once st.sawName .duplicateMember <| (nameValue limits).map fun name =>
      { st with sawName := true, entry := { st.entry with name := name } }
  else if key.contents = ascii "description" then
    .once st.sawDescription .duplicateMember <| (descriptionValue limits).map fun json =>
      { st with sawDescription := true, entry := { st.entry with descriptionJson := json } }
  else if key.contents = ascii "inputSchema" then
    .once st.sawInputSchema .duplicateMember <| (schemaValue limits).map fun json =>
      { st with sawInputSchema := true, entry := { st.entry with inputSchemaJson := json } }
  else if key.contents = ascii "annotations" then
    .once st.sawAnnotations .duplicateMember <| (schemaValue limits).map fun json =>
      { st with sawAnnotations := true, entry := { st.entry with annotationsJson := json } }
  else (skipValue 4 limits.maxNestingDepth .excessiveNesting).map fun _ => st

def toolReader : ObjectReader ToolState InventoryError where
  malformed _ := .malformedJson
  checkKey := checkKey
  member := ToolState.member limits

def ToolState.finish (st : ToolState) (exit : LoopExit) :
    Except InventoryError ToolInventoryEntry :=
  if exit = .cut then .error .malformedJson
  else if st.sawName then .ok st.entry
  else .error .missingToolName

def parseToolObject : Reader InventoryError ToolInventoryEntry :=
  (toolReader limits).object .malformedJson {} ToolState.finish

def toolsReader : ArrayReader (List ToolInventoryEntry) InventoryError where
  malformed := .malformedJson
  element tools :=
    -- the count is tested before the next tool is read, its name behind it
    if tools.length ≥ limits.maxTools then .fail .excessiveToolCount
    else (parseToolObject limits).check fun entry =>
      if entry.name ∈ tools.map ToolInventoryEntry.name then .error .duplicateToolName
      else .ok (tools ++ [entry])

/-- `tools` is empty when the array is reached, since a second one is refused. -/
def parseToolsArray : Reader InventoryError (List ToolInventoryEntry) :=
  (toolsReader limits).array .toolsNotArray []

structure ResultState where
  sawTools : Bool := false
  tools : List ToolInventoryEntry := []

def ResultState.member (st : ResultState) (key : StringToken) :
    Reader InventoryError ResultState :=
  if key.contents = ascii "tools" then
    .once st.sawTools .duplicateMember <| (parseToolsArray limits).map fun tools =>
      { sawTools := true, tools := tools }
  else (skipValue 2 limits.maxNestingDepth .excessiveNesting).map fun _ => st

def resultReader : ObjectReader ResultState InventoryError where
  malformed _ := .malformedJson
  checkKey := checkKey
  member := ResultState.member limits

def ResultState.finish (st : ResultState) (exit : LoopExit) :
    Except InventoryError (List ToolInventoryEntry) :=
  if exit = .cut then .error .malformedJson
  else if st.sawTools then .ok st.tools
  else .error .missingTools

def parseResultObject : Reader InventoryError (List ToolInventoryEntry) :=
  (resultReader limits).object .malformedJson {} ResultState.finish

/-- The local variables of the two envelope loops; `result` is what the loop keeps
of the member `result`. -/
structure ResponseState (ρ : Type) where
  sawJsonrpc : Bool := false
  sawId : Bool := false
  sawMethod : Bool := false
  sawResult : Bool := false
  sawError : Bool := false
  idJson : Bytes := []
  result : Option ρ := none

def versionValue : Reader InventoryError Unit :=
  (Reader.string .unsupportedJsonrpcVersion).check fun version =>
    if version.hasEscape ∨ version.contents ≠ ascii "2.0" then
      .error .unsupportedJsonrpcVersion
    else .ok ()

def idValue : Reader InventoryError (Unit × Bytes) :=
  Reader.captured <| .onByte 0x22 ((Reader.string .malformedJson).map fun _ => ()) <|
    .tryLiteral .null () <| .number .invalidEnvelope

section response

variable {ρ : Type} (method : Reader InventoryError Unit) (result : Reader InventoryError ρ)

/-- The loops of `classify_response_shape` and `parse_tools_list_response` differ in
what they accept for a method and in how they read a result. -/
def ResponseState.member (st : ResponseState ρ) (key : StringToken) :
    Reader InventoryError (ResponseState ρ) :=
  if key.contents = ascii "jsonrpc" then
    .once st.sawJsonrpc .duplicateMember <| versionValue.map fun _ =>
      { st with sawJsonrpc := true }
  else if key.contents = ascii "id" then
    .once st.sawId .duplicateMember <| idValue.map fun (_, json) =>
      { st with sawId := true, idJson := json }
  else if key.contents = ascii "method" then
    .once st.sawMethod .duplicateMember <| method.map fun _ => { st with sawMethod := true }
  else if key.contents = ascii "result" then
    .once st.sawResult .duplicateMember <| result.map fun kept =>
      { st with sawResult := true, result := some kept }
  else if key.contents = ascii "error" then
    .once st.sawError .duplicateMember <|
      (skipValue 1 limits.maxNestingDepth .excessiveNesting).map fun _ =>
        { st with sawError := true }
  else (skipValue 1 limits.maxNestingDepth .excessiveNesting).map fun _ => st

def responseReader : ObjectReader (ResponseState ρ) InventoryError where
  malformed _ := .malformedJson
  checkKey := checkKey
  member := ResponseState.member limits method result

/-- The checks behind the loop. -/
def ResponseState.finish (expectedIdJson : Bytes) (st : ResponseState ρ) :
    Except InventoryError Unit :=
  if ¬ st.sawJsonrpc ∨ st.sawMethod ∨ ¬ st.sawId ∨ st.sawResult = st.sawError then
    .error .invalidEnvelope
  else if st.idJson ≠ expectedIdJson then .error .wrongResponseId
  else if st.sawError then .error .errorResult
  -- tested, though exactly one of the two has been seen
  else if ¬ st.sawResult then .error .missingResult
  else .ok ()

/-- A response up to its result. Both loops are left at the end of the input as
they are at the closing brace; `leave` looks at the braces of an empty object. -/
def parseResponse (leave : LoopExit → Except InventoryError Unit) (expectedIdJson message : Bytes) :
    Except InventoryError (Option ρ) := do
  let (st, _) ← ((responseReader limits method result).loop.document .malformedJson
    (fun _ => leave) (fun _ => .malformedJson) {} message).1
  st.finish expectedIdJson
  .ok st.result

end response

def plainMethod : Reader InventoryError Unit :=
  (Reader.string .invalidEnvelope).check fun value =>
    if value.hasEscape ∨ value.contents = [] then .error .invalidEnvelope else .ok ()

def validateInitializeResponse (message expectedIdJson : Bytes) :
    Except InventoryError Unit :=
  if message.length > limits.maxMessageBytes then .error .messageTooLarge
  else do
    let _ ← parseResponse limits plainMethod
      (skipValue 1 limits.maxNestingDepth .excessiveNesting) (fun _ => .ok ())
      expectedIdJson message
    .ok ()

/-- An empty object is rejected before the bytes behind it are looked at. -/
def parseToolsListResponse (message expectedIdJson downstreamExecutable : Bytes) :
    Except InventoryError ToolInventory :=
  if message.length > limits.maxMessageBytes then .error .messageTooLarge
  else do
    let tools ← parseResponse limits ((Reader.string .malformedJson).map fun _ => ())
      (parseResultObject limits)
      (fun exit => if exit = .empty then .error .invalidEnvelope else .ok ())
      expectedIdJson message
    .ok ⟨downstreamExecutable, sortOn ToolInventoryEntry.name (tools.getD [])⟩

/-! ## §2  `emit_inventory_json` -/

/-- A member that is written if its text is not empty. -/
def appendOptional (limit : Nat) (head json : Bytes) : Bytes → Option Bytes :=
  appendIf (json ≠ []) fun output => append limit head output >>= append limit json

def appendTool (limit : Nat) (tool : ToolInventoryEntry) (output : Bytes) : Option Bytes :=
  append limit (ascii "\x7b\"name\":") output >>= fun output =>
    appendJsonString limit tool.name output >>= fun output =>
      appendOptional limit (ascii ",\"description\":") tool.descriptionJson output >>=
        fun output =>
          appendOptional limit (ascii ",\"inputSchema\":") tool.inputSchemaJson output >>=
            fun output =>
              appendOptional limit (ascii ",\"annotations\":") tool.annotationsJson output >>=
                append limit (ascii "\x7d")

def emitInventoryJson (inventory : ToolInventory) (maxOutputBytes : Nat) : Option Bytes :=
  append maxOutputBytes (ascii "\x7b\"inventory_version\":") [] >>= fun output =>
    append maxOutputBytes (toChars ToolInventory.version) output >>= fun output =>
      append maxOutputBytes (ascii ",\"server\":\x7b\"downstream_executable\":") output >>=
        fun output =>
          appendJsonString maxOutputBytes inventory.downstreamExecutable output >>=
            fun output =>
              append maxOutputBytes (ascii "\x7d,\"tools\":[") output >>= fun output =>
                appendList maxOutputBytes (appendTool maxOutputBytes) inventory.tools output >>=
                  append maxOutputBytes (ascii "]\x7d")

/-! ## §3  Tools -/

section tools

variable {limits}

def IsToolName (limits : InventoryLimits) (v : Value) : Prop :=
  ∃ t : StringText, v = .str t ∧ 0x5C ∉ t.val ∧ t.val ≠ [] ∧
    t.val.length ≤ limits.maxToolNameBytes

def IsDescription (limits : InventoryLimits) (v : Value) : Prop :=
  ∃ t : StringText, v = .str t ∧ t.val.length ≤ limits.maxToolDescriptionBytes

/-- A value of which the canonical text is kept. -/
def IsSchema (limits : InventoryLimits) (v : Value) : Prop :=
  4 + v.nesting ≤ limits.maxNestingDepth ∧ DistinctKeys v ∧
    v.canonical.render.length ≤ limits.maxToolSchemaBytes

theorem checkKey_ok {σ : Type} (st : σ) (raw : Bytes) :
    checkKey st (tokenOf raw) = .ok () ↔ 0x5C ∉ raw := by
  simp [checkKey, tokenOf]

theorem nameValue_ok {v : Value} {name : Bytes} :
    (nameValue limits).read v = .ok name ↔ IsToolName limits v ∧ name = plainText v := by
  unfold nameValue
  rw [Reader.shortName_ok]
  constructor
  · rintro ⟨t, rfl, hname, rfl⟩
    exact ⟨⟨t, rfl, hname⟩, rfl⟩
  · rintro ⟨⟨t, rfl, hname⟩, rfl⟩
    exact ⟨t, rfl, hname, rfl⟩

theorem descriptionValue_ok {v : Value} {json : Bytes} :
    (descriptionValue limits).read v = .ok json ↔ IsDescription limits v ∧ json = v.render := by
  have hread : (descriptionValue limits).read v =
      (((Reader.string .malformedJson).read v).map fun value => (value, v.render)) >>=
        fun a => if a.1.contents.length > limits.maxToolDescriptionBytes then
          .error .oversizedDescription else .ok a.2 := rfl
  rw [hread, except_bind_ok]
  constructor
  · rintro ⟨⟨value, text⟩, hvalue, h⟩
    rcases v with t | t | w | ⟨gap, ms⟩ | ⟨gap, es⟩
    · cases hvalue
      split at h
      · cases h
      · rename_i hlong
        cases h
        exact ⟨⟨t, rfl, not_lt.mp hlong⟩, rfl⟩
    all_goals cases hvalue
  · rintro ⟨⟨t, rfl, hlong⟩, rfl⟩
    exact ⟨_, rfl, if_neg (not_lt.mpr hlong)⟩

theorem schemaValue_ok {v : Value} {json : Bytes} :
    (schemaValue limits).read v = .ok json ↔
      IsSchema limits v ∧ json = v.canonical.render :=
  captureCanonicalValue_ok

def toolKeys : List Bytes :=
  [ascii "name", ascii "description", ascii "inputSchema", ascii "annotations"]

def ToolState.seen (st : ToolState) (key : Bytes) : Bool :=
  if key = ascii "name" then st.sawName
  else if key = ascii "description" then st.sawDescription
  else if key = ascii "inputSchema" then st.sawInputSchema
  else if key = ascii "annotations" then st.sawAnnotations
  else false

def ToolState.update (st : ToolState) (key : Bytes) (v : Value) : ToolState :=
  if key = ascii "name" then
    { st with sawName := true, entry := { st.entry with name := plainText v } }
  else if key = ascii "description" then
    { st with sawDescription := true, entry := { st.entry with descriptionJson := v.render } }
  else if key = ascii "inputSchema" then
    { st with sawInputSchema := true,
              entry := { st.entry with inputSchemaJson := v.canonical.render } }
  else if key = ascii "annotations" then
    { st with sawAnnotations := true,
              entry := { st.entry with annotationsJson := v.canonical.render } }
  else st

def toolMemberOk (limits : InventoryLimits) (key : Bytes) (v : Value) : Prop :=
  if key = ascii "name" then IsToolName limits v
  else if key = ascii "description" then IsDescription limits v
  else if key = ascii "inputSchema" then IsSchema limits v
  else if key = ascii "annotations" then IsSchema limits v
  else 4 + v.nesting ≤ limits.maxNestingDepth

theorem tool_oncePerKey (limits : InventoryLimits) :
    OncePerKey (toolReader limits) toolKeys ToolState.seen (toolMemberOk limits)
      ToolState.update where
  key := checkKey_ok
  member st raw v st' := by
    show (ToolState.member limits st (tokenOf raw)).read v = .ok st' ↔ _
    unfold ToolState.member ToolState.seen toolMemberOk ToolState.update
    rw [tokenOf_contents]
    by_cases hname : raw = ascii "name"
    · simp only [if_pos hname]
      exact Reader.once_map_ok fun _ => nameValue_ok
    by_cases hdescription : raw = ascii "description"
    · simp only [if_neg hname, if_pos hdescription]
      exact Reader.once_map_ok fun _ => descriptionValue_ok
    by_cases hschema : raw = ascii "inputSchema"
    · simp only [if_neg hname, if_neg hdescription, if_pos hschema]
      exact Reader.once_map_ok fun _ => schemaValue_ok
    by_cases hannotations : raw = ascii "annotations"
    · simp only [if_neg hname, if_neg hdescription, if_neg hschema, if_pos hannotations]
      exact Reader.once_map_ok fun _ => schemaValue_ok
    simp only [if_neg hname, if_neg hdescription, if_neg hschema, if_neg hannotations, true_and]
    exact skipValue_map_ok
  marks st raw v key := by
    unfold ToolState.update ToolState.seen toolKeys
    grind
  unknown st key h := by
    unfold ToolState.seen
    unfold toolKeys at h
    grind

theorem tool_init (key : Bytes) : ({} : ToolState).seen key = false := by
  unfold ToolState.seen
  split_ifs <;> rfl

/-- A tool object of the response. -/
def IsTool (limits : InventoryLimits) (v : Value) : Prop :=
  ∃ gap ms, v = .obj gap ms ∧ OnceMembers toolKeys [ascii "name"] (toolMemberOk limits) ms

/-- What the inventory keeps of a tool: the name, the description as spelled, and the
canonical texts of schema and annotations. -/
def entryOf (v : Value) : ToolInventoryEntry where
  name := (valuesAt (ascii "name") (membersOf v)).flatMap plainText
  descriptionJson := (valuesAt (ascii "description") (membersOf v)).flatMap Value.render
  inputSchemaJson := (valuesAt (ascii "inputSchema") (membersOf v)).flatMap
    fun v => v.canonical.render
  annotationsJson := (valuesAt (ascii "annotations") (membersOf v)).flatMap
    fun v => v.canonical.render

/-- A field that the one member of its key sets, if it is there. -/
theorem foldl_eq_flatMap {vs : List Value} (h : vs.length ≤ 1) (f : Value → Bytes) :
    vs.foldl (fun _ v => f v) [] = vs.flatMap f := by
  rcases eq_nil_or_singleton h with rfl | ⟨v, rfl⟩
  · rfl
  · simp

theorem tool_final {ms : List (Member Value)}
    (honce : ∀ key ∈ toolKeys, (valuesAt key ms).length ≤ 1) (gap : Gap) :
    (updates ToolState.update {} ms).entry = entryOf (.obj gap ms) := by
  have hfield : ∀ (field : ToolInventoryEntry → Bytes) (key : Bytes) (set : Value → Bytes),
      key ∈ toolKeys → field {} = [] →
      (∀ (st : ToolState) raw v, field (st.update raw v).entry =
        if raw = key then set v else field st.entry) →
      field (updates ToolState.update {} ms).entry = (valuesAt key ms).flatMap set := by
    intro field key set hkey hinit h
    have hrun := updates_field (fun st : ToolState => field st.entry) key set h {} ms
    rw [hrun, ← foldl_eq_flatMap (honce key hkey)]
    exact congrArg (fun start => List.foldl _ start (valuesAt key ms)) hinit
  have hkeys : ascii "name" ∈ toolKeys ∧ ascii "description" ∈ toolKeys ∧
      ascii "inputSchema" ∈ toolKeys ∧ ascii "annotations" ∈ toolKeys := by decide
  have hdistinct : toolKeys.Nodup := by decide
  have hname := hfield ToolInventoryEntry.name (ascii "name") plainText hkeys.1 rfl
    fun st raw v => by
      unfold ToolState.update
      unfold toolKeys at hdistinct
      grind
  have hdescription := hfield ToolInventoryEntry.descriptionJson (ascii "description")
    Value.render hkeys.2.1 rfl fun st raw v => by
      unfold ToolState.update
      unfold toolKeys at hdistinct
      grind
  have hschema := hfield ToolInventoryEntry.inputSchemaJson (ascii "inputSchema")
    (fun v => v.canonical.render) hkeys.2.2.1 rfl fun st raw v => by
      unfold ToolState.update
      unfold toolKeys at hdistinct
      grind
  have hannotations := hfield ToolInventoryEntry.annotationsJson (ascii "annotations")
    (fun v => v.canonical.render) hkeys.2.2.2 rfl fun st raw v => by
      unfold ToolState.update
      unfold toolKeys at hdistinct
      grind
  exact ToolInventoryEntry.ext hname hdescription hschema hannotations

theorem ToolState.finish_ok (st : ToolState) (exit : LoopExit) (hexit : exit ≠ .cut)
    (entry : ToolInventoryEntry) : st.finish exit = .ok entry ↔
      (∀ key ∈ [ascii "name"], st.seen key = true) ∧ entry = st.entry := by
  have hseen : st.seen (ascii "name") = st.sawName := rfl
  unfold ToolState.finish
  rw [if_neg hexit, List.forall_mem_singleton, hseen]
  cases st.sawName
  · simp
  · simp [eq_comm]

/-- `parse_tool_object` reads exactly the tools. -/
theorem parseToolObject_ok {v : Value} {entry : ToolInventoryEntry} :
    (parseToolObject limits).read v = .ok entry ↔ IsTool limits v ∧ entry = entryOf v := by
  unfold parseToolObject
  rw [(tool_oncePerKey limits).object_ok tool_init (by decide) ToolState.finish_ok]
  constructor
  · rintro ⟨gap, ms, rfl, hms, rfl⟩
    exact ⟨⟨gap, ms, rfl, hms⟩, tool_final hms.once gap⟩
  · rintro ⟨⟨gap, ms, rfl, hms⟩, rfl⟩
    exact ⟨gap, ms, rfl, hms, (tool_final hms.once gap).symm⟩

end tools

/-! ## §4  Results -/

section results

variable {limits}

def entriesOf (v : Value) : List ToolInventoryEntry :=
  (elementsOf v).map fun e => entryOf e.value

/-- A `tools` array: tools with names of their own, and not too many. -/
structure IsTools (limits : InventoryLimits) (v : Value) : Prop where
  array : ∃ gap es, v = .arr gap es
  count : (elementsOf v).length ≤ limits.maxTools
  tools : ∀ e ∈ elementsOf v, IsTool limits e.value
  distinct : ((entriesOf v).map ToolInventoryEntry.name).Nodup

theorem collects_tools (limits : InventoryLimits) :
    Collects (fun n => n < limits.maxTools) (fun e : Element Value => IsTool limits e.value)
      (fun e => entryOf e.value) ToolInventoryEntry.name
      fun tools e => ((toolsReader limits).element tools).read e.value :=
  collects_capped (fun _ _ => parseToolObject_ok) fun _ _ => Iff.rfl

/-- `parse_tools_array` reads exactly the arrays of distinct tools. -/
theorem parseToolsArray_ok {v : Value} {tools : List ToolInventoryEntry} :
    (parseToolsArray limits).read v = .ok tools ↔ IsTools limits v ∧ tools = entriesOf v := by
  unfold parseToolsArray
  rw [ArrayReader.array_ok]
  simp only [ArrayReader.elements_eq, (collects_tools limits).foldlM_nil_ok, forall_lt_iff_le]
  constructor
  · rintro ⟨gap, es, rfl, hcount, hall, hdistinct, rfl⟩
    exact ⟨⟨⟨gap, es, rfl⟩, hcount, hall, hdistinct⟩, rfl⟩
  · rintro ⟨⟨⟨gap, es, rfl⟩, hcount, hall, hdistinct⟩, rfl⟩
    exact ⟨gap, es, rfl, hcount, hall, hdistinct, rfl⟩

def resultKeys : List Bytes := [ascii "tools"]

def ResultState.seen (st : ResultState) (key : Bytes) : Bool :=
  if key = ascii "tools" then st.sawTools else false

def ResultState.update (st : ResultState) (key : Bytes) (v : Value) : ResultState :=
  if key = ascii "tools" then { sawTools := true, tools := entriesOf v } else st

def resultMemberOk (limits : InventoryLimits) (key : Bytes) (v : Value) : Prop :=
  if key = ascii "tools" then IsTools limits v
  else 2 + v.nesting ≤ limits.maxNestingDepth

theorem result_oncePerKey (limits : InventoryLimits) :
    OncePerKey (resultReader limits) resultKeys ResultState.seen (resultMemberOk limits)
      ResultState.update where
  key := checkKey_ok
  member st raw v st' := by
    show (ResultState.member limits st (tokenOf raw)).read v = .ok st' ↔ _
    unfold ResultState.member ResultState.seen resultMemberOk ResultState.update
    rw [tokenOf_contents]
    by_cases htools : raw = ascii "tools"
    · simp only [if_pos htools]
      exact Reader.once_map_ok fun _ => parseToolsArray_ok
    · simp only [if_neg htools, true_and]
      exact skipValue_map_ok
  marks st raw v key := by
    unfold ResultState.update ResultState.seen resultKeys
    grind
  unknown st key h := by
    unfold ResultState.seen
    exact if_neg fun hkey => h (List.mem_singleton.mpr hkey)

theorem result_init (key : Bytes) : ({} : ResultState).seen key = false := by
  unfold ResultState.seen
  split_ifs <;> rfl

/-- A result that lists tools. -/
def IsResult (limits : InventoryLimits) (v : Value) : Prop :=
  ∃ gap ms, v = .obj gap ms ∧
    OnceMembers resultKeys [ascii "tools"] (resultMemberOk limits) ms

/-- The tools of a result, in its order. -/
def toolsOf (v : Value) : List ToolInventoryEntry :=
  (valuesAt (ascii "tools") (membersOf v)).flatMap entriesOf

theorem result_final {gap : Gap} {ms : List (Member Value)}
    (h : OnceMembers resultKeys [ascii "tools"] (resultMemberOk limits) ms) :
    (updates ResultState.update {} ms).tools = toolsOf (.obj gap ms) := by
  rcases h.single List.mem_cons_self List.mem_cons_self with ⟨v, hv, -⟩
  have hset : ∀ (st : ResultState) raw v, (st.update raw v).tools =
      if raw = ascii "tools" then entriesOf v else st.tools := by
    intro st raw v
    unfold ResultState.update
    split_ifs <;> rfl
  have hrun := updates_field ResultState.tools (ascii "tools") entriesOf hset {} ms
  rw [hrun, toolsOf, membersOf, hv]
  simp

theorem ResultState.finish_ok (st : ResultState) (exit : LoopExit) (hexit : exit ≠ .cut)
    (tools : List ToolInventoryEntry) : st.finish exit = .ok tools ↔
      (∀ key ∈ [ascii "tools"], st.seen key = true) ∧ tools = st.tools := by
  have hseen : st.seen (ascii "tools") = st.sawTools := rfl
  unfold ResultState.finish
  rw [if_neg hexit, List.forall_mem_singleton, hseen]
  cases st.sawTools
  · simp
  · simp [eq_comm]

/-- `parse_result_object` reads exactly the results that list tools. -/
theorem parseResultObject_ok {v : Value} {tools : List ToolInventoryEntry} :
    (parseResultObject limits).read v = .ok tools ↔ IsResult limits v ∧ tools = toolsOf v := by
  unfold parseResultObject
  rw [(result_oncePerKey limits).object_ok result_init (by decide) ResultState.finish_ok]
  constructor
  · rintro ⟨gap, ms, rfl, hms, rfl⟩
    exact ⟨⟨gap, ms, rfl, hms⟩, result_final hms⟩
  · rintro ⟨⟨gap, ms, rfl, hms⟩, rfl⟩
    exact ⟨gap, ms, rfl, hms, (result_final hms).symm⟩

end results

end Inventory

end NativeGuard.Protocol

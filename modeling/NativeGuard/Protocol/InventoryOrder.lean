import NativeGuard.Protocol.InventoryResponse

/-!
# The order of a response

Two responses that differ in the order of the tools, in the order of the members of
any object and in whitespace are accepted together, and their inventories are the
same (`inventory_deterministic`). The relation is taken down the levels of a
response: message, result, tools, tool.
-/

namespace NativeGuard.Protocol.Inventory

open Json Json.Scan Data

variable {limits : InventoryLimits}

/-! ## §1  Reordered responses -/

/-- The same array with its elements in another order, or else the same value. -/
def ToolsReordered (v w : Value) : Prop :=
  Reordered v w ∨ ∃ gap es gap' es', v = .arr gap es ∧ w = .arr gap' es' ∧
    Rearranged (fun e e' => Reordered e.value e'.value) es es'

/-- At a key that is spelled `name`, or with an escape, the values are related by `S`,
at any other they are the same up to the order of members. -/
def AtKey (name : Bytes) (S : Value → Value → Prop) (key : Bytes) (v w : Value) : Prop :=
  Reordered v w ∨ ((key = name ∨ 0x5C ∈ key) ∧ S v w)

/-- Objects with their members in another order, where `S` relates what stands at
`name`, or else the same value. -/
def ObjectReordered (name : Bytes) (S : Value → Value → Prop) (v w : Value) : Prop :=
  Reordered v w ∨ ∃ gap ms gap' ms', v = .obj gap ms ∧ w = .obj gap' ms' ∧
    MembersReordered (AtKey name S) ms ms'

/-- Responses that differ in the order of members, in the order of the array at
`result.tools`, and in whitespace. -/
def ResponseReordered : Value → Value → Prop :=
  ObjectReordered (ascii "result") (ObjectReordered (ascii "tools") ToolsReordered)

/-! ## §2  What one level sees -/

theorem Reordered.obj_iff {v w : Value} (h : Reordered v w) :
    (∃ gap ms, v = .obj gap ms) ↔ ∃ gap ms, w = .obj gap ms := by
  cases h <;> simp

theorem Reordered.str_iff {v w : Value} (h : Reordered v w) (t : StringText) :
    v = .str t ↔ w = .str t := by
  cases h <;> simp

theorem ObjectReordered.obj_iff {name : Bytes} {S : Value → Value → Prop} {v w : Value}
    (h : ObjectReordered name S v w) :
    (∃ gap ms, v = .obj gap ms) ↔ ∃ gap ms, w = .obj gap ms := by
  rcases h with h | ⟨gap, ms, gap', ms', rfl, rfl, -⟩
  · exact Reordered.obj_iff h
  · exact ⟨fun _ => ⟨gap', ms', rfl⟩, fun _ => ⟨gap, ms, rfl⟩⟩

theorem ObjectReordered.members {name : Bytes} {S : Value → Value → Prop}
    {gap gap' : Gap} {ms ms' : List (Member Value)}
    (h : ObjectReordered name S (.obj gap ms) (.obj gap' ms')) :
    MembersReordered (AtKey name S) ms ms' := by
  rcases h with h | ⟨g, ns, g', ns', hv, hw, h⟩
  · exact (reordered_obj.mp h).mono fun _ _ hm => ⟨hm.1, Or.inl hm.2⟩
  · cases hv
    cases hw
    exact h

/-- A predicate of objects that sees their members up to order. -/
theorem ObjectReordered.exists_iff {name : Bytes} {S : Value → Value → Prop}
    {P : List (Member Value) → Prop} {v w : Value} (h : ObjectReordered name S v w)
    (hP : ∀ ms ms', MembersReordered (AtKey name S) ms ms' → (P ms ↔ P ms')) :
    (∃ gap ms, v = .obj gap ms ∧ P ms) ↔ ∃ gap ms, w = .obj gap ms ∧ P ms := by
  constructor
  · rintro ⟨gap, ms, rfl, hms⟩
    rcases h.obj_iff.mp ⟨gap, ms, rfl⟩ with ⟨gap', ms', rfl⟩
    exact ⟨gap', ms', rfl, (hP _ _ h.members).mp hms⟩
  · rintro ⟨gap', ms', rfl, hms⟩
    rcases h.obj_iff.mpr ⟨gap', ms', rfl⟩ with ⟨gap, ms, rfl⟩
    exact ⟨gap, ms, rfl, (hP _ _ h.members).mpr hms⟩

/-- The members of a loop are accepted in every order, if the values are. -/
theorem onceMembers_iff {R : Bytes → Value → Value → Prop} {known required : List Bytes}
    {ok : Bytes → Value → Prop} {ms ms' : List (Member Value)}
    (h : MembersReordered R ms ms')
    (hok : ∀ key v w, 0x5C ∉ key → R key v w → (ok key v ↔ ok key w)) :
    OnceMembers known required ok ms ↔ OnceMembers known required ok ms' := by
  have hmembers : (∀ m ∈ ms, 0x5C ∉ m.key.val ∧ ok m.key.val m.value) ↔
      ∀ m ∈ ms', 0x5C ∉ m.key.val ∧ ok m.key.val m.value := by
    refine @MembersReordered.forall_mem R ms ms' h (fun key v => 0x5C ∉ key ∧ ok key v) ?_
    exact fun key v w hR => and_congr_right fun hkey => hok key v w hkey hR
  have honce : (∀ key ∈ known, (valuesAt key ms).length ≤ 1) ↔
      ∀ key ∈ known, (valuesAt key ms').length ≤ 1 :=
    forall₂_congr fun key _ => by rw [(h.valuesAt key).length_eq]
  have hpresent : (∀ key ∈ required, valuesAt key ms ≠ []) ↔
      ∀ key ∈ required, valuesAt key ms' ≠ [] :=
    forall₂_congr fun key _ => not_congr (h.valuesAt key).eq_nil_iff
  rw [forall₂_and, forall₂_and] at hmembers
  constructor
  · rintro ⟨hkeys, honce', hpresent', hvalues⟩
    rcases hmembers.mp ⟨hkeys, hvalues⟩ with ⟨hkeys, hvalues⟩
    exact ⟨hkeys, honce.mp honce', hpresent.mp hpresent', hvalues⟩
  · rintro ⟨hkeys, honce', hpresent', hvalues⟩
    rcases hmembers.mpr ⟨hkeys, hvalues⟩ with ⟨hkeys, hvalues⟩
    exact ⟨hkeys, honce.mpr honce', hpresent.mpr hpresent', hvalues⟩

/-- The text kept of a member does not depend on the order. -/
theorem flatMap_valuesAt_eq {R : Bytes → Value → Value → Prop} {ok : Bytes → Value → Prop}
    {key : Bytes} {f : Value → Bytes} {ms ms' : List (Member Value)}
    (h : MembersReordered R ms ms') (honce : (valuesAt key ms).length ≤ 1)
    (hvalues : ∀ m ∈ ms, ok m.key.val m.value)
    (hf : ∀ v w, R key v w → ok key v → f v = f w) :
    (valuesAt key ms).flatMap f = (valuesAt key ms').flatMap f := by
  have hpairs := (h.valuesAt key).and_left (forall_mem_valuesAt hvalues key)
  rw [List.flatMap_def, List.flatMap_def,
    hpairs.map_eq (fun v w hvw => hf v w hvw.1 hvw.2) honce]

/-! ## §3  Tools -/

theorem Reordered.isToolName_iff {v w : Value} (h : Reordered v w) :
    IsToolName limits v ↔ IsToolName limits w :=
  exists_congr fun t => and_congr_left fun _ => Reordered.str_iff h t

theorem Reordered.isDescription_iff {v w : Value} (h : Reordered v w) :
    IsDescription limits v ↔ IsDescription limits w :=
  exists_congr fun t => and_congr_left fun _ => Reordered.str_iff h t

theorem Reordered.isSchema_iff {v w : Value} (h : Reordered v w) :
    IsSchema limits v ↔ IsSchema limits w := by
  unfold IsSchema
  rw [h.nesting_eq, ← h.distinctKeys_iff]
  refine and_congr_right fun _ => and_congr_right fun hkeys => ?_
  rw [h.canonical_eq hkeys]

theorem toolMemberOk_iff (key : Bytes) {v w : Value} (h : Reordered v w) :
    toolMemberOk limits key v ↔ toolMemberOk limits key w := by
  unfold toolMemberOk
  split_ifs
  · exact Reordered.isToolName_iff h
  · exact Reordered.isDescription_iff h
  · exact Reordered.isSchema_iff h
  · exact Reordered.isSchema_iff h
  · rw [h.nesting_eq]

/-- A value that is only reordered, as an object. -/
theorem ObjectReordered.of_reordered {v w : Value} (h : Reordered v w) :
    ObjectReordered [] (fun _ _ => False) v w := Or.inl h

theorem AtKey.reordered {key : Bytes} {v w : Value}
    (h : AtKey [] (fun _ _ => False) key v w) : Reordered v w :=
  h.resolve_right fun hfalse => hfalse.2

theorem Reordered.isTool_iff {v w : Value} (h : Reordered v w) :
    IsTool limits v ↔ IsTool limits w :=
  (ObjectReordered.of_reordered h).exists_iff fun _ _ hms =>
    onceMembers_iff hms fun key _ _ _ hvw => toolMemberOk_iff key hvw.reordered

/-- A tool has one entry, however its members are ordered. -/
theorem Reordered.entryOf_eq {v w : Value} (h : Reordered v w) (hv : IsTool limits v) :
    entryOf v = entryOf w := by
  rcases hv with ⟨gap, ms, rfl, hms⟩
  rcases (Reordered.obj_iff h).mp ⟨gap, ms, rfl⟩ with ⟨gap', ms', rfl⟩
  have hmembers := reordered_obj.mp h
  have hkeys : ascii "name" ∈ toolKeys ∧ ascii "description" ∈ toolKeys ∧
      ascii "inputSchema" ∈ toolKeys ∧ ascii "annotations" ∈ toolKeys := by decide
  have hstring : ∀ {f : Value → Bytes} {v w : Value}, Reordered v w → (∃ t, v = .str t) →
      f v = f w := by
    rintro f v w hvw ⟨t, rfl⟩
    rw [(Reordered.str_iff hvw t).mp rfl]
  ext1
  · refine flatMap_valuesAt_eq hmembers (hms.once _ hkeys.1) hms.values fun v w hvw hok => ?_
    rcases (show IsToolName limits v from hok) with ⟨t, ht, -⟩
    exact hstring hvw ⟨t, ht⟩
  · refine flatMap_valuesAt_eq hmembers (hms.once _ hkeys.2.1) hms.values fun v w hvw hok => ?_
    rcases (show IsDescription limits v from hok) with ⟨t, ht, -⟩
    exact hstring hvw ⟨t, ht⟩
  · refine flatMap_valuesAt_eq hmembers (hms.once _ hkeys.2.2.1) hms.values fun v w hvw hok => ?_
    rw [hvw.canonical_eq (show IsSchema limits v from hok).2.1]
  · refine flatMap_valuesAt_eq hmembers (hms.once _ hkeys.2.2.2) hms.values fun v w hvw hok => ?_
    rw [hvw.canonical_eq (show IsSchema limits v from hok).2.1]

/-! ## §4  Results and responses -/

theorem ToolsReordered.arr_iff {v w : Value} (h : ToolsReordered v w) :
    (∃ gap es, v = .arr gap es) ↔ ∃ gap es, w = .arr gap es := by
  rcases h with h | ⟨gap, es, gap', es', rfl, rfl, -⟩
  · cases h <;> simp
  · exact ⟨fun _ => ⟨gap', es', rfl⟩, fun _ => ⟨gap, es, rfl⟩⟩

theorem ToolsReordered.elements {v w : Value} (h : ToolsReordered v w) :
    Rearranged (fun e e' => Reordered e.value e'.value) (elementsOf v) (elementsOf w) := by
  rcases h with h | ⟨gap, es, gap', es', rfl, rfl, h⟩
  · cases h with
    | arr hlength hvalues =>
        exact .of_forall₂ (@reordered_arr noGap noGap _ _ |>.mp (.arr hlength hvalues))
    | _ => exact .of_forall₂ .nil
  · exact h

/-- The entries of reordered arrays of tools. -/
theorem ToolsReordered.entries {v w : Value} (h : ToolsReordered v w)
    (hv : ∀ e ∈ elementsOf v, IsTool limits e.value) : (entriesOf v).Perm (entriesOf w) :=
  (h.elements.and_left hv).map_perm fun _ _ he => Reordered.entryOf_eq he.1 he.2

theorem ToolsReordered.isTools_iff {v w : Value} (h : ToolsReordered v w) :
    IsTools limits v ↔ IsTools limits w := by
  have htools : (∀ e ∈ elementsOf v, IsTool limits e.value) ↔
      ∀ e ∈ elementsOf w, IsTool limits e.value :=
    h.elements.forall_mem fun _ _ he => Reordered.isTool_iff he
  have hcount := h.elements.length_eq
  constructor
  · rintro ⟨harray, hle, hall, hdistinct⟩
    have hperm := (h.entries hall).map ToolInventoryEntry.name
    exact ⟨h.arr_iff.mp harray, hcount ▸ hle, htools.mp hall, hperm.nodup_iff.mp hdistinct⟩
  · rintro ⟨harray, hle, hall, hdistinct⟩
    have hperm := (h.entries (htools.mpr hall)).map ToolInventoryEntry.name
    exact ⟨h.arr_iff.mpr harray, hcount ▸ hle, htools.mpr hall,
      hperm.nodup_iff.mpr hdistinct⟩

/-- At an unescaped key other than `name` the relation is that of values. -/
theorem AtKey.of_ne {name key : Bytes} {S : Value → Value → Prop} {v w : Value}
    (h : AtKey name S key v w) (hkey : 0x5C ∉ key) (hne : key ≠ name) : Reordered v w :=
  h.resolve_right fun hS => hS.1.elim hne hkey

theorem AtKey.tools {key : Bytes} {v w : Value}
    (h : AtKey (ascii "tools") ToolsReordered key v w) : ToolsReordered v w := by
  rcases h with h | ⟨-, h⟩
  · exact Or.inl h
  · exact h

theorem resultMemberOk_iff {key : Bytes} {v w : Value} (hkey : 0x5C ∉ key)
    (h : AtKey (ascii "tools") ToolsReordered key v w) :
    resultMemberOk limits key v ↔ resultMemberOk limits key w := by
  unfold resultMemberOk
  split_ifs with htools
  · exact h.tools.isTools_iff
  · rw [(h.of_ne hkey htools).nesting_eq]

theorem isResult_iff {v w : Value} (h : ObjectReordered (ascii "tools") ToolsReordered v w) :
    IsResult limits v ↔ IsResult limits w :=
  h.exists_iff fun _ _ hms => onceMembers_iff hms fun _ _ _ hkey hvw =>
    resultMemberOk_iff hkey hvw

/-- The tools of reordered results are the same in another order. -/
theorem toolsOf_perm {v w : Value} (h : ObjectReordered (ascii "tools") ToolsReordered v w)
    (hv : IsResult limits v) : (toolsOf v).Perm (toolsOf w) := by
  rcases hv with ⟨gap, ms, rfl, hms⟩
  rcases h.obj_iff.mp ⟨gap, ms, rfl⟩ with ⟨gap', ms', rfl⟩
  rcases hms.single List.mem_cons_self List.mem_cons_self with ⟨tools, htools, hok⟩
  have hvalues := h.members.valuesAt (ascii "tools")
  rw [htools] at hvalues
  rcases hvalues.of_singleton with ⟨tools', htools', hrel⟩
  have hperm := hrel.tools.entries (show IsTools limits tools from hok).tools
  simpa [toolsOf, membersOf, htools, htools'] using hperm

/-- The names of the tools of a result are distinct. -/
theorem IsResult.distinct {v : Value} (h : IsResult limits v) :
    ((toolsOf v).map ToolInventoryEntry.name).Nodup := by
  rcases h with ⟨gap, ms, rfl, hms⟩
  rcases hms.single List.mem_cons_self List.mem_cons_self with ⟨tools, htools, hok⟩
  rw [toolsOf, membersOf, htools, List.flatMap_singleton]
  exact (show IsTools limits tools from hok).distinct

theorem AtKey.result {key : Bytes} {v w : Value}
    (h : AtKey (ascii "result") (ObjectReordered (ascii "tools") ToolsReordered) key v w) :
    ObjectReordered (ascii "tools") ToolsReordered v w := by
  rcases h with h | ⟨-, h⟩
  · exact Or.inl h
  · exact h

theorem Reordered.isPlain_iff {v w : Value} (h : Reordered v w) (text : Bytes) :
    IsPlain text v ↔ IsPlain text w :=
  exists_congr fun t => and_congr_left fun _ => Reordered.str_iff h t

theorem Reordered.id_iff {v w : Value} (h : Reordered v w) (expectedIdJson : Bytes) :
    IsIdValue v ∧ v.render = expectedIdJson ↔ IsIdValue w ∧ w.render = expectedIdJson := by
  cases h with
  | str t => exact Iff.rfl
  | num t => exact Iff.rfl
  | lit w => exact Iff.rfl
  | obj _ _ _ => simp [IsIdValue]
  | arr _ _ => simp [IsIdValue]

section response

variable {ms ms' : List (Member Value)} {expectedIdJson : Bytes}

/-- A response, with what is asked of every member in one place. -/
theorem isResponse_and : IsResponse limits (IsResult limits) expectedIdJson ms ↔
    (∀ m ∈ ms, 0x5C ∉ m.key.val ∧
      (m.key.val ∉ responseKeys → 1 + m.value.nesting ≤ limits.maxNestingDepth)) ∧
    (∃ v, valuesAt (ascii "jsonrpc") ms = [v] ∧ IsPlain (ascii "2.0") v) ∧
    (∃ v, valuesAt (ascii "id") ms = [v] ∧ IsIdValue v ∧ v.render = expectedIdJson) ∧
    (∃ v, valuesAt (ascii "result") ms = [v] ∧ IsResult limits v) ∧
    valuesAt (ascii "method") ms = [] ∧ valuesAt (ascii "error") ms = [] := by
  constructor
  · intro h
    rcases h.result with ⟨v, hv⟩
    exact ⟨fun m hm => ⟨h.keys m hm, h.others m hm⟩, h.version, h.id,
      ⟨v, hv, h.accepted v (by simp [hv])⟩, h.method, h.error⟩
  · rintro ⟨hmembers, hversion, hid, ⟨v, hv, hok⟩, hmethod, herror⟩
    refine ⟨⟨fun m hm => (hmembers m hm).1, hversion, hid, hmethod, ⟨v, hv⟩, herror⟩, ?_,
      fun m hm => (hmembers m hm).2⟩
    rw [hv]
    exact List.forall_mem_singleton.mpr hok

/-- Reordered members make a response together. -/
theorem isResponse_iff (h : MembersReordered (AtKey (ascii "result")
      (ObjectReordered (ascii "tools") ToolsReordered)) ms ms') :
    IsResponse limits (IsResult limits) expectedIdJson ms ↔
      IsResponse limits (IsResult limits) expectedIdJson ms' := by
  have hplain : ∀ key, key ≠ ascii "result" → 0x5C ∉ key →
      Rearranged Reordered (valuesAt key ms) (valuesAt key ms') := fun key hne hkey =>
    (h.valuesAt key).mono fun v w hvw => hvw.of_ne hkey hne
  have hmembers : (∀ m ∈ ms, 0x5C ∉ m.key.val ∧
      (m.key.val ∉ responseKeys → 1 + m.value.nesting ≤ limits.maxNestingDepth)) ↔
      ∀ m ∈ ms', 0x5C ∉ m.key.val ∧
        (m.key.val ∉ responseKeys → 1 + m.value.nesting ≤ limits.maxNestingDepth) := by
    refine @MembersReordered.forall_mem _ ms ms' h (fun key v => 0x5C ∉ key ∧
      (key ∉ responseKeys → 1 + v.nesting ≤ limits.maxNestingDepth)) fun key v w hvw => ?_
    refine and_congr_right fun hkey => forall_congr' fun hother => ?_
    have hne : key ≠ ascii "result" := by
      rintro rfl
      exact absurd hother (by decide)
    rw [(hvw.of_ne hkey hne).nesting_eq]
  have hversion := (hplain (ascii "jsonrpc") (by decide) (by decide)).exists_single
    fun v w hvw => Reordered.isPlain_iff hvw (ascii "2.0")
  have hid := (hplain (ascii "id") (by decide) (by decide)).exists_single
    fun v w hvw => Reordered.id_iff hvw expectedIdJson
  have hresult := (h.valuesAt (ascii "result")).exists_single fun v w hvw =>
    @isResult_iff limits v w hvw.result
  have hmethod := (h.valuesAt (ascii "method")).eq_nil_iff
  have herror := (h.valuesAt (ascii "error")).eq_nil_iff
  rw [isResponse_and, isResponse_and, hmembers, hversion, hid, hresult, hmethod, herror]

/-- ... with the same inventory. -/
theorem inventoryOf_eq (h : MembersReordered (AtKey (ascii "result")
      (ObjectReordered (ascii "tools") ToolsReordered)) ms ms')
    (hms : IsResponse limits (IsResult limits) expectedIdJson ms) (downstreamExecutable : Bytes) :
    inventoryOf downstreamExecutable ms = inventoryOf downstreamExecutable ms' := by
  rcases hms.result with ⟨v, hv⟩
  have hok := hms.accepted v (by simp [hv])
  have hvalues := h.valuesAt (ascii "result")
  rw [hv] at hvalues
  rcases hvalues.of_singleton with ⟨w, hw, hvw⟩
  unfold inventoryOf
  rw [hv, hw, List.flatMap_singleton, List.flatMap_singleton,
    sortOn_eq_of_perm ToolInventoryEntry.name (toolsOf_perm hvw.result hok) hok.distinct]

end response

/-! ## §5  Determinism -/

/-- Only objects are accepted. -/
theorem object_of_accepted {message expectedIdJson downstreamExecutable : Bytes}
    {inventory : ToolInventory} {v : Value} (htext : IsText message v)
    (h : parseToolsListResponse limits message expectedIdJson downstreamExecutable =
      .ok inventory) : ∃ gap ms, v = .obj gap ms := by
  rcases parseToolsListResponse_ok.mp h with ⟨-, ms, hcases, hms, -⟩
  rcases (documentText_cases hms.ne_nil).mpr hcases with ⟨exit, tail, hdoc, -⟩
  exact object_of_documentText hdoc htext

/-- Two texts of responses that differ in order and whitespace only are accepted
together, and what is written for them is the same, byte for byte. -/
theorem inventory_deterministic
    {message₁ message₂ expectedIdJson downstreamExecutable : Bytes} {v w : Value}
    (htext₁ : IsText message₁ v) (htext₂ : IsText message₂ w)
    (hsize₁ : message₁.length ≤ limits.maxMessageBytes)
    (hsize₂ : message₂.length ≤ limits.maxMessageBytes) (h : ResponseReordered v w) :
    ((∃ inventory, parseToolsListResponse limits message₁ expectedIdJson
          downstreamExecutable = .ok inventory) ↔
        ∃ inventory, parseToolsListResponse limits message₂ expectedIdJson
          downstreamExecutable = .ok inventory) ∧
      ∀ inventory₁ inventory₂,
        parseToolsListResponse limits message₁ expectedIdJson downstreamExecutable =
          .ok inventory₁ →
        parseToolsListResponse limits message₂ expectedIdJson downstreamExecutable =
          .ok inventory₂ →
        ∀ maxOutputBytes, emitInventoryJson inventory₁ maxOutputBytes =
          emitInventoryJson inventory₂ maxOutputBytes := by
  by_cases hobject : ∃ gap ms, v = .obj gap ms
  · rcases hobject with ⟨gap, ms, rfl⟩
    rcases h.obj_iff.mp ⟨gap, ms, rfl⟩ with ⟨gap', ms', rfl⟩
    have hmembers := h.members
    simp only [parseToolsListResponse_text htext₁ hsize₁,
      parseToolsListResponse_text htext₂ hsize₂]
    constructor
    · simp only [isResponse_iff hmembers, exists_and_left, exists_eq]
    · rintro _ _ ⟨hms, rfl⟩ ⟨-, rfl⟩ maxOutputBytes
      rw [inventoryOf_eq hmembers hms]
  · -- no other value is accepted, on either side
    have hobject' : ¬ ∃ gap ms, w = .obj gap ms := fun hw => hobject (h.obj_iff.mpr hw)
    constructor
    · constructor
      · rintro ⟨inventory, hok⟩
        exact absurd (object_of_accepted htext₁ hok) hobject
      · rintro ⟨inventory, hok⟩
        exact absurd (object_of_accepted htext₂ hok) hobject'
    · intro inventory₁ _ hok
      exact absurd (object_of_accepted htext₁ hok) hobject

/-- A tool with a name alone. -/
def namedTool (name : Bytes) (h : name.all isPlainByte = true) : Value :=
  .obj noGap [.compact (plainString (ascii "name") (.refl true)) (.str (plainString name h))]

def versionMember : Member Value :=
  .compact (plainString (ascii "jsonrpc") (.refl true))
    (.str (plainString (ascii "2.0") (.refl true)))

def idMember : Member Value :=
  .compact (plainString (ascii "id") (.refl true)) (.str (plainString (ascii "l") (.refl true)))

def resultMember (tools : List Value) : Member Value :=
  .compact (plainString (ascii "result") (.refl true)) (.obj noGap
    [.compact (plainString (ascii "tools") (.refl true)) (.arr noGap (tools.map .compact))])

/-- A response that lists two tools, and the same in another order. -/
def forwardResponse : Bytes :=
  ascii "\x7b\"jsonrpc\":\"2.0\",\"id\":\"l\",\"result\":" ++
    ascii "\x7b\"tools\":[\x7b\"name\":\"a\"\x7d,\x7b\"name\":\"b\"\x7d]\x7d\x7d"

def backwardResponse : Bytes :=
  ascii " \x7b\"id\":\"l\",\"jsonrpc\":\"2.0\",\"result\":" ++
    ascii "\x7b\"tools\":[\x7b\"name\":\"b\"\x7d,\x7b\"name\":\"a\"\x7d]\x7d\x7d"

theorem inventory_deterministic_example :
    ((∃ inventory, parseToolsListResponse {} forwardResponse (ascii "\"l\"") (ascii "srv") =
          .ok inventory) ↔
        ∃ inventory, parseToolsListResponse {} backwardResponse (ascii "\"l\"")
          (ascii "srv") = .ok inventory) ∧
      ∀ inventory₁ inventory₂,
        parseToolsListResponse {} forwardResponse (ascii "\"l\"") (ascii "srv") =
          .ok inventory₁ →
        parseToolsListResponse {} backwardResponse (ascii "\"l\"") (ascii "srv") =
          .ok inventory₂ →
        ∀ maxOutputBytes, emitInventoryJson inventory₁ maxOutputBytes =
          emitInventoryJson inventory₂ maxOutputBytes := by
  let a := namedTool (ascii "a") (by decide)
  let b := namedTool (ascii "b") (by decide)
  have htools : ToolsReordered (.arr noGap ([a, b].map .compact))
      (.arr noGap ([b, a].map .compact)) := by
    refine Or.inr ⟨_, _, _, _, rfl, rfl, _, List.Perm.swap _ _ _, ?_⟩
    exact .cons (.refl b) (.cons (.refl a) .nil)
  have hresult : ObjectReordered (ascii "tools") ToolsReordered (resultMember [a, b]).value
      (resultMember [b, a]).value := by
    refine Or.inr ⟨_, _, _, _, rfl, rfl, .of_forall₂ ?_⟩
    exact .cons ⟨rfl, Or.inr ⟨Or.inl rfl, htools⟩⟩ .nil
  have hresponse : ResponseReordered (.obj noGap [versionMember, idMember, resultMember [a, b]])
      (.obj noGap [idMember, versionMember, resultMember [b, a]]) := by
    refine Or.inr ⟨_, _, _, _, rfl, rfl, _, List.Perm.swap _ _ _, ?_⟩
    exact .cons ⟨rfl, Or.inl (.refl _)⟩ (.cons ⟨rfl, Or.inl (.refl _)⟩
      (.cons ⟨rfl, Or.inr ⟨Or.inl rfl, hresult⟩⟩ .nil))
  obtain ⟨hforward, hbackward, hsizes⟩ :
      forwardResponse = (Value.obj noGap [versionMember, idMember, resultMember
          [namedTool (ascii "a") (by decide), namedTool (ascii "b") (by decide)]]).render ∧
        backwardResponse = 0x20 :: (Value.obj noGap [idMember, versionMember, resultMember
          [namedTool (ascii "b") (by decide), namedTool (ascii "a") (by decide)]]).render ∧
        forwardResponse.length ≤ 1024 * 1024 ∧ backwardResponse.length ≤ 1024 * 1024 := by
    decide +kernel
  have hspace : ∀ x ∈ [(0x20 : UInt8)], x ∈ whitespaceBytes :=
    List.forall_mem_singleton.mpr (by decide)
  exact inventory_deterministic ⟨noGap, noGap, by rw [hforward]; simp [a, b]⟩
    ⟨⟨[0x20], hspace⟩, noGap, by rw [hbackward]; simp [a, b]⟩ hsizes.1 hsizes.2 hresponse

end NativeGuard.Protocol.Inventory

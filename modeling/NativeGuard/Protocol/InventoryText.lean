import NativeGuard.Protocol.InventoryResponse

/-!
# The text of an inventory

`emit_inventory_json` writes the text `inventoryJson`, or nothing if that does not
fit (`emitInventoryJson_eq`). The text is that of a tree, whose tools keep the name,
the description and the canonical schemas of the tool objects they stand for
(`inventoryJson_render`).
-/

namespace NativeGuard.Protocol.Inventory

open Json Json.Scan Data

variable {limits : InventoryLimits}

/-! ## §1  What is written -/

def optionalJson (head json : Bytes) : Bytes := if json ≠ [] then head ++ json else []

def toolJson (tool : ToolInventoryEntry) : Bytes :=
  ascii "\x7b\"name\":" ++ (jsonString tool.name ++
    (optionalJson (ascii ",\"description\":") tool.descriptionJson ++
      (optionalJson (ascii ",\"inputSchema\":") tool.inputSchemaJson ++
        (optionalJson (ascii ",\"annotations\":") tool.annotationsJson ++ ascii "\x7d"))))

def inventoryJson (inventory : ToolInventory) : Bytes :=
  ascii "\x7b\"inventory_version\":" ++ (toChars ToolInventory.version ++
    (ascii ",\"server\":\x7b\"downstream_executable\":" ++
      (jsonString inventory.downstreamExecutable ++ (ascii "\x7d,\"tools\":[" ++
        (List.intercalate [0x2C] (inventory.tools.map toolJson) ++ ascii "]\x7d")))))

theorem appends_appendOptional (limit : Nat) (head json : Bytes) :
    Appends limit (appendOptional limit head json) (optionalJson head json) :=
  Appends.ite _ ((appends_append head).bind (appends_append json))

theorem appends_appendTool (limit : Nat) (tool : ToolInventoryEntry) :
    Appends limit (appendTool limit tool) (toolJson tool) :=
  (appends_append _).bind ((appends_appendJsonString _).bind
    ((appends_appendOptional limit _ _).bind ((appends_appendOptional limit _ _).bind
      ((appends_appendOptional limit _ _).bind (appends_append _)))))

/-- The whole text is written, or none of it. -/
theorem emitInventoryJson_eq (inventory : ToolInventory) (maxOutputBytes : Nat) :
    emitInventoryJson inventory maxOutputBytes =
      if (inventoryJson inventory).length ≤ maxOutputBytes then
        some (inventoryJson inventory) else none := by
  have happends : Appends maxOutputBytes _ (inventoryJson inventory) :=
    (appends_append _).bind ((appends_append _).bind ((appends_append _).bind
      ((appends_appendJsonString _).bind ((appends_append _).bind
        ((appends_list inventory.tools fun tool _ => appends_appendTool maxOutputBytes tool).bind
          (appends_append _))))))
  have hrun := happends [] (Nat.zero_le _)
  rwa [List.length_nil, Nat.zero_add, List.nil_append] at hrun

/-! ## §2  The written tree -/

def writtenName (v : Value) : Member Value :=
  .compact (plainString (ascii "name") (.refl true)) v

def writtenDescription (v : Value) : Member Value :=
  .compact (plainString (ascii "description") (.refl true)) v

def writtenSchema (v : Value) : Member Value :=
  .compact (plainString (ascii "inputSchema") (.refl true)) v.canonical

def writtenAnnotations (v : Value) : Member Value :=
  .compact (plainString (ascii "annotations") (.refl true)) v.canonical

/-- The members of a tool object that are kept, in the order in which they are
written. -/
def writtenMembers (ms : List (Member Value)) : List (Member Value) :=
  (valuesAt (ascii "name") ms).map writtenName ++
    ((valuesAt (ascii "description") ms).map writtenDescription ++
      ((valuesAt (ascii "inputSchema") ms).map writtenSchema ++
        (valuesAt (ascii "annotations") ms).map writtenAnnotations))

def writtenTool (v : Value) : Value := .obj noGap (writtenMembers (membersOf v))

def serverTree (downstreamExecutable : Bytes) : Value :=
  .obj noGap [.compact (plainString (ascii "downstream_executable") (.refl true))
    (.str (writtenString downstreamExecutable))]

def toolsTree (tools : List Value) : Value :=
  .arr noGap ((tools.map writtenTool).map .compact)

def inventoryMembers (downstreamExecutable : Bytes) (tools : List Value) :
    List (Member Value) :=
  [.compact (plainString (ascii "inventory_version") (.refl true)) (.num (numberText 1)),
    .compact (plainString (ascii "server") (.refl true)) (serverTree downstreamExecutable),
    .compact (plainString (ascii "tools") (.refl true)) (toolsTree tools)]

/-- An optional member, behind its comma. -/
theorem optionalJson_render {head : Bytes} (key : Bytes) (hkey : key.all isPlainByte = true)
    (hhead : head = 0x2C :: 0x22 :: (key ++ [0x22, 0x3A])) (f : Value → Value)
    {vs : List Value} (honce : vs.length ≤ 1) :
    optionalJson head (vs.flatMap fun v => (f v).render) =
      (vs.map fun v => renderMember (.compact (plainString key hkey) (f v))).flatMap
        fun text => [0x2C] ++ text := by
  rcases eq_nil_or_singleton honce with rfl | ⟨v, rfl⟩
  · rfl
  · rw [List.flatMap_singleton, optionalJson, if_pos (render_ne_nil _), hhead]
    simp [plainString]

/-- What is written for an entry is the text of the tool with the members kept. -/
theorem toolJson_render {v : Value} (h : IsTool limits v) :
    toolJson (entryOf v) = (writtenTool v).render := by
  rcases h with ⟨gap, ms, rfl, hms⟩
  rcases hms.single List.mem_cons_self List.mem_cons_self with ⟨w, hw, hok⟩
  rcases (show IsToolName limits w from hok) with ⟨t, rfl, hescape, -⟩
  have hkeys : ascii "description" ∈ toolKeys ∧ ascii "inputSchema" ∈ toolKeys ∧
      ascii "annotations" ∈ toolKeys := by decide
  have hliterals : ascii "\x7b\"name\":" = 0x7B :: 0x22 :: (ascii "name" ++ [0x22, 0x3A]) ∧
      ascii ",\"description\":" = 0x2C :: 0x22 :: (ascii "description" ++ [0x22, 0x3A]) ∧
      ascii ",\"inputSchema\":" = 0x2C :: 0x22 :: (ascii "inputSchema" ++ [0x22, 0x3A]) ∧
      ascii ",\"annotations\":" = 0x2C :: 0x22 :: (ascii "annotations" ++ [0x22, 0x3A]) ∧
      ascii "\x7d" = [0x7D] := by decide
  rcases hliterals with ⟨hopen, hhead₁, hhead₂, hhead₃, hclose⟩
  have hname : jsonString (entryOf (.obj gap ms)).name = (Value.str t).render := by
    rw [← jsonString_plain hescape]
    show jsonString ((valuesAt (ascii "name") ms).flatMap plainText) = _
    rw [hw, List.flatMap_singleton]
    rfl
  have hdescription := optionalJson_render (ascii "description") (by decide)
    hhead₁ (fun v => v) (hms.once _ hkeys.1)
  have hschema := optionalJson_render (ascii "inputSchema") (by decide)
    hhead₂ Value.canonical (hms.once _ hkeys.2.1)
  have hannotations := optionalJson_render (ascii "annotations") (by decide)
    hhead₃ Value.canonical (hms.once _ hkeys.2.2)
  unfold toolJson writtenTool
  rw [hname, hopen, hclose, render_obj_joined, writtenMembers, membersOf, hw,
    List.map_append, List.map_append, List.map_append, List.map_singleton, List.map_singleton,
    List.singleton_append, intercalate_cons, List.flatMap_append, List.flatMap_append,
    List.map_map, List.map_map, List.map_map]
  show _ ++ (_ ++ (optionalJson _ ((valuesAt (ascii "description") ms).flatMap _) ++
    (optionalJson _ ((valuesAt (ascii "inputSchema") ms).flatMap _) ++
      (optionalJson _ ((valuesAt (ascii "annotations") ms).flatMap _) ++ _)))) = _
  rw [hdescription, hschema, hannotations]
  simp [writtenName, writtenDescription, writtenSchema, writtenAnnotations,
    Function.comp_def, plainString]

/-- The text of an inventory is that of its tree. -/
theorem inventoryJson_render {tools : List Value} (h : ∀ v ∈ tools, IsTool limits v)
    (downstreamExecutable : Bytes) :
    inventoryJson ⟨downstreamExecutable, tools.map entryOf⟩ =
      (Value.obj noGap (inventoryMembers downstreamExecutable tools)).render := by
  have htexts : (tools.map entryOf).map toolJson = (tools.map writtenTool).map Value.render := by
    rw [List.map_map, List.map_map]
    exact List.map_congr_left fun v hv => toolJson_render (h v hv)
  have htools : (toolsTree tools).render = 0x5B ::
      (List.intercalate [0x2C] ((tools.map writtenTool).map Value.render) ++ [0x5D]) :=
    render_arr_compact _
  have hliterals : ascii "\x7b\"inventory_version\":" =
        0x7B :: 0x22 :: (ascii "inventory_version" ++ [0x22, 0x3A]) ∧
      ascii ",\"server\":\x7b\"downstream_executable\":" = 0x2C :: 0x22 ::
        (ascii "server" ++ 0x22 :: 0x3A :: 0x7B :: 0x22 ::
          (ascii "downstream_executable" ++ [0x22, 0x3A])) ∧
      ascii "\x7d,\"tools\":[" = 0x7D :: 0x2C :: 0x22 :: (ascii "tools" ++ [0x22, 0x3A, 0x5B]) ∧
      ascii "]\x7d" = [0x5D, 0x7D] := by decide
  rcases hliterals with ⟨hversion, hserver, hopen, hclose⟩
  unfold inventoryJson
  dsimp only
  rw [hversion, hserver, hopen, hclose, htexts, jsonString_render]
  simp [inventoryMembers, serverTree, Value.render, renderMembers_open, openMembers,
    plainString, htools, numberText, ToolInventory.version]

/-! ## §3  Written members -/

theorem valuesAt_map {key : Bytes} {f : Value → Member Value} {g : Value → Value}
    (hkey : ∀ v, (f v).key.val = key) (hvalue : ∀ v, (f v).value = g v) (key' : Bytes)
    (vs : List Value) : valuesAt key' (vs.map f) = if key = key' then vs.map g else [] := by
  induction vs with
  | nil => simp [valuesAt]
  | cons v vs ih =>
      rw [List.map_cons, List.map_cons]
      split_ifs at ih ⊢ with h
      · rw [valuesAt_cons_of_eq ((hkey v).trans h), ih, hvalue]
      · rw [valuesAt_cons_of_ne (by rwa [hkey v]), ih]

/-- A kept member keeps its key, and a schema becomes canonical. -/
theorem valuesAt_written (ms : List (Member Value)) :
    valuesAt (ascii "name") (writtenMembers ms) = valuesAt (ascii "name") ms ∧
      valuesAt (ascii "description") (writtenMembers ms) = valuesAt (ascii "description") ms ∧
      valuesAt (ascii "inputSchema") (writtenMembers ms) =
        (valuesAt (ascii "inputSchema") ms).map Value.canonical ∧
      valuesAt (ascii "annotations") (writtenMembers ms) =
        (valuesAt (ascii "annotations") ms).map Value.canonical := by
  have hdistinct : toolKeys.Nodup := by decide
  have hname := @valuesAt_map (ascii "name") writtenName id (fun _ => rfl) fun _ => rfl
  have hdescription := @valuesAt_map (ascii "description") writtenDescription id
    (fun _ => rfl) fun _ => rfl
  have hschema := @valuesAt_map (ascii "inputSchema") writtenSchema Value.canonical
    (fun _ => rfl) fun _ => rfl
  have hannotations := @valuesAt_map (ascii "annotations") writtenAnnotations Value.canonical
    (fun _ => rfl) fun _ => rfl
  unfold toolKeys at hdistinct
  unfold writtenMembers
  simp only [valuesAt_append, hname, hdescription, hschema, hannotations]
  simp only [List.nodup_cons, List.mem_cons, List.not_mem_nil, or_false, not_or] at hdistinct
  obtain ⟨⟨h₁, h₂, h₃⟩, ⟨h₄, h₅⟩, h₆, -⟩ := hdistinct
  simp [h₁, h₂, h₃, h₄, h₅, h₆, Ne.symm h₁, Ne.symm h₂, Ne.symm h₃, Ne.symm h₄, Ne.symm h₅,
    Ne.symm h₆]

/-- The members that are written, by their key. -/
theorem mem_writtenMembers {ms : List (Member Value)} {m : Member Value}
    (h : m ∈ writtenMembers ms) :
    (∃ v ∈ valuesAt (ascii "name") ms, m = writtenName v) ∨
      (∃ v ∈ valuesAt (ascii "description") ms, m = writtenDescription v) ∨
      (∃ v ∈ valuesAt (ascii "inputSchema") ms, m = writtenSchema v) ∨
      ∃ v ∈ valuesAt (ascii "annotations") ms, m = writtenAnnotations v := by
  simpa [writtenMembers, eq_comm] using h

theorem writtenMembers_unescaped {ms : List (Member Value)} :
    ∀ m ∈ writtenMembers ms, 0x5C ∉ m.key.val := by
  intro m hm
  rcases mem_writtenMembers hm with ⟨v, -, rfl⟩ | ⟨v, -, rfl⟩ | ⟨v, -, rfl⟩ | ⟨v, -, rfl⟩
  · exact plainString_unescaped (ascii "name") (by decide)
  · exact plainString_unescaped (ascii "description") (by decide)
  · exact plainString_unescaped (ascii "inputSchema") (by decide)
  · exact plainString_unescaped (ascii "annotations") (by decide)

/-! ## §4  The tools of an inventory -/

/-- The inventory of an accepted response is that of tool objects, as many as the
limits allow and with names of their own. -/
theorem inventoryOf_tools {expectedIdJson : Bytes} {ms : List (Member Value)}
    (h : IsResponse limits (IsResult limits) expectedIdJson ms) (downstreamExecutable : Bytes) :
    ∃ tools : List Value, inventoryOf downstreamExecutable ms =
        ⟨downstreamExecutable, tools.map entryOf⟩ ∧ (∀ v ∈ tools, IsTool limits v) ∧
      tools.length ≤ limits.maxTools ∧
      ((tools.map entryOf).map ToolInventoryEntry.name).Nodup := by
  rcases h.result with ⟨result, hresult⟩
  rcases h.accepted result (by simp [hresult]) with ⟨gap, rms, rfl, hrms⟩
  rcases hrms.single List.mem_cons_self List.mem_cons_self with ⟨tools, htools, hok⟩
  rcases (show IsTools limits tools from hok) with ⟨⟨gap', es, rfl⟩, hcount, hall, hdistinct⟩
  let name := fun e : Element Value => (entryOf e.value).name
  have hperm := sortOn_perm name es
  refine ⟨(sortOn name es).map Element.value, ?_, ?_, ?_, ?_⟩
  · have hentries : toolsOf (.obj gap rms) = es.map fun e => entryOf e.value := by
      rw [toolsOf, membersOf, htools, List.flatMap_singleton]
      rfl
    rw [inventoryOf, hresult, List.flatMap_singleton, hentries, sortOn_map, List.map_map]
    rfl
  · intro v hv
    rcases List.mem_map.mp hv with ⟨e, he, rfl⟩
    exact hall e (hperm.mem_iff.mp he)
  · rw [List.length_map, hperm.length_eq]
    exact hcount
  · rw [List.map_map, List.map_map]
    exact (hperm.map name).nodup_iff.mpr (by rwa [entriesOf, List.map_map] at hdistinct)

end NativeGuard.Protocol.Inventory

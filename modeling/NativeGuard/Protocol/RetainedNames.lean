import NativeGuard.Json.Decode
import NativeGuard.Protocol.CanonicalText
import NativeGuard.Protocol.InventoryResponse

/-!
# Member names of retained schemas

The canonicalizer compares keys as they are spelled. What the inventory keeps of an
accepted response therefore repeats no spelling, and it repeats no name exactly if
no object spells one name in two ways (`retains_distinct_names_iff`).
-/

namespace NativeGuard.Json

open Data

/-! ## §1  The keys of every object -/

/-- The keys of every object of the value, as spelled, satisfy `P`. -/
inductive EveryObject (P : List Bytes → Prop) : Value → Prop where
  | str (t : StringText) : EveryObject P (.str t)
  | num (t : NumberText) : EveryObject P (.num t)
  | lit (w : Literal) : EveryObject P (.lit w)
  | obj {gap : Gap} {ms : List (Member Value)} (hkeys : P (ms.map keyOf))
      (hvalues : ∀ m ∈ ms, EveryObject P m.value) : EveryObject P (.obj gap ms)
  | arr {gap : Gap} {es : List (Element Value)}
      (hvalues : ∀ e ∈ es, EveryObject P e.value) : EveryObject P (.arr gap es)

theorem everyObject_obj {P : List Bytes → Prop} {gap : Gap} {ms : List (Member Value)} :
    EveryObject P (.obj gap ms) ↔ P (ms.map keyOf) ∧ ∀ m ∈ ms, EveryObject P m.value := by
  constructor
  · rintro (_ | _ | _ | ⟨hkeys, hvalues⟩)
    exact ⟨hkeys, hvalues⟩
  · rintro ⟨hkeys, hvalues⟩
    exact .obj hkeys hvalues

theorem everyObject_arr {P : List Bytes → Prop} {gap : Gap} {es : List (Element Value)} :
    EveryObject P (.arr gap es) ↔ ∀ e ∈ es, EveryObject P e.value := by
  constructor
  · rintro (_ | _ | _ | _ | hvalues)
    exact hvalues
  · exact .arr

/-- What does not depend on the order of keys does not tell reordered values apart. -/
theorem Reordered.everyObject_iff {P : List Bytes → Prop}
    (hP : ∀ keys keys' : List Bytes, keys.Perm keys' → (P keys ↔ P keys')) {v w : Value}
    (h : Reordered v w) : EveryObject P v ↔ EveryObject P w := by
  induction h with
  | str t => exact Iff.rfl
  | num t => exact Iff.rfl
  | lit w => exact Iff.rfl
  | obj hperm hkeys hvalues ih =>
      have hmembers := @membersReordered_of (fun v w => EveryObject P v ↔ EveryObject P w)
        _ _ _ hperm hkeys ih
      rw [everyObject_obj, everyObject_obj, hP _ _ hmembers.keys]
      exact and_congr_right fun _ => hmembers.forall_mem fun _ _ _ hvw => hvw
  | arr hlength hvalues ih =>
      have helements := Rearranged.of_forall₂ (R := fun e e' : Element Value =>
        EveryObject P e.value ↔ EveryObject P e'.value)
        (List.forall₂_iff_zip.mpr ⟨hlength, fun hp => ih _ hp⟩)
      rw [everyObject_arr, everyObject_arr]
      exact helements.forall_mem fun _ _ hee => hee

/-- No object has two members of one name, once the names are decoded. -/
def DistinctNames : Value → Prop := EveryObject fun keys => (keys.map decodeString).Nodup

/-- No object spells one name in two ways. -/
def SpelledOneWay : Value → Prop := EveryObject fun keys =>
  ∀ key ∈ keys, ∀ key' ∈ keys, decodeString key = decodeString key' → key = key'

/-- Where no spelling is repeated, names are repeated only in other spellings. -/
theorem distinctNames_iff {v : Value} (h : DistinctKeys v) :
    DistinctNames v ↔ SpelledOneWay v := by
  unfold DistinctNames SpelledOneWay
  induction v using Value.inductionOn with
  | str t => exact ⟨fun _ => .str t, fun _ => .str t⟩
  | num t => exact ⟨fun _ => .num t, fun _ => .num t⟩
  | lit w => exact ⟨fun _ => .lit w, fun _ => .lit w⟩
  | obj gap ms ih =>
      rcases distinctKeys_obj.mp h with ⟨hkeys, hvalues⟩
      rw [everyObject_obj, everyObject_obj, List.nodup_map_iff_inj_on hkeys]
      exact and_congr_right fun _ => forall₂_congr fun m hm => ih m hm (hvalues m hm)
  | arr gap es ih =>
      rw [everyObject_arr, everyObject_arr]
      exact forall₂_congr fun e he => ih e he (distinctKeys_arr.mp h e he)

theorem Reordered.spelledOneWay_iff {v w : Value} (h : Reordered v w) :
    SpelledOneWay v ↔ SpelledOneWay w := by
  unfold SpelledOneWay
  refine h.everyObject_iff fun keys keys' hperm => ?_
  have hmem : ∀ key, key ∈ keys ↔ key ∈ keys' := fun _ => hperm.mem_iff
  simp only [hmem]

end NativeGuard.Json

namespace NativeGuard.Protocol.Inventory

open Json Json.Scan Data

variable {limits : InventoryLimits}

/-! ## §2  What the inventory retains -/

/-- The texts of schemas and annotations; an absent one is empty. -/
def ToolInventoryEntry.retained (entry : ToolInventoryEntry) : List Bytes :=
  [entry.inputSchemaJson, entry.annotationsJson]

/-- No retained text is that of a value with a repeated name. -/
def RetainsDistinctNames (inventory : ToolInventory) : Prop :=
  ∀ entry ∈ inventory.tools, ∀ json ∈ ToolInventoryEntry.retained entry,
    ∀ v : Value, json = v.render → DistinctNames v

/-- The values a tool object has for schema and annotations. -/
def schemasOf (v : Value) : List Value :=
  valuesAt (ascii "inputSchema") (membersOf v) ++ valuesAt (ascii "annotations") (membersOf v)

/-- Those of the tools that a response lists. -/
def retainedValues (ms : List (Member Value)) : List Value :=
  (valuesAt (ascii "result") ms).flatMap fun result =>
    (valuesAt (ascii "tools") (membersOf result)).flatMap fun tools =>
      (elementsOf tools).flatMap fun e => schemasOf e.value

/-- A text that is kept determines its value up to the order of members. -/
theorem reordered_of_render {v w : Value} (h : DistinctKeys v)
    (htext : w.render = v.canonical.render) : Reordered v w ∧ DistinctKeys w := by
  -- the writer takes the text for `w` and, being canonical, for `v`
  let size := max (v.nesting + w.nesting) v.canonical.render.length
  have hscan : (canonicalizeValue 0 size size).scan (v.canonical.render ++ []) =
      (.ok v.canonical.canonical.render, []) := by
    refine (Reader.scan_ok _ follow_nil).mpr
      ⟨canonicalizeValue_read.mpr ⟨⟨?_, ?_, ?_⟩, rfl⟩, rfl⟩
    · have hle := nesting_canonical_le v
      have hsize := le_max_left (v.nesting + w.nesting) v.canonical.render.length
      show 0 + v.canonical.nesting ≤ size
      omega
    · exact (Reordered.of_canonical_eq (canonical_canonical v).symm).distinctKeys_iff.mp h
    · rw [canonical_canonical]
      exact le_max_right _ _
  rw [← htext] at hscan
  rcases (Reader.scan_ok _ follow_nil).mp hscan with ⟨hread, -⟩
  rcases canonicalizeValue_read.mp hread with ⟨⟨-, hdistinct, -⟩, heq⟩
  rw [canonical_canonical] at heq
  exact ⟨Reordered.of_canonical_eq (canonical_of_render heq), hdistinct⟩

theorem retained_iff {v : Value} (h : DistinctKeys v) :
    (∀ w : Value, v.canonical.render = w.render → DistinctNames w) ↔ SpelledOneWay v := by
  constructor
  · intro hall
    have hcanonical := Reordered.of_canonical_eq (canonical_canonical v).symm
    exact hcanonical.spelledOneWay_iff.mpr
      ((distinctNames_iff (hcanonical.distinctKeys_iff.mp h)).mp (hall _ rfl))
  · intro hspelled w hw
    rcases reordered_of_render h hw.symm with ⟨hreordered, hdistinct⟩
    exact (distinctNames_iff hdistinct).mpr (hreordered.spelledOneWay_iff.mp hspelled)

/-- A member that may be absent. -/
theorem retained_member_iff {vs : List Value} (honce : vs.length ≤ 1)
    (hkeys : ∀ v ∈ vs, DistinctKeys v) :
    (∀ w : Value, (vs.flatMap fun v => v.canonical.render) = w.render → DistinctNames w) ↔
      ∀ v ∈ vs, SpelledOneWay v := by
  rcases eq_nil_or_singleton honce with rfl | ⟨v, rfl⟩
  · constructor
    · intro _ v hv
      exact absurd hv List.not_mem_nil
    · intro _ w hw
      rcases render_head w [] with ⟨b, t, hhead, -⟩
      rw [List.append_nil, ← hw] at hhead
      cases hhead
  · rw [List.flatMap_singleton, List.forall_mem_singleton]
    exact retained_iff (hkeys v List.mem_cons_self)

theorem retained_entry_iff {v : Value} (h : IsTool limits v) :
    (∀ json ∈ ToolInventoryEntry.retained (entryOf v), ∀ w : Value, json = w.render →
        DistinctNames w) ↔ ∀ s ∈ schemasOf v, SpelledOneWay s := by
  rcases h with ⟨gap, ms, rfl, hms⟩
  have hkeys : ascii "inputSchema" ∈ toolKeys ∧ ascii "annotations" ∈ toolKeys := by decide
  have hschema : ∀ v ∈ valuesAt (ascii "inputSchema") ms, DistinctKeys v := by
    intro v hv
    rcases mem_valuesAt.mp hv with ⟨m, hm, hkey, rfl⟩
    have hok := hms.values m hm
    rw [hkey] at hok
    exact (show IsSchema limits m.value from hok).2.1
  have hannotations : ∀ v ∈ valuesAt (ascii "annotations") ms, DistinctKeys v := by
    intro v hv
    rcases mem_valuesAt.mp hv with ⟨m, hm, hkey, rfl⟩
    have hok := hms.values m hm
    rw [hkey] at hok
    exact (show IsSchema limits m.value from hok).2.1
  unfold ToolInventoryEntry.retained schemasOf
  rw [List.forall_mem_cons, List.forall_mem_singleton, List.forall_mem_append]
  exact and_congr (retained_member_iff (hms.once _ hkeys.1) hschema)
    (retained_member_iff (hms.once _ hkeys.2) hannotations)

/-- Of an accepted response, read as the object it is, names are retained twice exactly
where one object spells a name in two ways. -/
theorem retains_distinct_names_iff
    {message expectedIdJson downstreamExecutable : Bytes} {inventory : ToolInventory}
    (h : parseToolsListResponse limits message expectedIdJson downstreamExecutable =
      .ok inventory) :
    (∃ exit ms tail, DocumentText exit ms tail message ∧ exit ≠ .trailing) ∧
      ∀ exit ms tail, DocumentText exit ms tail message → exit ≠ .trailing →
        (RetainsDistinctNames inventory ↔ ∀ v ∈ retainedValues ms, SpelledOneWay v) := by
  rcases parseToolsListResponse_ok.mp h with ⟨hsize, ms₀, htext, hms₀, -⟩
  rcases (documentText_cases hms₀.ne_nil).mpr htext with ⟨exit₀, tail₀, hdoc₀, hexit₀⟩
  refine ⟨⟨exit₀, ms₀, tail₀, hdoc₀, hexit₀⟩, fun exit ms tail hdoc hexit => ?_⟩
  rcases (parseToolsListResponse_document hdoc hexit hsize).mp h with ⟨hms, rfl⟩
  rcases hms.result with ⟨result, hresult⟩
  rcases hms.accepted result (by simp [hresult]) with ⟨gap, rms, rfl, hrms⟩
  rcases hrms.single List.mem_cons_self List.mem_cons_self with ⟨tools, htools, hok⟩
  rcases (show IsTools limits tools from hok) with ⟨⟨gap', es, rfl⟩, -, hall, -⟩
  have hretained : retainedValues ms = es.flatMap fun e => schemasOf e.value := by
    rw [retainedValues, hresult, List.flatMap_singleton, membersOf, htools,
      List.flatMap_singleton, elementsOf]
  have hinventory : ∀ entry, entry ∈ (inventoryOf downstreamExecutable ms).tools ↔
      ∃ e ∈ es, entryOf e.value = entry := by
    intro entry
    rw [inventoryOf, mem_sortOn, hresult, List.flatMap_singleton, toolsOf, membersOf, htools,
      List.flatMap_singleton]
    exact List.mem_map
  rw [hretained]
  unfold RetainsDistinctNames
  simp only [hinventory, List.mem_flatMap]
  constructor
  · rintro hnames v ⟨e, he, hv⟩
    exact (retained_entry_iff (hall e he)).mp (hnames _ ⟨e, he, rfl⟩) v hv
  · rintro hspelled _ ⟨e, he, rfl⟩
    exact (retained_entry_iff (hall e he)).mpr fun s hs => hspelled s ⟨e, he, hs⟩

/-- A schema with two members named `a`, the first spelled with an escape. -/
def escapedKey : StringText :=
  ⟨ascii "\\u0061", .unicode (by decide) (by decide) (by decide) (by decide) .nil⟩

def repeatedName : Value :=
  .obj noGap [.compact escapedKey (.lit .true),
    .compact (plainString (ascii "a") (.refl true)) (.lit .false)]

def repeatedNameResponse : Bytes :=
  ascii "\x7b\"jsonrpc\":\"2.0\",\"id\":1,\"result\":\x7b\"tools\":[\x7b\"name\":\"t\"," ++
    ascii "\"inputSchema\":\x7b\"a\":false,\"\\u0061\":true\x7d\x7d]\x7d\x7d"

def repeatedNameInventory : ToolInventory :=
  ⟨ascii "srv", [{ name := ascii "t", inputSchemaJson := repeatedName.render }]⟩

theorem repeated_name_retained :
    parseToolsListResponse {} repeatedNameResponse (ascii "1") (ascii "srv") =
        .ok repeatedNameInventory ∧
      ¬ RetainsDistinctNames repeatedNameInventory := by
  obtain ⟨hparse, hdecode⟩ :
      parseToolsListResponse {} repeatedNameResponse (ascii "1") (ascii "srv") =
          .ok repeatedNameInventory ∧
        decodeString escapedKey.val = decodeString (ascii "a") := by
    decide +kernel
  refine ⟨hparse, fun hnames => ?_⟩
  have hdistinct := hnames _ List.mem_cons_self _ List.mem_cons_self repeatedName rfl
  have hkeys := (everyObject_obj.mp hdistinct).1
  exact (List.nodup_cons.mp hkeys).1 (List.mem_singleton.mpr hdecode)

theorem retains_distinct_names_iff_example :
    (∃ exit ms tail, DocumentText exit ms tail repeatedNameResponse ∧ exit ≠ .trailing) ∧
      ∀ exit ms tail, DocumentText exit ms tail repeatedNameResponse → exit ≠ .trailing →
        (RetainsDistinctNames repeatedNameInventory ↔
          ∀ v ∈ retainedValues ms, SpelledOneWay v) :=
  retains_distinct_names_iff
    (show parseToolsListResponse {} repeatedNameResponse (ascii "1") (ascii "srv") =
      .ok repeatedNameInventory by decide +kernel)

end NativeGuard.Protocol.Inventory

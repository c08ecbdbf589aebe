import NativeGuard.Protocol.InventoryResponse
import NativeGuard.Protocol.ToolsList

/-!
# Inspecting a server behind the guard

`inspect` may be pointed at a guarded server, and then it reads the answers that the guard
has rewritten. What it reads of an answer of the server it reads of the rewritten one too,
without the tools that the policy hides (`parse_rewritten`); and which of these answers
reach it behind the guard is decided by their end and by the nesting limit
(`inspected_behind_guard`).
-/

namespace NativeGuard.Protocol.Inventory

open Json Data Proxy

variable {limits : InventoryLimits} {core : ProxyCore}

/-! ## §1  What is shown -/

/-- The policy shows the tool of the entry. -/
def shows (core : ProxyCore) (entry : ToolInventoryEntry) : Bool :=
  (core.authorizeToolVisibility entry.name).shouldForward

/-- The inventory without the tools that the policy hides. -/
def shown (core : ProxyCore) (inventory : ToolInventory) : ToolInventory :=
  { inventory with tools := inventory.tools.filter (shows core) }

/-! ## §2  Tools -/

/-- The rewriter and the parser of `inspect` read the same name. -/
theorem toolName_entry {v : Value} (h : IsTool limits v) : toolName v = (entryOf v).name := by
  obtain ⟨gap, ms, rfl, hms⟩ := h
  obtain ⟨w, hw, -⟩ : ∃ w, valuesAt (ascii "name") ms = [w] ∧ toolMemberOk limits _ w :=
    hms.single List.mem_cons_self List.mem_cons_self
  simp [toolName, entryOf, membersOf, hw]

theorem visible_entry {v : Value} (h : IsTool limits v) :
    visible core v = shows core (entryOf v) := by
  unfold visible shows
  rw [toolName_entry h]

theorem entries_kept {es : List (Element Value)} (h : ∀ e ∈ es, IsTool limits e.value) :
    (kept core es).map (fun e => entryOf e.value) =
      (es.map fun e => entryOf e.value).filter (shows core) := by
  unfold kept
  rw [List.map_map, List.filter_map]
  have hfilter : es.filter (fun e => visible core e.value) =
      es.filter (shows core ∘ fun e => entryOf e.value) := by
    apply List.filter_congr
    intro e he
    exact visible_entry (h e he)
  rw [hfilter]
  rfl

/-- What is left of a list of tools is a list of tools. -/
theorem isTools_filterTools {v : Value} (h : IsTools limits v) :
    IsTools limits (filterTools core v) ∧
      entriesOf (filterTools core v) = (entriesOf v).filter (shows core) := by
  obtain ⟨⟨gap, es, rfl⟩, hcount, htools, hdistinct⟩ := h
  have hentries : entriesOf (filterTools core (.arr gap es)) =
      (entriesOf (.arr gap es)).filter (shows core) := entries_kept htools
  refine ⟨⟨⟨noGap, kept core es, rfl⟩, ?_, ?_, ?_⟩, hentries⟩
  · show (kept core es).length ≤ limits.maxTools
    unfold kept
    rw [List.length_map]
    exact (List.length_filter_le _ _).trans hcount
  · intro e he
    obtain ⟨e₀, he₀, rfl⟩ := List.mem_map.mp he
    exact htools e₀ (List.mem_filter.mp he₀).1
  · rw [hentries]
    exact hdistinct.sublist (List.filter_sublist.map _)

/-- The one list of tools in a result. -/
theorem isResult_tools {r : Value} (h : IsResult limits r) :
    ∃ gap ms v, r = .obj gap ms ∧
      OnceMembers resultKeys [ascii "tools"] (resultMemberOk limits) ms ∧
        valuesAt (ascii "tools") ms = [v] ∧ IsTools limits v ∧ toolsOf r = entriesOf v := by
  obtain ⟨gap, ms, rfl, hms⟩ := h
  obtain ⟨v, hv, hok⟩ : ∃ v, valuesAt (ascii "tools") ms = [v] ∧ resultMemberOk limits _ v :=
    hms.single List.mem_cons_self List.mem_cons_self
  unfold resultMemberOk at hok
  rw [if_pos rfl] at hok
  refine ⟨gap, ms, v, rfl, hms, hv, hok, ?_⟩
  unfold toolsOf membersOf
  rw [hv, List.flatMap_singleton]

theorem isResult_filterResult {r : Value} (h : IsResult limits r) :
    IsResult limits (filterResult core r) ∧
      toolsOf (filterResult core r) = (toolsOf r).filter (shows core) := by
  obtain ⟨gap, ms, v, rfl, hms, hv, htools, heq⟩ := isResult_tools h
  constructor
  · refine ⟨gap, _, rfl, onceMembers_mapAt hms fun w hw => ?_⟩
    unfold resultMemberOk at hw ⊢
    rw [if_pos rfl] at hw ⊢
    exact (isTools_filterTools hw).1
  · rw [heq, ← (isTools_filterTools htools).2]
    show (valuesAt (ascii "tools") (mapAt (ascii "tools") (filterTools core) ms)).flatMap
      entriesOf = _
    rw [valuesAt_mapAt, hv, List.map_singleton, List.flatMap_singleton]

/-! ## §3  Answers -/

section answers

variable {expectedIdJson downstreamExecutable : Bytes} {ms : List (Member Value)}

theorem isResponse_filtered (h : IsResponse limits (IsResult limits) expectedIdJson ms) :
    IsResponse limits (IsResult limits) expectedIdJson (filtered core ms) := by
  have hother : ∀ key ∈ [ascii "jsonrpc", ascii "id", ascii "method", ascii "error"],
      valuesAt key (filtered core ms) = valuesAt key ms := by
    intro key hkey
    apply valuesAt_mapAt_of_ne
    rintro rfl
    revert hkey
    decide
  obtain ⟨r, hr⟩ := h.result
  have hresult : valuesAt (ascii "result") (filtered core ms) = [filterResult core r] := by
    unfold filtered
    rw [valuesAt_mapAt, hr]
    rfl
  refine ⟨⟨?_, ?_, ?_, ?_, ⟨_, hresult⟩, ?_⟩, ?_, ?_⟩
  · exact forall_mem_mapAt (p := fun key _ => 0x5C ∉ key) h.keys fun _ hv => hv
  · rw [hother _ (by decide)]
    exact h.version
  · rw [hother _ (by decide)]
    exact h.id
  · rw [hother _ (by decide)]
    exact h.method
  · rw [hother _ (by decide)]
    exact h.error
  · rw [hresult]
    exact List.forall_mem_singleton.mpr
      (isResult_filterResult (h.accepted r (by simp [hr]))).1
  · -- the member that is changed is one that the parser knows
    refine forall_mem_mapAt (p := fun key v => key ∉ responseKeys →
      1 + v.nesting ≤ limits.maxNestingDepth) h.others ?_
    intro v _ hkey
    exact absurd responseKeys_mem.2.2.2.1 hkey

theorem tools_distinct (h : IsResponse limits (IsResult limits) expectedIdJson ms) :
    (((valuesAt (ascii "result") ms).flatMap toolsOf).map ToolInventoryEntry.name).Nodup := by
  obtain ⟨r, hr⟩ := h.result
  obtain ⟨-, -, v, -, -, -, htools, heq⟩ := isResult_tools (h.accepted r (by simp [hr]))
  rw [hr, List.flatMap_singleton, heq]
  exact htools.distinct

theorem inventory_filtered (h : IsResponse limits (IsResult limits) expectedIdJson ms) :
    inventoryOf downstreamExecutable (filtered core ms) =
      shown core (inventoryOf downstreamExecutable ms) := by
  obtain ⟨r, hr⟩ := h.result
  have hdistinct := tools_distinct h
  unfold inventoryOf shown filtered
  rw [valuesAt_mapAt]
  rw [hr, List.flatMap_singleton] at hdistinct ⊢
  rw [List.map_singleton, List.flatMap_singleton,
    (isResult_filterResult (h.accepted r (by simp [hr]))).2, sortOn_filter _ _ hdistinct]

variable {message text : Bytes} {maxDepth : Nat} {removedTools : List Bytes}
  {inventory : ToolInventory}

/-- What the parser reads of a rewritten answer is what is shown of the answer. -/
theorem parse_rewritten
    (hparse : parseToolsListResponse limits message expectedIdJson downstreamExecutable =
      .ok inventory)
    (hrewrite : rewriteToolsListResponse message maxDepth core = .rewritten text removedTools) :
    parseToolsListResponse limits text expectedIdJson downstreamExecutable =
      .ok (shown core inventory) := by
  obtain ⟨hsize, ms, htext, hms, rfl⟩ := parseToolsListResponse_ok.mp hparse
  obtain ⟨exit, tail, hdoc, hexit⟩ := (documentText_cases hms.ne_nil).mpr htext
  obtain ⟨-, -, -, -, -, -, -, -, -, -, hlength, -⟩ := rewrite_splices hdoc hrewrite
  have hfiltered := @isResponse_filtered limits core _ _ hms
  refine parseToolsListResponse_ok.mpr ⟨hlength.trans hsize, filtered core ms, ?_, hfiltered,
    (inventory_filtered hms).symm⟩
  apply (documentText_cases hfiltered.ne_nil).mp
  exact ⟨exit, tail, (rewritten_text hdoc hrewrite).1, hexit⟩

end answers

/-! ## §4  The hidden tools -/

theorem hidden_entries {es : List (Element Value)} (h : ∀ e ∈ es, IsTool limits e.value) :
    hidden core es = (((es.map fun e => entryOf e.value).filter fun entry =>
      !shows core entry).map ToolInventoryEntry.name) := by
  unfold hidden
  rw [List.filter_map, List.map_map]
  have hfilter : es.filter (fun e => !visible core e.value) =
      es.filter ((fun entry => !shows core entry) ∘ fun e => entryOf e.value) := by
    apply List.filter_congr
    intro e he
    exact congrArg (!·) (visible_entry (h e he))
  rw [hfilter]
  apply List.map_congr_left
  intro e he
  exact toolName_entry (h e (List.mem_filter.mp he).1)

section hidden

variable {expectedIdJson downstreamExecutable : Bytes} {ms : List (Member Value)}

/-- The names that the rewriter hides are those that the inventory loses. -/
theorem hiddenTools_inventory
    (h : IsResponse limits (IsResult limits) expectedIdJson ms) :
    (hiddenTools core ms).Perm (((inventoryOf downstreamExecutable ms).tools.filter fun entry =>
      !shows core entry).map ToolInventoryEntry.name) := by
  obtain ⟨r, hr⟩ := h.result
  obtain ⟨gap, rms, v, rfl, -, hv, htools, heq⟩ := isResult_tools (h.accepted r (by simp [hr]))
  have hnames : hiddenTools core ms = (((entriesOf v).filter fun entry =>
      !shows core entry).map ToolInventoryEntry.name) := by
    unfold hiddenTools membersOf
    rw [hr, List.flatMap_singleton, hv, List.flatMap_singleton]
    exact hidden_entries htools.tools
  have hsorted : (inventoryOf downstreamExecutable ms).tools =
      sortOn ToolInventoryEntry.name (entriesOf v) := by
    unfold inventoryOf
    rw [hr, List.flatMap_singleton, heq]
  rw [hnames, hsorted]
  -- the rewriter reports them in the order of the answer
  exact (((sortOn_perm _ _).filter _).map _).symm

end hidden

/-! ## §5  Behind the guard -/

section guard

variable {f : ToolCallFilter} {message text expectedIdJson downstreamExecutable : Bytes}
  {ms : List (Member Value)} {inventory : ToolInventory} {r : Value}

/-- What the parser of `inspect` takes for a list has the shape that the guard asks for. -/
theorem toolsResult_of_isResult (h : IsResult limits r) : ToolsResult r := by
  obtain ⟨gap, rms, v, rfl, hrms, hv, ⟨⟨gap', es, rfl⟩, -, htools, -⟩, -⟩ := isResult_tools h
  refine ⟨gap, rms, rfl, hrms.keys, gap', es, hv, fun e he => ?_⟩
  obtain ⟨gap'', tool, heq, htool⟩ := htools e he
  obtain ⟨w, hw, hname⟩ : ∃ w, valuesAt (ascii "name") tool = [w] ∧ toolMemberOk limits _ w :=
    htool.single List.mem_cons_self List.mem_cons_self
  unfold toolMemberOk at hname
  rw [if_pos rfl] at hname
  obtain ⟨t, rfl, hescape, hne, -⟩ := hname
  exact ⟨gap'', tool, heq, htool.keys, t, hw, hescape, hne⟩

theorem noTools_iff (h : IsResult limits r) : NoTools r ↔ toolsOf r = [] := by
  obtain ⟨gap, rms, v, rfl, -, hv, ⟨⟨gap', es, rfl⟩, -⟩, heq⟩ := isResult_tools h
  rw [heq]
  unfold NoTools membersOf
  rw [hv]
  cases es with
  | nil => exact iff_of_true ⟨gap', rfl⟩ rfl
  | cons e es =>
      refine iff_of_false ?_ (List.cons_ne_nil _ _)
      rintro ⟨gap'', hgap⟩
      cases hgap

/-- What the guard delivers of a list that is awaited is its rewriting. -/
theorem rewritten_of_delivered {exit : LoopExit} {tail : Bytes}
    (hresponds : f.RespondsTo expectedIdJson message) (hpending : expectedIdJson ∈ f.pending.ids)
    (hdoc : DocumentText exit ms tail message) (hresult : valuesAt (ascii "result") ms ≠ [])
    (hdelivered : f.delivered message = some text) :
    ∃ removedTools, rewriteToolsListResponse message f.config.runtime.maxNestingDepth f.core =
        .rewritten text removedTools ∧
      (f.inspectServer message).events = removedTools.map
        (ToolCallFilter.hiddenEvent (classify f.config.runtime message) message) := by
  obtain ⟨herror, hkind, rfl⟩ := hresponds
  unfold ToolCallFilter.delivered at hdelivered
  rw [ToolCallFilter.inspectServer_of_pending herror hkind hpending] at hdelivered ⊢
  unfold ToolCallFilter.filterResponse at hdelivered ⊢
  cases hrewrite : rewriteToolsListResponse message f.config.runtime.maxNestingDepth f.core with
  | malformed =>
      rw [hrewrite] at hdelivered
      cases hdelivered
  | passthrough =>
      exact absurd ((rewrite_passthrough_iff hdoc).mp hrewrite).2.1 hresult
  | rewritten out removedTools =>
      rw [hrewrite] at hdelivered
      cases hdelivered
      exact ⟨removedTools, rfl, rfl⟩

/-- An answer that `inspect` would accept from the server itself reaches it behind the guard
exactly if it does not break off, unless the limit is two and it lists no tool. Then
`inspect` reads the inventory that the policy shows of it, and the guard reports the names
of the others. -/
theorem inspected_behind_guard
    (hparse : parseToolsListResponse limits message expectedIdJson downstreamExecutable =
      .ok inventory)
    (hresponds : f.RespondsTo expectedIdJson message)
    (hpending : expectedIdJson ∈ f.pending.ids) :
    ((f.delivered message).isSome = true ↔ WellFormed message ∧
      ¬ (f.config.runtime.maxNestingDepth = 2 ∧ inventory.tools = [])) ∧
    ∀ text, f.delivered message = some text →
      parseToolsListResponse limits text expectedIdJson downstreamExecutable =
          .ok (shown f.core inventory) ∧
        ((f.inspectServer message).events.map fun event => event.toolName).Perm
          ((inventory.tools.filter fun entry => !shows f.core entry).map
            ToolInventoryEntry.name) := by
  obtain ⟨-, ms, htext, hms, rfl⟩ := parseToolsListResponse_ok.mp hparse
  obtain ⟨exit, tail, hdoc, hexit⟩ := (documentText_cases hms.ne_nil).mpr htext
  obtain ⟨r, hr⟩ := hms.result
  have hresult : valuesAt (ascii "result") ms ≠ [] := by
    rw [hr]
    exact List.cons_ne_nil _ _
  have hlist : IsResult limits r := hms.accepted r (by simp [hr])
  refine ⟨⟨fun hsome => ?_, ?_⟩, fun text hdelivered => ?_⟩
  · obtain ⟨text, hdelivered⟩ := Option.isSome_iff_exists.mp hsome
    obtain ⟨removedTools, hrewrite, -⟩ :=
      rewritten_of_delivered hresponds hpending hdoc hresult hdelivered
    obtain ⟨⟨hcut, hmembers⟩, -⟩ := (rewrite_rewritten_iff hdoc).mp hrewrite
    -- an array that the rewriter reads lies at the third level
    obtain ⟨-, -, -, -, hthree, -⟩ := hmembers.site hresult
    obtain ⟨gap, hwhole⟩ :=
      isText_of_documentText hdoc (LoopExit.whole_iff.mpr ⟨hexit, hcut⟩)
    exact ⟨⟨_, hwhole⟩, fun htwo => by omega⟩
  · rintro ⟨⟨v, hv⟩, hlimit⟩
    obtain ⟨herror, hkind, rfl⟩ := hresponds
    obtain ⟨gap, hwhole⟩ := htext.resolve_left fun hdangling => by
      obtain ⟨gap, ms', rfl⟩ := object_of_documentText hdoc hv
      exact hdangling.not_isObjectText ⟨gap, ms', hv⟩
    obtain ⟨hdepth, hreplaced, -⟩ := answer_cases hwhole herror hkind hpending
      (r := r) (by simp [hr])
    have hreplace := hreplaced ((result_fits hdepth).mpr ⟨toolsResult_of_isResult hlist, ?_⟩)
    · unfold ToolCallFilter.delivered
      rw [hreplace]
      rfl
    · rintro ⟨htwo, hnone⟩
      refine hlimit ⟨htwo, ?_⟩
      rw [noTools_iff hlist] at hnone
      unfold inventoryOf
      rw [hr, List.flatMap_singleton, hnone]
      rfl
  · obtain ⟨removedTools, hrewrite, hevents⟩ :=
      rewritten_of_delivered hresponds hpending hdoc hresult hdelivered
    refine ⟨parse_rewritten hparse hrewrite, ?_⟩
    rw [hevents, List.map_map, (rewritten_text hdoc hrewrite).2]
    have hnames : (hiddenTools f.core ms).map ((fun event => event.toolName) ∘
        ToolCallFilter.hiddenEvent (classify f.config.runtime message) message) =
          hiddenTools f.core ms := List.map_id _
    rw [hnames]
    exact hiddenTools_inventory hms

/-- A server lists `x` to a guard that hides it. -/
theorem inspected_behind_guard_example : ∃ text,
    (listening 64).delivered ToolCallFilter.listResponse = some text ∧
      parseToolsListResponse {} text (ascii "1") (ascii "s") = .ok ⟨ascii "s", []⟩ := by
  have hparse : parseToolsListResponse {} ToolCallFilter.listResponse (ascii "1") (ascii "s") =
      .ok ⟨ascii "s", [{ name := ascii "x" }]⟩ := by decide +kernel
  have hwaits : (listening 64).RespondsTo (ascii "1") ToolCallFilter.listResponse ∧
      ascii "1" ∈ (listening 64).pending.ids ∧
      (listening 64).config.runtime.maxNestingDepth ≠ 2 ∧
      shows (listening 64).core { name := ascii "x" } = false := by decide +kernel
  obtain ⟨hresponds, hpending, hlimit, hhidden⟩ := hwaits
  obtain ⟨hdelivered, hread⟩ := inspected_behind_guard hparse hresponds hpending
  obtain ⟨text, htext⟩ := Option.isSome_iff_exists.mp
    (hdelivered.mpr ⟨⟨_, ToolCallFilter.isText_listTree⟩, fun h => hlimit h.1⟩)
  refine ⟨text, htext, (hread text htext).1.trans ?_⟩
  unfold shown
  rw [List.filter_cons_of_neg (by simp [hhidden])]
  rfl

end guard

end NativeGuard.Protocol.Inventory

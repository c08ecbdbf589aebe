import NativeGuard.Json.Site
import NativeGuard.Protocol.InventoryResponse
import NativeGuard.Protocol.Extractor
import NativeGuard.Protocol.Rewrite
import NativeGuard.Security.PolicyGenerator

/-!
# The places of a tool name

Five parsers read the name of a tool with code of their own. For each of them, a
document that it accepts with one string in the place of a name is accepted with
another exactly if the parser accepts that name; the lemmas go up from the tool to the
members of the document. The extractor asks only that the name is free of escapes, the
other four ask for a `PlainName`.
-/

namespace NativeGuard.Security

open Json Protocol Proxy

/-! ## §1  The places of a name -/

/-- `params.name` in a `tools/call` message. -/
structure CallSite where
  params : MemberSite
  name : MemberSite
  paramsKey : params.member.key.val = ascii "params"
  nameKey : name.member.key.val = ascii "name"

def CallSite.fill (site : CallSite) (w : Value) : Value :=
  site.params.fill (site.name.fill w)

/-- The name of one tool of the array `tools`. -/
structure ToolSite where
  tools : MemberSite
  tool : ElementSite
  name : MemberSite
  toolsKey : tools.member.key.val = ascii "tools"
  nameKey : name.member.key.val = ascii "name"

namespace ToolSite

def toolWith (site : ToolSite) (w : Value) : Value := site.tool.fill (site.name.fill w)

def fill (site : ToolSite) (w : Value) : Value := site.tools.fill (site.toolWith w)

/-- No other tool of the array has the name. -/
def Fresh (site : ToolSite) (name : Bytes) : Prop :=
  ∀ e ∈ site.tool.pre ++ site.tool.post, PolicyGenerator.nameOf e.value ≠ name

end ToolSite

/-- The name of one tool of `result.tools` in a response. -/
structure ResponseSite extends ToolSite where
  result : MemberSite
  resultKey : result.member.key.val = ascii "result"

def ResponseSite.fill (site : ResponseSite) (w : Value) : Value :=
  site.result.fill (site.toToolSite.fill w)

/-- What a name must be. -/
def PlainName (t : StringText) : Prop := 0x5C ∉ t.val ∧ t.val ≠ []

theorem isName_str {t : StringText} : PolicyLoader.IsName (.str t) ↔ PlainName t := by
  constructor
  · rintro ⟨t', ht, hname⟩
    cases ht
    exact hname
  · intro hname
    exact ⟨t, rfl, hname⟩

/-! ## §2  The extractor -/

theorem paramsMembers_fill {maxDepth : Nat} {site : MemberSite}
    (hkey : site.member.key.val = ascii "name") {t t' : StringText}
    (h : ParamsMembers maxDepth (site.members (.str t))) :
    ParamsMembers maxDepth (site.members (.str t')) ↔ 0x5C ∉ t'.val := by
  obtain ⟨u, hu, -⟩ := h.name
  have hvalue := MemberSite.valuesAt_of_singleton hkey (by rw [hu]; exact le_refl 1)
    (.str t')
  constructor
  · intro h'
    obtain ⟨u', hu', hesc⟩ := h'.name
    rw [hvalue] at hu'
    cases hu'
    exact hesc
  · intro hesc
    refine ⟨MemberSite.forall_mem_of_forall h.keys id, ⟨t', hvalue, hesc⟩, ?_, ?_⟩
    · rw [MemberSite.valuesAt_length _ _ (.str t)]
      exact h.arguments
    · exact MemberSite.forall_mem_of_forall h.nested fun _ hne => absurd hkey hne

theorem extractMembers_fill {maxDepth : Nat} {site : MemberSite}
    (hkey : site.member.key.val = ascii "params") {gap : Gap} {v : Value}
    {ps : List (Member Value)} (h : ExtractMembers maxDepth (site.members v)) :
    ExtractMembers maxDepth (site.members (.obj gap ps)) ↔ ParamsMembers maxDepth ps := by
  obtain ⟨_, _, hu, -⟩ := h.params
  have hvalue := MemberSite.valuesAt_of_singleton hkey (by rw [hu]; exact le_refl 1)
    (.obj gap ps)
  constructor
  · intro h'
    obtain ⟨_, _, hu', hps⟩ := h'.params
    rw [hvalue] at hu'
    cases hu'
    exact hps
  · intro hps
    refine ⟨MemberSite.forall_mem_of_forall h.keys id, ⟨gap, ps, hvalue, hps⟩, ?_⟩
    exact MemberSite.forall_mem_of_forall h.nested fun _ hne => absurd hkey hne

/-! ## §3  The filter -/

section filter

variable {maxDepth : Nat} {site : MemberSite} {v w : Value}

theorem isTool_fill (hkey : site.member.key.val = ascii "name") {t t' : StringText}
    (h : IsTool maxDepth (site.fill (.str t))) :
    IsTool maxDepth (site.fill (.str t')) ↔ PlainName t' := by
  obtain ⟨hdepth, _, _, hobj, hall, u, hu, -⟩ := h
  cases hobj
  have hvalue := MemberSite.valuesAt_of_singleton hkey (by rw [hu]; exact le_refl 1)
    (.str t')
  constructor
  · rintro ⟨-, _, _, hobj, -, u', hu', hname⟩
    cases hobj
    rw [hvalue] at hu'
    cases hu'
    exact hname
  · rintro ⟨hesc, hne⟩
    refine ⟨hdepth, _, _, rfl, ?_, t', hvalue, hesc, hne⟩
    exact MemberSite.forall_mem_of_forall hall fun hmember =>
      ⟨hmember.1, fun hne => absurd hkey hne⟩

theorem isToolsArray_fill {site : ElementSite} (h : IsToolsArray maxDepth (site.fill v)) :
    IsToolsArray maxDepth (site.fill w) ↔ IsTool maxDepth w := by
  obtain ⟨hdepth, _, _, harr, hall⟩ := h
  cases harr
  constructor
  · rintro ⟨-, _, _, harr, hall'⟩
    cases harr
    exact (ElementSite.forall_elements.mp hall').2
  · intro htool
    exact ⟨hdepth, _, _, rfl,
      ElementSite.forall_elements.mpr ⟨(ElementSite.forall_elements.mp hall).1, htool⟩⟩

theorem isResult_fill (hkey : site.member.key.val = ascii "tools")
    (h : IsResult maxDepth (site.fill v)) :
    IsResult maxDepth (site.fill w) ↔ IsToolsArray maxDepth w := by
  have hok : ∀ u, resultMemberOk maxDepth (site.memberWith u).key.val u ↔
      IsToolsArray maxDepth u := by
    intro u
    have hkey' : (site.memberWith u).key.val = ascii "tools" := hkey
    unfold resultMemberOk
    rw [if_pos hkey']
  obtain ⟨hdepth, _, _, hobj, hall, u, hu⟩ := h
  cases hobj
  constructor
  · rintro ⟨-, _, _, hobj, hall', -⟩
    cases hobj
    exact (hok w).mp ((MemberSite.forall_members.mp hall').2).2
  · intro htools
    refine ⟨hdepth, _, _, rfl, ?_, w, ?_⟩
    · exact MemberSite.forall_mem_of_forall hall fun hmember =>
        ⟨hmember.1, (hok w).mpr htools⟩
    · exact MemberSite.valuesAt_of_singleton hkey (by rw [hu]; exact le_refl 1) w

theorem responseMembers_fill (hkey : site.member.key.val = ascii "result")
    (h : ResponseMembers maxDepth (site.members v)) :
    ResponseMembers maxDepth (site.members w) ↔ IsResult maxDepth w := by
  have hok : ∀ u, responseMemberOk maxDepth (site.memberWith u).key.val u ↔
      IsResult maxDepth u := by
    intro u
    have hkey' : (site.memberWith u).key.val = ascii "result" := hkey
    unfold responseMemberOk
    rw [if_pos hkey']
  constructor
  · intro h'
    exact (hok w).mp ((MemberSite.forall_members.mp h'.members).2).2
  · intro hresult
    refine ⟨?_, ?_, ?_⟩
    · exact MemberSite.forall_mem_of_forall h.members fun hmember =>
        ⟨hmember.1, (hok w).mpr hresult⟩
    · rw [MemberSite.valuesAt_length _ _ v]
      exact h.result
    · rw [MemberSite.valuesAt_length _ _ v]
      exact h.error

end filter

/-! ## §4  The inventory parser -/

section inventory

variable {limits : InventoryLimits} {site : MemberSite} {v w : Value}

theorem onceMembers_fill {known required : List Bytes} {ok : Bytes → Value → Prop}
    (h : OnceMembers known required ok (site.members v)) :
    OnceMembers known required ok (site.members w) ↔ ok site.member.key.val w := by
  constructor
  · intro h'
    exact (MemberSite.forall_members.mp h'.values).2
  · intro hok
    refine ⟨MemberSite.forall_mem_of_forall h.keys id, fun key hkey => ?_,
      fun key hkey => ?_, MemberSite.forall_mem_of_forall h.values fun _ => hok⟩
    · rw [MemberSite.valuesAt_length _ _ v]
      exact h.once key hkey
    · have hpresent := h.present key hkey
      rw [← List.length_pos_iff, MemberSite.valuesAt_length _ _ v, List.length_pos_iff]
      exact hpresent

theorem inventory_isTool_fill (hkey : site.member.key.val = ascii "name")
    {t t' : StringText} (hlength : t'.val.length ≤ limits.maxToolNameBytes)
    (h : Inventory.IsTool limits (site.fill (.str t))) :
    Inventory.IsTool limits (site.fill (.str t')) ↔ PlainName t' := by
  obtain ⟨_, _, hobj, hms⟩ := h
  cases hobj
  have hok : Inventory.toolMemberOk limits site.member.key.val (.str t') ↔ PlainName t' := by
    unfold Inventory.toolMemberOk
    rw [if_pos hkey]
    constructor
    · rintro ⟨u, hu, hesc, hne, -⟩
      cases hu
      exact ⟨hesc, hne⟩
    · rintro ⟨hesc, hne⟩
      exact ⟨t', rfl, hesc, hne, hlength⟩
  rw [← hok, ← onceMembers_fill hms]
  constructor
  · rintro ⟨_, _, hobj, hms'⟩
    cases hobj
    exact hms'
  · intro hms'
    exact ⟨_, _, rfl, hms'⟩

theorem nameOf_fill (hkey : site.member.key.val = ascii "name") {t : StringText}
    (hone : (valuesAt (ascii "name") (site.members v)).length ≤ 1) :
    PolicyGenerator.nameOf (site.fill (.str t)) = t.val := by
  unfold PolicyGenerator.nameOf PolicyLoader.nameAt MemberSite.fill membersOf
  rw [MemberSite.valuesAt_of_singleton hkey hone]
  rfl

theorem entryOf_name (h : Inventory.IsTool limits v) :
    (Inventory.entryOf v).name = PolicyGenerator.nameOf v := by
  obtain ⟨gap, ms, rfl, hms⟩ := h
  obtain ⟨u, hu, -⟩ := hms.single List.mem_cons_self List.mem_cons_self
  unfold Inventory.entryOf PolicyGenerator.nameOf PolicyLoader.nameAt membersOf
  dsimp only
  rw [hu]
  simp

theorem inventory_isTools_fill {site : ElementSite} (h : Inventory.IsTools limits (site.fill v))
    (hnew : ∀ e ∈ site.pre ++ site.post,
      PolicyGenerator.nameOf e.value ≠ PolicyGenerator.nameOf w) :
    Inventory.IsTools limits (site.fill w) ↔ Inventory.IsTool limits w := by
  constructor
  · intro h'
    exact h'.tools (site.elementWith w) (site.elementWith_mem w)
  · intro htool
    have hothers := (ElementSite.forall_elements.mp h.tools).1
    refine ⟨⟨_, _, rfl⟩, ?_, ElementSite.forall_elements.mpr ⟨hothers, htool⟩, ?_⟩
    · show (site.elements w).length ≤ _
      rw [site.elements_length w v]
      exact h.count
    · have hdistinct := h.distinct
      unfold Inventory.entriesOf at hdistinct ⊢
      rw [List.map_map] at hdistinct ⊢
      refine ElementSite.nodup_map hdistinct fun e he => ?_
      show (Inventory.entryOf e.value).name ≠ (Inventory.entryOf w).name
      rw [entryOf_name (hothers e he), entryOf_name htool]
      exact hnew e he

theorem inventory_isResult_fill (hkey : site.member.key.val = ascii "tools")
    (h : Inventory.IsResult limits (site.fill v)) :
    Inventory.IsResult limits (site.fill w) ↔ Inventory.IsTools limits w := by
  obtain ⟨_, _, hobj, hms⟩ := h
  cases hobj
  have hok : Inventory.resultMemberOk limits site.member.key.val w ↔
      Inventory.IsTools limits w := by
    unfold Inventory.resultMemberOk
    rw [if_pos hkey]
  rw [← hok, ← onceMembers_fill hms]
  constructor
  · rintro ⟨_, _, hobj, hms'⟩
    cases hobj
    exact hms'
  · intro hms'
    exact ⟨_, _, rfl, hms'⟩

theorem inventory_isResponse_fill {resultOk : Value → Prop} {expectedIdJson : Bytes}
    (hkey : site.member.key.val = ascii "result")
    (h : Inventory.IsResponse limits resultOk expectedIdJson (site.members v)) :
    Inventory.IsResponse limits resultOk expectedIdJson (site.members w) ↔ resultOk w := by
  have hother : ∀ key, key ≠ ascii "result" →
      valuesAt key (site.members w) = valuesAt key (site.members v) := fun key hne =>
    MemberSite.valuesAt_of_ne (by rw [hkey]; exact hne.symm) w v
  have hvalue : valuesAt (ascii "result") (site.members w) = [w] := by
    obtain ⟨u, hu⟩ := h.result
    exact MemberSite.valuesAt_of_singleton hkey (by rw [hu]; exact le_refl 1) w
  constructor
  · intro h'
    exact h'.accepted w (by rw [hvalue]; exact List.mem_singleton.mpr rfl)
  · intro hok
    refine ⟨⟨MemberSite.forall_mem_of_forall h.keys id, ?_, ?_, ?_, ⟨w, hvalue⟩, ?_⟩,
      ?_, ?_⟩
    · rw [hother _ (by decide)]
      exact h.version
    · rw [hother _ (by decide)]
      exact h.id
    · rw [hother _ (by decide)]
      exact h.method
    · rw [hother _ (by decide)]
      exact h.error
    · rw [hvalue]
      exact List.forall_mem_singleton.mpr hok
    · refine MemberSite.forall_mem_of_forall h.others fun _ hne => absurd ?_ hne
      show site.member.key.val ∈ _
      rw [hkey]
      decide

end inventory

/-! ## §5  The policy loader -/

section loader

open PolicyLoader

variable {site : MemberSite} {v w : Value}

theorem isRule_fill (hkey : site.member.key.val = ascii "name") {t t' : StringText}
    (h : IsRule (site.fill (.str t))) : IsRule (site.fill (.str t')) ↔ PlainName t' := by
  obtain ⟨_, _, hobj, hms⟩ := h
  cases hobj
  obtain ⟨u, hu, -⟩ := hms.name
  have hvalue := MemberSite.valuesAt_of_singleton hkey (by rw [hu]; exact le_refl 1)
    (.str t')
  have hother : ∀ key, key ≠ ascii "name" →
      valuesAt key (site.members (.str t')) = valuesAt key (site.members (.str t)) :=
    fun key hne => MemberSite.valuesAt_of_ne (by rw [hkey]; exact hne.symm) _ _
  constructor
  · rintro ⟨_, _, hobj, hms'⟩
    cases hobj
    obtain ⟨u', hu', hname⟩ := hms'.name
    rw [hvalue] at hu'
    cases hu'
    exact isName_str.mp hname
  · intro hname
    refine ⟨_, _, rfl, MemberSite.forall_mem_of_forall hms.keys id,
      ⟨_, hvalue, isName_str.mpr hname⟩, ?_, ?_⟩
    · unfold HasAccess
      rw [hother _ (by decide)]
      exact hms.visibility
    · unfold HasAccess
      rw [hother _ (by decide)]
      exact hms.invocation

theorem isRules_fill {site : ElementSite} (h : IsRules (site.fill v)) :
    IsRules (site.fill w) ↔ IsRule w := by
  obtain ⟨_, _, harr, hall⟩ := h
  cases harr
  constructor
  · rintro ⟨_, _, harr, hall'⟩
    cases harr
    exact (ElementSite.forall_elements.mp hall').2
  · intro hrule
    exact ⟨_, _, rfl,
      ElementSite.forall_elements.mpr ⟨(ElementSite.forall_elements.mp hall).1, hrule⟩⟩

theorem isPolicy_fill (hkey : site.member.key.val = ascii "tools")
    (h : IsPolicy (site.members v)) : IsPolicy (site.members w) ↔ IsRules w := by
  have hother : ∀ key, key ≠ ascii "tools" →
      valuesAt key (site.members w) = valuesAt key (site.members v) := fun key hne =>
    MemberSite.valuesAt_of_ne (by rw [hkey]; exact hne.symm) w v
  have hvalue := MemberSite.valuesAt_of_singleton hkey h.tools w
  constructor
  · intro h'
    exact h'.rules w (by rw [hvalue]; exact List.mem_singleton.mpr rfl)
  · intro hrules
    refine ⟨MemberSite.forall_mem_of_forall h.keys id, ?_, ?_, ?_, ?_⟩
    · rw [hother _ (by decide)]
      exact h.version
    · rw [hother _ (by decide)]
      exact h.defaults
    · rw [hvalue]
      exact le_refl 1
    · rw [hvalue]
      exact List.forall_mem_singleton.mpr hrules

end loader

/-! ## §6  The policy generator -/

section generator

open PolicyGenerator

variable {limits : PolicyGeneratorLimits} {site : MemberSite} {v w : Value}

theorem generator_isTool_fill (hkey : site.member.key.val = ascii "name")
    {t t' : StringText} (hlength : t'.val.length ≤ limits.maxToolNameBytes)
    (h : PolicyGenerator.IsTool limits (site.fill (.str t))) :
    PolicyGenerator.IsTool limits (site.fill (.str t')) ↔ PlainName t' := by
  obtain ⟨_, _, hobj, hms⟩ := h
  cases hobj
  obtain ⟨u, hu, -⟩ := hms.name
  have hvalue := MemberSite.valuesAt_of_singleton hkey (by rw [hu]; exact le_refl 1)
    (.str t')
  constructor
  · rintro ⟨_, _, hobj, hms'⟩
    cases hobj
    obtain ⟨u', hu', hname, -⟩ := hms'.name
    rw [hvalue] at hu'
    cases hu'
    exact isName_str.mp hname
  · intro hname
    exact ⟨_, _, rfl, MemberSite.forall_mem_of_forall hms.keys id, _, hvalue,
      isName_str.mpr hname, hlength⟩

theorem generator_isTools_fill {site : ElementSite}
    (h : PolicyGenerator.IsTools limits (site.fill v))
    (hnew : ∀ e ∈ site.pre ++ site.post, nameOf e.value ≠ nameOf w) :
    PolicyGenerator.IsTools limits (site.fill w) ↔ PolicyGenerator.IsTool limits w := by
  constructor
  · intro h'
    exact h'.tools (site.elementWith w) (site.elementWith_mem w)
  · intro htool
    have hothers := (ElementSite.forall_elements.mp h.tools).1
    refine ⟨⟨_, _, rfl⟩, ?_, ElementSite.forall_elements.mpr ⟨hothers, htool⟩, ?_⟩
    · show (site.elements w).length ≤ _
      rw [site.elements_length w v]
      exact h.count
    · exact ElementSite.nodup_map (f := fun e => nameOf e.value) h.distinct hnew

theorem isInventory_fill (hkey : site.member.key.val = ascii "tools")
    (h : IsInventory limits (site.members v)) :
    IsInventory limits (site.members w) ↔ PolicyGenerator.IsTools limits w := by
  have hother : ∀ key, key ≠ ascii "tools" →
      valuesAt key (site.members w) = valuesAt key (site.members v) := fun key hne =>
    MemberSite.valuesAt_of_ne (by rw [hkey]; exact hne.symm) w v
  have hvalue : valuesAt (ascii "tools") (site.members w) = [w] := by
    obtain ⟨u, hu, -⟩ := h.tools
    exact MemberSite.valuesAt_of_singleton hkey (by rw [hu]; exact le_refl 1) w
  constructor
  · intro h'
    obtain ⟨u, hu, htools⟩ := h'.tools
    rw [hvalue] at hu
    cases hu
    exact htools
  · intro htools
    refine ⟨MemberSite.forall_mem_of_forall h.keys id, ?_, ?_, ⟨w, hvalue, htools⟩⟩
    · rw [hother _ (by decide)]
      exact h.version
    · rw [hother _ (by decide)]
      exact h.server

end generator

end NativeGuard.Security

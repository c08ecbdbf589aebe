import NativeGuard.Security.NamePlaces

/-!
# The five readers of a tool name

The `tools/call` extractor, the `tools/list` filter, the inventory parser, the policy
loader and the policy generator are each given a document that is valid but for one
name: it is accepted with some other string there. Four of the five then accept the
name exactly if it is not empty and free of escapes, and read it as it is spelled; the
extractor does not look for an empty one (`names_agree_iff`).
-/

namespace NativeGuard.Security

open Json Protocol Proxy

/-! ## §1  The name in a document -/

/-- `m` is the document with the name `t` in its place, and some other name there
makes it one that is accepted. -/
structure Placed (fill : Value → Value) (accepts : Bytes → Prop) (t : StringText)
    (m : Bytes) : Prop where
  text : IsText m (fill (.str t))
  valid : ∃ (t₀ : StringText) (m₀ : Bytes), IsText m₀ (fill (.str t₀)) ∧ accepts m₀

def ExtractorAccepts (limits : RuntimeLimits) (m : Bytes) : Prop :=
  ∃ params, extract limits m = .ok params

def ExtractorReads (limits : RuntimeLimits) (m name : Bytes) : Prop :=
  ∀ params, extract limits m = .ok params → params.name = name

theorem extractor_accepts {limits : RuntimeLimits} {site : CallSite} {t : StringText}
    {m : Bytes} (h : Placed site.fill (ExtractorAccepts limits) t m)
    (hsize : m.length ≤ limits.maxMessageBytes) :
    (ExtractorAccepts limits m ↔ 0x5C ∉ t.val) ∧ ExtractorReads limits m t.val := by
  obtain ⟨t₀, m₀, htext₀, params₀, hok₀⟩ := h.valid
  have hsize₀ : m₀.length ≤ limits.maxMessageBytes := by
    by_contra hlarge
    unfold extract at hok₀
    rw [if_pos (not_le.mp hlarge)] at hok₀
    cases hok₀
  obtain ⟨_, hdoc₀⟩ := documentText_of_isText htext₀
  obtain ⟨_, hdoc⟩ := documentText_of_isText h.text
  obtain ⟨hmembers₀, -⟩ :=
    (extract_of_text hsize₀ hdoc₀ (exitOf_ne_trailing _) _).mp hok₀
  have hparams₀ := (extractMembers_fill site.paramsKey hmembers₀).mp hmembers₀
  have hvalue : valuesAt (ascii "params") (site.params.members (site.name.fill (.str t))) =
      [site.name.fill (.str t)] := by
    obtain ⟨_, _, hu, -⟩ := hmembers₀.params
    exact MemberSite.valuesAt_of_singleton site.paramsKey (by rw [hu]; exact le_refl 1) _
  have hiff : ExtractMembers limits.maxNestingDepth
      (site.params.members (site.name.fill (.str t))) ↔ 0x5C ∉ t.val :=
    (extractMembers_fill site.paramsKey hmembers₀).trans
      (paramsMembers_fill site.nameKey hparams₀)
  constructor
  · rw [← hiff]
    constructor
    · rintro ⟨params, hok⟩
      exact ((extract_of_text hsize hdoc (exitOf_ne_trailing _) _).mp hok).1
    · intro hmembers
      exact ⟨_, (extract_of_text hsize hdoc (exitOf_ne_trailing _) _).mpr
        ⟨hmembers, _, _, hvalue, rfl⟩⟩
  · intro params hok
    obtain ⟨-, gap, ps, hps, rfl⟩ :=
      (extract_of_text hsize hdoc (exitOf_ne_trailing _) _).mp hok
    rw [hvalue] at hps
    cases hps
    obtain ⟨u, hu, -⟩ := hparams₀.name
    unfold determinedParams
    rw [MemberSite.valuesAt_of_singleton site.nameKey (by rw [hu]; exact le_refl 1)]
    rfl

def FilterAccepts (maxDepth : Nat) (core : ProxyCore) (m : Bytes) : Prop :=
  ∃ text removedTools,
    rewriteToolsListResponse m maxDepth core = .rewritten text removedTools

/-- The tool is removed under the name exactly if the policy hides this name. -/
def FilterReads (maxDepth : Nat) (core : ProxyCore) (m name : Bytes) : Prop :=
  ∀ text removedTools,
    rewriteToolsListResponse m maxDepth core = .rewritten text removedTools →
      (name ∈ removedTools ↔ ¬ (core.authorizeToolVisibility name).shouldForward = true)

theorem toolName_fill {site : MemberSite} {v : Value} {t : StringText}
    (hkey : site.member.key.val = ascii "name")
    (hone : (valuesAt (ascii "name") (site.members v)).length ≤ 1) :
    toolName (site.fill (.str t)) = t.val := by
  unfold MemberSite.fill toolName
  dsimp only
  rw [MemberSite.valuesAt_of_singleton hkey hone]
  rfl

theorem mem_hidden {core : ProxyCore} {es : List (Element Value)} {e : Element Value}
    (he : e ∈ es) : toolName e.value ∈ Protocol.hidden core es ↔
      ¬ (core.authorizeToolVisibility (toolName e.value)).shouldForward = true := by
  unfold Protocol.hidden
  simp only [List.mem_map, List.mem_filter, visible, Bool.not_eq_true']
  constructor
  · rintro ⟨e', ⟨-, hhidden⟩, hname⟩
    rw [← hname, hhidden]
    exact Bool.false_ne_true
  · intro hhidden
    exact ⟨e, ⟨he, by simpa using hhidden⟩, rfl⟩

/-- The name at the site of a response is removed exactly if the core hides it: the site
is the only tools array of the only result. -/
theorem mem_hiddenTools {maxDepth : Nat} {core : ProxyCore} {site : ResponseSite}
    {t₀ : StringText} (t : StringText)
    (hms : ResponseMembers maxDepth (site.result.members (site.toToolSite.fill (.str t₀)))) :
    t.val ∈ hiddenTools core (site.result.members (site.toToolSite.fill (.str t))) ↔
      ¬ (core.authorizeToolVisibility t.val).shouldForward = true := by
  have hresult := (responseMembers_fill site.resultKey hms).mp hms
  have htools := (isResult_fill site.toolsKey hresult).mp hresult
  have htool := (isToolsArray_fill htools).mp htools
  have hvalue := MemberSite.valuesAt_of_singleton site.resultKey hms.result
    (site.toToolSite.fill (.str t))
  obtain ⟨-, _, _, hobj, -, u, hu⟩ := hresult
  cases hobj
  have htoolsValue := MemberSite.valuesAt_of_singleton site.toolsKey
    (by rw [hu]; exact le_refl 1) (site.toolWith (.str t))
  have hhidden : hiddenTools core
      (site.result.members (site.toToolSite.fill (.str t))) =
        Protocol.hidden core (site.tool.elements (site.name.fill (.str t))) := by
    unfold hiddenTools
    rw [hvalue]
    unfold ToolSite.fill MemberSite.fill membersOf
    simp only [List.flatMap_singleton]
    rw [htoolsValue]
    simp [ToolSite.toolWith, ElementSite.fill, elementsOf, MemberSite.fill]
  obtain ⟨-, _, _, hobj, -, u', hu', -⟩ := htool
  cases hobj
  have hname : toolName (site.name.fill (.str t)) = t.val :=
    toolName_fill site.nameKey (by rw [hu']; exact le_refl 1)
  rw [hhidden, ← hname]
  exact mem_hidden (ElementSite.elementWith_mem (site.name.fill (.str t)))

theorem filter_accepts {maxDepth : Nat} {core : ProxyCore} {site : ResponseSite}
    {t : StringText} {m : Bytes} (h : Placed site.fill (FilterAccepts maxDepth core) t m) :
    (FilterAccepts maxDepth core m ↔ PlainName t) ∧ FilterReads maxDepth core m t.val := by
  obtain ⟨t₀, m₀, htext₀, text₀, removed₀, hok₀⟩ := h.valid
  obtain ⟨_, hdoc₀⟩ := documentText_of_isText htext₀
  obtain ⟨_, hdoc⟩ := documentText_of_isText h.text
  obtain ⟨⟨-, hms₀⟩, -, herror₀, -⟩ := (rewrite_rewritten_iff hdoc₀).mp hok₀
  have hresult₀ := (responseMembers_fill site.resultKey hms₀).mp hms₀
  have htools₀ := (isResult_fill site.toolsKey hresult₀).mp hresult₀
  have htool₀ := (isToolsArray_fill htools₀).mp htools₀
  have hiff : ResponseMembers maxDepth
      (site.result.members (site.toToolSite.fill (.str t))) ↔ PlainName t :=
    (responseMembers_fill site.resultKey hms₀).trans
      ((isResult_fill site.toolsKey hresult₀).trans
        ((isToolsArray_fill htools₀).trans (isTool_fill site.nameKey htool₀)))
  have hvalue := MemberSite.valuesAt_of_singleton site.resultKey hms₀.result
    (site.toToolSite.fill (.str t))
  have herror : valuesAt (ascii "error")
      (site.result.members (site.toToolSite.fill (.str t))) = [] := by
    rw [← herror₀]
    exact MemberSite.valuesAt_of_ne (by rw [site.resultKey]; decide) _ _
  constructor
  · rw [← hiff]
    constructor
    · rintro ⟨text, removed, hok⟩
      exact ((rewrite_rewritten_iff hdoc).mp hok).1.2
    · intro hms
      refine ⟨_, _, (rewrite_rewritten_iff hdoc).mpr
        ⟨⟨exitOf_ne_cut _, hms⟩, ?_, herror, rfl, rfl⟩⟩
      rw [hvalue]
      exact List.cons_ne_nil _ _
  · intro text removed hok
    obtain ⟨-, rfl⟩ := rewritten_text hdoc hok
    exact mem_hiddenTools t hms₀

def InventoryAccepts (limits : InventoryLimits) (expectedIdJson downstreamExecutable : Bytes)
    (m : Bytes) : Prop :=
  ∃ inventory, Inventory.parseToolsListResponse limits m expectedIdJson
    downstreamExecutable = .ok inventory

def InventoryReads (limits : InventoryLimits) (expectedIdJson downstreamExecutable : Bytes)
    (m name : Bytes) : Prop :=
  ∀ inventory, Inventory.parseToolsListResponse limits m expectedIdJson
    downstreamExecutable = .ok inventory → name ∈ inventory.tools.map ToolInventoryEntry.name

/-- The name at the site of a response is among the names of its inventory. -/
theorem mem_inventoryOf {limits : InventoryLimits}
    {expectedIdJson downstreamExecutable : Bytes} {site : ResponseSite} {t : StringText}
    (hms : Inventory.IsResponse limits (Inventory.IsResult limits) expectedIdJson
      (site.result.members (site.toToolSite.fill (.str t))))
    (htool : Inventory.IsTool limits (site.name.fill (.str t)))
    (hname : PolicyGenerator.nameOf (site.name.fill (.str t)) = t.val) :
    t.val ∈ (Inventory.inventoryOf downstreamExecutable
      (site.result.members (site.toToolSite.fill (.str t)))).tools.map
        ToolInventoryEntry.name := by
  have hvalue : valuesAt (ascii "result")
      (site.result.members (site.toToolSite.fill (.str t))) =
        [site.toToolSite.fill (.str t)] := by
    obtain ⟨u, hu⟩ := hms.result
    exact MemberSite.valuesAt_of_singleton site.resultKey (by rw [hu]; exact le_refl 1) _
  have hresult := hms.accepted (site.toToolSite.fill (.str t)) (by simp [hvalue])
  obtain ⟨_, _, hobj, hmembers⟩ := hresult
  cases hobj
  obtain ⟨u, hu, -⟩ := hmembers.single List.mem_cons_self List.mem_cons_self
  have hentries : valuesAt (ascii "tools") (site.tools.members (site.toolWith (.str t))) =
      [site.toolWith (.str t)] :=
    MemberSite.valuesAt_of_singleton site.toolsKey (by rw [hu]; exact le_refl 1) _
  have hmem : Inventory.entryOf (site.name.fill (.str t)) ∈
      (Inventory.inventoryOf downstreamExecutable
        (site.result.members (site.toToolSite.fill (.str t)))).tools := by
    show _ ∈ Data.sortOn _ _
    rw [Data.mem_sortOn, hvalue, List.flatMap_singleton]
    show _ ∈ (valuesAt (ascii "tools") (site.tools.members
      (site.toolWith (.str t)))).flatMap Inventory.entriesOf
    rw [hentries, List.flatMap_singleton]
    exact List.mem_map.mpr
      ⟨_, site.tool.elementWith_mem (site.name.fill (.str t)), rfl⟩
  refine List.mem_map.mpr ⟨_, hmem, ?_⟩
  rw [entryOf_name htool]
  exact hname

theorem inventory_accepts {limits : InventoryLimits}
    {expectedIdJson downstreamExecutable : Bytes} {site : ResponseSite} {t : StringText}
    {m : Bytes}
    (h : Placed site.fill (InventoryAccepts limits expectedIdJson downstreamExecutable) t m)
    (hsize : m.length ≤ limits.maxMessageBytes)
    (hlength : t.val.length ≤ limits.maxToolNameBytes) (hfresh : site.Fresh t.val) :
    (InventoryAccepts limits expectedIdJson downstreamExecutable m ↔ PlainName t) ∧
      InventoryReads limits expectedIdJson downstreamExecutable m t.val := by
  obtain ⟨t₀, m₀, htext₀, inventory₀, hok₀⟩ := h.valid
  have hsize₀ : m₀.length ≤ limits.maxMessageBytes := by
    by_contra hlarge
    unfold Inventory.parseToolsListResponse at hok₀
    rw [if_pos (not_le.mp hlarge)] at hok₀
    cases hok₀
  have hms₀ := ((Inventory.parseToolsListResponse_text htext₀ hsize₀).mp hok₀).1
  have hresult₀ := (inventory_isResponse_fill site.resultKey hms₀).mp hms₀
  have htools₀ := (inventory_isResult_fill site.toolsKey hresult₀).mp hresult₀
  have htool₀ := htools₀.tools _ (site.tool.elementWith_mem (site.name.fill (.str t₀)))
  have hname : PolicyGenerator.nameOf (site.name.fill (.str t)) = t.val := by
    obtain ⟨_, _, hobj, hmembers⟩ := htool₀
    cases hobj
    exact nameOf_fill site.nameKey (hmembers.once _ List.mem_cons_self)
  have htools : Inventory.IsTools limits (site.toolWith (.str t)) ↔ PlainName t :=
    (inventory_isTools_fill htools₀ (by rw [hname]; exact hfresh)).trans
      (inventory_isTool_fill site.nameKey hlength htool₀)
  have hiff : Inventory.IsResponse limits (Inventory.IsResult limits) expectedIdJson
      (site.result.members (site.toToolSite.fill (.str t))) ↔ PlainName t :=
    (inventory_isResponse_fill site.resultKey hms₀).trans
      ((inventory_isResult_fill site.toolsKey hresult₀).trans htools)
  constructor
  · rw [← hiff]
    constructor
    · rintro ⟨inventory, hok⟩
      exact ((Inventory.parseToolsListResponse_text h.text hsize).mp hok).1
    · intro hms
      exact ⟨_, (Inventory.parseToolsListResponse_text h.text hsize).mpr ⟨hms, rfl⟩⟩
  · intro inventory hok
    obtain ⟨hms, rfl⟩ := (Inventory.parseToolsListResponse_text h.text hsize).mp hok
    have htool : Inventory.IsTool limits (site.name.fill (.str t)) :=
      (htools.mpr (hiff.mp hms)).tools _
        (site.tool.elementWith_mem (site.name.fill (.str t)))
    exact mem_inventoryOf hms htool hname

def LoaderAccepts (config : PolicyLoader.Config) (m : Bytes) : Prop :=
  ∃ definition, PolicyLoader.parse config m = .ok definition

def LoaderReads (config : PolicyLoader.Config) (m name : Bytes) : Prop :=
  ∀ definition, PolicyLoader.parse config m = .ok definition →
    name ∈ definition.rules.map ToolRule.name

theorem fill_depth_str {site : ToolSite} (t t' : StringText) :
    (site.fill (.str t)).depth = (site.fill (.str t')).depth :=
  MemberSite.fill_depth (ElementSite.fill_depth (MemberSite.fill_depth rfl))

theorem loader_accepts {config : PolicyLoader.Config} {site : ToolSite} {t : StringText}
    {m : Bytes} (h : Placed site.fill (LoaderAccepts config) t m)
    (hsize : m.length ≤ config.maxFileBytes) (hfresh : site.Fresh t.val) :
    (LoaderAccepts config m ↔ PlainName t) ∧ LoaderReads config m t.val := by
  obtain ⟨t₀, m₀, htext₀, definition₀, hok₀⟩ := h.valid
  obtain ⟨-, hdepth₀, hpolicy₀, hdistinct₀, -⟩ := (PolicyLoader.parse_text htext₀).mp hok₀
  have hrules₀ := (isPolicy_fill site.toolsKey hpolicy₀).mp hpolicy₀
  have hrule₀ := (isRules_fill hrules₀).mp hrules₀
  have hiff : PolicyLoader.IsPolicy (site.tools.members (site.toolWith (.str t))) ↔
      PlainName t :=
    (isPolicy_fill site.toolsKey hpolicy₀).trans
      ((isRules_fill hrules₀).trans (isRule_fill site.nameKey hrule₀))
  have hname : PolicyGenerator.nameOf (site.name.fill (.str t)) = t.val := by
    obtain ⟨_, _, hobj, hmembers⟩ := hrule₀
    cases hobj
    obtain ⟨u, hu, -⟩ := hmembers.name
    exact nameOf_fill site.nameKey (by rw [hu]; exact le_refl 1)
  have hnames : ∀ u : StringText,
      (PolicyLoader.policyRules (site.tools.members (site.toolWith (.str u)))).map
        ToolRule.name = (site.tool.elements (site.name.fill (.str u))).map
          fun e => PolicyGenerator.nameOf e.value := by
    intro u
    unfold PolicyLoader.policyRules
    rw [MemberSite.valuesAt_of_singleton site.toolsKey hpolicy₀.tools,
      List.flatMap_singleton]
    show List.map _ (List.map _ _) = _
    rw [List.map_map]
    rfl
  have hdepth : (site.fill (.str t)).depth ≤ config.maxNestingDepth := by
    rw [fill_depth_str t t₀]
    exact hdepth₀
  constructor
  · rw [← hiff]
    constructor
    · rintro ⟨definition, hok⟩
      exact ((PolicyLoader.parse_text h.text).mp hok).2.2.1
    · intro hpolicy
      refine ⟨_, (PolicyLoader.parse_text h.text).mpr ⟨hsize, hdepth, hpolicy, ?_, rfl⟩⟩
      rw [hnames] at hdistinct₀ ⊢
      refine ElementSite.nodup_map hdistinct₀ fun e he => ?_
      show _ ≠ PolicyGenerator.nameOf (site.name.fill (.str t))
      rw [hname]
      exact hfresh e he
  · intro definition hok
    obtain ⟨-, -, -, -, rfl⟩ := (PolicyLoader.parse_text h.text).mp hok
    have hmem : t.val ∈ (PolicyLoader.policyRules
        (site.tools.members (site.toolWith (.str t)))).map ToolRule.name := by
      rw [hnames]
      exact List.mem_map.mpr ⟨_, site.tool.elementWith_mem _, hname⟩
    exact ((Data.sortOn_perm _ _).map ToolRule.name).mem_iff.mpr hmem

/-- With no tool to allow the generator looks at the inventory alone. -/
def GeneratorAccepts (limits : PolicyGeneratorLimits) (m : Bytes) : Prop :=
  ∃ text, PolicyGenerator.generatePolicyFromInventory limits m [] = .ok text

/-- A tool can be allowed by its name. -/
def GeneratorReads (limits : PolicyGeneratorLimits) (m name : Bytes) : Prop :=
  ∃ text, PolicyGenerator.generatePolicyFromInventory limits m [name] = .ok text

theorem generator_accepts {limits : PolicyGeneratorLimits} {site : ToolSite}
    {t : StringText} {m : Bytes} (h : Placed site.fill (GeneratorAccepts limits) t m)
    (hsize : m.length ≤ limits.maxInventoryBytes)
    (hlength : t.val.length ≤ limits.maxToolNameBytes) (hfresh : site.Fresh t.val) :
    (GeneratorAccepts limits m ↔ PlainName t) ∧
      (GeneratorAccepts limits m → GeneratorReads limits m t.val) := by
  obtain ⟨t₀, m₀, htext₀, text₀, hok₀⟩ := h.valid
  obtain ⟨-, hdepth₀, hinventory₀, -⟩ := (PolicyGenerator.generate_text htext₀).mp hok₀
  have htools₀ := (isInventory_fill site.toolsKey hinventory₀).mp hinventory₀
  have htool₀ := htools₀.tools _ (site.tool.elementWith_mem (site.name.fill (.str t₀)))
  have hname : PolicyGenerator.nameOf (site.name.fill (.str t)) = t.val := by
    obtain ⟨_, _, hobj, hmembers⟩ := htool₀
    cases hobj
    obtain ⟨u, hu, -⟩ := hmembers.name
    exact nameOf_fill site.nameKey (by rw [hu]; exact le_refl 1)
  have hiff : PolicyGenerator.IsInventory limits (site.tools.members (site.toolWith (.str t))) ↔
      PlainName t :=
    (isInventory_fill site.toolsKey hinventory₀).trans
      ((generator_isTools_fill htools₀ (by rw [hname]; exact hfresh)).trans
        (generator_isTool_fill site.nameKey hlength htool₀))
  have hdepth : (site.fill (.str t)).depth ≤ limits.maxNestingDepth := by
    rw [fill_depth_str t t₀]
    exact hdepth₀
  have hmem : t.val ∈ PolicyGenerator.inventoryNames
      (site.tools.members (site.toolWith (.str t))) := by
    obtain ⟨u, hu, -⟩ := hinventory₀.tools
    unfold PolicyGenerator.inventoryNames
    rw [MemberSite.valuesAt_of_singleton site.toolsKey (by rw [hu]; exact le_refl 1),
      List.flatMap_singleton]
    exact List.mem_map.mpr ⟨_, site.tool.elementWith_mem (site.name.fill (.str t)), hname⟩
  have hallowed : ∀ allow : List Bytes, allow.Nodup → (∀ name ∈ allow, name = t.val) →
      ((∃ text, PolicyGenerator.generatePolicyFromInventory limits m allow = .ok text) ↔
        PlainName t) := by
    intro allow hdistinct hlisted
    rw [← hiff]
    constructor
    · rintro ⟨text, hok⟩
      exact ((PolicyGenerator.generate_text h.text).mp hok).2.2.1
    · intro hinventory
      refine ⟨_, (PolicyGenerator.generate_text h.text).mpr
        ⟨hsize, hdepth, hinventory, ⟨hdistinct, fun name hname => ?_⟩, rfl⟩⟩
      rw [hlisted name hname]
      exact hmem
  have hnone := hallowed [] List.nodup_nil (fun _ h => absurd h List.not_mem_nil)
  have hone := hallowed [t.val] (List.nodup_singleton _) fun _ h => List.mem_singleton.mp h
  exact ⟨hnone, fun haccepts => hone.mpr (hnone.mp haccepts)⟩

/-! ## §2  The five readers -/

/-- The documents, the limits and the policy that a name is tried with. -/
structure NameTrial where
  call : CallSite
  callMessage : Bytes
  runtime : RuntimeLimits
  response : ResponseSite
  responseMessage : Bytes
  core : ProxyCore
  inspected : ResponseSite
  inspectedMessage : Bytes
  inventoryLimits : InventoryLimits
  expectedIdJson : Bytes
  downstreamExecutable : Bytes
  policy : ToolSite
  policyJson : Bytes
  config : PolicyLoader.Config
  inventory : ToolSite
  inventoryJson : Bytes
  generatorLimits : PolicyGeneratorLimits

namespace NameTrial

variable (trial : NameTrial)

/-- Every document is the name `t` in its place, is otherwise valid and within its
limits, and its other tools have other names where names may not be repeated. -/
structure Tries (t : StringText) : Prop where
  call : Placed trial.call.fill (ExtractorAccepts trial.runtime) t trial.callMessage
  callSize : trial.callMessage.length ≤ trial.runtime.maxMessageBytes
  response : Placed trial.response.fill
    (FilterAccepts trial.runtime.maxNestingDepth trial.core) t trial.responseMessage
  inspected : Placed trial.inspected.fill
    (InventoryAccepts trial.inventoryLimits trial.expectedIdJson trial.downstreamExecutable)
    t trial.inspectedMessage
  inspectedSize : trial.inspectedMessage.length ≤ trial.inventoryLimits.maxMessageBytes
  inspectedName : t.val.length ≤ trial.inventoryLimits.maxToolNameBytes
  inspectedFresh : trial.inspected.Fresh t.val
  policy : Placed trial.policy.fill (LoaderAccepts trial.config) t trial.policyJson
  policySize : trial.policyJson.length ≤ trial.config.maxFileBytes
  policyFresh : trial.policy.Fresh t.val
  inventory : Placed trial.inventory.fill (GeneratorAccepts trial.generatorLimits) t
    trial.inventoryJson
  inventorySize : trial.inventoryJson.length ≤ trial.generatorLimits.maxInventoryBytes
  inventoryName : t.val.length ≤ trial.generatorLimits.maxToolNameBytes
  inventoryFresh : trial.inventory.Fresh t.val

/-- One reader accepts exactly the plain names, and reads the one it accepts. -/
def ReadsPlain (accepts : Prop) (reads : Prop) (t : StringText) : Prop :=
  (accepts ↔ PlainName t) ∧ (accepts → reads)

/-- All five accept the name or all reject it, by one rule. -/
structure Agree (t : StringText) : Prop where
  extractor : ReadsPlain (ExtractorAccepts trial.runtime trial.callMessage)
    (ExtractorReads trial.runtime trial.callMessage t.val) t
  filter : ReadsPlain
    (FilterAccepts trial.runtime.maxNestingDepth trial.core trial.responseMessage)
    (FilterReads trial.runtime.maxNestingDepth trial.core trial.responseMessage t.val) t
  inventory : ReadsPlain
    (InventoryAccepts trial.inventoryLimits trial.expectedIdJson trial.downstreamExecutable
      trial.inspectedMessage)
    (InventoryReads trial.inventoryLimits trial.expectedIdJson trial.downstreamExecutable
      trial.inspectedMessage t.val) t
  loader : ReadsPlain (LoaderAccepts trial.config trial.policyJson)
    (LoaderReads trial.config trial.policyJson t.val) t
  generator : ReadsPlain (GeneratorAccepts trial.generatorLimits trial.inventoryJson)
    (GeneratorReads trial.generatorLimits trial.inventoryJson t.val) t

/-- The five readers agree on a name exactly if it is not empty. -/
theorem names_agree_iff {trial : NameTrial} {t : StringText} (h : trial.Tries t) :
    trial.Agree t ↔ t.val ≠ [] := by
  obtain ⟨hcall, hcallReads⟩ := extractor_accepts h.call h.callSize
  obtain ⟨hfilter, hfilterReads⟩ := filter_accepts h.response
  obtain ⟨hinventory, hinventoryReads⟩ := inventory_accepts h.inspected h.inspectedSize
    h.inspectedName h.inspectedFresh
  obtain ⟨hloader, hloaderReads⟩ := loader_accepts h.policy h.policySize h.policyFresh
  obtain ⟨hgenerator, hgeneratorReads⟩ := generator_accepts h.inventory h.inventorySize
    h.inventoryName h.inventoryFresh
  constructor
  · rintro ⟨hextractor, -⟩ hempty
    -- the empty name has no escape, which is all that the extractor asks
    have haccepts := hcall.mpr (by rw [hempty]; exact List.not_mem_nil)
    exact (hextractor.1.mp haccepts).2 hempty
  · intro hne
    have hplain : 0x5C ∉ t.val ↔ PlainName t := ⟨fun hesc => ⟨hesc, hne⟩, fun hname => hname.1⟩
    exact ⟨⟨hcall.trans hplain, fun _ => hcallReads⟩, ⟨hfilter, fun _ => hfilterReads⟩,
      ⟨hinventory, fun _ => hinventoryReads⟩, ⟨hloader, fun _ => hloaderReads⟩,
      ⟨hgenerator, hgeneratorReads⟩⟩

/-- A member under a plain key. -/
def entry (key : Bytes) (h : key.all isPlainByte = true) (v : Value) : Member Value :=
  Member.compact (plainString key h) v

def only (key : Bytes) (h : key.all isPlainByte = true) : MemberSite :=
  ⟨noGap, [], entry key h (.lit .null), []⟩

def allowText : Value := .str (plainString (ascii "allow") (.refl true))

/-- One tool that is nothing but a name. -/
def toolSite : ToolSite where
  tools := only (ascii "tools") (.refl true)
  tool := ⟨noGap, [], Element.compact (.lit .null), []⟩
  name := only (ascii "name") (.refl true)
  toolsKey := rfl
  nameKey := rfl

def responseSite : ResponseSite where
  toToolSite := toolSite
  result := ⟨noGap,
    [entry (ascii "jsonrpc") (.refl true) (.str (plainString (ascii "2.0") (.refl true))),
      entry (ascii "id") (.refl true) (.str (plainString (ascii "1") (.refl true)))],
    entry (ascii "result") (.refl true) (.lit .null), []⟩
  resultKey := rfl

def policySite : ToolSite where
  tools := ⟨noGap,
    [entry (ascii "version") (.refl true) (.num (Data.numberText 1)),
      entry (ascii "defaults") (.refl true) (.obj noGap
        [entry (ascii "visibility") (.refl true) allowText,
          entry (ascii "invocation") (.refl true) allowText])],
    entry (ascii "tools") (.refl true) (.lit .null), []⟩
  tool := ⟨noGap, [], Element.compact (.lit .null), []⟩
  name := ⟨noGap, [], entry (ascii "name") (.refl true) (.lit .null),
    [entry (ascii "visibility") (.refl true) allowText,
      entry (ascii "invocation") (.refl true) allowText]⟩
  toolsKey := rfl
  nameKey := rfl

def inventorySite : ToolSite where
  tools := ⟨noGap,
    [entry (ascii "inventory_version") (.refl true) (.num (Data.numberText 1)),
      entry (ascii "server") (.refl true) (.obj noGap [])],
    entry (ascii "tools") (.refl true) (.lit .null), []⟩
  tool := ⟨noGap, [], Element.compact (.lit .null), []⟩
  name := only (ascii "name") (.refl true)
  toolsKey := rfl
  nameKey := rfl

def callSite : CallSite where
  params := only (ascii "params") (.refl true)
  name := only (ascii "name") (.refl true)
  paramsKey := rfl
  nameKey := rfl

/-- The smallest documents around a name. -/
def trialOf (t : StringText) : NameTrial where
  call := callSite
  callMessage := (callSite.fill (.str t)).render
  runtime := {}
  response := responseSite
  responseMessage := (responseSite.fill (.str t)).render
  core := ⟨.ofDefaults ⟨.allow, .allow⟩, 0⟩
  inspected := responseSite
  inspectedMessage := (responseSite.fill (.str t)).render
  inventoryLimits := {}
  expectedIdJson := ascii "\"1\""
  downstreamExecutable := []
  policy := policySite
  policyJson := (policySite.fill (.str t)).render
  config := {}
  inventory := inventorySite
  inventoryJson := (inventorySite.fill (.str t)).render
  generatorLimits := {}

def nameX : StringText := plainString (ascii "x") (.refl true)

def noName : StringText := plainString [] (.refl true)

theorem isText_render (v : Value) : IsText v.render v := ⟨noGap, noGap, by simp⟩

theorem exists_of_isOk {ε α : Type} {x : Except ε α} (h : x.isOk = true) :
    ∃ a, x = .ok a := by
  cases x with
  | ok a => exact ⟨a, rfl⟩
  | error e => cases h

def isRewritten : Rewrite → Bool
  | .rewritten _ _ => true
  | _ => false

/-- All readers accept the documents around `x`. -/
theorem accepted_nameX :
    ExtractorAccepts {} (callSite.fill (.str nameX)).render ∧
      FilterAccepts 64 (trialOf nameX).core (responseSite.fill (.str nameX)).render ∧
      InventoryAccepts {} (ascii "\"1\"") [] (responseSite.fill (.str nameX)).render ∧
      LoaderAccepts {} (policySite.fill (.str nameX)).render ∧
      GeneratorAccepts {} (inventorySite.fill (.str nameX)).render := by
  obtain ⟨hcall, hresponse, hinspected, hpolicy, hinventory⟩ :
      (extract {} (callSite.fill (.str nameX)).render).isOk = true ∧
        isRewritten (rewriteToolsListResponse (responseSite.fill (.str nameX)).render 64
          (trialOf nameX).core) = true ∧
        (Inventory.parseToolsListResponse {} (responseSite.fill (.str nameX)).render
          (ascii "\"1\"") []).isOk = true ∧
        (PolicyLoader.parse {} (policySite.fill (.str nameX)).render).isOk = true ∧
        (PolicyGenerator.generatePolicyFromInventory {}
          (inventorySite.fill (.str nameX)).render []).isOk = true := by
    decide +kernel
  refine ⟨exists_of_isOk hcall, ?_, exists_of_isOk hinspected, exists_of_isOk hpolicy,
    exists_of_isOk hinventory⟩
  unfold FilterAccepts
  cases hrewrite : rewriteToolsListResponse (responseSite.fill (.str nameX)).render 64
      (trialOf nameX).core with
  | rewritten text removedTools => exact ⟨text, removedTools, rfl⟩
  | passthrough => rw [hrewrite] at hresponse; cases hresponse
  | malformed => rw [hrewrite] at hresponse; cases hresponse

/-- A short name is tried in these documents. -/
theorem tries_trialOf {t : StringText}
    (h : (callSite.fill (.str t)).render.length ≤ 1024 ∧
      (responseSite.fill (.str t)).render.length ≤ 1024 ∧
      (policySite.fill (.str t)).render.length ≤ 1024 ∧
      (inventorySite.fill (.str t)).render.length ≤ 1024 ∧ t.val.length ≤ 128) :
    (trialOf t).Tries t := by
  obtain ⟨hcall, hresponse, hpolicy, hinventory, hname⟩ := h
  obtain ⟨hcallOk, hresponseOk, hinspectedOk, hpolicyOk, hinventoryOk⟩ := accepted_nameX
  refine ⟨⟨isText_render _, nameX, _, isText_render _, hcallOk⟩, ?_,
    ⟨isText_render _, nameX, _, isText_render _, hresponseOk⟩,
    ⟨isText_render _, nameX, _, isText_render _, hinspectedOk⟩, ?_, ?_, nofun,
    ⟨isText_render _, nameX, _, isText_render _, hpolicyOk⟩, ?_, nofun,
    ⟨isText_render _, nameX, _, isText_render _, hinventoryOk⟩, ?_, ?_, nofun⟩
  · exact le_trans hcall (show 1024 ≤ 1024 * 1024 by decide)
  · exact le_trans hresponse (show 1024 ≤ 1024 * 1024 by decide)
  · exact le_trans hname (show 128 ≤ 256 by decide)
  · exact le_trans hpolicy (show 1024 ≤ 256 * 1024 by decide)
  · exact le_trans hinventory (show 1024 ≤ 1024 * 1024 by decide)
  · exact le_trans hname (show 128 ≤ 256 by decide)

theorem names_agree_iff_example : (trialOf nameX).Agree nameX :=
  (names_agree_iff (tries_trialOf (by decide +kernel))).mpr (by decide)

/-- The extractor takes the empty name, which no other reader does. -/
theorem empty_name_extracted :
    (trialOf noName).Tries noName ∧
      extract {} (callSite.fill (.str noName)).render = .ok ⟨[], []⟩ ∧
      ¬ (trialOf noName).Agree noName := by
  obtain ⟨hextract, hsizes⟩ :
      extract {} (callSite.fill (.str noName)).render = .ok ⟨[], []⟩ ∧
        (callSite.fill (.str noName)).render.length ≤ 1024 ∧
        (responseSite.fill (.str noName)).render.length ≤ 1024 ∧
        (policySite.fill (.str noName)).render.length ≤ 1024 ∧
        (inventorySite.fill (.str noName)).render.length ≤ 1024 ∧ noName.val.length ≤ 128 := by
    decide +kernel
  refine ⟨tries_trialOf hsizes, hextract, fun h => ?_⟩
  exact (h.extractor.1.mp ⟨_, hextract⟩).2 rfl

end NameTrial

end NativeGuard.Security

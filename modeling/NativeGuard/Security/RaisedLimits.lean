import Mathlib.Order.BoundedOrder.Monotone
import NativeGuard.Protocol.Extractor
import NativeGuard.Protocol.InventoryResponse
import NativeGuard.Protocol.Rewrite
import NativeGuard.Security.PolicyGenerator

/-!
# Raised limits

The parsers consult their limits at many places, but a limit is always the larger
side of a comparison, and no result records it. So what a parser accepts under some
limits stands in a set that only grows with them, and the result is read off the text
(`raised_limits_admit_more`).
-/

namespace NativeGuard

open Json Json.Scan Protocol Security

/-! ## §1  Acceptance under every larger limit -/

/-- What `f` accepts it accepts under every larger limit, with the same result. -/
def AdmitsMore {L α : Type} [Preorder L] (accepted : α → Prop) (f : L → α) : Prop :=
  ∀ ⦃limits limits' : L⦄, limits ≤ limits' → accepted (f limits) → f limits' = f limits

/-- A parser that succeeds has accepted. -/
def Succeeds {ε α : Type} (r : Except ε α) : Prop := ∃ a, r = .ok a

instance {ε α : Type} : (r : Except ε α) → Decidable (Succeeds r)
  | .ok a => .isTrue ⟨a, rfl⟩
  | .error _ => .isFalse fun h => nomatch h

/-- It is enough that the condition for each result grows with the limits. -/
theorem AdmitsMore.of_ok {L ε α : Type} [Preorder L] {f : L → Except ε α}
    {ok : L → α → Prop} (hok : ∀ limits a, f limits = .ok a ↔ ok limits a)
    (hmono : ∀ a, Monotone fun limits => ok limits a) : AdmitsMore Succeeds f := by
  rintro limits limits' hle ⟨a, ha⟩
  rw [ha]
  exact (hok limits' a).mpr (hmono a hle ((hok limits a).mp ha))

/-- A value that fits below `level` containers fits under a larger limit. -/
theorem fits_mono {level n maxDepth maxDepth' : Nat} (hle : maxDepth ≤ maxDepth')
    (h : level + n ≤ maxDepth) : level + n ≤ maxDepth' := le_trans h hle

namespace Protocol

/-- Limits are compared field by field. -/
instance : Preorder RuntimeLimits := Preorder.lift fun limits =>
  (limits.maxMessageBytes, limits.maxNestingDepth, limits.maxPendingToolsList)

theorem RuntimeLimits.le_iff {limits limits' : RuntimeLimits} : limits ≤ limits' ↔
    limits.maxMessageBytes ≤ limits'.maxMessageBytes ∧
      limits.maxNestingDepth ≤ limits'.maxNestingDepth ∧
      limits.maxPendingToolsList ≤ limits'.maxPendingToolsList := Iff.rfl

variable {maxDepth maxDepth' : Nat} {ms : List (Member Value)} {v : Value}

/-! ## §2  Envelopes and parameters -/

theorem SkippedWithin.mono (hle : maxDepth ≤ maxDepth') (h : SkippedWithin maxDepth ms) :
    SkippedWithin maxDepth' ms :=
  fun m hm hkey => fits_mono hle (h m hm hkey)

theorem classify_admitsMore (message : Bytes) :
    AdmitsMore (fun envelope => envelope.error = .none)
      fun limits : RuntimeLimits => classify limits message := by
  intro limits limits' hle hok
  obtain ⟨hbytes, hdepth, -⟩ := RuntimeLimits.le_iff.mp hle
  obtain ⟨hsize, exit, ms, tail, htext, hexit, hms, hskip⟩ :=
    (classify_accepts limits message).mp hok
  have hok' : (classify limits' message).error = .none :=
    (classify_accepts limits' message).mpr
      ⟨hsize.trans hbytes, exit, ms, tail, htext, hexit, hms, hskip.mono hdepth⟩
  -- the envelope is that of the members under either limit
  show classify limits' message = classify limits message
  rw [(classify_determined hok' htext hexit).2.2, (classify_determined hok htext hexit).2.2]

theorem ParamsMembers.mono (hle : maxDepth ≤ maxDepth') (h : ParamsMembers maxDepth ms) :
    ParamsMembers maxDepth' ms :=
  { h with nested := fun m hm hkey => fits_mono hle (h.nested m hm hkey) }

theorem ExtractMembers.mono (hle : maxDepth ≤ maxDepth') (h : ExtractMembers maxDepth ms) :
    ExtractMembers maxDepth' ms where
  keys := h.keys
  params := by
    obtain ⟨gap, ps, hparams, hps⟩ := h.params
    exact ⟨gap, ps, hparams, hps.mono hle⟩
  nested m hm hkey := fits_mono hle (h.nested m hm hkey)

theorem extract_admitsMore (message : Bytes) :
    AdmitsMore Succeeds fun limits : RuntimeLimits => extract limits message := by
  refine .of_ok (fun _ _ => extract_ok) fun params limits limits' hle => ?_
  obtain ⟨hbytes, hdepth, -⟩ := RuntimeLimits.le_iff.mp hle
  rintro ⟨hsize, exit, ms, tail, htext, hexit, hms, hparams⟩
  exact ⟨hsize.trans hbytes, exit, ms, tail, htext, hexit, hms.mono hdepth, hparams⟩

/-! ## §3  The rewriter -/

theorem IsTool.mono (hle : maxDepth ≤ maxDepth') (h : IsTool maxDepth v) :
    IsTool maxDepth' v where
  depth := h.depth.trans hle
  object := by
    obtain ⟨gap, ms, rfl, hall, hname⟩ := h.object
    exact ⟨gap, ms, rfl,
      fun m hm => ⟨(hall m hm).1, fun hkey => fits_mono hle ((hall m hm).2 hkey)⟩, hname⟩

theorem IsToolsArray.mono (hle : maxDepth ≤ maxDepth') (h : IsToolsArray maxDepth v) :
    IsToolsArray maxDepth' v where
  depth := h.depth.trans hle
  array := by
    obtain ⟨gap, es, rfl, hall⟩ := h.array
    exact ⟨gap, es, rfl, fun e he => (hall e he).mono hle⟩

theorem resultMemberOk_mono (hle : maxDepth ≤ maxDepth') {key : Bytes}
    (h : resultMemberOk maxDepth key v) : resultMemberOk maxDepth' key v := by
  unfold resultMemberOk at h ⊢
  split_ifs at h ⊢
  · exact h.mono hle
  · exact fits_mono hle h

theorem IsResult.mono (hle : maxDepth ≤ maxDepth') (h : IsResult maxDepth v) :
    IsResult maxDepth' v where
  depth := h.depth.trans hle
  object := by
    obtain ⟨gap, ms, rfl, hall, htools⟩ := h.object
    exact ⟨gap, ms, rfl,
      fun m hm => ⟨(hall m hm).1, resultMemberOk_mono hle (hall m hm).2⟩, htools⟩

theorem responseMemberOk_mono (hle : maxDepth ≤ maxDepth') {key : Bytes}
    (h : responseMemberOk maxDepth key v) : responseMemberOk maxDepth' key v := by
  unfold responseMemberOk at h ⊢
  split_ifs at h ⊢
  · exact h.mono hle
  · exact fits_mono hle h

theorem ResponseMembers.mono (hle : maxDepth ≤ maxDepth') (h : ResponseMembers maxDepth ms) :
    ResponseMembers maxDepth' ms :=
  { h with members := fun m hm =>
      ⟨(h.members m hm).1, responseMemberOk_mono hle (h.members m hm).2⟩ }

theorem rewrite_admitsMore (message : Bytes) (core : Proxy.ProxyCore) :
    AdmitsMore (· ≠ .malformed)
      fun maxDepth : Nat => rewriteToolsListResponse message maxDepth core := by
  intro maxDepth maxDepth' hle hok
  obtain ⟨exit, ms, tail, htext⟩ := rewrite_document hok
  obtain ⟨hexit, hms⟩ : exit ≠ .cut ∧ ResponseMembers maxDepth ms := by
    by_contra hbad
    exact hok (rewrite_rejected htext hbad)
  -- either run ends in the state that the members determine
  show rewriteToolsListResponse message maxDepth' core =
    rewriteToolsListResponse message maxDepth core
  rw [rewrite_accepted htext hexit hms, rewrite_accepted htext hexit (hms.mono hle)]

/-! ## §4  Inventories -/

namespace Inventory

instance : Preorder InventoryLimits := Preorder.lift fun limits =>
  (limits.maxMessageBytes, limits.maxNestingDepth, limits.maxTools,
    limits.maxToolNameBytes, limits.maxToolDescriptionBytes, limits.maxToolSchemaBytes)

theorem limits_le_iff {limits limits' : InventoryLimits} : limits ≤ limits' ↔
    limits.maxMessageBytes ≤ limits'.maxMessageBytes ∧
      limits.maxNestingDepth ≤ limits'.maxNestingDepth ∧
      limits.maxTools ≤ limits'.maxTools ∧
      limits.maxToolNameBytes ≤ limits'.maxToolNameBytes ∧
      limits.maxToolDescriptionBytes ≤ limits'.maxToolDescriptionBytes ∧
      limits.maxToolSchemaBytes ≤ limits'.maxToolSchemaBytes := Iff.rfl

theorem IsToolName.mono : Monotone fun limits => IsToolName limits v := by
  intro limits limits' hle
  obtain ⟨-, -, -, hname, -, -⟩ := limits_le_iff.mp hle
  rintro ⟨t, rfl, hescape, hempty, hlength⟩
  exact ⟨t, rfl, hescape, hempty, hlength.trans hname⟩

theorem IsDescription.mono : Monotone fun limits => IsDescription limits v := by
  intro limits limits' hle
  obtain ⟨-, -, -, -, hdescription, -⟩ := limits_le_iff.mp hle
  rintro ⟨t, rfl, hlength⟩
  exact ⟨t, rfl, hlength.trans hdescription⟩

theorem IsSchema.mono : Monotone fun limits => IsSchema limits v := by
  intro limits limits' hle
  obtain ⟨-, hdepth, -, -, -, hschema⟩ := limits_le_iff.mp hle
  rintro ⟨hfits, hkeys, hlength⟩
  exact ⟨fits_mono hdepth hfits, hkeys, hlength.trans hschema⟩

theorem toolMemberOk_mono (key : Bytes) : Monotone fun limits => toolMemberOk limits key v := by
  intro limits limits' hle h
  have hdepth := (limits_le_iff.mp hle).2.1
  unfold toolMemberOk at h ⊢
  split_ifs at h ⊢
  · exact IsToolName.mono hle h
  · exact IsDescription.mono hle h
  · exact IsSchema.mono hle h
  · exact IsSchema.mono hle h
  · exact fits_mono hdepth h

theorem IsTool.mono : Monotone fun limits => IsTool limits v := by
  rintro limits limits' hle ⟨gap, ms, rfl, hms⟩
  exact ⟨gap, ms, rfl, hms.imp fun key _ => toolMemberOk_mono key hle⟩

theorem IsTools.mono : Monotone fun limits => IsTools limits v := by
  intro limits limits' hle h
  obtain ⟨-, -, hcount, -, -, -⟩ := limits_le_iff.mp hle
  exact { array := h.array
          count := h.count.trans hcount
          tools := fun e he => IsTool.mono hle (h.tools e he)
          distinct := h.distinct }

theorem resultMemberOk_mono (key : Bytes) :
    Monotone fun limits => resultMemberOk limits key v := by
  intro limits limits' hle h
  have hdepth := (limits_le_iff.mp hle).2.1
  unfold resultMemberOk at h ⊢
  split_ifs at h ⊢
  · exact IsTools.mono hle h
  · exact fits_mono hdepth h

theorem IsResult.mono : Monotone fun limits => IsResult limits v := by
  rintro limits limits' hle ⟨gap, ms, rfl, hms⟩
  exact ⟨gap, ms, rfl, hms.imp fun key _ => resultMemberOk_mono key hle⟩

theorem IsResponse.mono (expectedIdJson : Bytes) :
    Monotone fun limits => IsResponse limits (IsResult limits) expectedIdJson ms := by
  intro limits limits' hle h
  have hdepth := (limits_le_iff.mp hle).2.1
  exact { h with
          accepted := fun v hv => IsResult.mono hle (h.accepted v hv)
          others := fun m hm hkey => fits_mono hdepth (h.others m hm hkey) }

theorem parseToolsListResponse_admitsMore
    (message expectedIdJson downstreamExecutable : Bytes) :
    AdmitsMore Succeeds fun limits : InventoryLimits =>
      parseToolsListResponse limits message expectedIdJson downstreamExecutable := by
  refine .of_ok (fun _ _ => parseToolsListResponse_ok) fun inventory limits limits' hle => ?_
  obtain ⟨hbytes, -⟩ := limits_le_iff.mp hle
  rintro ⟨hsize, ms, htext, hms, hinventory⟩
  exact ⟨hsize.trans hbytes, ms, htext, IsResponse.mono expectedIdJson hle hms, hinventory⟩

end Inventory

end Protocol

/-! ## §5  Policies -/

namespace Security

variable {v : Value} {ms : List (Member Value)}

namespace PolicyLoader

instance : Preorder Config := Preorder.lift fun config =>
  (config.maxFileBytes, config.maxNestingDepth)

theorem config_le_iff {config config' : Config} : config ≤ config' ↔
    config.maxFileBytes ≤ config'.maxFileBytes ∧
      config.maxNestingDepth ≤ config'.maxNestingDepth := Iff.rfl

/-- The grammar of policies has no limit in it: only the size and the depth count. -/
theorem parse_admitsMore (json : Bytes) :
    AdmitsMore Succeeds fun config : Config => parse config json := by
  rintro config config' hle ⟨definition, hok⟩
  obtain ⟨hbytes, hdepth⟩ := config_le_iff.mp hle
  obtain ⟨gap, ms, htext⟩ := parse_sound hok
  obtain ⟨hsize, hnesting, hpolicy⟩ := (parse_text htext).mp hok
  have hok' : parse config' json = .ok definition :=
    (parse_text htext).mpr ⟨hsize.trans hbytes, hnesting.trans hdepth, hpolicy⟩
  exact hok'.trans hok.symm

end PolicyLoader

namespace PolicyGenerator

instance : Preorder PolicyGeneratorLimits := Preorder.lift fun limits =>
  (limits.maxInventoryBytes, limits.maxNestingDepth, limits.maxTools, limits.maxToolNameBytes)

theorem limits_le_iff {limits limits' : PolicyGeneratorLimits} : limits ≤ limits' ↔
    limits.maxInventoryBytes ≤ limits'.maxInventoryBytes ∧
      limits.maxNestingDepth ≤ limits'.maxNestingDepth ∧
      limits.maxTools ≤ limits'.maxTools ∧
      limits.maxToolNameBytes ≤ limits'.maxToolNameBytes := Iff.rfl

theorem IsTool.mono : Monotone fun limits => IsTool limits v := by
  rintro limits limits' hle ⟨gap, ms, rfl, hms⟩
  obtain ⟨-, -, -, hname⟩ := limits_le_iff.mp hle
  obtain ⟨w, hw, hisName, hlength⟩ := hms.name
  exact ⟨gap, ms, rfl, hms.keys, w, hw, hisName, hlength.trans hname⟩

theorem IsTools.mono : Monotone fun limits => IsTools limits v := by
  intro limits limits' hle h
  obtain ⟨-, -, hcount, -⟩ := limits_le_iff.mp hle
  exact { array := h.array
          count := h.count.trans hcount
          tools := fun e he => IsTool.mono hle (h.tools e he)
          distinct := h.distinct }

theorem IsInventory.mono : Monotone fun limits => IsInventory limits ms := by
  intro limits limits' hle h
  obtain ⟨w, hw, htools⟩ := h.tools
  exact { keys := h.keys
          version := h.version
          server := h.server
          tools := ⟨w, hw, IsTools.mono hle htools⟩ }

theorem generate_admitsMore (inventoryJson : Bytes) (allowToolNames : List Bytes) :
    AdmitsMore Succeeds fun limits : PolicyGeneratorLimits =>
      generatePolicyFromInventory limits inventoryJson allowToolNames := by
  refine .of_ok (fun _ _ => generate_ok) fun text limits limits' hle => ?_
  obtain ⟨hbytes, hdepth, -⟩ := limits_le_iff.mp hle
  rintro ⟨hsize, exit, ms, tail, htext, hexit, hnesting, hinventory, hrest⟩
  exact ⟨hsize.trans hbytes, exit, ms, tail, htext, hexit, hnesting.trans hdepth,
    IsInventory.mono hle hinventory, hrest⟩

end PolicyGenerator

end Security

/-! ## §6  The six parsers -/

open PolicyGenerator Inventory in
/-- Raising limits only admits more: what is accepted under some limits is accepted
under all larger ones, and comes out the same. -/
theorem raised_limits_admit_more (input : Bytes) :
    AdmitsMore (fun envelope => envelope.error = .none)
        (fun limits : RuntimeLimits => classify limits input) ∧
      AdmitsMore Succeeds (fun limits : RuntimeLimits => extract limits input) ∧
      (∀ core : Proxy.ProxyCore, AdmitsMore (· ≠ .malformed)
        fun maxDepth : Nat => rewriteToolsListResponse input maxDepth core) ∧
      (∀ expectedIdJson downstreamExecutable : Bytes,
        AdmitsMore Succeeds fun limits : InventoryLimits =>
          parseToolsListResponse limits input expectedIdJson downstreamExecutable) ∧
      AdmitsMore Succeeds (fun config : PolicyLoader.Config => PolicyLoader.parse config input) ∧
      ∀ allowToolNames : List Bytes,
        AdmitsMore Succeeds fun limits : PolicyGeneratorLimits =>
          generatePolicyFromInventory limits input allowToolNames :=
  ⟨classify_admitsMore input, extract_admitsMore input, rewrite_admitsMore input,
    parseToolsListResponse_admitsMore input, PolicyLoader.parse_admitsMore input,
    generate_admitsMore input⟩

/-- A response of 58 bytes, four containers deep, that lists one tool. -/
def oneToolResponse : Bytes := ascii
  "\x7b\"jsonrpc\":\"2.0\",\"id\":1,\"result\":\x7b\"tools\":[\x7b\"name\":\"a\"\x7d]\x7d\x7d"

def denyingCore : Proxy.ProxyCore := ⟨.ofDefaults {}, 58⟩

open Inventory in
/-- Limits that the response just meets, and larger ones. -/
theorem raised_limits_admit_more_example :
    classify ⟨1024, 64, 64⟩ oneToolResponse = classify ⟨58, 4, 0⟩ oneToolResponse ∧
      rewriteToolsListResponse oneToolResponse 64 denyingCore =
        rewriteToolsListResponse oneToolResponse 4 denyingCore ∧
      parseToolsListResponse ⟨1024, 64, 8, 8, 8, 8⟩ oneToolResponse (ascii "1") [] =
        parseToolsListResponse ⟨58, 4, 1, 1, 0, 0⟩ oneToolResponse (ascii "1") [] := by
  obtain ⟨hclassify, -, hrewrite, hparse, -⟩ := raised_limits_admit_more oneToolResponse
  have haccepted : (classify ⟨58, 4, 0⟩ oneToolResponse).error = .none ∧
      rewriteToolsListResponse oneToolResponse 4 denyingCore ≠ .malformed ∧
      Succeeds (parseToolsListResponse ⟨58, 4, 1, 1, 0, 0⟩ oneToolResponse (ascii "1") []) := by
    decide +kernel
  exact ⟨hclassify (RuntimeLimits.le_iff.mpr (by decide)) haccepted.1,
    hrewrite denyingCore (by decide) haccepted.2.1,
    hparse _ _ (limits_le_iff.mpr (by decide)) haccepted.2.2⟩

end NativeGuard

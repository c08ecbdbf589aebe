import NativeGuard.Protocol.Nesting
import NativeGuard.Protocol.Readers
import NativeGuard.Security.Policy

/-!
# The policy loader (`src/policy_loader.cpp`)

`PolicyLoader::parse` and its four loops. On the tree of a text each loop
computes what the specification reads off directly (`IsDefaults`, `IsRule`,
`IsPolicy`), and a text that is accepted has a tree, so `parse_text` and
`parse_sound` together say which texts are accepted and what the definition
is. The nesting limit is met from two sides: the pre-scan bounds the depth of
the tree, and under that bound no `skip_value` of the loops fails.
-/

namespace NativeGuard.Security

open Json Json.Scan Protocol Data

inductive PolicyLoadError where
  | fileTooLarge
  | malformedJson
  | excessiveNesting
  | unsupportedVersion
  | duplicateMember
  | missingDefaults
  | invalidAccess
  | toolsNotArray
  | invalidTool
  | escapedToolName
  | duplicateToolName
deriving DecidableEq, Repr

structure PolicyLoadFailure where
  error : PolicyLoadError
  message : String
deriving DecidableEq, Repr

structure PolicyDefinition where
  defaults : PolicyDefaults := {}
  rules : List ToolRule := []
deriving DecidableEq, Repr

namespace PolicyLoader

structure Config where
  maxFileBytes : Nat := 256 * 1024
  maxNestingDepth : Nat := 16

/-! ## §1  The parsers -/

def malformed : PolicyLoadFailure := ⟨.malformedJson, "malformed policy JSON"⟩

def checkKey {σ : Type} (_ : σ) (key : StringToken) : Except PolicyLoadFailure Unit :=
  if key.hasEscape then .error malformed else .ok ()

def invalidAccess : PolicyLoadFailure :=
  ⟨.invalidAccess, "access must be 'allow' or 'deny'"⟩

def parseAccess : Reader PolicyLoadFailure Access :=
  (Reader.string invalidAccess).check fun value =>
    if value.hasEscape then .error invalidAccess
    else if value.contents = ascii "allow" then .ok .allow
    else if value.contents = ascii "deny" then .ok .deny
    else .error invalidAccess

structure DefaultsState where
  sawVisibility : Bool := false
  sawInvocation : Bool := false
  defaults : PolicyDefaults := {}

def DefaultsState.member (maxDepth : Nat) (st : DefaultsState) (key : StringToken) :
    Reader PolicyLoadFailure DefaultsState :=
  if key.contents = ascii "visibility" then
    .once st.sawVisibility ⟨.duplicateMember, "duplicate defaults.visibility"⟩ <|
      parseAccess.map fun access =>
        { st with sawVisibility := true, defaults.visible := access }
  else if key.contents = ascii "invocation" then
    .once st.sawInvocation ⟨.duplicateMember, "duplicate defaults.invocation"⟩ <|
      parseAccess.map fun access =>
        { st with sawInvocation := true, defaults.callable := access }
  else (skipValue 2 maxDepth malformed).map fun _ => st

def defaultsReader (maxDepth : Nat) : ObjectReader DefaultsState PolicyLoadFailure where
  malformed _ := malformed
  checkKey := checkKey
  member := DefaultsState.member maxDepth
  rejectsTrailing := true

def DefaultsState.finish (st : DefaultsState) (exit : LoopExit) :
    Except PolicyLoadFailure PolicyDefaults :=
  if exit = .cut then .error malformed
  else if st.sawVisibility && st.sawInvocation then .ok st.defaults
  else .error ⟨.missingDefaults,
    "defaults.visibility and defaults.invocation are required"⟩

def parseDefaults (maxDepth : Nat) : Reader PolicyLoadFailure PolicyDefaults :=
  if maxDepth < 2 then .fail ⟨.missingDefaults, "defaults must be an object"⟩
  else (defaultsReader maxDepth).object
    ⟨.missingDefaults, "defaults must be an object"⟩ {} DefaultsState.finish

def parseName : Reader PolicyLoadFailure Bytes :=
  (Reader.string ⟨.invalidTool, "tool name must be a non-empty string"⟩).check
    fun name =>
      if name.hasEscape then
        .error ⟨.escapedToolName, "escaped tool names are not supported"⟩
      else if name.contents = [] then
        .error ⟨.invalidTool, "tool name must not be empty"⟩
      else .ok name.contents

structure ToolState where
  sawName : Bool := false
  sawVisibility : Bool := false
  sawInvocation : Bool := false
  tool : ToolRule := { name := [] }

def ToolState.member (maxDepth : Nat) (st : ToolState) (key : StringToken) :
    Reader PolicyLoadFailure ToolState :=
  if key.contents = ascii "name" then
    .once st.sawName ⟨.duplicateMember, "duplicate tool name member"⟩ <|
      parseName.map fun name => { st with sawName := true, tool.name := name }
  else if key.contents = ascii "visibility" then
    .once st.sawVisibility ⟨.duplicateMember, "duplicate tool visibility member"⟩ <|
      parseAccess.map fun access =>
        { st with sawVisibility := true, tool.visible := access }
  else if key.contents = ascii "invocation" then
    .once st.sawInvocation ⟨.duplicateMember, "duplicate tool invocation member"⟩ <|
      parseAccess.map fun access =>
        { st with sawInvocation := true, tool.callable := access }
  else (skipValue 3 maxDepth malformed).map fun _ => st

def toolReader (maxDepth : Nat) : ObjectReader ToolState PolicyLoadFailure where
  malformed _ := malformed
  checkKey := checkKey
  member := ToolState.member maxDepth
  rejectsTrailing := true

def ToolState.finish (st : ToolState) (exit : LoopExit) :
    Except PolicyLoadFailure ToolRule :=
  if exit = .cut then .error malformed
  else if st.sawName && st.sawVisibility && st.sawInvocation then .ok st.tool
  else .error ⟨.invalidTool, "tool name, visibility, and invocation are required"⟩

def parseTool (maxDepth : Nat) : Reader PolicyLoadFailure ToolRule :=
  if maxDepth < 3 then .fail ⟨.invalidTool, "each tools entry must be an object"⟩
  else (toolReader maxDepth).object
    ⟨.invalidTool, "each tools entry must be an object"⟩ {} ToolState.finish

def toolsReader (maxDepth : Nat) :
    ArrayReader (List ToolRule) PolicyLoadFailure where
  malformed := malformed
  element tools := (parseTool maxDepth).map fun tool => tools ++ [tool]
  rejectsTrailing := true

def parseTools (maxDepth : Nat) (tools : List ToolRule) :
    Reader PolicyLoadFailure (List ToolRule) :=
  if maxDepth < 2 then .fail ⟨.toolsNotArray, "tools must be an array"⟩
  else (toolsReader maxDepth).array ⟨.toolsNotArray, "tools must be an array"⟩ tools

def unsupportedVersion : PolicyLoadFailure :=
  ⟨.unsupportedVersion, "policy version must be 1"⟩

def parseVersion : Reader PolicyLoadFailure Unit :=
  (Reader.number unsupportedVersion).captured.check fun (_, token) =>
    if token = ascii "1" then .ok () else .error unsupportedVersion

structure PolicyState where
  sawVersion : Bool := false
  sawDefaults : Bool := false
  sawTools : Bool := false
  candidate : PolicyDefinition := {}

def PolicyState.member (maxDepth : Nat) (st : PolicyState) (key : StringToken) :
    Reader PolicyLoadFailure PolicyState :=
  if key.contents = ascii "version" then
    .once st.sawVersion ⟨.duplicateMember, "duplicate policy version"⟩ <|
      parseVersion.map fun _ => { st with sawVersion := true }
  else if key.contents = ascii "defaults" then
    .once st.sawDefaults ⟨.duplicateMember, "duplicate policy defaults"⟩ <|
      (parseDefaults maxDepth).map fun defaults =>
        { st with sawDefaults := true, candidate.defaults := defaults }
  else if key.contents = ascii "tools" then
    .once st.sawTools ⟨.duplicateMember, "duplicate policy tools"⟩ <|
      (parseTools maxDepth st.candidate.rules).map fun rules =>
        { st with sawTools := true, candidate.rules := rules }
  else (skipValue 1 maxDepth malformed).map fun _ => st

def policyReader (maxDepth : Nat) : ObjectReader PolicyState PolicyLoadFailure where
  malformed _ := malformed
  checkKey := checkKey
  member := PolicyState.member maxDepth
  rejectsTrailing := true

def PolicyState.leave (_ : PolicyState) (exit : LoopExit) :
    Except PolicyLoadFailure Unit :=
  if exit = .cut then .error malformed else .ok ()

/-- What `parse` does after the object: the required members, then the rules in
order of their names. -/
def PolicyState.finish (st : PolicyState) :
    Except PolicyLoadFailure PolicyDefinition :=
  if ¬ st.sawVersion then .error unsupportedVersion
  else if ¬ st.sawDefaults then
    .error ⟨.missingDefaults, "policy defaults are required"⟩
  else
    let rules := sortOn ToolRule.name st.candidate.rules
    if adjacentEqual ToolRule.name rules then
      .error ⟨.duplicateToolName, "duplicate tool name in policy"⟩
    else .ok { st.candidate with rules := rules }

def parse (config : Config) (json : Bytes) :
    Except PolicyLoadFailure PolicyDefinition :=
  if json.length > config.maxFileBytes then
    .error ⟨.fileTooLarge, "policy exceeds configured size limit"⟩
  else if exceedsNesting json config.maxNestingDepth then
    .error ⟨.excessiveNesting, "policy exceeds configured nesting limit"⟩
  else do
    let (st, _) ← ((policyReader config.maxNestingDepth).loop.document
      ⟨.malformedJson, "policy must be a JSON object"⟩ PolicyState.leave
      (fun _ => ⟨.malformedJson, "trailing data after policy object"⟩) {} json).1
    st.finish

/-! ## §2  What the texts say -/

def IsAccess (v : Value) : Prop := IsPlain (ascii "allow") v ∨ IsPlain (ascii "deny") v

def accessOf (v : Value) : Access :=
  if plainText v = ascii "allow" then .allow else .deny

/-- The members have one `key`, and it is an access. -/
def HasAccess (key : Bytes) (ms : List (Member Value)) : Prop :=
  ∃ v, valuesAt key ms = [v] ∧ IsAccess v

def accessAt (key : Bytes) (ms : List (Member Value)) : Access :=
  match valuesAt key ms with
  | v :: _ => accessOf v
  | [] => .deny

structure DefaultsMembers (ms : List (Member Value)) : Prop where
  keys : ∀ m ∈ ms, 0x5C ∉ m.key.val
  visibility : HasAccess (ascii "visibility") ms
  invocation : HasAccess (ascii "invocation") ms

def IsDefaults (v : Value) : Prop := ∃ gap ms, v = .obj gap ms ∧ DefaultsMembers ms

def defaultsOf (v : Value) : PolicyDefaults where
  visible := accessAt (ascii "visibility") (membersOf v)
  callable := accessAt (ascii "invocation") (membersOf v)

/-- A tool name: a non-empty string, spelled without escapes. -/
def IsName (v : Value) : Prop := ∃ t : StringText, v = .str t ∧ 0x5C ∉ t.val ∧ t.val ≠ []

structure RuleMembers (ms : List (Member Value)) : Prop where
  keys : ∀ m ∈ ms, 0x5C ∉ m.key.val
  name : ∃ v, valuesAt (ascii "name") ms = [v] ∧ IsName v
  visibility : HasAccess (ascii "visibility") ms
  invocation : HasAccess (ascii "invocation") ms

def IsRule (v : Value) : Prop := ∃ gap ms, v = .obj gap ms ∧ RuleMembers ms

def nameAt (ms : List (Member Value)) : Bytes :=
  match valuesAt (ascii "name") ms with
  | v :: _ => plainText v
  | [] => []

def ruleOf (v : Value) : ToolRule where
  name := nameAt (membersOf v)
  visible := accessAt (ascii "visibility") (membersOf v)
  callable := accessAt (ascii "invocation") (membersOf v)

def IsRules (v : Value) : Prop := ∃ gap es, v = .arr gap es ∧ ∀ e ∈ es, IsRule e.value

def rulesOf (v : Value) : List ToolRule := (elementsOf v).map fun e => ruleOf e.value

/-- The grammar of policies, on the members of the document. -/
structure IsPolicy (ms : List (Member Value)) : Prop where
  keys : ∀ m ∈ ms, 0x5C ∉ m.key.val
  version : ∃ t : NumberText, valuesAt (ascii "version") ms = [.num t] ∧
    t.val = ascii "1"
  defaults : ∃ v, valuesAt (ascii "defaults") ms = [v] ∧ IsDefaults v
  tools : (valuesAt (ascii "tools") ms).length ≤ 1
  rules : ∀ v ∈ valuesAt (ascii "tools") ms, IsRules v

def policyDefaults (ms : List (Member Value)) : PolicyDefaults :=
  match valuesAt (ascii "defaults") ms with
  | v :: _ => defaultsOf v
  | [] => {}

/-- The rules in the order of the text. -/
def policyRules (ms : List (Member Value)) : List ToolRule :=
  (valuesAt (ascii "tools") ms).flatMap rulesOf

/-! ## §3  Accesses and names -/

theorem checkKey_ok {σ : Type} (st : σ) (raw : Bytes) :
    checkKey st (tokenOf raw) = .ok () ↔ 0x5C ∉ raw := by
  simp [checkKey, tokenOf]

theorem allow_ne_deny : ascii "allow" ≠ ascii "deny" := by decide

theorem parseAccess_ok {v : Value} {access : Access} :
    parseAccess.read v = .ok access ↔ IsAccess v ∧ access = accessOf v := by
  unfold parseAccess
  rw [Reader.string_check_ok]
  constructor
  · rintro ⟨t, rfl, h⟩
    split at h
    · cases h
    · split at h
      · rename_i hallow
        cases h
        exact ⟨Or.inl ⟨t, rfl, hallow⟩, (if_pos hallow).symm⟩
      · rename_i hallow
        split at h
        · rename_i hdeny
          cases h
          exact ⟨Or.inr ⟨t, rfl, hdeny⟩, (if_neg hallow).symm⟩
        · cases h
  · rintro ⟨h | h, rfl⟩
    · obtain ⟨t, rfl, ht⟩ := h
      refine ⟨t, rfl, ?_⟩
      have hescape : (tokenOf t.val).hasEscape = false := by
        rw [ht]
        decide
      rw [hescape, if_neg (by simp), if_pos (show (tokenOf t.val).contents = _ from ht),
        accessOf, if_pos (show plainText (.str t) = _ from ht)]
    · obtain ⟨t, rfl, ht⟩ := h
      refine ⟨t, rfl, ?_⟩
      have hescape : (tokenOf t.val).hasEscape = false := by
        rw [ht]
        decide
      have hallow : t.val ≠ ascii "allow" := by
        rw [ht]
        exact allow_ne_deny.symm
      rw [hescape, if_neg (by simp), if_neg (show (tokenOf t.val).contents ≠ _ from hallow),
        if_pos (show (tokenOf t.val).contents = _ from ht), accessOf,
        if_neg (show plainText (.str t) ≠ _ from hallow)]

theorem parseName_ok {v : Value} {name : Bytes} :
    parseName.read v = .ok name ↔ IsName v ∧ name = plainText v := by
  unfold parseName
  rw [Reader.string_check_ok]
  constructor
  · rintro ⟨t, rfl, h⟩
    split at h
    · cases h
    · rename_i hescape
      split at h
      · cases h
      · rename_i hempty
        cases h
        exact ⟨⟨t, rfl, by simpa [tokenOf] using hescape, hempty⟩, rfl⟩
  · rintro ⟨⟨t, rfl, hescape, hempty⟩, rfl⟩
    refine ⟨t, rfl, ?_⟩
    rw [if_neg (by simpa [tokenOf] using hescape),
      if_neg (show (tokenOf t.val).contents ≠ [] from hempty)]
    rfl

theorem parseVersion_ok {v : Value} {u : Unit} :
    parseVersion.read v = .ok u ↔
      (∃ t : NumberText, v = .num t ∧ t.val = ascii "1") ∧ u = () :=
  Reader.number_token_ok

/-- An object whose loop runs at `level` is within the limit: so are the members
that the loop skips. -/
def Fits (level maxDepth : Nat) (known : List Bytes) (v : Value) : Prop :=
  level ≤ maxDepth ∧
    ∀ m ∈ membersOf v, m.key.val ∉ known → level + m.value.nesting ≤ maxDepth

theorem fits_of_depth {level maxDepth : Nat} {gap : Gap} {ms : List (Member Value)}
    (h : level + (Value.obj gap ms).depth ≤ maxDepth + 1) (known : List Bytes) :
    Fits level maxDepth known (.obj gap ms) := by
  rw [Value.depth] at h
  refine ⟨by omega, fun m hm _ => ?_⟩
  have hmember := membersDepth_le.mp (le_refl (membersDepth ms)) m hm
  have hnesting := nesting_le_depth m.value
  omega

theorem accessAt_of_eq {key : Bytes} {ms : List (Member Value)} {v : Value}
    (h : valuesAt key ms = [v]) : accessAt key ms = accessOf v := by
  rw [accessAt, h]

/-! ## §4  `parse_defaults` -/

def defaultsKeys : List Bytes := [ascii "visibility", ascii "invocation"]

def DefaultsState.seen (st : DefaultsState) (key : Bytes) : Bool :=
  if key = ascii "visibility" then st.sawVisibility
  else if key = ascii "invocation" then st.sawInvocation
  else false

def DefaultsState.update (st : DefaultsState) (key : Bytes) (v : Value) :
    DefaultsState :=
  if key = ascii "visibility" then
    { st with sawVisibility := true, defaults.visible := accessOf v }
  else if key = ascii "invocation" then
    { st with sawInvocation := true, defaults.callable := accessOf v }
  else st

def defaultsMemberOk (maxDepth : Nat) (key : Bytes) (v : Value) : Prop :=
  if key = ascii "visibility" then IsAccess v
  else if key = ascii "invocation" then IsAccess v
  else 2 + v.nesting ≤ maxDepth

theorem defaults_oncePerKey (maxDepth : Nat) :
    OncePerKey (defaultsReader maxDepth) defaultsKeys DefaultsState.seen
      (defaultsMemberOk maxDepth) DefaultsState.update where
  key := checkKey_ok
  member st raw v st' := by
    show (DefaultsState.member maxDepth st (tokenOf raw)).read v = .ok st' ↔ _
    unfold DefaultsState.seen defaultsMemberOk DefaultsState.update
    by_cases hvis : raw = ascii "visibility"
    · have hm : DefaultsState.member maxDepth st (tokenOf raw) = _ := if_pos hvis
      simp only [hm, if_pos hvis]
      exact Reader.once_map_ok fun access => parseAccess_ok
    · by_cases hinv : raw = ascii "invocation"
      · have hm : DefaultsState.member maxDepth st (tokenOf raw) = _ :=
          (if_neg hvis).trans (if_pos hinv)
        simp only [hm, if_neg hvis, if_pos hinv]
        exact Reader.once_map_ok fun access => parseAccess_ok
      · have hm : DefaultsState.member maxDepth st (tokenOf raw) = _ :=
          (if_neg hvis).trans (if_neg hinv)
        simp only [hm, if_neg hvis, if_neg hinv, true_and]
        exact skipValue_map_ok
  marks st raw v key := by
    unfold DefaultsState.update DefaultsState.seen defaultsKeys
    grind
  unknown st key h := by
    unfold DefaultsState.seen
    unfold defaultsKeys at h
    grind

theorem defaultsMemberOk_other {maxDepth : Nat} {key : Bytes} {v : Value}
    (h : key ∉ defaultsKeys) :
    defaultsMemberOk maxDepth key v = (2 + v.nesting ≤ maxDepth) := by
  simp only [defaultsKeys, List.mem_cons, List.not_mem_nil, or_false, not_or] at h
  rw [defaultsMemberOk, if_neg h.1, if_neg h.2]

theorem defaults_init (key : Bytes) : ({} : DefaultsState).seen key = false := by
  unfold DefaultsState.seen
  split_ifs <;> rfl

theorem DefaultsState.update_visible (st : DefaultsState) (raw : Bytes) (v : Value) :
    (st.update raw v).defaults.visible =
      if raw = ascii "visibility" then accessOf v else st.defaults.visible := by
  unfold DefaultsState.update
  split_ifs <;> rfl

theorem DefaultsState.update_callable (st : DefaultsState) (raw : Bytes) (v : Value) :
    (st.update raw v).defaults.callable =
      if raw = ascii "invocation" then accessOf v else st.defaults.callable := by
  unfold DefaultsState.update
  by_cases hvis : raw = ascii "visibility"
  · have hne : raw ≠ ascii "invocation" := by
      rw [hvis]
      decide
    rw [if_pos hvis, if_neg hne]
  · rw [if_neg hvis]
    split_ifs <;> rfl

/-- Both accesses are set by the members of their names. -/
theorem defaults_final {ms : List (Member Value)} (h : DefaultsMembers ms)
    (gap : Gap) : (updates DefaultsState.update {} ms).defaults =
      defaultsOf (.obj gap ms) := by
  obtain ⟨vis, hvis, -⟩ := h.visibility
  obtain ⟨inv, hinv, -⟩ := h.invocation
  have hv := updates_field (fun st : DefaultsState => st.defaults.visible) _ accessOf
    DefaultsState.update_visible {} ms
  have hi := updates_field (fun st : DefaultsState => st.defaults.callable) _ accessOf
    DefaultsState.update_callable {} ms
  rw [hvis] at hv
  rw [hinv] at hi
  unfold defaultsOf membersOf
  rw [accessAt_of_eq hvis, accessAt_of_eq hinv]
  exact congrArg₂ PolicyDefaults.mk hv hi

theorem DefaultsState.finish_ok (st : DefaultsState) (exit : LoopExit)
    (hexit : exit ≠ .cut) (defaults : PolicyDefaults) :
    st.finish exit = .ok defaults ↔
      (∀ key ∈ defaultsKeys, st.seen key = true) ∧ defaults = st.defaults := by
  have hvis : st.seen (ascii "visibility") = st.sawVisibility := rfl
  have hinv : st.seen (ascii "invocation") = st.sawInvocation := rfl
  unfold DefaultsState.finish defaultsKeys
  rw [if_neg hexit, List.forall_mem_cons, List.forall_mem_singleton, hvis, hinv]
  cases st.sawVisibility
  · simp
  · cases st.sawInvocation
    · simp
    · simp [eq_comm]

theorem defaultsMembers_iff {maxDepth : Nat} {ms : List (Member Value)} :
    OnceMembers defaultsKeys defaultsKeys (defaultsMemberOk maxDepth) ms ↔
      DefaultsMembers ms ∧
        ∀ m ∈ ms, m.key.val ∉ defaultsKeys → 2 + m.value.nesting ≤ maxDepth := by
  rw [onceMembers_all_iff]
  unfold defaultsKeys
  rw [List.forall_mem_cons, List.forall_mem_singleton]
  have hother : (∀ m ∈ ms, m.key.val ∉ defaultsKeys →
      defaultsMemberOk maxDepth m.key.val m.value) ↔
        ∀ m ∈ ms, m.key.val ∉ defaultsKeys → 2 + m.value.nesting ≤ maxDepth :=
    forall₃_congr fun m _ hkey => iff_of_eq (defaultsMemberOk_other hkey)
  constructor
  · rintro ⟨hkeys, ⟨hvis, hinv⟩, hskips⟩
    exact ⟨⟨hkeys, hvis, hinv⟩, hother.mp hskips⟩
  · rintro ⟨h, hskips⟩
    exact ⟨h.keys, ⟨h.visibility, h.invocation⟩, hother.mpr hskips⟩

/-- `parse_defaults` reads exactly the defaults objects. -/
theorem parseDefaults_ok {maxDepth : Nat} {v : Value} {defaults : PolicyDefaults} :
    (parseDefaults maxDepth).read v = .ok defaults ↔
      (IsDefaults v ∧ Fits 2 maxDepth defaultsKeys v) ∧ defaults = defaultsOf v := by
  unfold parseDefaults
  by_cases hlow : maxDepth < 2
  · rw [if_pos hlow]
    exact iff_of_false nofun fun h => not_le.mpr hlow h.1.2.1
  rw [if_neg hlow, (defaults_oncePerKey maxDepth).object_ok defaults_init
    (fun _ hkey => hkey) DefaultsState.finish_ok]
  constructor
  · rintro ⟨gap, ms, rfl, hms, rfl⟩
    obtain ⟨hmembers, hskips⟩ := defaultsMembers_iff.mp hms
    exact ⟨⟨⟨gap, ms, rfl, hmembers⟩, not_lt.mp hlow, hskips⟩, defaults_final hmembers gap⟩
  · rintro ⟨⟨⟨gap, ms, rfl, hmembers⟩, -, hskips⟩, rfl⟩
    exact ⟨gap, ms, rfl, defaultsMembers_iff.mpr ⟨hmembers, hskips⟩,
      (defaults_final hmembers gap).symm⟩

/-! ## §5  `parse_tool` and `parse_tools` -/

def toolKeys : List Bytes := [ascii "name", ascii "visibility", ascii "invocation"]

def ToolState.seen (st : ToolState) (key : Bytes) : Bool :=
  if key = ascii "name" then st.sawName
  else if key = ascii "visibility" then st.sawVisibility
  else if key = ascii "invocation" then st.sawInvocation
  else false

def ToolState.update (st : ToolState) (key : Bytes) (v : Value) : ToolState :=
  if key = ascii "name" then { st with sawName := true, tool.name := plainText v }
  else if key = ascii "visibility" then
    { st with sawVisibility := true, tool.visible := accessOf v }
  else if key = ascii "invocation" then
    { st with sawInvocation := true, tool.callable := accessOf v }
  else st

def toolMemberOk (maxDepth : Nat) (key : Bytes) (v : Value) : Prop :=
  if key = ascii "name" then IsName v
  else if key = ascii "visibility" then IsAccess v
  else if key = ascii "invocation" then IsAccess v
  else 3 + v.nesting ≤ maxDepth

theorem tool_oncePerKey (maxDepth : Nat) :
    OncePerKey (toolReader maxDepth) toolKeys ToolState.seen (toolMemberOk maxDepth)
      ToolState.update where
  key := checkKey_ok
  member st raw v st' := by
    show (ToolState.member maxDepth st (tokenOf raw)).read v = .ok st' ↔ _
    unfold ToolState.seen toolMemberOk ToolState.update
    by_cases hname : raw = ascii "name"
    · have hm : ToolState.member maxDepth st (tokenOf raw) = _ := if_pos hname
      simp only [hm, if_pos hname]
      exact Reader.once_map_ok fun name => parseName_ok
    · by_cases hvis : raw = ascii "visibility"
      · have hm : ToolState.member maxDepth st (tokenOf raw) = _ :=
          (if_neg hname).trans (if_pos hvis)
        simp only [hm, if_neg hname, if_pos hvis]
        exact Reader.once_map_ok fun access => parseAccess_ok
      · by_cases hinv : raw = ascii "invocation"
        · have hm : ToolState.member maxDepth st (tokenOf raw) = _ :=
            (if_neg hname).trans ((if_neg hvis).trans (if_pos hinv))
          simp only [hm, if_neg hname, if_neg hvis, if_pos hinv]
          exact Reader.once_map_ok fun access => parseAccess_ok
        · have hm : ToolState.member maxDepth st (tokenOf raw) = _ :=
            (if_neg hname).trans ((if_neg hvis).trans (if_neg hinv))
          simp only [hm, if_neg hname, if_neg hvis, if_neg hinv, true_and]
          exact skipValue_map_ok
  marks st raw v key := by
    unfold ToolState.update ToolState.seen toolKeys
    grind
  unknown st key h := by
    unfold ToolState.seen
    unfold toolKeys at h
    grind

theorem toolMemberOk_other {maxDepth : Nat} {key : Bytes} {v : Value}
    (h : key ∉ toolKeys) : toolMemberOk maxDepth key v = (3 + v.nesting ≤ maxDepth) := by
  simp only [toolKeys, List.mem_cons, List.not_mem_nil, or_false, not_or] at h
  rw [toolMemberOk, if_neg h.1, if_neg h.2.1, if_neg h.2.2]

theorem tool_init (key : Bytes) : ({} : ToolState).seen key = false := by
  unfold ToolState.seen
  split_ifs <;> rfl

theorem ToolState.update_name (st : ToolState) (raw : Bytes) (v : Value) :
    (st.update raw v).tool.name =
      if raw = ascii "name" then plainText v else st.tool.name := by
  unfold ToolState.update
  split_ifs <;> rfl

theorem ToolState.update_visible (st : ToolState) (raw : Bytes) (v : Value) :
    (st.update raw v).tool.visible =
      if raw = ascii "visibility" then accessOf v else st.tool.visible := by
  have hne : ascii "name" ≠ ascii "visibility" := by decide
  unfold ToolState.update
  grind

theorem ToolState.update_callable (st : ToolState) (raw : Bytes) (v : Value) :
    (st.update raw v).tool.callable =
      if raw = ascii "invocation" then accessOf v else st.tool.callable := by
  have hname : ascii "name" ≠ ascii "invocation" := by decide
  have hvis : ascii "visibility" ≠ ascii "invocation" := by decide
  unfold ToolState.update
  grind

theorem tool_final {ms : List (Member Value)} (h : RuleMembers ms) (gap : Gap) :
    (updates ToolState.update {} ms).tool = ruleOf (.obj gap ms) := by
  obtain ⟨name, hname, -⟩ := h.name
  obtain ⟨vis, hvis, -⟩ := h.visibility
  obtain ⟨inv, hinv, -⟩ := h.invocation
  have hn := updates_field (fun st : ToolState => st.tool.name) _ plainText
    ToolState.update_name {} ms
  have hv := updates_field (fun st : ToolState => st.tool.visible) _ accessOf
    ToolState.update_visible {} ms
  have hi := updates_field (fun st : ToolState => st.tool.callable) _ accessOf
    ToolState.update_callable {} ms
  rw [hname] at hn
  rw [hvis] at hv
  rw [hinv] at hi
  unfold ruleOf membersOf
  rw [nameAt, hname, accessAt_of_eq hvis, accessAt_of_eq hinv]
  generalize (updates ToolState.update {} ms).tool = tool at hn hv hi
  cases tool
  simp only [List.foldl_cons, List.foldl_nil] at hn hv hi
  rw [hn, hv, hi]

theorem ToolState.finish_ok (st : ToolState) (exit : LoopExit) (hexit : exit ≠ .cut)
    (rule : ToolRule) :
    st.finish exit = .ok rule ↔ (∀ key ∈ toolKeys, st.seen key = true) ∧ rule = st.tool := by
  have hname : st.seen (ascii "name") = st.sawName := rfl
  have hvis : st.seen (ascii "visibility") = st.sawVisibility := rfl
  have hinv : st.seen (ascii "invocation") = st.sawInvocation := rfl
  unfold ToolState.finish toolKeys
  rw [if_neg hexit, List.forall_mem_cons, List.forall_mem_cons, List.forall_mem_singleton,
    hname, hvis, hinv]
  cases st.sawName
  · simp
  · cases st.sawVisibility
    · simp
    · cases st.sawInvocation
      · simp
      · simp [eq_comm]

theorem ruleMembers_iff {maxDepth : Nat} {ms : List (Member Value)} :
    OnceMembers toolKeys toolKeys (toolMemberOk maxDepth) ms ↔
      RuleMembers ms ∧ ∀ m ∈ ms, m.key.val ∉ toolKeys → 3 + m.value.nesting ≤ maxDepth := by
  rw [onceMembers_all_iff]
  unfold toolKeys
  rw [List.forall_mem_cons, List.forall_mem_cons, List.forall_mem_singleton]
  have hother : (∀ m ∈ ms, m.key.val ∉ toolKeys →
      toolMemberOk maxDepth m.key.val m.value) ↔
        ∀ m ∈ ms, m.key.val ∉ toolKeys → 3 + m.value.nesting ≤ maxDepth :=
    forall₃_congr fun m _ hkey => iff_of_eq (toolMemberOk_other hkey)
  constructor
  · rintro ⟨hkeys, ⟨hname, hvis, hinv⟩, hskips⟩
    exact ⟨⟨hkeys, hname, hvis, hinv⟩, hother.mp hskips⟩
  · rintro ⟨h, hskips⟩
    exact ⟨h.keys, ⟨h.name, h.visibility, h.invocation⟩, hother.mpr hskips⟩

/-- `parse_tool` reads exactly the rules. -/
theorem parseTool_ok {maxDepth : Nat} {v : Value} {rule : ToolRule} :
    (parseTool maxDepth).read v = .ok rule ↔
      (IsRule v ∧ Fits 3 maxDepth toolKeys v) ∧ rule = ruleOf v := by
  unfold parseTool
  by_cases hlow : maxDepth < 3
  · rw [if_pos hlow]
    exact iff_of_false nofun fun h => not_le.mpr hlow h.1.2.1
  rw [if_neg hlow, (tool_oncePerKey maxDepth).object_ok tool_init (fun _ hkey => hkey)
    ToolState.finish_ok]
  constructor
  · rintro ⟨gap, ms, rfl, hms, rfl⟩
    obtain ⟨hmembers, hskips⟩ := ruleMembers_iff.mp hms
    exact ⟨⟨⟨gap, ms, rfl, hmembers⟩, not_lt.mp hlow, hskips⟩, tool_final hmembers gap⟩
  · rintro ⟨⟨⟨gap, ms, rfl, hmembers⟩, -, hskips⟩, rfl⟩
    exact ⟨gap, ms, rfl, ruleMembers_iff.mpr ⟨hmembers, hskips⟩,
      (tool_final hmembers gap).symm⟩

theorem tools_elements {maxDepth : Nat} {es : List (Element Value)}
    {tools rules : List ToolRule} :
    (toolsReader maxDepth).elements tools es = .ok rules ↔
      (∀ e ∈ es, IsRule e.value ∧ Fits 3 maxDepth toolKeys e.value) ∧
        rules = tools ++ es.map fun e => ruleOf e.value := by
  induction es generalizing tools with
  | nil => simp [ArrayReader.elements, eq_comm]
  | cons e es ih =>
      have hread : ∀ rules, ((toolsReader maxDepth).element tools).read e.value =
          .ok rules ↔ (IsRule e.value ∧ Fits 3 maxDepth toolKeys e.value) ∧
            rules = tools ++ [ruleOf e.value] := by
        intro rules
        have hmap := @Reader.map_ok _ _ _ (parseTool maxDepth)
          (fun tool => tools ++ [tool]) e.value rules
        refine hmap.trans ⟨?_, ?_⟩
        · rintro ⟨rule, hrule, rfl⟩
          obtain ⟨hok, rfl⟩ := parseTool_ok.mp hrule
          exact ⟨hok, rfl⟩
        · rintro ⟨hok, rfl⟩
          exact ⟨_, parseTool_ok.mpr ⟨hok, rfl⟩, rfl⟩
      rw [ArrayReader.elements, except_bind_ok, List.forall_mem_cons]
      constructor
      · rintro ⟨tools', htools, hrun⟩
        obtain ⟨hok, rfl⟩ := (hread _).mp htools
        obtain ⟨hall, rfl⟩ := ih.mp hrun
        exact ⟨⟨hok, hall⟩, by simp⟩
      · rintro ⟨⟨hok, hall⟩, rfl⟩
        refine ⟨_, (hread _).mpr ⟨hok, rfl⟩, ih.mpr ⟨hall, ?_⟩⟩
        simp

def FitsRules (maxDepth : Nat) (v : Value) : Prop :=
  2 ≤ maxDepth ∧ ∀ e ∈ elementsOf v, Fits 3 maxDepth toolKeys e.value

/-- `parse_tools` reads exactly the arrays of rules and appends what they say. -/
theorem parseTools_ok {maxDepth : Nat} {v : Value} {tools rules : List ToolRule} :
    (parseTools maxDepth tools).read v = .ok rules ↔
      (IsRules v ∧ FitsRules maxDepth v) ∧ rules = tools ++ rulesOf v := by
  unfold parseTools
  by_cases hlow : maxDepth < 2
  · rw [if_pos hlow]
    constructor
    · intro h
      cases h
    · rintro ⟨⟨-, hfits⟩, -⟩
      exact absurd hfits.1 (not_le.mpr hlow)
  rw [if_neg hlow, ArrayReader.array_ok]
  constructor
  · rintro ⟨gap, es, rfl, hrun⟩
    obtain ⟨hall, rfl⟩ := tools_elements.mp hrun
    exact ⟨⟨⟨gap, es, rfl, fun e he => (hall e he).1⟩, not_lt.mp hlow,
      fun e he => (hall e he).2⟩, rfl⟩
  · rintro ⟨⟨⟨gap, es, rfl, hall⟩, hfits⟩, rfl⟩
    exact ⟨gap, es, rfl,
      tools_elements.mpr ⟨fun e he => ⟨hall e he, hfits.2 e he⟩, rfl⟩⟩

/-! ## §6  `parse` -/

def policyKeys : List Bytes := [ascii "version", ascii "defaults", ascii "tools"]

def PolicyState.seen (st : PolicyState) (key : Bytes) : Bool :=
  if key = ascii "version" then st.sawVersion
  else if key = ascii "defaults" then st.sawDefaults
  else if key = ascii "tools" then st.sawTools
  else false

def PolicyState.update (st : PolicyState) (key : Bytes) (v : Value) : PolicyState :=
  if key = ascii "version" then { st with sawVersion := true }
  else if key = ascii "defaults" then
    { st with sawDefaults := true, candidate.defaults := defaultsOf v }
  else if key = ascii "tools" then
    { st with
      sawTools := true
      candidate.rules := st.candidate.rules ++ rulesOf v }
  else st

def policyMemberOk (maxDepth : Nat) (key : Bytes) (v : Value) : Prop :=
  if key = ascii "version" then ∃ t : NumberText, v = .num t ∧ t.val = ascii "1"
  else if key = ascii "defaults" then IsDefaults v ∧ Fits 2 maxDepth defaultsKeys v
  else if key = ascii "tools" then IsRules v ∧ FitsRules maxDepth v
  else 1 + v.nesting ≤ maxDepth

theorem policy_oncePerKey (maxDepth : Nat) :
    OncePerKey (policyReader maxDepth) policyKeys PolicyState.seen
      (policyMemberOk maxDepth) PolicyState.update where
  key := checkKey_ok
  member st raw v st' := by
    show (PolicyState.member maxDepth st (tokenOf raw)).read v = .ok st' ↔ _
    unfold PolicyState.seen policyMemberOk PolicyState.update
    by_cases hversion : raw = ascii "version"
    · have hm : PolicyState.member maxDepth st (tokenOf raw) = _ := if_pos hversion
      simp only [hm, if_pos hversion]
      exact Reader.once_map_ok fun u => parseVersion_ok
    · by_cases hdefaults : raw = ascii "defaults"
      · have hm : PolicyState.member maxDepth st (tokenOf raw) = _ :=
          (if_neg hversion).trans (if_pos hdefaults)
        simp only [hm, if_neg hversion, if_pos hdefaults]
        exact Reader.once_map_ok fun defaults => parseDefaults_ok
      · by_cases htools : raw = ascii "tools"
        · have hm : PolicyState.member maxDepth st (tokenOf raw) = _ :=
            (if_neg hversion).trans ((if_neg hdefaults).trans (if_pos htools))
          simp only [hm, if_neg hversion, if_neg hdefaults, if_pos htools]
          exact Reader.once_map_ok fun rules => parseTools_ok
        · have hm : PolicyState.member maxDepth st (tokenOf raw) = _ :=
            (if_neg hversion).trans ((if_neg hdefaults).trans (if_neg htools))
          simp only [hm, if_neg hversion, if_neg hdefaults, if_neg htools, true_and]
          exact skipValue_map_ok
  marks st raw v key := by
    unfold PolicyState.update PolicyState.seen policyKeys
    grind
  unknown st key h := by
    unfold PolicyState.seen
    unfold policyKeys at h
    grind

theorem policy_init (key : Bytes) : ({} : PolicyState).seen key = false := by
  unfold PolicyState.seen
  split_ifs <;> rfl

theorem IsPolicy.known {ms : List (Member Value)} (h : IsPolicy ms) {maxDepth : Nat}
    (hdefaults : ∀ v ∈ valuesAt (ascii "defaults") ms, Fits 2 maxDepth defaultsKeys v)
    (hrules : ∀ v ∈ valuesAt (ascii "tools") ms, FitsRules maxDepth v) :
    ∀ key ∈ policyKeys, (valuesAt key ms).length ≤ 1 ∧
      ∀ v ∈ valuesAt key ms, policyMemberOk maxDepth key v := by
  intro key hkey
  simp only [policyKeys, List.mem_cons, List.not_mem_nil, or_false] at hkey
  rcases hkey with rfl | rfl | rfl
  · obtain ⟨t, ht, hone⟩ := h.version
    exact single_valuesAt ⟨.num t, ht, t, rfl, hone⟩
  · obtain ⟨v, hv, hok⟩ := h.defaults
    refine single_valuesAt ⟨v, hv, hok, hdefaults v ?_⟩
    rw [hv]
    exact List.mem_singleton.mpr rfl
  · exact ⟨h.tools, fun v hv => ⟨h.rules v hv, hrules v hv⟩⟩

theorem policyMemberOk_other {maxDepth : Nat} {key : Bytes} {v : Value}
    (h : key ∉ policyKeys) :
    policyMemberOk maxDepth key v = (1 + v.nesting ≤ maxDepth) := by
  simp only [policyKeys, List.mem_cons, List.not_mem_nil, or_false, not_or] at h
  rw [policyMemberOk, if_neg h.1, if_neg h.2.1, if_neg h.2.2]

theorem PolicyState.update_defaults (st : PolicyState) (raw : Bytes) (v : Value) :
    (st.update raw v).candidate.defaults =
      if raw = ascii "defaults" then defaultsOf v else st.candidate.defaults := by
  have hne : ascii "version" ≠ ascii "defaults" := by decide
  unfold PolicyState.update
  grind

/-- The rules pile up in the order of the text. -/
theorem updates_rules (st : PolicyState) (ms : List (Member Value)) :
    (updates PolicyState.update st ms).candidate.rules =
      st.candidate.rules ++ policyRules ms := by
  have hversion : ascii "version" ≠ ascii "tools" := by decide
  have hdefaults : ascii "defaults" ≠ ascii "tools" := by decide
  induction ms generalizing st with
  | nil => simp [updates, policyRules, valuesAt]
  | cons m ms ih =>
      show (updates PolicyState.update (st.update m.key.val m.value) ms).candidate.rules = _
      rw [ih]
      unfold PolicyState.update policyRules
      by_cases hm : m.key.val = ascii "tools"
      · rw [valuesAt_cons_of_eq hm, hm, if_neg hversion.symm, if_neg hdefaults.symm,
          if_pos rfl]
        simp
      · rw [valuesAt_cons_of_ne hm, if_neg hm]
        split_ifs <;> rfl

theorem policy_final {ms : List (Member Value)} (h : IsPolicy ms) :
    (updates PolicyState.update {} ms).candidate =
      ⟨policyDefaults ms, policyRules ms⟩ := by
  obtain ⟨v, hv, -⟩ := h.defaults
  have hd := updates_field (fun st : PolicyState => st.candidate.defaults) _ defaultsOf
    PolicyState.update_defaults {} ms
  have hr := updates_rules {} ms
  rw [hv] at hd
  rw [policyDefaults, hv]
  exact congrArg₂ PolicyDefinition.mk hd hr

/-- A policy within the nesting limit leaves every loop room for its members. -/
theorem fits_of_policy {maxDepth : Nat} {gap : Gap} {ms : List (Member Value)}
    (h : IsPolicy ms) (hdepth : (Value.obj gap ms).depth ≤ maxDepth) :
    (∀ v ∈ valuesAt (ascii "defaults") ms, Fits 2 maxDepth defaultsKeys v) ∧
      (∀ v ∈ valuesAt (ascii "tools") ms, FitsRules maxDepth v) ∧
      ∀ m ∈ ms, 1 + m.value.nesting ≤ maxDepth := by
  have hmember : ∀ m ∈ ms, 1 + m.value.depth ≤ maxDepth := by
    intro m hm
    have hle := membersDepth_le.mp (le_refl (membersDepth ms)) m hm
    rw [Value.depth] at hdepth
    omega
  refine ⟨fun v hv => ?_, fun v hv => ?_, fun m hm => ?_⟩
  · obtain ⟨d, hd, gap', ms', rfl, -⟩ := h.defaults
    rw [hd, List.mem_singleton] at hv
    subst hv
    obtain ⟨m, hm, -, hvalue⟩ := mem_valuesAt.mp
      (show Value.obj gap' ms' ∈ valuesAt (ascii "defaults") ms by simp [hd])
    have hle := hmember m hm
    rw [hvalue] at hle
    exact fits_of_depth (by omega) defaultsKeys
  · obtain ⟨gap', es, rfl, hes⟩ := h.rules v hv
    obtain ⟨m, hm, -, hvalue⟩ := mem_valuesAt.mp hv
    have hle := hmember m hm
    rw [hvalue, Value.depth] at hle
    refine ⟨by omega, fun e he => ?_⟩
    obtain ⟨gap'', ms', hobj, -⟩ := hes e he
    have helement := elementsDepth_le.mp (le_refl (elementsDepth es)) e he
    rw [hobj] at helement ⊢
    exact fits_of_depth (by omega) toolKeys
  · have hle := hmember m hm
    have hnesting := nesting_le_depth m.value
    omega

theorem document_policy {config : Config} {json : Bytes} {st : PolicyState}
    {exit : LoopExit} :
    ((policyReader config.maxNestingDepth).loop.document
      ⟨.malformedJson, "policy must be a JSON object"⟩ PolicyState.leave
      (fun _ => ⟨.malformedJson, "trailing data after policy object"⟩) {} json).1 =
        .ok (st, exit) ↔
      ∃ ms tail, DocumentText exit ms tail json ∧
        (policyReader config.maxNestingDepth).members {} ms = .ok st ∧
        (exit = .empty ∨ exit = .closed) := by
  rw [ObjectReader.document_ok]
  constructor
  · rintro ⟨ms, tail, htext, hrun, hleave, htrailing⟩
    refine ⟨ms, tail, htext, hrun, ?_⟩
    refine LoopExit.whole_iff.mpr ⟨htrailing, ?_⟩
    rintro rfl
    cases hleave
  · rintro ⟨ms, tail, htext, hrun, hexit⟩
    refine ⟨ms, tail, htext, hrun, ?_, ?_⟩
    · unfold PolicyState.leave
      rcases hexit with rfl | rfl <;> rfl
    · rcases hexit with rfl | rfl <;> decide

/-- The keys that every policy has. -/
def requiredKeys : List Bytes := [ascii "version", ascii "defaults"]

theorem requiredKeys_known : ∀ key ∈ requiredKeys, key ∈ policyKeys := by
  unfold requiredKeys policyKeys
  simp

theorem PolicyState.finish_ok {st : PolicyState} {definition : PolicyDefinition} :
    st.finish = .ok definition ↔ (∀ key ∈ requiredKeys, st.seen key = true) ∧
      (st.candidate.rules.map ToolRule.name).Nodup ∧
      definition = ⟨st.candidate.defaults, sortOn ToolRule.name st.candidate.rules⟩ := by
  have hadjacent := adjacentEqual_sortOn ToolRule.name st.candidate.rules
  have hversion : st.seen (ascii "version") = st.sawVersion := rfl
  have hdefaults : st.seen (ascii "defaults") = st.sawDefaults := rfl
  unfold PolicyState.finish requiredKeys
  rw [List.forall_mem_cons, List.forall_mem_singleton, hversion, hdefaults]
  cases st.sawVersion
  · simp
  cases st.sawDefaults
  · simp
  by_cases hnodup : (st.candidate.rules.map ToolRule.name).Nodup
  · simp only [hadjacent.mpr hnodup]
    simp [hnodup, eq_comm]
  · have hdup : adjacentEqual ToolRule.name
        (sortOn ToolRule.name st.candidate.rules) = true := by
      by_contra hfalse
      exact hnodup (hadjacent.mp (by simpa using hfalse))
    simp only [hdup]
    simp [hnodup]

/-- Where the text is not too deep, the grammar is all that the loop asks for. -/
theorem policyMembers_iff {maxDepth : Nat} {gap : Gap} {ms : List (Member Value)}
    (hdepth : (Value.obj gap ms).depth ≤ maxDepth) :
    OnceMembers policyKeys requiredKeys (policyMemberOk maxDepth) ms ↔ IsPolicy ms := by
  have hversion : ascii "version" ∈ requiredKeys := List.mem_cons_self
  have hdefaults : ascii "defaults" ∈ requiredKeys :=
    List.mem_cons_of_mem _ List.mem_cons_self
  have htools : ascii "tools" ∈ policyKeys :=
    List.mem_cons_of_mem _ (List.mem_cons_of_mem _ List.mem_cons_self)
  constructor
  · intro h
    obtain ⟨v, hv, t, rfl, ht⟩ := h.single (requiredKeys_known _ hversion) hversion
    obtain ⟨d, hd, hok, -⟩ := h.single (requiredKeys_known _ hdefaults) hdefaults
    exact {
      keys := h.keys
      version := ⟨t, hv, ht⟩
      defaults := ⟨d, hd, hok⟩
      tools := h.once _ htools
      rules := fun v hv => (forall_mem_valuesAt h.values (ascii "tools") v hv).1 }
  · intro h
    obtain ⟨hfitsDefaults, hfitsRules, hskip⟩ := fits_of_policy h hdepth
    have hknown := h.known hfitsDefaults hfitsRules
    refine ⟨h.keys, fun key hkey => (hknown key hkey).1, ?_, fun m hm => ?_⟩
    · obtain ⟨t, ht, -⟩ := h.version
      obtain ⟨d, hd, -⟩ := h.defaults
      unfold requiredKeys
      rw [List.forall_mem_cons, List.forall_mem_singleton, ht, hd]
      exact ⟨List.cons_ne_nil _ _, List.cons_ne_nil _ _⟩
    · by_cases hkey : m.key.val ∈ policyKeys
      · exact (hknown _ hkey).2 _ (mem_valuesAt.mpr ⟨m, hm, rfl, rfl⟩)
      · rw [policyMemberOk_other hkey]
        exact hskip m hm

/-- The loop and the checks behind it, on the members of a text that is not too deep. -/
theorem policy_members {maxDepth : Nat} {gap : Gap} {ms : List (Member Value)}
    (hdepth : (Value.obj gap ms).depth ≤ maxDepth) {definition : PolicyDefinition} :
    ((policyReader maxDepth).members {} ms >>= PolicyState.finish) = .ok definition ↔
      IsPolicy ms ∧ ((policyRules ms).map ToolRule.name).Nodup ∧
        definition = ⟨policyDefaults ms, sortOn ToolRule.name (policyRules ms)⟩ := by
  have hone := policy_oncePerKey maxDepth
  rw [except_bind_ok]
  constructor
  · rintro ⟨st, hrun, hfinish⟩
    obtain ⟨hflags, hnodup, hdefinition⟩ := PolicyState.finish_ok.mp hfinish
    obtain ⟨hms, hcandidate⟩ := (hone.members_finish_ok policy_init requiredKeys_known).mp
      ⟨st, hrun, hflags, (rfl : st.candidate = st.candidate)⟩
    have hpolicy := (policyMembers_iff hdepth).mp hms
    rw [policy_final hpolicy] at hcandidate
    rw [hcandidate] at hnodup hdefinition
    exact ⟨hpolicy, hnodup, hdefinition⟩
  · rintro ⟨hpolicy, hnodup, rfl⟩
    have hms := (policyMembers_iff hdepth).mpr hpolicy
    obtain ⟨st, hrun, hflags, hcandidate⟩ :=
      (hone.members_finish_ok policy_init requiredKeys_known).mpr
        ⟨hms, (policy_final hpolicy).symm⟩
    refine ⟨st, hrun, PolicyState.finish_ok.mpr ⟨hflags, ?_, ?_⟩⟩
    · rwa [← hcandidate]
    · rw [← hcandidate]

/-- A text that is accepted is one complete object. -/
theorem parse_sound {config : Config} {json : Bytes} {definition : PolicyDefinition}
    (h : parse config json = .ok definition) : IsObjectText json := by
  unfold parse at h
  split at h
  · cases h
  · split at h
    · cases h
    · obtain ⟨⟨st, exit⟩, hdocument, -⟩ := except_bind_ok.mp h
      obtain ⟨ms, tail, htext, -, hexit⟩ := document_policy.mp hdocument
      obtain ⟨gap, htext⟩ := isText_of_documentText htext hexit
      exact ⟨gap, ms, htext⟩

/-- `parse` on a well-formed object: the limits, the grammar and distinct names,
and the definition is what the text says. -/
theorem parse_text {config : Config} {json : Bytes} {gap : Gap}
    {ms : List (Member Value)} (htext : IsText json (.obj gap ms))
    {definition : PolicyDefinition} :
    parse config json = .ok definition ↔
      json.length ≤ config.maxFileBytes ∧
        (Value.obj gap ms).depth ≤ config.maxNestingDepth ∧
        IsPolicy ms ∧ ((policyRules ms).map ToolRule.name).Nodup ∧
        definition = ⟨policyDefaults ms, sortOn ToolRule.name (policyRules ms)⟩ := by
  obtain ⟨tail, hdoc⟩ := documentText_of_isText htext
  have hnesting := exceedsNesting_text htext config.maxNestingDepth
  have hdocument : ((policyReader config.maxNestingDepth).loop.document
      ⟨.malformedJson, "policy must be a JSON object"⟩ PolicyState.leave
      (fun _ => ⟨.malformedJson, "trailing data after policy object"⟩) {} json).1 =
        ((policyReader config.maxNestingDepth).members {} ms >>= fun st =>
          .ok (st, exitOf ms)) := by
    rw [ObjectReader.document_agrees _ hdoc (exitOf_ne_trailing ms)]
    unfold PolicyState.leave
    rw [if_neg (exitOf_ne_cut ms)]
    rfl
  unfold parse
  rw [hdocument, hnesting]
  by_cases hlength : json.length ≤ config.maxFileBytes
  · rw [if_neg (not_lt.mpr hlength)]
    by_cases hdepth : (Value.obj gap ms).depth ≤ config.maxNestingDepth
    · rw [if_neg (by simp [hdepth]), bind_assoc]
      exact (policy_members hdepth).trans (by simp [hlength, hdepth])
    · rw [if_pos (by simpa using hdepth)]
      simp [hdepth]
  · rw [if_pos (not_le.mp hlength)]
    simp [hlength]

/-! ## §7  The accepted texts -/

/-- `parse` with its reference argument, which is assigned behind the last
check. -/
def parseInto (config : Config) (json : Bytes) (output : PolicyDefinition) :
    Except PolicyLoadFailure Unit × PolicyDefinition :=
  match parse config json with
  | .ok candidate => (.ok (), candidate)
  | .error failure => (.error failure, output)

theorem parseInto_ok {config : Config} {json : Bytes} {output : PolicyDefinition} :
    (parseInto config json output).1 = .ok () ↔
      ∃ definition, parse config json = .ok definition ∧
        (parseInto config json output).2 = definition := by
  unfold parseInto
  cases parse config json with
  | ok candidate => simp
  | error failure => simp

/-- `json` is a policy of version 1 within the limits. -/
structure Accepted (config : Config) (json : Bytes) (gap : Gap)
    (ms : List (Member Value)) : Prop where
  size : json.length ≤ config.maxFileBytes
  text : IsText json (.obj gap ms)
  depth : (Value.obj gap ms).depth ≤ config.maxNestingDepth
  policy : IsPolicy ms
  distinct : ((policyRules ms).map ToolRule.name).Nodup

theorem parse_ok_iff {config : Config} {json : Bytes} {definition : PolicyDefinition} :
    parse config json = .ok definition ↔ ∃ gap ms, Accepted config json gap ms ∧
      definition = ⟨policyDefaults ms, sortOn ToolRule.name (policyRules ms)⟩ := by
  constructor
  · intro h
    obtain ⟨gap, ms, htext⟩ := parse_sound h
    obtain ⟨hsize, hdepth, hpolicy, hdistinct, hdefinition⟩ := (parse_text htext).mp h
    exact ⟨gap, ms, ⟨hsize, htext, hdepth, hpolicy, hdistinct⟩, hdefinition⟩
  · rintro ⟨gap, ms, ⟨hsize, htext, hdepth, hpolicy, hdistinct⟩, rfl⟩
    exact (parse_text htext).mpr ⟨hsize, hdepth, hpolicy, hdistinct, rfl⟩

/-- The loader accepts exactly the policies of version 1. It then holds their
defaults, and their rules in ascending order of the name, however the text is
read; otherwise the output keeps its value. -/
theorem parse_exact (config : Config) (json : Bytes) (output : PolicyDefinition) :
    ((parseInto config json output).1 = .ok () ↔
        ∃ gap ms, Accepted config json gap ms) ∧
      (∀ gap ms, Accepted config json gap ms →
        (parseInto config json output).2.defaults = policyDefaults ms ∧
          (parseInto config json output).2.rules.Perm (policyRules ms) ∧
          Ascending ToolRule.name (parseInto config json output).2.rules) ∧
      ∀ failure, (parseInto config json output).1 = .error failure →
        (parseInto config json output).2 = output := by
  refine ⟨?_, ?_, ?_⟩
  · rw [parseInto_ok]
    constructor
    · rintro ⟨definition, hparse, -⟩
      obtain ⟨gap, ms, haccepted, -⟩ := parse_ok_iff.mp hparse
      exact ⟨gap, ms, haccepted⟩
    · rintro ⟨gap, ms, haccepted⟩
      have hparse := parse_ok_iff.mpr ⟨gap, ms, haccepted, rfl⟩
      refine ⟨_, hparse, ?_⟩
      unfold parseInto
      rw [hparse]
  · intro gap ms haccepted
    have hparse := parse_ok_iff.mpr ⟨gap, ms, haccepted, rfl⟩
    unfold parseInto
    rw [hparse]
    refine ⟨rfl, sortOn_perm _ _, ?_⟩
    exact (adjacentEqual_eq_false _ (sortOn_pairwise _ _)).mp
      ((adjacentEqual_sortOn _ _).mpr haccepted.distinct)
  · intro failure hfailure
    unfold parseInto at hfailure ⊢
    cases hparse : parse config json with
    | ok candidate =>
        rw [hparse] at hfailure
        cases hfailure
    | error e => rfl

end PolicyLoader

end NativeGuard.Security

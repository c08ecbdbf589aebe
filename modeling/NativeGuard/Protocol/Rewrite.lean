import NativeGuard.Protocol.Extractor
import NativeGuard.Proxy.ProxyCore

/-!
# Rewriting a tools/list response (`src/tool_call_filter.cpp`)

`parse_tool`, `parse_tools_array`, `parse_result` and
`rewrite_tools_list_response`. The rewriter copies the text up to the tools
array, the slices of the visible tools, and the text from the closing bracket
on. On trees that is `filtered`: the members of the response with the tools
array replaced by its visible elements. `rewritten_text` connects the two, and
`rewritten_iff` says which responses are rewritten at all.
-/

namespace NativeGuard.Protocol

open Json Json.Scan Proxy

/-! ## §1  `parse_tool` -/

structure ToolState where
  sawName : Bool := false
  name : Bytes := []

def checkPlain {σ : Type} (_ : σ) (key : StringToken) : Except Unit Unit :=
  if key.hasEscape then .error () else .ok ()

namespace ToolState

variable (st : ToolState)

def nameMember : Reader Unit ToolState :=
  if st.sawName then .fail ()
  else (Reader.string ()).check fun value =>
    if value.hasEscape ∨ value.contents = [] then .error ()
    else .ok ⟨true, value.contents⟩

def member (maxDepth : Nat) (key : StringToken) : Reader Unit ToolState :=
  if key.contents = ascii "name" then st.nameMember
  else (skipValue 4 maxDepth ()).map fun _ => st

end ToolState

def toolReader (maxDepth : Nat) : ObjectReader ToolState Unit where
  malformed _ := ()
  checkKey := checkPlain
  member st key := st.member maxDepth key

def parseTool (maxDepth : Nat) : Reader Unit Bytes :=
  if maxDepth < 4 then .fail ()
  else (toolReader maxDepth).object () {} fun st exit =>
    if exit = .closed ∧ st.sawName then .ok st.name else .error ()

/-! ## §2  `parse_tools_array` -/

structure ToolsState where
  rewritten : Bytes := []
  removedTools : List Bytes := []
  wroteTool : Bool := false

namespace ToolsState

variable (core : ProxyCore) (st : ToolsState)

def addTool (name slice : Bytes) : ToolsState :=
  if (core.authorizeToolVisibility name).shouldForward then
    { st with
      rewritten := (if st.wroteTool then st.rewritten ++ [0x2C]
        else st.rewritten) ++ slice
      wroteTool := true }
  else { st with removedTools := st.removedTools ++ [name] }

end ToolsState

def toolsReader (core : ProxyCore) (maxDepth : Nat) : ArrayReader ToolsState Unit where
  malformed := ()
  element st := (parseTool maxDepth).captured.map fun (name, slice) =>
    st.addTool core name slice

/-- What the array parser writes through its reference arguments. -/
structure Rewriting where
  rewritten : Bytes := []
  removedTools : List Bytes := []
  arrayClose : Nat := 0

/-- The copy of the message up to and including the opening bracket at `s`. -/
def openArray (message s : Bytes) : ToolsState where
  rewritten := message.take (message.length - s.length + 1)

def ToolsState.close (st : ToolsState) (message rest : Bytes) : Rewriting where
  rewritten := st.rewritten
  removedTools := st.removedTools
  arrayClose := message.length - rest.length - 1

def parseToolsArray (message : Bytes) (maxDepth : Nat) (core : ProxyCore) :
    Scan Unit Rewriting :=
  if maxDepth < 3 then fail ()
  else do
    let s ← remaining
    let st ← ((toolsReader core maxDepth).array () (openArray message s)).scan
    let rest ← remaining
    pure (st.close message rest)

/-! ## §3  `parse_result` -/

structure ResultState where
  sawTools : Bool := false
  out : Rewriting := {}

def resultLoop (message : Bytes) (maxDepth : Nat) (core : ProxyCore) :
    ObjectLoop ResultState Unit where
  malformed _ := ()
  checkKey := checkPlain
  member st key :=
    if key.contents = ascii "tools" then
      if st.sawTools then fail ()
      else do
        let out ← parseToolsArray message maxDepth core
        pure ⟨true, out⟩
    else ((skipValue 2 maxDepth ()).map fun _ => st).scan

def parseResult (message : Bytes) (maxDepth : Nat) (core : ProxyCore) :
    Scan Unit Rewriting :=
  if maxDepth < 2 then fail ()
  else do
    expect 0x7B ()
    let (st, exit) ← (resultLoop message maxDepth core).parse {}
    if exit = .closed ∧ st.sawTools then pure st.out else fail ()

/-! ## §4  `rewrite_tools_list_response` -/

structure ResponseState where
  sawResult : Bool := false
  sawError : Bool := false
  out : Rewriting := {}

/-- The loop condition looks for the brace, so one after a comma closes. -/
def responseLoop (message : Bytes) (maxDepth : Nat) (core : ProxyCore) :
    ObjectLoop ResponseState Unit where
  malformed _ := ()
  checkKey := checkPlain
  member st key :=
    if key.contents = ascii "result" then
      if st.sawResult then fail ()
      else do
        let out ← parseResult message maxDepth core
        pure { st with sawResult := true, out := out }
    else if key.contents = ascii "error" then
      if st.sawError then fail ()
      else ((skipValue 1 maxDepth ()).map fun _ =>
        { st with sawError := true }).scan
    else ((skipValue 1 maxDepth ()).map fun _ => st).scan
  trailing := .closes

/-- `RewriteStatus`, with the text and the removed names where there is one. -/
inductive Rewrite where
  | rewritten (text : Bytes) (removedTools : List Bytes)
  | passthrough
  | malformed
deriving DecidableEq, Repr

def ResponseState.finish (st : ResponseState) (message : Bytes) : Rewrite :=
  if st.sawResult = st.sawError then .malformed
  else if st.sawError then .passthrough
  else .rewritten (st.out.rewritten ++ message.drop st.out.arrayClose)
    st.out.removedTools

def rejectCut {σ : Type} (_ : σ) (exit : LoopExit) : Except Unit Unit :=
  if exit = .cut then .error () else .ok ()

def rewriteToolsListResponse (message : Bytes) (maxDepth : Nat)
    (core : ProxyCore) : Rewrite :=
  match ((responseLoop message maxDepth core).document () rejectCut (fun _ => ())
      {} message).1 with
  | .error _ => .malformed
  | .ok (st, _) => st.finish message

/-! ## §5  The tools of the array -/

/-- A tool the guard can name: its one plain, non-empty `name`. -/
structure IsTool (maxDepth : Nat) (v : Value) : Prop where
  depth : 4 ≤ maxDepth
  object : ∃ gap ms, v = .obj gap ms ∧
    (∀ m ∈ ms, 0x5C ∉ m.key.val ∧
      (m.key.val ≠ ascii "name" → 4 + m.value.nesting ≤ maxDepth)) ∧
    ∃ t : StringText, valuesAt (ascii "name") ms = [.str t] ∧ 0x5C ∉ t.val ∧
      t.val ≠ []

def toolName : Value → Bytes
  | .obj _ ms => match valuesAt (ascii "name") ms with
      | v :: _ => plainText v
      | [] => []
  | _ => []

def ToolState.seen (st : ToolState) (key : Bytes) : Bool :=
  if key = ascii "name" then st.sawName else false

def ToolState.update (st : ToolState) (key : Bytes) (v : Value) : ToolState :=
  if key = ascii "name" then ⟨true, plainText v⟩ else st

def toolMemberOk (maxDepth : Nat) (key : Bytes) (v : Value) : Prop :=
  if key = ascii "name" then
    ∃ t : StringText, v = .str t ∧ 0x5C ∉ t.val ∧ t.val ≠ []
  else 4 + v.nesting ≤ maxDepth

theorem checkPlain_ok {σ : Type} (st : σ) (raw : Bytes) :
    checkPlain st (tokenOf raw) = .ok () ↔ 0x5C ∉ raw := by
  simp [checkPlain, tokenOf]

theorem ToolState.nameMember_ok {st st' : ToolState} {v : Value} :
    st.nameMember.read v = .ok st' ↔ st.sawName = false ∧
      (∃ t : StringText, v = .str t ∧ 0x5C ∉ t.val ∧ t.val ≠ []) ∧
        st' = ⟨true, plainText v⟩ := by
  unfold ToolState.nameMember
  by_cases hsaw : st.sawName = true
  · rw [if_pos hsaw]
    simp [Reader.fail, hsaw]
  · rw [if_neg hsaw, Reader.string_check_ok]
    constructor
    · rintro ⟨t, rfl, h⟩
      split at h
      · cases h
      · rename_i hbad
        cases h
        obtain ⟨hesc, hne⟩ := not_or.mp hbad
        exact ⟨by simpa using hsaw, ⟨t, rfl, by simpa [tokenOf] using hesc, hne⟩,
          rfl⟩
    · rintro ⟨-, ⟨t, rfl, hesc, hne⟩, rfl⟩
      refine ⟨t, rfl, ?_⟩
      rw [if_neg]
      · rfl
      · simp [tokenOf, hesc, hne]

theorem tool_oncePerKey (maxDepth : Nat) :
    OncePerKey (toolReader maxDepth) [ascii "name"] ToolState.seen
      (toolMemberOk maxDepth) ToolState.update where
  key := checkPlain_ok
  member st raw v st' := by
    show (st.member maxDepth (tokenOf raw)).read v = .ok st' ↔ _
    unfold ToolState.seen toolMemberOk ToolState.update
    by_cases h : raw = ascii "name"
    · have hm : st.member maxDepth (tokenOf raw) = st.nameMember := if_pos h
      simp only [hm, if_pos h]
      exact ToolState.nameMember_ok
    · have hm : st.member maxDepth (tokenOf raw) =
          (skipValue 4 maxDepth ()).map fun _ => st := if_neg h
      simp only [hm, if_neg h, true_and]
      exact skipValue_map_ok
  marks st raw v key := by
    unfold ToolState.update
    by_cases h : raw = ascii "name"
    · subst h
      by_cases hkey : key = ascii "name" <;> simp [ToolState.seen, hkey]
    · simp [h]
  unknown st key h := by
    have hne : key ≠ ascii "name" := by simpa using h
    simp [ToolState.seen, hne]

theorem ToolState.update_name (st : ToolState) (raw : Bytes) (v : Value) :
    (st.update raw v).name =
      if raw = ascii "name" then plainText v else st.name := by
  unfold ToolState.update
  split_ifs <;> rfl

theorem ToolState.update_sawName (st : ToolState) (raw : Bytes) (v : Value) :
    (st.update raw v).sawName =
      if raw = ascii "name" then true else st.sawName := by
  unfold ToolState.update
  split_ifs <;> rfl

theorem ToolState.update_fields (ms : List (Member Value)) {t : StringText}
    (h : valuesAt (ascii "name") ms = [.str t]) :
    updates ToolState.update {} ms = ⟨true, t.val⟩ := by
  have hname := updates_field ToolState.name _ plainText
    ToolState.update_name {} ms
  have hsaw := updates_field ToolState.sawName _ (fun _ => true)
    ToolState.update_sawName {} ms
  rw [h] at hname hsaw
  generalize updates ToolState.update {} ms = st at hname hsaw
  cases st
  simp only [List.foldl_cons, List.foldl_nil, plainText] at hname hsaw
  rw [hname, hsaw]

theorem tool_init (key : Bytes) : ({} : ToolState).seen key = false := by
  unfold ToolState.seen
  split_ifs <;> rfl

/-- The name is asked for, in an object that is closed. -/
theorem ToolState.finish_ok (st : ToolState) (exit : LoopExit)
    (hleft : exit = .empty ∧ st = {} ∨ exit = .closed) (name : Bytes) :
    (if exit = .closed ∧ st.sawName then .ok st.name else .error () : Except Unit Bytes) =
        .ok name ↔
      (∀ key ∈ [ascii "name"], st.seen key = true) ∧ name = st.name := by
  have hseen : st.seen (ascii "name") = st.sawName := rfl
  rw [List.forall_mem_singleton, hseen]
  rcases hleft with ⟨rfl, rfl⟩ | rfl
  · simp
  · cases st.sawName
    · simp
    · simp [eq_comm]

theorem toolMembers_iff {maxDepth : Nat} {ms : List (Member Value)} :
    OnceMembers [ascii "name"] [ascii "name"] (toolMemberOk maxDepth) ms ↔
      (∀ m ∈ ms, 0x5C ∉ m.key.val ∧
        (m.key.val ≠ ascii "name" → 4 + m.value.nesting ≤ maxDepth)) ∧
      ∃ t : StringText, valuesAt (ascii "name") ms = [.str t] ∧ 0x5C ∉ t.val ∧ t.val ≠ [] := by
  have hother : ∀ {key v}, key ∉ [ascii "name"] →
      toolMemberOk maxDepth key v = (4 + v.nesting ≤ maxDepth) :=
    fun h => if_neg fun hkey => h (List.mem_singleton.mpr hkey)
  rw [onceMembers_all_iff, List.forall_mem_singleton]
  constructor
  · rintro ⟨hkeys, ⟨v, hv, hok⟩, hskips⟩
    obtain ⟨t, rfl, hesc, hne⟩ :=
      (show ∃ t : StringText, v = .str t ∧ 0x5C ∉ t.val ∧ t.val ≠ [] from hok)
    refine ⟨fun m hm => ⟨hkeys m hm, fun hkey => ?_⟩, t, hv, hesc, hne⟩
    have hmem : m.key.val ∉ [ascii "name"] := fun h => hkey (List.mem_singleton.mp h)
    exact (iff_of_eq (hother hmem)).mp (hskips m hm hmem)
  · rintro ⟨hall, t, ht, hesc, hne⟩
    refine ⟨fun m hm => (hall m hm).1, ⟨_, ht, t, rfl, hesc, hne⟩, fun m hm hmem => ?_⟩
    rw [hother hmem]
    exact (hall m hm).2 fun hkey => hmem (List.mem_singleton.mpr hkey)

/-- `parse_tool` reads exactly the tools, and finds their names. -/
theorem parseTool_ok {maxDepth : Nat} {v : Value} {name : Bytes} :
    (parseTool maxDepth).read v = .ok name ↔
      IsTool maxDepth v ∧ name = toolName v := by
  have hnamed : ∀ {gap ms} {t : StringText}, valuesAt (ascii "name") ms = [.str t] →
      (updates ToolState.update {} ms).name = toolName (.obj gap ms) := by
    intro gap ms t ht
    rw [ToolState.update_fields ms ht, toolName, ht]
    rfl
  unfold parseTool
  by_cases hdepth : maxDepth < 4
  · rw [if_pos hdepth]
    constructor
    · intro h
      cases h
    · rintro ⟨htool, -⟩
      exact absurd htool.depth (not_le.mpr hdepth)
  rw [if_neg hdepth, (tool_oncePerKey maxDepth).object_left_ok tool_init (fun _ hkey => hkey)
    ToolState.finish_ok]
  constructor
  · rintro ⟨gap, ms, rfl, hms, rfl⟩
    obtain ⟨hall, t, ht, hname⟩ := toolMembers_iff.mp hms
    exact ⟨⟨not_lt.mp hdepth, gap, ms, rfl, hall, t, ht, hname⟩, hnamed ht⟩
  · rintro ⟨⟨-, gap, ms, rfl, hall, t, ht, hname⟩, rfl⟩
    exact ⟨gap, ms, rfl, toolMembers_iff.mpr ⟨hall, t, ht, hname⟩, (hnamed ht).symm⟩

/-! ## §6  The array -/

def visible (core : ProxyCore) (v : Value) : Bool :=
  (core.authorizeToolVisibility (toolName v)).shouldForward

/-- The elements the policy lets through, without the whitespace around them. -/
def kept (core : ProxyCore) (es : List (Element Value)) : List (Element Value) :=
  (es.filter fun e => visible core e.value).map fun e => Element.compact e.value

def hidden (core : ProxyCore) (es : List (Element Value)) : List Bytes :=
  (es.filter fun e => !visible core e.value).map fun e => toolName e.value

/-- Elements as the array parser appends them, behind a comma or not. -/
def joined : Bool → List (Element Value) → Bytes
  | true, es => openElements es
  | false, [] => []
  | false, e :: es => renderElement e ++ openElements es

theorem arr_joined (es : List (Element Value)) :
    (Value.arr noGap es).render = 0x5B :: (joined false es ++ [0x5D]) := by
  cases es with
  | nil => simp [Value.render, joined]
  | cons e es => simp [Value.render, joined, renderElements_open]

def ToolsState.addElement (core : ProxyCore) (st : ToolsState) (e : Element Value) :
    ToolsState :=
  st.addTool core (toolName e.value) e.value.render

theorem tools_elements {core : ProxyCore} {maxDepth : Nat} {st st' : ToolsState}
    {es : List (Element Value)} :
    (toolsReader core maxDepth).elements st es = .ok st' ↔
      (∀ e ∈ es, IsTool maxDepth e.value) ∧
        st' = es.foldl (ToolsState.addElement core) st := by
  induction es generalizing st with
  | nil => simp [ArrayReader.elements, eq_comm]
  | cons e es ih =>
      have hread : ∀ st₁, ((toolsReader core maxDepth).element st).read e.value =
          .ok st₁ ↔ IsTool maxDepth e.value ∧ st₁ = st.addElement core e := by
        intro st₁
        show ((((parseTool maxDepth).read e.value).map fun name =>
          (name, e.value.render)) >>= fun a => .ok (st.addTool core a.1 a.2)) =
            .ok st₁ ↔ _
        rw [except_bind_ok]
        constructor
        · rintro ⟨⟨name, slice⟩, hname, h⟩
          cases hparse : (parseTool maxDepth).read e.value with
          | error u => rw [hparse] at hname; cases hname
          | ok name' =>
              rw [hparse] at hname
              cases hname
              cases h
              obtain ⟨htool, rfl⟩ := parseTool_ok.mp hparse
              exact ⟨htool, rfl⟩
        · rintro ⟨htool, rfl⟩
          refine ⟨(toolName e.value, e.value.render), ?_, rfl⟩
          rw [parseTool_ok.mpr ⟨htool, rfl⟩]
          rfl
      rw [ArrayReader.elements, except_bind_ok, List.forall_mem_cons,
        List.foldl_cons]
      constructor
      · rintro ⟨st₁, hst₁, hrun⟩
        obtain ⟨htool, rfl⟩ := (hread _).mp hst₁
        obtain ⟨htools, rfl⟩ := ih.mp hrun
        exact ⟨⟨htool, htools⟩, rfl⟩
      · rintro ⟨⟨htool, htools⟩, rfl⟩
        exact ⟨_, (hread _).mpr ⟨htool, rfl⟩, ih.mpr ⟨htools, rfl⟩⟩

/-- The array parser appends the kept elements and collects the hidden names. -/
theorem foldl_addElement (core : ProxyCore) (es : List (Element Value))
    (st : ToolsState) :
    (es.foldl (ToolsState.addElement core) st).rewritten =
        st.rewritten ++ joined st.wroteTool (kept core es) ∧
      (es.foldl (ToolsState.addElement core) st).removedTools =
        st.removedTools ++ hidden core es := by
  induction es generalizing st with
  | nil =>
      cases hwrote : st.wroteTool <;>
        simp [kept, hidden, joined, openElements]
  | cons e es ih =>
      obtain ⟨hrewritten, hremoved⟩ := ih (st.addElement core e)
      rw [List.foldl_cons, hrewritten, hremoved]
      by_cases hvis : visible core e.value = true
      · have hadd : st.addElement core e = { st with
            rewritten := (if st.wroteTool then st.rewritten ++ [0x2C]
              else st.rewritten) ++ e.value.render
            wroteTool := true } := if_pos hvis
        rw [hadd]
        cases hwrote : st.wroteTool <;>
          simp [kept, hidden, hvis, joined, openElements]
      · have hadd : st.addElement core e = { st with
            removedTools := st.removedTools ++ [toolName e.value] } := if_neg hvis
        rw [hadd]
        simp [kept, hidden, hvis]

/-- An array the guard filters. -/
structure IsToolsArray (maxDepth : Nat) (v : Value) : Prop where
  depth : 3 ≤ maxDepth
  array : ∃ gap es, v = .arr gap es ∧ ∀ e ∈ es, IsTool maxDepth e.value

def toolsOut (message : Bytes) (core : ProxyCore) (v : Value) (rest : Bytes) :
    Rewriting :=
  ((elementsOf v).foldl (ToolsState.addElement core)
    (openArray message (v.render ++ rest))).close message rest

def toolsValue (message : Bytes) (maxDepth : Nat) (core : ProxyCore) (v : Value)
    (rest : Bytes) : Except Unit Rewriting :=
  if maxDepth < 3 then .error ()
  else do
    let st ← ((toolsReader core maxDepth).array ()
      (openArray message (v.render ++ rest))).read v
    .ok (st.close message rest)

theorem parseToolsArray_agrees (message : Bytes) (maxDepth : Nat)
    (core : ProxyCore) (v : Value) {rest : Bytes} (h : Follow rest) :
    Agrees (parseToolsArray message maxDepth core) (v.render ++ rest)
      (toolsValue message maxDepth core v rest) rest := by
  unfold parseToolsArray toolsValue
  by_cases hdepth : maxDepth < 3
  · rw [if_pos hdepth, if_pos hdepth]
    exact agrees_fail _ _ _
  · rw [if_neg hdepth, if_neg hdepth]
    refine Agrees.bind_ok (remaining_run _) ?_
    refine Agrees.bind (Reader.agrees _ v rest h) fun st _ => ?_
    exact Agrees.bind_ok (remaining_run _) (agrees_pure _ _)

theorem parseToolsArray_takes {message : Bytes} {maxDepth : Nat}
    {core : ProxyCore} {s rest : Bytes} {out : Rewriting}
    (h : parseToolsArray message maxDepth core s = (.ok out, rest))
    (hne : rest ≠ []) : ∃ v : Value, s = v.render ++ rest := by
  unfold parseToolsArray at h
  split at h
  · simp at h
  · rw [remaining_bind] at h
    obtain ⟨st, mid, hscan, h⟩ := bind_eq_ok.mp h
    rw [remaining_bind] at h
    obtain ⟨-, rfl⟩ := pure_eq_ok.mp h
    exact Reader.takes _ _ _ _ hscan hne

theorem toolsValue_ok {message : Bytes} {maxDepth : Nat} {core : ProxyCore}
    {v : Value} {rest : Bytes} {out : Rewriting} :
    toolsValue message maxDepth core v rest = .ok out ↔
      IsToolsArray maxDepth v ∧ out = toolsOut message core v rest := by
  unfold toolsValue
  by_cases hdepth : maxDepth < 3
  · rw [if_pos hdepth]
    constructor
    · intro h
      cases h
    · rintro ⟨harray, -⟩
      exact absurd harray.depth (not_le.mpr hdepth)
  · rw [if_neg hdepth, except_bind_ok]
    constructor
    · rintro ⟨st, hst, h⟩
      cases h
      obtain ⟨gap, es, rfl, hes⟩ := (toolsReader core maxDepth).array_ok.mp hst
      obtain ⟨htools, rfl⟩ := tools_elements.mp hes
      exact ⟨⟨not_lt.mp hdepth, gap, es, rfl, htools⟩, rfl⟩
    · rintro ⟨⟨-, gap, es, rfl, htools⟩, rfl⟩
      exact ⟨_, (toolsReader core maxDepth).array_ok.mpr
        ⟨gap, es, rfl, tools_elements.mpr ⟨htools, rfl⟩⟩, rfl⟩

/-! ## §7  The result object -/

section result

variable (message : Bytes) (maxDepth : Nat) (core : ProxyCore)

def resultValue (st : ResultState) (key : StringToken) (v : Value) (rest : Bytes) :
    Except Unit ResultState :=
  if key.contents = ascii "tools" then
    if st.sawTools then .error ()
    else do
      let out ← toolsValue message maxDepth core v rest
      .ok ⟨true, out⟩
  else ((skipValue 2 maxDepth ()).map fun _ => st).read v

theorem result_reads :
    (resultLoop message maxDepth core).Reads (resultValue message maxDepth core) where
  agrees st key v rest h := by
    unfold resultLoop resultValue
    by_cases hkey : key.contents = ascii "tools"
    · simp only [if_pos hkey]
      by_cases hsaw : st.sawTools = true
      · simp only [if_pos hsaw]
        exact agrees_fail _ _ _
      · simp only [if_neg hsaw]
        refine Agrees.bind
          (parseToolsArray_agrees message maxDepth core v h) fun out _ => ?_
        exact agrees_pure _ _
    · simp only [if_neg hkey]
      exact Reader.agrees _ v rest h
  takes st key s st' rest h hne := by
    unfold resultLoop at h
    by_cases hkey : key.contents = ascii "tools"
    · simp only [if_pos hkey] at h
      by_cases hsaw : st.sawTools = true
      · simp [if_pos hsaw] at h
      · simp only [if_neg hsaw] at h
        obtain ⟨out, mid, hout, h⟩ := bind_eq_ok.mp h
        obtain ⟨-, rfl⟩ := pure_eq_ok.mp h
        exact parseToolsArray_takes hout hne
    · simp only [if_neg hkey] at h
      exact Reader.takes _ _ _ _ h hne

def ResultState.seen (st : ResultState) (key : Bytes) : Bool :=
  if key = ascii "tools" then st.sawTools else false

def resultMemberOk (key : Bytes) (v : Value) : Prop :=
  if key = ascii "tools" then IsToolsArray maxDepth v
  else 2 + v.nesting ≤ maxDepth

def resultUpdate (st : ResultState) (key : Bytes) (v : Value) (rest : Bytes) :
    ResultState :=
  if key = ascii "tools" then ⟨true, toolsOut message core v rest⟩ else st

theorem result_oncePerKey :
    (resultLoop message maxDepth core).OncePerKey
      (resultValue message maxDepth core) [ascii "tools"] ResultState.seen
      (resultMemberOk maxDepth) (resultUpdate message core) where
  key := checkPlain_ok
  member st raw v rest st' := by
    unfold ResultState.seen resultMemberOk resultUpdate
    by_cases h : raw = ascii "tools"
    · have hm : resultValue message maxDepth core st (tokenOf raw) v rest =
          if st.sawTools = true then .error ()
          else toolsValue message maxDepth core v rest >>= fun out =>
            .ok ⟨true, out⟩ := if_pos h
      simp only [hm, if_pos h]
      by_cases hsaw : st.sawTools = true
      · rw [if_pos hsaw]
        simp [hsaw]
      · rw [if_neg hsaw, except_bind_ok]
        constructor
        · rintro ⟨out, hout, hst⟩
          cases hst
          obtain ⟨harray, rfl⟩ := toolsValue_ok.mp hout
          exact ⟨by simpa using hsaw, harray, rfl⟩
        · rintro ⟨-, harray, rfl⟩
          exact ⟨_, toolsValue_ok.mpr ⟨harray, rfl⟩, rfl⟩
    · have hm : resultValue message maxDepth core st (tokenOf raw) v rest =
          ((skipValue 2 maxDepth ()).map fun _ => st).read v := if_neg h
      simp only [hm, if_neg h, true_and]
      exact skipValue_map_ok
  marks st raw v rest key := by
    unfold resultUpdate
    by_cases h : raw = ascii "tools"
    · subst h
      by_cases hkey : key = ascii "tools" <;> simp [ResultState.seen, hkey]
    · simp [h]
  unknown st key h := by
    have hne : key ≠ ascii "tools" := by simpa using h
    simp [ResultState.seen, hne]

/-- A result object the guard filters. -/
structure IsResult (v : Value) : Prop where
  depth : 2 ≤ maxDepth
  object : ∃ gap ms, v = .obj gap ms ∧
    (∀ m ∈ ms, 0x5C ∉ m.key.val ∧ resultMemberOk maxDepth m.key.val m.value) ∧
    ∃ tools, valuesAt (ascii "tools") ms = [tools]

def resultOut (v : Value) (rest : Bytes) : Rewriting :=
  (updatesAt (resultUpdate message core) (0x7D :: rest) {} (membersOf v)).out

/-- `parse_result` on a tree. -/
def resultRead (v : Value) (rest : Bytes) : Except Unit Rewriting :=
  if maxDepth < 2 then .error ()
  else match v with
    | .obj _ ms => do
        let st ← (resultLoop message maxDepth core).fold
          (resultValue message maxDepth core) (0x7D :: rest) {} ms
        if exitOf ms = .closed ∧ st.sawTools then .ok st.out else .error ()
    | _ => .error ()

theorem parseResult_agrees (v : Value) (rest : Bytes) :
    Agrees (parseResult message maxDepth core) (v.render ++ rest)
      (resultRead message maxDepth core v rest) rest := by
  unfold parseResult resultRead
  by_cases hdepth : maxDepth < 2
  · rw [if_pos hdepth, if_pos hdepth]
    exact agrees_fail _ _ _
  rw [if_neg hdepth, if_neg hdepth]
  cases v with
  | obj gap ms =>
      obtain ⟨s, hs, htext⟩ := loopText_obj gap ms rest
      rw [hs]
      refine Agrees.bind_ok (expect_run _ _ _) ?_
      have hparse := ObjectLoop.parse_agrees (result_reads message maxDepth core)
        htext (fun h => absurd h (exitOf_ne_trailing ms)) {}
      have h := Agrees.bind hparse fun a _ =>
        (show Agrees (if a.2 = .closed ∧ a.1.sawTools then pure a.1.out else fail ())
          rest (if a.2 = .closed ∧ a.1.sawTools then .ok a.1.out else .error ()) rest by
          split
          · exact agrees_pure _ _
          · exact agrees_fail _ _ _)
      rw [bind_assoc] at h
      exact h
  | str t => exact agrees_not_object (by simp) () _ rest
  | num t => exact agrees_not_object (by simp) () _ rest
  | lit w => exact agrees_not_object (by simp) () _ rest
  | arr gap es => exact agrees_not_object (by simp) () _ rest

variable {message maxDepth core}

theorem parseResult_takes {s rest : Bytes} {out : Rewriting}
    (h : parseResult message maxDepth core s = (.ok out, rest)) :
    ∃ v : Value, s = v.render ++ rest := by
  unfold parseResult at h
  split at h
  · simp at h
  · obtain ⟨tail, hs, h⟩ := expect_bind_ok h
    obtain ⟨⟨st, exit⟩, mid, hparse, h⟩ := bind_eq_ok.mp h
    obtain ⟨ms, t, htext, -, -⟩ :=
      ObjectLoop.parse_sound (result_reads message maxDepth core) hparse
    have h : (if exit = .closed ∧ st.sawTools = true then pure st.out
      else fail () : Scan Unit Rewriting) mid = (.ok out, rest) := h
    split at h
    · rename_i hclosed
      obtain ⟨-, rfl⟩ := pure_eq_ok.mp h
      obtain ⟨-, gap, hobj⟩ := obj_of_loopText htext (Or.inr hclosed.1)
      exact ⟨.obj gap ms, hs.trans hobj⟩
    · simp at h

theorem resultRead_ok {v : Value} {rest : Bytes} {out : Rewriting} :
    resultRead message maxDepth core v rest = .ok out ↔
      IsResult maxDepth v ∧ out = resultOut message core v rest := by
  have hone := result_oncePerKey message maxDepth core
  have hinit : ∀ key, ({} : ResultState).seen key = false := by
    intro key
    unfold ResultState.seen
    split_ifs <;> rfl
  have hmem : ascii "tools" ∈ [ascii "tools"] := List.mem_singleton.mpr rfl
  have hsaw : ∀ ms, (updatesAt (resultUpdate message core) (0x7D :: rest) {}
      ms).sawTools = decide (valuesAt (ascii "tools") ms ≠ []) :=
    updatesAt_seen hmem hone.marks (0x7D :: rest) {}
  unfold resultRead
  by_cases hdepth : maxDepth < 2
  · rw [if_pos hdepth]
    constructor
    · intro h
      cases h
    · rintro ⟨hresult, -⟩
      exact absurd hresult.depth (not_le.mpr hdepth)
  rw [if_neg hdepth]
  constructor
  · intro h
    cases v with
    | str t => cases h
    | num t => cases h
    | lit w => cases h
    | arr gap es => cases h
    | obj gap ms =>
        obtain ⟨st, hrun, h⟩ := except_bind_ok.mp h
        obtain ⟨hall, hcount, rfl⟩ := (hone.fold_ok_init hinit _ _ _).mp hrun
        split at h
        · rename_i hclosed
          cases h
          have htools := hclosed.2
          rw [hsaw, decide_eq_true_eq] at htools
          rcases eq_nil_or_singleton (hcount (ascii "tools") (by decide)) with
            hn | hn
          · exact absurd hn htools
          · exact ⟨⟨not_lt.mp hdepth, gap, ms, rfl, hall, hn⟩, rfl⟩
        · cases h
  · rintro ⟨⟨-, gap, ms, rfl, hall, tools, hn⟩, rfl⟩
    refine except_bind_ok.mpr ⟨_, (hone.fold_ok_init hinit _ _ _).mpr
      ⟨hall, ?_, rfl⟩, ?_⟩
    · intro key hkey
      rw [List.mem_singleton.mp hkey, hn]
      exact le_refl 1
    · have hms : ms ≠ [] := by
        rintro rfl
        cases hn
      rw [if_pos ⟨exitOf_eq_closed.mpr hms, by rw [hsaw, hn]; rfl⟩]
      rfl

end result

/-! ## §8  The response -/

section response

variable (message : Bytes) (maxDepth : Nat) (core : ProxyCore)

def responseValue (st : ResponseState) (key : StringToken) (v : Value)
    (rest : Bytes) : Except Unit ResponseState :=
  if key.contents = ascii "result" then
    if st.sawResult then .error ()
    else do
      let out ← resultRead message maxDepth core v rest
      .ok { st with sawResult := true, out := out }
  else if key.contents = ascii "error" then
    if st.sawError then .error ()
    else ((skipValue 1 maxDepth ()).map fun _ => { st with sawError := true }).read v
  else ((skipValue 1 maxDepth ()).map fun _ => st).read v

theorem response_reads :
    (responseLoop message maxDepth core).Reads
      (responseValue message maxDepth core) where
  agrees st key v rest h := by
    unfold responseLoop responseValue
    by_cases hresult : key.contents = ascii "result"
    · simp only [if_pos hresult]
      by_cases hsaw : st.sawResult = true
      · simp only [if_pos hsaw]
        exact agrees_fail _ _ _
      · simp only [if_neg hsaw]
        refine Agrees.bind
          (parseResult_agrees message maxDepth core v rest) fun out _ => ?_
        exact agrees_pure _ _
    simp only [if_neg hresult]
    by_cases herror : key.contents = ascii "error"
    · simp only [if_pos herror]
      by_cases hsaw : st.sawError = true
      · simp only [if_pos hsaw]
        exact agrees_fail _ _ _
      · simp only [if_neg hsaw]
        exact Reader.agrees _ v rest h
    · simp only [if_neg herror]
      exact Reader.agrees _ v rest h
  takes st key s st' rest h hne := by
    unfold responseLoop at h
    by_cases hresult : key.contents = ascii "result"
    · simp only [if_pos hresult] at h
      by_cases hsaw : st.sawResult = true
      · simp [if_pos hsaw] at h
      · simp only [if_neg hsaw] at h
        obtain ⟨out, mid, hout, h⟩ := bind_eq_ok.mp h
        obtain ⟨-, rfl⟩ := pure_eq_ok.mp h
        exact parseResult_takes hout
    simp only [if_neg hresult] at h
    by_cases herror : key.contents = ascii "error"
    · simp only [if_pos herror] at h
      by_cases hsaw : st.sawError = true
      · simp [if_pos hsaw] at h
      · simp only [if_neg hsaw] at h
        exact Reader.takes _ _ _ _ h hne
    · simp only [if_neg herror] at h
      exact Reader.takes _ _ _ _ h hne

def ResponseState.seen (st : ResponseState) (key : Bytes) : Bool :=
  if key = ascii "result" then st.sawResult
  else if key = ascii "error" then st.sawError
  else false

def responseMemberOk (key : Bytes) (v : Value) : Prop :=
  if key = ascii "result" then IsResult maxDepth v else 1 + v.nesting ≤ maxDepth

def responseUpdate (st : ResponseState) (key : Bytes) (v : Value) (rest : Bytes) :
    ResponseState :=
  if key = ascii "result" then
    { st with sawResult := true, out := resultOut message core v rest }
  else if key = ascii "error" then { st with sawError := true }
  else st

theorem response_oncePerKey :
    (responseLoop message maxDepth core).OncePerKey
      (responseValue message maxDepth core) [ascii "result", ascii "error"]
      ResponseState.seen (responseMemberOk maxDepth)
      (responseUpdate message core) where
  key := checkPlain_ok
  member st raw v rest st' := by
    unfold ResponseState.seen responseMemberOk responseUpdate
    by_cases h₁ : raw = ascii "result"
    · have hm : responseValue message maxDepth core st (tokenOf raw) v rest =
          if st.sawResult = true then .error ()
          else resultRead message maxDepth core v rest >>= fun out =>
            .ok { st with sawResult := true, out := out } := if_pos h₁
      simp only [hm, if_pos h₁]
      by_cases hsaw : st.sawResult = true
      · rw [if_pos hsaw]
        simp [hsaw]
      · rw [if_neg hsaw, except_bind_ok]
        constructor
        · rintro ⟨out, hout, hst⟩
          cases hst
          obtain ⟨hresult, rfl⟩ := resultRead_ok.mp hout
          exact ⟨by simpa using hsaw, hresult, rfl⟩
        · rintro ⟨-, hresult, rfl⟩
          exact ⟨_, resultRead_ok.mpr ⟨hresult, rfl⟩, rfl⟩
    by_cases h₂ : raw = ascii "error"
    · have hm : responseValue message maxDepth core st (tokenOf raw) v rest =
          if st.sawError = true then .error ()
          else ((skipValue 1 maxDepth ()).map fun _ =>
            { st with sawError := true }).read v := (if_neg h₁).trans (if_pos h₂)
      simp only [hm, if_neg h₁, if_pos h₂]
      by_cases hsaw : st.sawError = true
      · rw [if_pos hsaw]
        simp [hsaw]
      · rw [if_neg hsaw, skipValue_map_ok]
        simp [hsaw]
    · have hm : responseValue message maxDepth core st (tokenOf raw) v rest =
          ((skipValue 1 maxDepth ()).map fun _ => st).read v :=
        (if_neg h₁).trans (if_neg h₂)
      simp only [hm, if_neg h₁, if_neg h₂, true_and]
      exact skipValue_map_ok
  marks st raw v rest key := by
    unfold responseUpdate
    split_ifs with h₁ h₂
    · subst h₁
      by_cases h : key = ascii "result"
      · subst h; simp [ResponseState.seen]
      · simp [ResponseState.seen, h]
    · subst h₂
      by_cases h : key = ascii "error"
      · subst h; simp [ResponseState.seen, h₁]
      · simp [ResponseState.seen, h]
    · simp [h₁, h₂]
  unknown st key h := by
    simp only [List.mem_cons, List.not_mem_nil, or_false, not_or] at h
    simp [ResponseState.seen, h.1, h.2]

/-- The members of a response that the rewriter reads to the end. -/
structure ResponseMembers (ms : List (Member Value)) : Prop where
  members : ∀ m ∈ ms, 0x5C ∉ m.key.val ∧
    responseMemberOk maxDepth m.key.val m.value
  result : (valuesAt (ascii "result") ms).length ≤ 1
  error : (valuesAt (ascii "error") ms).length ≤ 1

def responseState (tail : Bytes) (ms : List (Member Value)) : ResponseState :=
  updatesAt (responseUpdate message core) tail {} ms

variable {message maxDepth core} {exit : LoopExit} {ms : List (Member Value)}
  {tail : Bytes}

theorem responseState_saw :
    (responseState message core tail ms).sawResult =
        decide (valuesAt (ascii "result") ms ≠ []) ∧
      (responseState message core tail ms).sawError =
        decide (valuesAt (ascii "error") ms ≠ []) := by
  have hone := response_oncePerKey message 0 core
  have hresult : ascii "result" ∈ [ascii "result", ascii "error"] := by decide
  have herror : ascii "error" ∈ [ascii "result", ascii "error"] := by decide
  exact ⟨updatesAt_seen hresult hone.marks tail {} ms,
    updatesAt_seen herror hone.marks tail {} ms⟩

theorem responseLoop_accepts (st : ResponseState) :
    (responseLoop message maxDepth core).fold (responseValue message maxDepth core)
        tail {} ms = .ok st ↔
      ResponseMembers maxDepth ms ∧ st = responseState message core tail ms := by
  have hinit : ∀ key, ({} : ResponseState).seen key = false := by
    intro key
    unfold ResponseState.seen
    split_ifs <;> rfl
  rw [(response_oncePerKey message maxDepth core).fold_ok_init hinit]
  constructor
  · rintro ⟨hall, hcount, hst⟩
    exact ⟨⟨hall, hcount _ (by decide), hcount _ (by decide)⟩, hst⟩
  · rintro ⟨hms, hst⟩
    refine ⟨hms.members, ?_, hst⟩
    simp only [List.forall_mem_cons, List.not_mem_nil, false_implies,
      implies_true, and_true]
    exact ⟨hms.result, hms.error⟩

theorem rewrite_accepted (h : DocumentText exit ms tail message)
    (hexit : exit ≠ .cut) (hms : ResponseMembers maxDepth ms) :
    rewriteToolsListResponse message maxDepth core =
      (responseState message core tail ms).finish message := by
  unfold rewriteToolsListResponse
  rw [ObjectLoop.document_agrees (response_reads message maxDepth core) h
    (fun _ => rfl), (responseLoop_accepts _).mpr ⟨hms, rfl⟩]
  have hleave : rejectCut (responseState message core tail ms) exit = .ok () :=
    if_neg hexit
  simp only [bind, Except.bind, hleave]

theorem rewrite_rejected (h : DocumentText exit ms tail message)
    (hbad : ¬ (exit ≠ .cut ∧ ResponseMembers maxDepth ms)) :
    rewriteToolsListResponse message maxDepth core = .malformed := by
  unfold rewriteToolsListResponse
  rw [ObjectLoop.document_agrees (response_reads message maxDepth core) h
    (fun _ => rfl)]
  cases hrun : (responseLoop message maxDepth core).fold
      (responseValue message maxDepth core) tail {} ms with
  | error e => rfl
  | ok st =>
      obtain ⟨hms, -⟩ := (responseLoop_accepts _).mp hrun
      have hexit : exit = .cut := by
        by_contra hne
        exact hbad ⟨hne, hms⟩
      rw [hexit]
      rfl

/-- Nothing but a document is rewritten or passed through. -/
theorem rewrite_document
    (h : rewriteToolsListResponse message maxDepth core ≠ .malformed) :
    ∃ exit ms tail, DocumentText exit ms tail message := by
  unfold rewriteToolsListResponse at h
  cases hrun : ((responseLoop message maxDepth core).document () rejectCut
      (fun _ => ()) {} message).1 with
  | error e =>
      rw [hrun] at h
      exact absurd rfl h
  | ok a =>
      obtain ⟨ms, tail, htext, -⟩ := (ObjectLoop.document_ok
        (response_reads message maxDepth core)).mp
        (show _ = Except.ok (a.1, a.2) from hrun)
      exact ⟨a.2, ms, tail, htext⟩

/-- Which responses pass unchanged: those with an `error` and no `result`. -/
theorem rewrite_passthrough_iff (h : DocumentText exit ms tail message) :
    rewriteToolsListResponse message maxDepth core = .passthrough ↔
      (exit ≠ .cut ∧ ResponseMembers maxDepth ms) ∧
        valuesAt (ascii "result") ms = [] ∧ valuesAt (ascii "error") ms ≠ [] := by
  by_cases hok : exit ≠ .cut ∧ ResponseMembers maxDepth ms
  · rw [rewrite_accepted h hok.1 hok.2]
    unfold ResponseState.finish
    obtain ⟨hresult, herror⟩ := @responseState_saw message core ms tail
    rw [hresult, herror]
    by_cases hr : valuesAt (ascii "result") ms = []
    · by_cases he : valuesAt (ascii "error") ms = []
      · simp [hr, he]
      · simp [hr, he, hok]
    · by_cases he : valuesAt (ascii "error") ms = []
      · simp [hr, he]
      · simp [hr, he]
  · rw [rewrite_rejected h hok]
    simp only [hok, false_and]
    exact iff_of_false nofun not_false

/-- Which responses are rewritten: those with a `result` and no `error`. -/
theorem rewrite_rewritten_iff (h : DocumentText exit ms tail message)
    {text : Bytes} {removedTools : List Bytes} :
    rewriteToolsListResponse message maxDepth core = .rewritten text removedTools ↔
      (exit ≠ .cut ∧ ResponseMembers maxDepth ms) ∧
        valuesAt (ascii "result") ms ≠ [] ∧ valuesAt (ascii "error") ms = [] ∧
        text = (responseState message core tail ms).out.rewritten ++
          message.drop (responseState message core tail ms).out.arrayClose ∧
        removedTools = (responseState message core tail ms).out.removedTools := by
  by_cases hok : exit ≠ .cut ∧ ResponseMembers maxDepth ms
  · rw [rewrite_accepted h hok.1 hok.2]
    unfold ResponseState.finish
    obtain ⟨hresult, herror⟩ := @responseState_saw message core ms tail
    rw [hresult, herror]
    by_cases hr : valuesAt (ascii "result") ms = []
    · by_cases he : valuesAt (ascii "error") ms = []
      · simp [hr, he]
      · simp [hr, he]
    · by_cases he : valuesAt (ascii "error") ms = []
      · simp [hr, he, hok, eq_comm]
      · simp [hr, he]
  · rw [rewrite_rejected h hok]
    simp only [hok, false_and]
    exact iff_of_false nofun not_false

end response

/-! ## §9  The rewritten text

The output is the text of the same members with the tools array filtered. -/

section filtered

variable (core : ProxyCore)

def filterTools : Value → Value
  | .arr _ es => .arr noGap (kept core es)
  | v => v

def filterResult : Value → Value
  | .obj gap ms => .obj gap (mapAt (ascii "tools") (filterTools core) ms)
  | v => v

/-- The members of a response without the tools that the policy hides. -/
def filtered (ms : List (Member Value)) : List (Member Value) :=
  mapAt (ascii "result") (filterResult core) ms

/-- The names of the tools that the policy hides. -/
def hiddenTools (ms : List (Member Value)) : List Bytes :=
  (valuesAt (ascii "result") ms).flatMap fun r =>
    (valuesAt (ascii "tools") (membersOf r)).flatMap fun tools =>
      hidden core (elementsOf tools)

variable {core} {message : Bytes} {maxDepth : Nat} {exit : LoopExit}
  {ms : List (Member Value)} {tail : Bytes}

theorem out_of_split {pre post rpre rpost : List (Member Value)}
    {m tools : Member Value} {gap : Gap}
    (hm : m.key.val = ascii "result") (hpost : valuesAt (ascii "result") post = [])
    (hr : m.value = .obj gap (rpre ++ tools :: rpost))
    (htools : tools.key.val = ascii "tools")
    (hrpost : valuesAt (ascii "tools") rpost = []) :
    (responseState message core tail (pre ++ m :: post)).out =
      toolsOut message core tools.value (tools.trail.val ++ (openMembers rpost ++
        0x7D :: (m.trail.val ++ (openMembers post ++ tail)))) := by
  have hresult : ∀ tail, (responseState message core tail (pre ++ m :: post)).out =
      resultOut message core m.value (m.trail.val ++ (openMembers post ++ tail)) := by
    intro tail
    refine updatesAt_field ResponseState.out (resultOut message core) ?_ ?_ tail hm
      hpost {}
    · intro st raw v rest hraw
      unfold responseUpdate
      rw [if_neg hraw]
      split <;> rfl
    · intro st v rest
      exact congrArg ResponseState.out (if_pos rfl)
  have hinner : ∀ tail, (updatesAt (resultUpdate message core) tail {}
      (rpre ++ tools :: rpost)).out = toolsOut message core tools.value
        (tools.trail.val ++ (openMembers rpost ++ tail)) := by
    intro tail
    refine updatesAt_field ResultState.out (toolsOut message core) ?_ ?_ tail htools
      hrpost {}
    · intro st raw v rest hraw
      unfold resultUpdate
      rw [if_neg hraw]
    · intro st v rest
      exact congrArg ResultState.out (if_pos rfl)
  rw [hresult, hr]
  exact hinner _

theorem arr_ends (gap : Gap) (es : List (Element Value)) :
    ∃ inner, (Value.arr gap es).render = 0x5B :: (inner ++ [0x5D]) := by
  cases es with
  | nil => exact ⟨gap.val, by simp [Value.render]⟩
  | cons e es =>
      exact ⟨renderElement e ++ openElements es, by
        simp [Value.render, renderElements_open]⟩

/-- What stands between the copied head and the copied end of a message. -/
theorem toolsOut_text (core : ProxyCore) (before : Bytes) (gap : Gap)
    (es : List (Element Value)) (rest : Bytes)
    (hmessage : message = before ++ ((Value.arr gap es).render ++ rest)) :
    (toolsOut message core (.arr gap es) rest).rewritten ++
        message.drop (toolsOut message core (.arr gap es) rest).arrayClose =
        before ++ ((filterTools core (.arr gap es)).render ++ rest) ∧
      (toolsOut message core (.arr gap es) rest).removedTools = hidden core es := by
  obtain ⟨inner, hinner⟩ := arr_ends gap es
  obtain ⟨hrewritten, hremoved⟩ := foldl_addElement core es
    (openArray message ((Value.arr gap es).render ++ rest))
  have hopen : (openArray message ((Value.arr gap es).render ++ rest)).rewritten =
      before ++ [0x5B] := by
    unfold openArray
    rw [hmessage, hinner]
    have hlen : (before ++ (0x5B :: (inner ++ [0x5D]) ++ rest)).length -
        (0x5B :: (inner ++ [0x5D]) ++ rest).length + 1 =
          (before ++ [0x5B]).length := by
      simp only [List.length_append, List.length_cons, List.length_nil]
      omega
    have hsplit : before ++ (0x5B :: (inner ++ [0x5D]) ++ rest) =
        (before ++ [0x5B]) ++ (inner ++ [0x5D] ++ rest) := by simp
    simp only [hlen]
    rw [hsplit, List.take_left]
  have hclose : message.drop (message.length - rest.length - 1) = 0x5D :: rest := by
    have hsplit : message = (before ++ 0x5B :: inner) ++ 0x5D :: rest := by
      rw [hmessage, hinner]
      simp
    have hlen : message.length - rest.length - 1 = (before ++ 0x5B :: inner).length := by
      rw [hsplit]
      simp only [List.length_append, List.length_cons]
      omega
    rw [hlen, hsplit, List.drop_left]
  constructor
  · show (List.foldl (ToolsState.addElement core) _ es).rewritten ++
      message.drop (message.length - rest.length - 1) = _
    rw [hrewritten, hopen, hclose, filterTools, arr_joined]
    simp [openArray]
  · show (List.foldl (ToolsState.addElement core) _ es).removedTools = _
    rw [hremoved]
    rfl

theorem render_obj_gap (gap gap' : Gap) {ms : List (Member Value)} (h : ms ≠ []) :
    (Value.obj gap ms).render = (Value.obj gap' ms).render := by
  cases ms with
  | nil => exact absurd rfl h
  | cons m ms => rfl

/-- Where the one tools array of the one result stands among the members. -/
structure ToolsSite where
  pre : List (Member Value)
  result : Member Value
  gap : Gap
  rpre : List (Member Value)
  tools : Member Value
  rpost : List (Member Value)
  post : List (Member Value)
  resultKey : result.key.val = ascii "result"
  pre_fresh : valuesAt (ascii "result") pre = []
  post_fresh : valuesAt (ascii "result") post = []
  toolsKey : tools.key.val = ascii "tools"
  rpre_fresh : valuesAt (ascii "tools") rpre = []
  rpost_fresh : valuesAt (ascii "tools") rpost = []

namespace ToolsSite

variable (site : ToolsSite)

def toolsMember (w : Value) : Member Value := { site.tools with value := w }

/-- The members of the result with `w` in the place of the tools array. -/
def resultMembers (w : Value) : List (Member Value) :=
  site.rpre ++ site.toolsMember w :: site.rpost

def resultMember (w : Value) : Member Value :=
  { site.result with value := .obj site.gap (site.resultMembers w) }

/-- The members of the response with `w` in the place of the tools array. -/
def members (w : Value) : List (Member Value) :=
  site.pre ++ site.resultMember w :: site.post

/-- What follows the tools array in a text with the given tail. -/
def after (tail : Bytes) : Bytes :=
  site.tools.trail.val ++ (openMembers site.rpost ++
    0x7D :: (site.result.trail.val ++ (openMembers site.post ++ tail)))

theorem valuesAt_result (w : Value) : valuesAt (ascii "result") (site.members w) =
    [.obj site.gap (site.resultMembers w)] :=
  valuesAt_split (m := site.resultMember w) site.pre_fresh site.resultKey
    site.post_fresh

theorem valuesAt_tools (w : Value) :
    valuesAt (ascii "tools") (site.resultMembers w) = [w] :=
  valuesAt_split (m := site.toolsMember w) site.rpre_fresh site.toolsKey
    site.rpost_fresh

/-- A text around the tools array, with any other value in its place. -/
theorem context {exit : LoopExit} {v : Value} {tail message : Bytes}
    (h : DocumentText exit (site.members v) tail message) :
    ∃ before, message = before ++ (v.render ++ site.after tail) ∧ ∀ w,
      DocumentText exit (site.members w) tail
        (before ++ (w.render ++ site.after tail)) := by
  obtain ⟨lead, trail, s, hmessage, htext⟩ := h
  obtain ⟨before, hs, hcontext⟩ := LoopText.context (m := site.resultMember v) htext
  -- the text around the result, then the text around its tools
  obtain ⟨s', hs', htext'⟩ := loopText_obj site.gap (site.resultMembers v)
    (site.result.trail.val ++ (openMembers site.post ++ tail))
  obtain ⟨before', hsplit, hcontext'⟩ :=
    LoopText.context (m := site.toolsMember v) htext'
  have hne : ∀ w, site.resultMembers w ≠ [] := by
    intro w
    simp [resultMembers]
  rw [exitOf_eq_closed.mpr (hne v)] at hcontext'
  have hs : s = before ++ ((Value.obj site.gap (site.resultMembers v)).render ++
    (site.result.trail.val ++ (openMembers site.post ++ tail))) := hs
  have hsplit : s' = before' ++ (v.render ++ (site.tools.trail.val ++
    (openMembers site.rpost ++ 0x7D :: (site.result.trail.val ++
      (openMembers site.post ++ tail))))) := hsplit
  have hinner : ∀ w, LoopText .closed (site.resultMembers w)
      (before' ++ (w.render ++ (site.tools.trail.val ++ (openMembers site.rpost ++
        0x7D :: (site.result.trail.val ++ (openMembers site.post ++ tail))))))
      (0x7D :: (site.result.trail.val ++ (openMembers site.post ++ tail)))
      (site.result.trail.val ++ (openMembers site.post ++ tail)) := hcontext'
  rw [hs', hsplit] at hs
  refine ⟨lead.val ++ 0x7B :: (before ++ 0x7B :: before'), ?_, fun w => ?_⟩
  · rw [hmessage, hs, after]
    simp
  · obtain ⟨-, gap', hobj⟩ := obj_of_loopText (hinner w) (Or.inr rfl)
    rw [render_obj_gap gap' site.gap (hne w)] at hobj
    have houter : LoopText exit (site.members w)
        (before ++ ((Value.obj site.gap (site.resultMembers w)).render ++
          (site.result.trail.val ++ (openMembers site.post ++ tail)))) tail trail.val :=
      hcontext _
    refine ⟨lead, trail, _, ?_, houter⟩
    rw [← hobj, after]
    simp

theorem filtered_members (core : ProxyCore) (gap : Gap) (es : List (Element Value)) :
    filtered core (site.members (.arr gap es)) =
      site.members (.arr noGap (kept core es)) := by
  have hinner : mapAt (ascii "tools") (filterTools core)
      (site.resultMembers (.arr gap es)) =
        site.resultMembers (.arr noGap (kept core es)) :=
    mapAt_split (m := site.toolsMember (.arr gap es)) _ site.rpre_fresh site.toolsKey
      site.rpost_fresh
  have houter : filtered core (site.members (.arr gap es)) =
      site.pre ++ { site.result with
        value := filterResult core (.obj site.gap (site.resultMembers (.arr gap es))) } ::
          site.post :=
    mapAt_split (m := site.resultMember (.arr gap es)) _ site.pre_fresh site.resultKey
      site.post_fresh
  rw [houter, filterResult, hinner]
  rfl

/-- What the rewriter makes of a message around the tools array. -/
theorem out {core : ProxyCore} {message before tail : Bytes}
    {gap : Gap} {es : List (Element Value)}
    (h : message = before ++ ((Value.arr gap es).render ++ site.after tail)) :
    (responseState message core tail (site.members (.arr gap es))).out.rewritten ++
        message.drop (responseState message core tail
          (site.members (.arr gap es))).out.arrayClose =
        before ++ ((Value.arr noGap (kept core es)).render ++ site.after tail) ∧
      (responseState message core tail
        (site.members (.arr gap es))).out.removedTools = hidden core es := by
  have hsplit : (responseState message core tail (site.members (.arr gap es))).out =
      toolsOut message core (.arr gap es) (site.after tail) :=
    out_of_split (m := site.resultMember (.arr gap es)) site.resultKey site.post_fresh
      rfl site.toolsKey site.rpost_fresh
  rw [hsplit]
  exact toolsOut_text core before gap es (site.after tail) h

end ToolsSite

theorem member_with_value {m : Member Value} {v : Value} (h : m.value = v) :
    { m with value := v } = m := by
  cases m
  cases h
  rfl

/-- A response with a `result` has a site for its tools. -/
theorem ResponseMembers.site (hms : ResponseMembers maxDepth ms)
    (hresult : valuesAt (ascii "result") ms ≠ []) :
    ∃ (site : ToolsSite) (gap : Gap) (es : List (Element Value)),
      ms = site.members (.arr gap es) ∧ 3 ≤ maxDepth ∧
        ∀ e ∈ es, IsTool maxDepth e.value := by
  obtain ⟨r, hr⟩ := (eq_nil_or_singleton hms.result).resolve_left hresult
  obtain ⟨pre, m, post, rfl, hpre, hm, -, hpost⟩ := valuesAt_eq_singleton hr
  have hmem : m ∈ pre ++ m :: post := by simp
  have hok := (hms.members m hmem).2
  unfold responseMemberOk at hok
  rw [if_pos hm] at hok
  obtain ⟨-, gap, rms, hvalue, hall, t, ht⟩ := hok
  obtain ⟨rpre, tools, rpost, rfl, hrpre, htools, -, hrpost⟩ :=
    valuesAt_eq_singleton ht
  have hmem' : tools ∈ rpre ++ tools :: rpost := by simp
  have hok' := (hall tools hmem').2
  unfold resultMemberOk at hok'
  rw [if_pos htools] at hok'
  obtain ⟨hdepth, gap', es, hes, htool⟩ := hok'
  refine ⟨⟨pre, m, gap, rpre, tools, rpost, post, hm, hpre, hpost, htools, hrpre,
    hrpost⟩, gap', es, ?_, hdepth, htool⟩
  unfold ToolsSite.members ToolsSite.resultMember ToolsSite.resultMembers
    ToolsSite.toolsMember
  simp only [member_with_value hes, member_with_value hvalue]

/-- The rewriter's output is the text of the filtered members, and it reports
the hidden names. -/
theorem rewritten_text (h : DocumentText exit ms tail message)
    {text : Bytes} {removedTools : List Bytes}
    (hrewrite : rewriteToolsListResponse message maxDepth core =
      .rewritten text removedTools) :
    DocumentText exit (filtered core ms) tail text ∧
      removedTools = hiddenTools core ms := by
  obtain ⟨⟨-, hms⟩, hresult, -, rfl, rfl⟩ := (rewrite_rewritten_iff h).mp hrewrite
  obtain ⟨site, gap, es, rfl, -, -⟩ := hms.site hresult
  obtain ⟨before, hmessage, hcontext⟩ := site.context h
  obtain ⟨hout, hremoved⟩ := @site.out core message before tail gap es hmessage
  refine ⟨?_, ?_⟩
  · rw [hout, site.filtered_members]
    exact hcontext _
  · rw [hremoved]
    unfold hiddenTools
    rw [site.valuesAt_result]
    simp only [List.flatMap_cons, List.flatMap_nil, List.append_nil, membersOf]
    rw [site.valuesAt_tools]
    simp [elementsOf]

/-! ## §10  What the rewriter lets through

The rewriter reads its own output, so what it knows about the filtered members
it knows about any other reading of the same text. -/

theorem isTool_kept {es : List (Element Value)}
    (h : ∀ e ∈ es, IsTool maxDepth e.value) :
    ∀ e ∈ kept core es, IsTool maxDepth e.value := by
  intro e he
  obtain ⟨e₀, he₀, rfl⟩ := List.mem_map.mp he
  exact h e₀ (List.mem_filter.mp he₀).1

theorem hidden_kept (es : List (Element Value)) : hidden core (kept core es) = [] := by
  unfold hidden
  rw [List.map_eq_nil_iff, List.filter_eq_nil_iff]
  intro e he
  obtain ⟨e₀, he₀, rfl⟩ := List.mem_map.mp he
  have hvis := (List.mem_filter.mp he₀).2
  simpa using hvis

theorem isToolsArray_filterTools {v : Value} (h : IsToolsArray maxDepth v) :
    IsToolsArray maxDepth (filterTools core v) := by
  obtain ⟨hdepth, gap, es, rfl, hes⟩ := h
  exact ⟨hdepth, noGap, kept core es, rfl, isTool_kept hes⟩

theorem isResult_filterResult {v : Value} (h : IsResult maxDepth v) :
    IsResult maxDepth (filterResult core v) := by
  obtain ⟨hdepth, gap, ms, rfl, hall, tools, htools⟩ := h
  refine ⟨hdepth, gap, mapAt (ascii "tools") (filterTools core) ms, rfl, ?_,
    filterTools core tools, ?_⟩
  · refine forall_mem_mapAt (p := fun key v => 0x5C ∉ key ∧
      resultMemberOk maxDepth key v) hall fun v hv => ⟨hv.1, ?_⟩
    have hok := hv.2
    unfold resultMemberOk at hok ⊢
    rw [if_pos rfl] at hok ⊢
    exact isToolsArray_filterTools hok
  · rw [valuesAt_mapAt, htools]
    rfl

theorem ResponseMembers.filtered (h : ResponseMembers maxDepth ms) :
    ResponseMembers maxDepth (filtered core ms) := by
  refine ⟨?_, ?_, ?_⟩
  · refine forall_mem_mapAt (p := fun key v => 0x5C ∉ key ∧
      responseMemberOk maxDepth key v) h.members fun v hv => ⟨hv.1, ?_⟩
    have hok := hv.2
    unfold responseMemberOk at hok ⊢
    rw [if_pos rfl] at hok ⊢
    exact isResult_filterResult hok
  · unfold Protocol.filtered
    rw [valuesAt_mapAt, List.length_map]
    exact h.result
  · unfold Protocol.filtered
    rw [valuesAt_mapAt_of_ne (by decide)]
    exact h.error

theorem hiddenTools_filtered (ms : List (Member Value)) :
    hiddenTools core (filtered core ms) = [] := by
  unfold hiddenTools filtered
  rw [valuesAt_mapAt, List.flatMap_eq_nil_iff]
  intro r hr
  obtain ⟨r₀, -, rfl⟩ := List.mem_map.mp hr
  rw [List.flatMap_eq_nil_iff]
  intro tools htools
  cases r₀ with
  | obj gap rms =>
      have hmem : tools ∈ valuesAt (ascii "tools")
          (mapAt (ascii "tools") (filterTools core) rms) := htools
      rw [valuesAt_mapAt] at hmem
      obtain ⟨t₀, -, rfl⟩ := List.mem_map.mp hmem
      cases t₀ with
      | arr gap es => exact hidden_kept es
      | str t => rfl
      | num t => rfl
      | lit w => rfl
      | obj gap ms => rfl
  | str t => cases htools
  | num t => cases htools
  | lit w => cases htools
  | arr gap es => cases htools

/-- The rewriter finds nothing to hide in its own output. -/
theorem rewrite_again (h : DocumentText exit ms tail message) {text : Bytes}
    {removedTools : List Bytes}
    (hrewrite : rewriteToolsListResponse message maxDepth core =
      .rewritten text removedTools) :
    ∃ text', rewriteToolsListResponse text maxDepth core = .rewritten text' [] := by
  obtain ⟨⟨hexit, hms⟩, hresult, herror, -⟩ := (rewrite_rewritten_iff h).mp hrewrite
  obtain ⟨htext, -⟩ := rewritten_text h hrewrite
  have hagain := (@rewrite_rewritten_iff text maxDepth core _ _ _ htext _ _).mpr
    ⟨⟨hexit, hms.filtered⟩, ?_, ?_, rfl, rfl⟩
  · obtain ⟨-, hremoved⟩ := rewritten_text htext hagain
    rw [hiddenTools_filtered] at hremoved
    exact ⟨_, hremoved ▸ hagain⟩
  · unfold filtered
    rw [valuesAt_mapAt]
    simpa using hresult
  · unfold filtered
    rw [valuesAt_mapAt_of_ne (by decide)]
    exact herror

/-- Whichever duplicates a receiver of `v` keeps, the tools it lists have names
that the policy makes visible. -/
def ToolsVisible (policy : Security.PolicyTable) (v : Value) : Prop :=
  ∀ gap ms, v = .obj gap ms → ∀ r, Holds ms (ascii "result") r →
    ∀ gap rms, r = .obj gap rms → ∀ tools, Holds rms (ascii "tools") tools →
      ∃ gap es, tools = .arr gap es ∧ ∀ e ∈ es, ∃ gap tool,
        e.value = .obj gap tool ∧ (∃ name, Holds tool (ascii "name") name) ∧
        ∀ name, Holds tool (ascii "name") name → ∃ t : StringText,
          name = .str t ∧ policy.visibilityFor (decodeString t.val) = .allow

theorem tool_visible {v : Value} (htool : IsTool maxDepth v)
    (hvis : visible core v = true) :
    ∃ gap tool, v = .obj gap tool ∧ (∃ name, Holds tool (ascii "name") name) ∧
      ∀ name, Holds tool (ascii "name") name → ∃ t : StringText,
        name = .str t ∧ core.policy.visibilityFor (decodeString t.val) = .allow := by
  obtain ⟨-, gap, ms, rfl, hall, t, hname, hesc, hne⟩ := htool
  have hholds : ∀ name, Holds ms (ascii "name") name ↔
      name ∈ valuesAt (ascii "name") ms := by
    intro name
    exact holds_iff_mem_valuesAt fun m hm => (hall m hm).1
  refine ⟨gap, ms, rfl, ⟨.str t, ?_⟩, fun name hn => ⟨t, ?_, ?_⟩⟩
  · rw [hholds, hname]
    exact List.mem_singleton.mpr rfl
  · rw [hholds, hname] at hn
    exact List.mem_singleton.mp hn
  · rw [decodeString_of_no_escape hesc]
    have htoolName : toolName (.obj gap ms) = t.val := by
      rw [toolName, hname]
      rfl
    unfold visible at hvis
    rw [htoolName] at hvis
    exact ((core.authorizeToolVisibility_forward).mp hvis).2

/-- A rewritten response lists only visible tools, however it is read. -/
theorem rewritten_visible (h : DocumentText exit ms tail message) {text : Bytes}
    {removedTools : List Bytes}
    (hrewrite : rewriteToolsListResponse message maxDepth core =
      .rewritten text removedTools) {v : Value} (hv : IsText text v) :
    ToolsVisible core.policy v := by
  rintro gap ms' rfl r hr gap' rms rfl tools htools
  obtain ⟨text', hagain⟩ := rewrite_again h hrewrite
  obtain ⟨tail', hdoc⟩ := documentText_of_isText hv
  obtain ⟨⟨-, hms⟩, hresult, -⟩ := (rewrite_rewritten_iff hdoc).mp hagain
  obtain ⟨-, hhidden⟩ := rewritten_text hdoc hagain
  obtain ⟨r₀, hr₀⟩ := (eq_nil_or_singleton hms.result).resolve_left hresult
  rw [holds_iff_mem_valuesAt fun m hm => (hms.members m hm).1, hr₀,
    List.mem_singleton] at hr
  subst hr
  obtain ⟨m, hm, hkey, hvalue⟩ := mem_valuesAt.mp
    (show Value.obj gap' rms ∈ valuesAt (ascii "result") ms' by simp [hr₀])
  have hok := (hms.members m hm).2
  unfold responseMemberOk at hok
  rw [if_pos hkey, hvalue] at hok
  obtain ⟨-, gap'', rms', hobj, hall, t₀, ht₀⟩ := hok
  cases hobj
  rw [holds_iff_mem_valuesAt fun m hm => (hall m hm).1, ht₀,
    List.mem_singleton] at htools
  subst htools
  obtain ⟨m', hm', hkey', hvalue'⟩ := mem_valuesAt.mp
    (show tools ∈ valuesAt (ascii "tools") rms by simp [ht₀])
  have hok' := (hall m' hm').2
  unfold resultMemberOk at hok'
  rw [if_pos hkey', hvalue'] at hok'
  obtain ⟨-, gap₃, es, rfl, hes⟩ := hok'
  refine ⟨gap₃, es, rfl, fun e he => tool_visible (hes e he) ?_⟩
  -- nothing is hidden, so every element is visible
  have hnil : hidden core es = [] := by
    have hflat : hidden core es = hiddenTools core ms' := by
      unfold hiddenTools
      rw [hr₀]
      simp only [List.flatMap_cons, List.flatMap_nil, List.append_nil, membersOf]
      rw [ht₀]
      simp [elementsOf]
    rw [hflat, ← hhidden]
  unfold hidden at hnil
  rw [List.map_eq_nil_iff, List.filter_eq_nil_iff] at hnil
  simpa using hnil e he

/-- A response that passes unchanged carries no result. -/
theorem passthrough_visible
    (hrewrite : rewriteToolsListResponse message maxDepth core = .passthrough)
    {v : Value} (hv : IsText message v) : ToolsVisible core.policy v := by
  rintro gap ms' rfl r hr
  obtain ⟨tail', hdoc⟩ := documentText_of_isText hv
  obtain ⟨⟨-, hms⟩, hresult, -⟩ := (rewrite_passthrough_iff hdoc).mp hrewrite
  rw [holds_iff_mem_valuesAt fun m hm => (hms.members m hm).1, hresult] at hr
  cases hr

end filtered

end NativeGuard.Protocol

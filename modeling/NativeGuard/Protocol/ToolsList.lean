import NativeGuard.Protocol.Acceptance

/-!
# Filtering a tools/list answer

What the rewriter does to the bytes of a response, and which answers the filter
replaces at all. A response that is rewritten keeps its text up to the opening
bracket of the tools array and from the closing bracket on (`rewrite_splices`);
between them stand the slices of the visible tools. The nesting counts of the
classifier and the rewriter agree but for an array of tools that is empty
(`result_fits`).
-/

namespace NativeGuard.Protocol

open Json Json.Scan Proxy ToolCallFilter

/-! ## §1  The slices -/

section slices

variable (core : ProxyCore)

/-- The raw texts of the visible tools, in order. -/
def visibleSlices (es : List (Element Value)) : List Bytes :=
  (es.filter fun e => visible core e.value).map fun e => e.value.render

theorem joined_compact (vs : List Value) :
    joined false (vs.map Element.compact) =
      List.intercalate [0x2C] (vs.map Value.render) := by
  cases vs with
  | nil => rfl
  | cons v vs =>
      induction vs generalizing v with
      | nil => simp [joined, openElements, List.intercalate]
      | cons w vs ih =>
          have hrest := ih w
          simp only [joined, List.map_cons, openElements, renderElement_compact] at hrest ⊢
          rw [List.intercalate_cons_cons, ← hrest]
          simp

theorem kept_text (es : List (Element Value)) :
    (Value.arr noGap (kept core es)).render =
      0x5B :: (List.intercalate [0x2C] (visibleSlices core es) ++ [0x5D]) := by
  have hkept : kept core es =
      ((es.filter fun e => visible core e.value).map fun e => e.value).map
        Element.compact := by
    unfold kept
    rw [List.map_map]
    rfl
  have hslices : visibleSlices core es =
      ((es.filter fun e => visible core e.value).map fun e => e.value).map
        Value.render := by
    unfold visibleSlices
    rw [List.map_map]
    rfl
  rw [arr_joined, hkept, hslices, joined_compact]

theorem kept_kept (es : List (Element Value)) :
    kept core (kept core es) = kept core es := by
  unfold kept
  rw [List.filter_map, List.filter_filter, List.map_map]
  congr 1
  apply List.filter_congr
  intro e _
  simp

/-- Leaving elements out never makes an array's text longer. -/
theorem kept_length (gap : Gap) (es : List (Element Value)) :
    (Value.arr noGap (kept core es)).render.length ≤ (Value.arr gap es).render.length := by
  have hopen : (openElements (kept core es)).length ≤ (openElements es).length := by
    induction es with
    | nil => exact le_refl _
    | cons e es ih =>
        by_cases hvis : visible core e.value = true
        · have hcons : kept core (e :: es) = Element.compact e.value :: kept core es := by
            simp [kept, hvis]
          have hslice : (renderElement (Element.compact e.value)).length ≤
              (renderElement e).length := by
            rw [renderElement_compact, renderElement_eq]
            simp only [List.length_append]
            omega
          rw [hcons]
          simp only [openElements, List.length_cons, List.length_append]
          omega
        · have hcons : kept core (e :: es) = kept core es := by
            simp [kept, hvis]
          rw [hcons]
          simp only [openElements, List.length_cons, List.length_append]
          omega
  cases hkept : kept core es with
  | nil =>
      obtain ⟨inner, hinner⟩ := arr_ends gap es
      rw [hinner]
      simp [Value.render]
  | cons k ks =>
      cases es with
      | nil => cases hkept
      | cons e es =>
          rw [hkept] at hopen
          rw [render_arr_length, render_arr_length]
          omega

end slices

/-! ## §2  The rewritten text -/

section rewritten

variable {core : ProxyCore} {maxDepth : Nat} {exit : LoopExit} {message tail : Bytes}

/-- The rewriter on a response around the site of its tools. -/
theorem rewrite_site {site : ToolsSite} {gap : Gap} {es : List (Element Value)}
    {before : Bytes} (hexit : exit ≠ .cut)
    (h : DocumentText exit (site.members (.arr gap es)) tail message)
    (hms : ResponseMembers maxDepth (site.members (.arr gap es)))
    (herror : valuesAt (ascii "error") (site.members (.arr gap es)) = [])
    (hmessage : message = before ++ ((Value.arr gap es).render ++ site.after tail)) :
    rewriteToolsListResponse message maxDepth core =
      .rewritten (before ++ ((Value.arr noGap (kept core es)).render ++ site.after tail))
        (hidden core es) := by
  obtain ⟨hout, hremoved⟩ := @ToolsSite.out site core message before tail gap es hmessage
  refine (rewrite_rewritten_iff h).mpr ⟨⟨hexit, hms⟩, ?_, herror, hout.symm,
    hremoved.symm⟩
  rw [site.valuesAt_result]
  exact List.cons_ne_nil _ _

/-- A rewritten response keeps its bytes up to the bracket of the tools array and
from the closing bracket on, has the slices of the visible tools between them,
and is rewritten to itself. -/
theorem rewrite_splices {ms : List (Member Value)}
    (h : DocumentText exit ms tail message) {text : Bytes} {removedTools : List Bytes}
    (hrewrite : rewriteToolsListResponse message maxDepth core =
      .rewritten text removedTools) :
    ∃ (site : ToolsSite) (gap : Gap) (es : List (Element Value)) (before : Bytes),
      ms = site.members (.arr gap es) ∧ (∀ e ∈ es, IsTool maxDepth e.value) ∧
      message = before ++ ((Value.arr gap es).render ++ site.after tail) ∧
      (∀ w, DocumentText exit (site.members w) tail
        (before ++ (w.render ++ site.after tail))) ∧
      text = before ++ (0x5B :: (List.intercalate [0x2C] (visibleSlices core es) ++
        0x5D :: site.after tail)) ∧
      removedTools = hidden core es ∧ text.length ≤ message.length ∧
      rewriteToolsListResponse text maxDepth core = .rewritten text [] := by
  obtain ⟨⟨hexit, hms⟩, hresult, herror, -, -⟩ := (rewrite_rewritten_iff h).mp hrewrite
  obtain ⟨site, gap, es, rfl, -, htools⟩ := hms.site hresult
  obtain ⟨before, hmessage, hcontext⟩ := site.context h
  have hexact := @rewrite_site core _ _ _ _ _ _ _ _ hexit h hms herror hmessage
  rw [hrewrite] at hexact
  obtain ⟨htext, hremoved⟩ := Rewrite.rewritten.inj hexact
  refine ⟨site, gap, es, before, rfl, htools, hmessage, hcontext, ?_, hremoved, ?_, ?_⟩
  · rw [htext, kept_text]
    simp
  · have hlength := kept_length core gap es
    rw [htext, hmessage]
    simp only [List.length_append]
    omega
  · have hms' := @ResponseMembers.filtered core maxDepth _ hms
    have herror' : valuesAt (ascii "error") (filtered core (site.members (.arr gap es))) =
        [] := by
      unfold filtered
      rw [valuesAt_mapAt_of_ne (by decide)]
      exact herror
    rw [site.filtered_members] at hms' herror'
    have hagain := @rewrite_site core _ _ _ _ _ _ _ _ hexit
      (hcontext (.arr noGap (kept core es))) hms' herror' rfl
    rw [kept_kept, hidden_kept, ← htext] at hagain
    exact hagain

/-- A message is left in one way only: one closed behind a comma is no other
object text. -/
theorem exit_of_closes {core : ProxyCore} {ms : List (Member Value)}
    (h : (((responseLoop message maxDepth core).document () rejectCut (fun _ => ()) {}
      message).1.map fun a => a.2) = .ok .trailing)
    (hdoc : DocumentText exit ms tail message) : exit = .trailing := by
  have hrun : ((responseLoop message maxDepth core).document () rejectCut
      (fun _ => ()) {} message).1 = _ :=
    ObjectLoop.document_agrees (response_reads message maxDepth core) hdoc
      (fun _ => rfl) {}
  cases hresult : ((responseLoop message maxDepth core).document () rejectCut
      (fun _ => ()) {} message).1 with
  | error e =>
      rw [hresult] at h
      cases h
  | ok a =>
      rw [hresult] at h hrun
      obtain ⟨st, -, hst⟩ := except_bind_ok.mp hrun.symm
      obtain ⟨-, -, hexit⟩ := except_bind_ok.mp hst
      have hsame : exit = a.2 := congrArg Prod.snd (Except.ok.inj hexit)
      have htrailing : a.2 = .trailing := Except.ok.inj h
      exact hsame.trans htrailing

/-- No complete object is closed behind a comma. -/
theorem not_isText_of_closes {core : ProxyCore}
    (h : (((responseLoop message maxDepth core).document () rejectCut (fun _ => ()) {}
      message).1.map fun a => a.2) = .ok .trailing) (gap : Gap)
    (ms : List (Member Value)) : ¬ IsText message (.obj gap ms) := by
  intro hv
  obtain ⟨tail, hdoc⟩ := documentText_of_isText hv
  exact exitOf_ne_trailing ms (exit_of_closes h hdoc)

theorem closes_of_trailing (core : ProxyCore) {ms : List (Member Value)}
    (h : DocumentText .trailing ms tail message) (hms : ResponseMembers maxDepth ms) :
    (((responseLoop message maxDepth core).document () rejectCut (fun _ => ()) {}
      message).1.map fun a => a.2) = .ok .trailing := by
  have hrun : ((responseLoop message maxDepth core).document () rejectCut
      (fun _ => ()) {} message).1 = _ :=
    ObjectLoop.document_agrees (response_reads message maxDepth core) h
      (fun _ => rfl) {}
  rw [hrun, (responseLoop_accepts _).mpr ⟨hms, rfl⟩]
  rfl

/-- A response that the rewriter filters although a comma stands in front of its
closing brace. -/
def TrailingResponse (maxDepth : Nat) (message : Bytes) : Prop :=
  ∃ (body : Bytes) (ws trail gap : Gap) (ms : List (Member Value)),
    message = body ++ 0x2C :: (ws.val ++ 0x7D :: trail.val) ∧
    IsText (body ++ [0x7D]) (.obj gap ms) ∧ ResponseMembers maxDepth ms ∧
    valuesAt (ascii "result") ms ≠ [] ∧ valuesAt (ascii "error") ms = []

/-- The response is one well-formed object with one tools array in its one
result, and `text` is its bytes with only the hidden tools left out. -/
def RewrittenExactly (core : ProxyCore) (maxDepth : Nat) (message text : Bytes)
    (removedTools : List Bytes) : Prop :=
  ∃ (site : ToolsSite) (gap : Gap) (es : List (Element Value)) (before after : Bytes),
    message = before ++ ((Value.arr gap es).render ++ after) ∧
    (∀ w, IsText (before ++ (w.render ++ after)) (.obj noGap (site.members w))) ∧
    (∀ e ∈ es, IsTool maxDepth e.value) ∧
    text = before ++ (0x5B :: (List.intercalate [0x2C] (visibleSlices core es) ++
      0x5D :: after)) ∧
    removedTools = hidden core es ∧ text.length ≤ message.length ∧
    rewriteToolsListResponse text maxDepth core = .rewritten text []

theorem isText_members {site : ToolsSite} {w : Value}
    (h : DocumentText exit (site.members w) tail message)
    (hexit : exit = .empty ∨ exit = .closed) :
    IsText message (.obj noGap (site.members w)) := by
  obtain ⟨gap, lead, trail, htext⟩ := isText_of_documentText h hexit
  rw [render_obj_gap gap noGap (by simp [ToolsSite.members])] at htext
  exact ⟨lead, trail, htext⟩

/-- What the rewriter returns is exact, unless a comma stands in front of the
closing brace of a response that it filters. -/
theorem rewrite_exact_iff (core : ProxyCore) (maxDepth : Nat) (message : Bytes) :
    (∀ text removedTools, rewriteToolsListResponse message maxDepth core =
        .rewritten text removedTools →
      RewrittenExactly core maxDepth message text removedTools) ↔
      ¬ TrailingResponse maxDepth message := by
  constructor
  · rintro hexact ⟨body, ws, trail, gap, ms, hmessage, htext, hms, hresult, herror⟩
    have hne : ms ≠ [] := by
      rintro rfl
      exact hresult rfl
    obtain ⟨tail, hdoc⟩ := trailing_iff.mpr ⟨hne, body, ws, trail, gap, hmessage, htext⟩
    have hrewrite := (@rewrite_rewritten_iff message maxDepth core _ _ _ hdoc _ _).mpr
      ⟨⟨nofun, hms⟩, hresult, herror, rfl, rfl⟩
    obtain ⟨site, gap', es, before, after, hsplit, hcontext, -⟩ := hexact _ _ hrewrite
    have hv := hcontext (.arr gap' es)
    rw [← hsplit] at hv
    exact not_isText_of_closes (closes_of_trailing core hdoc hms) _ _ hv
  · intro htrailing text removedTools hrewrite
    obtain ⟨exit, ms, tail, hdoc⟩ := rewrite_document (by
      rw [hrewrite]
      exact nofun)
    obtain ⟨⟨hcut, hms⟩, hresult, herror, -, -⟩ :=
      (rewrite_rewritten_iff hdoc).mp hrewrite
    obtain ⟨site, gap, es, before, rfl, htools, hmessage, hcontext, htext, hremoved,
      hlength, hagain⟩ := rewrite_splices hdoc hrewrite
    have hexit : exit = .empty ∨ exit = .closed := by
      refine LoopExit.whole_iff.mpr ⟨?_, hcut⟩
      rintro rfl
      obtain ⟨-, body, ws, trail, gap', hbody, hobject⟩ := trailing_iff.mp ⟨tail, hdoc⟩
      exact htrailing ⟨body, ws, trail, gap', _, hbody, hobject, hms, hresult, herror⟩
    exact ⟨site, gap, es, before, site.after tail, hmessage,
      fun w => isText_members (hcontext w) hexit, htools, htext, hremoved, hlength,
      hagain⟩

/-- The classifier accepts no such response, so the rewriter is exact on every
text that `inspectServer` hands to it. -/
theorem not_trailingResponse_of_accepted {limits : RuntimeLimits}
    (hok : (classify limits message).error = .none) :
    ¬ TrailingResponse maxDepth message := by
  rintro ⟨body, ws, trail, gap, ms, hmessage, htext, hms, hresult, -⟩
  have hne : ms ≠ [] := by
    rintro rfl
    exact hresult rfl
  obtain ⟨tail, hdoc⟩ := trailing_iff.mpr ⟨hne, body, ws, trail, gap, hmessage, htext⟩
  obtain ⟨-, exit, ms', tail', hdoc', hexit, -⟩ := (classify_accepts _ _).mp hok
  exact hexit (exit_of_closes (closes_of_trailing ⟨denyAll, 0⟩ hdoc hms) hdoc')

/-- What the rewriter returns of a text that the classifier accepts is exact. -/
theorem rewrite_exact_of_accepted (core : ProxyCore) (maxDepth : Nat) (message : Bytes)
    (limits : RuntimeLimits) (hok : (classify limits message).error = .none) :
    ∀ text removedTools, rewriteToolsListResponse message maxDepth core =
        .rewritten text removedTools →
      RewrittenExactly core maxDepth message text removedTools :=
  (rewrite_exact_iff core maxDepth message).mpr (not_trailingResponse_of_accepted hok)

/-- Of `x` and `y` the second is hidden. -/
theorem rewrite_exact_of_accepted_example :
    RewrittenExactly ⟨showX, 64⟩ 64 twoTools listResponse [ascii "y"] :=
  rewrite_exact_of_accepted ⟨showX, 64⟩ 64 twoTools {} (by decide +kernel) _ _
    (by decide +kernel)

end rewritten

/-- A result and a comma in front of the brace. -/
def trailingResponse : Bytes := ascii "\x7b\"result\":\x7b\"tools\":[]\x7d,\x7d"

theorem trailing_response_rewritten :
    ¬ ∀ text removedTools, rewriteToolsListResponse trailingResponse 64 ⟨denyAll, 64⟩ =
        .rewritten text removedTools →
      RewrittenExactly ⟨denyAll, 64⟩ 64 trailingResponse text removedTools := by
  intro hexact
  obtain ⟨hrewrite, hcloses⟩ : rewriteToolsListResponse trailingResponse 64
        ⟨denyAll, 64⟩ = .rewritten trailingResponse [] ∧
      (((responseLoop trailingResponse 64 ⟨denyAll, 64⟩).document () rejectCut
        (fun _ => ()) {} trailingResponse).1.map fun a => a.2) = .ok .trailing := by
    decide +kernel
  obtain ⟨site, gap, es, before, after, hmessage, hcontext, -⟩ := hexact _ _ hrewrite
  have hv := hcontext (.arr gap es)
  rw [← hmessage] at hv
  exact not_isText_of_closes hcloses _ _ hv

/-! ## §3  The answers that are replaced -/

/-- The members of an object that the rewriter takes for a tool. -/
def ToolMembers (ms : List (Member Value)) : Prop :=
  (∀ m ∈ ms, 0x5C ∉ m.key.val) ∧ ∃ t : StringText,
    valuesAt (ascii "name") ms = [.str t] ∧ 0x5C ∉ t.val ∧ t.val ≠ []

/-- The shape of an answer to tools/list, whatever its nesting. -/
def ToolsResult (r : Value) : Prop :=
  ∃ gap ms, r = .obj gap ms ∧ (∀ m ∈ ms, 0x5C ∉ m.key.val) ∧
    ∃ gap' es, valuesAt (ascii "tools") ms = [.arr gap' es] ∧
      ∀ e ∈ es, ∃ gap tool, e.value = .obj gap tool ∧ ToolMembers tool

/-- ... and its array lists no tool. -/
def NoTools (r : Value) : Prop :=
  ∃ gap, valuesAt (ascii "tools") (membersOf r) = [.arr gap []]

theorem isTool_of_nesting {maxDepth : Nat} {v : Value}
    (h : 3 + v.nesting ≤ maxDepth) :
    IsTool maxDepth v ↔ ∃ gap ms, v = .obj gap ms ∧ ToolMembers ms := by
  constructor
  · rintro ⟨-, gap, ms, rfl, hall, hname⟩
    exact ⟨gap, ms, rfl, fun m hm => (hall m hm).1, hname⟩
  · rintro ⟨gap, ms, rfl, hkeys, t, ht, hname⟩
    have hmember : ∀ m ∈ ms, 4 + m.value.nesting ≤ maxDepth := by
      intro m hm
      have hle := nesting_obj_le.mp (le_refl (Value.obj gap ms).nesting) m hm
      omega
    obtain ⟨m, hm, -, -⟩ := mem_valuesAt.mp
      (show Value.str t ∈ valuesAt (ascii "name") ms by simp [ht])
    have hle := hmember m hm
    exact ⟨by omega, gap, ms, rfl, fun m hm => ⟨hkeys m hm, fun _ => hmember m hm⟩,
      t, ht, hname⟩

/-- Within the classifier's limit the rewriter's own depth guards reject nothing
but an empty array that stands at the limit. -/
theorem result_fits {maxDepth : Nat} {r : Value} (h : 1 + r.nesting ≤ maxDepth) :
    IsResult maxDepth r ↔ ToolsResult r ∧ ¬ (maxDepth = 2 ∧ NoTools r) := by
  have hlevel : ∀ {gap ms}, r = .obj gap ms → ∀ m ∈ ms, 2 + m.value.nesting ≤ maxDepth := by
    rintro gap ms rfl m hm
    have hle := nesting_obj_le.mp (le_refl (Value.obj gap ms).nesting) m hm
    omega
  have helement : ∀ {gap : Gap} {es : List (Element Value)},
      2 + (Value.arr gap es).nesting ≤ maxDepth → ∀ e ∈ es,
        3 + e.value.nesting ≤ maxDepth := by
    intro gap es harr e he
    have hle := nesting_arr_le.mp (le_refl (Value.arr gap es).nesting) e he
    omega
  constructor
  · rintro ⟨hdepth, gap, ms, rfl, hall, tools, htools⟩
    obtain ⟨m, hm, hkey, hvalue⟩ := mem_valuesAt.mp
      (show tools ∈ valuesAt (ascii "tools") ms by simp [htools])
    have hok := (hall m hm).2
    have hle := hlevel rfl m hm
    unfold resultMemberOk at hok
    rw [if_pos hkey, hvalue] at hok
    obtain ⟨hthree, gap', es, rfl, hes⟩ := hok
    rw [hvalue] at hle
    refine ⟨⟨gap, ms, rfl, fun m hm => (hall m hm).1, gap', es, htools, ?_⟩, ?_⟩
    · intro e he
      exact (isTool_of_nesting (helement hle e he)).mp (hes e he)
    · rintro ⟨htwo, -⟩
      omega
  · rintro ⟨⟨gap, ms, rfl, hkeys, gap', es, htools, hes⟩, hlimit⟩
    obtain ⟨m, hm, hkey, hvalue⟩ := mem_valuesAt.mp
      (show Value.arr gap' es ∈ valuesAt (ascii "tools") ms by simp [htools])
    have hle := hlevel rfl m hm
    rw [hvalue] at hle
    -- the array stands at level two: only a tool in it needs the third
    have hthree : 3 ≤ maxDepth := by
      cases es with
      | nil =>
          have hne : maxDepth ≠ 2 := fun htwo => hlimit ⟨htwo, gap', htools⟩
          omega
      | cons e es =>
          have hle' := helement hle e List.mem_cons_self
          omega
    refine ⟨by omega, gap, ms, rfl, fun m' hm' => ⟨hkeys m' hm', ?_⟩, _, htools⟩
    unfold resultMemberOk
    split_ifs with hkey'
    · have hmem := mem_valuesAt.mpr ⟨m', hm', hkey', rfl⟩
      rw [htools, List.mem_singleton] at hmem
      rw [hmem]
      exact ⟨hthree, gap', es, rfl, fun e he =>
        (isTool_of_nesting (helement hle e he)).mpr (hes e he)⟩
    · exact hlevel rfl m' hm'

/-- Given the classifier's checks, the rewriter reads a response to the end if
it can read the result. -/
theorem responseMembers_iff {maxDepth : Nat} {ms : List (Member Value)} {r : Value}
    (hms : EnvelopeMembers ms) (hskip : SkippedWithin maxDepth ms)
    (hresult : valuesAt (ascii "result") ms = [r])
    (herror : valuesAt (ascii "error") ms = []) :
    ResponseMembers maxDepth ms ↔ IsResult maxDepth r := by
  obtain ⟨m, hm, hkey, hvalue⟩ := mem_valuesAt.mp
    (show r ∈ valuesAt (ascii "result") ms by simp [hresult])
  have hpositive : 1 ≤ maxDepth := by
    have hle := hskip m hm (by rw [hkey]; decide)
    omega
  constructor
  · intro h
    have hok := (h.members m hm).2
    unfold responseMemberOk at hok
    rw [if_pos hkey, hvalue] at hok
    exact hok
  · intro h
    refine ⟨fun m' hm' => ⟨hms.keys m' hm', ?_⟩, by simp [hresult], by simp [herror]⟩
    unfold responseMemberOk
    split_ifs with hkey'
    · have hmem := mem_valuesAt.mpr ⟨m', hm', hkey', rfl⟩
      rw [hresult, List.mem_singleton] at hmem
      rwa [hmem]
    · by_cases hscalar : m'.key.val ∈ [ascii "jsonrpc", ascii "method", ascii "id"]
      · rw [hms.scalar hm' hscalar]
        omega
      · exact hskip m' hm' hscalar

section answer

variable {f : ToolCallFilter} {message : Bytes} {gap : Gap} {ms : List (Member Value)}
  {r : Value}

/-- A pending answer with a result is replaced or dropped, as the rewriter says. -/
theorem answer_cases (htext : IsText message (.obj gap ms))
    (hok : (classify f.config.runtime message).error = .none)
    (hkind : (classify f.config.runtime message).kind = .response)
    (hpending : (classify f.config.runtime message).idJson ∈ f.pending.ids)
    (hresult : r ∈ valuesAt (ascii "result") ms) :
    1 + r.nesting ≤ f.config.runtime.maxNestingDepth ∧
      (IsResult f.config.runtime.maxNestingDepth r →
        (f.inspectServer message).decision.action = .replace) ∧
      (¬ IsResult f.config.runtime.maxNestingDepth r →
        (f.inspectServer message).decision.action = .drop) := by
  obtain ⟨gap', ms', hobj, hms, hskip, hdetermined, tail, hdoc⟩ :=
    classified_members hok htext
  cases hobj
  have hreply : IsReply ms := by
    refine hms.shape.resolve_left fun hcall => ?_
    rw [hcall.result] at hresult
    cases hresult
  -- the classifier has seen one of the two, once
  have hone : valuesAt (ascii "result") ms = [r] ∧ valuesAt (ascii "error") ms = [] := by
    have hout := hreply.outcome
    cases hr : valuesAt (ascii "result") ms with
    | nil =>
        rw [hr] at hresult
        cases hresult
    | cons r' rs =>
        simp only [hr, List.length_cons] at hout
        have hrs : rs = [] := List.eq_nil_of_length_eq_zero (by omega)
        rw [hr, hrs, List.mem_singleton] at hresult
        exact ⟨by rw [hrs, hresult], List.eq_nil_of_length_eq_zero (by omega)⟩
  obtain ⟨m, hm, hkey, hvalue⟩ := mem_valuesAt.mp hresult
  have hle := hskip m hm (by rw [hkey]; decide)
  rw [hvalue] at hle
  rw [inspectServer_of_pending hok hkind hpending]
  unfold filterResponse
  refine ⟨hle, fun hfits => ?_, fun hfits => ?_⟩
  · have hmembers := (responseMembers_iff hms hskip hone.1 hone.2).mpr hfits
    have hrewrite := (@rewrite_rewritten_iff message _ f.core _ _ _ hdoc _ _).mpr
      ⟨⟨exitOf_ne_cut ms, hmembers⟩, by simp [hone.1], hone.2, rfl, rfl⟩
    rw [hrewrite]
  · have hmembers : ¬ (exitOf ms ≠ .cut ∧
        ResponseMembers f.config.runtime.maxNestingDepth ms) := by
      rintro ⟨-, hmembers⟩
      exact hfits ((responseMembers_iff hms hskip hone.1 hone.2).mp hmembers)
    rw [rewrite_rejected hdoc hmembers]

/-- The shape of the result alone decides between replacing and dropping. -/
def ShapeDecides (f : ToolCallFilter) (message : Bytes) (r : Value) : Prop :=
  ((f.inspectServer message).decision.action = .replace ↔ ToolsResult r) ∧
    (¬ ToolsResult r → (f.inspectServer message).decision.action = .drop)

/-- A pending answer that the classifier accepts is replaced exactly if its
result has the shape of a tools list, unless the limit is two and the list is
empty. -/
theorem answer_by_shape_iff (htext : IsText message (.obj gap ms))
    (hok : (classify f.config.runtime message).error = .none)
    (hkind : (classify f.config.runtime message).kind = .response)
    (hpending : (classify f.config.runtime message).idJson ∈ f.pending.ids)
    (hresult : r ∈ valuesAt (ascii "result") ms) :
    ShapeDecides f message r ↔ ¬ (ToolsResult r ∧
      f.config.runtime.maxNestingDepth = 2 ∧ NoTools r) := by
  obtain ⟨hle, hreplaced, hdropped⟩ := answer_cases htext hok hkind hpending hresult
  have hfits := result_fits hle
  unfold ShapeDecides
  by_cases hshape : ToolsResult r
  · by_cases hlimit : f.config.runtime.maxNestingDepth = 2 ∧ NoTools r
    · rw [hdropped fun h => (hfits.mp h).2 hlimit]
      constructor
      · rintro ⟨hreplace, -⟩
        exact absurd (hreplace.mpr hshape) nofun
      · intro h
        exact absurd ⟨hshape, hlimit⟩ h
    · rw [hreplaced (hfits.mpr ⟨hshape, hlimit⟩)]
      refine iff_of_true ⟨iff_of_true rfl hshape, fun h => absurd hshape h⟩ ?_
      rintro ⟨-, h⟩
      exact hlimit h
  · rw [hdropped fun h => hshape (hfits.mp h).1]
    exact iff_of_true ⟨iff_of_false nofun hshape, fun _ => rfl⟩ fun h => hshape h.1

end answer

/-- A filter with nesting limit `maxNestingDepth` that has forwarded
`listRequest`. -/
def listening (maxNestingDepth : Nat) : ToolCallFilter :=
  ((ToolCallFilter.init denyAll { runtime.maxNestingDepth := maxNestingDepth }).inspect
    listRequest).filter

def emptyTools : Value := .obj noGap
  [Member.compact (plainString (ascii "tools") (.refl true)) (.arr noGap [])]

/-- An answer without tools, as members and as text. -/
def emptyAnswerMembers : List (Member Value) :=
  [Member.compact (plainString (ascii "jsonrpc") (.refl true))
      (.str (plainString (ascii "2.0") (.refl true))),
    Member.compact (plainString (ascii "id") (.refl true)) (.num one),
    Member.compact (plainString (ascii "result") (.refl true)) emptyTools]

def emptyAnswer : Bytes :=
  ascii "\x7b\"jsonrpc\":\"2.0\",\"id\":1,\"result\":\x7b\"tools\":[]\x7d\x7d"

theorem isText_emptyAnswer : IsText emptyAnswer (.obj noGap emptyAnswerMembers) :=
  ⟨noGap, noGap, by decide +kernel⟩

theorem emptyTools_mem :
    emptyTools ∈ valuesAt (ascii "result") emptyAnswerMembers :=
  mem_valuesAt.mpr ⟨_, List.mem_cons_of_mem _ (List.mem_cons_of_mem _
    List.mem_cons_self), rfl, rfl⟩

theorem toolsResult_emptyTools : ToolsResult emptyTools := by
  have htools : valuesAt (ascii "tools") (membersOf emptyTools) = [.arr noGap []] :=
    if_pos rfl
  refine ⟨noGap, _, rfl, ?_, noGap, [], htools, nofun⟩
  intro m hm
  rw [List.mem_singleton.mp hm]
  exact plainString_unescaped (ascii "tools") (by decide)

/-- The answer with a tool is replaced. -/
theorem answer_by_shape_default :
    ShapeDecides (listening 64) listResponse listedTools := by
  obtain ⟨hok, hkind, hpending, hlimit⟩ :
      (classify (listening 64).config.runtime listResponse).error = .none ∧
        (classify (listening 64).config.runtime listResponse).kind = .response ∧
        (classify (listening 64).config.runtime listResponse).idJson ∈
          (listening 64).pending.ids ∧
        (listening 64).config.runtime.maxNestingDepth ≠ 2 := by
    decide +kernel
  have hresult : listedTools ∈ valuesAt (ascii "result") (membersOf listTree) :=
    mem_valuesAt.mpr ⟨_, List.mem_cons_of_mem _ (List.mem_cons_of_mem _
      List.mem_cons_self), rfl, rfl⟩
  have htext : IsText listResponse (.obj noGap (membersOf listTree)) := isText_listTree
  refine (answer_by_shape_iff htext hok hkind hpending hresult).mpr ?_
  rintro ⟨-, htwo, -⟩
  exact hlimit htwo

/-- At limit two the classifier accepts the empty list and the filter drops it. -/
theorem empty_tools_dropped_at_two :
    IsText emptyAnswer (.obj noGap emptyAnswerMembers) ∧
      (classify (listening 2).config.runtime emptyAnswer).error = .none ∧
      (classify (listening 2).config.runtime emptyAnswer).kind = .response ∧
      (classify (listening 2).config.runtime emptyAnswer).idJson ∈
        (listening 2).pending.ids ∧
      emptyTools ∈ valuesAt (ascii "result") emptyAnswerMembers ∧
      ¬ ShapeDecides (listening 2) emptyAnswer emptyTools := by
  obtain ⟨⟨hok, hkind, hpending⟩, hdrop⟩ :
      ((classify (listening 2).config.runtime emptyAnswer).error = .none ∧
        (classify (listening 2).config.runtime emptyAnswer).kind = .response ∧
        (classify (listening 2).config.runtime emptyAnswer).idJson ∈
          (listening 2).pending.ids) ∧
        ((listening 2).inspectServer emptyAnswer).decision.action = .drop := by
    decide +kernel
  refine ⟨isText_emptyAnswer, hok, hkind, hpending, emptyTools_mem, ?_⟩
  rintro ⟨hreplace, -⟩
  rw [hdrop] at hreplace
  exact absurd (hreplace.mpr toolsResult_emptyTools) nofun

end NativeGuard.Protocol

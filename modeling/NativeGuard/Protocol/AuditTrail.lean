import NativeGuard.Protocol.Acceptance

/-!
# The audit trail of a run

What the filter records, against what it does. One call of the filter records
the tool calls and the hidden tools of that call in order (`inspect_reports`,
`inspectServer_reports`); the trail of a run is the concatenation of these
records, and so the correspondence carries over to runs of any length
(`audit_trail`).
-/

namespace NativeGuard.Protocol

open Json Proxy Process Audit

/-! ## §1  Runs with a sink -/

/-- A call on the filter, with the framer's reports. -/
inductive Call where
  | input (input : ToolCallFilter.Input)
  | messageTooLarge (direction : MessageDirection) (encodedMessageBytes : Nat)

namespace ToolCallFilter

def nextCall (f : ToolCallFilter) : Call → ToolCallFilter
  | .input input => f.next input
  | .messageTooLarge _ _ => f

/-- The events that one call hands to the sink. -/
def recorded (f : ToolCallFilter) : Call → List AuditEvent
  | .input (.client message) => (f.inspect message).events
  | .input (.server message) => (f.inspectServer message).events
  | .input .closed => []
  | .messageTooLarge _ encodedMessageBytes =>
      [ToolCallFilter.messageTooLarge encodedMessageBytes]

/-- The calls of a run, each with the filter it meets. -/
def steps (f : ToolCallFilter) : List Call → List (ToolCallFilter × Call)
  | [] => []
  | call :: calls => (f, call) :: steps (f.nextCall call) calls

/-- Everything a run hands to the sink, in order. -/
def trail (f : ToolCallFilter) : List Call → List AuditEvent
  | [] => []
  | call :: calls => f.recorded call ++ trail (f.nextCall call) calls

theorem trail_eq (f : ToolCallFilter) (calls : List Call) :
    f.trail calls = (f.steps calls).flatMap fun step => step.1.recorded step.2 := by
  induction calls generalizing f with
  | nil => rfl
  | cons call calls ih =>
      rw [trail, steps, List.flatMap_cons, ih]

/-- If every step of a run matches, the runs match. -/
theorem forall₂_flatMap {α β γ : Type} {R : β → γ → Prop} {g : α → List β}
    {h : α → List γ} {steps : List α}
    (hstep : ∀ s ∈ steps, List.Forall₂ R (g s) (h s)) :
    List.Forall₂ R (steps.flatMap g) (steps.flatMap h) := by
  induction steps with
  | nil => exact List.Forall₂.nil
  | cons s steps ih =>
      rw [List.flatMap_cons, List.flatMap_cons]
      apply List.rel_append
      · exact hstep s List.mem_cons_self
      · apply ih
        intro s' hs'
        exact hstep s' (List.mem_cons_of_mem _ hs')

/-! ## §2  Tool calls -/

/-- The `tools/call` messages that a step takes from the client, rejected ones
included. -/
def toolCalls : ToolCallFilter × Call → List (ToolCallFilter × Bytes)
  | (f, .input (.client message)) =>
      if (classify f.config.runtime message).method = ascii "tools/call" then
        [(f, message)]
      else []
  | _ => []

def isType (type : EventType) (event : AuditEvent) : Bool := event.type = type

/-- The event carries the id and the size of the message, and says whether it was
forwarded. -/
structure ReportsCall (event : AuditEvent) (call : ToolCallFilter × Bytes) : Prop where
  type : event.type = .toolCall
  id : event.idJson = (classify call.1.config.runtime call.2).idJson
  size : event.encodedMessageBytes = call.2.length ∧ event.includeMessageSize = true
  decision : event.decision = .allow ↔
    (call.1.inspect call.2).decision.action = .forward

variable (f : ToolCallFilter)

theorem inspectToolsList_no_calls (envelope : Envelope) (message : Bytes) :
    (f.inspectToolsList envelope message).events.filter (isType .toolCall) = [] := by
  rcases f.inspectToolsList_cases envelope message with
    ⟨-, heq | heq⟩ | ⟨-, ⟨-, heq⟩ | ⟨-, heq⟩ | ⟨-, heq⟩⟩ <;> (rw [heq]; rfl)

theorem inspectToolsCall_reports {message : Bytes}
    (herror : (classify f.config.runtime message).error = .none)
    (hcall : (classify f.config.runtime message).method = ascii "tools/call") :
    List.Forall₂ ReportsCall
      ((f.inspect message).events.filter (isType .toolCall)) [(f, message)] := by
  have hinspect : f.inspect message =
      f.inspectToolsCall (classify f.config.runtime message) message :=
    inspect_of_call herror hcall
  have hsingle : ∀ event : AuditEvent, (f.inspect message).events = [event] →
      ReportsCall event (f, message) → List.Forall₂ ReportsCall
        ((f.inspect message).events.filter (isType .toolCall)) [(f, message)] := by
    intro event hevents hreports
    rw [hevents, List.filter_cons_of_pos (by simp [isType, hreports.type])]
    exact List.Forall₂.cons hreports List.Forall₂.nil
  rcases f.inspectToolsCall_cases (classify f.config.runtime message) message with
    ⟨e, -, houtcome⟩ | ⟨params, -, ⟨-, houtcome⟩ | ⟨-, houtcome⟩⟩
  · apply hsingle _ (by rw [hinspect, houtcome])
    refine ⟨rfl, rfl, ⟨rfl, rfl⟩, iff_of_false nofun ?_⟩
    rw [hinspect, houtcome]
    exact refuse_ne_forward _ _ _
  · apply hsingle _ (by rw [hinspect, houtcome])
    refine ⟨rfl, rfl, ⟨rfl, rfl⟩, iff_of_true rfl ?_⟩
    rw [hinspect, houtcome]
  · apply hsingle _ (by rw [hinspect, houtcome])
    refine ⟨rfl, rfl, ⟨rfl, rfl⟩, iff_of_false nofun ?_⟩
    rw [hinspect, houtcome]
    exact refuse_ne_forward _ _ _

/-- A client message is reported once if it is a tool call, else not at all. -/
theorem inspect_reports (message : Bytes) :
    List.Forall₂ ReportsCall ((f.inspect message).events.filter (isType .toolCall))
      (toolCalls (f, .input (.client message))) := by
  show List.Forall₂ _ _ (if _ then _ else _)
  by_cases hcall : (classify f.config.runtime message).method = ascii "tools/call"
  · rw [if_pos hcall]
    by_cases herror : (classify f.config.runtime message).error = .none
    · exact f.inspectToolsCall_reports herror hcall
    · -- a rejected call is reported as denied, and never forwarded
      have houtcome : f.inspect message = f.rejectMessage _ message := if_pos herror
      have hforward : (f.inspect message).decision.action ≠ .forward := by
        intro hforward
        exact herror (inspect_forward hforward).1
      have htype : (f.rejectMessage (classify f.config.runtime message) message).events =
          [{ type := .toolCall
             decision := .deny
             reason := if (classify f.config.runtime message).error = .messageTooLarge
               then .messageTooLarge else .malformedMessage
             idJson := (classify f.config.runtime message).idJson
             encodedMessageBytes := message.length
             includeMessageSize := true }] := by
        unfold rejectMessage
        rw [if_pos hcall]
      rw [houtcome, htype, List.filter_cons_of_pos (by rfl)]
      refine List.Forall₂.cons ?_ List.Forall₂.nil
      exact ⟨rfl, rfl, ⟨rfl, rfl⟩, iff_of_false nofun hforward⟩
  · rw [if_neg hcall]
    have hnone : (f.inspect message).events.filter (isType .toolCall) = [] := by
      rcases f.inspect_cases message with
        ⟨-, heq⟩ | ⟨-, hmethod, -⟩ | ⟨-, -, heq⟩ | ⟨-, -, -, heq⟩
      · rw [heq]
        unfold rejectMessage
        rw [if_neg hcall]
        rfl
      · exact absurd hmethod hcall
      · rw [heq]
        exact f.inspectToolsList_no_calls _ _
      · rw [heq]
        rfl
    rw [hnone]
    exact List.Forall₂.nil

/-! ## §3  Hidden tools -/

/-- The tool definitions that a response lists. -/
def toolDefinitions (v : Value) : List Value :=
  (valuesAt (ascii "result") (membersOf v)).flatMap fun r =>
    (valuesAt (ascii "tools") (membersOf r)).flatMap fun tools =>
      (elementsOf tools).map fun e => e.value

variable {core : ProxyCore}

theorem hiddenTools_eq (gap : Gap) (ms : List (Member Value)) :
    hiddenTools core ms =
      ((toolDefinitions (.obj gap ms)).filter fun v => !visible core v).map toolName := by
  unfold hiddenTools toolDefinitions hidden
  simp only [List.filter_flatMap, List.map_flatMap, List.filter_map, List.map_map,
    membersOf]
  rfl

theorem elementsOf_filterTools (v : Value) :
    (elementsOf (filterTools core v)).map (fun e => e.value) =
      ((elementsOf v).map fun e => e.value).filter (visible core) := by
  cases v <;> simp [filterTools, elementsOf, kept, List.filter_map,
    Function.comp_def, Element.compact]

theorem toolDefinitions_filterResult (r : Value) :
    ((valuesAt (ascii "tools") (membersOf (filterResult core r))).flatMap fun tools =>
        (elementsOf tools).map fun e => e.value) =
      ((valuesAt (ascii "tools") (membersOf r)).flatMap fun tools =>
        (elementsOf tools).map fun e => e.value).filter (visible core) := by
  have hmap : valuesAt (ascii "tools") (membersOf (filterResult core r)) =
      (valuesAt (ascii "tools") (membersOf r)).map (filterTools core) := by
    cases r with
    | obj gap ms => exact valuesAt_mapAt _ _ _
    | _ => rfl
  rw [hmap, List.flatMap_map, List.filter_flatMap]
  congr 1
  ext1 tools
  exact elementsOf_filterTools tools

/-- The filtered members list exactly the visible tools. -/
theorem toolDefinitions_filtered (gap gap' : Gap) (ms : List (Member Value)) :
    toolDefinitions (.obj gap' (filtered core ms)) =
      (toolDefinitions (.obj gap ms)).filter (visible core) := by
  unfold toolDefinitions
  simp only [membersOf, filtered]
  rw [valuesAt_mapAt, List.flatMap_map, List.filter_flatMap]
  congr 1
  ext1 r
  exact toolDefinitions_filterResult r

/-- A tool definition of the response `v` that is missing in what the client gets. -/
def removals (tree : Bytes → Value) :
    ToolCallFilter × Call → List (ToolCallFilter × Bytes × Value)
  | (f, .input (.server message)) =>
      if (f.inspectServer message).decision.action = .replace then
        ((toolDefinitions (tree message)).filter fun tool => !visible f.core tool).map
          fun tool => (f, message, tool)
      else []
  | _ => []

/-- The event names the removed tool and carries the response's id and size. -/
structure ReportsRemoval (event : AuditEvent)
    (removal : ToolCallFilter × Bytes × Value) : Prop where
  type : event.type = .toolHidden
  name : event.toolName = toolName removal.2.2
  id : event.idJson = (classify removal.1.config.runtime removal.2.1).idJson
  size : event.encodedMessageBytes = removal.2.1.length ∧
    event.includeMessageSize = true
  decision : event.decision = .deny

/-- `v` is what the replaced response says, and its replacement lists the visible
tools of `v` and no others. -/
def ReplacedBy (f : ToolCallFilter) (message : Bytes) (v : Value) : Prop :=
  IsText message v ∧ ∃ w, IsText (f.inspectServer message).decision.replacement w ∧
    toolDefinitions w = (toolDefinitions v).filter (visible f.core)

theorem replaced_of_pending {message : Bytes}
    (hreplace : (f.inspectServer message).decision.action = .replace) :
    (classify f.config.runtime message).error = .none ∧
      ∃ out removedTools,
        rewriteToolsListResponse message f.config.runtime.maxNestingDepth f.core =
          .rewritten out removedTools ∧
        (f.inspectServer message).decision.replacement = out ∧
        (f.inspectServer message).events =
          removedTools.map (hiddenEvent (classify f.config.runtime message) message) := by
  have herror : (classify f.config.runtime message).error = .none := by
    apply inspectServer_accepted
    rw [hreplace]
    exact nofun
  obtain ⟨hkind, hmem⟩ : (classify f.config.runtime message).kind = .response ∧
      (classify f.config.runtime message).idJson ∈ f.pending.ids := by
    by_contra hnot
    rw [inspectServer_of_not_pending herror (by tauto)] at hreplace
    cases hreplace
  refine ⟨herror, ?_⟩
  rw [inspectServer_of_pending herror hkind hmem] at hreplace ⊢
  unfold filterResponse at hreplace ⊢
  cases hrewrite : rewriteToolsListResponse message f.config.runtime.maxNestingDepth
      f.core with
  | malformed =>
      rw [hrewrite] at hreplace
      cases hreplace
  | passthrough =>
      rw [hrewrite] at hreplace
      cases hreplace
  | rewritten out removedTools => exact ⟨out, removedTools, rfl, rfl, rfl⟩

/-- A replaced response has a tree. -/
theorem replaced_text {message : Bytes}
    (hreplace : (f.inspectServer message).decision.action = .replace) :
    ∃ v, IsText message v := by
  obtain ⟨herror, out, removedTools, hrewrite, -⟩ := f.replaced_of_pending hreplace
  obtain ⟨-, exit, ms, tail, hdoc, htrailing, -⟩ := (classify_accepts _ _).mp herror
  obtain ⟨⟨hcut, -⟩, -⟩ := (rewrite_rewritten_iff hdoc).mp hrewrite
  obtain ⟨gap, htext⟩ :=
    isText_of_documentText hdoc (LoopExit.whole_iff.mpr ⟨htrailing, hcut⟩)
  exact ⟨.obj gap ms, htext⟩

/-- Its events are the tools that are hidden there, and it is replaced by the
others. -/
theorem inspectServer_replaced {message : Bytes}
    (hreplace : (f.inspectServer message).decision.action = .replace) {v : Value}
    (hv : IsText message v) :
    f.ReplacedBy message v ∧ (f.inspectServer message).events =
      ((toolDefinitions v).filter fun tool => !visible f.core tool).map fun tool =>
        hiddenEvent (classify f.config.runtime message) message (toolName tool) := by
  obtain ⟨herror, out, removedTools, hrewrite, hout, hevents⟩ :=
    f.replaced_of_pending hreplace
  obtain ⟨gap, ms, rfl, -, -, -, tail, hdoc⟩ := classified_members herror hv
  obtain ⟨htext, hremoved⟩ := rewritten_text hdoc hrewrite
  obtain ⟨gap', htext⟩ := isText_of_documentText htext (exitOf_whole ms)
  refine ⟨⟨hv, .obj gap' (filtered f.core ms), ?_, toolDefinitions_filtered gap gap' ms⟩, ?_⟩
  · rw [hout]
    exact htext
  · rw [hevents, hremoved, hiddenTools_eq gap, List.map_map]
    rfl

theorem inspectServer_events_of_not_replaced {message : Bytes}
    (hreplace : (f.inspectServer message).decision.action ≠ .replace) :
    (f.inspectServer message).events = [] := by
  unfold inspectServer at hreplace ⊢
  by_cases herror : (classify f.config.runtime message).error ≠ .none
  · rw [if_pos herror]
  · rw [if_neg herror] at hreplace ⊢
    split
    · rfl
    · rename_i hpending
      rw [if_neg hpending] at hreplace
      unfold filterResponse at hreplace ⊢
      cases hrewrite : rewriteToolsListResponse message f.config.runtime.maxNestingDepth
          f.core with
      | malformed => rfl
      | passthrough => rfl
      | rewritten out removedTools =>
          rw [hrewrite] at hreplace
          exact absurd rfl hreplace

/-- A server message reports the tools that it lost, if it was replaced. -/
theorem inspectServer_reports {tree : Bytes → Value} {message : Bytes}
    (htree : (f.inspectServer message).decision.action = .replace →
      IsText message (tree message)) :
    List.Forall₂ ReportsRemoval
      ((f.inspectServer message).events.filter (isType .toolHidden))
      (removals tree (f, .input (.server message))) := by
  show List.Forall₂ _ _ (if _ then _ else _)
  by_cases hreplace : (f.inspectServer message).decision.action = .replace
  · obtain ⟨-, hevents⟩ := f.inspectServer_replaced hreplace (htree hreplace)
    have hall : isType .toolHidden ∘ (fun tool =>
        hiddenEvent (classify f.config.runtime message) message (toolName tool)) =
        fun _ => true := rfl
    rw [if_pos hreplace, hevents, List.filter_map, hall, List.filter_true,
      List.forall₂_map_left_iff, List.forall₂_map_right_iff, List.forall₂_same]
    intro tool _
    exact ⟨rfl, rfl, rfl, ⟨rfl, rfl⟩, rfl⟩
  · rw [if_neg hreplace, f.inspectServer_events_of_not_replaced hreplace]
    exact List.Forall₂.nil

/-! ## §4  The whole run -/

/-- A client message never reports a hidden tool. -/
theorem inspect_no_hidden (message : Bytes) :
    (f.inspect message).events.filter (isType .toolHidden) = [] := by
  rcases f.inspect_cases message with
    ⟨-, heq⟩ | ⟨-, -, heq⟩ | ⟨-, -, heq⟩ | ⟨-, -, -, heq⟩
  · rw [heq]
    unfold rejectMessage
    by_cases hcall : (classify f.config.runtime message).method = ascii "tools/call"
    · rw [if_pos hcall]
      rfl
    · rw [if_neg hcall]
      rfl
  · rw [heq]
    rcases f.inspectToolsCall_cases (classify f.config.runtime message) message with
      ⟨e, -, houtcome⟩ | ⟨params, -, ⟨-, houtcome⟩ | ⟨-, houtcome⟩⟩ <;>
      (rw [houtcome]; rfl)
  · rw [heq]
    rcases f.inspectToolsList_cases (classify f.config.runtime message) message with
      ⟨-, houtcome | houtcome⟩ | ⟨-, ⟨-, houtcome⟩ | ⟨-, houtcome⟩ | ⟨-, houtcome⟩⟩ <;>
      (rw [houtcome]; rfl)
  · rw [heq]
    rfl

/-- A server message never reports a call. -/
theorem inspectServer_no_calls (message : Bytes) :
    (f.inspectServer message).events.filter (isType .toolCall) = [] := by
  by_cases hreplace : (f.inspectServer message).decision.action = .replace
  · obtain ⟨-, out, removedTools, -, -, hevents⟩ := f.replaced_of_pending hreplace
    rw [hevents, List.filter_map, List.map_eq_nil_iff, List.filter_eq_nil_iff]
    exact fun _ _ => Bool.false_ne_true
  · rw [f.inspectServer_events_of_not_replaced hreplace]
    rfl

/-- One step records its own tool calls. -/
theorem step_reports_calls (call : Call) :
    List.Forall₂ ReportsCall ((f.recorded call).filter (isType .toolCall))
      (toolCalls (f, call)) := by
  rcases call with input | ⟨direction, encodedMessageBytes⟩
  · cases input with
    | client message => exact f.inspect_reports message
    | server message =>
        show List.Forall₂ _ ((f.inspectServer message).events.filter _) []
        rw [f.inspectServer_no_calls]
        exact List.Forall₂.nil
    | closed => exact List.Forall₂.nil
  · exact List.Forall₂.nil

/-- One step records the tools that it hides. -/
theorem step_reports_removals {tree : Bytes → Value} (call : Call)
    (htree : ∀ message, call = .input (.server message) →
      (f.inspectServer message).decision.action = .replace →
        IsText message (tree message)) :
    List.Forall₂ ReportsRemoval ((f.recorded call).filter (isType .toolHidden))
      (removals tree (f, call)) := by
  rcases call with input | ⟨direction, encodedMessageBytes⟩
  · cases input with
    | client message =>
        show List.Forall₂ _ ((f.inspect message).events.filter _) []
        rw [f.inspect_no_hidden]
        exact List.Forall₂.nil
    | server message => exact f.inspectServer_reports (htree message rfl)
    | closed => exact List.Forall₂.nil
  · exact List.Forall₂.nil

/-- The tool call events of a run are the client's `tools/call` messages, and
its hidden tool events are the definitions missing in the replaced responses,
each in order and one for one. -/
theorem audit_trail (policy : Security.PolicyTable) (config : FilterConfig)
    (calls : List Call) :
    List.Forall₂ ReportsCall
        (((init policy config).trail calls).filter (isType .toolCall))
        (((init policy config).steps calls).flatMap toolCalls) ∧
      ∃ tree : Bytes → Value,
        (∀ g message, (g, Call.input (.server message)) ∈
            (init policy config).steps calls →
          (g.inspectServer message).decision.action = .replace →
            g.ReplacedBy message (tree message)) ∧
        List.Forall₂ ReportsRemoval
          (((init policy config).trail calls).filter (isType .toolHidden))
          (((init policy config).steps calls).flatMap (removals tree)) := by
  rw [trail_eq, List.filter_flatMap, List.filter_flatMap]
  refine ⟨forall₂_flatMap fun step _ => step.1.step_reports_calls step.2, ?_⟩
  -- the tree of every text that has one
  have hchoice : ∀ message : Bytes, ∃ v, (∃ w, IsText message w) → IsText message v := by
    intro message
    by_cases htext : ∃ w, IsText message w
    · obtain ⟨w, hw⟩ := htext
      exact ⟨w, fun _ => hw⟩
    · exact ⟨.obj noGap [], fun h => absurd h htext⟩
  choose tree htree using hchoice
  refine ⟨tree, ?_, ?_⟩
  · intro g message _ hreplace
    exact (g.inspectServer_replaced hreplace (htree message (g.replaced_text hreplace))).1
  · apply forall₂_flatMap
    rintro ⟨g, call⟩ _
    apply g.step_reports_removals
    intro message _ hreplace
    exact htree message (g.replaced_text hreplace)

/-- A call of `x`. -/
def refusedCall : Bytes :=
  ascii ("\x7b\"jsonrpc\":\"2.0\",\"id\":7,\"method\":\"tools/call\"," ++
    "\"params\":\x7b\"name\":\"x\"\x7d\x7d")

/-- Without rules it is refused, and reported with its name. -/
example : ((init (.ofDefaults {}) {}).trail [.input (.client refusedCall)]).map
    (fun event => (event.decision, event.toolName)) = [(.deny, ascii "x")] := by
  decide +kernel

end ToolCallFilter

end NativeGuard.Protocol

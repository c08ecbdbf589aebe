import NativeGuard.Data.Options
import NativeGuard.Json.Write
import NativeGuard.Process.RelayConservation
import NativeGuard.Protocol.AuditTrail
import NativeGuard.Protocol.ErrorReply
import NativeGuard.Protocol.ToolsList

/-!
# The relay with its filter (`run_child` in `src/main.cpp`)

The tool call filter is the relay's only handler. What it has the relay send is one
line for a message of one line (`wholeLines_filter`), and so a run of the relay passes
lines on, each of them once, in order and unbroken (`run_conserves`).
-/

namespace NativeGuard.Process

open Json Data Io Protocol ToolCallFilter

/-! ## §1  The handler -/

/-- `ToolCallFilter` as a handler; its events are `Outcome.events`. -/
def filterHandler : ClientMessageHandler ToolCallFilter where
  inspect f message := ((f.inspect message).decision, (f.inspect message).filter)
  inspectServer f message :=
    ((f.inspectServer message).decision, (f.inspectServer message).filter)
  messageTooLarge f _ _ := f
  connectionClosed f := f.connectionClosed

section decisions

variable {f : ToolCallFilter} {message : Bytes}

/-- An answer is short, for the method and the id stand in the message. -/
theorem errorLine_length (h : (f.inspect message).decision.action = .respondWithError) :
    (errorLine (f.inspect message).decision).length ≤ message.length + 74 ∧
      (errorLine (f.inspect message).decision).length + 1 ≤ 4 * (message.length + 1) := by
  obtain ⟨v, text, -, hjson, hid, -, hlength, hcode⟩ := respond_parts h
  have hcost := (classify_scanned f.config.runtime message).cost
  have hmethod : methodCost (classify f.config.runtime message).method = 21 := by
    rcases respond_method h with hcall | hlist
    · rw [hcall]
      decide
    · rw [hlist]
      decide
  have hne : v.render ≠ [] := render_ne_nil v
  rw [hmethod, hjson] at hcost
  unfold idCost at hcost
  rw [if_neg hne] at hcost
  have hparts : (ascii "\x7b\"jsonrpc\":\"2.0\",\"id\":").length = 22 ∧
      (ascii ",\"error\":\x7b\"code\":").length = 17 ∧
      (ascii ",\"message\":\"").length = 12 ∧ (ascii "\"\x7d\x7d").length = 3 := by decide
  obtain ⟨h₁, h₂, h₃, h₄⟩ := hparts
  unfold errorLine
  simp only [List.length_append, h₁, h₂, h₃, h₄, hid, hcode]
  omega

theorem errorLine_line (h : (f.inspect message).decision.action = .respondWithError) :
    newline ∉ errorLine (f.inspect message).decision := by
  obtain ⟨v, text, hkind, -, hid, htext, -⟩ := respond_parts h
  exact errorLine_no_newline hid htext hkind

theorem mem_renderElement {e : Element Value} {b : UInt8} (hb : b ∈ e.value.render) :
    b ∈ renderElement e := by
  rw [renderElement_eq]
  exact List.mem_append_right _ (List.mem_append_left _ hb)

theorem mem_openElements {es : List (Element Value)} {e : Element Value} {b : UInt8}
    (he : e ∈ es) (hb : b ∈ e.value.render) : b ∈ openElements es := by
  induction es with
  | nil => cases he
  | cons e' es ih =>
      apply List.mem_cons_of_mem
      rcases List.mem_cons.mp he with rfl | hmem
      · exact List.mem_append_left _ (mem_renderElement hb)
      · exact List.mem_append_right _ (ih hmem)

/-- The bytes of an element are bytes of its array. -/
theorem mem_render_arr {gap : Gap} {es : List (Element Value)} {e : Element Value}
    {b : UInt8} (he : e ∈ es) (hb : b ∈ e.value.render) : b ∈ (Value.arr gap es).render := by
  cases es with
  | nil => cases he
  | cons e' es =>
      simp only [Value.render, renderElements_open, List.mem_cons, List.mem_append]
      rcases List.mem_cons.mp he with rfl | hmem
      · exact Or.inr (Or.inl (mem_renderElement hb))
      · exact Or.inr (Or.inr (Or.inl (mem_openElements hmem hb)))

theorem mem_intercalate_comma {b : UInt8} {xs : List Bytes}
    (h : b ∈ List.intercalate [0x2C] xs) : b = 0x2C ∨ ∃ x ∈ xs, b ∈ x := by
  cases xs with
  | nil => cases h
  | cons x xs =>
      rw [intercalate_cons, List.mem_append] at h
      rcases h with hx | hxs
      · exact Or.inr ⟨x, List.mem_cons_self, hx⟩
      · obtain ⟨y, hy, hb⟩ := List.mem_flatMap.mp hxs
        rcases List.mem_append.mp hb with hcomma | hb
        · exact Or.inl (List.mem_singleton.mp hcomma)
        · exact Or.inr ⟨y, List.mem_cons_of_mem x hy, hb⟩

/-- A replacement is made of the message's bytes and of brackets and commas. -/
theorem replacement_bytes
    (h : (f.inspectServer message).decision.action = .replace) :
    (f.inspectServer message).decision.replacement.length ≤ message.length ∧
      ∀ b ∈ (f.inspectServer message).decision.replacement,
        b ∈ message ∨ b ∈ [0x5B, 0x2C, 0x5D] := by
  obtain ⟨herror, out, removedTools, hrewrite, hout, -⟩ := f.replaced_of_pending h
  obtain ⟨w, hw⟩ := f.replaced_text h
  obtain ⟨gap₀, ms, rfl, -, -, -, tail, hdoc⟩ := classified_members herror hw
  obtain ⟨site, gap, es, before, rfl, -, hmessage, -, htext, -, hlength, -⟩ :=
    rewrite_splices hdoc hrewrite
  rw [hout]
  refine ⟨hlength, fun b hb => ?_⟩
  rw [hmessage]
  rw [htext] at hb
  simp only [List.mem_append, List.mem_cons] at hb ⊢
  rcases hb with hbefore | hopen | hslices | hclose | hafter
  · exact Or.inl (Or.inl hbefore)
  · exact Or.inr (Or.inl hopen)
  · rcases mem_intercalate_comma hslices with hcomma | ⟨slice, hslice, hb⟩
    · exact Or.inr (Or.inr (Or.inl hcomma))
    · obtain ⟨e, he, rfl⟩ := List.mem_map.mp hslice
      exact Or.inl (Or.inr (Or.inl (mem_render_arr (List.mem_filter.mp he).1 hb)))
  · exact Or.inr (Or.inr (Or.inr (Or.inl hclose)))
  · exact Or.inl (Or.inr (Or.inr hafter))

theorem replacement_line (hline : newline ∉ message)
    (h : (f.inspectServer message).decision.action = .replace) :
    newline ∉ (f.inspectServer message).decision.replacement := by
  intro hmem
  rcases (replacement_bytes h).2 newline hmem with hmessage | hbracket
  · exact hline hmessage
  · revert hbracket
    decide

end decisions

/-! ## §2  Lines -/

/-- Nothing, or one line. -/
def OneLine (text : Bytes) : Prop :=
  text = [] ∨ ∃ line, newline ∉ line ∧ text = line ++ [newline]

/-- What the handler calls for is whole lines. -/
def WholeLines {σ : Type} (handler : Option (ClientMessageHandler σ)) : Prop :=
  ∀ state arrival, newline ∉ arrival.2 →
    OneLine (inspectOne handler state arrival).1.textForChild ∧
      OneLine (inspectOne handler state arrival).1.textForClient

theorem wholeLines_filter : WholeLines (some filterHandler) := by
  rintro f ⟨direction, message⟩ hline
  cases direction with
  | clientToServer =>
      constructor
      · show OneLine (if (f.inspect message).decision.action = .forward then
          message ++ [newline] else [])
        split
        · exact Or.inr ⟨message, hline, rfl⟩
        · exact Or.inl rfl
      · show OneLine (if (f.inspect message).decision.action = .respondWithError then
          errorLine (f.inspect message).decision ++ [newline] else [])
        split
        · rename_i hrespond
          exact Or.inr ⟨_, errorLine_line hrespond, rfl⟩
        · exact Or.inl rfl
  | serverToClient =>
      refine ⟨Or.inl rfl, ?_⟩
      show OneLine (Inspection.server message (f.inspectServer message).decision).textForClient
      cases haction : (f.inspectServer message).decision.action with
      | forward => exact Or.inr ⟨message, hline, Inspection.server_forward haction⟩
      | replace =>
          exact Or.inr ⟨_, replacement_line hline haction, Inspection.server_replace haction⟩
      | drop => exact Or.inl (Inspection.server_drop haction)

section runs

variable {σ : Type} {handler : Option (ClientMessageHandler σ)}

/-- Framed messages are lines. -/
theorem emitted_line {config : RunConfig} {s message : Bytes}
    (h : message ∈ LineFramer.emitted config.framerConfig s) : newline ∉ message := by
  obtain ⟨line, hline, rfl⟩ := List.mem_map.mp h
  have hemit : config.framerConfig.emit line = line :=
    if_neg fun htrim => Bool.false_ne_true htrim.1
  rw [hemit]
  exact not_mem_of_mem_linesOf ((List.takeWhile_sublist _).subset hline)

theorem inspectAll_oneLine (hlines : WholeLines handler) {arrivals : List Arrival}
    (h : ∀ arrival ∈ arrivals, newline ∉ arrival.2) (state : σ) :
    ∀ inspection ∈ (inspectAll handler state arrivals).1,
      OneLine inspection.textForChild ∧ OneLine inspection.textForClient := by
  induction arrivals generalizing state with
  | nil => exact fun _ hmem => absurd hmem List.not_mem_nil
  | cons arrival arrivals ih =>
      intro inspection hmem
      rcases List.mem_cons.mp hmem with rfl | hmem
      · exact hlines state arrival (h arrival List.mem_cons_self)
      · exact ih (fun a ha => h a (List.mem_cons_of_mem _ ha)) _ inspection hmem

/-- Everything read is framed and decided on in the order of arrival, and what the
decisions call for is written or waits, each text once and none of another. -/
structure Conserves (config : RunConfig) (handler : Option (ClientMessageHandler σ))
    (state : σ) (relay : Relay σ) : Prop where
  fromClient : messagesOf .clientToServer (relay.outputs.inspected.map Inspection.arrival) =
    LineFramer.emitted config.framerConfig relay.client.read
  fromChild : messagesOf .serverToClient (relay.outputs.inspected.map Inspection.arrival) =
    LineFramer.emitted config.framerConfig relay.child.read
  decided : inspectAll handler state (relay.outputs.inspected.map Inspection.arrival) =
    (relay.outputs.inspected, relay.outputs.handlerState)
  toChild : relay.writtenToChild ++ relay.outputs.toChild.rest =
    relay.outputs.inspected.flatMap Inspection.textForChild
  toClient : relay.writtenToClient ++ relay.outputs.toClient.rest =
    relay.outputs.inspected.flatMap Inspection.textForClient

/-- As long as the child is not reaped, no signal is seen and its pipe holds, the relay
conserves its traffic, however the reads and writes are cut. With a handler that answers
and replaces in whole lines, as the filter does, it passes whole lines on. -/
theorem run_conserves {config : RunConfig} {state : σ} {relay relay' : Relay σ}
    {turns : List Relay.Turn} (hstart : Relay.start config state = .ok relay)
    (hturns : ∀ t ∈ turns, t.Undisturbed) (hrun : Relay.run handler relay turns = .ok relay') :
    Conserves config handler state relay' ∧ (WholeLines handler →
      ∀ inspection ∈ relay'.outputs.inspected,
        OneLine inspection.textForChild ∧ OneLine inspection.textForClient) := by
  have hbalanced : Relay.Balanced config handler state relay' :=
    Relay.run_balanced hturns (Relay.start_balanced hstart) hrun
  refine ⟨⟨hbalanced.client.emits, hbalanced.child.emits, hbalanced.decided,
    hbalanced.toChild, hbalanced.toClient⟩, fun hlines => ?_⟩
  have harrivals : ∀ arrival ∈ relay'.outputs.inspected.map Inspection.arrival,
      newline ∉ arrival.2 := by
    rintro ⟨direction, message⟩ hmem
    have hmessage : message ∈
        messagesOf direction (relay'.outputs.inspected.map Inspection.arrival) :=
      List.mem_filterMap.mpr ⟨_, hmem, if_pos rfl⟩
    cases direction with
    | clientToServer =>
        rw [hbalanced.client.emits] at hmessage
        exact emitted_line hmessage
    | serverToClient =>
        rw [hbalanced.child.emits] at hmessage
        exact emitted_line hmessage
  have hone := inspectAll_oneLine hlines harrivals state
  rw [hbalanced.decided] at hone
  exact hone

end runs

/-- A notification, which both sides may send. -/
def notification : Bytes := ascii "\x7b\"jsonrpc\":\"2.0\",\"method\":\"m\"\x7d"

/-- One turn reads a call and a notification from the client and a notification from the
child, the next one writes to both sides. -/
def bothTurns : List Relay.Turn :=
  [{ polled := .ready {
      stdin := some (.data ⟨refusedCall ++ newline :: (notification ++ [newline]),
        by decide +kernel, by decide +kernel⟩)
      childStdout := some (.data ⟨notification ++ [newline], by decide +kernel,
        by decide +kernel⟩) } },
    { polled := .ready { childStdin := some (.wrote 31), stdout := some (.wrote 40) } }]

def denyFilter : ToolCallFilter := init (.ofDefaults {}) {}

/-- The call has been answered, the notifications have gone through. -/
theorem bothTurns_run : ∃ relay',
    Relay.run (some filterHandler) (Relay.fresh {} denyFilter) bothTurns = .ok relay' ∧
      relay'.writtenToChild = notification ++ [newline] ∧
      relay'.outputs.toClient.rest.length = 79 := by
  have hrun : ((Relay.run (some filterHandler) (Relay.fresh {} denyFilter)
      bothTurns).toOption.map fun relay' =>
        (relay'.writtenToChild, relay'.outputs.toClient.rest.length)) =
          some (notification ++ [newline], 79) := by
    decide +kernel
  obtain ⟨relay', hrelay', hsides⟩ := Option.map_eq_some_iff.mp hrun
  obtain ⟨hchild, hclient⟩ := Prod.mk.inj hsides
  exact ⟨relay', toOption_eq_some.mp hrelay', hchild, hclient⟩

theorem run_conserves_example : ∃ relay',
    Relay.start {} denyFilter = .ok (Relay.fresh {} denyFilter) ∧
      Relay.run (some filterHandler) (Relay.fresh {} denyFilter) bothTurns = .ok relay' ∧
      relay'.writtenToChild = notification ++ [newline] ∧
      Conserves {} (some filterHandler) denyFilter relay' := by
  obtain ⟨relay', hrun, hchild, -⟩ := bothTurns_run
  have hstart : Relay.start {} denyFilter = .ok (Relay.fresh {} denyFilter) := if_neg (by decide)
  have hturns : ∀ t ∈ bothTurns, t.Undisturbed := by
    intro t ht
    simp only [bothTurns, List.mem_cons, List.not_mem_nil, or_false] at ht
    rcases ht with rfl | rfl
    · refine ⟨nofun, rfl, ?_⟩
      rintro events ⟨⟩
      exact nofun
    · refine ⟨nofun, rfl, ?_⟩
      rintro events ⟨⟩
      exact nofun
  exact ⟨relay', hstart, hrun, hchild, (run_conserves hstart hturns hrun).1⟩

end NativeGuard.Process

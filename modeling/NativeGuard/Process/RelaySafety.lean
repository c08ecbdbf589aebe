import NativeGuard.Process.RelayRoom
import NativeGuard.Process.RelaySteps
import NativeGuard.Protocol.ForwardedPrefix

/-!
# What the peers of the relay receive (`run_child` in `src/main.cpp`)

However a run goes, the child receives lines of the client that the filter has
forwarded, in their order, and whatever of it is a JSON text calls no tool that the
policy does not allow (`child_input_allowed`). The client loses nothing: when the loop
comes to its end, all that the child has said has been decided on and sent
(`finished_delivers`).
-/

namespace NativeGuard.Process

open Json Json.Scan Data Io Protocol ToolCallFilter Security

/-! ## §1  Forwarded messages -/

namespace Inspection

/-- The message, if it goes to the child. -/
def forwarded : Inspection → Option Bytes
  | .client message decision => if decision.action = .forward then some message else none
  | .server _ _ => none

theorem textForChild_eq (inspection : Inspection) :
    inspection.textForChild = inspection.forwarded.toList.flatMap (· ++ [newline]) := by
  cases inspection with
  | client message decision =>
      show (if _ then _ else _ : Bytes) = (if _ then _ else _ : Option Bytes).toList.flatMap _
      split
      · exact (List.append_nil _).symm
      · rfl
  | server message decision => rfl

theorem forwarded_arrival {inspection : Inspection} {message : Bytes}
    (h : inspection.forwarded = some message) :
    inspection.arrival = (.clientToServer, message) := by
  cases inspection with
  | client message' decision =>
      by_cases hforward : decision.action = .forward
      · obtain rfl : message' = message := Option.some.inj ((if_pos hforward).symm.trans h)
        rfl
      · exact absurd ((if_neg hforward).symm.trans h) nofun
  | server message' decision => cases h

end Inspection

/-- The texts for the child are the forwarded messages, a line each. -/
theorem textsForChild_eq (inspections : List Inspection) :
    inspections.flatMap Inspection.textForChild =
      (inspections.filterMap Inspection.forwarded).flatMap (· ++ [newline]) := by
  induction inspections with
  | nil => rfl
  | cons inspection inspections ih =>
      rw [List.flatMap_cons, ih, inspection.textForChild_eq]
      cases hforwarded : inspection.forwarded with
      | none =>
          rw [List.filterMap_cons_none hforwarded]
          rfl
      | some message =>
          rw [List.filterMap_cons_some hforwarded, List.flatMap_cons]
          exact congrArg (· ++ _) (List.append_nil _)

theorem forwarded_sublist (inspections : List Inspection) :
    (inspections.filterMap Inspection.forwarded).Sublist
      (messagesOf .clientToServer (inspections.map Inspection.arrival)) := by
  induction inspections with
  | nil => exact List.Sublist.slnil
  | cons inspection inspections ih =>
      cases hforwarded : inspection.forwarded with
      | none =>
          rw [List.filterMap_cons_none hforwarded, List.map_cons,
            ← List.singleton_append, messagesOf_append]
          exact ih.trans (List.sublist_append_right _ _)
      | some message =>
          rw [List.filterMap_cons_some hforwarded, List.map_cons,
            Inspection.forwarded_arrival hforwarded]
          exact ih.cons_cons message

/-- The filter that decides on a message has the policy of the first one. -/
theorem forwarded_decided {f : ToolCallFilter} {arrivals : List Arrival} {message : Bytes}
    (h : message ∈ (inspectAll (some filterHandler) f arrivals).1.filterMap
      Inspection.forwarded) :
    ∃ f' : ToolCallFilter, f'.core = f.core ∧ f'.config = f.config ∧
      (f'.inspect message).decision.action = .forward := by
  induction arrivals generalizing f with
  | nil => cases h
  | cons arrival arrivals ih =>
      obtain ⟨direction, m⟩ := arrival
      obtain ⟨inspection, hmem, hforwarded⟩ := List.mem_filterMap.mp h
      cases direction with
      | clientToServer =>
          rcases List.mem_cons.mp hmem with rfl | hmem
          · have haction : (if (f.inspect m).decision.action = .forward then some m
                else none) = some message := hforwarded
            split at haction
            · cases haction
              exact ⟨f, rfl, rfl, ‹_›⟩
            · cases haction
          · obtain ⟨f', hcore, hconfig, hforward⟩ :=
              ih (f := (f.inspect m).filter) (List.mem_filterMap.mpr ⟨_, hmem, hforwarded⟩)
            obtain ⟨hconfig', hcore'⟩ := inspect_settings (f := f) m
            exact ⟨f', hcore.trans hcore', hconfig.trans hconfig', hforward⟩
      | serverToClient =>
          rcases List.mem_cons.mp hmem with rfl | hmem
          · cases hforwarded
          · obtain ⟨f', hcore, hconfig, hforward⟩ :=
              ih (f := (f.inspectServer m).filter) (List.mem_filterMap.mpr ⟨_, hmem, hforwarded⟩)
            obtain ⟨hconfig', hcore'⟩ := inspectServer_settings (f := f) m
            exact ⟨f', hcore.trans hcore', hconfig.trans hconfig', hforward⟩

/-! ## §2  The child's side -/

/-- A text among what has arrived of some lines begins one of them, the open line too. -/
theorem begins_of_text {messages : List Bytes} (hlines : ∀ message ∈ messages, newline ∉ message)
    {s : Bytes} (hbegins : s <+: messages.flatMap (· ++ [newline])) {text : Bytes}
    (htext : text ∈ linesOf newline s ++ [restOf newline s]) {v : Value} (hv : IsText text v) :
    ∃ message ∈ messages, text <+: message := by
  obtain ⟨hwhole, hopen⟩ := lines_of_prefix hlines hbegins
  rcases List.mem_append.mp htext with hline | hrest
  · exact ⟨text, hwhole.subset hline, List.prefix_rfl⟩
  · rw [List.mem_singleton] at hrest
    subst hrest
    refine hopen.resolve_left fun hnil => ?_
    obtain ⟨lead, trail, htree⟩ := hv
    rw [hnil] at htree
    have hne := render_ne_nil v
    simp at htree
    exact hne htree.2.1

/-- The lines that were decided to be forwarded are lines of the client in its order, the
child's input is a beginning of them, and no part of it that a receiver could read calls a
tool against the policy. -/
structure HearsAllowed (policy : PolicyTable) (inspected : List Inspection)
    (fromClient toChild : Bytes) (limit : Nat) : Prop where
  client : (inspected.filterMap Inspection.forwarded).Sublist
    (shortLines newline limit fromClient)
  begins : toChild <+:
    (inspected.filterMap Inspection.forwarded).flatMap (· ++ [newline])
  lines : linesOf newline toChild <+: inspected.filterMap Inspection.forwarded
  allowed : ∀ text ∈ linesOf newline toChild ++ [restOf newline toChild],
    ∀ v, IsText text v → CallsAllowed policy v

/-- What has arrived from both peers, each in its own order, has been decided on in the
order of its arrival. -/
structure DecidedInOrder {σ : Type} (config : RunConfig)
    (handler : Option (ClientMessageHandler σ)) (state : σ) (relay : Relay σ) : Prop where
  decided : inspectAll handler state (relay.outputs.inspected.map Inspection.arrival) =
    (relay.outputs.inspected, relay.outputs.handlerState)
  fromClient : messagesOf .clientToServer (relay.outputs.inspected.map Inspection.arrival) =
    LineFramer.emitted config.framerConfig relay.client.read
  fromChild : messagesOf .serverToClient (relay.outputs.inspected.map Inspection.arrival) =
    LineFramer.emitted config.framerConfig relay.child.read

section child

variable {policy : PolicyTable} {config : FilterConfig} {runConfig : RunConfig}
  {relay relay' : Relay ToolCallFilter} {turns : List Relay.Turn}

theorem hearsAllowed_of_reaches (hstart : Relay.start runConfig (init policy config) = .ok relay)
    (hreaches : Relay.Reaches (some filterHandler) relay turns relay') :
    HearsAllowed policy relay'.outputs.inspected relay'.client.read relay'.writtenToChild
      runConfig.runtime.maxMessageBytes := by
  have haccounts := Relay.reaches_accounts hstart hreaches
  have hsublist := forwarded_sublist relay'.outputs.inspected
  rw [haccounts.client.emits, Relay.emitted_eq] at hsublist
  have hbegins : relay'.writtenToChild <+:
      (relay'.outputs.inspected.filterMap Inspection.forwarded).flatMap (· ++ [newline]) := by
    rw [← textsForChild_eq]
    exact (List.prefix_append _ _).trans haccounts.forChild
  have hlines : ∀ message ∈ relay'.outputs.inspected.filterMap Inspection.forwarded,
      newline ∉ message := fun message hmem =>
    not_mem_of_mem_linesOf ((List.takeWhile_sublist _).subset (hsublist.subset hmem))
  obtain ⟨hwhole, -⟩ := lines_of_prefix hlines hbegins
  refine ⟨hsublist, hbegins, hwhole, fun text htext v hv => ?_⟩
  obtain ⟨message, hmessage, hbegins⟩ := begins_of_text hlines hbegins htext hv
  obtain ⟨f, hcore, -, hforward⟩ := @forwarded_decided (init policy config)
    (relay'.outputs.inspected.map Inspection.arrival) message (by
      rw [haccounts.decided]
      exact hmessage)
  have hallowed := callsAllowed_of_forward hforward hbegins hv
  rw [hcore] at hallowed
  exact hallowed

/-- In every run, whatever the order of reads and writes, the death of the child and the
signals, and also behind a broken pipe: the decisions are those of the filter on what the
peers have sent, and the child hears what they let through. -/
theorem child_input_allowed (hstart : Relay.start runConfig (init policy config) = .ok relay)
    (hreaches : Relay.Reaches (some filterHandler) relay turns relay') :
    DecidedInOrder runConfig (some filterHandler) (init policy config) relay' ∧
      HearsAllowed policy relay'.outputs.inspected relay'.client.read relay'.writtenToChild
        runConfig.runtime.maxMessageBytes ∧
      (relay'.stdinWrite = false → ∀ more relay'',
        Relay.Reaches (some filterHandler) relay' more relay'' →
          relay''.writtenToChild = relay'.writtenToChild ∧
            relay''.client.read = relay'.client.read) := by
  have haccounts := Relay.reaches_accounts hstart hreaches
  refine ⟨⟨haccounts.decided, haccounts.client.emits, haccounts.child.emits⟩,
    hearsAllowed_of_reaches hstart hreaches, fun hclosed more relay'' hmore => ?_⟩
  have hstays := Relay.reaches_closedAt hclosed hmore
  exact ⟨hstays.written, hstays.read⟩

end child

def noteChunk : Chunk :=
  ⟨ascii "\x7b\"jsonrpc\":\"2.0\",\"method\":\"x\"\x7d\n", by decide, by decide⟩

/-- A notification comes in, and its first bytes go out before the child dies. -/
def noteTurns : List Relay.Turn :=
  [{ polled := .ready { stdin := some (.data noteChunk) } },
    { polled := .ready { childStdin := some (.wrote 9) } },
    { waited := .reaped, polled := .timeout }]

theorem child_input_allowed_example : ∃ relay relay',
    Relay.start {} (init allowAll {}) = .ok relay ∧
      Relay.Reaches (some filterHandler) relay noteTurns relay' ∧
      relay'.writtenToChild = ascii "\x7b\"jsonrpc" ∧
      HearsAllowed allowAll relay'.outputs.inspected relay'.client.read relay'.writtenToChild
        (1024 * 1024) := by
  have hstart : Relay.start {} (init allowAll {}) = .ok (Relay.fresh {} (init allowAll {})) :=
    if_neg (by decide)
  have hwritten : ((Relay.run (some filterHandler) (Relay.fresh {} (init allowAll {}))
      noteTurns).toOption.map fun relay => relay.writtenToChild) =
        some (ascii "\x7b\"jsonrpc") := by decide +kernel
  cases hrun : Relay.run (some filterHandler) (Relay.fresh {} (init allowAll {})) noteTurns with
  | error e =>
      rw [hrun] at hwritten
      cases hwritten
  | ok relay' =>
      rw [hrun] at hwritten
      exact ⟨_, relay', hstart, Or.inl hrun, Option.some.inj hwritten,
        (child_input_allowed hstart (Or.inl hrun)).2.1⟩

/-! ## §3  The client's side -/

/-- A stream that a framer takes to its end is its messages, a line each. -/
theorem lines_of_finalCode {config : RunConfig} {s : Bytes}
    (h : LineFramer.finalCode config.framerConfig s = .ok) :
    (LineFramer.emitted config.framerConfig s).flatMap (· ++ [newline]) = s := by
  unfold LineFramer.finalCode at h
  split at h
  · cases h
  rename_i hfits
  split at h
  · cases h
  rename_i hclosed
  have hjoin := lines_join (d := newline) s
  rw [not_not.mp hclosed, List.append_nil] at hjoin
  have hall : shortLines newline config.runtime.maxMessageBytes s = linesOf newline s :=
    shortLines_of_not_overlong hfits
  rw [Relay.emitted_eq, hall]
  exact hjoin

section client

variable {σ : Type} {handler : Option (ClientMessageHandler σ)} {config : RunConfig}
  {state : σ} {relay relay' : Relay σ} {turns : List Relay.Turn}

/-- Nothing for the client is lost or sent twice in any run, also when the child dies
under it or a signal comes. When the loop ends, all of the child's output has been whole
lines, each of them decided on, and the client has been sent what the decisions call
for, and nothing else. -/
theorem finished_delivers (hstart : Relay.start config state = .ok relay)
    (hreaches : Relay.Reaches handler relay turns relay') :
    DecidedInOrder config handler state relay' ∧
      relay'.writtenToClient ++ relay'.outputs.toClient.rest =
        relay'.outputs.inspected.flatMap Inspection.textForClient ∧
      (Relay.run handler relay turns = .error (.finished relay') →
        relay'.writtenToClient =
            relay'.outputs.inspected.flatMap Inspection.textForClient ∧
          (messagesOf .serverToClient
            (relay'.outputs.inspected.map Inspection.arrival)).flatMap (· ++ [newline]) =
              relay'.child.read) := by
  have haccounts := Relay.reaches_accounts hstart hreaches
  refine ⟨⟨haccounts.decided, haccounts.client.emits, haccounts.child.emits⟩,
    haccounts.forClient, fun hrun => ?_⟩
  obtain ⟨-, hover, hempty⟩ := Relay.run_finished hrun
  have heof : relay'.outputEof = true := by
    rcases hover with hclosed | heof
    · rw [haccounts.reading, hclosed]
      rfl
    · exact heof
  constructor
  · have hall := haccounts.forClient
    rw [Relay.rest_of_isEmpty hempty, List.append_nil] at hall
    exact hall
  · rw [haccounts.child.emits]
    exact lines_of_finalCode (haccounts.ended heof)

end client

/-- A child that says a line, is reaped and closes its output. -/
def lastTurns : List Relay.Turn :=
  [{ polled := .ready { childStdout := some (.data ⟨ascii "b\n", by decide, by decide⟩) } },
    { waited := .reaped, polled := .ready { stdout := some (.wrote 1) } },
    { polled := .ready { stdout := some (.wrote 1) } },
    { polled := .ready { childStdout := some .endOfFile } },
    { polled := .timeout }]

theorem finished_delivers_example : ∃ relay relay',
    Relay.start {} () = .ok relay ∧
      Relay.run none relay lastTurns = .error (.finished relay') ∧
      relay'.writtenToClient = ascii "b\n" ∧ DecidedInOrder {} none () relay' := by
  have hstart : Relay.start {} () = .ok (Relay.fresh {} ()) := if_neg (by decide)
  have hrun : Relay.run none (Relay.fresh {} ()) lastTurns = .error (.finished _) := rfl
  exact ⟨_, _, hstart, hrun, rfl, (finished_delivers hstart (Or.inr hrun)).1⟩

end NativeGuard.Process

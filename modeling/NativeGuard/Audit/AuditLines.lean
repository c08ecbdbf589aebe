import NativeGuard.Audit.AuditSink
import NativeGuard.Protocol.Envelope

/-!
# The lines of the audit sink (`src/audit_sink.cpp`)

All records of the sink, of events and of sessions, under a timestamp of any length.
A record of an event is the text of an object whose members a receiver reads back as
the fields of the event (`recordTree_decodes`), and what the sink hands to its stream
is whole lines; once it has failed it hands over nothing (`deliverAll_of_failed`).
-/

namespace NativeGuard.Audit

open Json Data Protocol

/-! ## §1  Session records -/

structure SessionIdentity where
  guardVersion : Bytes
  serverLabel : Bytes
  downstreamExecutable : Bytes
  policyHash : Bytes
  limits : RuntimeLimits := {}

structure SessionEnd where
  childExitStatus : Int := 0
  proxyExitStatus : Int := 0
  durationMs : Nat := 0
  cleanShutdown : Bool := false
  terminationReason : Bytes := []
deriving DecidableEq, Repr

/-- What both session records start with, up to the policy hash. -/
def appendSession (event : Bytes) (identity : SessionIdentity) (timestamp : TimestampText)
    (limit : Nat) : Option Bytes := do
  let output ← append limit (ascii "\x7b\"ts\":\"") []
  let output ← appendTimestamp limit timestamp output
  let output ← append limit event output
  let output ← appendJsonString limit identity.guardVersion output
  let output ← append limit (ascii ",\"server_label\":") output
  let output ← appendJsonString limit identity.serverLabel output
  let output ← append limit (ascii ",\"downstream_executable\":") output
  let output ← appendJsonString limit identity.downstreamExecutable output
  let output ← append limit (ascii ",\"policy_hash\":") output
  appendJsonString limit identity.policyHash output

def formatSessionStart (identity : SessionIdentity) (timestamp : TimestampText)
    (limit : Nat) : Option Bytes := do
  let output ← appendSession (ascii "\",\"event\":\"session_start\",\"guard_version\":")
    identity timestamp limit
  let output ← append limit (ascii ",\"runtime_limits\":\x7b\"max_message_bytes\":") output
  let output ← append limit (decimal identity.limits.maxMessageBytes) output
  let output ← append limit (ascii ",\"max_nesting_depth\":") output
  let output ← append limit (decimal identity.limits.maxNestingDepth) output
  let output ← append limit (ascii ",\"max_pending_tools_list\":") output
  let output ← append limit (decimal identity.limits.maxPendingToolsList) output
  append limit (ascii "\x7d\x7d") output

def formatSessionEnd (identity : SessionIdentity) (sessionEnd : SessionEnd)
    (timestamp : TimestampText) (limit : Nat) : Option Bytes := do
  let output ← appendSession (ascii "\",\"event\":\"session_end\",\"guard_version\":")
    identity timestamp limit
  let output ← append limit (ascii ",\"child_exit_status\":") output
  let output ← append limit (toChars sessionEnd.childExitStatus) output
  let output ← append limit (ascii ",\"proxy_exit_status\":") output
  let output ← append limit (toChars sessionEnd.proxyExitStatus) output
  let output ← append limit (ascii ",\"termination_reason\":") output
  let output ← appendJsonString limit sessionEnd.terminationReason output
  let output ← append limit (ascii ",\"duration_ms\":") output
  let output ← append limit (decimal sessionEnd.durationMs) output
  append limit (if sessionEnd.cleanShutdown then ascii ",\"clean_shutdown\":true\x7d"
    else ascii ",\"clean_shutdown\":false\x7d") output

/-! ## §2  The sink -/

/-- The calls on the sink. -/
inductive SinkCall where
  | record (event : AuditEvent)
  | recordSessionStart (identity : SessionIdentity)
  | recordSessionEnd (identity : SessionIdentity) (sessionEnd : SessionEnd)

def SinkCall.format : SinkCall → TimestampText → Nat → Option Bytes
  | .record event => formatRecordAt event
  | .recordSessionStart identity => formatSessionStart identity
  | .recordSessionEnd identity sessionEnd => formatSessionEnd identity sessionEnd

/-- A call, the time it is made at, and whether the stream is good behind it. -/
structure SinkStep where
  call : SinkCall
  timestamp : TimestampText
  streamGood : Bool

namespace JsonlAuditSink

/-- The sink behind a call, and what the call hands to the stream. -/
def deliver (sink : JsonlAuditSink) (step : SinkStep) : JsonlAuditSink × List Bytes :=
  sink.writeLine (step.call.format step.timestamp sink.maxRecordBytes) step.streamGood

def deliverAll (sink : JsonlAuditSink) : List SinkStep → JsonlAuditSink × List Bytes
  | [] => (sink, [])
  | step :: steps =>
      (((sink.deliver step).1.deliverAll steps).1,
        (sink.deliver step).2 ++ ((sink.deliver step).1.deliverAll steps).2)

/-- A failed sink hands nothing to the stream. -/
theorem deliver_of_failed {sink : JsonlAuditSink} (h : sink.failed = true)
    (step : SinkStep) : sink.deliver step = (sink, []) := if_pos h

theorem deliverAll_of_failed {sink : JsonlAuditSink} (h : sink.failed = true)
    (steps : List SinkStep) : sink.deliverAll steps = (sink, []) := by
  induction steps with
  | nil => rfl
  | cons step steps ih => rw [deliverAll, deliver_of_failed h, ih, List.append_nil]

theorem deliverAll_append (sink : JsonlAuditSink) (earlier later : List SinkStep) :
    sink.deliverAll (earlier ++ later) =
      (((sink.deliverAll earlier).1.deliverAll later).1,
        (sink.deliverAll earlier).2 ++ ((sink.deliverAll earlier).1.deliverAll later).2) := by
  induction earlier generalizing sink with
  | nil => rfl
  | cons step earlier ih =>
      rw [List.cons_append, deliverAll, ih, deliverAll, List.append_assoc]

/-- A run writes nothing behind the call at which it failed. -/
theorem deliverAll_stops {sink : JsonlAuditSink} {earlier : List SinkStep}
    (h : (sink.deliverAll earlier).1.failed = true) (later : List SinkStep) :
    sink.deliverAll (earlier ++ later) = sink.deliverAll earlier := by
  rw [deliverAll_append, deliverAll_of_failed h, List.append_nil]

end JsonlAuditSink

/-! ## §3  What a receiver reads -/

/-- What a member of a record says. -/
inductive Field where
  | text (value : Bytes)
  | token (json : Bytes)
  | number (value : Nat)

/-- A string that decodes to the text, the value spelled by the token, the number. -/
def Denotes (v : Value) : Field → Prop
  | .text value => ∃ t : StringText, v = .str t ∧ decodeString t.val = value
  | .token json => (idKindOf v).isSome = true ∧ v.render = json
  | .number value => ∃ t : NumberText, v = .num t ∧ numberValue t.val = value

/-- The fields of a record, in order. -/
def recordFields (event : AuditEvent) (timestamp : Bytes) : List (Bytes × Field) :=
  [(ascii "timestamp", .text timestamp), (ascii "event", .text (eventName event.type)),
    (ascii "decision", .text (decisionName event.decision)),
    (ascii "reason", .text (reasonName event.reason))] ++
  ((if event.toolName ≠ [] then [(ascii "tool", .text event.toolName)] else []) ++
    ((if event.idJson ≠ [] then [(ascii "request_id", .token event.idJson)] else []) ++
      [(ascii "message_size", .number event.encodedMessageBytes)]))

/-- An event with a size, whose id is absent or a token. -/
structure Sound (event : AuditEvent) : Prop where
  size : event.includeMessageSize = true
  id : event.idJson = [] ∨ ∃ v, (idKindOf v).isSome = true ∧ event.idJson = v.render

theorem eventName_plain (type : EventType) : (eventName type).all isPlainByte = true := by
  cases type <;> decide

theorem decisionName_plain (decision : Decision) :
    (decisionName decision).all isPlainByte = true := by
  cases decision <;> decide

theorem reasonName_plain (reason : Reason) : (reasonName reason).all isPlainByte = true := by
  cases reason <;> decide

def plainMember (key value : Bytes) (hkey : key.all isPlainByte = true)
    (hvalue : value.all isPlainByte = true) : Member Value :=
  .compact (plainString key hkey) (.str (plainString value hvalue))

/-- A key as written, and a value that denotes the field. -/
def Reads (m : Member Value) (field : Bytes × Field) : Prop :=
  decodeString m.key.val = field.1 ∧ Denotes m.value field.2

theorem decodeString_plainString {raw : Bytes} (h : raw.all isPlainByte = true) :
    decodeString (plainString raw h).val = raw :=
  decodeString_of_no_escape (plainString_unescaped raw h)

theorem reads_plainMember {key value : Bytes} (hkey : key.all isPlainByte = true)
    (hvalue : value.all isPlainByte = true) :
    Reads (plainMember key value hkey hvalue) (key, .text value) :=
  ⟨decodeString_plainString hkey, _, rfl, decodeString_plainString hvalue⟩

def toolMember (toolName : Bytes) : Member Value :=
  .compact (plainString (ascii "tool") (.refl true)) (.str (writtenString toolName))

def requestIdMember (v : Value) : Member Value :=
  .compact (plainString (ascii "request_id") (.refl true)) v

def messageSizeMember (size : Nat) : Member Value :=
  .compact (plainString (ascii "message_size") (.refl true)) (.num (numberText size))

theorem reads_toolMember (toolName : Bytes) :
    Reads (toolMember toolName) (ascii "tool", .text toolName) :=
  ⟨decodeString_plainString (by decide), _, rfl, decodeString_escaped toolName⟩

theorem reads_requestIdMember {v : Value} (h : (idKindOf v).isSome = true) :
    Reads (requestIdMember v) (ascii "request_id", .token v.render) :=
  ⟨decodeString_plainString (by decide), h, rfl⟩

theorem reads_messageSizeMember (size : Nat) :
    Reads (messageSizeMember size) (ascii "message_size", .number size) :=
  ⟨decodeString_plainString (by decide), _, rfl, numberValue_decimal size⟩

/-- An object's text: the first member, and the others behind their commas. -/
theorem render_obj_cons (m : Member Value) (ms : List (Member Value)) :
    (Value.obj noGap (m :: ms)).render =
      0x7B :: (renderMember m ++ ((ms.flatMap fun m => 0x2C :: renderMember m) ++ [0x7D])) := by
  rw [render_obj_joined, List.map_cons, intercalate_cons, List.append_assoc, List.flatMap_map]
  rfl

theorem tool_tree (toolName : Bytes) : ∃ ms : List (Member Value),
    (if toolName ≠ [] then ascii ",\"tool\":" ++ jsonString toolName else []) =
      (ms.flatMap fun m => 0x2C :: renderMember m) ∧
    List.Forall₂ Reads ms
      (if toolName ≠ [] then [(ascii "tool", .text toolName)] else []) := by
  by_cases h : toolName = []
  · exact ⟨[], by rw [if_neg (not_not.mpr h)]; rfl,
      by rw [if_neg (not_not.mpr h)]; exact List.Forall₂.nil⟩
  · refine ⟨[toolMember toolName], ?_, ?_⟩
    · rw [if_pos h, List.flatMap_singleton, toolMember, renderMember_compact,
        jsonString_render]
      rfl
    · rw [if_pos h]
      exact List.Forall₂.cons (reads_toolMember toolName) List.Forall₂.nil

theorem requestId_tree {idJson : Bytes}
    (h : idJson = [] ∨ ∃ v, (idKindOf v).isSome = true ∧ idJson = v.render) :
    ∃ ms : List (Member Value),
      (if idJson ≠ [] then ascii ",\"request_id\":" ++ idJson else []) =
        (ms.flatMap fun m => 0x2C :: renderMember m) ∧
      List.Forall₂ Reads ms
        (if idJson ≠ [] then [(ascii "request_id", .token idJson)] else []) := by
  rcases h with rfl | ⟨v, hkind, rfl⟩
  · exact ⟨[], rfl, List.Forall₂.nil⟩
  · refine ⟨[requestIdMember v], ?_, ?_⟩
    · rw [if_pos (render_ne_nil v), List.flatMap_singleton, requestIdMember,
        renderMember_compact]
      rfl
    · rw [if_pos (render_ne_nil v)]
      exact List.Forall₂.cons (reads_requestIdMember hkind) List.Forall₂.nil

/-- The text of a record is that of an object, whose members read as the fields. -/
theorem recordTextAt_tree {event : AuditEvent} (h : Sound event) {timestamp : Bytes}
    (hplain : timestamp.all isPlainByte = true) :
    ∃ ms, recordTextAt event timestamp = (Value.obj noGap ms).render ∧
      List.Forall₂ Reads ms (recordFields event timestamp) := by
  obtain ⟨tools, htool, htoolReads⟩ := tool_tree event.toolName
  obtain ⟨ids, hid, hidReads⟩ := requestId_tree h.id
  refine ⟨plainMember (ascii "timestamp") timestamp (by decide) hplain ::
    ([plainMember (ascii "event") (eventName event.type) (by decide) (eventName_plain _),
      plainMember (ascii "decision") (decisionName event.decision) (by decide)
        (decisionName_plain _),
      plainMember (ascii "reason") (reasonName event.reason) (by decide)
        (reasonName_plain _)] ++
    (tools ++ (ids ++ [messageSizeMember event.encodedMessageBytes]))), ?_, ?_⟩
  · have hliterals : ascii "\x7b\"timestamp\":\"" =
          0x7B :: 0x22 :: (ascii "timestamp" ++ [0x22, 0x3A, 0x22]) ∧
        ascii "\",\"event\":\"" =
          0x22 :: 0x2C :: 0x22 :: (ascii "event" ++ [0x22, 0x3A, 0x22]) ∧
        ascii "\",\"decision\":\"" =
          0x22 :: 0x2C :: 0x22 :: (ascii "decision" ++ [0x22, 0x3A, 0x22]) ∧
        ascii "\",\"reason\":\"" =
          0x22 :: 0x2C :: 0x22 :: (ascii "reason" ++ [0x22, 0x3A, 0x22]) ∧
        ascii "\"" = [0x22] ∧
        ascii ",\"message_size\":" =
          0x2C :: 0x22 :: (ascii "message_size" ++ [0x22, 0x3A]) ∧
        ascii "\x7d" = [0x7D] := by decide
    obtain ⟨htime, hevent, hdecision, hreason, hquote, hsize, hclose⟩ := hliterals
    rw [recordTextAt, htool, hid, if_pos h.size, htime, hevent, hdecision, hreason, hquote,
      hsize, hclose, render_obj_cons]
    simp [plainMember, messageSizeMember, plainString, numberText, toChars, Value.render]
  · refine List.Forall₂.cons (reads_plainMember _ _) (List.rel_append ?_ (List.rel_append
      htoolReads (List.rel_append hidReads ?_)))
    · exact List.Forall₂.cons (reads_plainMember _ _) (List.Forall₂.cons
        (reads_plainMember _ _) (List.Forall₂.cons (reads_plainMember _ _) List.Forall₂.nil))
    · exact List.Forall₂.cons (reads_messageSizeMember _) List.Forall₂.nil

end NativeGuard.Audit

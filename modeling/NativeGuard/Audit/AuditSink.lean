import NativeGuard.Audit.AuditEvent
import NativeGuard.Data.Decimal
import NativeGuard.Json.Write

/-!
# The JSONL audit sink (`src/audit_sink.cpp`)

A record is appended piece by piece under a bound and given up at the first
piece that does not fit, so it is written exactly if its whole text fits
(`formatRecord_eq`). A record that is given up, like a stream that fails,
switches the sink off for good.
-/

namespace NativeGuard.Audit

open Json Data

/-! ## §1  `format_record` -/

def eventName : EventType → Bytes
  | .toolCall => ascii "tools/call"
  | .toolHidden => ascii "tools/list_tool_removed"
  | .messageRejected => ascii "message_rejected"
  | .correlationExhausted => ascii "tools/list_correlation"

def decisionName : Decision → Bytes
  | .allow => ascii "allow"
  | .deny => ascii "deny"

def reasonName : Reason → Bytes
  | .policyAllowed => ascii "policy_allowed"
  | .policyDenied => ascii "policy_denied"
  | .invalidParameters => ascii "invalid_parameters"
  | .malformedMessage => ascii "malformed_message"
  | .messageTooLarge => ascii "message_too_large"
  | .capacityExhausted => ascii "capacity_exhausted"

/-- What `strftime` gave, if the time could be formatted. -/
abbrev TimestampText : Type := Option Bytes

def appendTimestamp (limit : Nat) (timestamp : TimestampText) (output : Bytes) :
    Option Bytes :=
  timestamp >>= fun text => append limit text output

/-- `format_record`. -/
def formatRecordAt (event : AuditEvent) (timestamp : TimestampText) (limit : Nat) :
    Option Bytes :=
  if limit = 0 then none
  else do
    let output ← append limit (ascii "\x7b\"timestamp\":\"") []
    let output ← appendTimestamp limit timestamp output
    let output ← append limit (ascii "\",\"event\":\"") output
    let output ← append limit (eventName event.type) output
    let output ← append limit (ascii "\",\"decision\":\"") output
    let output ← append limit (decisionName event.decision) output
    let output ← append limit (ascii "\",\"reason\":\"") output
    let output ← append limit (reasonName event.reason) output
    let output ← append limit (ascii "\"") output
    let output ← appendIf (event.toolName ≠ []) (fun output =>
      append limit (ascii ",\"tool\":") output >>= appendJsonString limit event.toolName)
      output
    let output ← appendIf (event.idJson ≠ []) (fun output =>
      append limit (ascii ",\"request_id\":") output >>= append limit event.idJson) output
    let output ← appendIf (event.includeMessageSize = true) (fun output =>
      append limit (ascii ",\"message_size\":") output >>=
        append limit (decimal event.encodedMessageBytes)) output
    append limit (ascii "\x7d") output

/-- `%Y-%m-%dT%H:%M:%SZ`, for years of four digits. -/
abbrev Timestamp : Type := {text : Bytes // text.length = 20}

def formatRecord (event : AuditEvent) (timestamp : Timestamp) (limit : Nat) : Option Bytes :=
  formatRecordAt event (some timestamp.val) limit

/-! ## §2  The text of a record -/

def recordTextAt (event : AuditEvent) (timestamp : Bytes) : Bytes :=
  ascii "\x7b\"timestamp\":\"" ++ (timestamp ++ (ascii "\",\"event\":\"" ++
    (eventName event.type ++ (ascii "\",\"decision\":\"" ++
      (decisionName event.decision ++ (ascii "\",\"reason\":\"" ++
        (reasonName event.reason ++ (ascii "\"" ++
          ((if event.toolName ≠ [] then ascii ",\"tool\":" ++ jsonString event.toolName
            else []) ++
          ((if event.idJson ≠ [] then ascii ",\"request_id\":" ++ event.idJson else []) ++
          ((if event.includeMessageSize = true then
              ascii ",\"message_size\":" ++ decimal event.encodedMessageBytes
            else []) ++ ascii "\x7d")))))))))))

def recordText (event : AuditEvent) (timestamp : Timestamp) : Bytes :=
  recordTextAt event timestamp.val

/-- A record is formatted exactly if its text fits the bound. -/
theorem formatRecordAt_eq (event : AuditEvent) (timestamp : Bytes) {limit : Nat}
    (hlimit : 0 < limit) :
    formatRecordAt event (some timestamp) limit =
      if (recordTextAt event timestamp).length ≤ limit then
        some (recordTextAt event timestamp)
      else none := by
  have happends := (@appends_append limit (ascii "\x7b\"timestamp\":\"")).bind <|
    (appends_append timestamp).bind <|
    (appends_append (ascii "\",\"event\":\"")).bind <|
    (appends_append (eventName event.type)).bind <|
    (appends_append (ascii "\",\"decision\":\"")).bind <|
    (appends_append (decisionName event.decision)).bind <|
    (appends_append (ascii "\",\"reason\":\"")).bind <|
    (appends_append (reasonName event.reason)).bind <|
    (appends_append (ascii "\"")).bind <|
    (((appends_append (ascii ",\"tool\":")).bind
      (appends_appendJsonString event.toolName)).ite (event.toolName ≠ [])).bind <|
    (((appends_append (ascii ",\"request_id\":")).bind
      (appends_append event.idJson)).ite (event.idJson ≠ [])).bind <|
    (((appends_append (ascii ",\"message_size\":")).bind
      (appends_append (decimal event.encodedMessageBytes))).ite
        (event.includeMessageSize = true)).bind <|
    appends_append (ascii "\x7d")
  have hrecord := happends [] (Nat.zero_le _)
  simp only [List.length_nil, Nat.zero_add, List.nil_append] at hrecord
  unfold formatRecordAt
  rw [if_neg (by omega)]
  exact hrecord

theorem formatRecord_eq (event : AuditEvent) (timestamp : Timestamp) {limit : Nat}
    (hlimit : 0 < limit) :
    formatRecord event timestamp limit =
      if (recordText event timestamp).length ≤ limit then
        some (recordText event timestamp)
      else none :=
  formatRecordAt_eq event timestamp.val hlimit

/-! ## §3  The sink -/

structure JsonlAuditSink where
  maxRecordBytes : Nat := 2 * 1024 * 1024
  lines : List Bytes := []
  failed : Bool := false

/-- One call of `record`: the time it is made at, and whether the stream is still
good behind it. -/
structure Delivery where
  event : AuditEvent
  timestamp : Timestamp
  streamGood : Bool

namespace JsonlAuditSink

/-- What every call does with its line: the sink behind it, and what the stream is handed. -/
def writeLine (sink : JsonlAuditSink) (line : Option Bytes) (streamGood : Bool) :
    JsonlAuditSink × List Bytes :=
  if sink.failed = true then (sink, [])
  else
    match line with
    | none => ({ sink with failed := true }, [])
    | some line =>
        if streamGood = true then
          ({ sink with lines := sink.lines ++ [line ++ [0x0A]] }, [line ++ [0x0A]])
        else ({ sink with failed := true }, [line ++ [0x0A]])

def record (sink : JsonlAuditSink) (delivery : Delivery) : JsonlAuditSink :=
  (sink.writeLine (formatRecord delivery.event delivery.timestamp sink.maxRecordBytes)
    delivery.streamGood).1

def recordAll (sink : JsonlAuditSink) (deliveries : List Delivery) : JsonlAuditSink :=
  deliveries.foldl record sink

theorem record_maxRecordBytes (sink : JsonlAuditSink) (delivery : Delivery) :
    (sink.record delivery).maxRecordBytes = sink.maxRecordBytes := by
  unfold record writeLine
  split
  · rfl
  · split
    · rfl
    · split <;> rfl

/-- A sink that was good fails on a record that does not fit or on its stream. -/
theorem record_failed {sink : JsonlAuditSink} {delivery : Delivery}
    (hgood : sink.failed = false) :
    (sink.record delivery).failed = true ↔
      formatRecord delivery.event delivery.timestamp sink.maxRecordBytes = none ∨
        delivery.streamGood = false := by
  unfold record writeLine
  rw [hgood, if_neg Bool.false_ne_true]
  cases hformat : formatRecord delivery.event delivery.timestamp sink.maxRecordBytes with
  | none => simp
  | some line =>
      cases delivery.streamGood with
      | true => simp
      | false => simp

/-- A failed sink stays failed. -/
theorem recordAll_of_failed {sink : JsonlAuditSink} (h : sink.failed = true)
    (deliveries : List Delivery) : sink.recordAll deliveries = sink := by
  induction deliveries with
  | nil => rfl
  | cons delivery deliveries ih =>
      have hrecord : sink.record delivery = sink := congrArg Prod.fst (if_pos h)
      show (sink.record delivery).recordAll deliveries = sink
      rw [hrecord]
      exact ih

/-- A run of records fails exactly if one of them does not fit or its stream
breaks. -/
theorem recordAll_failed {sink : JsonlAuditSink} (hgood : sink.failed = false)
    (deliveries : List Delivery) :
    (sink.recordAll deliveries).failed = true ↔ ∃ delivery ∈ deliveries,
      formatRecord delivery.event delivery.timestamp sink.maxRecordBytes = none ∨
        delivery.streamGood = false := by
  induction deliveries generalizing sink with
  | nil => simp [recordAll, hgood]
  | cons delivery deliveries ih =>
      show ((sink.record delivery).recordAll deliveries).failed = true ↔ _
      rw [List.exists_mem_cons_iff]
      by_cases hfailed : (sink.record delivery).failed = true
      · rw [recordAll_of_failed hfailed]
        exact iff_of_true hfailed (Or.inl ((record_failed hgood).mp hfailed))
      · rw [ih (Bool.eq_false_iff.mpr hfailed), record_maxRecordBytes]
        constructor
        · exact Or.inr
        · rintro (hfirst | hrest)
          · exact absurd ((record_failed hgood).mpr hfirst) hfailed
          · exact hrest

end JsonlAuditSink

end NativeGuard.Audit

import NativeGuard.Audit.HealthSummary
import NativeGuard.Audit.SessionLines
import NativeGuard.Data.Codes
import NativeGuard.Data.Lines
import NativeGuard.Protocol.OneTree

/-!
# From the sink to the summary

`scripts/audit_health_summary.py` on the files that the sink of `src/audit_sink.cpp` has
written. A line of the sink is read as one record with the members of the call that wrote
it (`reads_event`, `reads_start`, `reads_end`), so a line moves the counts of the summary
as its call says.
-/

namespace NativeGuard.Audit

open Json Data Protocol

/-! ## §1  `json.loads` -/

/-- The bytes that the reader decodes to the string (`surrogatepass`). -/
def utf8 (text : PyString) : Bytes := text.flatMap fun c => encodeUtf8 c.val

theorem toUInt8_eq_iff {m n : Nat} (hm : m < 256) (hn : n < 256) :
    m.toUInt8 = n.toUInt8 ↔ m = n := by
  rw [← UInt8.toNat_inj, UInt8.toNat_ofNat', UInt8.toNat_ofNat', Nat.mod_eq_of_lt hm,
    Nat.mod_eq_of_lt hn]

/-- The first byte of a code point tells how many follow. -/
theorem selfDelimiting_encodeUtf8 :
    SelfDelimiting fun c : Fin 0x110000 => encodeUtf8 c.val := by
  rintro ⟨a, ha⟩ ⟨b, hb⟩ s t h
  have hcode : a = b ∧ s = t := by
    dsimp only [encodeUtf8] at h
    split_ifs at h <;>
      simp (disch := omega) only [List.cons_append, List.nil_append, List.cons.injEq,
        toUInt8_eq_iff] at h <;>
      first
        | exact ⟨by omega, by tauto⟩
        | exact absurd h.1 (by omega)
  obtain ⟨rfl, hrest⟩ := hcode
  exact ⟨rfl, hrest⟩

theorem encodeUtf8_ne_nil (code : Nat) : encodeUtf8 code ≠ [] := by
  unfold encodeUtf8
  split_ifs <;> exact List.cons_ne_nil _ _

theorem utf8_injective {s t : PyString} (h : utf8 s = utf8 t) : s = t :=
  selfDelimiting_encodeUtf8.flatMap_injective (fun c => encodeUtf8_ne_nil c.val) h

/-- The escape of a lone surrogate is read as one, too. -/
example : decodeString (ascii "\\ud800") = utf8 [⟨0xD800, by decide⟩] := by decide

/-- What is read for a tree, as far as the summary looks at it. -/
inductive IsPy : Value → PyValue → Prop
  | null : IsPy (.lit .null) .none
  | true : IsPy (.lit .true) (.bool true)
  | false : IsPy (.lit .false) (.bool false)
  | num {t : NumberText} {text : String} {isZero : Bool}
      (htext : utf8 (py text) = t.val)
      (hzero : isZero = true ↔ numberValue t.val = 0) : IsPy (.num t) (.number text isZero)
  | str {t : StringText} {text : PyString} (h : decodeString t.val = utf8 text) :
      IsPy (.str t) (.str text)
  | arr {gap : Gap} {es : List (Element Value)} {items : List PyValue}
      (h : items.length = es.length) : IsPy (.arr gap es) (.list items)
  | obj {gap : Gap} {ms : List (Member Value)} {members : List (PyString × PyValue)}
      (h : members = [] ↔ ms = []) : IsPy (.obj gap ms) (.dict members)

/-- The last value of a key: a later member replaces an earlier one. -/
def lastAt (key : Bytes) (ms : List (Member Value)) : Option Value :=
  ((ms.filter fun m => decide (decodeString m.key.val = key)).getLast?).map fun m => m.value

/-- The line is read as the record. -/
def Loads (line : Bytes) (record : Record) : Prop :=
  ∃ gap ms, Tidy (.obj gap ms) ∧ IsText line (.obj gap ms) ∧ ∀ key : String,
    (lastAt (utf8 (py key)) ms = none → record.get key = .none) ∧
      ∀ v, lastAt (utf8 (py key)) ms = some v → IsPy v (record.get key)

/-- What the loop makes of a line that it has read. An error may come from its bytes or
from the limits of the reader, so nothing is said of the lines that have one. -/
def LineReads (raw : Bytes) : Line → Prop
  | .record record => Loads raw record
  | .invalid finalTruncated => finalTruncated = !decide (raw.getLast? = some 0x0A)

/-- The lines that `readline` gives: each with its newline, the last perhaps without. -/
def readLines (content : Bytes) : List Bytes :=
  (linesOf 0x0A content).map (· ++ [0x0A]) ++
    if restOf 0x0A content = [] then [] else [restOf 0x0A content]

/-! ## §2  Members by their keys -/

section lookup

variable {β : Type} {S : Value → β → Prop} {ms : List (Member Value)}
  {fields : List (Bytes × β)}

/-- The member has the key of the field, and its value stands for that of the field. -/
def HasField (S : Value → β → Prop) (m : Member Value) (field : Bytes × β) : Prop :=
  decodeString m.key.val = field.1 ∧ S m.value field.2

theorem lastAt_cons_of_ne {key : Bytes} {m : Member Value} (h : decodeString m.key.val ≠ key)
    (ms : List (Member Value)) : lastAt key (m :: ms) = lastAt key ms := by
  unfold lastAt
  rw [List.filter_cons_of_neg (by simpa using h)]

theorem lastAt_eq_none (h : List.Forall₂ (HasField S) ms fields) {key : Bytes}
    (hkey : key ∉ fields.map Prod.fst) : lastAt key ms = none := by
  induction h with
  | nil => rfl
  | cons hfirst _ ih =>
      rw [List.map_cons, List.mem_cons, not_or] at hkey
      rw [lastAt_cons_of_ne (by rw [hfirst.1]; exact fun heq => hkey.1 heq.symm)]
      exact ih hkey.2

/-- With distinct keys, each field is found at its key. -/
theorem lastAt_eq_some (h : List.Forall₂ (HasField S) ms fields)
    (hnodup : (fields.map Prod.fst).Nodup) {field : Bytes × β} (hmem : field ∈ fields) :
    ∃ v, lastAt field.1 ms = some v ∧ S v field.2 := by
  induction h with
  | nil => exact absurd hmem List.not_mem_nil
  | @cons m first ms fields hfirst hrest ih =>
      rw [List.map_cons, List.nodup_cons] at hnodup
      rcases List.mem_cons.mp hmem with rfl | hlater
      · refine ⟨m.value, ?_, hfirst.2⟩
        have hnone := lastAt_eq_none hrest hnodup.1
        unfold lastAt at hnone ⊢
        rw [Option.map_eq_none_iff, List.getLast?_eq_none_iff] at hnone
        rw [List.filter_cons_of_pos (by simpa using hfirst.1), hnone]
        rfl
      · have hne : decodeString m.key.val ≠ field.1 := by
          rw [hfirst.1]
          exact fun heq => hnodup.1 (heq ▸ List.mem_map_of_mem hlater)
        rw [lastAt_cons_of_ne hne]
        exact ih hnodup.2 hlater

end lookup

/-- A line with a known tree is read by the members of that tree. -/
theorem Loads.get {line : Bytes} {record : Record} (h : Loads line record) {gap : Gap}
    {ms : List (Member Value)} (htidy : Tidy (.obj gap ms)) (htext : IsText line (.obj gap ms))
    (key : String) : (lastAt (utf8 (py key)) ms = none → record.get key = .none) ∧
      ∀ v, lastAt (utf8 (py key)) ms = some v → IsPy v (record.get key) := by
  obtain ⟨gap', ms', htidy', htext', hget⟩ := h
  obtain ⟨-, rfl⟩ := Value.obj.inj (htidy.text_unique htidy' htext htext')
  exact hget key

/-- A string is read as the text that it decodes to. -/
theorem IsPy.text {t : StringText} {p : PyValue} (h : IsPy (.str t) p) {text : PyString}
    (hdecode : decodeString t.val = utf8 text) : p = .str text := by
  cases h with
  | str hsame => rw [utf8_injective (hsame.symm.trans hdecode)]

/-! ## §3  The records of the sink -/

def eventText : EventType → String
  | .toolCall => "tools/call"
  | .toolHidden => "tools/list_tool_removed"
  | .messageRejected => "message_rejected"
  | .correlationExhausted => "tools/list_correlation"

def decisionText : Decision → String
  | .allow => "allow"
  | .deny => "deny"

def reasonText : Reason → String
  | .policyAllowed => "policy_allowed"
  | .policyDenied => "policy_denied"
  | .invalidParameters => "invalid_parameters"
  | .malformedMessage => "malformed_message"
  | .messageTooLarge => "message_too_large"
  | .capacityExhausted => "capacity_exhausted"

theorem eventName_utf8 (type : EventType) : eventName type = utf8 (py (eventText type)) := by
  cases type <;> rfl

theorem decisionName_utf8 (decision : Decision) :
    decisionName decision = utf8 (py (decisionText decision)) := by
  cases decision <;> rfl

theorem reasonName_utf8 (reason : Reason) : reasonName reason = utf8 (py (reasonText reason)) := by
  cases reason <;> rfl

/-- The record says what the event says. -/
structure SaysEvent (event : AuditEvent) (record : Record) : Prop where
  event_eq : record.event = some (py (eventText event.type))
  decision_eq : (record.get "decision").text? = some (py (decisionText event.decision))
  reason_eq : record.reason = some (py (reasonText event.reason))

theorem Denotes.tidy {v : Value} {field : Field} (h : Denotes v field) : Tidy v := by
  cases field with
  | text value =>
      obtain ⟨t, rfl, -⟩ := h
      exact .str t
  | token json =>
      cases v with
      | str t => exact .str t
      | num t => exact .num t
      | lit w => exact .lit w
      | obj gap ms => exact absurd h.1 Bool.false_ne_true
      | arr gap es => exact absurd h.1 Bool.false_ne_true
  | number value =>
      obtain ⟨t, rfl, -⟩ := h
      exact .num t

theorem tidy_of_reads {ms : List (Member Value)} {fields : List (Bytes × Field)}
    (h : List.Forall₂ Reads ms fields) : Tidy (.obj noGap ms) := by
  have hvalues : ∀ m ∈ ms, Tidy m.value := by
    induction h with
    | nil => exact fun _ hm => absurd hm List.not_mem_nil
    | cons hfirst _ ih => exact List.forall_mem_cons.mpr ⟨hfirst.2.tidy, ih⟩
  cases ms with
  | nil => exact .emptyObj noGap
  | cons m ms => exact .obj hvalues

/-- A record and its newline are a text of the object. -/
theorem isText_line {v : Value} {text : Bytes} (h : text = v.render) :
    IsText (text ++ [0x0A]) v :=
  ⟨noGap, ⟨[0x0A], fun _ hb => List.mem_singleton.mp hb ▸ by decide⟩, by rw [h]; rfl⟩

theorem recordFields_nodup (event : AuditEvent) (timestamp : Bytes) :
    ((recordFields event timestamp).map Prod.fst).Nodup := by
  unfold recordFields
  split <;> split <;> (simp only [List.map_append, List.map_cons, List.map_nil]; decide)

theorem reads_event {event : AuditEvent} (h : Sound event) {timestamp : Bytes}
    (hplain : timestamp.all isPlainByte = true) {record : Record}
    (hloads : Loads (recordTextAt event timestamp ++ [0x0A]) record) :
    SaysEvent event record := by
  obtain ⟨ms, htext, hreads⟩ := recordTextAt_tree h hplain
  have hnodup := recordFields_nodup event timestamp
  have hget := hloads.get (tidy_of_reads hreads) (isText_line htext)
  -- a field that is a text is read as the text
  have hspells : ∀ (key text : String), (utf8 (py key), Field.text (utf8 (py text))) ∈
      recordFields event timestamp → record.get key = .str (py text) := by
    intro key text hmem
    obtain ⟨v, hv, t, rfl, hdecode⟩ := lastAt_eq_some hreads hnodup hmem
    exact ((hget key).2 _ hv).text hdecode
  have hfields : ∀ field ∈ [(ascii "timestamp", Field.text timestamp),
      (ascii "event", .text (eventName event.type)),
      (ascii "decision", .text (decisionName event.decision)),
      (ascii "reason", .text (reasonName event.reason))],
      field ∈ recordFields event timestamp :=
    fun field hmem => List.mem_append_left _ hmem
  constructor
  · rw [Record.event, hspells "event" (eventText event.type)]
    · rfl
    · refine hfields _ ?_
      rw [← eventName_utf8]
      exact List.mem_cons_of_mem _ List.mem_cons_self
  · rw [hspells "decision" (decisionText event.decision)]
    · rfl
    · refine hfields _ ?_
      rw [← decisionName_utf8]
      exact List.mem_cons_of_mem _ (List.mem_cons_of_mem _ List.mem_cons_self)
  · rw [Record.reason, hspells "reason" (reasonText event.reason)]
    · rfl
    · refine hfields _ ?_
      rw [← reasonName_utf8]
      exact List.mem_cons_of_mem _ (List.mem_cons_of_mem _ (List.mem_cons_of_mem _
        List.mem_cons_self))

/-- The members of an object, by their keys. -/
def fieldsOf (ms : List (Member Value)) : List (Bytes × Value) :=
  ms.map fun m => (decodeString m.key.val, m.value)

theorem hasField_fieldsOf (ms : List (Member Value)) :
    List.Forall₂ (HasField (· = ·)) ms (fieldsOf ms) := by
  unfold fieldsOf
  rw [List.forall₂_map_right_iff, List.forall₂_same]
  exact fun m _ => ⟨rfl, rfl⟩

theorem lastAt_member {ms : List (Member Value)}
    (hnodup : (ms.map fun m => decodeString m.key.val).Nodup) {m : Member Value} (hmem : m ∈ ms) :
    lastAt (decodeString m.key.val) ms = some m.value := by
  have hfields : ((fieldsOf ms).map Prod.fst).Nodup := by
    unfold fieldsOf
    rw [List.map_map]
    exact hnodup
  obtain ⟨v, hv, rfl⟩ := lastAt_eq_some (hasField_fieldsOf ms) hfields (List.mem_map_of_mem hmem)
  exact hv

/-- The record is one of the session. -/
structure SaysSession (event : String) (identity : SessionIdentity) (record : Record) :
    Prop where
  event_eq : record.event = some (py event)
  label : IsPy (.str (writtenString identity.serverLabel)) (record.get "server_label")
  executable : IsPy (.str (writtenString identity.downstreamExecutable))
    (record.get "downstream_executable")
  policyHash : IsPy (.str (writtenString identity.policyHash)) (record.get "policy_hash")

theorem tidy_members {ms : List (Member Value)} (h : ∀ m ∈ ms, Tidy m.value) :
    Tidy (.obj noGap ms) := by
  cases ms with
  | nil => exact .emptyObj noGap
  | cons m ms => exact .obj h

/-- What both session records say of the session, from their common members. -/
theorem says_session {event : Bytes} {hevent : event.all isPlainByte = true}
    {identity : SessionIdentity} {timestamp : Bytes} {hplain : timestamp.all isPlainByte = true}
    {others : List (Member Value)} {record : Record}
    (hnodup : ((sessionMembers event hevent identity timestamp hplain ++ others).map
      fun m => decodeString m.key.val).Nodup)
    (hget : ∀ (key : String) v,
      lastAt (utf8 (py key)) (sessionMembers event hevent identity timestamp hplain ++ others) =
        some v → IsPy v (record.get key))
    {text : String} (htext : event = utf8 (py text)) : SaysSession text identity record := by
  have hmember : ∀ (key : String), ∀ m ∈ sessionMembers event hevent identity timestamp hplain,
      decodeString m.key.val = utf8 (py key) → IsPy m.value (record.get key) := by
    intro key m hmem hkey
    refine hget key _ ?_
    rw [← hkey]
    exact lastAt_member hnodup (List.mem_append_left _ hmem)
  unfold sessionMembers at hmember
  simp only [List.forall_mem_cons] at hmember
  constructor
  · have hspells := (hmember "event").2.1 rfl
    rw [Record.event, hspells.text ((decodeString_plainString hevent).trans htext)]
    rfl
  · exact (hmember "server_label").2.2.2.1 rfl
  · exact (hmember "downstream_executable").2.2.2.2.1 rfl
  · exact (hmember "policy_hash").2.2.2.2.2.1 rfl

theorem sessionMembers_tidy {event : Bytes} {hevent : event.all isPlainByte = true}
    {identity : SessionIdentity} {timestamp : Bytes} {hplain : timestamp.all isPlainByte = true} :
    ∀ m ∈ sessionMembers event hevent identity timestamp hplain, Tidy m.value := by
  unfold sessionMembers
  simp only [List.forall_mem_cons]
  exact ⟨.str _, .str _, .str _, .str _, .str _, .str _, fun _ h => absurd h List.not_mem_nil⟩

theorem sessionStart_tidy {identity : SessionIdentity} {timestamp : Bytes}
    {hplain : timestamp.all isPlainByte = true} :
    Tidy (.obj noGap (sessionStartMembers identity timestamp hplain)) := by
  refine tidy_members (List.forall_mem_append.mpr ⟨sessionMembers_tidy, ?_⟩)
  refine List.forall_mem_singleton.mpr (tidy_members ?_)
  unfold limitMembers
  simp only [List.forall_mem_cons]
  exact ⟨.num _, .num _, .num _, fun _ h => absurd h List.not_mem_nil⟩

theorem sessionEnd_tidy {identity : SessionIdentity} {sessionEnd : SessionEnd}
    {timestamp : Bytes} {hplain : timestamp.all isPlainByte = true} :
    Tidy (.obj noGap (sessionEndMembers identity sessionEnd timestamp hplain)) := by
  refine tidy_members (List.forall_mem_append.mpr ⟨sessionMembers_tidy, ?_⟩)
  unfold endMembers
  simp only [List.forall_mem_cons]
  exact ⟨.num _, .num _, .str _, .num _, .lit _, fun _ h => absurd h List.not_mem_nil⟩

theorem reads_start {identity : SessionIdentity} {timestamp : Bytes}
    (hplain : timestamp.all isPlainByte = true) {record : Record}
    (hloads : Loads (sessionStartText identity timestamp ++ [0x0A]) record) :
    SaysSession "session_start" identity record := by
  have hkeys : (sessionStartMembers identity timestamp hplain).map
      (fun m => decodeString m.key.val) =
        [ascii "ts", ascii "event", ascii "guard_version", ascii "server_label",
          ascii "downstream_executable", ascii "policy_hash", ascii "runtime_limits"] := rfl
  refine says_session ?_ (fun key => (hloads.get sessionStart_tidy
    (isText_line (sessionStartText_tree identity timestamp hplain)) key).2) rfl
  exact hkeys ▸ (by decide)

theorem reads_end {identity : SessionIdentity} {sessionEnd : SessionEnd} {timestamp : Bytes}
    (hplain : timestamp.all isPlainByte = true) {record : Record}
    (hloads : Loads (sessionEndText identity sessionEnd timestamp ++ [0x0A]) record) :
    SaysSession "session_end" identity record ∧
      record.get "clean_shutdown" = .bool sessionEnd.cleanShutdown := by
  have hkeys : (sessionEndMembers identity sessionEnd timestamp hplain).map
      (fun m => decodeString m.key.val) =
        [ascii "ts", ascii "event", ascii "guard_version", ascii "server_label",
          ascii "downstream_executable", ascii "policy_hash", ascii "child_exit_status",
          ascii "proxy_exit_status", ascii "termination_reason", ascii "duration_ms",
          ascii "clean_shutdown"] := rfl
  have hnodup : ((sessionEndMembers identity sessionEnd timestamp hplain).map
      fun m => decodeString m.key.val).Nodup := by
    rw [hkeys]
    decide
  have hget := fun key => (hloads.get sessionEnd_tidy
    (isText_line (sessionEndText_tree identity sessionEnd timestamp hplain)) key).2
  refine ⟨says_session hnodup hget rfl, ?_⟩
  have hclean : lastAt (utf8 (py "clean_shutdown"))
      (sessionEndMembers identity sessionEnd timestamp hplain) =
        some (.lit (if sessionEnd.cleanShutdown then .true else .false)) :=
    lastAt_member hnodup (m := .compact (plainString (ascii "clean_shutdown") (.refl true))
      (.lit (if sessionEnd.cleanShutdown then .true else .false)))
      (List.mem_append_right _ (by simp [endMembers]))
  have hpy := hget "clean_shutdown" _ hclean
  cases hvalue : sessionEnd.cleanShutdown with
  | true =>
      rw [hvalue] at hpy
      cases hread : record.get "clean_shutdown" <;> rw [hread] at hpy <;> cases hpy
      rfl
  | false =>
      rw [hvalue] at hpy
      cases hread : record.get "clean_shutdown" <;> rw [hread] at hpy <;> cases hpy
      rfl

/-! ## §4  What the lines of a session count -/

def isCall (decision : Decision) (event : AuditEvent) : Bool :=
  event.type = .toolCall ∧ event.decision = decision

/-- A rejected message, too large or not. -/
def isRejected (tooLarge : Bool) (event : AuditEvent) : Bool :=
  event.type = .messageRejected ∧ (event.reason = .messageTooLarge ↔ tooLarge = true)

def addEvents (events : List AuditEvent) (summary : Summary) : Summary :=
  { summary with
    allowedToolCalls := summary.allowedToolCalls + events.countP (isCall .allow)
    deniedToolCalls := summary.deniedToolCalls + events.countP (isCall .deny)
    hiddenTools := summary.hiddenTools + events.countP fun e => e.type = .toolHidden
    invalidMessages := summary.invalidMessages + events.countP (isRejected false)
    oversizedMessages := summary.oversizedMessages + events.countP (isRejected true)
    correlationCapacityEvents := summary.correlationCapacityEvents +
      events.countP fun e => e.type = .correlationExhausted }

theorem addEvents_append (events events' : List AuditEvent) (summary : Summary) :
    addEvents (events ++ events') summary = addEvents events' (addEvents events summary) := by
  simp only [addEvents, List.countP_append, Nat.add_assoc]

/-- The record of an event counts the event, and nothing else. -/
theorem countRecord_event {event : AuditEvent} {record : Record} (h : SaysEvent event record)
    (tally : Tally) : countRecord tally record =
      { tally with summary := addEvents [event] tally.summary } := by
  have hsession : ¬ (record.isStart ∨ record.isEnd) := by
    unfold Record.isStart Record.isEnd
    rw [h.event_eq]
    cases event.type <;> simp [eventText]
  unfold countRecord
  rw [if_neg hsession]
  congr 1
  unfold countEvent addEvents
  rw [h.event_eq, h.decision_eq, h.reason_eq]
  obtain ⟨type, decision, reason, -, -, -, -⟩ := event
  cases type with
  | toolCall =>
      cases decision <;> simp [eventText, decisionText, isCall, isRejected]
  | toolHidden => simp [eventText, isCall, isRejected]
  | messageRejected =>
      cases reason <;> simp [eventText, reasonText, isCall, isRejected]
  | correlationExhausted => simp [eventText, isCall, isRejected]

/-- A session as the sink logs it. -/
structure LoggedSession where
  identity : SessionIdentity
  events : List AuditEvent
  sessionEnd : SessionEnd

/-- The records are those of the session: its start, its events and its end. -/
structure SessionRecords (session : LoggedSession) (records : List Record) : Prop where
  shape : ∃ first middle last, records = first :: (middle ++ [last]) ∧
    SaysSession "session_start" session.identity first ∧
      List.Forall₂ SaysEvent session.events middle ∧
        SaysSession "session_end" session.identity last ∧
          last.get "clean_shutdown" = .bool session.sessionEnd.cleanShutdown

theorem isPy_str_unique {t : StringText} {p q : PyValue} (hp : IsPy (.str t) p)
    (hq : IsPy (.str t) q) : p = q := by
  cases hp with
  | str h => exact (hq.text h).symm

/-- Both records of a session have one key. -/
theorem key_of_session {identity : SessionIdentity} {event event' : String}
    {record record' : Record} (h : SaysSession event identity record)
    (h' : SaysSession event' identity record') : record.key = record'.key := by
  refine Record.key_eq_iff.mpr ⟨?_, isPy_str_unique h.executable h'.executable,
    isPy_str_unique h.policyHash h'.policyHash⟩
  rw [Record.label, Record.label, isPy_str_unique h.label h'.label]

theorem countRecord_events {events : List AuditEvent} {records : List Record}
    (h : List.Forall₂ SaysEvent events records) (tally : Tally) :
    records.foldl countRecord tally = { tally with summary := addEvents events tally.summary } := by
  induction h generalizing tally with
  | nil => rfl
  | @cons event record events records hfirst _ ih =>
      rw [List.foldl_cons, countRecord_event hfirst, ih, ← addEvents_append]
      rfl

/-- Between two tallies the sessions have been counted, each of them whole. -/
structure CountsSessions (sessions : List LoggedSession) (before after : Tally) : Prop where
  balances : after.balances.get = before.balances.get
  missing : after.missing = before.missing
  summary : ∃ files recent unhealthy, after.summary =
    { addEvents (sessions.flatMap LoggedSession.events) before.summary with
      filesRead := files
      totalSessions := before.summary.totalSessions + sessions.length
      cleanSessions := before.summary.cleanSessions +
        sessions.countP fun s => s.sessionEnd.cleanShutdown
      uncleanSessions := before.summary.uncleanSessions +
        sessions.countP fun s => !s.sessionEnd.cleanShutdown
      mostRecentSessionTimestamp := recent
      mostRecentUnhealthySession := unhealthy }

theorem noteTimestamp_eq (record : Record) (summary : Summary) : ∃ recent,
    noteTimestamp record summary = { summary with mostRecentSessionTimestamp := recent } := by
  unfold noteTimestamp
  split
  · split
    · exact ⟨_, rfl⟩
    · exact ⟨_, rfl⟩
  · exact ⟨_, rfl⟩

theorem noteUnhealthy_eq (record : Record) (summary : Summary) : ∃ unhealthy,
    noteUnhealthy record summary = { summary with mostRecentUnhealthySession := unhealthy } := by
  unfold noteUnhealthy
  split
  · split
    · exact ⟨_, rfl⟩
    · exact ⟨_, rfl⟩
  · exact ⟨_, rfl⟩

/-- The first record opens a balance, and the last one closes it again. -/
theorem session_balances {session : LoggedSession} {records : List Record}
    (h : SessionRecords session records) (tally : Tally) :
    (records.foldl countRecord tally).balances.get = tally.balances.get := by
  obtain ⟨first, middle, last, rfl, hstart, hevents, hend, -⟩ := h.shape
  have hfirst : first.isStart := hstart.event_eq
  have hnot : ¬ last.isStart := by
    intro hstart
    unfold Record.isStart at hstart
    rw [hend.event_eq] at hstart
    exact absurd (Option.some.inj hstart) (by decide)
  rw [List.foldl_cons, List.foldl_append, countRecord_events hevents, List.foldl_cons,
    List.foldl_nil, countRecord_balances_end hnot hend.event_eq]
  have hopen := countRecord_balances_start hfirst tally
  have hkey : last.key = first.key := key_of_session hend hstart
  have hpositive : (countRecord tally first).balances.get last.key > 0 := by
    rw [hopen, Counter.get_set, hkey, Function.update_self]
    exact Nat.succ_pos _
  rw [if_pos hpositive, Counter.get_set, hopen, Counter.get_set, hkey, Function.update_self,
    Nat.add_sub_cancel]
  rw [Function.update_idem, Function.update_eq_self]

theorem countRecord_start {record : Record} (h : record.isStart) (tally : Tally) :
    (countRecord tally record).missing = tally.missing ∧
      ∃ recent, (countRecord tally record).summary = { tally.summary with
        totalSessions := tally.summary.totalSessions + 1
        mostRecentSessionTimestamp := recent } := by
  obtain ⟨recent, hrecent⟩ := noteTimestamp_eq record tally.summary
  unfold countRecord
  rw [if_pos (Or.inl h), if_pos h, hrecent]
  exact ⟨rfl, recent, rfl⟩

theorem countRecord_end {record : Record} (hnot : ¬ record.isStart) (h : record.isEnd)
    {clean : Bool} (hclean : record.get "clean_shutdown" = .bool clean) (tally : Tally) :
    (countRecord tally record).missing = tally.missing ∧
      ∃ recent unhealthy, (countRecord tally record).summary = { tally.summary with
        cleanSessions := tally.summary.cleanSessions + clean.toNat
        uncleanSessions := tally.summary.uncleanSessions + (!clean).toNat
        mostRecentSessionTimestamp := recent
        mostRecentUnhealthySession := unhealthy } := by
  obtain ⟨recent, hrecent⟩ := noteTimestamp_eq record tally.summary
  have hshutdown : record.cleanShutdown = clean := by
    unfold Record.cleanShutdown
    rw [hclean]
  unfold countRecord
  rw [if_pos (Or.inr h), if_neg hnot, hrecent]
  unfold endSession
  rw [hshutdown]
  cases clean with
  | true => exact ⟨rfl, recent, tally.summary.mostRecentUnhealthySession, rfl⟩
  | false =>
      obtain ⟨unhealthy, hunhealthy⟩ := noteUnhealthy_eq record
        { tally.summary with
          mostRecentSessionTimestamp := recent
          uncleanSessions := tally.summary.uncleanSessions + 1 }
      exact ⟨rfl, recent, unhealthy, hunhealthy⟩

/-- The records of a session count it. -/
theorem countsSessions_one {session : LoggedSession} {records : List Record}
    (h : SessionRecords session records) (tally : Tally) :
    CountsSessions [session] tally (records.foldl countRecord tally) := by
  have hbalances := session_balances h tally
  obtain ⟨first, middle, last, rfl, hstart, hevents, hend, hclean⟩ := h.shape
  have hnot : ¬ last.isStart := by
    intro hstart
    unfold Record.isStart at hstart
    rw [hend.event_eq] at hstart
    exact absurd (Option.some.inj hstart) (by decide)
  refine ⟨hbalances, ?_, ?_⟩
  · rw [List.foldl_cons, List.foldl_append, countRecord_events hevents, List.foldl_cons,
      List.foldl_nil, (countRecord_end hnot hend.event_eq hclean _).1]
    exact (countRecord_start hstart.event_eq tally).1
  · rw [List.foldl_cons, List.foldl_append, countRecord_events hevents, List.foldl_cons,
      List.foldl_nil]
    obtain ⟨-, recent, unhealthy, hlast⟩ := countRecord_end hnot hend.event_eq hclean
      { countRecord tally first with
        summary := addEvents session.events (countRecord tally first).summary }
    obtain ⟨-, recent', hfirst⟩ := countRecord_start hstart.event_eq tally
    refine ⟨tally.summary.filesRead, recent, unhealthy, ?_⟩
    rw [hlast, hfirst]
    cases hvalue : session.sessionEnd.cleanShutdown with
    | true => simp [addEvents, hvalue]
    | false => simp [addEvents, hvalue]

theorem CountsSessions.append {sessions later : List LoggedSession} {before between after : Tally}
    (h : CountsSessions sessions before between) (h' : CountsSessions later between after) :
    CountsSessions (sessions ++ later) before after := by
  obtain ⟨files, recent, unhealthy, hsummary⟩ := h.summary
  obtain ⟨files', recent', unhealthy', hsummary'⟩ := h'.summary
  refine ⟨h'.balances.trans h.balances, h'.missing.trans h.missing, files', recent', unhealthy', ?_⟩
  rw [hsummary', hsummary, List.flatMap_append, addEvents_append, List.countP_append,
    List.countP_append, List.length_append]
  simp [addEvents, Nat.add_assoc]

/-- The lines of the sessions of a file count these sessions. -/
theorem countsSessions_lines {sessions : List LoggedSession} {logs : List (List Record)}
    (h : List.Forall₂ SessionRecords sessions logs) (tally : Tally) :
    CountsSessions sessions tally (logs.flatten.foldl countRecord tally) := by
  induction h generalizing tally with
  | nil => exact ⟨rfl, rfl, _, _, _, rfl⟩
  | @cons session records sessions logs hfirst _ ih =>
      rw [List.flatten_cons, List.foldl_append]
      exact (countsSessions_one hfirst tally).append (ih _)

/-! ## §5  Lines that are no records -/

def isInvalid : Line → Bool
  | .record _ => false
  | .invalid _ => true

theorem countEvent_invalid (record : Record) (summary : Summary) :
    (countEvent record summary).invalidJsonLines = summary.invalidJsonLines := by
  unfold countEvent
  repeat' split
  all_goals rfl

theorem countRecord_invalid (tally : Tally) (record : Record) :
    (countRecord tally record).summary.invalidJsonLines = tally.summary.invalidJsonLines := by
  obtain ⟨recent, hrecent⟩ := noteTimestamp_eq record tally.summary
  unfold countRecord
  split
  · dsimp only
    rw [hrecent]
    split
    · rfl
    · unfold endSession
      dsimp only
      split
      · rfl
      · obtain ⟨unhealthy, hunhealthy⟩ := noteUnhealthy_eq record
          { tally.summary with
            mostRecentSessionTimestamp := recent
            uncleanSessions := tally.summary.uncleanSessions + 1 }
        rw [hunhealthy]
  · exact countEvent_invalid record tally.summary

theorem countRecord_missing (tally : Tally) (record : Record) :
    (countRecord tally record).missing = tally.missing := by
  unfold countRecord
  by_cases hstart : record.isStart
  · rw [if_pos (Or.inl hstart), if_pos hstart]
    rfl
  by_cases hend : record.isEnd
  · rw [if_pos (Or.inr hend), if_neg hstart]
    rfl
  · rw [if_neg (not_or.mpr ⟨hstart, hend⟩)]

theorem countLines_missing (lines : List Line) (tally : Tally) :
    (lines.foldl countLine tally).missing = tally.missing := by
  induction lines generalizing tally with
  | nil => rfl
  | cons line lines ih =>
      rw [List.foldl_cons, ih]
      cases line with
      | record record => exact countRecord_missing tally record
      | invalid finalTruncated => rfl

theorem countLines_invalid (lines : List Line) (tally : Tally) :
    (lines.foldl countLine tally).summary.invalidJsonLines =
      tally.summary.invalidJsonLines + lines.countP isInvalid := by
  induction lines generalizing tally with
  | nil => rfl
  | cons line lines ih =>
      rw [List.foldl_cons, ih, List.countP_cons]
      cases line with
      | record record =>
          rw [countLine, countRecord_invalid]
          simp [isInvalid]
      | invalid finalTruncated =>
          simp [countLine, isInvalid]
          omega

/-- Without them, the lines are a list of records. -/
theorem records_of_lines {lines : List Line} (h : ∀ line ∈ lines, isInvalid line = false) :
    ∃ records : List Record, lines = records.map Line.record := by
  induction lines with
  | nil => exact ⟨[], rfl⟩
  | cons line lines ih =>
      obtain ⟨records, rfl⟩ := ih fun later hmem => h later (List.mem_cons_of_mem _ hmem)
      cases line with
      | record record => exact ⟨record :: records, rfl⟩
      | invalid finalTruncated => exact absurd (h _ List.mem_cons_self) nofun

/-- The exit code of `main`. -/
def summaryExit (sources : List Source) : Nat :=
  if (summarize sources).2 ≠ [] ∨ (summarize sources).1.invalidJsonLines ≠ 0 ∨
      (summarize sources).1.uncleanSessions ≠ 0 ∨
        (summarize sources).1.unmatchedSessionStarts ≠ 0 then 1
  else 0

/-! ## §6  The file -/

/-- The record that a call writes. -/
def SinkCall.text (timestamp : Bytes) : SinkCall → Bytes
  | .record event => recordTextAt event timestamp
  | .recordSessionStart identity => sessionStartText identity timestamp
  | .recordSessionEnd identity sessionEnd => sessionEndText identity sessionEnd timestamp

theorem text_of_format {call : SinkCall} {timestamp line : Bytes} {limit : Nat}
    (h : call.format (some timestamp) limit = some line) : line = call.text timestamp := by
  have hfits : ∀ {text : Bytes},
      (if text.length ≤ limit then some text else none) = some line → line = text := by
    intro text h
    split at h
    · exact (Option.some.inj h).symm
    · cases h
  cases call with
  | record event =>
      rcases Nat.eq_zero_or_pos limit with rfl | hlimit
      · cases h
      · exact hfits ((formatRecordAt_eq event timestamp hlimit).symm.trans h)
  | recordSessionStart identity =>
      exact hfits ((formatSessionStart_eq identity timestamp limit).symm.trans h)
  | recordSessionEnd identity sessionEnd =>
      exact hfits ((formatSessionEnd_eq identity sessionEnd timestamp limit).symm.trans h)

/-- The step has written the record of its call. -/
def WritesLine (step : SinkStep) (bytes : Bytes) : Prop :=
  ∃ limit line, step.call.format step.timestamp limit = some line ∧ bytes = line ++ [0x0A]

/-- A sink that has not failed has written a line for every call. -/
theorem deliverAll_written {sink : JsonlAuditSink} {steps : List SinkStep}
    (h : (sink.deliverAll steps).1.failed = false) :
    List.Forall₂ WritesLine steps (sink.deliverAll steps).2 := by
  induction steps generalizing sink with
  | nil => exact List.Forall₂.nil
  | cons step steps ih =>
      have hopen : sink.failed = false := by
        by_contra hfailed
        rw [JsonlAuditSink.deliverAll_of_failed (Bool.not_eq_false _ ▸ hfailed)] at h
        exact hfailed h
      rw [JsonlAuditSink.deliverAll] at h ⊢
      have hnext : (sink.deliver step).1.failed = false := by
        by_contra hfailed
        rw [JsonlAuditSink.deliverAll_of_failed (Bool.not_eq_false _ ▸ hfailed)] at h
        exact hfailed h
      have hwritten : ∃ bytes, (sink.deliver step).2 = [bytes] ∧ WritesLine step bytes := by
        unfold JsonlAuditSink.deliver JsonlAuditSink.writeLine at hnext ⊢
        rw [if_neg (by rw [hopen]; exact Bool.false_ne_true)] at hnext ⊢
        cases hformat : step.call.format step.timestamp sink.maxRecordBytes with
        | none =>
            rw [hformat] at hnext
            cases hnext
        | some line =>
            refine ⟨line ++ [0x0A], ?_, _, line, hformat, rfl⟩
            dsimp only
            split <;> rfl
      obtain ⟨bytes, hbytes, hline⟩ := hwritten
      rw [hbytes]
      exact List.Forall₂.cons hline (ih h)

/-- A call has been written under some time, and its line is read as the record. -/
def CallReads (call : SinkCall) (record : Record) : Prop :=
  ∃ timestamp : Bytes, timestamp.all isPlainByte = true ∧
    Loads (call.text timestamp ++ [0x0A]) record

theorem forall₂_append_left {α β : Type} {R : α → β → Prop} {as as' : List α} {bs : List β}
    (h : List.Forall₂ R (as ++ as') bs) :
    ∃ front back, bs = front ++ back ∧ List.Forall₂ R as front ∧ List.Forall₂ R as' back := by
  induction as generalizing bs with
  | nil => exact ⟨[], bs, rfl, List.Forall₂.nil, h⟩
  | cons a as ih =>
      obtain ⟨b, rest, hab, hrest, rfl⟩ := List.forall₂_cons_left_iff.mp h
      obtain ⟨front, back, rfl, hfront, hback⟩ := ih hrest
      exact ⟨b :: front, back, rfl, List.Forall₂.cons hab hfront, hback⟩

/-- What is read of a list of parts is a list of what is read of each. -/
theorem forall₂_flatMap_left {α β γ : Type} {R : β → γ → Prop} {g : α → List β} {as : List α}
    {cs : List γ} (h : List.Forall₂ R (as.flatMap g) cs) :
    ∃ parts, cs = parts.flatten ∧
      List.Forall₂ (fun a part => List.Forall₂ R (g a) part) as parts := by
  induction as generalizing cs with
  | nil =>
      obtain rfl := List.forall₂_nil_left_iff.mp h
      exact ⟨[], rfl, List.Forall₂.nil⟩
  | cons a as ih =>
      rw [List.flatMap_cons] at h
      obtain ⟨front, back, rfl, hfront, hback⟩ := forall₂_append_left h
      obtain ⟨parts, rfl, hparts⟩ := ih hback
      exact ⟨front :: parts, rfl, List.Forall₂.cons hfront hparts⟩

/-- The steps of a whole session, each at a time that could be formatted. -/
structure LogsSession (session : LoggedSession) (steps : List SinkStep) : Prop where
  calls : steps.map SinkStep.call = .recordSessionStart session.identity ::
    (session.events.map SinkCall.record ++
      [.recordSessionEnd session.identity session.sessionEnd])
  timestamps : ∀ step ∈ steps, ∃ timestamp : Bytes, step.timestamp = some timestamp ∧
    timestamp.all isPlainByte = true
  sound : ∀ event ∈ session.events, Sound event
  written : (({} : JsonlAuditSink).deliverAll steps).1.failed = false

/-- What the session has added to its file. -/
def sessionLines (steps : List SinkStep) : List Bytes := (({} : JsonlAuditSink).deliverAll steps).2

theorem calls_read {steps : List SinkStep} {raws : List Bytes} {records : List Record}
    (hsteps : List.Forall₂ WritesLine steps raws) (hraws : List.Forall₂ Loads raws records)
    (htimestamps : ∀ step ∈ steps, ∃ timestamp : Bytes, step.timestamp = some timestamp ∧
      timestamp.all isPlainByte = true) :
    List.Forall₂ CallReads (steps.map SinkStep.call) records := by
  induction hsteps generalizing records with
  | nil =>
      cases hraws
      exact List.Forall₂.nil
  | @cons step raw steps raws hfirst hrest ih =>
      obtain ⟨record, rest, hload, hlater, rfl⟩ := List.forall₂_cons_left_iff.mp hraws
      obtain ⟨limit, line, hformat, rfl⟩ := hfirst
      obtain ⟨timestamp, htime, hplain⟩ := htimestamps step List.mem_cons_self
      rw [htime] at hformat
      rw [text_of_format hformat] at hload
      exact List.Forall₂.cons ⟨timestamp, hplain, hload⟩
        (ih hlater fun later hmem => htimestamps later (List.mem_cons_of_mem _ hmem))

theorem sessionRecords_of_calls {session : LoggedSession}
    (hsound : ∀ event ∈ session.events, Sound event) {records : List Record}
    (h : List.Forall₂ CallReads (.recordSessionStart session.identity ::
      (session.events.map SinkCall.record ++
        [.recordSessionEnd session.identity session.sessionEnd])) records) :
    SessionRecords session records := by
  obtain ⟨first, rest, ⟨ts, hplain, hfirst⟩, hrest, rfl⟩ := List.forall₂_cons_left_iff.mp h
  obtain ⟨middle, back, rfl, hmiddle, hback⟩ := forall₂_append_left hrest
  obtain ⟨last, none, ⟨ts', hplain', hlast⟩, hnone, rfl⟩ := List.forall₂_cons_left_iff.mp hback
  obtain rfl := List.forall₂_nil_left_iff.mp hnone
  obtain ⟨hend, hclean⟩ := reads_end hplain' hlast
  refine ⟨first, middle, last, rfl, reads_start hplain hfirst, ?_, hend, hclean⟩
  rw [List.forall₂_map_left_iff] at hmiddle
  have hevents := (List.forall₂_and_left session.events middle).mpr ⟨hsound, hmiddle⟩
  exact hevents.imp fun event record ⟨hevent, ts, hplain, hloads⟩ =>
    reads_event hevent hplain hloads

/-- The lines of a session are read as its records. -/
theorem LogsSession.records {session : LoggedSession} {steps : List SinkStep}
    (h : LogsSession session steps) {records : List Record}
    (hloads : List.Forall₂ Loads (sessionLines steps) records) :
    SessionRecords session records := by
  have hreads := calls_read (deliverAll_written h.written) hloads h.timestamps
  rw [h.calls] at hreads
  exact sessionRecords_of_calls h.sound hreads

/-! ## §7  Lines that can be read -/

/-- Bytes that are read as a string. -/
def Decodable (bytes : Bytes) : Prop := ∃ text, bytes = utf8 text

theorem decodable_sevenBit {bytes : Bytes} (h : ∀ b ∈ bytes, b < 0x80) :
    ∃ text : String, bytes = utf8 (py text) := by
  refine ⟨String.ofList (bytes.map fun b => Char.ofNat b.toNat), ?_⟩
  have hbyte : ∀ b ∈ bytes, encodeUtf8 (Char.ofNat b.toNat).toNat = [b] := by
    intro b hb
    have hlow : b.toNat < 0x80 := UInt8.lt_iff_toNat_lt.mp (h b hb)
    have hchar : (Char.ofNat b.toNat).toNat = b.toNat := by
      rw [Char.ofNat, dif_pos (Or.inl (Nat.lt_trans hlow (by decide)))]
      rfl
    rw [hchar, encodeUtf8, if_pos hlow]
    exact congrArg (fun c => [c]) (UInt8.ofNat_toNat)
  rw [utf8, py, String.toList_ofList, List.flatMap_map, List.flatMap_map,
    List.flatMap_congr hbyte, List.flatMap_singleton']

theorem isPy_exists {v : Value} (h : ∀ t, v = .str t → Decodable (decodeString t.val)) :
    ∃ p, IsPy v p := by
  cases v with
  | lit w =>
      cases w with
      | null => exact ⟨_, .null⟩
      | true => exact ⟨_, .true⟩
      | false => exact ⟨_, .false⟩
  | num t =>
      obtain ⟨text, htext⟩ := decodable_sevenBit t.property.sevenBit
      exact ⟨_, .num htext.symm (@decide_eq_true_iff (numberValue t.val = 0) _)⟩
  | str t =>
      obtain ⟨text, htext⟩ := h t rfl
      exact ⟨_, .str htext⟩
  | arr gap es => exact ⟨_, .arr (List.length_map fun _ => PyValue.none)⟩
  | obj gap ms =>
      exact ⟨_, .obj (@List.map_eq_nil_iff _ _ (fun _ => (([], .none) : PyString × PyValue)) ms)⟩

theorem lastAt_mem {key : Bytes} {ms : List (Member Value)} {v : Value}
    (h : lastAt key ms = some v) : ∃ m ∈ ms, decodeString m.key.val = key ∧ m.value = v := by
  obtain ⟨m, hm, hvalue⟩ := Option.map_eq_some_iff.mp h
  obtain ⟨hmem, hkey⟩ := List.mem_filter.mp (List.mem_of_getLast? hm)
  exact ⟨m, hmem, of_decide_eq_true hkey, hvalue⟩

/-- The keys at which the script expects a string. -/
def identityKeys : List Bytes := [utf8 (py "downstream_executable"), utf8 (py "policy_hash")]

/-- The line of an object whose strings can be read is read as some record, if the members
that identify a session are strings. -/
theorem loads_of_members {text : Bytes} {ms : List (Member Value)} (htidy : Tidy (.obj noGap ms))
    (htext : text = (Value.obj noGap ms).render)
    (hstrings : ∀ m ∈ ms, ∀ t, m.value = .str t → Decodable (decodeString t.val))
    (hkeys : ∀ m ∈ ms, decodeString m.key.val ∈ identityKeys → ∃ t, m.value = .str t) :
    ∃ record, Loads (text ++ [0x0A]) record := by
  have hread : ∀ key : String, ∃ p, (lastAt (utf8 (py key)) ms = none → p = .none) ∧
      ∀ v, lastAt (utf8 (py key)) ms = some v → IsPy v p := by
    intro key
    cases hlast : lastAt (utf8 (py key)) ms with
    | none => exact ⟨.none, fun _ => rfl, nofun⟩
    | some v =>
        obtain ⟨m, hmem, -, rfl⟩ := lastAt_mem hlast
        obtain ⟨p, hp⟩ := isPy_exists (hstrings m hmem)
        exact ⟨p, nofun, fun w hw => Option.some.inj hw ▸ hp⟩
  choose get hget using hread
  have htextual : ∀ key : String, utf8 (py key) ∈ identityKeys → (get key).TextOrNone := by
    intro key hkey
    cases hlast : lastAt (utf8 (py key)) ms with
    | none =>
        rw [(hget key).1 hlast]
        exact trivial
    | some v =>
        obtain ⟨m, hmem, hname, rfl⟩ := lastAt_mem hlast
        obtain ⟨t, ht⟩ := hkeys m hmem (hname ▸ hkey)
        have hpy := (hget key).2 _ hlast
        rw [ht] at hpy
        cases hp : get key <;> rw [hp] at hpy <;> cases hpy
        exact trivial
  exact ⟨⟨get, htextual _ List.mem_cons_self, htextual _ (by decide)⟩, noGap, ms, htidy,
    isText_line htext, hget⟩

/-- The strings of a session. -/
structure IdentityDecodable (identity : SessionIdentity) : Prop where
  guardVersion : Decodable identity.guardVersion
  serverLabel : Decodable identity.serverLabel
  downstreamExecutable : Decodable identity.downstreamExecutable
  policyHash : Decodable identity.policyHash

/-- What a call writes can be read: its strings are of code points. -/
def SinkCall.Readable : SinkCall → Prop
  | .record event => Sound event ∧ Decodable event.toolName ∧
      ∀ t : StringText, event.idJson = (Value.str t).render → Decodable (decodeString t.val)
  | .recordSessionStart identity => IdentityDecodable identity
  | .recordSessionEnd identity sessionEnd =>
      IdentityDecodable identity ∧ Decodable sessionEnd.terminationReason

theorem reads_mem {ms : List (Member Value)} {fields : List (Bytes × Field)}
    (h : List.Forall₂ Reads ms fields) {m : Member Value} (hm : m ∈ ms) :
    ∃ field ∈ fields, Reads m field := by
  induction h with
  | nil => cases hm
  | @cons m' field ms fields hfirst _ ih =>
      rcases List.mem_cons.mp hm with rfl | hlater
      · exact ⟨field, List.mem_cons_self, hfirst⟩
      · obtain ⟨field', hmem, hreads⟩ := ih hlater
        exact ⟨field', List.mem_cons_of_mem _ hmem, hreads⟩

/-- The records of events have no members at those keys. -/
theorem recordFields_keys (event : AuditEvent) (timestamp : Bytes) :
    ∀ key ∈ (recordFields event timestamp).map Prod.fst, key ∉ identityKeys := by
  unfold recordFields
  split <;> split <;> (simp only [List.map_append, List.map_cons, List.map_nil]; decide)

theorem loads_event {event : AuditEvent} (h : (SinkCall.record event).Readable)
    {timestamp : Bytes} (hplain : timestamp.all isPlainByte = true)
    (htime : Decodable timestamp) :
    ∃ record, Loads (recordTextAt event timestamp ++ [0x0A]) record := by
  obtain ⟨hsound, hname, hid⟩ := h
  obtain ⟨ms, htext, hreads⟩ := recordTextAt_tree hsound hplain
  have hfields : ∀ field ∈ recordFields event timestamp,
      (∀ value, field.2 = .text value → Decodable value) ∧
        ∀ json, field.2 = .token json → json = event.idJson := by
    intro field hmem
    simp only [recordFields, List.mem_append, List.mem_cons, List.not_mem_nil, or_false,
      List.mem_ite_nil_right] at hmem
    rcases hmem with (rfl | rfl | rfl | rfl) | ⟨-, rfl⟩ | ⟨-, rfl⟩ | rfl
    · exact ⟨fun _ h => Field.text.inj h ▸ htime, nofun⟩
    · exact ⟨fun _ h => Field.text.inj h ▸ ⟨_, eventName_utf8 _⟩, nofun⟩
    · exact ⟨fun _ h => Field.text.inj h ▸ ⟨_, decisionName_utf8 _⟩, nofun⟩
    · exact ⟨fun _ h => Field.text.inj h ▸ ⟨_, reasonName_utf8 _⟩, nofun⟩
    · exact ⟨fun _ h => Field.text.inj h ▸ hname, nofun⟩
    · exact ⟨nofun, fun _ h => (Field.token.inj h).symm⟩
    · exact ⟨nofun, nofun⟩
  refine loads_of_members (tidy_of_reads hreads) htext (fun m hm t ht => ?_) fun m hm hkey => ?_
  · obtain ⟨⟨key, field⟩, hmem, -, hdenotes⟩ := reads_mem hreads hm
    obtain ⟨htexts, htokens⟩ := hfields _ hmem
    cases field with
    | text value =>
        obtain ⟨t', ht', rfl⟩ := hdenotes
        cases ht.symm.trans ht'
        exact htexts _ rfl
    | token json =>
        obtain ⟨-, hrender⟩ := hdenotes
        rw [ht] at hrender
        exact hid t ((htokens json rfl).symm.trans hrender.symm)
    | number value =>
        obtain ⟨t', ht', -⟩ := hdenotes
        cases ht.symm.trans ht'
  · obtain ⟨field, hmem, hname', -⟩ := reads_mem hreads hm
    rw [hname'] at hkey
    exact absurd hkey (recordFields_keys event timestamp _ (List.mem_map_of_mem hmem))

/-- A string that is written is read. -/
theorem decodable_written {value : Bytes} (h : Decodable value) :
    ∀ t : StringText, Value.str (writtenString value) = .str t →
      Decodable (decodeString t.val) := by
  rintro t ht
  cases ht
  rw [decodeString_writtenString]
  exact h

theorem session_strings {event : Bytes} {hevent : event.all isPlainByte = true}
    {identity : SessionIdentity} (h : IdentityDecodable identity) {timestamp : Bytes}
    {hplain : timestamp.all isPlainByte = true} (htime : Decodable timestamp)
    (hname : Decodable event) :
    ∀ m ∈ sessionMembers event hevent identity timestamp hplain,
      ∀ t, m.value = .str t → Decodable (decodeString t.val) := by
  have hplainString : ∀ {value : Bytes} (hvalue : value.all isPlainByte = true),
      Decodable value → ∀ t : StringText, Value.str (plainString value hvalue) = .str t →
        Decodable (decodeString t.val) := by
    rintro value hvalue hdecodable t ht
    cases ht
    rw [decodeString_plainString]
    exact hdecodable
  unfold sessionMembers
  simp only [List.forall_mem_cons]
  exact ⟨hplainString hplain htime, hplainString hevent hname, decodable_written h.guardVersion,
    decodable_written h.serverLabel, decodable_written h.downstreamExecutable,
    decodable_written h.policyHash, fun _ hm => absurd hm List.not_mem_nil⟩

/-- Only the strings of a session stand at the keys that identify it. -/
theorem session_keys {event : Bytes} {hevent : event.all isPlainByte = true}
    {identity : SessionIdentity} {timestamp : Bytes} {hplain : timestamp.all isPlainByte = true} :
    ∀ m ∈ sessionMembers event hevent identity timestamp hplain, ∃ t, m.value = .str t := by
  unfold sessionMembers
  simp only [List.forall_mem_cons]
  exact ⟨⟨_, rfl⟩, ⟨_, rfl⟩, ⟨_, rfl⟩, ⟨_, rfl⟩, ⟨_, rfl⟩, ⟨_, rfl⟩,
    fun _ hm => absurd hm List.not_mem_nil⟩

theorem loads_start {identity : SessionIdentity} (h : IdentityDecodable identity)
    {timestamp : Bytes} (hplain : timestamp.all isPlainByte = true) (htime : Decodable timestamp) :
    ∃ record, Loads (sessionStartText identity timestamp ++ [0x0A]) record := by
  refine loads_of_members sessionStart_tidy (sessionStartText_tree identity timestamp hplain) ?_ ?_
  · refine List.forall_mem_append.mpr
      ⟨session_strings h htime ⟨py "session_start", rfl⟩, ?_⟩
    exact List.forall_mem_singleton.mpr nofun
  · refine List.forall_mem_append.mpr ⟨fun m hm _ => session_keys m hm, ?_⟩
    have hkey : ascii "runtime_limits" ∉ identityKeys := by decide
    exact List.forall_mem_singleton.mpr fun hmem => absurd hmem hkey

theorem loads_end {identity : SessionIdentity} (h : IdentityDecodable identity)
    {sessionEnd : SessionEnd} (hreason : Decodable sessionEnd.terminationReason)
    {timestamp : Bytes} (hplain : timestamp.all isPlainByte = true) (htime : Decodable timestamp) :
    ∃ record, Loads (sessionEndText identity sessionEnd timestamp ++ [0x0A]) record := by
  refine loads_of_members sessionEnd_tidy
    (sessionEndText_tree identity sessionEnd timestamp hplain) ?_ ?_
  · refine List.forall_mem_append.mpr ⟨session_strings h htime ⟨py "session_end", rfl⟩, ?_⟩
    unfold endMembers
    simp only [List.forall_mem_cons]
    refine ⟨?child, ?proxy, decodable_written hreason, ?duration, ?clean,
      fun _ hm => absurd hm List.not_mem_nil⟩
    all_goals intro _ h; cases h
  · refine List.forall_mem_append.mpr ⟨fun m hm _ => session_keys m hm, ?_⟩
    have hkeys : ∀ key ∈ [ascii "child_exit_status", ascii "proxy_exit_status",
        ascii "termination_reason", ascii "duration_ms", ascii "clean_shutdown"],
        key ∉ identityKeys := by decide
    intro m hm hkey
    exact absurd hkey (hkeys _ (List.mem_map_of_mem (f := fun m => decodeString m.key.val) hm))

/-- Every line of a sink is read as a record, where its strings are of code points. -/
theorem written_loads {steps : List SinkStep} {raws : List Bytes}
    (h : List.Forall₂ WritesLine steps raws)
    (htimestamps : ∀ step ∈ steps, ∃ timestamp : Bytes, step.timestamp = some timestamp ∧
      timestamp.all isPlainByte = true ∧ Decodable timestamp)
    (hreadable : ∀ step ∈ steps, step.call.Readable) :
    ∃ records, List.Forall₂ Loads raws records := by
  induction h with
  | nil => exact ⟨[], List.Forall₂.nil⟩
  | @cons step raw steps raws hfirst _ ih =>
      obtain ⟨⟨timestamp, htime, hplain, hdecodable⟩, htimes⟩ :=
        List.forall_mem_cons.mp htimestamps
      obtain ⟨hcall, hcalls⟩ := List.forall_mem_cons.mp hreadable
      obtain ⟨limit, line, hformat, rfl⟩ := hfirst
      rw [htime] at hformat
      rw [text_of_format hformat]
      have hloads : ∃ record, Loads (step.call.text timestamp ++ [0x0A]) record := by
        cases hkind : step.call with
        | record event => exact loads_event (hkind ▸ hcall) hplain hdecodable
        | recordSessionStart identity =>
            exact loads_start (hkind ▸ hcall : (SinkCall.recordSessionStart identity).Readable)
              hplain hdecodable
        | recordSessionEnd identity sessionEnd =>
            obtain ⟨hidentity, hreason⟩ :=
              (hkind ▸ hcall : (SinkCall.recordSessionEnd identity sessionEnd).Readable)
            exact loads_end hidentity hreason hplain hdecodable
      obtain ⟨record, hrecord⟩ := hloads
      obtain ⟨records, hrecords⟩ := ih htimes hcalls
      exact ⟨record :: records, List.Forall₂.cons hrecord hrecords⟩

end NativeGuard.Audit

import NativeGuard.Audit.HealthLog
import NativeGuard.Process.IntactLines

/-!
# The health of a guard's sessions

The audit file of any number of sessions, each the run of a filter over calls in any
order, and the summary of `scripts/audit_health_summary.py` on it: its counts are those
of the decisions that the filters have made (`health_summary_exact`), and its exit code
tells whether all of the sessions ended clean.
-/

namespace NativeGuard.Process

open Json Data Audit Protocol ToolCallFilter

/-! ## §1  The file of many sessions -/

/-- A line with its newline, and no other newline in it. -/
def IsLine (raw : Bytes) : Prop := ∃ line, raw = line ++ [0x0A] ∧ 0x0A ∉ line

/-- Whole lines are read back as they are. -/
theorem readLines_flatten {raws : List Bytes} (h : ∀ raw ∈ raws, IsLine raw) :
    readLines raws.flatten = raws := by
  have hsplit : (linesOf 0x0A raws.flatten).map (· ++ [0x0A]) = raws ∧
      restOf 0x0A raws.flatten = [] := by
    induction raws with
    | nil => exact ⟨rfl, rfl⟩
    | cons raw raws ih =>
        obtain ⟨line, rfl, hline⟩ := h raw List.mem_cons_self
        obtain ⟨hlines, hrest⟩ := ih fun raw' hmem => h raw' (List.mem_cons_of_mem _ hmem)
        have hfirst := splitLines_line hline raws.flatten
        rw [List.flatten_cons, List.append_assoc, List.singleton_append]
        unfold linesOf at hlines ⊢
        unfold restOf at hrest ⊢
        rw [hfirst]
        exact ⟨congrArg (List.cons _) hlines, hrest⟩
  rw [readLines, hsplit.1, if_pos hsplit.2, List.append_nil]

theorem text_printable {call : SinkCall} (hsound : ∀ event, call = .record event → Sound event)
    {timestamp : Bytes} (hplain : timestamp.all isPlainByte = true) :
    ∀ b ∈ call.text timestamp, 0x20 ≤ b := by
  cases call with
  | record event => exact recordTextAt_printable (hsound event rfl) hplain
  | recordSessionStart identity => exact sessionStartText_printable hplain identity
  | recordSessionEnd identity sessionEnd =>
      exact sessionEndText_printable hplain identity sessionEnd

theorem isLine_of_written {steps : List SinkStep} {raws : List Bytes}
    (h : List.Forall₂ WritesLine steps raws)
    (htimestamps : ∀ step ∈ steps, ∃ timestamp : Bytes, step.timestamp = some timestamp ∧
      timestamp.all isPlainByte = true)
    (hsound : ∀ step ∈ steps, ∀ event, step.call = .record event → Sound event) :
    ∀ raw ∈ raws, IsLine raw := by
  induction h with
  | nil => exact fun _ h => absurd h List.not_mem_nil
  | @cons step raw steps raws hfirst _ ih =>
      refine List.forall_mem_cons.mpr ⟨?_, ih
        (fun later hmem => htimestamps later (List.mem_cons_of_mem _ hmem))
        fun later hmem => hsound later (List.mem_cons_of_mem _ hmem)⟩
      obtain ⟨limit, line, hformat, rfl⟩ := hfirst
      obtain ⟨timestamp, htime, hplain⟩ := htimestamps step List.mem_cons_self
      rw [htime] at hformat
      refine ⟨line, rfl, fun hnewline => ?_⟩
      rw [text_of_format hformat] at hnewline
      have hprintable := text_printable (hsound step List.mem_cons_self) hplain _ hnewline
      exact absurd hprintable (by decide)

theorem isLine_of_logs {session : LoggedSession} {steps : List SinkStep}
    (h : LogsSession session steps) : ∀ raw ∈ sessionLines steps, IsLine raw := by
  refine isLine_of_written (deliverAll_written h.written) h.timestamps fun step hmem event heq => ?_
  have hcall : SinkCall.record event ∈ steps.map SinkStep.call := heq ▸ List.mem_map_of_mem hmem
  rw [h.calls] at hcall
  rcases List.mem_cons.mp hcall with hstart | hrest
  · cases hstart
  · rcases List.mem_append.mp hrest with hevent | hend
    · obtain ⟨event', hevent', hsame⟩ := List.mem_map.mp hevent
      cases hsame
      exact h.sound event hevent'
    · cases List.mem_singleton.mp hend

/-! ## §2  What the filter has decided -/

/-- A `tools/call` message, whether it is forwarded or not. -/
def callStep (forwarded : Bool) : ToolCallFilter × Call → Bool
  | (f, .input (.client message)) =>
      (classify f.config.runtime message).method = ascii "tools/call" ∧
        ((f.inspect message).decision.action = .forward ↔ forwarded = true)
  | _ => false

/-- The tools that a replaced response has lost. -/
def hiddenCount : ToolCallFilter × Call → Nat
  | (f, .input (.server message)) =>
      match rewriteToolsListResponse message f.config.runtime.maxNestingDepth f.core with
      | .rewritten _ removedTools =>
          if (f.inspectServer message).decision.action = .replace then removedTools.length else 0
      | _ => 0
  | _ => 0

/-- A client message other than a call that is not forwarded, unless it repeats the id of
a request that is pending; or a line that the framer gives up. Neither a repeated id nor a
server message that is dropped leaves an event that the script counts. -/
def turnedAway : ToolCallFilter × Call → Bool
  | (f, .input (.client message)) =>
      (classify f.config.runtime message).method ≠ ascii "tools/call" ∧
        (f.inspect message).decision.action ≠ .forward ∧
          ¬ (RequestsList (classify f.config.runtime message) ∧
            (f.pending.add f.config (classify f.config.runtime message).idJson).1 = .duplicate)
  | (_, .messageTooLarge _ _) => true
  | _ => false

/-- The counts of events, against those of the decisions. -/
structure CountsStep (step : ToolCallFilter × Call) (events : List AuditEvent) : Prop where
  allowed : events.countP (isCall .allow) = (callStep true step).toNat
  denied : events.countP (isCall .deny) = (callStep false step).toNat
  hidden : (events.countP fun e => e.type = .toolHidden) = hiddenCount step
  rejected : events.countP (isRejected false) + events.countP (isRejected true) +
    (events.countP fun e => e.type = .correlationExhausted) = (turnedAway step).toNat

variable {f : ToolCallFilter}

theorem countsStep_server (message : Bytes) :
    CountsStep (f, .input (.server message)) (f.inspectServer message).events := by
  by_cases hreplace : (f.inspectServer message).decision.action = .replace
  · obtain ⟨-, out, removedTools, hrewrite, -, hevents⟩ := f.replaced_of_pending hreplace
    have hnone : ∀ p : AuditEvent → Bool, (∀ e, e.type = .toolHidden → p e = false) →
        (f.inspectServer message).events.countP p = 0 := by
      intro p hp
      rw [hevents, List.countP_eq_zero]
      intro e he
      obtain ⟨name, -, rfl⟩ := List.mem_map.mp he
      rw [hp _ rfl]
      exact Bool.false_ne_true
    constructor
    · exact hnone _ fun e he => by simp [isCall, he]
    · exact hnone _ fun e he => by simp [isCall, he]
    · simp only [hiddenCount, hrewrite]
      rw [if_pos hreplace, hevents, List.countP_eq_length.mpr, List.length_map]
      intro e he
      obtain ⟨name, -, rfl⟩ := List.mem_map.mp he
      rfl
    · rw [hnone _ fun e he => by simp [isRejected, he],
        hnone _ fun e he => by simp [isRejected, he],
        hnone _ fun e he => by simp [he]]
      rfl
  · rw [f.inspectServer_events_of_not_replaced hreplace]
    refine ⟨rfl, rfl, ?_, rfl⟩
    simp only [hiddenCount, if_neg hreplace]
    split
    · rfl
    · rfl

/-- A call is counted as its decision says, once. -/
theorem countsStep_call {message : Bytes} {event : AuditEvent}
    (hevents : (f.inspect message).events = [event]) (htype : event.type = .toolCall)
    (hcall : (classify f.config.runtime message).method = ascii "tools/call")
    (hdecision : event.decision = .allow ↔ (f.inspect message).decision.action = .forward) :
    CountsStep (f, .input (.client message)) (f.inspect message).events := by
  rw [hevents]
  constructor
  · by_cases hallow : event.decision = .allow
    · simp [isCall, callStep, htype, hcall, hallow, hdecision.mp hallow]
    · simp [isCall, callStep, htype, hcall, hallow, mt hdecision.mpr hallow]
  · cases hvalue : event.decision with
    | allow => simp [isCall, callStep, htype, hcall, hvalue, hdecision.mp hvalue]
    | deny =>
        have hforward : (f.inspect message).decision.action ≠ .forward := by
          intro hforward
          cases hvalue.symm.trans (hdecision.mpr hforward)
        simp [isCall, callStep, htype, hcall, hvalue, hforward]
  · simp [hiddenCount, htype]
  · simp [isRejected, turnedAway, htype, hcall]

/-- A message that is no call is counted if it is reported, and only then. -/
theorem countsStep_other {message : Bytes}
    (hcall : (classify f.config.runtime message).method ≠ ascii "tools/call")
    (hevents : (f.inspect message).events = [] ∧ turnedAway (f, .input (.client message)) = false ∨
      ∃ event, (f.inspect message).events = [event] ∧
        (event.type = .messageRejected ∨ event.type = .correlationExhausted) ∧
          turnedAway (f, .input (.client message)) = true) :
    CountsStep (f, .input (.client message)) (f.inspect message).events := by
  have hnone : ∀ forwarded, callStep forwarded (f, .input (.client message)) = false := by
    intro forwarded
    simp [callStep, hcall]
  rcases hevents with ⟨hevents, hturned⟩ | ⟨event, hevents, htype, hturned⟩
  · rw [hevents]
    exact ⟨by rw [hnone]; rfl, by rw [hnone]; rfl, rfl, by rw [hturned]; rfl⟩
  · rw [hevents]
    constructor
    · rw [hnone]
      rcases htype with htype | htype <;> simp [isCall, htype]
    · rw [hnone]
      rcases htype with htype | htype <;> simp [isCall, htype]
    · rcases htype with htype | htype <;> simp [hiddenCount, htype]
    · rw [hturned]
      rcases htype with htype | htype
      · -- a rejected message has one of the two reasons
        by_cases hlarge : event.reason = .messageTooLarge
        · simp [isRejected, htype, hlarge]
        · simp [isRejected, htype, hlarge]
      · simp [isRejected, htype]

theorem turnedAway_iff {message : Bytes}
    (hcall : (classify f.config.runtime message).method ≠ ascii "tools/call") :
    turnedAway (f, .input (.client message)) = true ↔
      (f.inspect message).decision.action ≠ .forward ∧
        ¬ (RequestsList (classify f.config.runtime message) ∧
          (f.pending.add f.config (classify f.config.runtime message).idJson).1 = .duplicate) := by
  rw [turnedAway, decide_eq_true_iff]
  exact and_iff_right hcall

theorem turnedAway_of_forward {message : Bytes}
    (hforward : (f.inspect message).decision.action = .forward) :
    turnedAway (f, .input (.client message)) = false := by
  refine decide_eq_false ?_
  rintro ⟨-, hnot, -⟩
  exact hnot hforward

/-- A call is counted by the decision about it, and refused parameters with the denied. -/
theorem countsStep_toolsCall {message : Bytes}
    (hcall : (classify f.config.runtime message).method = ascii "tools/call")
    (heq : f.inspect message = f.inspectToolsCall (classify f.config.runtime message) message) :
    CountsStep (f, .input (.client message)) (f.inspect message).events := by
  rcases f.inspectToolsCall_cases (classify f.config.runtime message) message with
    ⟨e, -, houtcome⟩ | ⟨params, -, ⟨-, houtcome⟩ | ⟨-, houtcome⟩⟩
  · have hevents : (f.inspect message).events = [toolCallEvent .deny .invalidParameters []
        (classify f.config.runtime message) message] := by rw [heq, houtcome]
    refine countsStep_call hevents rfl hcall (iff_of_false nofun ?_)
    rw [heq, houtcome]
    exact refuse_ne_forward _ _ _
  · have hevents : (f.inspect message).events = [toolCallEvent .allow .policyAllowed params.name
        (classify f.config.runtime message) message] := by rw [heq, houtcome]
    refine countsStep_call hevents rfl hcall (iff_of_true rfl ?_)
    rw [heq, houtcome]
  · have hevents : (f.inspect message).events = [toolCallEvent .deny .policyDenied params.name
        (classify f.config.runtime message) message] := by rw [heq, houtcome]
    refine countsStep_call hevents rfl hcall (iff_of_false nofun ?_)
    rw [heq, houtcome]
    exact refuse_ne_forward _ _ _

theorem countsStep_toolsList {message : Bytes}
    (herror : (classify f.config.runtime message).error = .none)
    (hlist : (classify f.config.runtime message).method = ascii "tools/list")
    (heq : f.inspect message = f.inspectToolsList (classify f.config.runtime message) message) :
    CountsStep (f, .input (.client message)) (f.inspect message).events := by
  have hcall : (classify f.config.runtime message).method ≠ ascii "tools/call" := by
    rw [hlist]
    decide
  have hturned := turnedAway_iff hcall
  rcases f.inspectToolsList_cases (classify f.config.runtime message) message with
    ⟨hkind, houtcome | houtcome⟩ | ⟨hkind, ⟨hadd, houtcome⟩ | ⟨hadd, houtcome⟩ | ⟨hadd, houtcome⟩⟩
  · -- no request, and the table is full: dropped with an event
    refine countsStep_other hcall (Or.inr ⟨_, by rw [heq, houtcome], Or.inr rfl, ?_⟩)
    refine hturned.mpr ⟨?_, fun h => hkind h.1.2.2⟩
    rw [heq, houtcome]
    exact nofun
  · refine countsStep_other hcall (Or.inl ⟨by rw [heq, houtcome], turnedAway_of_forward ?_⟩)
    rw [heq, houtcome]
  · refine countsStep_other hcall (Or.inl ⟨by rw [heq, houtcome], turnedAway_of_forward ?_⟩)
    rw [heq, houtcome]
  · -- the id of the request is pending already: dropped without an event
    refine countsStep_other hcall (Or.inl ⟨by rw [heq, houtcome], ?_⟩)
    exact Bool.eq_false_iff.mpr fun h => (hturned.mp h).2 ⟨⟨herror, hlist, hkind⟩, hadd⟩
  · -- no room for another pending request
    refine countsStep_other hcall (Or.inr ⟨_, by rw [heq, houtcome], Or.inr rfl, ?_⟩)
    refine hturned.mpr ⟨?_, fun h => ?_⟩
    · rw [heq, houtcome]
      dsimp only
      split <;> exact nofun
    · rw [hadd] at h
      exact absurd h.2 nofun

theorem countsStep_client (message : Bytes) :
    CountsStep (f, .input (.client message)) (f.inspect message).events := by
  rcases f.inspect_cases message with
    ⟨herror, heq⟩ | ⟨-, hcall, heq⟩ | ⟨herror, hlist, heq⟩ | ⟨-, hcall, -, heq⟩
  · have hforward : (f.inspect message).decision.action ≠ .forward :=
      fun hforward => herror (inspect_forward hforward).1
    by_cases hcall : (classify f.config.runtime message).method = ascii "tools/call"
    · have hevents : (f.inspect message).events =
          (f.rejectMessage (classify f.config.runtime message) message).events := by rw [heq]
      exact countsStep_call hevents (if_pos hcall) hcall (iff_of_false nofun hforward)
    · refine countsStep_other hcall (Or.inr ⟨_, by rw [heq]; rfl, Or.inl (if_neg hcall), ?_⟩)
      exact (turnedAway_iff hcall).mpr ⟨hforward, fun hlist => herror hlist.1.1⟩
  · exact countsStep_toolsCall hcall heq
  · exact countsStep_toolsList herror hlist heq
  · refine countsStep_other hcall (Or.inl ⟨by rw [heq], turnedAway_of_forward ?_⟩)
    rw [heq]

/-- Every step is counted as it was decided. -/
theorem countsStep (f : ToolCallFilter) (call : Call) : CountsStep (f, call) (f.recorded call) := by
  rcases call with input | ⟨direction, encodedMessageBytes⟩
  · cases input with
    | client message => exact countsStep_client message
    | server message => exact countsStep_server message
    | closed => exact ⟨rfl, rfl, rfl, rfl⟩
  · exact ⟨rfl, rfl, rfl, rfl⟩

/-! ## §3  The sessions and their files -/

/-- A session that has come to its end: its sink has taken the start, every event of the
calls and the end, each at a time that could be formatted, and has not failed. -/
structure GuardSession where
  policy : Security.PolicyTable
  config : FilterConfig
  calls : List Call
  identity : SessionIdentity
  sessionEnd : SessionEnd
  steps : List SinkStep
  recorded : steps.map SinkStep.call = .recordSessionStart identity ::
    (((init policy config).trail calls).map SinkCall.record ++
      [.recordSessionEnd identity sessionEnd])
  timestamps : ∀ step ∈ steps, ∃ timestamp : Bytes, step.timestamp = some timestamp ∧
    timestamp.all isPlainByte = true
  written : (({} : JsonlAuditSink).deliverAll steps).1.failed = false

namespace GuardSession

def logged (session : GuardSession) : LoggedSession where
  identity := session.identity
  events := (init session.policy session.config).trail session.calls
  sessionEnd := session.sessionEnd

theorem logs (session : GuardSession) : LogsSession session.logged session.steps where
  calls := session.recorded
  timestamps := session.timestamps
  sound := trail_sound _ session.calls
  written := session.written

/-- The calls of the session, each with the filter that it has met. -/
def decided (session : GuardSession) : List (ToolCallFilter × Call) :=
  (init session.policy session.config).steps session.calls

theorem events_eq (session : GuardSession) :
    session.logged.events = session.decided.flatMap fun step => step.1.recorded step.2 :=
  trail_eq _ session.calls

end GuardSession

/-- The sessions that have been appended to one file, and what the script reads of it. -/
structure AuditFile where
  path : String
  sessions : List GuardSession
  lines : List Line
  reads : List.Forall₂ LineReads
    (readLines (sessions.flatMap fun session => sessionLines session.steps).flatten) lines

namespace AuditFile

def source (file : AuditFile) : Source := ⟨file.path, .ok file.lines⟩

/-- The lines that are read are those that the sinks have written. -/
theorem reads_lines (file : AuditFile) : List.Forall₂ LineReads
    (file.sessions.flatMap fun session => sessionLines session.steps) file.lines := by
  have hreads := file.reads
  rwa [readLines_flatten] at hreads
  intro raw hraw
  obtain ⟨session, -, hraw⟩ := List.mem_flatMap.mp hraw
  exact isLine_of_logs session.logs raw hraw

/-- A file without invalid lines counts its sessions. -/
theorem counts (file : AuditFile) (hvalid : ∀ line ∈ file.lines, isInvalid line = false)
    (tally : Tally) :
    CountsSessions (file.sessions.map GuardSession.logged) tally
      (readSource tally file.source) := by
  obtain ⟨records, hrecords⟩ := records_of_lines hvalid
  have hreads := file.reads_lines
  rw [hrecords, List.forall₂_map_right_iff] at hreads
  obtain ⟨logs, rfl, hlogs⟩ := forall₂_flatMap_left hreads
  have hsessions : List.Forall₂ SessionRecords (file.sessions.map GuardSession.logged) logs := by
    rw [List.forall₂_map_left_iff]
    exact hlogs.imp fun session _ hloads => session.logs.records hloads
  have hcounts := countsSessions_lines hsessions { tally with
    summary := { tally.summary with filesRead := tally.summary.filesRead + 1 } }
  have hread : readSource tally file.source = logs.flatten.foldl countRecord { tally with
      summary := { tally.summary with filesRead := tally.summary.filesRead + 1 } } := by
    unfold readSource source
    dsimp only
    rw [hrecords, List.foldl_map]
    rfl
  rw [hread]
  obtain ⟨files, recent, unhealthy, hsummary⟩ := hcounts.summary
  exact ⟨hcounts.balances, hcounts.missing, files, recent, unhealthy, hsummary⟩

end AuditFile

theorem counts_files {files : List AuditFile}
    (hvalid : ∀ file ∈ files, ∀ line ∈ file.lines, isInvalid line = false) (tally : Tally) :
    CountsSessions ((files.flatMap AuditFile.sessions).map GuardSession.logged) tally
      ((files.map AuditFile.source).foldl readSource tally) := by
  induction files generalizing tally with
  | nil => exact ⟨rfl, rfl, _, _, _, rfl⟩
  | cons file files ih =>
      rw [List.flatMap_cons, List.map_append, List.map_cons, List.foldl_cons]
      exact (file.counts (hvalid file List.mem_cons_self) tally).append
        (ih (fun later hmem => hvalid later (List.mem_cons_of_mem _ hmem)) _)

theorem missing_files (files : List AuditFile) (tally : Tally) :
    ((files.map AuditFile.source).foldl readSource tally).missing = tally.missing := by
  induction files generalizing tally with
  | nil => rfl
  | cons file files ih => exact (ih _).trans (countLines_missing file.lines _)

theorem invalid_files (files : List AuditFile) (tally : Tally) :
    ((files.map AuditFile.source).foldl readSource tally).summary.invalidJsonLines =
      tally.summary.invalidJsonLines + (files.flatMap AuditFile.lines).countP isInvalid := by
  induction files generalizing tally with
  | nil => rfl
  | cons file files ih =>
      rw [List.map_cons, List.foldl_cons, ih, List.flatMap_cons, List.countP_append,
        ← Nat.add_assoc]
      exact congrArg (· + _) (countLines_invalid file.lines _)

/-! ## §4  The summary -/

/-- The summary says what the guards of the sessions have decided. -/
structure Tells (sessions : List GuardSession) (summary : Summary) : Prop where
  total : summary.totalSessions = sessions.length
  clean : summary.cleanSessions = sessions.countP fun s => s.sessionEnd.cleanShutdown
  unclean : summary.uncleanSessions = sessions.countP fun s => !s.sessionEnd.cleanShutdown
  unmatched : summary.unmatchedSessionStarts = 0
  allowed : summary.allowedToolCalls =
    (sessions.flatMap GuardSession.decided).countP (callStep true)
  denied : summary.deniedToolCalls =
    (sessions.flatMap GuardSession.decided).countP (callStep false)
  hidden : summary.hiddenTools = ((sessions.flatMap GuardSession.decided).map hiddenCount).sum
  rejected : summary.invalidMessages + summary.oversizedMessages +
    summary.correlationCapacityEvents =
      (sessions.flatMap GuardSession.decided).countP turnedAway
  nesting : summary.excessiveNestingEvents = 0
  failures : summary.auditWriteFailures = 0

/-- Counts over the events are counts over the steps. -/
theorem sum_steps {p : AuditEvent → Bool} {count : ToolCallFilter × Call → Nat}
    (h : ∀ step : ToolCallFilter × Call, (step.1.recorded step.2).countP p = count step)
    (steps : List (ToolCallFilter × Call)) :
    (steps.flatMap fun step => step.1.recorded step.2).countP p = (steps.map count).sum := by
  rw [List.countP_flatMap]
  exact congrArg List.sum (List.map_congr_left fun step _ => h step)

theorem sum_toNat {α : Type} (p : α → Bool) (as : List α) :
    (as.map fun a => (p a).toNat).sum = as.countP p := by
  induction as with
  | nil => rfl
  | cons a as ih =>
      rw [List.map_cons, List.sum_cons, ih, List.countP_cons]
      cases p a with
      | true => exact Nat.add_comm _ _
      | false => exact Nat.zero_add _

theorem rejected_steps (steps : List (ToolCallFilter × Call)) :
    (steps.flatMap fun step => step.1.recorded step.2).countP (isRejected false) +
      (steps.flatMap fun step => step.1.recorded step.2).countP (isRejected true) +
      ((steps.flatMap fun step => step.1.recorded step.2).countP
        fun e => e.type = .correlationExhausted) = steps.countP turnedAway := by
  rw [List.countP_flatMap, List.countP_flatMap, List.countP_flatMap, ← List.sum_map_add,
    ← List.sum_map_add, ← sum_toNat]
  exact congrArg List.sum (List.map_congr_left fun step _ => (countsStep step.1 step.2).rejected)

theorem events_sessions (sessions : List GuardSession) :
    (sessions.map GuardSession.logged).flatMap LoggedSession.events =
      (sessions.flatMap GuardSession.decided).flatMap fun step => step.1.recorded step.2 := by
  rw [List.flatMap_map, List.flatMap_assoc]
  exact List.flatMap_congr fun session _ => session.events_eq

theorem tells_of_counts {sessions : List GuardSession} {tally : Tally}
    (h : CountsSessions (sessions.map GuardSession.logged) {} tally) :
    Tells sessions (finish tally).1 := by
  obtain ⟨files, recent, unhealthy, hsummary⟩ := h.summary
  have hevents := events_sessions sessions
  have hcountP : ∀ p : LoggedSession → Bool, (sessions.map GuardSession.logged).countP p =
      sessions.countP fun s => p s.logged := fun p => List.countP_map
  -- every balance is back where it was
  have hbalances : tally.balances.total = 0 := by
    rw [Counter.total_eq_sum _ (Finset.Subset.refl _)]
    exact Finset.sum_eq_zero fun k _ => congrFun h.balances k
  have hrejected : tally.summary.invalidMessages + tally.summary.oversizedMessages +
      tally.summary.correlationCapacityEvents =
        (sessions.flatMap GuardSession.decided).countP turnedAway := by
    rw [← rejected_steps, ← hevents, hsummary]
    simp [addEvents]
  unfold finish
  dsimp only
  rw [hsummary] at hrejected ⊢
  refine ⟨?_, ?_, ?_, hbalances, ?_, ?_, ?_, hrejected, rfl, rfl⟩
  · exact (Nat.zero_add _).trans (List.length_map _)
  · exact (Nat.zero_add _).trans (hcountP _)
  · exact (Nat.zero_add _).trans (hcountP _)
  · refine (Nat.zero_add _).trans ?_
    rw [hevents, sum_steps fun step => (countsStep step.1 step.2).allowed, sum_toNat]
  · refine (Nat.zero_add _).trans ?_
    rw [hevents, sum_steps fun step => (countsStep step.1 step.2).denied, sum_toNat]
  · refine (Nat.zero_add _).trans ?_
    rw [hevents, sum_steps fun step => (countsStep step.1 step.2).hidden]

/-- Strings of code points only: then the script may read every line that has been written. -/
theorem exists_valid_file (path : String) {sessions : List GuardSession}
    (hreadable : ∀ session ∈ sessions, ∀ step ∈ session.steps, step.call.Readable ∧
      ∀ timestamp, step.timestamp = some timestamp → Decodable timestamp) :
    ∃ file : AuditFile, file.path = path ∧ file.sessions = sessions ∧
      ∀ line ∈ file.lines, isInvalid line = false := by
  have hrecords : ∃ records, List.Forall₂ Loads
      (sessions.flatMap fun session => sessionLines session.steps) records := by
    induction sessions with
    | nil => exact ⟨[], List.Forall₂.nil⟩
    | cons session sessions ih =>
        obtain ⟨hfirst, hlater⟩ := List.forall_mem_cons.mp hreadable
        obtain ⟨records, hrecords⟩ := written_loads (deliverAll_written session.written)
          (fun step hmem => by
            obtain ⟨timestamp, htime, hplain⟩ := session.timestamps step hmem
            exact ⟨timestamp, htime, hplain, (hfirst step hmem).2 timestamp htime⟩)
          fun step hmem => (hfirst step hmem).1
        obtain ⟨records', hrecords'⟩ := ih hlater
        exact ⟨records ++ records', List.rel_append hrecords hrecords'⟩
  obtain ⟨records, hrecords⟩ := hrecords
  refine ⟨⟨path, sessions, records.map Line.record, ?_⟩, rfl, rfl, ?_⟩
  · rw [readLines_flatten, List.forall₂_map_right_iff]
    · exact hrecords
    · intro raw hraw
      obtain ⟨session, -, hraw⟩ := List.mem_flatMap.mp hraw
      exact isLine_of_logs session.logs raw hraw
  · intro line hline
    obtain ⟨record, -, rfl⟩ := List.mem_map.mp hline
    rfl

/-- The policy that shows `x` and lets it be called. -/
def allowX : Security.PolicyTable where
  rules := [⟨ascii "x", .allow, .allow⟩]
  sorted := List.pairwise_singleton _ _
  named := List.forall_mem_singleton.mpr (by decide)

/-- A list that loses a tool, a call of each tool, a text that is no message and a line that
is too long. -/
def busyCalls : List Call :=
  [.input (.client listRequest), .input (.server twoTools),
    .input (.client (ascii ("\x7b\"jsonrpc\":\"2.0\",\"id\":2,\"method\":\"tools/call\"," ++
      "\"params\":\x7b\"name\":\"x\"\x7d\x7d"))),
    .input (.client (ascii ("\x7b\"jsonrpc\":\"2.0\",\"id\":3,\"method\":\"tools/call\"," ++
      "\"params\":\x7b\"name\":\"y\"\x7d\x7d"))),
    .input (.client (ascii "\x7b")), .messageTooLarge .clientToServer 2097152]

def busyTrail : List AuditEvent := (init allowX {}).trail busyCalls

def busyIdentity : SessionIdentity where
  guardVersion := ascii "0.9"
  serverLabel := ascii "web"
  downstreamExecutable := ascii "server"
  policyHash := ascii "00"
  limits := ⟨7, 8, 9⟩

def busyEnd : SessionEnd where
  cleanShutdown := true
  terminationReason := ascii "child_exit"

def busyTime : Bytes := ascii "2026-01-02T03:04:05Z"

def busySteps : List SinkStep :=
  (.recordSessionStart busyIdentity ::
    (busyTrail.map SinkCall.record ++ [.recordSessionEnd busyIdentity busyEnd])).map
      fun call => ⟨call, some busyTime, true⟩

def busySession : GuardSession where
  policy := allowX
  config := {}
  calls := busyCalls
  identity := busyIdentity
  sessionEnd := busyEnd
  steps := busySteps
  recorded := by
    rw [busySteps, List.map_map]
    exact List.map_id _
  timestamps := by
    intro step hmem
    obtain ⟨call, -, rfl⟩ := List.mem_map.mp hmem
    exact ⟨busyTime, rfl, by decide⟩
  written := by decide +kernel

theorem busySession_readable : ∀ step ∈ busySession.steps, step.call.Readable ∧
    ∀ timestamp, step.timestamp = some timestamp → Decodable timestamp := by
  have hidentity : IdentityDecodable busyIdentity :=
    ⟨⟨py "0.9", rfl⟩, ⟨py "web", rfl⟩, ⟨py "server", rfl⟩, ⟨py "00", rfl⟩⟩
  have hevents : ∀ event ∈ busyTrail, (∀ b ∈ event.toolName, b < 0x80) ∧
      event.idJson.head? ≠ some 0x22 := by
    decide +kernel
  intro step hmem
  obtain ⟨call, hcall, rfl⟩ := List.mem_map.mp hmem
  have htime : Decodable busyTime := ⟨py "2026-01-02T03:04:05Z", rfl⟩
  refine ⟨?_, fun timestamp hsome => Option.some.inj hsome ▸ htime⟩
  rcases List.mem_cons.mp hcall with rfl | hrest
  · exact hidentity
  rcases List.mem_append.mp hrest with hevent | hend
  · obtain ⟨event, hrecorded, rfl⟩ := List.mem_map.mp hevent
    obtain ⟨hname, hid⟩ := hevents event hrecorded
    obtain ⟨name, hname⟩ := decodable_sevenBit hname
    have hsound : Sound event := trail_sound (init allowX {}) busyCalls event hrecorded
    refine ⟨hsound, ⟨_, hname⟩, fun t ht => ?_⟩
    -- none of the ids is a string
    rw [ht, Value.render] at hid
    exact absurd rfl hid
  · rw [List.mem_singleton.mp hend]
    exact ⟨hidentity, py "child_exit", rfl⟩

end NativeGuard.Process

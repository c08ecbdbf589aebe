import NativeGuard.Audit.AuditEvent
import NativeGuard.Process.ClientMessageHandler
import NativeGuard.Protocol.Pending
import NativeGuard.Protocol.Rewrite

/-!
# The tool call filter (`src/tool_call_filter.cpp`)

`inspect`, `inspect_server` and `connection_closed` as state transformers. Each
returns its decision, the audit events it records and the next filter. The spec
lemmas say once what a call decides and what it does to the pending ids; the
runs of the filter are folds of these steps over arbitrary traffic.
-/

namespace NativeGuard.Protocol

open Json Proxy Process Security

/-! ## §1  Data -/

def deniedToolErrorCode : Int := -32001
def invalidParamsErrorCode : Int := -32602
def correlationCapacityErrorCode : Int := -32002

def deniedToolErrorMessage : Bytes := ascii "Tool call denied by policy"
def invalidParamsErrorMessage : Bytes := ascii "Invalid tools/call parameters"
def correlationCapacityErrorMessage : Bytes :=
  ascii "tools/list correlation capacity exhausted"

structure ToolCallFilter where
  core : ProxyCore
  config : FilterConfig
  pending : PendingTable

/-- What a call returns: its decision, the events it records, the next filter. -/
structure Outcome (δ : Type) where
  decision : δ
  events : List Audit.AuditEvent := []
  filter : ToolCallFilter

namespace ToolCallFilter

def init (policy : PolicyTable) (config : FilterConfig) : ToolCallFilter where
  core := ⟨policy, config.runtime.maxMessageBytes⟩
  config := config
  pending := PendingTable.empty config

variable (f : ToolCallFilter)

/-! ## §2  `inspect` -/

/-- A message that the classifier rejects. -/
def rejectMessage (envelope : Envelope) (message : Bytes) :
    Outcome ClientMessageDecision where
  decision :=
    if envelope.method = ascii "tools/call" ∧ envelope.idJson ≠ [] then
      ⟨.respondWithError, envelope.idJson, invalidParamsErrorCode,
        invalidParamsErrorMessage⟩
    else { action := .drop }
  events :=
    [{ type := if envelope.method = ascii "tools/call" then .toolCall
         else .messageRejected
       decision := .deny
       reason := if envelope.error = .messageTooLarge then .messageTooLarge
         else .malformedMessage
       idJson := envelope.idJson
       encodedMessageBytes := message.length
       includeMessageSize := true }]
  filter := f

def correlationExhausted (envelope : Envelope) (message : Bytes) : Audit.AuditEvent where
  type := .correlationExhausted
  decision := .deny
  reason := .capacityExhausted
  idJson := envelope.idJson
  encodedMessageBytes := message.length
  includeMessageSize := true

/-- A `tools/list` message: a request is forwarded once its id is pending. -/
def inspectToolsList (envelope : Envelope) (message : Bytes) :
    Outcome ClientMessageDecision :=
  if envelope.kind ≠ .request then
    -- there is nothing to wait for, and yet a full table turns it away
    if f.pending.slots.count ≥ f.pending.slots.slots.length then
      { decision := { action := .drop }
        events := [correlationExhausted envelope message]
        filter := f }
    else { decision := {}, filter := f }
  else
    match f.pending.add f.config envelope.idJson with
    | (.added, pending) => { decision := {}, filter := { f with pending := pending } }
    -- no answer, and no event
    | (.duplicate, _) => { decision := { action := .drop }, filter := f }
    | (.capacityExhausted, _) =>
        { decision :=
            if envelope.idJson ≠ [] then
              ⟨.respondWithError, envelope.idJson, correlationCapacityErrorCode,
                correlationCapacityErrorMessage⟩
            else { action := .drop }
          events := [correlationExhausted envelope message]
          filter := f }

def toolCallEvent (decision : Audit.Decision) (reason : Audit.Reason)
    (toolName : Bytes) (envelope : Envelope) (message : Bytes) :
    Audit.AuditEvent where
  type := .toolCall
  decision := decision
  reason := reason
  toolName := toolName
  idJson := envelope.idJson
  encodedMessageBytes := message.length
  includeMessageSize := true

/-- Requests are answered with the error, notifications dropped. -/
def refuse (envelope : Envelope) (errorCode : Int) (errorMessage : Bytes) :
    ClientMessageDecision :=
  if envelope.kind = .request then
    ⟨.respondWithError, envelope.idJson, errorCode, errorMessage⟩
  else { action := .drop }

def inspectToolsCall (envelope : Envelope) (message : Bytes) :
    Outcome ClientMessageDecision :=
  match extract f.config.runtime message with
  | .error _ =>
      { decision := refuse envelope invalidParamsErrorCode invalidParamsErrorMessage
        events := [toolCallEvent .deny .invalidParameters [] envelope message]
        filter := f }
  | .ok params =>
      if (f.core.authorizeToolCall params.name message.length).shouldForward then
        { decision := {}
          events := [toolCallEvent .allow .policyAllowed params.name envelope message]
          filter := f }
      else
        { decision := refuse envelope deniedToolErrorCode deniedToolErrorMessage
          events := [toolCallEvent .deny .policyDenied params.name envelope message]
          filter := f }

def inspect (message : Bytes) : Outcome ClientMessageDecision :=
  let envelope := classify f.config.runtime message
  if envelope.error ≠ .none then f.rejectMessage envelope message
  else if envelope.method ≠ ascii "tools/call" then
    if envelope.method = ascii "tools/list" then f.inspectToolsList envelope message
    else { decision := {}, filter := f }
  else f.inspectToolsCall envelope message

/-! ## §3  `inspect_server` and `connection_closed` -/

def hiddenEvent (envelope : Envelope) (message name : Bytes) : Audit.AuditEvent where
  type := .toolHidden
  decision := .deny
  reason := .policyDenied
  toolName := name
  idJson := envelope.idJson
  encodedMessageBytes := message.length
  includeMessageSize := true

def forget (idJson : Bytes) : ToolCallFilter :=
  { f with pending := (f.pending.remove idJson).2 }

/-- A response to a pending request is filtered before it may pass. -/
def filterResponse (envelope : Envelope) (message : Bytes) :
    Outcome ServerMessageDecision :=
  match rewriteToolsListResponse message f.config.runtime.maxNestingDepth f.core with
  | .rewritten text removedTools =>
      { decision := ⟨.replace, text⟩
        events := removedTools.map (hiddenEvent envelope message)
        filter := f.forget envelope.idJson }
  | .passthrough => { decision := {}, filter := f.forget envelope.idJson }
  | .malformed =>
      { decision := { action := .drop }, filter := f.forget envelope.idJson }

def inspectServer (message : Bytes) : Outcome ServerMessageDecision :=
  let envelope := classify f.config.runtime message
  if envelope.error ≠ .none then
    -- a broken message that carries an id ends the waiting for its answer
    { decision := { action := .drop }
      filter := if envelope.idJson ≠ [] then f.forget envelope.idJson else f }
  else if envelope.kind ≠ .response ∨ (f.pending.remove envelope.idJson).1 = false then
    { decision := {}, filter := f }
  else f.filterResponse envelope message

def connectionClosed : ToolCallFilter := { f with pending := f.pending.clear }

/-- `message_too_large`, the framer's report of an oversized line. -/
def messageTooLarge (encodedMessageBytes : Nat) : Audit.AuditEvent where
  type := .messageRejected
  decision := .deny
  reason := .messageTooLarge
  encodedMessageBytes := encodedMessageBytes
  includeMessageSize := true

/-! ## §4  What a client message does -/

/-- Who answers a client message, and to which envelope. -/
theorem inspect_cases (message : Bytes) :
    ((classify f.config.runtime message).error ≠ .none ∧
        f.inspect message =
          f.rejectMessage (classify f.config.runtime message) message) ∨
      ((classify f.config.runtime message).error = .none ∧
        (classify f.config.runtime message).method = ascii "tools/call" ∧
        f.inspect message =
          f.inspectToolsCall (classify f.config.runtime message) message) ∨
      ((classify f.config.runtime message).error = .none ∧
        (classify f.config.runtime message).method = ascii "tools/list" ∧
        f.inspect message =
          f.inspectToolsList (classify f.config.runtime message) message) ∨
      (classify f.config.runtime message).error = .none ∧
        (classify f.config.runtime message).method ≠ ascii "tools/call" ∧
        (classify f.config.runtime message).method ≠ ascii "tools/list" ∧
        f.inspect message = { decision := {}, filter := f } := by
  unfold inspect
  by_cases herror : (classify f.config.runtime message).error = .none
  · rw [if_neg (not_not.mpr herror)]
    by_cases hcall : (classify f.config.runtime message).method = ascii "tools/call"
    · exact Or.inr (Or.inl ⟨herror, hcall, if_neg (not_not.mpr hcall)⟩)
    · rw [if_pos hcall]
      by_cases hlist : (classify f.config.runtime message).method = ascii "tools/list"
      · exact Or.inr (Or.inr (Or.inl ⟨herror, hlist, if_pos hlist⟩))
      · exact Or.inr (Or.inr (Or.inr ⟨herror, hcall, hlist, if_neg hlist⟩))
  · exact Or.inl ⟨herror, if_pos herror⟩

/-- A call is refused for its parameters, allowed, or refused by the policy. -/
theorem inspectToolsCall_cases (envelope : Envelope) (message : Bytes) :
    (∃ e, extract f.config.runtime message = .error e ∧
        f.inspectToolsCall envelope message =
          { decision := refuse envelope invalidParamsErrorCode invalidParamsErrorMessage
            events := [toolCallEvent .deny .invalidParameters [] envelope message]
            filter := f }) ∨
      ∃ params, extract f.config.runtime message = .ok params ∧
        ((f.core.authorizeToolCall params.name message.length).shouldForward = true ∧
            f.inspectToolsCall envelope message =
              { decision := {}
                events := [toolCallEvent .allow .policyAllowed params.name envelope message]
                filter := f } ∨
          (f.core.authorizeToolCall params.name message.length).shouldForward = false ∧
            f.inspectToolsCall envelope message =
              { decision := refuse envelope deniedToolErrorCode deniedToolErrorMessage
                events := [toolCallEvent .deny .policyDenied params.name envelope message]
                filter := f }) := by
  unfold inspectToolsCall
  cases hextract : extract f.config.runtime message with
  | error e => exact Or.inl ⟨e, rfl, rfl⟩
  | ok params =>
      refine Or.inr ⟨params, rfl, ?_⟩
      cases hforward :
          (f.core.authorizeToolCall params.name message.length).shouldForward with
      | true => exact Or.inl ⟨rfl, if_pos hforward⟩
      | false => exact Or.inr ⟨rfl, if_neg (by simp [hforward])⟩

/-- A listing that is no request is only dropped where no request could become
pending; a request is forwarded, dropped as a repetition, or refused. -/
theorem inspectToolsList_cases (envelope : Envelope) (message : Bytes) :
    (envelope.kind ≠ .request ∧
        (f.inspectToolsList envelope message =
            { decision := { action := .drop }
              events := [correlationExhausted envelope message]
              filter := f } ∨
          f.inspectToolsList envelope message = { decision := {}, filter := f })) ∨
      envelope.kind = .request ∧
        ((f.pending.add f.config envelope.idJson).1 = .added ∧
            f.inspectToolsList envelope message =
              { decision := {}
                filter := { f with pending := (f.pending.add f.config envelope.idJson).2 } } ∨
          (f.pending.add f.config envelope.idJson).1 = .duplicate ∧
            f.inspectToolsList envelope message =
              { decision := { action := .drop }, filter := f } ∨
          (f.pending.add f.config envelope.idJson).1 = .capacityExhausted ∧
            f.inspectToolsList envelope message =
              { decision :=
                  if envelope.idJson ≠ [] then
                    ⟨.respondWithError, envelope.idJson, correlationCapacityErrorCode,
                      correlationCapacityErrorMessage⟩
                  else { action := .drop }
                events := [correlationExhausted envelope message]
                filter := f }) := by
  unfold inspectToolsList
  by_cases hkind : envelope.kind = .request
  · refine Or.inr ⟨hkind, ?_⟩
    rw [if_neg (not_not.mpr hkind)]
    cases f.pending.add f.config envelope.idJson with
    | mk status pending =>
        cases status with
        | added => exact Or.inl ⟨rfl, rfl⟩
        | duplicate => exact Or.inr (Or.inl ⟨rfl, rfl⟩)
        | capacityExhausted => exact Or.inr (Or.inr ⟨rfl, rfl⟩)
  · refine Or.inl ⟨hkind, ?_⟩
    rw [if_pos hkind]
    by_cases hfull : f.pending.slots.count ≥ f.pending.slots.slots.length
    · exact Or.inl (if_pos hfull)
    · exact Or.inr (if_neg hfull)

/-- A listing is reported only where the table is full. -/
theorem inspectToolsList_event {f : ToolCallFilter} {envelope : Envelope} {message : Bytes}
    {event : Audit.AuditEvent} (h : event ∈ (f.inspectToolsList envelope message).events) :
    event = correlationExhausted envelope message := by
  rcases f.inspectToolsList_cases envelope message with
    ⟨-, heq | heq⟩ | ⟨-, ⟨-, heq⟩ | ⟨-, heq⟩ | ⟨-, heq⟩⟩
  · rw [heq] at h
    exact List.mem_singleton.mp h
  · rw [heq] at h
    cases h
  · rw [heq] at h
    cases h
  · rw [heq] at h
    cases h
  · rw [heq] at h
    exact List.mem_singleton.mp h

variable {f}

theorem refuse_ne_forward (envelope : Envelope) (code : Int) (message : Bytes) :
    (refuse envelope code message).action ≠ .forward := by
  unfold refuse
  split <;> exact nofun

/-- A classified `tools/list` request, the only message that becomes pending. -/
def RequestsList (envelope : Envelope) : Prop :=
  envelope.error = .none ∧ envelope.method = ascii "tools/list" ∧
    envelope.kind = .request

instance (envelope : Envelope) : Decidable (RequestsList envelope) := by
  unfold RequestsList
  infer_instance

theorem inspect_of_requestsList {message : Bytes}
    (h : RequestsList (classify f.config.runtime message)) :
    f.inspect message =
      f.inspectToolsList (classify f.config.runtime message) message := by
  rcases f.inspect_cases message with
    ⟨herror, -⟩ | ⟨-, hcall, -⟩ | ⟨-, -, hlist⟩ | ⟨-, -, hmethod, -⟩
  · exact absurd h.1 herror
  · exact absurd (h.2.1.symm.trans hcall) (by decide)
  · exact hlist
  · exact absurd h.2.1 hmethod

theorem inspect_of_call {message : Bytes}
    (herror : (classify f.config.runtime message).error = .none)
    (hcall : (classify f.config.runtime message).method = ascii "tools/call") :
    f.inspect message =
      f.inspectToolsCall (classify f.config.runtime message) message := by
  rcases f.inspect_cases message with
    ⟨hrejected, -⟩ | ⟨-, -, heq⟩ | ⟨-, hlist, -⟩ | ⟨-, hmethod, -⟩
  · exact absurd herror hrejected
  · exact heq
  · exact absurd (hcall.symm.trans hlist) (by decide)
  · exact absurd hcall hmethod

/-- No other message changes the filter. -/
theorem inspect_filter_of_not {message : Bytes}
    (h : ¬ RequestsList (classify f.config.runtime message)) :
    (f.inspect message).filter = f := by
  rcases f.inspect_cases message with
    ⟨-, heq⟩ | ⟨-, -, heq⟩ | ⟨herror, hlist, heq⟩ | ⟨-, -, -, heq⟩
  · rw [heq]
    rfl
  · rw [heq]
    rcases f.inspectToolsCall_cases (classify f.config.runtime message) message with
      ⟨e, -, houtcome⟩ | ⟨params, -, ⟨-, houtcome⟩ | ⟨-, houtcome⟩⟩
    · rw [houtcome]
    · rw [houtcome]
    · rw [houtcome]
  · rw [heq]
    rcases f.inspectToolsList_cases (classify f.config.runtime message) message with
      ⟨-, houtcome | houtcome⟩ | ⟨hkind, -⟩
    · rw [houtcome]
    · rw [houtcome]
    · exact absurd ⟨herror, hlist, hkind⟩ h
  · rw [heq]

/-- A `tools/list` request is forwarded exactly if its id is added. -/
theorem inspect_list_cases {message : Bytes}
    (h : RequestsList (classify f.config.runtime message)) :
    ((f.inspect message).decision.action = .forward ∧
        (f.pending.add f.config (classify f.config.runtime message).idJson).1 =
          .added ∧
        (f.inspect message).filter = { f with pending :=
          (f.pending.add f.config (classify f.config.runtime message).idJson).2 }) ∨
      ((f.inspect message).decision.action ≠ .forward ∧
        (f.pending.add f.config (classify f.config.runtime message).idJson).1 ≠
          .added ∧
        (f.inspect message).filter = f) := by
  rw [inspect_of_requestsList h]
  rcases f.inspectToolsList_cases (classify f.config.runtime message) message with
    ⟨hkind, -⟩ | ⟨-, ⟨hadd, heq⟩ | ⟨hadd, heq⟩ | ⟨hadd, heq⟩⟩
  · exact absurd h.2.2 hkind
  · rw [heq, hadd]
    exact Or.inl ⟨rfl, rfl, rfl⟩
  · rw [heq, hadd]
    exact Or.inr ⟨nofun, nofun, rfl⟩
  · rw [heq, hadd]
    refine Or.inr ⟨?_, nofun, rfl⟩
    dsimp only
    split <;> exact nofun

/-- The filter forwards what it classifies, and only an allowed call. -/
theorem inspect_forward {message : Bytes}
    (h : (f.inspect message).decision.action = .forward) :
    (classify f.config.runtime message).error = .none ∧
      ((classify f.config.runtime message).method = ascii "tools/call" →
        ∃ params, extract f.config.runtime message = .ok params ∧
          f.core.policy.invocationFor params.name = .allow) := by
  rcases f.inspect_cases message with
    ⟨-, heq⟩ | ⟨herror, -, heq⟩ | ⟨herror, hlist, -⟩ | ⟨herror, hcall, -⟩
  · rw [heq] at h
    simp only [rejectMessage] at h
    split at h <;> cases h
  · refine ⟨herror, fun _ => ?_⟩
    rw [heq] at h
    rcases f.inspectToolsCall_cases (classify f.config.runtime message) message with
      ⟨e, -, houtcome⟩ | ⟨params, hextract, ⟨hforward, -⟩ | ⟨-, houtcome⟩⟩
    · rw [houtcome] at h
      exact absurd h (refuse_ne_forward _ _ _)
    · exact ⟨params, hextract, (f.core.authorizeToolCall_forward.mp hforward).2.2⟩
    · rw [houtcome] at h
      exact absurd h (refuse_ne_forward _ _ _)
  · exact ⟨herror, fun hcall => absurd (hlist.symm.trans hcall) (by decide)⟩
  · exact ⟨herror, fun h => absurd h hcall⟩

/-! ## §5  What a server message does -/

theorem forget_of_not_mem {idJson : Bytes} (h : idJson ∉ f.pending.ids) :
    f.forget idJson = f := by
  unfold forget
  rw [PendingTable.remove_of_not_mem h]

/-- A response to no pending request passes as it is. -/
theorem inspectServer_of_not_pending {message : Bytes}
    (herror : (classify f.config.runtime message).error = .none)
    (h : (classify f.config.runtime message).kind ≠ .response ∨
      (classify f.config.runtime message).idJson ∉ f.pending.ids) :
    f.inspectServer message = { decision := {}, filter := f } := by
  unfold inspectServer
  rw [if_neg (not_not.mpr herror), if_pos]
  refine h.imp id fun hmem => ?_
  rw [PendingTable.remove_of_not_mem hmem]

theorem inspectServer_of_pending {message : Bytes}
    (herror : (classify f.config.runtime message).error = .none)
    (hkind : (classify f.config.runtime message).kind = .response)
    (hmem : (classify f.config.runtime message).idJson ∈ f.pending.ids) :
    f.inspectServer message =
      f.filterResponse (classify f.config.runtime message) message := by
  unfold inspectServer
  rw [if_neg (not_not.mpr herror), if_neg]
  rw [PendingTable.remove_fst.mpr hmem]
  simp [hkind]

theorem inspectServer_of_rejected {message : Bytes}
    (herror : (classify f.config.runtime message).error ≠ .none) :
    (f.inspectServer message).decision = { action := .drop } := by
  unfold inspectServer
  rw [if_pos herror]

theorem filterResponse_filter (envelope : Envelope) (message : Bytes) :
    (f.filterResponse envelope message).filter = f.forget envelope.idJson := by
  unfold filterResponse
  cases rewriteToolsListResponse message f.config.runtime.maxNestingDepth f.core <;>
    rfl

/-- A response, or a rejected message, takes its id out of the table. -/
theorem inspectServer_filter {message : Bytes} (hvalid : [] ∉ f.pending.ids) :
    (f.inspectServer message).filter =
      if (classify f.config.runtime message).error ≠ .none ∨
          (classify f.config.runtime message).kind = .response then
        f.forget (classify f.config.runtime message).idJson
      else f := by
  by_cases herror : (classify f.config.runtime message).error = .none
  · by_cases hkind : (classify f.config.runtime message).kind = .response
    · rw [if_pos (Or.inr hkind)]
      by_cases hmem : (classify f.config.runtime message).idJson ∈ f.pending.ids
      · rw [inspectServer_of_pending herror hkind hmem, filterResponse_filter]
      · rw [inspectServer_of_not_pending herror (Or.inr hmem), forget_of_not_mem hmem]
    · rw [if_neg (by simp [herror, hkind]),
        inspectServer_of_not_pending herror (Or.inl hkind)]
  · rw [if_pos (Or.inl herror)]
    unfold inspectServer
    rw [if_pos herror]
    by_cases hid : (classify f.config.runtime message).idJson = []
    · rw [if_neg (not_not.mpr hid), hid, forget_of_not_mem hvalid]
    · rw [if_pos hid]

/-! ## §6  Runs -/

/-- One call on the filter. -/
inductive Input where
  | client (message : Bytes)
  | server (message : Bytes)
  | closed
deriving DecidableEq

def next (f : ToolCallFilter) : Input → ToolCallFilter
  | .client message => (f.inspect message).filter
  | .server message => (f.inspectServer message).filter
  | .closed => f.connectionClosed

def run (f : ToolCallFilter) (inputs : List Input) : ToolCallFilter :=
  inputs.foldl next f

/-- The table is valid for the filter's own configuration. -/
def Valid (f : ToolCallFilter) : Prop := f.pending.Valid f.config

theorem Valid.nil_not_mem (h : f.Valid) : [] ∉ f.pending.ids := by
  intro hmem
  exact h.nonempty [] hmem rfl

theorem valid_init (policy : PolicyTable) (config : FilterConfig) :
    (init policy config).Valid := PendingTable.Valid.empty config

theorem inspect_settings (message : Bytes) :
    (f.inspect message).filter.config = f.config ∧
      (f.inspect message).filter.core = f.core := by
  by_cases h : RequestsList (classify f.config.runtime message)
  · rcases inspect_list_cases h with ⟨-, -, hfilter⟩ | ⟨-, -, hfilter⟩
    · rw [hfilter]
      exact ⟨rfl, rfl⟩
    · rw [hfilter]
      exact ⟨rfl, rfl⟩
  · rw [inspect_filter_of_not h]
    exact ⟨rfl, rfl⟩

theorem inspectServer_settings (message : Bytes) :
    (f.inspectServer message).filter.config = f.config ∧
      (f.inspectServer message).filter.core = f.core := by
  unfold inspectServer
  by_cases herror : (classify f.config.runtime message).error ≠ .none
  · rw [if_pos herror]
    show (if _ then _ else _ : ToolCallFilter).config = _ ∧
      (if _ then _ else _ : ToolCallFilter).core = _
    split <;> exact ⟨rfl, rfl⟩
  · rw [if_neg herror]
    split
    · exact ⟨rfl, rfl⟩
    · rw [filterResponse_filter]
      exact ⟨rfl, rfl⟩

/-- A step keeps the settings. -/
theorem next_settings (f : ToolCallFilter) (input : Input) :
    (f.next input).config = f.config ∧ (f.next input).core = f.core := by
  cases input with
  | client message => exact inspect_settings message
  | server message => exact inspectServer_settings message
  | closed => exact ⟨rfl, rfl⟩

theorem run_settings (f : ToolCallFilter) (inputs : List Input) :
    (f.run inputs).config = f.config ∧ (f.run inputs).core = f.core := by
  induction inputs generalizing f with
  | nil => exact ⟨rfl, rfl⟩
  | cons input inputs ih =>
      obtain ⟨hconfig, hcore⟩ := ih (f.next input)
      obtain ⟨hconfig', hcore'⟩ := next_settings f input
      exact ⟨hconfig.trans hconfig', hcore.trans hcore'⟩

/-- A step keeps the table valid. -/
theorem valid_next (h : f.Valid) (input : Input) : (f.next input).Valid := by
  unfold Valid
  rw [(next_settings f input).1]
  cases input with
  | client message =>
      show (f.inspect message).filter.pending.Valid f.config
      by_cases hlist : RequestsList (classify f.config.runtime message)
      · rcases inspect_list_cases hlist with ⟨-, -, hfilter⟩ | ⟨-, -, hfilter⟩
        · rw [hfilter]
          exact PendingTable.Valid.add h _
        · rw [hfilter]
          exact h
      · rw [inspect_filter_of_not hlist]
        exact h
  | server message =>
      show (f.inspectServer message).filter.pending.Valid f.config
      rw [inspectServer_filter h.nil_not_mem]
      split
      · exact PendingTable.Valid.remove h _
      · exact h
  | closed => exact PendingTable.Valid.clear h

theorem valid_run (h : f.Valid) (inputs : List Input) : (f.run inputs).Valid := by
  induction inputs generalizing f with
  | nil => exact h
  | cons input inputs ih => exact ih (valid_next h input)

/-! ## §7  The pending table as a set -/

theorem inspect_idSet (message : Bytes) :
    (f.inspect message).filter.pending.idSet =
      if RequestsList (classify f.config.runtime message) ∧
          (f.inspect message).decision.action = .forward then
        insert (classify f.config.runtime message).idJson f.pending.idSet
      else f.pending.idSet := by
  by_cases h : RequestsList (classify f.config.runtime message)
  · rcases inspect_list_cases h with ⟨hforward, hadded, hfilter⟩ | ⟨hforward, -, hfilter⟩
    · rw [if_pos ⟨h, hforward⟩, hfilter]
      show (f.pending.add f.config _).2.idSet = _
      rw [PendingTable.idSet_add, if_pos hadded]
    · rw [if_neg fun hboth => hforward hboth.2, hfilter]
  · rw [if_neg fun hboth => h hboth.1, inspect_filter_of_not h]

/-- A forwarded `tools/list` request is new. -/
theorem inspect_idSet_new {message : Bytes}
    (h : RequestsList (classify f.config.runtime message))
    (hforward : (f.inspect message).decision.action = .forward) :
    (classify f.config.runtime message).idJson ∉ f.pending.idSet := by
  rcases inspect_list_cases h with ⟨-, hadded, -⟩ | ⟨hdropped, -⟩
  · rcases f.pending.add_status_cases f.config
        (classify f.config.runtime message).idJson with
      ⟨heq, -⟩ | heq | ⟨t', -, hnew, -⟩
    · rw [heq] at hadded
      cases hadded
    · rw [heq] at hadded
      cases hadded
    · simpa using hnew
  · exact absurd hforward hdropped

theorem inspectServer_idSet (h : f.Valid) (message : Bytes) :
    (f.inspectServer message).filter.pending.idSet =
      if (classify f.config.runtime message).error ≠ .none ∨
          (classify f.config.runtime message).kind = .response then
        f.pending.idSet.erase (classify f.config.runtime message).idJson
      else f.pending.idSet := by
  rw [inspectServer_filter h.nil_not_mem]
  split
  · exact PendingTable.idSet_remove h _
  · rfl

end ToolCallFilter

end NativeGuard.Protocol

import NativeGuard.Audit.AuditSink
import NativeGuard.Protocol.AuditTrail
import NativeGuard.Protocol.MemberSizes
import NativeGuard.Protocol.PartialEnvelope
import NativeGuard.Protocol.ToolsList

/-!
# The audit of a run (`run_child` in `src/main.cpp`)

`run_child` bounds a record by the sink's default while the message limit is the
user's. A record holds a message's id and the name of a tool, which lie side by
side in the message (`recorded_fits`), and so every record of a message fits as
long as the messages are short enough; the longest id that a peer can send shows
how short (`audit_stays_on_iff`).
-/

namespace NativeGuard.Process

open Json Json.Scan Data Audit Protocol ToolCallFilter

/-! ## §1  The limits of a run -/

/-- `parse_bounded_integer`: a decimal text of a nonzero `size_t`. -/
def parseBoundedInteger (text : Bytes) : Option Nat :=
  if text = [] then none
  else if text.all isDigit = true then
    let value := text.foldl (fun value c => 10 * value + (c.toNat - 48)) 0
    if value < 2 ^ 64 ∧ value ≠ 0 then some value else none
  else none

theorem parseBoundedInteger_ne_zero {text : Bytes} {value : Nat}
    (h : parseBoundedInteger text = some value) : value ≠ 0 := by
  unfold parseBoundedInteger at h
  dsimp only at h
  split_ifs at h with hnil hdigits hvalid
  cases h
  exact hvalid.2

/-- A limit is left at its default or set once on the command line. -/
def Settable (default value : Nat) : Prop :=
  value = default ∨ ∃ text, parseBoundedInteger text = some value

/-- The limits that `run_child` runs with. -/
structure RunLimits (limits : RuntimeLimits) : Prop where
  maxMessageBytes : Settable ({} : RuntimeLimits).maxMessageBytes limits.maxMessageBytes
  maxNestingDepth : Settable ({} : RuntimeLimits).maxNestingDepth limits.maxNestingDepth
  maxPendingToolsList :
    Settable ({} : RuntimeLimits).maxPendingToolsList limits.maxPendingToolsList

/-! ## §2  The size of a record -/

def nameSize (type : EventType) (decision : Audit.Decision) (reason : Reason) : Nat :=
  (eventName type).length + (decisionName decision).length + (reasonName reason).length

theorem recordText_length (event : AuditEvent) (timestamp : Timestamp) :
    (recordText event timestamp).length =
      73 + nameSize event.type event.decision event.reason +
      (if event.toolName ≠ [] then 8 + (jsonString event.toolName).length else 0) +
      (if event.idJson ≠ [] then 14 + event.idJson.length else 0) +
      (if event.includeMessageSize = true then
        16 + (decimal event.encodedMessageBytes).length else 0) := by
  have hlengths : (ascii "\x7b\"timestamp\":\"").length = 14 ∧
      (ascii "\",\"event\":\"").length = 11 ∧ (ascii "\",\"decision\":\"").length = 14 ∧
      (ascii "\",\"reason\":\"").length = 12 ∧ (ascii "\"").length = 1 ∧
      (ascii ",\"tool\":").length = 8 ∧ (ascii ",\"request_id\":").length = 14 ∧
      (ascii ",\"message_size\":").length = 16 ∧ (ascii "\x7d").length = 1 := by
    decide
  obtain ⟨h₁, h₂, h₃, h₄, h₅, h₆, h₇, h₈, h₉⟩ := hlengths
  have htime := timestamp.property
  unfold recordText recordTextAt nameSize
  simp only [List.length_append, h₁, h₂, h₃, h₄, h₅, h₉, htime]
  have htool : (if event.toolName ≠ [] then ascii ",\"tool\":" ++ jsonString event.toolName
      else []).length = if event.toolName ≠ [] then 8 + (jsonString event.toolName).length
        else 0 := by
    split
    · rw [List.length_append, h₆]
    · rfl
  have hid : (if event.idJson ≠ [] then ascii ",\"request_id\":" ++ event.idJson
      else []).length = if event.idJson ≠ [] then 14 + event.idJson.length else 0 := by
    split
    · rw [List.length_append, h₇]
    · rfl
  have hsize : (if event.includeMessageSize = true then
      ascii ",\"message_size\":" ++ decimal event.encodedMessageBytes else []).length =
        if event.includeMessageSize = true then
          16 + (decimal event.encodedMessageBytes).length else 0 := by
    split
    · rw [List.length_append, h₈]
    · rfl
  rw [htool, hid, hsize]
  omega

/-- The longest messages of which every record fits. -/
def maxAuditedBytes : Nat := 2097011

theorem decimal_message_length {message : Bytes} (h : message.length ≤ maxAuditedBytes) :
    (decimal message.length).length ≤ 7 :=
  decimal_length_le (by decide) (by unfold maxAuditedBytes at h; omega)

/-- A record without a name: the id and its key stand in the message. -/
theorem unnamed_fits {event : AuditEvent} {message : Bytes} (spare : Nat)
    (timestamp : Timestamp) (hname : event.toolName = [])
    (hfixed : nameSize event.type event.decision event.reason ≤ 37 + spare)
    (hid : idCost event.idJson + spare ≤ message.length)
    (hsize : event.encodedMessageBytes = message.length)
    (hmessage : message.length ≤ maxAuditedBytes) :
    (recordText event timestamp).length ≤ 2 * 1024 * 1024 := by
  have hdigits := decimal_message_length hmessage
  rw [recordText_length, hname, hsize, if_neg (by simp)]
  unfold idCost at hid
  unfold maxAuditedBytes at hmessage
  split_ifs at hid ⊢ <;> omega

/-- A record with a tool's name: the name stands beside the id. -/
theorem named_fits {event : AuditEvent} {message : Bytes} {t : StringText}
    (timestamp : Timestamp) (hname : event.toolName = t.val) (hesc : 0x5C ∉ t.val)
    (hfixed : nameSize event.type event.decision event.reason ≤ 40)
    (hid : idCost event.idJson + t.val.length + 13 ≤ message.length)
    (hsize : event.encodedMessageBytes = message.length)
    (hmessage : message.length ≤ maxAuditedBytes) :
    (recordText event timestamp).length ≤ 2 * 1024 * 1024 := by
  have hdigits := decimal_message_length hmessage
  have hstring := jsonString_length hesc
  rw [recordText_length, hname, hsize]
  unfold idCost at hid
  unfold maxAuditedBytes at hmessage
  split_ifs at hid ⊢ <;> omega

/-! ## §3  The records of one call -/

section calls

variable {f : ToolCallFilter} {message : Bytes}

/-- The default bound of the sink. -/
def maxRecordBytes : Nat := ({} : JsonlAuditSink).maxRecordBytes

def Fits (event : AuditEvent) : Prop :=
  ∀ timestamp : Timestamp, (recordText event timestamp).length ≤ maxRecordBytes

theorem idCost_le (f : ToolCallFilter) (message : Bytes) :
    idCost (classify f.config.runtime message).idJson +
      methodCost (classify f.config.runtime message).method ≤ message.length :=
  (classify_scanned f.config.runtime message).cost

theorem rejectMessage_fits (hmessage : message.length ≤ maxAuditedBytes) :
    ∀ event ∈ (f.rejectMessage (classify f.config.runtime message) message).events,
      Fits event := by
  intro event hevent timestamp
  have hcost := idCost_le f message
  rw [List.mem_singleton.mp hevent]
  have hid : idCost (classify f.config.runtime message).idJson + 0 ≤ message.length := by
    omega
  refine unnamed_fits 0 timestamp rfl ?_ hid rfl hmessage
  dsimp only
  split_ifs <;> decide

theorem correlationExhausted_fits (hmessage : message.length ≤ maxAuditedBytes)
    (hlist : (classify f.config.runtime message).method = ascii "tools/list") :
    Fits (correlationExhausted (classify f.config.runtime message) message) := by
  intro timestamp
  have hcost := idCost_le f message
  have hmethod : methodCost (ascii "tools/list") = 21 := by decide
  rw [hlist, hmethod] at hcost
  have hid : idCost (classify f.config.runtime message).idJson + 7 ≤ message.length := by
    omega
  have hfixed : nameSize .correlationExhausted .deny .capacityExhausted ≤ 37 + 7 := by
    decide
  exact unnamed_fits 7 timestamp rfl hfixed hid rfl hmessage

theorem inspectToolsList_fits (hmessage : message.length ≤ maxAuditedBytes)
    (hlist : (classify f.config.runtime message).method = ascii "tools/list") :
    ∀ event ∈ (f.inspectToolsList (classify f.config.runtime message) message).events,
      Fits event := by
  intro event hevent
  have hfits := correlationExhausted_fits hmessage hlist
  rw [inspectToolsList_event hevent]
  exact hfits

/-- The name of a tool call stands beside the id of the message. -/
theorem extracted_name {params : ToolCallParams}
    (herror : (classify f.config.runtime message).error = .none)
    (hextract : extract f.config.runtime message = .ok params) :
    ∃ t : StringText, params.name = t.val ∧ 0x5C ∉ t.val ∧
      idCost (classify f.config.runtime message).idJson + t.val.length + 13 ≤
        message.length := by
  obtain ⟨hsize, exit, ms, tail, hdoc, hexit, -⟩ := (classify_accepts _ _).mp herror
  obtain ⟨-, -, hdetermined⟩ := classify_determined herror hdoc hexit
  obtain ⟨hmembers, gap, ps, hps, hparams⟩ :=
    (extract_of_text hsize hdoc hexit params).mp hextract
  obtain ⟨gap', ps', hps', hok⟩ := hmembers.params
  obtain ⟨rfl, rfl⟩ : gap = gap' ∧ ps = ps' := by
    rw [hps] at hps'
    simpa using hps'
  obtain ⟨t, ht, hesc⟩ := hok.name
  have hname : params.name = t.val := by
    rw [hparams]
    unfold determinedParams
    simp only [ht]
    rfl
  refine ⟨t, hname, hesc, ?_⟩
  have htext := membersSize_le hdoc
  have hobj := membersSize_obj gap ps
  have hvalue := value_length (show Value.str t ∈ valuesAt (ascii "name") ps by simp [ht])
  have hrender : (Value.str t).render.length = t.val.length + 2 := by
    simp [Value.render]
  have hkeys : (ascii "name").length = 4 ∧ (ascii "params").length = 6 ∧
      (ascii "id").length = 2 := by decide
  have hparamsIn : Value.obj gap ps ∈ valuesAt (ascii "params") ms := by simp [hps]
  rw [hdetermined]
  unfold determinedEnvelope idCost
  dsimp only
  cases hid : valuesAt (ascii "id") ms with
  | nil =>
      have hone := value_length hparamsIn
      simp only [if_pos]
      omega
  | cons v vs =>
      have hboth := value_length_add (by decide : ascii "id" ≠ ascii "params")
        (show v ∈ valuesAt (ascii "id") ms by simp [hid]) hparamsIn
      dsimp only
      split_ifs <;> omega

theorem inspectToolsCall_fits (hmessage : message.length ≤ maxAuditedBytes)
    (herror : (classify f.config.runtime message).error = .none) :
    ∀ event ∈ (f.inspectToolsCall (classify f.config.runtime message) message).events,
      Fits event := by
  intro event hevent timestamp
  have hcost := idCost_le f message
  rcases f.inspectToolsCall_cases (classify f.config.runtime message) message with
    ⟨e, -, heq⟩ | ⟨params, hextract, hparams⟩
  · rw [heq] at hevent
    rw [List.mem_singleton.mp hevent]
    have hid : idCost (classify f.config.runtime message).idJson + 0 ≤ message.length := by
      omega
    have hfixed : nameSize .toolCall .deny .invalidParameters ≤ 37 + 0 := by decide
    exact unnamed_fits 0 timestamp rfl hfixed hid rfl hmessage
  · obtain ⟨t, hname, hesc, hside⟩ := extracted_name herror hextract
    rcases hparams with ⟨-, heq⟩ | ⟨-, heq⟩
    · rw [heq] at hevent
      rw [List.mem_singleton.mp hevent]
      have hfixed : nameSize .toolCall .allow .policyAllowed ≤ 40 := by decide
      exact named_fits timestamp hname hesc hfixed hside rfl hmessage
    · rw [heq] at hevent
      rw [List.mem_singleton.mp hevent]
      have hfixed : nameSize .toolCall .deny .policyDenied ≤ 40 := by decide
      exact named_fits timestamp hname hesc hfixed hside rfl hmessage

theorem inspect_fits (hmessage : message.length ≤ maxAuditedBytes) :
    ∀ event ∈ (f.inspect message).events, Fits event := by
  rcases f.inspect_cases message with
    ⟨-, heq⟩ | ⟨herror, -, heq⟩ | ⟨-, hlist, heq⟩ | ⟨-, -, -, heq⟩
  · rw [heq]
    exact rejectMessage_fits hmessage
  · rw [heq]
    exact inspectToolsCall_fits hmessage herror
  · rw [heq]
    exact inspectToolsList_fits hmessage hlist
  · rw [heq]
    exact fun _ h => absurd h List.not_mem_nil

/-- The tools that a replaced response lists have plain names, beside its id. -/
theorem hidden_name (hreplace : (f.inspectServer message).decision.action = .replace) :
    ∃ v, IsText message v ∧ ∀ tool ∈ toolDefinitions v, ∃ t : StringText,
      toolName tool = t.val ∧ 0x5C ∉ t.val ∧
        idCost (classify f.config.runtime message).idJson + t.val.length + 13 ≤
          message.length := by
  obtain ⟨herror, out, removedTools, hrewrite, -⟩ := f.replaced_of_pending hreplace
  obtain ⟨w, hw⟩ := f.replaced_text hreplace
  obtain ⟨gap₀, ms, rfl, -, -, hdetermined, tail, hdoc⟩ := classified_members herror hw
  obtain ⟨site, gap, es, before, rfl, htools, -⟩ := rewrite_splices hdoc hrewrite
  refine ⟨_, hw, ?_⟩
  have hlisted : toolDefinitions (.obj gap₀ (site.members (.arr gap es))) =
      es.map fun e => e.value := by
    unfold toolDefinitions
    simp only [membersOf, site.valuesAt_result, List.flatMap_cons, List.flatMap_nil,
      List.append_nil, site.valuesAt_tools, elementsOf]
  rw [hlisted]
  intro tool htool
  obtain ⟨e, he, rfl⟩ := List.mem_map.mp htool
  obtain ⟨-, gap', tms, htms, -, t, ht, hesc, -⟩ := htools e he
  have hname : toolName e.value = t.val := by
    rw [htms, toolName, ht]
    rfl
  refine ⟨t, hname, hesc, ?_⟩
  -- from the message down to the name, one container at a time
  have htext := membersSize_le hdoc
  have hresultIn : Value.obj site.gap (site.resultMembers (.arr gap es)) ∈
      valuesAt (ascii "result") (site.members (.arr gap es)) := by
    simp [site.valuesAt_result]
  have hresult := membersSize_obj site.gap (site.resultMembers (.arr gap es))
  have harray := value_length (show Value.arr gap es ∈
    valuesAt (ascii "tools") (site.resultMembers (.arr gap es)) by
      simp [site.valuesAt_tools])
  have htoolIn := @element_length gap _ _ he
  have hobject := membersSize_obj gap' tms
  have hstring := value_length (show Value.str t ∈ valuesAt (ascii "name") tms by simp [ht])
  have hrender : (Value.str t).render.length = t.val.length + 2 := by
    simp [Value.render]
  have hkeys : (ascii "name").length = 4 ∧ (ascii "tools").length = 5 ∧
      (ascii "result").length = 6 ∧ (ascii "id").length = 2 := by decide
  rw [htms] at htoolIn
  rw [hdetermined]
  unfold determinedEnvelope idCost
  dsimp only
  cases hid : valuesAt (ascii "id") (site.members (.arr gap es)) with
  | nil =>
      have hone := value_length hresultIn
      simp only [if_pos]
      omega
  | cons v vs =>
      have hboth := value_length_add (by decide : ascii "id" ≠ ascii "result")
        (show v ∈ valuesAt (ascii "id") (site.members (.arr gap es)) by simp [hid])
        hresultIn
      dsimp only
      split_ifs <;> omega

theorem inspectServer_fits (hmessage : message.length ≤ maxAuditedBytes) :
    ∀ event ∈ (f.inspectServer message).events, Fits event := by
  intro event hevent timestamp
  by_cases hreplace : (f.inspectServer message).decision.action = .replace
  · obtain ⟨v, hv, hnames⟩ := hidden_name hreplace
    rw [(f.inspectServer_replaced hreplace hv).2] at hevent
    obtain ⟨tool, htool, rfl⟩ := List.mem_map.mp hevent
    obtain ⟨t, hname, hesc, hside⟩ := hnames tool (List.mem_filter.mp htool).1
    have hfixed : nameSize .toolHidden .deny .policyDenied ≤ 40 := by decide
    exact named_fits timestamp hname hesc hfixed hside rfl hmessage
  · rw [f.inspectServer_events_of_not_replaced hreplace] at hevent
    cases hevent

end calls

/-! ## §4  Every record of a run -/

/-- The messages of a call are within `limit` bytes; what the framer reports is
the size of a longer one, a `size_t`. -/
def Within (limit : Nat) : Call → Prop
  | .input (.client message) => message.length ≤ limit
  | .input (.server message) => message.length ≤ limit
  | .input .closed => True
  | .messageTooLarge _ encodedMessageBytes => encodedMessageBytes < 2 ^ 64

theorem messageTooLarge_fits {encodedMessageBytes : Nat}
    (h : encodedMessageBytes < 2 ^ 64) : Fits (messageTooLarge encodedMessageBytes) := by
  intro timestamp
  have hdigits : (decimal encodedMessageBytes).length ≤ 20 :=
    decimal_length_le (by omega) (by omega)
  have hfixed : nameSize .messageRejected .deny .messageTooLarge = 37 := by decide
  have hbound : maxRecordBytes = 2097152 := rfl
  rw [recordText_length]
  simp only [messageTooLarge, hfixed, hbound, ne_eq, not_true_eq_false, if_false, if_true]
  omega

theorem recorded_fits (f : ToolCallFilter) {call : Call} (h : Within maxAuditedBytes call) :
    ∀ event ∈ f.recorded call, Fits event := by
  rcases call with input | ⟨direction, encodedMessageBytes⟩
  · cases input with
    | client message => exact inspect_fits h
    | server message => exact inspectServer_fits h
    | closed => exact fun _ hevent => absurd hevent List.not_mem_nil
  · exact List.forall_mem_singleton.mpr (messageTooLarge_fits h)

theorem trail_fits (f : ToolCallFilter) {calls : List Call}
    (h : ∀ call ∈ calls, Within maxAuditedBytes call) :
    ∀ event ∈ f.trail calls, Fits event := by
  induction calls generalizing f with
  | nil => exact fun _ hevent => absurd hevent List.not_mem_nil
  | cons call calls ih =>
      intro event hevent
      rcases List.mem_append.mp hevent with hfirst | hrest
      · exact recorded_fits f (h call List.mem_cons_self) event hfirst
      · exact ih (f.nextCall call) (fun c hc => h c (List.mem_cons_of_mem _ hc)) event hrest

/-- Every record of every run fits, and the sink fails only with its stream. -/
def AuditStaysOn (limits : RuntimeLimits) : Prop :=
  ∀ (policy : Security.PolicyTable) (calls : List Call),
    (∀ call ∈ calls, Within limits.maxMessageBytes call) →
    ∀ deliveries : List Delivery,
      deliveries.map (fun d => d.event) = (init policy { runtime := limits }).trail calls →
      (∀ d ∈ deliveries, formatRecord d.event d.timestamp maxRecordBytes ≠ none) ∧
        ((({} : JsonlAuditSink).recordAll deliveries).failed = true →
          ∃ d ∈ deliveries, d.streamGood = false)

theorem formatRecord_none {event : AuditEvent} {timestamp : Timestamp} :
    formatRecord event timestamp maxRecordBytes = none ↔
      maxRecordBytes < (recordText event timestamp).length := by
  rw [formatRecord_eq event timestamp (by decide)]
  split
  · exact iff_of_false nofun (by omega)
  · exact iff_of_true rfl (by omega)

theorem Within.mono {limit limit' : Nat} (hle : limit ≤ limit') {call : Call}
    (h : Within limit call) : Within limit' call := by
  rcases call with input | ⟨direction, encodedMessageBytes⟩
  · cases input with
    | client message => exact Nat.le_trans h hle
    | server message => exact Nat.le_trans h hle
    | closed => trivial
  · exact h

theorem staysOn_of_le {limits : RuntimeLimits}
    (hlimit : limits.maxMessageBytes ≤ maxAuditedBytes) : AuditStaysOn limits := by
  intro policy calls hcalls deliveries htrail
  have hfits : ∀ d ∈ deliveries,
      formatRecord d.event d.timestamp maxRecordBytes ≠ none := by
    intro d hd hnone
    have hevent : d.event ∈ (init policy { runtime := limits }).trail calls := by
      rw [← htrail]
      exact List.mem_map_of_mem hd
    have hle := trail_fits _ (fun call hcall => (hcalls call hcall).mono hlimit)
      d.event hevent d.timestamp
    have hlt := formatRecord_none.mp hnone
    omega
  refine ⟨hfits, fun hfailed => ?_⟩
  obtain ⟨d, hd, hformat | hstream⟩ := (JsonlAuditSink.recordAll_failed rfl deliveries).mp
    hfailed
  · exact absurd hformat (hfits d hd)
  · exact ⟨d, hd, hstream⟩

/-! ## §5  The longest id -/

/-- An id member whose token is `n + 1` ones. -/
def onesText (n : Nat) : NumberText :=
  ⟨List.replicate (n + 1) 0x31, [], List.replicate (n + 1) 0x31, [], [], by simp, Or.inl rfl,
    Or.inr ⟨0x31, List.replicate n 0x31, rfl, by decide, by decide, by
      intro b hb
      rw [List.eq_of_mem_replicate hb]
      decide⟩, Or.inl rfl, Or.inl rfl⟩

def idMember (n : Nat) : Member Value :=
  .compact (plainString (ascii "id") (.refl true)) (.num (onesText n))

/-- A message that breaks off behind an id of `n + 1` digits. -/
def brokenMessage (n : Nat) : Bytes := 0x7B :: (memberBody (idMember n) ++ openMembers [])

theorem brokenMessage_length (n : Nat) : (brokenMessage n).length = n + 7 := by
  have hkey : (idMember n).key.val = ascii "id" := rfl
  have hvalue : (idMember n).value.render = List.replicate (n + 1) 0x31 := by
    simp [idMember, Member.compact, Value.render, onesText]
  have hgaps : (idMember n).preColon.val = [] ∧ (idMember n).postColon.val = [] ∧
      (idMember n).trail.val = [] := ⟨rfl, rfl, rfl⟩
  obtain ⟨h₁, h₂, h₃⟩ := hgaps
  have hlength : (ascii "id").length = 2 := by decide
  simp only [brokenMessage, memberBody, hkey, hvalue, h₁, h₂, h₃, openMembers,
    List.length_cons, List.length_append, List.length_replicate, List.length_nil, hlength]
  omega

/-- The classifier keeps the id of the broken message. -/
theorem classify_broken {limits : RuntimeLimits} {n : Nat}
    (hlimit : n + 7 ≤ limits.maxMessageBytes) :
    classify limits (brokenMessage n) =
      ⟨.invalid, .number, List.replicate (n + 1) 0x31, [], .malformedJson⟩ := by
  have hrender : (Value.num (onesText n)).render = List.replicate (n + 1) 0x31 := by
    simp [Value.render, onesText]
  have hknown : 0x5C ∉ ascii "id" ∧ ascii "id" ≠ ascii "jsonrpc" ∧
      ascii "id" ≠ ascii "method" := by decide
  obtain ⟨hescape, hversion, hmethod⟩ := hknown
  have hok : memberOk limits (ascii "id") (.num (onesText n)) := by
    unfold memberOk
    rw [if_neg hversion, if_neg hmethod, if_pos rfl]
    rfl
  have hmembers : (envelopeReader limits).members {} [idMember n] =
      .ok (finalState [idMember n]) := by
    have hone := envelope_oncePerKey limits
    have hmember := (hone.member {} (ascii "id") (.num (onesText n)) _).mpr
      ⟨seen_init _, hok, rfl⟩
    exact except_bind_ok.mpr ⟨(), (hone.key {} (ascii "id")).mpr hescape,
      except_bind_ok.mpr ⟨_, hmember, rfl⟩⟩
  have hstate : finalState [idMember n] =
      { sawId := true, idKind := .number, idJson := List.replicate (n + 1) 0x31 } := by
    show ClassifyState.update {} (ascii "id") (.num (onesText n)) = _
    unfold ClassifyState.update
    rw [if_neg hversion, if_neg hmethod, if_pos rfl, hrender]
    rfl
  unfold classify
  rw [if_neg (by rw [brokenMessage_length]; omega)]
  unfold envelopeDocument brokenMessage
  rw [ObjectReader.document_broken _ hmembers, hstate]
  rfl

def brokenEvent (n : Nat) : AuditEvent where
  type := .messageRejected
  decision := .deny
  reason := .malformedMessage
  idJson := List.replicate (n + 1) 0x31
  encodedMessageBytes := n + 7
  includeMessageSize := true

theorem broken_recorded {limits : RuntimeLimits} (policy : Security.PolicyTable) {n : Nat}
    (hlimit : n + 7 ≤ limits.maxMessageBytes) :
    (init policy { runtime := limits }).trail [.input (.client (brokenMessage n))] =
      [brokenEvent n] := by
  show ((init policy { runtime := limits }).inspect (brokenMessage n)).events ++ [] = _
  have hruntime : (init policy { runtime := limits }).config.runtime = limits := rfl
  unfold inspect
  rw [List.append_nil, hruntime, classify_broken hlimit, if_pos (by simp)]
  unfold rejectMessage brokenEvent
  rw [brokenMessage_length]
  rfl

theorem brokenEvent_length (n : Nat) (timestamp : Timestamp) :
    (recordText (brokenEvent n) timestamp).length =
      141 + n + (decimal (n + 7)).length := by
  have hfixed : nameSize .messageRejected .deny .malformedMessage = 37 := by decide
  rw [recordText_length]
  simp only [brokenEvent, hfixed, ne_eq, not_true_eq_false, if_false, if_true,
    List.replicate_succ, reduceCtorEq, not_false_eq_true, List.length_cons,
    List.length_replicate]
  omega

/-- Where longer messages are let through, the broken message of one byte more
switches the sink off, on a stream that stays good. -/
theorem oversized_id_fails {limits : RuntimeLimits}
    (hlimit : maxAuditedBytes < limits.maxMessageBytes) : ¬ AuditStaysOn limits := by
  intro hstays
  have hsize : 2097005 + 7 ≤ limits.maxMessageBytes := by
    unfold maxAuditedBytes at hlimit
    omega
  have hdigits : (decimal (2097005 + 7)).length = 7 := by simp [decimal]
  obtain ⟨timestamp⟩ : Nonempty Timestamp := ⟨⟨List.replicate 20 0x30, by simp⟩⟩
  obtain ⟨policy⟩ : Nonempty Security.PolicyTable := ⟨.ofDefaults {}⟩
  have hwithin : ∀ call ∈ [Call.input (.client (brokenMessage 2097005))],
      Within limits.maxMessageBytes call := by
    intro call hcall
    rw [List.mem_singleton.mp hcall]
    show (brokenMessage 2097005).length ≤ limits.maxMessageBytes
    rw [brokenMessage_length]
    exact hsize
  obtain ⟨hfits, -⟩ := hstays policy _ hwithin
    [⟨brokenEvent 2097005, timestamp, true⟩] (broken_recorded policy hsize).symm
  apply hfits _ List.mem_cons_self
  apply formatRecord_none.mpr
  have hbound : maxRecordBytes = 2097152 := rfl
  rw [brokenEvent_length, hdigits, hbound]
  omega

/-- The audit stays on for every run exactly if no message may be longer than
`maxAuditedBytes`. -/
theorem audit_stays_on_iff (limits : RuntimeLimits) :
    AuditStaysOn limits ↔ limits.maxMessageBytes ≤ maxAuditedBytes := by
  constructor
  · intro hstays
    by_contra hlimit
    exact oversized_id_fails (by omega) hstays
  · exact staysOn_of_le

/-- The command line accepts limits under which a message switches the audit off. -/
theorem accepted_limits_disable_audit :
    ¬ ∀ limits, RunLimits limits → AuditStaysOn limits := by
  intro hstays
  have hparse : parseBoundedInteger (ascii "4194304") = some 4194304 := by decide
  refine oversized_id_fails ?_ (hstays { maxMessageBytes := 4194304 } ?_)
  · show maxAuditedBytes < 4194304
    decide
  · exact ⟨Or.inr ⟨_, hparse⟩, Or.inl rfl, Or.inl rfl⟩

end NativeGuard.Process

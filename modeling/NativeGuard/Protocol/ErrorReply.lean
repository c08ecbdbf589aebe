import NativeGuard.Process.OutputBuffer
import NativeGuard.Protocol.Acceptance
import NativeGuard.Protocol.PartialEnvelope

/-!
# Error replies

What the client gets for a message that the guard answers itself. The filter
answers with an id that `classify` has scanned to its end, whether it accepted
the message or gave up on it (`respond_cases`), and so the reply is the text of
a tree (`errorLine_render`) that every classifier takes for a response with
that id.
-/

namespace NativeGuard.Protocol

open Json Json.Scan Process Data

/-! ## §1  The reply as a tree -/

/-- The members of a reply with the id `id`. -/
def replyMembers (id : Value) (code : Int) (text : StringText) : List (Member Value) :=
  [Member.compact (plainString (ascii "jsonrpc") (.refl true))
      (.str (plainString (ascii "2.0") (.refl true))),
    Member.compact (plainString (ascii "id") (.refl true)) id,
    Member.compact (plainString (ascii "error") (.refl true)) (.obj noGap
      [Member.compact (plainString (ascii "code") (.refl true)) (.num (numberText code)),
        Member.compact (plainString (ascii "message") (.refl true)) (.str text)])]

section reply

variable {decision : ClientMessageDecision} {id : Value} {text : StringText}

theorem errorLine_render (hid : decision.idJson = id.render)
    (htext : decision.errorMessage = text.val) :
    errorLine decision =
      (Value.obj noGap (replyMembers id decision.errorCode text)).render := by
  have hopen : ascii "\x7b\"jsonrpc\":\"2.0\",\"id\":" =
      0x7B :: 0x22 :: (ascii "jsonrpc" ++ 0x22 :: 0x3A :: 0x22 :: (ascii "2.0" ++
        0x22 :: 0x2C :: 0x22 :: (ascii "id" ++ [0x22, 0x3A]))) := by decide
  have herror : ascii ",\"error\":\x7b\"code\":" =
      0x2C :: 0x22 :: (ascii "error" ++ 0x22 :: 0x3A :: 0x7B :: 0x22 :: (ascii "code" ++
        [0x22, 0x3A])) := by decide
  have hmessage : ascii ",\"message\":\"" =
      0x2C :: 0x22 :: (ascii "message" ++ [0x22, 0x3A, 0x22]) := by decide
  have hclose : ascii "\"\x7d\x7d" = [0x22, 0x7D, 0x7D] := by decide
  unfold errorLine
  rw [hid, htext, hopen, herror, hmessage, hclose]
  simp [replyMembers, Value.render, renderMembers_open, openMembers, plainString,
    numberText]

theorem errorLine_isText (hid : decision.idJson = id.render)
    (htext : decision.errorMessage = text.val) :
    IsText (errorLine decision)
      (.obj noGap (replyMembers id decision.errorCode text)) :=
  ⟨noGap, noGap, by rw [errorLine_render hid htext]; simp⟩

/-- A reply is a response with its id and an error, however deep the limits. -/
theorem replyMembers_envelope (code : Int) {kind : IdKind}
    (hkind : idKindOf id = some kind) :
    EnvelopeMembers (replyMembers id code text) ∧
      determinedEnvelope (replyMembers id code text) =
        { kind := .response, idKind := kind, idJson := id.render } := by
  have hversion : valuesAt (ascii "jsonrpc") (replyMembers id code text) =
      [.str (plainString (ascii "2.0") (.refl true))] := rfl
  have hmethod : valuesAt (ascii "method") (replyMembers id code text) = [] := rfl
  have hid : valuesAt (ascii "id") (replyMembers id code text) = [id] := rfl
  have hresult : valuesAt (ascii "result") (replyMembers id code text) = [] := rfl
  have herror : (valuesAt (ascii "error") (replyMembers id code text)).length = 1 := rfl
  refine ⟨⟨?_, ⟨_, hversion, _, rfl, rfl⟩, ?_, Or.inr ⟨hmethod, ?_, ?_⟩⟩, ?_⟩
  · simp only [replyMembers, List.forall_mem_cons]
    exact ⟨plainString_unescaped (ascii "jsonrpc") (by decide),
      plainString_unescaped (ascii "id") (by decide),
      plainString_unescaped (ascii "error") (by decide),
      fun _ h => absurd h List.not_mem_nil⟩
  · intro v hv
    rw [hid, List.mem_singleton] at hv
    rw [hv, hkind]
    rfl
  · rw [hid]
    rfl
  · rw [hresult, herror]
    rfl
  · unfold determinedEnvelope
    simp only [hmethod, hid, if_pos, hkind, Option.getD_some]

theorem replyMembers_skipped {maxDepth : Nat} (code : Int) (h : 2 ≤ maxDepth) :
    SkippedWithin maxDepth (replyMembers id code text) := by
  simp only [SkippedWithin, replyMembers, List.forall_mem_cons]
  refine ⟨fun hkey => absurd List.mem_cons_self hkey,
    fun hkey => absurd (List.mem_cons_of_mem _ (List.mem_cons_of_mem _
      List.mem_cons_self)) hkey, fun _ => ?_, fun _ h => absurd h List.not_mem_nil⟩
  show 1 + (1 + max 0 (max 0 0)) ≤ maxDepth
  omega

/-- Every classifier with room for the line takes it for the response to `id`. -/
theorem errorLine_classified (hid : decision.idJson = id.render)
    (htext : decision.errorMessage = text.val) {kind : IdKind}
    (hkind : idKindOf id = some kind) {limits : RuntimeLimits}
    (hsize : (errorLine decision).length ≤ limits.maxMessageBytes)
    (hdepth : 2 ≤ limits.maxNestingDepth) :
    classify limits (errorLine decision) =
      { kind := .response, idKind := kind, idJson := id.render } := by
  obtain ⟨hms, hdetermined⟩ := @replyMembers_envelope id text decision.errorCode _ hkind
  obtain ⟨tail, hdoc⟩ := documentText_of_isText (errorLine_isText hid htext)
  have hok := (classify_accepts limits _).mpr ⟨hsize, _, _, tail, hdoc,
    exitOf_ne_trailing _, hms, replyMembers_skipped _ hdepth⟩
  rw [← hdetermined]
  exact (classify_determined hok hdoc (exitOf_ne_trailing _)).2.2

/-- A reply is one line. -/
theorem errorLine_no_newline (hid : decision.idJson = id.render)
    (htext : decision.errorMessage = text.val) {kind : IdKind}
    (hkind : idKindOf id = some kind) : 0x0A ∉ errorLine decision := by
  have hprintable : ∀ b ∈ errorLine decision, 0x20 ≤ b := by
    have hcode : ∀ b ∈ toChars decision.errorCode, 0x20 ≤ b :=
      (numberText decision.errorCode).property.printable
    unfold errorLine
    rw [hid, htext]
    simp only [List.forall_mem_append]
    exact ⟨printable_of_all (by decide), idKindOf_printable hkind,
      printable_of_all (by decide), hcode, printable_of_all (by decide),
      text.property.printable, printable_of_all (by decide)⟩
  intro hmem
  exact absurd (hprintable _ hmem) (by decide)

end reply

/-! ## §2  What the filter answers -/

namespace ToolCallFilter

variable {f : ToolCallFilter} {message : Bytes}

/-- The errors that the filter answers with. -/
def replyTexts : List (Int × Bytes) :=
  [(invalidParamsErrorCode, invalidParamsErrorMessage),
    (deniedToolErrorCode, deniedToolErrorMessage),
    (correlationCapacityErrorCode, correlationCapacityErrorMessage)]

/-- A classified request has an id. -/
theorem request_idJson (herror : (classify f.config.runtime message).error = .none)
    (hkind : (classify f.config.runtime message).kind = .request) :
    (classify f.config.runtime message).idJson ≠ [] := by
  obtain ⟨-, exit, ms, tail, hdoc, hexit, -⟩ := (classify_accepts _ _).mp herror
  obtain ⟨-, -, hdetermined⟩ := classify_determined herror hdoc hexit
  rw [hdetermined] at hkind ⊢
  unfold determinedEnvelope at hkind ⊢
  dsimp only at hkind ⊢
  cases hid : valuesAt (ascii "id") ms with
  | nil =>
      rw [hid] at hkind
      split at hkind <;> cases hkind
  | cons v vs => exact render_ne_nil v

/-- The refusals of a tool call: one of two errors, or nothing. -/
theorem inspectToolsCall_decision (envelope : Envelope) :
    (f.inspectToolsCall envelope message).decision = {} ∨
      ∃ reply ∈ replyTexts, (f.inspectToolsCall envelope message).decision =
        refuse envelope reply.1 reply.2 := by
  rcases f.inspectToolsCall_cases envelope message with
    ⟨e, -, heq⟩ | ⟨params, -, ⟨-, heq⟩ | ⟨-, heq⟩⟩
  · rw [heq]
    exact Or.inr ⟨_, List.mem_cons_self, rfl⟩
  · rw [heq]
    exact Or.inl rfl
  · rw [heq]
    exact Or.inr ⟨_, List.mem_cons_of_mem _ List.mem_cons_self, rfl⟩

/-- An answer carries the scanned id and one of the filter's errors. -/
theorem respond_cases (h : (f.inspect message).decision.action = .respondWithError) :
    (classify f.config.runtime message).idJson ≠ [] ∧
      ∃ reply ∈ replyTexts, (f.inspect message).decision =
        ⟨.respondWithError, (classify f.config.runtime message).idJson, reply.1,
          reply.2⟩ := by
  rcases f.inspect_cases message with
    ⟨-, heq⟩ | ⟨herror, -, heq⟩ | ⟨herror, -, heq⟩ | ⟨-, -, -, heq⟩
  · -- a rejected call is answered once its id has been scanned
    rw [heq] at h ⊢
    unfold rejectMessage at h ⊢
    dsimp only at h ⊢
    split at h
    · rename_i hcall
      rw [if_pos hcall]
      exact ⟨hcall.2, _, List.mem_cons_self, rfl⟩
    · cases h
  · rw [heq] at h ⊢
    rcases @inspectToolsCall_decision f message
      (classify f.config.runtime message) with hforward | ⟨reply, hreply, hrefuse⟩
    · rw [hforward] at h
      cases h
    · rw [hrefuse] at h ⊢
      unfold refuse at h ⊢
      split at h
      · rename_i hkind
        rw [if_pos hkind]
        exact ⟨request_idJson herror hkind, reply, hreply, rfl⟩
      · cases h
  · rw [heq] at h ⊢
    rcases f.inspectToolsList_cases (classify f.config.runtime message) message with
      ⟨-, houtcome | houtcome⟩ | ⟨hkind, ⟨-, houtcome⟩ | ⟨-, houtcome⟩ | ⟨-, houtcome⟩⟩
    · rw [houtcome] at h
      cases h
    · rw [houtcome] at h
      cases h
    · rw [houtcome] at h
      cases h
    · rw [houtcome] at h
      cases h
    · rw [houtcome]
      have hid := request_idJson herror hkind
      dsimp only
      rw [if_pos hid]
      exact ⟨hid, (correlationCapacityErrorCode, correlationCapacityErrorMessage),
        List.mem_cons_of_mem _ (List.mem_cons_of_mem _ List.mem_cons_self), rfl⟩
  · rw [heq] at h
    cases h

/-- An answer is made of a scanned id, one of three codes and a plain text. -/
theorem respond_parts (h : (f.inspect message).decision.action = .respondWithError) :
    ∃ (v : Value) (text : StringText),
      idKindOf v = some (classify f.config.runtime message).idKind ∧
      (classify f.config.runtime message).idJson = v.render ∧
      (f.inspect message).decision.idJson = v.render ∧
      (f.inspect message).decision.errorMessage = text.val ∧
      (f.inspect message).decision.errorMessage.length ≤ 41 ∧
      (toChars (f.inspect message).decision.errorCode).length = 6 := by
  obtain ⟨hid, reply, hreply, hdecision⟩ := respond_cases h
  obtain ⟨v, hkind, hjson⟩ :=
    (classify_scanned f.config.runtime message).id.resolve_left fun h => hid h.1
  have htexts : replyTexts.all (fun reply => reply.2.all isPlainByte &&
      (decide (reply.2.length ≤ 41) && decide ((toChars reply.1).length = 6))) = true := by
    decide
  have hreply := List.all_eq_true.mp htexts reply hreply
  rw [Bool.and_eq_true, Bool.and_eq_true, decide_eq_true_eq, decide_eq_true_eq] at hreply
  obtain ⟨hplain, hlength, hcode⟩ := hreply
  rw [hdecision]
  exact ⟨v, plainString reply.2 hplain, hkind, hjson, hjson, rfl, hlength, hcode⟩

/-- The filter answers calls and listings only. -/
theorem respond_method (h : (f.inspect message).decision.action = .respondWithError) :
    (classify f.config.runtime message).method = ascii "tools/call" ∨
      (classify f.config.runtime message).method = ascii "tools/list" := by
  rcases f.inspect_cases message with
    ⟨-, heq⟩ | ⟨-, hcall, -⟩ | ⟨-, hlist, -⟩ | ⟨-, -, -, heq⟩
  · left
    rw [heq] at h
    unfold rejectMessage at h
    dsimp only at h
    split at h
    · next hboth => exact hboth.1
    · cases h
  · exact Or.inl hcall
  · exact Or.inr hlist
  · rw [heq] at h
    cases h

/-- A classified request is dropped only as a repetition. -/
theorem request_dropped (herror : (classify f.config.runtime message).error = .none)
    (hkind : (classify f.config.runtime message).kind = .request)
    (hdrop : (f.inspect message).decision.action = .drop) :
    (classify f.config.runtime message).method = ascii "tools/list" ∧
      (classify f.config.runtime message).idJson ∈ f.pending.ids := by
  rcases f.inspect_cases message with
    ⟨hrejected, -⟩ | ⟨-, -, heq⟩ | ⟨-, hlist, heq⟩ | ⟨-, -, -, heq⟩
  · exact absurd herror hrejected
  · rw [heq] at hdrop
    rcases @inspectToolsCall_decision f message
      (classify f.config.runtime message) with hforward | ⟨reply, -, hrefuse⟩
    · rw [hforward] at hdrop
      cases hdrop
    · rw [hrefuse] at hdrop
      unfold refuse at hdrop
      rw [if_pos hkind] at hdrop
      cases hdrop
  · refine ⟨hlist, ?_⟩
    rw [heq] at hdrop
    rcases f.inspectToolsList_cases (classify f.config.runtime message) message with
      ⟨hother, -⟩ | ⟨-, ⟨-, houtcome⟩ | ⟨hadd, -⟩ | ⟨-, houtcome⟩⟩
    · exact absurd hkind hother
    · rw [houtcome] at hdrop
      cases hdrop
    · exact PendingTable.mem_of_duplicate hadd
    · rw [houtcome] at hdrop
      dsimp only at hdrop
      rw [if_pos (request_idJson herror hkind)] at hdrop
      cases hdrop
  · rw [heq] at hdrop
    cases hdrop

/-- What becomes of a client message: one of three outcomes, no request lost but
a repeated one, and an answer in one line that reads as the response to the id
that was scanned. -/
def AccountsFor (f : ToolCallFilter) (message : Bytes) : Prop :=
  (∃! action, action ∈ [.forward, .drop, .respondWithError] ∧
      (f.inspect message).decision.action = action) ∧
    ((classify f.config.runtime message).error = .none →
      (classify f.config.runtime message).kind = .request →
      (f.inspect message).decision.action = .drop →
        (classify f.config.runtime message).method = ascii "tools/list" ∧
          (classify f.config.runtime message).idJson ∈ f.pending.ids) ∧
    ((f.inspect message).decision.action = .respondWithError →
      ∃ line, Writes (appendJsonRpcError (f.inspect message).decision) (line ++ [0x0A]) ∧
        0x0A ∉ line ∧
        ∀ limits : RuntimeLimits, line.length ≤ limits.maxMessageBytes →
          2 ≤ limits.maxNestingDepth → classify limits line =
            { kind := .response
              idKind := (classify f.config.runtime message).idKind
              idJson := (classify f.config.runtime message).idJson })

/-- Every client message is accounted for, in every state of the filter. -/
theorem client_message_accounted (f : ToolCallFilter) (message : Bytes) :
    f.AccountsFor message := by
  refine ⟨⟨_, ⟨?_, rfl⟩, fun action h => h.2.symm⟩, fun herror hkind hdrop =>
    request_dropped herror hkind hdrop, fun h => ?_⟩
  · cases (f.inspect message).decision.action <;> decide
  · obtain ⟨v, text, hkind, hjson, hid, htext, -, hcode⟩ := respond_parts h
    have hbuffer : (toChars (f.inspect message).decision.errorCode).length ≤
        codeBufferBytes := by
      rw [hcode]
      decide
    refine ⟨_, writes_appendJsonRpcError hbuffer, ?_, fun limits hsize hdepth => ?_⟩
    · exact errorLine_no_newline hid htext hkind
    · rw [errorLine_classified hid htext hkind hsize hdepth, hjson]

end ToolCallFilter

end NativeGuard.Protocol

import NativeGuard.Protocol.Envelope
import NativeGuard.Protocol.InventoryResponse
import NativeGuard.Protocol.Outcomes

/-!
# The second parse of a response

`inspect` classifies a message before it parses it as a response, with the same size
and nesting limits. `parses_agree` says that the second parse never blames what the
classifier has checked: only the shape of the result is left to be wrong.
-/

namespace NativeGuard.Protocol.Inventory

open Json Json.Scan Data

variable {limits : InventoryLimits}

/-! ## §1  The errors of a result -/

/-- The errors that blame the envelope, the request or the limits of the classifier. -/
def envelopeErrors : List InventoryError :=
  [.messageTooLarge, .invalidEnvelope, .unsupportedJsonrpcVersion, .wrongResponseId,
    .missingResult, .excessiveNesting]

def BlamesShape (e : InventoryError) : Prop := e ∉ envelopeErrors

instance (e : InventoryError) : Decidable (BlamesShape e) := by
  unfold BlamesShape
  infer_instance

theorem orOversized_blames {output : Option Bytes} {e : InventoryError}
    (h : orOversized output = .error e) : BlamesShape e := by
  cases output with
  | some output => cases h
  | none =>
      cases h
      decide

theorem checkKey_blames {σ : Type} (st : σ) (key : StringToken) (e : InventoryError)
    (h : checkKey st key = .error e) : BlamesShape e := by
  unfold checkKey at h
  split at h
  · cases h
    decide
  · cases h

theorem nesting_member {gap : Gap} {ms : List (Member Value)} {m : Member Value}
    (hm : m ∈ ms) : m.value.nesting + 1 ≤ (Value.obj gap ms).nesting :=
  nesting_obj_le.mp (le_refl (Value.obj gap ms).nesting) m hm

theorem nesting_element {gap : Gap} {es : List (Element Value)} {x : Element Value}
    (hx : x ∈ es) : x.value.nesting + 1 ≤ (Value.arr gap es).nesting :=
  nesting_arr_le.mp (le_refl (Value.arr gap es).nesting) x hx

/-- The writer does not run out of levels on a value that is nested within them. -/
theorem canonicalizeAt_blames (maxBytes levels : Nat) (output : Bytes) (v : Value)
    (h : v.nesting < levels) :
    (canonicalizeAt maxBytes levels output).ReportsAt BlamesShape v := by
  induction levels generalizing output v with
  | zero => exact absurd h (Nat.not_lt_zero _)
  | succ levels ih =>
      have hout : ∀ text e, orOversized (append maxBytes text output) = .error e →
          BlamesShape e := fun _ _ => orOversized_blames
      refine .onByte (fun _ => .check (.captured (.string (by decide))) fun _ => hout _) ?_
      refine .onByte (fun _ => ?_) ?_
      · -- the members are written one level down, each to an output of its own
        refine .object (by decide) ?_ ?_ ?_
        · intro members key e hkey
          change (if _ then _ else _) = _ at hkey
          split at hkey
          · cases hkey
            decide
          · cases hkey
        · rintro members gap ms rfl m hm
          have hdeep := @nesting_member gap ms m hm
          exact .map _ (ih [] m.value (by omega))
        · intro members exit e hfinish
          split at hfinish
          · exact orOversized_blames hfinish
          · exact orOversized_blames hfinish
      refine .onByte (fun _ => ?_) ?_
      · unfold canonicalizeArray
        split
        · exact .fail (by decide)
        refine .check (.array (by decide) ?_) fun _ _ => orOversized_blames
        rintro st gap es rfl x hx
        have hdeep := @nesting_element gap es x hx
        unfold arrayReader
        dsimp only
        split
        · exact .fail (by decide)
        · exact .map _ (ih _ x.value (by omega))
      refine .onByte (fun _ => .check (.literal _ (by decide)) fun _ => hout _) ?_
      refine .onByte (fun _ => .check (.literal _ (by decide)) fun _ => hout _) ?_
      refine .onByte (fun _ => .check (.literal _ (by decide)) fun _ => hout _) ?_
      exact .check (.captured (.number (by decide))) fun _ => hout _

theorem schemaValue_blames {v : Value} (h : 4 + v.nesting ≤ limits.maxNestingDepth) :
    (schemaValue limits).ReportsAt BlamesShape v := by
  refine .check (canonicalizeAt_blames _ _ _ v (by omega)) ?_
  intro stored e hstored
  split at hstored
  · cases hstored
    decide
  · cases hstored

theorem nameValue_blames (v : Value) : (nameValue limits).ReportsAt BlamesShape v := by
  refine .onByte (fun _ => .check (.string (by decide)) ?_) (.fail (by decide))
  intro value e h
  split at h
  · cases h
    decide
  split at h
  · cases h
    decide
  split at h
  · cases h
    decide
  · cases h

theorem descriptionValue_blames (v : Value) :
    (descriptionValue limits).ReportsAt BlamesShape v := by
  refine .check (.captured (.string (by decide))) ?_
  intro value e h
  change (if _ then _ else _) = _ at h
  split at h
  · cases h
    decide
  · cases h

theorem parseToolObject_blames {v : Value} (h : 3 + v.nesting ≤ limits.maxNestingDepth) :
    (parseToolObject limits).ReportsAt BlamesShape v := by
  refine .object (by decide) checkKey_blames ?_ ?_
  · rintro st gap ms rfl m hm
    have hdeep := @nesting_member gap ms m hm
    have hschema := @schemaValue_blames limits m.value (by omega)
    show (ToolState.member limits st _).ReportsAt _ _
    unfold ToolState.member
    split
    · exact .once _ (by decide) (.map _ (nameValue_blames _))
    split
    · exact .once _ (by decide) (.map _ (descriptionValue_blames _))
    split
    · exact .once _ (by decide) (.map _ hschema)
    split
    · exact .once _ (by decide) (.map _ hschema)
    · exact .map _ (.skipValue fun hover => absurd hover (not_not.mpr (by omega)))
  · intro st exit e hfinish
    unfold ToolState.finish at hfinish
    split at hfinish
    · cases hfinish
      decide
    split at hfinish
    · cases hfinish
    · cases hfinish
      decide

theorem parseToolsArray_blames {v : Value} (h : 2 + v.nesting ≤ limits.maxNestingDepth) :
    (parseToolsArray limits).ReportsAt BlamesShape v := by
  refine .array (by decide) ?_
  rintro tools gap es rfl x hx
  have hdeep := @nesting_element gap es x hx
  unfold toolsReader
  dsimp only
  split
  · exact .fail (by decide)
  refine .check (parseToolObject_blames (by omega)) ?_
  intro entry e hentry
  split at hentry
  · cases hentry
    decide
  · cases hentry

/-- The parser of a result blames its shape, if the classifier has skipped it. -/
theorem parseResultObject_blames {v : Value} (h : 1 + v.nesting ≤ limits.maxNestingDepth) :
    (parseResultObject limits).ReportsAt BlamesShape v := by
  refine .object (by decide) checkKey_blames ?_ ?_
  · rintro st gap ms rfl m hm
    have hdeep := @nesting_member gap ms m hm
    show (ResultState.member limits st _).ReportsAt _ _
    unfold ResultState.member
    split
    · exact .once _ (by decide) (.map _ (parseToolsArray_blames (by omega)))
    · exact .map _ (.skipValue fun hover => absurd hover (not_not.mpr (by omega)))
  · intro st exit e hfinish
    unfold ResultState.finish at hfinish
    split at hfinish
    · cases hfinish
      decide
    split at hfinish
    · cases hfinish
    · cases hfinish
      decide

/-! ## §2  The first parse -/

/-- The classifier that `inspect` sets up. -/
def classifierLimits (limits : InventoryLimits) : RuntimeLimits where
  maxMessageBytes := limits.maxMessageBytes
  maxNestingDepth := limits.maxNestingDepth
  maxPendingToolsList := 64

/-- The classifier accepts a response with the expected id. -/
def RespondsTo (limits : InventoryLimits) (message expectedIdJson : Bytes) : Prop :=
  (classify (classifierLimits limits) message).error = .none ∧
    (classify (classifierLimits limits) message).kind = .response ∧
    (classify (classifierLimits limits) message).idJson = expectedIdJson

/-- The members of the message, which ends with its brace or behind a comma. -/
def HasMembers (message : Bytes) (ms : List (Member Value)) : Prop :=
  DanglingText ms message ∨ ∃ gap, IsText message (.obj gap ms)

/-- The message carries a result rather than an error. -/
def CarriesResult (message : Bytes) : Prop :=
  ∃ ms, HasMembers message ms ∧ valuesAt (ascii "result") ms ≠ [] ∧
    valuesAt (ascii "error") ms = []

/-- What the classifier finds in the members of a response. -/
structure RepliesTo (limits : InventoryLimits) (expectedIdJson : Bytes)
    (ms : List (Member Value)) : Prop where
  envelope : EnvelopeMembers ms
  reply : IsReply ms
  skipped : SkippedWithin limits.maxNestingDepth ms
  id : ∃ v, valuesAt (ascii "id") ms = [v] ∧ IsIdValue v ∧ v.render = expectedIdJson

theorem isSome_idKindOf {v : Value} : (idKindOf v).isSome = true ↔ IsIdValue v := by
  unfold IsIdValue
  rcases v with t | t | w | ⟨gap, ms⟩ | ⟨gap, es⟩
  · simp [idKindOf]
  · simp [idKindOf]
  · cases w <;> simp [idKindOf]
  · simp [idKindOf]
  · simp [idKindOf]

theorem RepliesTo.ne_nil {expectedIdJson : Bytes} {ms : List (Member Value)}
    (h : RepliesTo limits expectedIdJson ms) : ms ≠ [] := by
  rintro rfl
  rcases h.id with ⟨v, hv, -⟩
  cases hv

theorem respondsTo_document {message expectedIdJson tail : Bytes} {exit : LoopExit}
    {ms : List (Member Value)} (hdoc : DocumentText exit ms tail message)
    (hexit : exit ≠ .trailing) :
    RespondsTo limits message expectedIdJson ↔
      message.length ≤ limits.maxMessageBytes ∧ RepliesTo limits expectedIdJson ms := by
  constructor
  · rintro ⟨herror, hkind, hid⟩
    rcases classify_determined herror hdoc hexit with ⟨hms, hskipped, hdetermined⟩
    rw [hdetermined] at hkind hid
    have hmethod : valuesAt (ascii "method") ms = [] := by
      by_contra hne
      change (if _ then _ else _) = _ at hkind
      rw [if_neg hne] at hkind
      split at hkind
      · cases hkind
      · cases hkind
    have hreply : IsReply ms := by
      rcases hms.shape with hcall | hreply
      · rcases hcall.method with ⟨t, ht, -⟩
        rw [hmethod] at ht
        cases ht
      · exact hreply
    rcases List.length_eq_one_iff.mp hreply.id with ⟨v, hv⟩
    refine ⟨((classify_accepts _ _).mp herror).1, hms, hreply, hskipped, v, hv, ?_, ?_⟩
    · exact isSome_idKindOf.mp (hms.ids v (by rw [hv]; exact List.mem_cons_self))
    · rw [determinedEnvelope_idJson hv] at hid
      exact hid
  · rintro ⟨hsize, h⟩
    have herror : (classify (classifierLimits limits) message).error = .none :=
      (classify_accepts _ _).mpr ⟨hsize, exit, ms, tail, hdoc, hexit, h.envelope, h.skipped⟩
    rcases classify_determined herror hdoc hexit with ⟨-, -, hdetermined⟩
    rcases h.id with ⟨v, hv, -, hrender⟩
    refine ⟨herror, ?_, ?_⟩
    · rw [hdetermined]
      exact if_pos h.reply.method
    · rw [hdetermined, ← hrender]
      exact determinedEnvelope_idJson hv

theorem respondsTo_members {message expectedIdJson : Bytes}
    (h : RespondsTo limits message expectedIdJson) :
    ∃ exit ms tail, DocumentText exit ms tail message ∧ exit ≠ .trailing ∧
      message.length ≤ limits.maxMessageBytes ∧ RepliesTo limits expectedIdJson ms := by
  rcases (classify_accepts _ _).mp h.1 with ⟨-, exit, ms, tail, hdoc, hexit, -⟩
  exact ⟨exit, ms, tail, hdoc, hexit, (respondsTo_document hdoc hexit).mp h⟩

/-- A reply with a result is a response whose result the classifier has skipped. -/
theorem isResponse_iff_replies {expectedIdJson : Bytes} {ms : List (Member Value)} :
    IsResponse limits (SkippedResult limits) expectedIdJson ms ↔
      RepliesTo limits expectedIdJson ms ∧ valuesAt (ascii "result") ms ≠ [] ∧
        valuesAt (ascii "error") ms = [] := by
  constructor
  · intro h
    rcases h.result with ⟨r, hr⟩
    rcases h.id with ⟨v, hv, hid, -⟩
    have hreply : IsReply ms := by
      refine ⟨h.method, ?_, ?_⟩
      · rw [hv]
        rfl
      · rw [hr, h.error]
        rfl
    refine ⟨⟨⟨h.keys, h.version, ?_, Or.inr hreply⟩, hreply, ?_, h.id⟩, ?_, h.error⟩
    · rw [hv]
      exact List.forall_mem_singleton.mpr (isSome_idKindOf.mpr hid)
    · intro m hm hkey
      by_cases hresult : m.key.val = ascii "result"
      · exact h.accepted _ (mem_valuesAt.mpr ⟨m, hm, hresult, rfl⟩)
      have herror : m.key.val ≠ ascii "error" := by
        intro heq
        have hmem := mem_valuesAt.mpr ⟨m, hm, heq, rfl⟩
        rw [h.error] at hmem
        cases hmem
      apply h.others m hm
      unfold responseKeys
      simp only [List.mem_cons, List.not_mem_nil, or_false, not_or] at hkey ⊢
      exact ⟨hkey.1, hkey.2.2, hkey.2.1, hresult, herror⟩
    · rw [hr]
      exact List.cons_ne_nil r []
  · rintro ⟨h, hresult, herror⟩
    have hlength : (valuesAt (ascii "result") ms).length = 1 := by
      have houtcome := h.reply.outcome
      rwa [herror, List.length_nil, Nat.add_zero] at houtcome
    rcases List.length_eq_one_iff.mp hlength with ⟨r, hr⟩
    refine ⟨⟨h.envelope.keys, h.envelope.version, h.id, h.reply.method, ⟨r, hr⟩, herror⟩,
      ?_, ?_⟩
    · intro v hv
      rcases mem_valuesAt.mp hv with ⟨m, hm, hkey, rfl⟩
      apply h.skipped m hm
      rw [hkey]
      decide
    · intro m hm hkey
      apply h.skipped m hm
      unfold responseKeys at hkey
      simp only [List.mem_cons, List.not_mem_nil, or_false, not_or] at hkey ⊢
      exact ⟨hkey.1, hkey.2.2.1, hkey.2.1⟩

/-- `validate_initialize_response` accepts what the classifier takes for the response,
if it carries a result. -/
theorem validates_iff (limits : InventoryLimits) (message expectedIdJson : Bytes) :
    validateInitializeResponse limits message expectedIdJson = .ok () ↔
      RespondsTo limits message expectedIdJson ∧ CarriesResult message := by
  rw [validateInitializeResponse_ok]
  constructor
  · rintro ⟨hsize, ms, htext, hms⟩
    rcases isResponse_iff_replies.mp hms with ⟨hreplies, hresult, herror⟩
    rcases (documentText_cases hreplies.ne_nil).mpr htext with ⟨exit, tail, hdoc, hexit⟩
    exact ⟨(respondsTo_document hdoc hexit).mpr ⟨hsize, hreplies⟩,
      ms, htext, hresult, herror⟩
  · rintro ⟨hresponds, ms, htext, hresult, herror⟩
    have hne : ms ≠ [] := by
      rintro rfl
      exact hresult rfl
    rcases (documentText_cases hne).mpr htext with ⟨exit, tail, hdoc, hexit⟩
    rcases (respondsTo_document hdoc hexit).mp hresponds with ⟨hsize, hreplies⟩
    exact ⟨hsize, ms, htext, isResponse_iff_replies.mpr ⟨hreplies, hresult, herror⟩⟩

/-! ## §3  The second parse -/

/-- The message carries an error rather than a result. -/
def CarriesError (message : Bytes) : Prop :=
  ∃ ms, HasMembers message ms ∧ valuesAt (ascii "error") ms ≠ [] ∧
    valuesAt (ascii "result") ms = []

/-- The parser of results rejects the result of the message with the error `e`. -/
def RejectsResult (limits : InventoryLimits) (message : Bytes) (e : InventoryError) : Prop :=
  ∃ ms v, HasMembers message ms ∧ valuesAt (ascii "result") ms = [v] ∧
    (parseResultObject limits).read v = .error e

theorem toolsList_oncePerKey (limits : InventoryLimits) :
    OncePerKey (responseReader limits ((Reader.string .malformedJson).map fun _ => ())
      (parseResultObject limits)) responseKeys ResponseState.seen
      (responseMemberOk limits (fun v => ∃ t, v = .str t) (IsResult limits))
      (ResponseState.update toolsOf) :=
  response_oncePerKey (fun _ _ => anyMethod_ok) fun _ _ => parseResultObject_ok

/-- All members of a reply are accepted, but for the result. -/
theorem memberOk_of_replies {methodOk resultOk : Value → Prop} {expectedIdJson : Bytes}
    {ms : List (Member Value)} (h : RepliesTo limits expectedIdJson ms) {m : Member Value}
    (hm : m ∈ ms) (hkey : m.key.val ≠ ascii "result") :
    responseMemberOk limits methodOk resultOk m.key.val m.value := by
  have hat : ∀ {key}, m.key.val = key → m.value ∈ valuesAt key ms :=
    fun heq => mem_valuesAt.mpr ⟨m, hm, heq, rfl⟩
  unfold responseMemberOk
  split_ifs with hjsonrpc hid hmethod
  · rcases h.envelope.version with ⟨v, hv, hplain⟩
    have hmem := hat hjsonrpc
    rw [hv, List.mem_singleton] at hmem
    rw [hmem]
    exact hplain
  · exact isSome_idKindOf.mp (h.envelope.ids _ (hat hid))
  · have hmem := hat hmethod
    rw [h.reply.method] at hmem
    cases hmem
  · apply h.skipped m hm
    simp only [List.mem_cons, List.not_mem_nil, or_false, not_or]
    exact ⟨hjsonrpc, hmethod, hid⟩

/-- The loop fails at the result or not at all. -/
theorem members_error {expectedIdJson : Bytes} {ms : List (Member Value)} {e : InventoryError}
    (h : RepliesTo limits expectedIdJson ms)
    (herror : (responseReader limits ((Reader.string .malformedJson).map fun _ => ())
      (parseResultObject limits)).members {} ms = .error e) :
    ∃ v, valuesAt (ascii "result") ms = [v] ∧ (parseResultObject limits).read v = .error e := by
  have hone := toolsList_oncePerKey limits
  have honce : ∀ key ∈ responseKeys, (valuesAt key ms).length ≤
      if ({} : ResponseState (List ToolInventoryEntry)).seen key then 0 else 1 := by
    intro key hkey
    rw [response_init]
    simp only [Bool.false_eq_true, if_false]
    have houtcome := h.reply.outcome
    rcases h.envelope.version with ⟨version, hversion, -⟩
    unfold responseKeys at hkey
    simp only [List.mem_cons, List.not_mem_nil, or_false] at hkey
    rcases hkey with rfl | rfl | rfl | rfl | rfl
    · rw [hversion]
      exact le_refl 1
    · rw [h.reply.id]
    · rw [h.reply.method]
      exact Nat.zero_le 1
    · omega
    · omega
  rcases hone.members_error h.envelope.keys honce herror with ⟨st, m, hm, hunseen, hnot, hfail⟩
  have hkey : m.key.val = ascii "result" := by
    by_contra hne
    exact hnot (memberOk_of_replies h hm hne)
  have hmem : m.value ∈ valuesAt (ascii "result") ms := mem_valuesAt.mpr ⟨m, hm, hkey, rfl⟩
  have hvalue : valuesAt (ascii "result") ms = [m.value] := by
    have houtcome := h.reply.outcome
    rcases eq_nil_or_singleton (show (valuesAt (ascii "result") ms).length ≤ 1 by omega) with
      hnil | ⟨v, hv⟩
    · rw [hnil] at hmem
      cases hmem
    · rw [hv, List.mem_singleton] at hmem
      rw [hv, hmem]
  refine ⟨m.value, hvalue, ?_⟩
  rw [hkey] at hunseen hfail
  have hread : (Reader.once st.sawResult .duplicateMember
      ((parseResultObject limits).map fun kept =>
        { st with sawResult := true, result := some kept })).read m.value = .error e := hfail
  have hseen : st.sawResult = false := hunseen
  rw [hseen] at hread
  rcases except_bind_error.mp hread with hresult | ⟨_, -, hok⟩
  · exact hresult
  · cases hok

/-- The checks behind the loop find a response, which may carry an error. -/
theorem finish_error {expectedIdJson : Bytes} {ms : List (Member Value)} {e : InventoryError}
    {st : ResponseState (List ToolInventoryEntry)} (h : RepliesTo limits expectedIdJson ms)
    (hrun : (responseReader limits ((Reader.string .malformedJson).map fun _ => ())
      (parseResultObject limits)).members {} ms = .ok st)
    (herror : st.finish expectedIdJson = .error e) :
    e = .errorResult ∧ valuesAt (ascii "error") ms ≠ [] ∧
      valuesAt (ascii "result") ms = [] := by
  have hone := toolsList_oncePerKey limits
  rcases (hone.members_ok_init response_init _ _).mp hrun with ⟨-, -, rfl⟩
  have hseen : ∀ {key}, key ∈ responseKeys →
      (updates (ResponseState.update toolsOf) {} ms).seen key =
        decide (valuesAt key ms ≠ []) := by
    intro key hkey
    rw [updates_seen hkey hone.marks, response_init, Bool.false_or]
  rcases h.id with ⟨id, hid, -, hidJson⟩
  rcases h.envelope.version with ⟨version, hversion, -⟩
  have hstate : (updates (ResponseState.update toolsOf) {} ms).idJson = expectedIdJson := by
    rw [response_idJson, hid]
    exact hidJson
  have hjsonrpc : (updates (ResponseState.update toolsOf) {} ms).sawJsonrpc = true :=
    (hseen (by decide : ascii "jsonrpc" ∈ responseKeys)).trans (by simp [hversion])
  have hsawId : (updates (ResponseState.update toolsOf) {} ms).sawId = true :=
    (hseen (by decide : ascii "id" ∈ responseKeys)).trans (by simp [hid])
  have hmethod : (updates (ResponseState.update toolsOf) {} ms).sawMethod = false :=
    (hseen (by decide : ascii "method" ∈ responseKeys)).trans (by simp [h.reply.method])
  have hresult : (updates (ResponseState.update toolsOf) {} ms).sawResult = _ :=
    hseen (by decide : ascii "result" ∈ responseKeys)
  have hsawError : (updates (ResponseState.update toolsOf) {} ms).sawError = _ :=
    hseen (by decide : ascii "error" ∈ responseKeys)
  have houtcome := h.reply.outcome
  unfold ResponseState.finish at herror
  rw [hjsonrpc, hsawId, hmethod, hresult, hsawError, hstate] at herror
  by_cases hnil : valuesAt (ascii "result") ms = []
  · have hne : valuesAt (ascii "error") ms ≠ [] := by
      intro hnil'
      rw [hnil, hnil'] at houtcome
      cases houtcome
    simp [hnil, hne] at herror
    exact ⟨herror.symm, hne, hnil⟩
  · have hnil' : valuesAt (ascii "error") ms = [] := by
      have hpos := List.length_pos_iff.mpr hnil
      exact List.length_eq_zero_iff.mp (by omega)
    simp [hnil, hnil'] at herror

/-- On what the classifier takes for the response, the parser reports the error that
it carries or a defect of its result. -/
theorem parseToolsListResponse_error
    {message expectedIdJson downstreamExecutable : Bytes} {e : InventoryError}
    (hresponds : RespondsTo limits message expectedIdJson)
    (herror : parseToolsListResponse limits message expectedIdJson downstreamExecutable =
      .error e) :
    (e = .errorResult ∧ CarriesError message) ∨
      (BlamesShape e ∧ RejectsResult limits message e) := by
  rcases respondsTo_members hresponds with ⟨exit, ms, tail, hdoc, hexit, hsize, hreplies⟩
  have hmembers : HasMembers message ms :=
    (documentText_cases hreplies.ne_nil).mp ⟨exit, tail, hdoc, hexit⟩
  unfold parseToolsListResponse at herror
  rw [if_neg (not_lt.mpr hsize)] at herror
  rcases except_bind_error.mp herror with herror | ⟨_, -, hok⟩
  · unfold parseResponse at herror
    rw [ObjectReader.document_agrees _ hdoc hexit] at herror
    rcases except_bind_error.mp herror with herror | ⟨⟨st, exit'⟩, hrun, herror⟩
    · rcases except_bind_error.mp herror with herror | ⟨st, -, hleave⟩
      · rcases members_error hreplies herror with ⟨v, hv, hresult⟩
        refine Or.inr ⟨?_, ms, v, hmembers, hv, hresult⟩
        rcases mem_valuesAt.mp (show v ∈ valuesAt (ascii "result") ms by simp [hv]) with
          ⟨m, hm, hkey, rfl⟩
        refine parseResultObject_blames (hreplies.skipped m hm ?_) e hresult
        rw [hkey]
        decide
      · have hopen : exit ≠ .empty := by
          rintro rfl
          exact hreplies.ne_nil hdoc.eq_nil
        rw [leave_nonempty exit hopen] at hleave
        cases hleave
    · rcases except_bind_ok.mp hrun with ⟨st', hst', hrun⟩
      rcases except_bind_ok.mp hrun with ⟨-, -, heq⟩
      cases heq
      rcases except_bind_error.mp herror with herror | ⟨_, -, hok⟩
      · rcases finish_error hreplies hst' herror with ⟨rfl, hcarried, hnone⟩
        exact Or.inl ⟨rfl, ms, hmembers, hcarried, hnone⟩
      · cases hok
  · cases hok

/-- The second parse never disagrees with the first. The answer to `initialize` is
accepted if and only if the classifier takes the message for the response and it
carries a result; of the answer to `tools/list` nothing is blamed but the error that it
carries and the shape of its result. -/
theorem parses_agree (limits : InventoryLimits)
    (message expectedIdJson downstreamExecutable : Bytes) :
    (validateInitializeResponse limits message expectedIdJson = .ok () ↔
        RespondsTo limits message expectedIdJson ∧ CarriesResult message) ∧
      (RespondsTo limits message expectedIdJson → ∀ e,
        parseToolsListResponse limits message expectedIdJson downstreamExecutable =
            .error e →
          e ∉ [.messageTooLarge, .invalidEnvelope, .unsupportedJsonrpcVersion,
              .wrongResponseId, .missingResult, .excessiveNesting] ∧
            (e = .errorResult ∧ CarriesError message ∨ RejectsResult limits message e)) := by
  refine ⟨validates_iff limits message expectedIdJson, fun hresponds e herror => ?_⟩
  rcases parseToolsListResponse_error hresponds herror with ⟨rfl, hcarries⟩ | ⟨hblames, hresult⟩
  · exact ⟨by decide, Or.inl ⟨rfl, hcarries⟩⟩
  · exact ⟨hblames, Or.inr hresult⟩

/-- A response without tools. -/
def emptyResult : Bytes :=
  ascii "\x7b\"jsonrpc\":\"2.0\",\"id\":1,\"result\":\x7b\x7d\x7d"

theorem parses_agree_example :
    RespondsTo {} emptyResult (ascii "1") ∧
      parseToolsListResponse {} emptyResult (ascii "1") (ascii "srv") =
        .error .missingTools ∧
      RejectsResult {} emptyResult .missingTools := by
  have hrun : ((classify (classifierLimits {}) emptyResult).error = .none ∧
        (classify (classifierLimits {}) emptyResult).kind = .response ∧
        (classify (classifierLimits {}) emptyResult).idJson = ascii "1") ∧
      parseToolsListResponse {} emptyResult (ascii "1") (ascii "srv") =
        .error .missingTools := by
    decide +kernel
  refine ⟨hrun.1, hrun.2, ?_⟩
  rcases ((parses_agree {} emptyResult (ascii "1") (ascii "srv")).2 hrun.1 _ hrun.2).2 with
    ⟨heq, -⟩ | hresult
  · cases heq
  · exact hresult

end NativeGuard.Protocol.Inventory

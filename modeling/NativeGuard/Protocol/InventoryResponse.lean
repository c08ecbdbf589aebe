import NativeGuard.Protocol.CutText
import NativeGuard.Protocol.ToolInventory

/-!
# Complete responses

The two parsers of `inspect` share their outermost loop, which is left at the end
of the input as it is at the brace. `parseResponse_ok` says which texts they
accept, and `inspects_complete_iff` that only the texts that break off behind a
comma keep them from accepting complete documents alone.
-/

namespace NativeGuard.Protocol.Inventory

open Json Json.Scan Data

variable {limits : InventoryLimits}

/-! ## §1  The members of a response -/

def responseKeys : List Bytes :=
  [ascii "jsonrpc", ascii "id", ascii "method", ascii "result", ascii "error"]

/-- A string, a number or `null`. -/
def IsIdValue (v : Value) : Prop :=
  (∃ t, v = .str t) ∨ (∃ t, v = .num t) ∨ v = .lit .null

/-- The members of a response to the request with the given id. -/
structure ResponseTo (expectedIdJson : Bytes) (ms : List (Member Value)) : Prop where
  keys : ∀ m ∈ ms, 0x5C ∉ m.key.val
  version : ∃ v, valuesAt (ascii "jsonrpc") ms = [v] ∧ IsPlain (ascii "2.0") v
  id : ∃ v, valuesAt (ascii "id") ms = [v] ∧ IsIdValue v ∧ v.render = expectedIdJson
  method : valuesAt (ascii "method") ms = []
  result : ∃ v, valuesAt (ascii "result") ms = [v]
  error : valuesAt (ascii "error") ms = []

/-- ... of which the parser accepts the result and skips what it does not know. -/
structure IsResponse (limits : InventoryLimits) (resultOk : Value → Prop)
    (expectedIdJson : Bytes) (ms : List (Member Value)) : Prop
    extends ResponseTo expectedIdJson ms where
  accepted : ∀ v ∈ valuesAt (ascii "result") ms, resultOk v
  others : ∀ m ∈ ms, m.key.val ∉ responseKeys → 1 + m.value.nesting ≤ limits.maxNestingDepth

theorem ResponseTo.ne_nil {expectedIdJson : Bytes} {ms : List (Member Value)}
    (h : ResponseTo expectedIdJson ms) : ms ≠ [] := by
  rintro rfl
  rcases h.version with ⟨v, hv, -⟩
  cases hv

/-! ## §2  The loop -/

theorem versionValue_ok {v : Value} {u : Unit} :
    versionValue.read v = .ok u ↔ IsPlain (ascii "2.0") v ∧ u = () := by
  unfold versionValue
  rw [Reader.string_check_ok]
  constructor
  · rintro ⟨t, rfl, h⟩
    split at h
    · cases h
    · rename_i hplain
      exact ⟨⟨t, rfl, not_not.mp (not_or.mp hplain).2⟩, rfl⟩
  · rintro ⟨⟨t, rfl, ht⟩, -⟩
    refine ⟨t, rfl, ?_⟩
    rw [ht]
    rfl

theorem idValue_ok {v : Value} {r : Unit × Bytes} :
    idValue.read v = .ok r ↔ IsIdValue v ∧ r = ((), v.render) := by
  have hinner : idValue.read v = ((Reader.onByte 0x22
      ((Reader.string .malformedJson).map fun _ => ())
        (.tryLiteral .null () (.number .invalidEnvelope))).read v).map
          fun a => (a, v.render) := rfl
  have hother : ∀ {b : UInt8}, ¬ v.render.head? = some 0x22 → idValue.read v =
      ((Reader.tryLiteral .null () (.number InventoryError.invalidEnvelope)).read v).map
        fun a => (a, v.render) := by
    intro _ hne
    rw [hinner, onByte_of_ne hne]
  unfold IsIdValue
  rcases v with t | t | w | ⟨gap, ms⟩ | ⟨gap, es⟩
  · have hread : idValue.read (.str t) = .ok ((), (Value.str t).render) := rfl
    simp [hread, eq_comm]
  · have hread : idValue.read (.num t) = .ok ((), (Value.num t).render) := by
      rw [@hother 0 (head_num t (by decide) (by decide))]
      rfl
    simp [hread, eq_comm]
  · rcases w with _ | _ | _
    · have hread : idValue.read (.lit .null) = .ok ((), (Value.lit .null).render) := rfl
      simp [hread, eq_comm]
    · have hread : idValue.read (.lit .true) = .error .invalidEnvelope := rfl
      simp [hread]
    · have hread : idValue.read (.lit .false) = .error .invalidEnvelope := rfl
      simp [hread]
  · have hread : idValue.read (.obj gap ms) = .error .invalidEnvelope := by
      rw [@hother 0 (by rw [head_obj]; decide)]
      rfl
    simp [hread]
  · have hread : idValue.read (.arr gap es) = .error .invalidEnvelope := by
      rw [@hother 0 (by rw [head_arr]; decide)]
      rfl
    simp [hread]

section response

variable {ρ : Type} {method : Reader InventoryError Unit} {result : Reader InventoryError ρ}
  {methodOk resultOk : Value → Prop} {kept : Value → ρ}

def ResponseState.seen (st : ResponseState ρ) (key : Bytes) : Bool :=
  if key = ascii "jsonrpc" then st.sawJsonrpc
  else if key = ascii "id" then st.sawId
  else if key = ascii "method" then st.sawMethod
  else if key = ascii "result" then st.sawResult
  else if key = ascii "error" then st.sawError
  else false

def ResponseState.update (kept : Value → ρ) (st : ResponseState ρ) (key : Bytes) (v : Value) :
    ResponseState ρ :=
  if key = ascii "jsonrpc" then { st with sawJsonrpc := true }
  else if key = ascii "id" then { st with sawId := true, idJson := v.render }
  else if key = ascii "method" then { st with sawMethod := true }
  else if key = ascii "result" then { st with sawResult := true, result := some (kept v) }
  else if key = ascii "error" then { st with sawError := true }
  else st

def responseMemberOk (limits : InventoryLimits) (methodOk resultOk : Value → Prop)
    (key : Bytes) (v : Value) : Prop :=
  if key = ascii "jsonrpc" then IsPlain (ascii "2.0") v
  else if key = ascii "id" then IsIdValue v
  else if key = ascii "method" then methodOk v
  else if key = ascii "result" then resultOk v
  else 1 + v.nesting ≤ limits.maxNestingDepth

theorem response_oncePerKey
    (hmethod : ∀ v u, method.read v = .ok u ↔ methodOk v ∧ u = ())
    (hresult : ∀ v r, result.read v = .ok r ↔ resultOk v ∧ r = kept v) :
    OncePerKey (responseReader limits method result) responseKeys ResponseState.seen
      (responseMemberOk limits methodOk resultOk) (ResponseState.update kept) where
  key := checkKey_ok
  member st raw v st' := by
    show (ResponseState.member limits method result st (tokenOf raw)).read v = .ok st' ↔ _
    unfold ResponseState.member ResponseState.seen responseMemberOk ResponseState.update
    rw [tokenOf_contents]
    by_cases hjsonrpc : raw = ascii "jsonrpc"
    · simp only [if_pos hjsonrpc]
      exact Reader.once_map_ok fun _ => versionValue_ok
    by_cases hid : raw = ascii "id"
    · simp only [if_neg hjsonrpc, if_pos hid]
      exact Reader.once_map_ok fun _ => idValue_ok
    by_cases hmethod' : raw = ascii "method"
    · simp only [if_neg hjsonrpc, if_neg hid, if_pos hmethod']
      exact Reader.once_map_ok fun u => hmethod v u
    by_cases hresult' : raw = ascii "result"
    · simp only [if_neg hjsonrpc, if_neg hid, if_neg hmethod', if_pos hresult']
      exact Reader.once_map_ok fun r => hresult v r
    by_cases herror : raw = ascii "error"
    · simp only [if_neg hjsonrpc, if_neg hid, if_neg hmethod', if_neg hresult', if_pos herror]
      rw [Reader.once_ok]
      exact and_congr_right fun _ => skipValue_map_ok
    simp only [if_neg hjsonrpc, if_neg hid, if_neg hmethod', if_neg hresult', if_neg herror,
      true_and]
    exact skipValue_map_ok
  marks st raw v key := by
    unfold ResponseState.update
    split_ifs with hjsonrpc hid hmethod' hresult' herror
    all_goals
      unfold ResponseState.seen responseKeys
      grind
  unknown st key h := by
    unfold ResponseState.seen
    unfold responseKeys at h
    grind

theorem response_init (key : Bytes) : ({} : ResponseState ρ).seen key = false := by
  unfold ResponseState.seen
  split_ifs <;> rfl

theorem response_idJson (ms : List (Member Value)) :
    (updates (ResponseState.update kept) {} ms).idJson =
      (valuesAt (ascii "id") ms).foldl (fun _ v => v.render) [] := by
  have hdistinct : responseKeys.Nodup := by decide
  refine updates_field ResponseState.idJson (ascii "id") Value.render ?_ {} ms
  intro st raw v
  unfold ResponseState.update
  unfold responseKeys at hdistinct
  grind

theorem response_result (ms : List (Member Value)) :
    (updates (ResponseState.update kept) {} ms).result =
      (valuesAt (ascii "result") ms).foldl (fun _ v => some (kept v)) none := by
  have hdistinct : responseKeys.Nodup := by decide
  refine updates_field ResponseState.result (ascii "result") (fun v => some (kept v)) ?_ {} ms
  intro st raw v
  unfold ResponseState.update
  unfold responseKeys at hdistinct
  grind

theorem ResponseState.finish_ok {expectedIdJson : Bytes} {st : ResponseState ρ} {u : Unit} :
    st.finish expectedIdJson = .ok u ↔ st.sawJsonrpc = true ∧ st.sawId = true ∧
      st.sawMethod = false ∧ st.sawResult = true ∧ st.sawError = false ∧
      st.idJson = expectedIdJson := by
  unfold ResponseState.finish
  by_cases hid : st.idJson = expectedIdJson
  · cases st.sawJsonrpc <;> cases st.sawId <;> cases st.sawMethod <;>
      cases st.sawResult <;> cases st.sawError <;> simp [hid]
  · cases st.sawJsonrpc <;> cases st.sawId <;> cases st.sawMethod <;>
      cases st.sawResult <;> cases st.sawError <;> simp [hid]

/-- A member that the envelope does not name is skipped. -/
theorem responseMemberOk_other {key : Bytes} {v : Value} (hkey : key ∉ responseKeys) :
    responseMemberOk limits methodOk resultOk key v =
      (1 + v.nesting ≤ limits.maxNestingDepth) := by
  unfold responseKeys at hkey
  simp only [List.mem_cons, List.not_mem_nil, or_false, not_or] at hkey
  unfold responseMemberOk
  rw [if_neg hkey.1, if_neg hkey.2.1, if_neg hkey.2.2.1, if_neg hkey.2.2.2.1]

theorem responseKeys_mem : ascii "jsonrpc" ∈ responseKeys ∧ ascii "id" ∈ responseKeys ∧
    ascii "method" ∈ responseKeys ∧ ascii "result" ∈ responseKeys ∧
    ascii "error" ∈ responseKeys := by decide

section loop

variable (hmethod : ∀ v u, method.read v = .ok u ↔ methodOk v ∧ u = ())
  (hresult : ∀ v r, result.read v = .ok r ↔ resultOk v ∧ r = kept v)
include hmethod hresult

theorem response_seen {ms : List (Member Value)} {key : Bytes} (hkey : key ∈ responseKeys) :
    (updates (ResponseState.update kept) {} ms).seen key = decide (valuesAt key ms ≠ []) := by
  have hone := @response_oncePerKey {} ρ method result methodOk resultOk kept hmethod hresult
  rw [updates_seen hkey hone.marks, response_init, Bool.false_or]

/-- What the loop and the checks behind it accept is a response. -/
theorem isResponse_of_members {expectedIdJson : Bytes} {ms : List (Member Value)}
    {st : ResponseState ρ}
    (hrun : (responseReader limits method result).members {} ms = .ok st)
    (hfinish : st.finish expectedIdJson = .ok ()) :
    IsResponse limits resultOk expectedIdJson ms ∧
      st.result = (valuesAt (ascii "result") ms).head?.map kept := by
  have hone := @response_oncePerKey limits ρ method result methodOk resultOk kept hmethod hresult
  have hinit := @response_init ρ
  obtain ⟨hjsonrpc, hid, hmethodKey, hresultKey, herror⟩ := responseKeys_mem
  rcases (hone.members_ok_init hinit _ _).mp hrun with ⟨hall, honce, hst⟩
  rcases ResponseState.finish_ok.mp hfinish with ⟨h₁, h₂, h₃, h₄, h₅, h₆⟩
  rcases (hone.seen_iff hinit hrun hjsonrpc).mp h₁ with ⟨version, hversion, hplain⟩
  rcases (hone.seen_iff hinit hrun hid).mp h₂ with ⟨id, hidv, hidok⟩
  rcases (hone.seen_iff hinit hrun hresultKey).mp h₄ with ⟨w, hw, hok⟩
  rw [hst] at h₃ h₅ h₆ ⊢
  have hnomethod := (response_seen hmethod hresult hmethodKey).symm.trans h₃
  have hnoerror := (response_seen hmethod hresult herror).symm.trans h₅
  simp only [decide_eq_false_iff_not, not_not] at hnomethod hnoerror
  rw [response_idJson, hidv] at h₆
  refine ⟨⟨⟨fun m hm => (hall m hm).1, ⟨version, hversion, hplain⟩, ⟨id, hidv, hidok, h₆⟩,
    hnomethod, ⟨w, hw⟩, hnoerror⟩, ?_, ?_⟩, ?_⟩
  · rw [hw]
    exact List.forall_mem_singleton.mpr hok
  · intro m hm hkey
    rw [← responseMemberOk_other hkey]
    exact (hall m hm).2
  · rw [response_result, hw]
    rfl

/-- The loop and the checks behind it accept every response. -/
theorem members_of_isResponse {expectedIdJson : Bytes} {ms : List (Member Value)}
    (h : IsResponse limits resultOk expectedIdJson ms) :
    ∃ st, (responseReader limits method result).members {} ms = .ok st ∧
      st.finish expectedIdJson = .ok () ∧
      st.result = (valuesAt (ascii "result") ms).head?.map kept := by
  have hone := @response_oncePerKey limits ρ method result methodOk resultOk kept hmethod hresult
  have hinit := @response_init ρ
  obtain ⟨hjsonrpc, hid, hmethodKey, hresultKey, herror⟩ := responseKeys_mem
  rcases h.version with ⟨version, hversion, hplain⟩
  rcases h.id with ⟨id, hidv, hidok, hidJson⟩
  rcases h.result with ⟨w, hw⟩
  have hok := h.accepted w (by simp [hw])
  have hrun := hone.members_of hinit h.keys
    (fun key hkey => by
      simp only [responseKeys, List.mem_cons, List.not_mem_nil, or_false] at hkey
      rcases hkey with rfl | rfl | rfl | rfl | rfl
      · exact single_valuesAt ⟨version, hversion, hplain⟩
      · exact single_valuesAt ⟨id, hidv, hidok⟩
      · simp [h.method]
      · exact single_valuesAt ⟨w, hw, hok⟩
      · simp [h.error])
    (fun m hm hkey => by
      rw [responseMemberOk_other hkey]
      exact h.others m hm hkey)
  refine ⟨_, hrun, ResponseState.finish_ok.mpr ⟨?_, ?_, ?_, ?_, ?_, ?_⟩, ?_⟩
  · exact (response_seen hmethod hresult hjsonrpc).trans (by simp [hversion])
  · exact (response_seen hmethod hresult hid).trans (by simp [hidv])
  · exact (response_seen hmethod hresult hmethodKey).trans (by simp [h.method])
  · exact (response_seen hmethod hresult hresultKey).trans (by simp [hw])
  · exact (response_seen hmethod hresult herror).trans (by simp [h.error])
  · rw [response_idJson, hidv]
    exact hidJson
  · rw [response_result, hw]
    rfl

/-- The loop and the checks behind it accept exactly the responses. -/
theorem response_members {expectedIdJson : Bytes} {ms : List (Member Value)} {r : Option ρ} :
    (∃ st, (responseReader limits method result).members {} ms = .ok st ∧
        st.finish expectedIdJson = .ok () ∧ st.result = r) ↔
      IsResponse limits resultOk expectedIdJson ms ∧
        r = (valuesAt (ascii "result") ms).head?.map kept := by
  constructor
  · rintro ⟨st, hrun, hfinish, rfl⟩
    exact isResponse_of_members hmethod hresult hrun hfinish
  · rintro ⟨h, rfl⟩
    exact members_of_isResponse hmethod hresult h

end loop

/-- On the text of an object the loop does what it does with the members. -/
theorem parseResponse_document
    (hmethod : ∀ v u, method.read v = .ok u ↔ methodOk v ∧ u = ())
    (hresult : ∀ v r, result.read v = .ok r ↔ resultOk v ∧ r = kept v)
    {leave : LoopExit → Except InventoryError Unit}
    (hleave : ∀ exit, exit ≠ .empty → leave exit = .ok ())
    {exit : LoopExit} {ms : List (Member Value)} {expectedIdJson tail message : Bytes}
    (hdoc : DocumentText exit ms tail message) (hexit : exit ≠ .trailing) {r : Option ρ} :
    parseResponse limits method result leave expectedIdJson message = .ok r ↔
      IsResponse limits resultOk expectedIdJson ms ∧
        r = (valuesAt (ascii "result") ms).head?.map kept := by
  unfold parseResponse
  rw [ObjectReader.document_agrees _ hdoc hexit, ← response_members hmethod hresult,
    except_bind_ok]
  constructor
  · rintro ⟨⟨st, exit'⟩, hrun, h⟩
    rcases except_bind_ok.mp hrun with ⟨st', hmembers, hrun⟩
    rcases except_bind_ok.mp hrun with ⟨-, -, heq⟩
    cases heq
    rcases except_bind_ok.mp h with ⟨u, hfinish, hr⟩
    cases hr
    exact ⟨st, hmembers, hfinish, rfl⟩
  · rintro ⟨st, hmembers, hfinish, rfl⟩
    have hms := (response_members hmethod hresult).mp ⟨st, hmembers, hfinish, rfl⟩
    have hopen : exit ≠ .empty := by
      rintro rfl
      exact hms.1.ne_nil hdoc.eq_nil
    refine ⟨(st, exit), except_bind_ok.mpr ⟨st, hmembers, ?_⟩,
      except_bind_ok.mpr ⟨(), hfinish, rfl⟩⟩
    exact except_bind_ok.mpr ⟨(), hleave exit hopen, rfl⟩

/-- A response is accepted in a text closed or left behind a comma. -/
theorem parseResponse_ok
    (hmethod : ∀ v u, method.read v = .ok u ↔ methodOk v ∧ u = ())
    (hresult : ∀ v r, result.read v = .ok r ↔ resultOk v ∧ r = kept v)
    {leave : LoopExit → Except InventoryError Unit}
    (hleave : ∀ exit, exit ≠ .empty → leave exit = .ok ())
    {expectedIdJson message : Bytes} {r : Option ρ} :
    parseResponse limits method result leave expectedIdJson message = .ok r ↔
      ∃ ms, (DanglingText ms message ∨ ∃ gap, IsText message (.obj gap ms)) ∧
        IsResponse limits resultOk expectedIdJson ms ∧
        r = (valuesAt (ascii "result") ms).head?.map kept := by
  constructor
  · intro h
    rcases except_bind_ok.mp h with ⟨⟨st, exit⟩, hdocument, -⟩
    rcases (ObjectReader.document_ok _).mp hdocument with ⟨ms, tail, hdoc, -, -, hexit⟩
    have hms := (parseResponse_document hmethod hresult hleave hdoc hexit).mp h
    exact ⟨ms, (documentText_cases hms.1.ne_nil).mp ⟨exit, tail, hdoc, hexit⟩, hms⟩
  · rintro ⟨ms, htext, hms⟩
    rcases (documentText_cases hms.1.ne_nil).mpr htext with ⟨exit, tail, hdoc, hexit⟩
    exact (parseResponse_document hmethod hresult hleave hdoc hexit).mpr hms

end response

/-! ## §3  The two parsers -/

/-- A result that is only skipped. -/
def SkippedResult (limits : InventoryLimits) (v : Value) : Prop :=
  1 + v.nesting ≤ limits.maxNestingDepth

theorem plainMethod_ok {v : Value} {u : Unit} : plainMethod.read v = .ok u ↔
    (∃ t : StringText, v = .str t ∧ 0x5C ∉ t.val ∧ t.val ≠ []) ∧ u = () := by
  unfold plainMethod
  rw [Reader.string_check_ok]
  constructor
  · rintro ⟨t, rfl, h⟩
    split at h
    · cases h
    · rename_i hplain
      rcases not_or.mp hplain with ⟨hescape, hempty⟩
      exact ⟨⟨t, rfl, by simpa [tokenOf] using hescape, hempty⟩, rfl⟩
  · rintro ⟨⟨t, rfl, hescape, hempty⟩, -⟩
    refine ⟨t, rfl, if_neg ?_⟩
    simpa [tokenOf, hescape] using hempty

theorem anyMethod_ok {v : Value} {u : Unit} :
    ((Reader.string InventoryError.malformedJson).map fun _ => ()).read v = .ok u ↔
      (∃ t, v = .str t) ∧ u = () := by
  rw [Reader.map_ok]
  constructor
  · rintro ⟨token, hread, rfl⟩
    rcases v with t | t | w | ⟨gap, ms⟩ | ⟨gap, es⟩
    · exact ⟨⟨t, rfl⟩, rfl⟩
    all_goals cases hread
  · rintro ⟨⟨t, rfl⟩, rfl⟩
    exact ⟨tokenOf t.val, rfl, rfl⟩

theorem skippedResult_ok {v : Value} {u : Unit} :
    (skipValue 1 limits.maxNestingDepth InventoryError.excessiveNesting).read v = .ok u ↔
      SkippedResult limits v ∧ u = () := by
  rw [skipValue_read]
  unfold accept SkippedResult
  split_ifs with h
  · simp [h]
  · simp [h]

/-- `validate_initialize_response` accepts the responses, closed or left behind a comma. -/
theorem validateInitializeResponse_ok {message expectedIdJson : Bytes} {u : Unit} :
    validateInitializeResponse limits message expectedIdJson = .ok u ↔
      message.length ≤ limits.maxMessageBytes ∧
        ∃ ms, (DanglingText ms message ∨ ∃ gap, IsText message (.obj gap ms)) ∧
          IsResponse limits (SkippedResult limits) expectedIdJson ms := by
  unfold validateInitializeResponse
  by_cases hsize : message.length > limits.maxMessageBytes
  · rw [if_pos hsize]
    simp [not_le.mpr hsize]
  rw [if_neg hsize, except_bind_ok]
  constructor
  · rintro ⟨r, hr, -⟩
    rcases (parseResponse_ok (fun _ _ => plainMethod_ok) (fun _ _ => skippedResult_ok)
      fun _ _ => rfl).mp hr with ⟨ms, htext, hms, -⟩
    exact ⟨not_lt.mp hsize, ms, htext, hms⟩
  · rintro ⟨-, ms, htext, hms⟩
    exact ⟨_, (parseResponse_ok (fun _ _ => plainMethod_ok) (fun _ _ => skippedResult_ok)
      fun _ _ => rfl).mpr ⟨ms, htext, hms, rfl⟩, rfl⟩

/-- The inventory of a response, with its tools sorted. -/
def inventoryOf (downstreamExecutable : Bytes) (ms : List (Member Value)) : ToolInventory :=
  ⟨downstreamExecutable, sortOn ToolInventoryEntry.name
    ((valuesAt (ascii "result") ms).flatMap toolsOf)⟩

theorem head_toolsOf {expectedIdJson : Bytes} {ms : List (Member Value)}
    (h : IsResponse limits (IsResult limits) expectedIdJson ms) :
    (((valuesAt (ascii "result") ms).head?.map toolsOf).getD []) =
      (valuesAt (ascii "result") ms).flatMap toolsOf := by
  rcases h.result with ⟨v, hv⟩
  simp [hv]

theorem leave_nonempty (exit : LoopExit) (h : exit ≠ .empty) :
    (if exit = .empty then .error .invalidEnvelope else .ok () : Except InventoryError Unit) =
      .ok () := if_neg h

/-- `parse_tools_list_response` accepts the responses that list tools, closed or left
behind a comma, and keeps their tools. -/
theorem parseToolsListResponse_ok {message expectedIdJson downstreamExecutable : Bytes}
    {inventory : ToolInventory} :
    parseToolsListResponse limits message expectedIdJson downstreamExecutable =
        .ok inventory ↔
      message.length ≤ limits.maxMessageBytes ∧
        ∃ ms, (DanglingText ms message ∨ ∃ gap, IsText message (.obj gap ms)) ∧
          IsResponse limits (IsResult limits) expectedIdJson ms ∧
          inventory = inventoryOf downstreamExecutable ms := by
  unfold parseToolsListResponse
  by_cases hsize : message.length > limits.maxMessageBytes
  · rw [if_pos hsize]
    simp [not_le.mpr hsize]
  rw [if_neg hsize, except_bind_ok]
  constructor
  · rintro ⟨r, hr, h⟩
    rcases (parseResponse_ok (fun _ _ => anyMethod_ok) (fun _ _ => parseResultObject_ok)
      leave_nonempty).mp hr with ⟨ms, htext, hms, rfl⟩
    cases h
    refine ⟨not_lt.mp hsize, ms, htext, hms, ?_⟩
    rw [head_toolsOf hms]
    rfl
  · rintro ⟨-, ms, htext, hms, rfl⟩
    refine ⟨_, (parseResponse_ok (fun _ _ => anyMethod_ok) (fun _ _ => parseResultObject_ok)
      leave_nonempty).mpr ⟨ms, htext, hms, rfl⟩, ?_⟩
    rw [head_toolsOf hms]
    rfl

/-- On the text of an object the result depends on its members only. -/
theorem parseToolsListResponse_document
    {message expectedIdJson downstreamExecutable tail : Bytes} {exit : LoopExit}
    {ms : List (Member Value)} (hdoc : DocumentText exit ms tail message)
    (hexit : exit ≠ .trailing) (hsize : message.length ≤ limits.maxMessageBytes)
    {inventory : ToolInventory} :
    parseToolsListResponse limits message expectedIdJson downstreamExecutable =
        .ok inventory ↔
      IsResponse limits (IsResult limits) expectedIdJson ms ∧
        inventory = inventoryOf downstreamExecutable ms := by
  have hrun : ∀ {r}, parseResponse limits ((Reader.string .malformedJson).map fun _ => ())
      (parseResultObject limits)
      (fun exit => if exit = .empty then .error .invalidEnvelope else .ok ())
      expectedIdJson message = .ok r ↔
        IsResponse limits (IsResult limits) expectedIdJson ms ∧
          r = (valuesAt (ascii "result") ms).head?.map toolsOf :=
    parseResponse_document (fun _ _ => anyMethod_ok) (fun _ _ => parseResultObject_ok)
      leave_nonempty hdoc hexit
  unfold parseToolsListResponse
  rw [if_neg (not_lt.mpr hsize), except_bind_ok]
  constructor
  · rintro ⟨r, hr, h⟩
    rcases hrun.mp hr with ⟨hms, rfl⟩
    cases h
    refine ⟨hms, ?_⟩
    rw [head_toolsOf hms]
    rfl
  · rintro ⟨hms, rfl⟩
    refine ⟨_, hrun.mpr ⟨hms, rfl⟩, ?_⟩
    rw [head_toolsOf hms]
    rfl

theorem parseToolsListResponse_text {message expectedIdJson downstreamExecutable : Bytes}
    {gap : Gap} {ms : List (Member Value)} (htext : IsText message (.obj gap ms))
    (hsize : message.length ≤ limits.maxMessageBytes) {inventory : ToolInventory} :
    parseToolsListResponse limits message expectedIdJson downstreamExecutable =
        .ok inventory ↔
      IsResponse limits (IsResult limits) expectedIdJson ms ∧
        inventory = inventoryOf downstreamExecutable ms := by
  rcases documentText_of_isText htext with ⟨tail, hdoc⟩
  exact parseToolsListResponse_document hdoc (exitOf_ne_trailing ms) hsize

/-! ## §4  Complete documents -/

/-- The text kept of a member that may be absent. -/
def KeepsOptional (key : Bytes) (text : Value → Bytes) (ms : List (Member Value))
    (kept : Bytes) : Prop :=
  (valuesAt key ms = [] ∧ kept = []) ∨ ∃ v, valuesAt key ms = [v] ∧ kept = text v

/-- What an entry of the inventory says of a tool object. -/
structure Describes (v : Value) (entry : ToolInventoryEntry) : Prop where
  name : ∃ t : StringText, valuesAt (ascii "name") (membersOf v) = [.str t] ∧
    0x5C ∉ t.val ∧ entry.name = t.val
  description : KeepsOptional (ascii "description") Value.render (membersOf v)
    entry.descriptionJson
  inputSchema : KeepsOptional (ascii "inputSchema") (fun v => v.canonical.render)
    (membersOf v) entry.inputSchemaJson
  annotations : KeepsOptional (ascii "annotations") (fun v => v.canonical.render)
    (membersOf v) entry.annotationsJson

/-- The inventory lists the tool objects of the result, each once, by name. -/
def ListsTools (ms : List (Member Value)) (inventory : ToolInventory) : Prop :=
  ∃ gap result gap' es, valuesAt (ascii "result") ms = [.obj gap result] ∧
    valuesAt (ascii "tools") result = [.arr gap' es] ∧
    Rearranged (fun e entry => Describes e.value entry) es inventory.tools ∧
    Ascending ToolInventoryEntry.name inventory.tools

theorem keepsOptional_flatMap {key : Bytes} {ms : List (Member Value)}
    (h : (valuesAt key ms).length ≤ 1) (text : Value → Bytes) :
    KeepsOptional key text ms ((valuesAt key ms).flatMap text) := by
  rcases eq_nil_or_singleton h with hnil | ⟨v, hv⟩
  · exact Or.inl ⟨hnil, by rw [hnil]; rfl⟩
  · exact Or.inr ⟨v, hv, by rw [hv, List.flatMap_singleton]⟩

theorem describes_entryOf {v : Value} (h : IsTool limits v) : Describes v (entryOf v) := by
  rcases h with ⟨gap, ms, rfl, hms⟩
  rcases hms.single List.mem_cons_self List.mem_cons_self with ⟨w, hw, hok⟩
  rcases (show IsToolName limits w from hok) with ⟨t, rfl, hescape, -⟩
  have hkeys : ascii "description" ∈ toolKeys ∧ ascii "inputSchema" ∈ toolKeys ∧
      ascii "annotations" ∈ toolKeys := by decide
  refine ⟨⟨t, hw, hescape, ?_⟩, keepsOptional_flatMap (hms.once _ hkeys.1) _,
    keepsOptional_flatMap (hms.once _ hkeys.2.1) _,
    keepsOptional_flatMap (hms.once _ hkeys.2.2) _⟩
  show (valuesAt (ascii "name") ms).flatMap plainText = t.val
  rw [hw, List.flatMap_singleton]
  rfl

theorem listsTools_inventoryOf {expectedIdJson : Bytes} {ms : List (Member Value)}
    (h : IsResponse limits (IsResult limits) expectedIdJson ms) (downstreamExecutable : Bytes) :
    ListsTools ms (inventoryOf downstreamExecutable ms) := by
  rcases h.result with ⟨result, hresult⟩
  rcases h.accepted result (by simp [hresult]) with ⟨gap, rms, rfl, hrms⟩
  rcases hrms.single List.mem_cons_self List.mem_cons_self with ⟨tools, htools, hok⟩
  rcases (show IsTools limits tools from hok) with ⟨⟨gap', es, rfl⟩, -, hall, hdistinct⟩
  have hinventory : (inventoryOf downstreamExecutable ms).tools =
      sortOn ToolInventoryEntry.name (es.map fun e => entryOf e.value) := by
    rw [inventoryOf, hresult, List.flatMap_singleton, toolsOf, membersOf, htools,
      List.flatMap_singleton]
    rfl
  refine ⟨gap, rms, gap', es, hresult, htools, ?_, ?_⟩
  · have hperm := sortOn_perm (fun e : Element Value => (entryOf e.value).name) es
    rw [hinventory, sortOn_map]
    refine ⟨_, hperm.symm, ?_⟩
    rw [List.forall₂_map_right_iff, List.forall₂_same]
    exact fun e he => describes_entryOf (hall e (hperm.mem_iff.mp he))
  · rw [hinventory]
    apply ascending_of_nodup ToolInventoryEntry.name (sortOn_pairwise _ _)
    have hperm := sortOn_perm ToolInventoryEntry.name (es.map fun e => entryOf e.value)
    exact (hperm.map ToolInventoryEntry.name).nodup_iff.mpr hdistinct

/-- What the parsers accept is a complete document, and the inventory is that of its
tools. -/
def InspectsComplete (limits : InventoryLimits)
    (message expectedIdJson downstreamExecutable : Bytes) : Prop :=
  (validateInitializeResponse limits message expectedIdJson = .ok () →
    ∃ gap ms, IsText message (.obj gap ms) ∧ ResponseTo expectedIdJson ms) ∧
  ∀ inventory, parseToolsListResponse limits message expectedIdJson downstreamExecutable =
      .ok inventory →
    ∃ gap ms, IsText message (.obj gap ms) ∧ ResponseTo expectedIdJson ms ∧
      ListsTools ms inventory

/-- A response within the limits with a comma in the place of its closing brace. -/
def DanglingResponse (limits : InventoryLimits) (message expectedIdJson : Bytes) : Prop :=
  message.length ≤ limits.maxMessageBytes ∧ ∃ ms, DanglingText ms message ∧
    (IsResponse limits (SkippedResult limits) expectedIdJson ms ∨
      IsResponse limits (IsResult limits) expectedIdJson ms)

/-- Only complete documents are accepted, but for responses that break off behind a
comma of their own members. -/
theorem inspects_complete_iff (limits : InventoryLimits)
    (message expectedIdJson downstreamExecutable : Bytes) :
    InspectsComplete limits message expectedIdJson downstreamExecutable ↔
      ¬ DanglingResponse limits message expectedIdJson := by
  constructor
  · rintro ⟨hvalidate, htools⟩ ⟨hsize, ms, hdangling, hms | hms⟩
    · rcases hvalidate (validateInitializeResponse_ok.mpr
        ⟨hsize, ms, Or.inl hdangling, hms⟩) with ⟨gap, ms', htext, -⟩
      exact hdangling.not_isObjectText ⟨gap, ms', htext⟩
    · rcases htools _ (parseToolsListResponse_ok.mpr
        ⟨hsize, ms, Or.inl hdangling, hms, rfl⟩) with ⟨gap, ms', htext, -⟩
      exact hdangling.not_isObjectText ⟨gap, ms', htext⟩
  · intro hclosed
    constructor
    · intro hok
      rcases validateInitializeResponse_ok.mp hok with ⟨hsize, ms, htext, hms⟩
      rcases htext with hdangling | ⟨gap, htext⟩
      · exact absurd ⟨hsize, ms, hdangling, Or.inl hms⟩ hclosed
      · exact ⟨gap, ms, htext, hms.toResponseTo⟩
    · intro inventory hok
      rcases parseToolsListResponse_ok.mp hok with ⟨hsize, ms, htext, hms, rfl⟩
      rcases htext with hdangling | ⟨gap, htext⟩
      · exact absurd ⟨hsize, ms, hdangling, Or.inr hms⟩ hclosed
      · exact ⟨gap, ms, htext, hms.toResponseTo, listsTools_inventoryOf hms _⟩

/-- A response without tools, cut off behind its last comma. -/
def cutResponse : Bytes :=
  ascii "\x7b\"jsonrpc\":\"2.0\",\"id\":1,\"result\":\x7b\"tools\":[]\x7d,"

theorem cut_response_accepted :
    (∃ inventory, parseToolsListResponse {} cutResponse (ascii "1") (ascii "srv") =
        .ok inventory) ∧
      validateInitializeResponse {} cutResponse (ascii "1") = .ok () ∧
      ¬ InspectsComplete {} cutResponse (ascii "1") (ascii "srv") := by
  obtain ⟨htools, hvalidate, hcomma⟩ :
      (parseToolsListResponse {} cutResponse (ascii "1") (ascii "srv")).isOk = true ∧
        validateInitializeResponse {} cutResponse (ascii "1") = .ok () ∧
        cutResponse = cutResponse.dropLast ++ 0x2C :: noGap.val := by
    decide +kernel
  have haccepted : ∃ inventory, parseToolsListResponse {} cutResponse (ascii "1")
      (ascii "srv") = .ok inventory := by
    cases hparse : parseToolsListResponse {} cutResponse (ascii "1") (ascii "srv") with
    | ok inventory => exact ⟨inventory, rfl⟩
    | error e =>
        rw [hparse] at htools
        cases htools
  refine ⟨haccepted, hvalidate, fun h => ?_⟩
  rcases h.1 hvalidate with ⟨gap, ms, htext, -⟩
  rw [hcomma] at htext
  exact not_isObjectText_of_comma noGap ⟨gap, ms, htext⟩

end NativeGuard.Protocol.Inventory

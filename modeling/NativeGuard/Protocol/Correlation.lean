import NativeGuard.Protocol.Filter

/-!
# Correlating responses with requests

What the pending table is for: the answer to a forwarded `tools/list` request
is filtered. The table refines a bounded set of id tokens over every run
(`pending_refines_set`). While an id stays in the set its response is filtered
(`response_of_pending`); it leaves the set by a delivered response, by a message
that is dropped, or by none at all when the response spells the id differently,
and the last two are where the correlation is lost.
-/

namespace NativeGuard.Protocol

open Json Proxy Process Security

namespace ToolCallFilter

/-! ## §1  The table over runs -/

/-- On every run the pending array is a bounded set of id tokens, with exact
counters, and the calls change the set as a set. -/
theorem pending_refines_set (policy : PolicyTable) (config : FilterConfig)
    (inputs : List Input) :
    let f := (init policy config).run inputs
    (f.pending.ids.Nodup ∧ f.pending.ids.length = f.pending.slots.count ∧
      f.pending.slots.count ≤ config.runtime.maxPendingToolsList ∧
      (∀ idJson ∈ f.pending.ids, idJson ≠ [] ∧
        idJson.length ≤ config.maxPendingIdBytes.toNat ∧
        idJson.length ≤ f.pending.idBytes.toNat) ∧
      f.pending.idBytes.toNat = PendingTable.totalLength f.pending.ids ∧
      f.pending.idBytes ≤ config.maxPendingTotalIdBytes) ∧
    (∀ message,
      let envelope := classify config.runtime message
      let outcome := f.inspect message
      (RequestsList envelope ∧ outcome.decision.action = .forward →
        envelope.idJson ∉ f.pending.idSet ∧
        outcome.filter.pending.idSet = insert envelope.idJson f.pending.idSet) ∧
      (¬ (RequestsList envelope ∧ outcome.decision.action = .forward) →
        outcome.filter.pending.idSet = f.pending.idSet)) ∧
    (∀ message,
      let envelope := classify config.runtime message
      (f.inspectServer message).filter.pending.idSet =
        if envelope.error ≠ .none ∨ envelope.kind = .response then
          f.pending.idSet.erase envelope.idJson
        else f.pending.idSet) ∧
    f.connectionClosed.pending.idSet = ∅ := by
  intro f
  have hvalid : f.Valid := valid_run (valid_init policy config) inputs
  have hconfig : f.config = config := (run_settings (init policy config) inputs).1
  have hpending : f.pending.Valid config := hconfig ▸ hvalid
  refine ⟨⟨hpending.nodup, f.pending.slots.length_live, hpending.count_le, ?_,
    hpending.bytes, hpending.total⟩, ?_, ?_, PendingTable.idSet_clear f.pending⟩
  · intro idJson hid
    exact ⟨hpending.nonempty idJson hid, hpending.idLength idJson hid,
      hpending.length_le_bytes hid⟩
  · intro message
    have hset := inspect_idSet (f := f) message
    rw [hconfig] at hset
    constructor
    · rintro ⟨hlist, hforward⟩
      rw [if_pos ⟨hlist, hforward⟩] at hset
      refine ⟨?_, hset⟩
      rw [← hconfig] at hlist ⊢
      exact inspect_idSet_new hlist hforward
    · intro hnot
      rwa [if_neg hnot] at hset
  · intro message
    have hset := inspectServer_idSet hvalid message
    rwa [hconfig] at hset

/-! ## §2  The response to a pending request -/

/-- What reaches the client of a server message. -/
def delivered (f : ToolCallFilter) (message : Bytes) : Option Bytes :=
  match (f.inspectServer message).decision.action with
  | .forward => some message
  | .replace => some (f.inspectServer message).decision.replacement
  | .drop => none

/-- A classified response that carries the id token `idJson`. -/
def RespondsTo (f : ToolCallFilter) (idJson message : Bytes) : Prop :=
  (classify f.config.runtime message).error = .none ∧
    (classify f.config.runtime message).kind = .response ∧
    (classify f.config.runtime message).idJson = idJson

variable {f : ToolCallFilter}

/-- While its id is pending, a response reaches the client complete and with
visible tools only, or not at all. -/
theorem response_of_pending {idJson message text : Bytes}
    (hresponds : f.RespondsTo idJson message) (hmem : idJson ∈ f.pending.ids)
    (hdelivered : f.delivered message = some text) :
    IsObjectText text ∧ ∀ v, IsText text v → ToolsVisible f.core.policy v := by
  obtain ⟨herror, hkind, rfl⟩ := hresponds
  obtain ⟨-, exit, ms, tail, hdoc, htrailing, -⟩ :=
    (classify_accepts _ _).mp herror
  have hexit : exit ≠ .cut → exit = .empty ∨ exit = .closed :=
    fun hcut => LoopExit.whole_iff.mpr ⟨htrailing, hcut⟩
  unfold delivered at hdelivered
  rw [inspectServer_of_pending herror hkind hmem] at hdelivered
  unfold filterResponse at hdelivered
  cases hrewrite : rewriteToolsListResponse message
      f.config.runtime.maxNestingDepth f.core with
  | malformed =>
      rw [hrewrite] at hdelivered
      cases hdelivered
  | passthrough =>
      rw [hrewrite] at hdelivered
      cases hdelivered
      obtain ⟨⟨hcut, -⟩, -⟩ := (rewrite_passthrough_iff hdoc).mp hrewrite
      obtain ⟨gap, htext⟩ := isText_of_documentText hdoc (hexit hcut)
      exact ⟨⟨gap, ms, htext⟩, fun v hv => passthrough_visible hrewrite hv⟩
  | rewritten out removedTools =>
      rw [hrewrite] at hdelivered
      cases hdelivered
      obtain ⟨⟨hcut, -⟩, -⟩ := (rewrite_rewritten_iff hdoc).mp hrewrite
      obtain ⟨hout, -⟩ := rewritten_text hdoc hrewrite
      obtain ⟨gap, htext⟩ := isText_of_documentText hout (hexit hcut)
      exact ⟨⟨gap, _, htext⟩, fun v hv => rewritten_visible hdoc hrewrite hv⟩

/-! ## §3  Losing an id without delivering -/

/-- The states of a run, each with the call made there. -/
def trace (f : ToolCallFilter) : List Input → List (ToolCallFilter × Input)
  | [] => []
  | input :: inputs => (f, input) :: trace (f.next input) inputs

/-- The call does not drop a server message that carries a pending id: it is
neither rejected by the classifier nor a response that cannot be rewritten. -/
def KeepsCorrelation (f : ToolCallFilter) : Input → Prop
  | .server message =>
      (classify f.config.runtime message).idJson ∈ f.pending.ids →
        (classify f.config.runtime message).error = .none ∧
        ((classify f.config.runtime message).kind = .response →
          rewriteToolsListResponse message f.config.runtime.maxNestingDepth f.core ≠
            .malformed)
  | _ => True

def DeliversResponse (idJson : Bytes) (f : ToolCallFilter) : Input → Prop
  | .server message => f.RespondsTo idJson message ∧ f.delivered message ≠ none
  | _ => False

instance (f : ToolCallFilter) : (input : Input) → Decidable (f.KeepsCorrelation input)
  | .client _ | .closed => .isTrue trivial
  | .server _ => by
      unfold KeepsCorrelation
      infer_instance

instance (f : ToolCallFilter) (idJson message : Bytes) :
    Decidable (f.RespondsTo idJson message) := by
  unfold RespondsTo
  infer_instance

instance (idJson : Bytes) (f : ToolCallFilter) :
    (input : Input) → Decidable (DeliversResponse idJson f input)
  | .client _ | .closed => .isFalse id
  | .server message =>
      inferInstanceAs (Decidable (f.RespondsTo idJson message ∧ f.delivered message ≠ none))

/-- After a forwarded `tools/list` request, the first response with its id that
reaches the client is complete and lists visible tools only. -/
def FirstResponseFiltered (policy : PolicyTable) (config : FilterConfig)
    (inputs : List Input) : Prop :=
  ∀ before request between response after, inputs = before ++
      .client request :: (between ++ .server response :: after) →
    ∀ f, f = (init policy config).run before →
      RequestsList (classify config.runtime request) →
      (f.inspect request).decision.action = .forward →
      (∀ step ∈ trace (f.inspect request).filter between, ¬ DeliversResponse
        (classify config.runtime request).idJson step.1 step.2) →
      ∀ g, g = (f.inspect request).filter.run between →
        g.RespondsTo (classify config.runtime request).idJson response →
        ∀ text, g.delivered response = some text →
          IsObjectText text ∧ ∀ v, IsText text v → ToolsVisible policy v

/-- A step that keeps the correlation leaves an unanswered id pending. -/
theorem pending_next (hvalid : f.Valid) {idJson : Bytes} (hmem : idJson ∈ f.pending.ids)
    {input : Input} (hopen : input ≠ .closed) (hkeeps : f.KeepsCorrelation input)
    (hfirst : ¬ DeliversResponse idJson f input) :
    idJson ∈ (f.next input).pending.ids := by
  rw [← PendingTable.mem_idSet] at hmem ⊢
  cases input with
  | closed => exact absurd rfl hopen
  | client message =>
      show idJson ∈ (f.inspect message).filter.pending.idSet
      rw [inspect_idSet]
      split
      · exact Finset.mem_insert_of_mem hmem
      · exact hmem
  | server message =>
      show idJson ∈ (f.inspectServer message).filter.pending.idSet
      rw [inspectServer_idSet hvalid]
      split
      · rename_i hforgets
        apply Finset.mem_erase.mpr ⟨?_, hmem⟩
        rintro rfl
        -- the id would be forgotten, but then its response was delivered
        have hids := PendingTable.mem_idSet.mp hmem
        obtain ⟨herror, hrewrite⟩ := hkeeps hids
        have hkind := hforgets.resolve_left (not_not.mpr herror)
        apply hfirst
        refine ⟨⟨herror, hkind, rfl⟩, ?_⟩
        unfold delivered
        rw [inspectServer_of_pending herror hkind hids]
        unfold filterResponse
        cases hcase : rewriteToolsListResponse message
            f.config.runtime.maxNestingDepth f.core with
        | malformed => exact absurd hcase (hrewrite hkind)
        | passthrough => simp
        | rewritten out removedTools => simp
      · exact hmem

theorem pending_run (hvalid : f.Valid) {idJson : Bytes} (hmem : idJson ∈ f.pending.ids)
    {inputs : List Input} (hopen : ∀ input ∈ inputs, input ≠ .closed)
    (hkeeps : ∀ step ∈ trace f inputs, step.1.KeepsCorrelation step.2)
    (hfirst : ∀ step ∈ trace f inputs, ¬ DeliversResponse idJson step.1 step.2) :
    idJson ∈ (f.run inputs).pending.ids := by
  induction inputs generalizing f with
  | nil => exact hmem
  | cons input inputs ih =>
      have hstep : (f, input) ∈ trace f (input :: inputs) := List.mem_cons_self
      have hnext := pending_next hvalid hmem (hopen input List.mem_cons_self)
        (hkeeps _ hstep) (hfirst _ hstep)
      apply ih (valid_next hvalid input) hnext
      · intro x hx
        exact hopen x (List.mem_cons_of_mem _ hx)
      · intro step hs
        exact hkeeps step (List.mem_cons_of_mem _ hs)
      · intro step hs
        exact hfirst step (List.mem_cons_of_mem _ hs)

theorem trace_append (f : ToolCallFilter) (inputs inputs' : List Input) :
    trace f (inputs ++ inputs') = trace f inputs ++ trace (f.run inputs) inputs' := by
  induction inputs generalizing f with
  | nil => rfl
  | cons input inputs ih =>
      rw [List.cons_append, trace, ih, trace, List.cons_append]
      rfl

/-- Where no server message with a pending id is dropped, the first delivered
response is filtered. -/
theorem first_response_filtered (policy : PolicyTable) (config : FilterConfig)
    (inputs : List Input) (hopen : ∀ input ∈ inputs, input ≠ .closed)
    (hkeeps : ∀ step ∈ trace (init policy config) inputs,
      step.1.KeepsCorrelation step.2) :
    FirstResponseFiltered policy config inputs := by
  rintro before request between response after rfl f rfl hlist hforward hfirst g rfl
    hresponds text hdelivered
  obtain ⟨hconfig, -⟩ := run_settings (init policy config) before
  have hconfig : ((init policy config).run before).config = config := hconfig
  have hvalid := valid_run (valid_init policy config) before
  have hvalid' : (((init policy config).run before).inspect request).filter.Valid :=
    valid_next hvalid (.client request)
  -- the id is pending once the request is forwarded
  have hmem : (classify config.runtime request).idJson ∈
      (((init policy config).run before).inspect request).filter.pending.ids := by
    rw [← PendingTable.mem_idSet, inspect_idSet, hconfig, if_pos ⟨hlist, hforward⟩]
    exact Finset.mem_insert_self _ _
  have hbetween : (classify config.runtime request).idJson ∈
      ((((init policy config).run before).inspect request).filter.run
        between).pending.ids := by
    apply pending_run hvalid' hmem ?_ ?_ hfirst
    · intro input hinput
      exact hopen input (by simp [hinput])
    · intro step hstep
      apply hkeeps step
      rw [trace_append, List.mem_append, trace, List.mem_cons, trace_append,
        List.mem_append]
      exact Or.inr (Or.inr (Or.inl hstep))
  obtain ⟨hwf, hvisible⟩ := response_of_pending hresponds hbetween hdelivered
  refine ⟨hwf, ?_⟩
  have hcore : ((((init policy config).run before).inspect request).filter.run
      between).core.policy = policy := by
    rw [(run_settings _ between).2, (inspect_settings request).2,
      (run_settings (init policy config) before).2]
    rfl
  rwa [hcore] at hvisible

/-- The policy without rules, which denies everything. -/
def denyAll : PolicyTable := .ofDefaults {}

/-- The policy that shows `x`, and nothing else. -/
def showX : PolicyTable where
  rules := [⟨ascii "x", .allow, .deny⟩]
  sorted := List.pairwise_singleton _ _
  named := List.forall_mem_singleton.mpr (by decide)

def listRequest : Bytes :=
  ascii "\x7b\"jsonrpc\":\"2.0\",\"id\":1,\"method\":\"tools/list\"\x7d"

def listResponse : Bytes :=
  ascii "\x7b\"jsonrpc\":\"2.0\",\"id\":1,\"result\":\x7b\"tools\":[\x7b\"name\":\"x\"\x7d]\x7d\x7d"

/-- A list of two tools. -/
def twoTools : Bytes :=
  ascii "\x7b\"jsonrpc\":\"2.0\",\"id\":1,\"result\":\x7b\"tools\":[\x7b\"name\":\"x\"\x7d,\x7b\"name\":\"y\"\x7d]\x7d\x7d"

theorem first_response_filtered_example :
    FirstResponseFiltered denyAll {} [.client listRequest, .server listResponse] :=
  first_response_filtered denyAll {} _ (by simp) (by decide +kernel)

def one : NumberText :=
  ⟨ascii "1", [], ascii "1", [], [], by decide, Or.inl rfl,
    Or.inr ⟨0x31, [], by decide, by decide, by decide, nofun⟩, Or.inl rfl, Or.inl rfl⟩

def listedTool : Value := .obj noGap
  [Member.compact (plainString (ascii "name") (.refl true))
    (.str (plainString (ascii "x") (.refl true)))]

def listedTools : Value := .obj noGap
  [Member.compact (plainString (ascii "tools") (.refl true))
    (.arr noGap [Element.compact listedTool])]

/-- `listResponse` as a tree. -/
def listTree : Value := .obj noGap
  [Member.compact (plainString (ascii "jsonrpc") (.refl true))
      (.str (plainString (ascii "2.0") (.refl true))),
    Member.compact (plainString (ascii "id") (.refl true)) (.num one),
    Member.compact (plainString (ascii "result") (.refl true)) listedTools]

theorem isText_listTree : IsText listResponse listTree :=
  ⟨noGap, noGap, by decide +kernel⟩

theorem listTree_not_visible : ¬ ToolsVisible denyAll listTree := by
  intro h
  obtain ⟨gap, es, htools, hes⟩ := h noGap _ rfl listedTools
    ⟨_, List.mem_cons_of_mem _ (List.mem_cons_of_mem _ List.mem_cons_self),
      rfl, rfl⟩ noGap _ rfl
    (.arr noGap [Element.compact listedTool]) ⟨_, List.mem_singleton.mpr rfl, rfl, rfl⟩
  cases htools
  obtain ⟨gap, tool, htool, -, hname⟩ := hes _ (List.mem_singleton.mpr rfl)
  cases htool
  obtain ⟨t, ht, hallow⟩ := hname (.str (plainString (ascii "x") (.refl true)))
    ⟨_, List.mem_singleton.mpr rfl, rfl, rfl⟩
  cases ht
  exact absurd hallow nofun

/-- A server message that is cut off inside its id member. -/
def brokenMessage : Bytes := ascii "\x7b\"id\":1"

theorem dropped_message_opens_filter :
    ¬ FirstResponseFiltered denyAll {}
      [.client listRequest, .server brokenMessage, .server listResponse] := by
  intro h
  let listening := (((init denyAll {}).run []).inspect listRequest).filter
  let request := classify ({} : FilterConfig).runtime listRequest
  have hrequest : RequestsList request ∧
      (((init denyAll {}).run []).inspect listRequest).decision.action = .forward ∧
      ∀ step ∈ trace listening [.server brokenMessage],
        ¬ DeliversResponse request.idJson step.1 step.2 := by
    decide +kernel
  -- the broken message has taken the id out of the table
  have hresponse : (listening.run [.server brokenMessage]).RespondsTo request.idJson
        listResponse ∧
      (listening.run [.server brokenMessage]).delivered listResponse =
        some listResponse := by
    decide +kernel
  obtain ⟨hlist, hforward, hfirst⟩ := hrequest
  obtain ⟨hresponds, hdelivered⟩ := hresponse
  obtain ⟨-, hvisible⟩ := h [] listRequest [.server brokenMessage] listResponse [] rfl
    _ rfl hlist hforward hfirst _ rfl hresponds _ hdelivered
  exact listTree_not_visible (hvisible listTree isText_listTree)

/-! ## §4  Other spellings of an id

The table compares raw id tokens, the client compares values. -/

/-- The same decision, the same hidden tools and the same ids left pending. -/
def TreatedAlike (o o' : Outcome ServerMessageDecision) : Prop :=
  o.decision.action = o'.decision.action ∧
    o.events.map Audit.AuditEvent.toolName = o'.events.map Audit.AuditEvent.toolName ∧
    o.filter.pending.idSet = o'.filter.pending.idSet

/-- A response with an unknown spelling is not treated as an answer at all. -/
theorem delivered_of_other_spelling {idJson message : Bytes}
    (hresponds : f.RespondsTo idJson message) (hid : idJson ∉ f.pending.ids) :
    f.delivered message = some message := by
  obtain ⟨herror, -, rfl⟩ := hresponds
  unfold delivered
  rw [inspectServer_of_not_pending herror (Or.inr hid)]

/-- A response is treated like the same response with the pending id `a` exactly
if it spells its id as the request did; with a spelling that is not pending itself it
passes unfiltered. -/
theorem treated_alike_iff (hvalid : f.Valid) {a b : Bytes} (ha : a ∈ f.pending.ids)
    {front back : Bytes} (hresponds : f.RespondsTo b (front ++ b ++ back))
    (hresponds' : f.RespondsTo a (front ++ a ++ back)) :
    (TreatedAlike (f.inspectServer (front ++ b ++ back))
        (f.inspectServer (front ++ a ++ back)) ↔ b = a) ∧
      (b ∉ f.pending.ids →
        f.delivered (front ++ b ++ back) = some (front ++ b ++ back)) := by
  refine ⟨?_, delivered_of_other_spelling hresponds⟩
  constructor
  · rintro ⟨-, -, hset⟩
    obtain ⟨-, hkind, hid⟩ := hresponds
    obtain ⟨-, hkind', hid'⟩ := hresponds'
    rw [inspectServer_idSet hvalid, inspectServer_idSet hvalid, if_pos (Or.inr hkind),
      if_pos (Or.inr hkind'), hid, hid'] at hset
    -- `a` is gone from the one set, so it was `b` that went from the other
    by_contra hne
    have hmem : a ∈ f.pending.idSet.erase b :=
      Finset.mem_erase.mpr ⟨Ne.symm hne, PendingTable.mem_idSet.mpr ha⟩
    rw [hset] at hmem
    exact Finset.notMem_erase a _ hmem
  · rintro rfl
    exact ⟨rfl, rfl, rfl⟩

def letterA : StringText := plainString (ascii "a") (.refl true)

/-- The same letter, spelled as an escape. -/
def escapedA : StringText :=
  ⟨ascii "\\u0061", StringBody.unicode (a := 0x30) (b := 0x30) (c := 0x36) (d := 0x31)
    (by decide) (by decide) (by decide) (by decide) StringBody.nil⟩

/-- A filter with one pending request, whose id is the string `a`. -/
def waiting : ToolCallFilter :=
  (init denyAll {}).run
    [.client (ascii "\x7b\"jsonrpc\":\"2.0\",\"id\":\"a\",\"method\":\"tools/list\"\x7d")]

def beforeId : Bytes := ascii "\x7b\"jsonrpc\":\"2.0\",\"id\":"

def behindId : Bytes := ascii ",\"result\":\x7b\"tools\":[\x7b\"name\":\"x\"\x7d]\x7d\x7d"

theorem waiting_responses :
    (Value.str letterA).render ∈ waiting.pending.ids ∧
      waiting.RespondsTo (Value.str escapedA).render
        (beforeId ++ (Value.str escapedA).render ++ behindId) ∧
      waiting.RespondsTo (Value.str letterA).render
        (beforeId ++ (Value.str letterA).render ++ behindId) := by
  decide +kernel

theorem treated_alike_iff_example :
    (TreatedAlike
        (waiting.inspectServer (beforeId ++ (Value.str escapedA).render ++ behindId))
        (waiting.inspectServer (beforeId ++ (Value.str letterA).render ++ behindId)) ↔
      (Value.str escapedA).render = (Value.str letterA).render) ∧
    waiting.delivered (beforeId ++ (Value.str escapedA).render ++ behindId) =
      some (beforeId ++ (Value.str escapedA).render ++ behindId) := by
  obtain ⟨hmem, hescaped, hletter⟩ := waiting_responses
  have hother : (Value.str escapedA).render ∉ waiting.pending.ids := by
    decide +kernel
  obtain ⟨hiff, hpasses⟩ := treated_alike_iff (valid_run (valid_init denyAll {}) _) hmem
    hescaped hletter
  exact ⟨hiff, hpasses hother⟩

theorem escaped_id_passes_unfiltered :
    SameScalar (.str escapedA) (.str letterA) ∧
      (Value.str letterA).render ∈ waiting.pending.ids ∧
      waiting.RespondsTo (Value.str escapedA).render
        (beforeId ++ (Value.str escapedA).render ++ behindId) ∧
      waiting.RespondsTo (Value.str letterA).render
        (beforeId ++ (Value.str letterA).render ++ behindId) ∧
      waiting.delivered (beforeId ++ (Value.str escapedA).render ++ behindId) =
        some (beforeId ++ (Value.str escapedA).render ++ behindId) ∧
      ¬ TreatedAlike
        (waiting.inspectServer (beforeId ++ (Value.str escapedA).render ++ behindId))
        (waiting.inspectServer (beforeId ++ (Value.str letterA).render ++ behindId)) := by
  have hpasses : decodeString escapedA.val = decodeString letterA.val ∧
      waiting.delivered (beforeId ++ (Value.str escapedA).render ++ behindId) =
        some (beforeId ++ (Value.str escapedA).render ++ behindId) ∧
      (waiting.inspectServer
          (beforeId ++ (Value.str escapedA).render ++ behindId)).decision.action ≠
        (waiting.inspectServer
          (beforeId ++ (Value.str letterA).render ++ behindId)).decision.action := by
    decide +kernel
  obtain ⟨hmem, hescaped, hletter⟩ := waiting_responses
  obtain ⟨hsame, hdelivered, hdiffers⟩ := hpasses
  refine ⟨SameScalar.str _ _ hsame, hmem, hescaped, hletter, hdelivered, ?_⟩
  rintro ⟨haction, -⟩
  exact hdiffers haction

end ToolCallFilter

end NativeGuard.Protocol

import NativeGuard.Process.RelaySafety

/-!
# What the client hears (`run_child` in `src/main.cpp`)

However a run goes, the client hears whole lines, and each of them is a line of the server,
an answer of the server from which the guard has taken the hidden tools, or the refusal of
a request of its own; those of the server in the server's order, the refusals in the order
of the requests, and each of them once. Nothing that answers a list for which the guard
still waits shows a hidden tool (`client_hears`); the guard waits until a response with the
id has come, or a message that it cannot accept and that has the id.
-/

namespace NativeGuard.Process

open Json Json.Scan Data Io Protocol ToolCallFilter Proxy Security

/-! ## §1  A rewritten answer is still the answer -/

theorem nesting_filterTools (core : ProxyCore) (v : Value) :
    (filterTools core v).nesting ≤ v.nesting := by
  cases v with
  | arr gap es =>
      show (Value.arr noGap (kept core es)).nesting ≤ _
      rw [nesting_arr_le]
      intro e he
      obtain ⟨e₀, he₀, rfl⟩ := List.mem_map.mp he
      exact nesting_arr_le.mp le_rfl e₀ (List.mem_filter.mp he₀).1
  | str t => exact le_rfl
  | num t => exact le_rfl
  | lit w => exact le_rfl
  | obj gap ms => exact le_rfl

theorem nesting_filterResult (core : ProxyCore) (r : Value) :
    (filterResult core r).nesting ≤ r.nesting := by
  cases r with
  | obj gap ms =>
      show (Value.obj gap (mapAt _ (filterTools core) ms)).nesting ≤ _
      rw [nesting_obj_le]
      refine forall_mem_mapAt (p := fun _ v => v.nesting + 1 ≤ (Value.obj gap ms).nesting)
        (nesting_obj_le.mp le_rfl) ?_
      intro v hv
      exact (Nat.add_le_add_right (nesting_filterTools core v) 1).trans hv
  | str t => exact le_rfl
  | num t => exact le_rfl
  | lit w => exact le_rfl
  | arr gap es => exact le_rfl

/-- The classifier sees no difference between an answer and its rewriting. -/
theorem classify_rewritten {limits : RuntimeLimits} {core : ProxyCore} {maxDepth : Nat}
    {message text : Bytes} {removedTools : List Bytes}
    (herror : (classify limits message).error = .none)
    (hrewrite : rewriteToolsListResponse message maxDepth core = .rewritten text removedTools) :
    classify limits text = classify limits message := by
  obtain ⟨hsize, exit, ms, tail, hdoc, hexit, hms, hskip⟩ :=
    (classify_accepts limits message).mp herror
  obtain ⟨-, hresult, -⟩ := (rewrite_rewritten_iff hdoc).mp hrewrite
  obtain ⟨htext, -⟩ := rewritten_text hdoc hrewrite
  obtain ⟨-, -, -, -, -, -, -, -, -, -, hlength, -⟩ := rewrite_splices hdoc hrewrite
  have hother : ∀ key, key ≠ ascii "result" →
      valuesAt key (filtered core ms) = valuesAt key ms :=
    fun key hkey => valuesAt_mapAt_of_ne hkey _ _
  have hone : (valuesAt (ascii "result") (filtered core ms)).length =
      (valuesAt (ascii "result") ms).length := by
    unfold filtered
    rw [valuesAt_mapAt, List.length_map]
  have hreply : IsReply ms := hms.shape.resolve_left fun hcall => hresult hcall.result
  have hmembers : EnvelopeMembers (filtered core ms) := by
    refine ⟨forall_mem_mapAt (p := fun key _ => 0x5C ∉ key) hms.keys fun _ hv => hv, ?_, ?_,
      Or.inr ⟨?_, ?_, ?_⟩⟩
    · rw [hother _ (by decide)]
      exact hms.version
    · rw [hother _ (by decide)]
      exact hms.ids
    · rw [hother _ (by decide)]
      exact hreply.method
    · rw [hother _ (by decide)]
      exact hreply.id
    · rw [hone, hother _ (by decide)]
      exact hreply.outcome
  have hwithin : SkippedWithin limits.maxNestingDepth (filtered core ms) := by
    refine forall_mem_mapAt (p := fun key v =>
      key ∉ [ascii "jsonrpc", ascii "method", ascii "id"] →
        1 + v.nesting ≤ limits.maxNestingDepth) hskip ?_
    intro v hv hkey
    exact (Nat.add_le_add_left (nesting_filterResult core v) 1).trans (hv hkey)
  have hok := (classify_accepts limits text).mpr
    ⟨hlength.trans hsize, exit, _, tail, htext, hexit, hmembers, hwithin⟩
  rw [(classify_determined hok htext hexit).2.2, (classify_determined herror hdoc hexit).2.2]
  simp only [determinedEnvelope, hother (ascii "method") (by decide),
    hother (ascii "id") (by decide)]

/-! ## §2  Lines for the client -/

/-- One line for the client, with where it comes from. -/
inductive Told where
  | passed (line : Bytes)
  | listed (line text : Bytes)
  | refused (request text : Bytes)

namespace Told

def text : Told → Bytes
  | .passed line => line
  | .listed _ text => text
  | .refused _ text => text

/-- The line of the server that is passed on. -/
def line : Told → Option Bytes
  | .passed line => some line
  | .listed line _ => some line
  | .refused _ _ => none

/-- The line of the client that is answered. -/
def request : Told → Option Bytes
  | .passed _ => none
  | .listed _ _ => none
  | .refused request _ => some request

/-- What the guard may tell: what it can read of the server, a list of tools that it shows
as the response that it was, and a response to a call or a list of the client. -/
def Fair (policy : PolicyTable) (limits : RuntimeLimits) : Told → Prop
  | .passed line => (classify limits line).error = .none
  | .listed line text =>
      (classify limits line).error = .none ∧ (classify limits line).kind = .response ∧
        classify limits text = classify limits line ∧
          ∀ v, IsText text v → ToolsVisible policy v
  | .refused request text =>
      ((classify limits request).method = ascii "tools/call" ∨
        (classify limits request).method = ascii "tools/list") ∧
      ∀ others : RuntimeLimits, text.length ≤ others.maxMessageBytes →
        2 ≤ others.maxNestingDepth → classify others text =
          { kind := .response
            idKind := (classify limits request).idKind
            idJson := (classify limits request).idJson }

end Told

namespace Inspection

def told : Inspection → Option Told
  | .client message decision =>
      if decision.action = .respondWithError then some (.refused message (errorLine decision))
      else none
  | .server message decision =>
      match decision.action with
      | .forward => some (.passed message)
      | .replace => some (.listed message decision.replacement)
      | .drop => none

/-- What is told, and of what. -/
theorem told_cases {inspection : Inspection} {told : Told} (h : inspection.told = some told) :
    (∃ message decision, inspection = .client message decision ∧
      decision.action = .respondWithError ∧ told = .refused message (errorLine decision)) ∨
    (∃ message decision, inspection = .server message decision ∧
      decision.action = .forward ∧ told = .passed message) ∨
    ∃ message decision, inspection = .server message decision ∧
      decision.action = .replace ∧ told = .listed message decision.replacement := by
  cases inspection with
  | client message decision =>
      have htold : (if decision.action = .respondWithError then
        some (Told.refused message (errorLine decision)) else none) = some told := h
      split at htold
      · rename_i hrespond
        exact Or.inl ⟨message, decision, rfl, hrespond, (Option.some.inj htold).symm⟩
      · cases htold
  | server message decision =>
      cases haction : decision.action with
      | forward =>
          simp only [Inspection.told, haction] at h
          exact Or.inr (Or.inl ⟨message, decision, rfl, haction, (Option.some.inj h).symm⟩)
      | replace =>
          simp only [Inspection.told, haction] at h
          exact Or.inr (Or.inr ⟨message, decision, rfl, haction, (Option.some.inj h).symm⟩)
      | drop =>
          simp only [Inspection.told, haction] at h
          cases h

theorem textForClient_eq (inspection : Inspection) :
    inspection.textForClient =
      inspection.told.toList.flatMap fun told => told.text ++ [newline] := by
  cases inspection with
  | client message decision =>
      show (if _ then _ else _ : Bytes) = (if _ then _ else _ : Option Told).toList.flatMap _
      split
      · exact (List.append_nil _).symm
      · rfl
  | server message decision =>
      cases haction : decision.action with
      | forward =>
          rw [server_forward haction]
          simp only [Inspection.told, haction]
          exact (List.append_nil _).symm
      | replace =>
          rw [server_replace haction]
          simp only [Inspection.told, haction]
          exact (List.append_nil _).symm
      | drop =>
          rw [server_drop haction]
          simp only [Inspection.told, haction]
          rfl

theorem told_line {inspection : Inspection} {told : Told} {line : Bytes}
    (htold : inspection.told = some told) (h : told.line = some line) :
    inspection.arrival = (.serverToClient, line) := by
  rcases told_cases htold with ⟨message, decision, rfl, -, rfl⟩ |
    ⟨message, decision, rfl, -, rfl⟩ | ⟨message, decision, rfl, -, rfl⟩
  · cases h
  · cases h
    rfl
  · cases h
    rfl

theorem told_request {inspection : Inspection} {told : Told} {request : Bytes}
    (htold : inspection.told = some told) (h : told.request = some request) :
    inspection.arrival = (.clientToServer, request) := by
  rcases told_cases htold with ⟨message, decision, rfl, -, rfl⟩ |
    ⟨message, decision, rfl, -, rfl⟩ | ⟨message, decision, rfl, -, rfl⟩
  · cases h
    rfl
  · cases h
  · cases h

theorem told_oneLine {inspection : Inspection} {told : Told}
    (h : OneLine inspection.textForClient) (htold : inspection.told = some told) :
    newline ∉ told.text := by
  rw [inspection.textForClient_eq, htold] at h
  rcases h with hnil | ⟨line, hline, heq⟩
  · simp at hnil
  · have htext : told.text ++ [newline] = line ++ [newline] := (List.append_nil _).symm.trans heq
    rw [List.append_cancel_right htext]
    exact hline

end Inspection

/-- What one choice takes is taken by a choice that takes more, in the same order. -/
theorem filterMap_sublist {α β : Type} {f g : α → Option β}
    (h : ∀ x b, f x = some b → g x = some b) (xs : List α) :
    (xs.filterMap f).Sublist (xs.filterMap g) := by
  induction xs with
  | nil => exact List.Sublist.slnil
  | cons x xs ih =>
      cases hf : f x with
      | none =>
          rw [List.filterMap_cons_none hf]
          cases hg : g x with
          | none =>
              rw [List.filterMap_cons_none hg]
              exact ih
          | some c =>
              rw [List.filterMap_cons_some hg]
              exact ih.cons c
      | some b =>
          rw [List.filterMap_cons_some hf, List.filterMap_cons_some (h x b hf)]
          exact ih.cons_cons b

/-- Where `select` gives what arrived from one side, it gives it in the order of arrival. -/
theorem told_sublist {select : Told → Option Bytes} {direction : MessageDirection}
    (h : ∀ {inspection : Inspection} {told : Told} {line : Bytes}, inspection.told = some told →
      select told = some line → inspection.arrival = (direction, line))
    (inspections : List Inspection) :
    ((inspections.filterMap Inspection.told).filterMap select).Sublist
      (messagesOf direction (inspections.map Inspection.arrival)) := by
  unfold messagesOf
  rw [List.filterMap_filterMap, List.filterMap_map]
  apply filterMap_sublist
  intro inspection line hline
  obtain ⟨told, htold, hselect⟩ := Option.bind_eq_some_iff.mp hline
  show (if inspection.arrival.1 = direction then some inspection.arrival.2 else none) = _
  rw [h htold hselect]
  exact if_pos rfl

/-- The texts for the client are the lines that it is told. -/
theorem textsForClient_eq (inspections : List Inspection) :
    inspections.flatMap Inspection.textForClient =
      (inspections.filterMap Inspection.told).flatMap fun told => told.text ++ [newline] := by
  rw [List.filterMap_eq_flatMap_toList, List.flatMap_assoc]
  apply List.flatMap_congr
  intro inspection _
  exact inspection.textForClient_eq

/-! ## §3  What is awaited -/

/-- The ids of the lists that the guard waits for, behind one more message. A message of
the server that is not accepted ends the waiting as a response does, if its id was read:
it is dropped, and the client has no answer yet. -/
def await (limits : RuntimeLimits) (ids : Finset Bytes) : Inspection → Finset Bytes
  | .client message decision =>
      if RequestsList (classify limits message) ∧ decision.action = .forward then
        insert (classify limits message).idJson ids
      else ids
  | .server message _ =>
      if (classify limits message).error ≠ .none ∨ (classify limits message).kind = .response then
        ids.erase (classify limits message).idJson
      else ids

/-- The filter that stands behind some arrivals, and the ids that it holds. -/
theorem inspectAll_awaits {f : ToolCallFilter} (h : f.Valid) (arrivals : List Arrival) :
    (inspectAll (some filterHandler) f arrivals).2.core = f.core ∧
      (inspectAll (some filterHandler) f arrivals).2.config = f.config ∧
      (inspectAll (some filterHandler) f arrivals).2.pending.idSet =
        (inspectAll (some filterHandler) f arrivals).1.foldl (await f.config.runtime)
          f.pending.idSet := by
  induction arrivals generalizing f with
  | nil => exact ⟨rfl, rfl, rfl⟩
  | cons arrival arrivals ih =>
      obtain ⟨direction, message⟩ := arrival
      cases direction with
      | clientToServer =>
          obtain ⟨hconfig, hcore⟩ := inspect_settings (f := f) message
          obtain ⟨hcore', hconfig', hids⟩ := ih (valid_next h (.client message))
          refine ⟨hcore'.trans hcore, hconfig'.trans hconfig, hids.trans ?_⟩
          show List.foldl (await (f.inspect message).filter.config.runtime)
            (f.inspect message).filter.pending.idSet _ = _
          rw [inspect_idSet, hconfig]
          rfl
      | serverToClient =>
          obtain ⟨hconfig, hcore⟩ := inspectServer_settings (f := f) message
          obtain ⟨hcore', hconfig', hids⟩ := ih (valid_next h (.server message))
          refine ⟨hcore'.trans hcore, hconfig'.trans hconfig, hids.trans ?_⟩
          show List.foldl (await (f.inspectServer message).filter.config.runtime)
            (f.inspectServer message).filter.pending.idSet _ = _
          rw [inspectServer_idSet h, hconfig]
          rfl

/-- Each decision is that of the filter that stands behind the arrivals before it. -/
theorem decided_behind {σ : Type} {handler : Option (ClientMessageHandler σ)} {state last : σ}
    {before after : List Inspection} {inspection : Inspection}
    (h : inspectAll handler state ((before ++ inspection :: after).map Inspection.arrival) =
      (before ++ inspection :: after, last)) :
    (inspectAll handler state (before.map Inspection.arrival)).1 = before ∧
      (inspectOne handler (inspectAll handler state (before.map Inspection.arrival)).2
        inspection.arrival).1 = inspection := by
  rw [List.map_append, inspectAll_append, List.map_cons] at h
  have hdecided := congrArg Prod.fst h
  -- a decision for each arrival, and so the two lists are cut at the same place
  have hlength : (inspectAll handler state (before.map Inspection.arrival)).1.length =
      before.length := by
    have hmap := congrArg List.length
      (@inspectAll_arrivals _ handler state (before.map Inspection.arrival))
    rwa [List.length_map, List.length_map] at hmap
  obtain ⟨hbefore, hrest⟩ := List.append_inj hdecided hlength
  exact ⟨hbefore, (List.cons.inj hrest).1⟩

/-! ## §4  Each line is fair -/

section filter

variable {f : ToolCallFilter} {message : Bytes} {told : Told}

/-- A line of the server that is passed on, changed or not, is what the filter delivers. -/
theorem delivered_told
    (h : (inspectOne (some filterHandler) f (.serverToClient, message)).1.told = some told) :
    (classify f.config.runtime message).error = .none ∧
      f.delivered message = some told.text := by
  have htold : (Inspection.server message (f.inspectServer message).decision).told = some told :=
    h
  unfold delivered
  rcases Inspection.told_cases htold with ⟨_, _, hclient, -⟩ | ⟨_, _, heq, haction, rfl⟩ |
    ⟨_, _, heq, haction, rfl⟩
  · cases hclient
  · cases heq
    rw [haction]
    refine ⟨inspectServer_accepted ?_, rfl⟩
    rw [haction]
    decide
  · cases heq
    rw [haction]
    refine ⟨inspectServer_accepted ?_, rfl⟩
    rw [haction]
    decide

/-- Nothing that answers an awaited list shows a hidden tool. -/
theorem told_visible (hkind : (classify f.config.runtime message).kind = .response)
    (hawaited : (classify f.config.runtime message).idJson ∈ f.pending.idSet)
    (h : (inspectOne (some filterHandler) f (.serverToClient, message)).1.told = some told) :
    ∀ v, IsText told.text v → ToolsVisible f.core.policy v := by
  obtain ⟨herror, hdelivered⟩ := delivered_told h
  exact (response_of_pending ⟨herror, hkind, rfl⟩ (PendingTable.mem_idSet.mp hawaited)
    hdelivered).2

/-- Only an answer to an awaited list is replaced. -/
theorem replaced_awaited (haction : (f.inspectServer message).decision.action = .replace) :
    (classify f.config.runtime message).kind = .response ∧
      (classify f.config.runtime message).idJson ∈ f.pending.ids := by
  obtain ⟨herror, -⟩ := f.replaced_of_pending haction
  by_contra hnot
  rw [inspectServer_of_not_pending herror (by tauto)] at haction
  cases haction

theorem told_fair {arrival : Arrival}
    (h : (inspectOne (some filterHandler) f arrival).1.told = some told) :
    told.Fair f.core.policy f.config.runtime := by
  obtain ⟨direction, message⟩ := arrival
  cases direction with
  | clientToServer =>
      have htold : (Inspection.client message (f.inspect message).decision).told = some told := h
      rcases Inspection.told_cases htold with ⟨_, _, heq, hrespond, rfl⟩ | ⟨_, _, hserver, -⟩ |
        ⟨_, _, hserver, -⟩
      · cases heq
        obtain ⟨v, text, hkind, hjson, hid, htext, -⟩ := respond_parts hrespond
        refine ⟨respond_method hrespond, fun others hsize hdepth => ?_⟩
        rw [errorLine_classified hid htext hkind hsize hdepth, hjson]
      · cases hserver
      · cases hserver
  | serverToClient =>
      obtain ⟨herror, hdelivered⟩ := delivered_told h
      have htold : (Inspection.server message (f.inspectServer message).decision).told =
        some told := h
      rcases Inspection.told_cases htold with ⟨_, _, hclient, -⟩ | ⟨_, _, heq, -, rfl⟩ |
        ⟨_, _, heq, haction, rfl⟩
      · cases hclient
      · cases heq
        exact herror
      · cases heq
        obtain ⟨-, out, removedTools, hrewrite, hout, -⟩ := f.replaced_of_pending haction
        obtain ⟨hkind, hmem⟩ := replaced_awaited haction
        refine ⟨herror, hkind, ?_, (response_of_pending ⟨herror, hkind, rfl⟩ hmem hdelivered).2⟩
        rw [hout]
        exact classify_rewritten herror hrewrite

end filter

/-! ## §5  Whole runs -/

/-- What the client has heard, in terms of what has passed: a beginning of the lines that
it was told, each of which is fair. -/
structure HearsFairly (policy : PolicyTable) (limits : RuntimeLimits) (maxMessageBytes : Nat)
    (inspected : List Inspection) (fromClient fromServer toClient : Bytes) : Prop where
  begins : toClient <+:
    (inspected.filterMap Inspection.told).flatMap fun told => told.text ++ [newline]
  lines : linesOf newline toClient <+: (inspected.filterMap Inspection.told).map Told.text
  server : ((inspected.filterMap Inspection.told).filterMap Told.line).Sublist
    (shortLines newline maxMessageBytes fromServer)
  client : ((inspected.filterMap Inspection.told).filterMap Told.request).Sublist
    (shortLines newline maxMessageBytes fromClient)
  fair : ∀ told ∈ inspected.filterMap Inspection.told, told.Fair policy limits
  awaited : ∀ before message decision after,
    inspected = before ++ .server message decision :: after →
      (classify limits message).kind = .response →
        (classify limits message).idJson ∈ before.foldl (await limits) ∅ →
          ∀ told, (Inspection.server message decision).told = some told →
            ∀ v, IsText told.text v → ToolsVisible policy v

/-- What has arrived are lines. -/
theorem accounts_lines {σ : Type} {handler : Option (ClientMessageHandler σ)}
    {config : RunConfig} {state : σ} {relay : Relay σ}
    (haccounts : Relay.Accounts config handler state relay) :
    ∀ arrival ∈ relay.outputs.inspected.map Inspection.arrival, newline ∉ arrival.2 := by
  rintro ⟨direction, message⟩ hmem
  have hmessage : message ∈
      messagesOf direction (relay.outputs.inspected.map Inspection.arrival) :=
    List.mem_filterMap.mpr ⟨_, hmem, if_pos rfl⟩
  cases direction with
  | clientToServer =>
      rw [haccounts.client.emits] at hmessage
      exact emitted_line hmessage
  | serverToClient =>
      rw [haccounts.child.emits] at hmessage
      exact emitted_line hmessage

section run

variable {policy : PolicyTable} {config : FilterConfig} {runConfig : RunConfig}
  {relay relay' : Relay ToolCallFilter} {turns : List Relay.Turn}

/-- In every run, whatever the order of reads and writes, the death of the child and the
signals. What answers an id for which the guard does not wait any more is passed as it is. -/
theorem client_hears (hstart : Relay.start runConfig (init policy config) = .ok relay)
    (hreaches : Relay.Reaches (some filterHandler) relay turns relay') :
    HearsFairly policy config.runtime runConfig.runtime.maxMessageBytes relay'.outputs.inspected
      relay'.client.read relay'.child.read relay'.writtenToClient := by
  have haccounts := Relay.reaches_accounts hstart hreaches
  have hvalid := valid_init policy config
  -- the filter that decides on one of them
  have hdecided : ∀ before inspection after,
      relay'.outputs.inspected = before ++ inspection :: after → ∃ f : ToolCallFilter,
        f.core.policy = policy ∧ f.config = config ∧
          f.pending.idSet = before.foldl (await config.runtime) ∅ ∧
            (inspectOne (some filterHandler) f inspection.arrival).1 = inspection := by
    intro before inspection after hsplit
    have hall := haccounts.decided
    rw [hsplit] at hall
    obtain ⟨hbefore, hone⟩ := decided_behind hall
    obtain ⟨hcore, hconfig, hids⟩ := inspectAll_awaits hvalid (before.map Inspection.arrival)
    rw [hbefore] at hids
    refine ⟨_, congrArg ProxyCore.policy hcore, hconfig, hids.trans ?_, hone⟩
    rw [show (init policy config).pending.idSet = ∅ from PendingTable.idSet_empty config]
    rfl
  have hfair : ∀ told ∈ relay'.outputs.inspected.filterMap Inspection.told,
      told.Fair policy config.runtime ∧ newline ∉ told.text := by
    intro told hmem
    obtain ⟨inspection, hinspection, htold⟩ := List.mem_filterMap.mp hmem
    obtain ⟨before, after, hsplit⟩ := List.append_of_mem hinspection
    obtain ⟨f, rfl, rfl, -, hone⟩ := hdecided before inspection after hsplit
    have hline := accounts_lines haccounts inspection.arrival (List.mem_map_of_mem hinspection)
    have htext := (wholeLines_filter f inspection.arrival hline).2
    rw [hone] at htext
    exact ⟨told_fair (hone ▸ htold), Inspection.told_oneLine htext htold⟩
  have hbegins : relay'.writtenToClient <+: (relay'.outputs.inspected.filterMap
      Inspection.told).flatMap fun told => told.text ++ [newline] := by
    rw [← textsForClient_eq, ← haccounts.forClient]
    exact List.prefix_append _ _
  refine ⟨hbegins, ?_, ?_, ?_, fun told hmem => (hfair told hmem).1, ?_⟩
  · have hlines : ∀ line ∈ (relay'.outputs.inspected.filterMap Inspection.told).map Told.text,
        newline ∉ line := by
      intro line hline
      obtain ⟨told, hmem, rfl⟩ := List.mem_map.mp hline
      exact (hfair told hmem).2
    have hheard : relay'.writtenToClient <+: ((relay'.outputs.inspected.filterMap
        Inspection.told).map Told.text).flatMap (· ++ [newline]) := by
      rw [List.flatMap_map]
      exact hbegins
    obtain ⟨hwhole, -⟩ := lines_of_prefix hlines hheard
    exact hwhole
  · have hsublist := @told_sublist Told.line _ Inspection.told_line relay'.outputs.inspected
    rwa [haccounts.child.emits, Relay.emitted_eq] at hsublist
  · have hsublist := @told_sublist Told.request _ Inspection.told_request
      relay'.outputs.inspected
    rwa [haccounts.client.emits, Relay.emitted_eq] at hsublist
  · intro before message decision after hsplit hkind hawaited told htold
    obtain ⟨f, rfl, rfl, hids, hone⟩ := hdecided before _ after hsplit
    rw [← hids] at hawaited
    exact told_visible hkind hawaited (hone ▸ htold)

end run

/-- A client asks for the tools, and has the first bytes of an answer that shows none. -/
def listTurns : List Relay.Turn :=
  [{ polled := .ready { stdin := some (.data ⟨ascii ("\x7b\"jsonrpc\":\"2.0\",\"id\":1," ++
      "\"method\":\"tools/list\"\x7d\n"), by decide, by decide⟩) } },
    { polled := .ready { childStdout := some (.data ⟨ascii ("\x7b\"jsonrpc\":\"2.0\",\"id\":1," ++
      "\"result\":\x7b\"tools\":[\x7b\"name\":\"x\"\x7d]\x7d\x7d\n"), by decide, by decide⟩) } },
    { polled := .ready { stdout := some (.wrote 45) } }]

theorem client_hears_example : ∃ relay relay',
    Relay.start {} (init ToolCallFilter.denyAll {}) = .ok relay ∧
      Relay.Reaches (some filterHandler) relay listTurns relay' ∧
      relay'.writtenToClient =
        ascii "\x7b\"jsonrpc\":\"2.0\",\"id\":1,\"result\":\x7b\"tools\":[]\x7d" ∧
      HearsFairly ToolCallFilter.denyAll {} (1024 * 1024) relay'.outputs.inspected
        relay'.client.read relay'.child.read relay'.writtenToClient := by
  have hstart : Relay.start {} (init ToolCallFilter.denyAll {}) =
      .ok (Relay.fresh {} (init ToolCallFilter.denyAll {})) := if_neg (by decide)
  have hwritten : ((Relay.run (some filterHandler)
      (Relay.fresh {} (init ToolCallFilter.denyAll {})) listTurns).toOption.map
        fun relay => relay.writtenToClient) = some (ascii
          "\x7b\"jsonrpc\":\"2.0\",\"id\":1,\"result\":\x7b\"tools\":[]\x7d") := by
    decide +kernel
  cases hrun : Relay.run (some filterHandler)
      (Relay.fresh {} (init ToolCallFilter.denyAll {})) listTurns with
  | error e =>
      rw [hrun] at hwritten
      cases hwritten
  | ok relay' =>
      rw [hrun] at hwritten
      exact ⟨_, relay', hstart, Or.inl hrun, Option.some.inj hwritten,
        client_hears hstart (Or.inl hrun)⟩

end NativeGuard.Process

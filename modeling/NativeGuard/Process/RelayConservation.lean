import NativeGuard.Process.Relay

/-!
# What the relay conserves (`src/linux_stdio_relay.cpp`)

As long as the child runs and its pipe is open, what has been written to a peer and what
waits in its queue are the texts that the handler's decisions call for, one behind the
other (`Balanced`). Each operation of the loop keeps this, and so does a run of turns
(`run_balanced`).
-/

namespace NativeGuard.Process

open Json Json.Scan Io

/-! ## §1  What the decisions call for -/

abbrev Arrival : Type := MessageDirection × Bytes

namespace Inspection

def arrival : Inspection → Arrival
  | .client message _ => (.clientToServer, message)
  | .server message _ => (.serverToClient, message)

def textForChild : Inspection → Bytes
  | .client message decision =>
      if decision.action = .forward then message ++ [newline] else []
  | .server _ _ => []

def textForClient : Inspection → Bytes
  | .client _ decision =>
      if decision.action = .respondWithError then errorLine decision ++ [newline] else []
  | .server message decision =>
      match decision.action with
      | .forward => message ++ [newline]
      | .replace => decision.replacement ++ [newline]
      | .drop => []

variable {message : Bytes} {decision : ServerMessageDecision}

theorem server_forward (h : decision.action = .forward) :
    (Inspection.server message decision).textForClient = message ++ [newline] := by
  simp only [textForClient, h]

theorem server_replace (h : decision.action = .replace) :
    (Inspection.server message decision).textForClient =
      decision.replacement ++ [newline] := by
  simp only [textForClient, h]

theorem server_drop (h : decision.action = .drop) :
    (Inspection.server message decision).textForClient = [] := by
  simp only [textForClient, h]

end Inspection

/-- The messages of one direction. -/
def messagesOf (direction : MessageDirection) (arrivals : List Arrival) : List Bytes :=
  arrivals.filterMap fun arrival =>
    if arrival.1 = direction then some arrival.2 else none

theorem messagesOf_append (direction : MessageDirection) (first second : List Arrival) :
    messagesOf direction (first ++ second) =
      messagesOf direction first ++ messagesOf direction second :=
  List.filterMap_append

theorem messagesOf_same (direction : MessageDirection) (messages : List Bytes) :
    messagesOf direction (messages.map (direction, ·)) = messages := by
  induction messages with
  | nil => rfl
  | cons message messages ih =>
      unfold messagesOf at ih ⊢
      simp only [List.map_cons, List.filterMap_cons, if_true, ih]

theorem messagesOf_other {direction direction' : MessageDirection}
    (h : direction ≠ direction') (messages : List Bytes) :
    messagesOf direction' (messages.map (direction, ·)) = [] := by
  induction messages with
  | nil => rfl
  | cons message messages ih =>
      unfold messagesOf at ih ⊢
      simp only [List.map_cons, List.filterMap_cons, if_neg h, ih]

section handler

variable {σ : Type} (handler : Option (ClientMessageHandler σ))

def inspectOne (state : σ) : Arrival → Inspection × σ
  | (.clientToServer, message) =>
      (.client message (Relay.inspectClient handler state message).1,
        (Relay.inspectClient handler state message).2)
  | (.serverToClient, message) =>
      (.server message (Relay.inspectServer handler state message).1,
        (Relay.inspectServer handler state message).2)

/-- The handler's decisions on what arrives, in the order of arrival. -/
def inspectAll : σ → List Arrival → List Inspection × σ
  | state, [] => ([], state)
  | state, arrival :: arrivals =>
      let first := inspectOne handler state arrival
      let others := inspectAll first.2 arrivals
      (first.1 :: others.1, others.2)

variable {handler}

theorem inspectOne_arrival (state : σ) (arrival : Arrival) :
    (inspectOne handler state arrival).1.arrival = arrival := by
  rcases arrival with ⟨direction, message⟩
  cases direction <;> rfl

theorem inspectAll_arrivals (state : σ) (arrivals : List Arrival) :
    (inspectAll handler state arrivals).1.map Inspection.arrival = arrivals := by
  induction arrivals generalizing state with
  | nil => rfl
  | cons arrival arrivals ih =>
      unfold inspectAll
      rw [List.map_cons, inspectOne_arrival, ih]

theorem inspectAll_append (state : σ) (first second : List Arrival) :
    inspectAll handler state (first ++ second) =
      ((inspectAll handler state first).1 ++
          (inspectAll handler (inspectAll handler state first).2 second).1,
        (inspectAll handler (inspectAll handler state first).2 second).2) := by
  induction first generalizing state with
  | nil => rfl
  | cons arrival first ih =>
      simp only [List.cons_append, inspectAll, ih]

end handler

/-! ## §2  Queues -/

namespace Queue

/-- The queue has taken `text`, behind what it held. -/
structure Takes (q : Queue) (text : Bytes) (q' : Queue) : Prop where
  bytes : q'.buffer.bytes = q.buffer.bytes ++ text
  capacity : q'.buffer.capacity = q.buffer.capacity
  start : q'.start = q.start

theorem Takes.refl (q : Queue) : q.Takes [] q :=
  ⟨(List.append_nil _).symm, rfl, rfl⟩

/-- A message without a text for it leaves the queue as it was. -/
theorem takes_silent {q : Queue} {text : Bytes} (h : text = []) : q.Takes text q :=
  h ▸ Takes.refl q

theorem Takes.trans {q q' q'' : Queue} {text text' : Bytes} (h : q.Takes text q')
    (h' : q'.Takes text' q'') : q.Takes (text ++ text') q'' := by
  refine ⟨?_, h'.capacity.trans h.capacity, h'.start.trans h.start⟩
  rw [h'.bytes, h.bytes, List.append_assoc]

theorem takes_add {append : Append} {text : Bytes} {q : Queue} (h : Wrote append text)
    (hadded : (q.add append).1 = true) : q.Takes text (q.add append).2 := by
  obtain ⟨hbytes, hcapacity⟩ := h q.buffer hadded
  exact ⟨hbytes, hcapacity, rfl⟩

/-- No more has been written than was there. -/
def Sound (q : Queue) : Prop := q.start ≤ q.buffer.bytes.length

theorem Takes.sound {q q' : Queue} {text : Bytes} (h : q.Takes text q') (hq : q.Sound) :
    q'.Sound := by
  unfold Sound at hq ⊢
  rw [h.start, h.bytes, List.length_append]
  omega

theorem Takes.rest {q q' : Queue} {text : Bytes} (h : q.Takes text q') (hq : q.Sound) :
    q'.rest = q.rest ++ text := by
  unfold Queue.rest
  rw [h.bytes, h.start, List.drop_append_of_le_length hq]

/-- Bytes leave a queue in order, each of them once. -/
theorem flushTo_rest {q : Queue} (hq : q.Sound) (result : WriteResult) :
    (q.flushTo result).2.1 ++ (q.flushTo result).2.2.rest = q.rest ∧
      (q.flushTo result).2.2.Sound := by
  have hclear : q.clear.rest = [] := rfl
  have hcleared : q.clear.Sound := Nat.zero_le _
  unfold flushTo
  by_cases hall : q.start = q.buffer.bytes.length
  · rw [if_pos hall]
    refine ⟨?_, hcleared⟩
    show [] ++ q.clear.rest = q.rest
    rw [hclear]
    exact (List.drop_eq_nil_of_le hall.ge).symm
  rw [if_neg hall]
  rcases result with count | _ | _ | _
  · cases count with
    | zero => exact ⟨rfl, hq⟩
    | succ count =>
        have hsplit : q.rest.take (count + 1) ++ q.rest.drop (count + 1) = q.rest :=
          List.take_append_drop _ _
        have hlength := congrArg List.length hsplit
        have hrest : q.rest.length = q.buffer.bytes.length - q.start := List.length_drop
        rw [List.length_append] at hlength
        unfold Sound at hq
        have hleft : 0 < q.rest.length := by omega
        dsimp only
        by_cases hlast : q.start + (q.rest.take (count + 1)).length = q.buffer.bytes.length
        · rw [if_pos hlast]
          refine ⟨?_, hcleared⟩
          have hnil : q.rest.drop (count + 1) = [] := by
            apply List.eq_nil_of_length_eq_zero
            omega
          rw [hnil] at hsplit
          exact hsplit
        · -- the write was cut short: the rest starts behind what it wrote
          rw [if_neg hlast]
          have htaken : (q.rest.take (count + 1)).length = count + 1 := by
            rw [List.length_take] at hlast ⊢
            omega
          constructor
          · rw [htaken]
            unfold Queue.rest at hsplit ⊢
            rw [List.drop_drop] at hsplit
            exact hsplit
          · show q.start + (q.rest.take (count + 1)).length ≤ q.buffer.bytes.length
            omega
  · exact ⟨rfl, hq⟩
  · exact ⟨rfl, hq⟩
  · exact ⟨rfl, hq⟩

theorem flushTo_brokenPipe {q : Queue} {result : WriteResult}
    (h : (q.flushTo result).1 = .brokenPipe) : result = .brokenPipe := by
  unfold flushTo at h
  split at h
  · cases h
  rcases result with (_ | count) | _ | _ | _
  · cases h
  · dsimp only at h
    split at h <;> cases h
  · cases h
  · rfl
  · cases h

theorem flushTo_capacity (q : Queue) (result : WriteResult) :
    (q.flushTo result).2.2.buffer.capacity = q.buffer.capacity := by
  unfold flushTo
  split
  · rfl
  rcases result with (_ | count) | _ | _ | _
  · rfl
  · dsimp only
    split <;> rfl
  · rfl
  · rfl
  · rfl

end Queue

/-! ## §3  The sinks -/

namespace Relay

variable {σ : Type} {handler : Option (ClientMessageHandler σ)}

/-- The outputs after the handler has seen `arrivals`. -/
structure Delivered (handler : Option (ClientMessageHandler σ)) (arrivals : List Arrival)
    (outputs outputs' : Outputs σ) : Prop where
  handlerState : outputs'.handlerState =
    (inspectAll handler outputs.handlerState arrivals).2
  inspected : outputs'.inspected =
    outputs.inspected ++ (inspectAll handler outputs.handlerState arrivals).1
  toChild : outputs.toChild.Takes
    ((inspectAll handler outputs.handlerState arrivals).1.flatMap Inspection.textForChild)
    outputs'.toChild
  toClient : outputs.toClient.Takes
    ((inspectAll handler outputs.handlerState arrivals).1.flatMap Inspection.textForClient)
    outputs'.toClient

theorem Delivered.nil (outputs : Outputs σ) : Delivered handler [] outputs outputs :=
  ⟨rfl, (List.append_nil _).symm, Queue.Takes.refl _, Queue.Takes.refl _⟩

theorem Delivered.trans {first second : List Arrival} {outputs outputs' outputs'' : Outputs σ}
    (h : Delivered handler first outputs outputs')
    (h' : Delivered handler second outputs' outputs'') :
    Delivered handler (first ++ second) outputs outputs'' := by
  obtain ⟨hstate', hinspected', hchild', hclient'⟩ := h'
  rw [h.handlerState] at hstate' hinspected' hchild' hclient'
  constructor
  · rw [inspectAll_append]
    exact hstate'
  · rw [inspectAll_append, hinspected', h.inspected, List.append_assoc]
  · rw [inspectAll_append, List.flatMap_append]
    exact h.toChild.trans hchild'
  · rw [inspectAll_append, List.flatMap_append]
    exact h.toClient.trans hclient'

theorem Delivered.one {arrival : Arrival} {outputs outputs' : Outputs σ}
    (hstate : outputs'.handlerState = (inspectOne handler outputs.handlerState arrival).2)
    (hinspected : outputs'.inspected =
      outputs.inspected ++ [(inspectOne handler outputs.handlerState arrival).1])
    (hchild : outputs.toChild.Takes
      (inspectOne handler outputs.handlerState arrival).1.textForChild outputs'.toChild)
    (hclient : outputs.toClient.Takes
      (inspectOne handler outputs.handlerState arrival).1.textForClient outputs'.toClient) :
    Delivered handler [arrival] outputs outputs' := by
  refine ⟨hstate, hinspected, ?_, ?_⟩
  · rw [← List.append_nil (inspectOne handler outputs.handlerState arrival).1.textForChild]
      at hchild
    exact hchild
  · rw [← List.append_nil (inspectOne handler outputs.handlerState arrival).1.textForClient]
      at hclient
    exact hclient

theorem overflow_unset {added overflow : Bool} (h : (!added || overflow) = false) :
    added = true ∧ overflow = false := by
  simpa using h

theorem clientSink_delivers {sunk : Sunk σ} {message : Bytes}
    (h : (clientSink handler sunk message).2 = false) :
    sunk.2 = false ∧ Delivered handler [(.clientToServer, message)] sunk.1
      (clientSink handler sunk message).1 := by
  unfold clientSink at h ⊢
  dsimp only at h ⊢
  cases haction : (inspectClient handler sunk.1.handlerState message).1.action with
  | forward =>
      rw [haction] at h
      obtain ⟨hadded, hsunk⟩ := overflow_unset h
      refine ⟨hsunk, Delivered.one rfl rfl ?_ ?_⟩
      · have htext : (inspectOne handler sunk.1.handlerState
            (.clientToServer, message)).1.textForChild = message ++ [newline] := if_pos haction
        rw [htext]
        exact Queue.takes_add (wrote_appendMessage message) hadded
      · exact Queue.takes_silent (if_neg (by rw [haction]; exact nofun))
  | respondWithError =>
      rw [haction] at h
      obtain ⟨hadded, hsunk⟩ := overflow_unset h
      refine ⟨hsunk, Delivered.one rfl rfl ?_ ?_⟩
      · exact Queue.takes_silent (if_neg (by rw [haction]; exact nofun))
      · have htext : (inspectOne handler sunk.1.handlerState
            (.clientToServer, message)).1.textForClient =
              errorLine (inspectClient handler sunk.1.handlerState message).1 ++ [newline] :=
          if_pos haction
        rw [htext]
        exact Queue.takes_add (wrote_appendJsonRpcError _) hadded
  | drop =>
      rw [haction] at h
      refine ⟨h, Delivered.one rfl rfl ?_ ?_⟩
      · exact Queue.takes_silent (if_neg (by rw [haction]; exact nofun))
      · exact Queue.takes_silent (if_neg (by rw [haction]; exact nofun))

theorem serverSink_delivers {sunk : Sunk σ} {message : Bytes}
    (h : (serverSink handler sunk message).2 = false) :
    sunk.2 = false ∧ Delivered handler [(.serverToClient, message)] sunk.1
      (serverSink handler sunk message).1 := by
  unfold serverSink at h ⊢
  dsimp only at h ⊢
  have hinspected : (inspectOne handler sunk.1.handlerState (.serverToClient, message)).1 =
      .server message (inspectServer handler sunk.1.handlerState message).1 := rfl
  cases haction : (inspectServer handler sunk.1.handlerState message).1.action with
  | forward =>
      rw [haction] at h
      obtain ⟨hadded, hsunk⟩ := overflow_unset h
      refine ⟨hsunk, Delivered.one rfl rfl (Queue.Takes.refl _) ?_⟩
      rw [hinspected, Inspection.server_forward haction]
      exact Queue.takes_add (wrote_appendMessage message) hadded
  | replace =>
      rw [haction] at h
      obtain ⟨hadded, hsunk⟩ := overflow_unset h
      refine ⟨hsunk, Delivered.one rfl rfl (Queue.Takes.refl _) ?_⟩
      rw [hinspected, Inspection.server_replace haction]
      exact Queue.takes_add (wrote_appendMessage _) hadded
  | drop =>
      rw [haction] at h
      refine ⟨h, Delivered.one rfl rfl (Queue.Takes.refl _) ?_⟩
      rw [hinspected, Inspection.server_drop haction]
      exact Queue.Takes.refl _

/-- A call of a sink that leaves `queue_overflow` unset has delivered the message. -/
theorem sink_delivers {direction : MessageDirection} {sunk : Sunk σ} {message : Bytes}
    (h : (sink handler direction sunk message).2 = false) :
    sunk.2 = false ∧ Delivered handler [(direction, message)] sunk.1
      (sink handler direction sunk message).1 := by
  cases direction with
  | clientToServer => exact clientSink_delivers h
  | serverToClient => exact serverSink_delivers h

theorem sinks_deliver {direction : MessageDirection} (messages : List Bytes)
    {sunk : Sunk σ} (h : (messages.foldl (sink handler direction) sunk).2 = false) :
    sunk.2 = false ∧ Delivered handler (messages.map (direction, ·)) sunk.1
      (messages.foldl (sink handler direction) sunk).1 := by
  induction messages generalizing sunk with
  | nil => exact ⟨h, Delivered.nil _⟩
  | cons message messages ih =>
      obtain ⟨hfirst, hothers⟩ := ih h
      obtain ⟨hsunk, hdelivered⟩ := sink_delivers hfirst
      exact ⟨hsunk, hdelivered.trans hothers⟩

/-- A chunk that is received has gone through the framer to the handler. -/
theorem receive_ok {direction : MessageDirection} {inlet inlet' : Inlet}
    {outputs outputs' : Outputs σ} {chunk : Chunk}
    (h : receive handler direction inlet outputs chunk = .ok (inlet', outputs')) :
    inlet' = ⟨(inlet.framer.feed chunk.val).framer, inlet.read ++ chunk.val⟩ ∧
      Delivered handler ((inlet.framer.feed chunk.val).messages.map (direction, ·))
        outputs outputs' := by
  unfold receive at h
  dsimp only at h
  split at h
  · cases h
  split at h
  · cases h
  · rename_i hoverflow
    cases h
    exact ⟨rfl, (sinks_deliver _ (Bool.eq_false_iff.mpr hoverflow)).2⟩

/-- A stream that is closed ends with a whole message. -/
theorem close_ok {direction : MessageDirection} {inlet inlet' : Inlet} {outputs : Outputs σ}
    (h : close direction inlet outputs = .ok inlet') : inlet' = inlet := by
  unfold close at h
  dsimp only at h
  split at h
  · cases h
  rename_i hcode
  cases h
  have hfinish : inlet.framer.finish.framer = inlet.framer := by
    unfold LineFramer.finish at hcode ⊢
    split at hcode
    · rename_i hfailed
      exact absurd (inlet.framer.isFailure hfailed) hcode
    rw [if_neg ‹_›]
    split at hcode
    · exact absurd (by simp [LineFramer.fail, truncatedMessage]) hcode
    · rw [if_neg ‹_›]
  rw [hfinish]

/-! ## §4  The invariant -/

/-- Everything that was read has been framed and decided, and everything that the
decisions call for has been written or waits. -/
structure Balanced (config : RunConfig) (handler : Option (ClientMessageHandler σ))
    (state : σ) (relay : Relay σ) : Prop where
  decided : inspectAll handler state (relay.outputs.inspected.map Inspection.arrival) =
    (relay.outputs.inspected, relay.outputs.handlerState)
  client : LineFramer.After config.framerConfig relay.client.read
    (messagesOf .clientToServer (relay.outputs.inspected.map Inspection.arrival))
    relay.client.framer
  child : LineFramer.After config.framerConfig relay.child.read
    (messagesOf .serverToClient (relay.outputs.inspected.map Inspection.arrival))
    relay.child.framer
  soundToChild : relay.outputs.toChild.Sound
  soundToClient : relay.outputs.toClient.Sound
  toChild : relay.writtenToChild ++ relay.outputs.toChild.rest =
    relay.outputs.inspected.flatMap Inspection.textForChild
  toClient : relay.writtenToClient ++ relay.outputs.toClient.rest =
    relay.outputs.inspected.flatMap Inspection.textForClient

variable {config : RunConfig} {state : σ} {relay relay' : Relay σ}

theorem freshInlet_after (config : RunConfig) :
    LineFramer.After config.framerConfig [] [] (freshInlet config).framer :=
  (LineFramer.after_open (f := (freshInlet config).framer) (s := [])
    rfl rfl rfl List.not_mem_nil).1

theorem start_balanced {relay : Relay σ} (h : start config state = .ok relay) :
    Balanced config handler state relay := by
  obtain rfl := start_ok h
  have hopen := freshInlet_after config
  exact
    { decided := rfl
      client := hopen
      child := hopen
      soundToChild := Nat.zero_le _
      soundToClient := Nat.zero_le _
      toChild := rfl
      toClient := rfl }

/-- The part of the invariant that is about the outputs. -/
theorem Balanced.delivered (h : Balanced config handler state relay)
    {arrivals : List Arrival} {outputs : Outputs σ}
    (hdelivered : Delivered handler arrivals relay.outputs outputs) :
    inspectAll handler state (outputs.inspected.map Inspection.arrival) =
        (outputs.inspected, outputs.handlerState) ∧
      outputs.inspected.map Inspection.arrival =
        relay.outputs.inspected.map Inspection.arrival ++ arrivals ∧
      outputs.toChild.Sound ∧ outputs.toClient.Sound ∧
      relay.writtenToChild ++ outputs.toChild.rest =
        outputs.inspected.flatMap Inspection.textForChild ∧
      relay.writtenToClient ++ outputs.toClient.rest =
        outputs.inspected.flatMap Inspection.textForClient := by
  have harrivals : outputs.inspected.map Inspection.arrival =
      relay.outputs.inspected.map Inspection.arrival ++ arrivals := by
    rw [hdelivered.inspected, List.map_append, inspectAll_arrivals]
  refine ⟨?_, harrivals, hdelivered.toChild.sound h.soundToChild,
    hdelivered.toClient.sound h.soundToClient, ?_, ?_⟩
  · rw [harrivals, inspectAll_append, h.decided, hdelivered.inspected,
      hdelivered.handlerState]
  · rw [hdelivered.toChild.rest h.soundToChild, ← List.append_assoc, h.toChild,
      hdelivered.inspected, List.flatMap_append]
  · rw [hdelivered.toClient.rest h.soundToClient, ← List.append_assoc, h.toClient,
      hdelivered.inspected, List.flatMap_append]

/-- What a reading does to the relay, in either direction. -/
theorem readClient_cases {result : ReadResult}
    (h : readClient handler relay result = .ok relay') :
    (∃ chunk client outputs, result = .data chunk ∧
        receive handler .clientToServer relay.client relay.outputs chunk =
          .ok (client, outputs) ∧
        relay' = { relay with client := client, outputs := outputs }) ∨
      relay' = { relay with inputEof := true } ∨ relay' = relay := by
  cases result with
  | data chunk =>
      obtain ⟨⟨client, outputs⟩, hreceive, hok⟩ := except_bind_ok.mp h
      cases hok
      exact Or.inl ⟨chunk, client, outputs, rfl, hreceive, rfl⟩
  | endOfFile =>
      obtain ⟨client, hclose, hok⟩ := except_bind_ok.mp h
      cases hok
      rw [close_ok hclose]
      exact Or.inr (Or.inl rfl)
  | retry =>
      cases h
      exact Or.inr (Or.inr rfl)
  | failed => cases h

theorem readChild_cases {result : ReadResult}
    (h : readChild handler relay result = .ok relay') :
    (∃ chunk child outputs, result = .data chunk ∧
        receive handler .serverToClient relay.child relay.outputs chunk =
          .ok (child, outputs) ∧
        relay' = { relay with child := child, outputs := outputs }) ∨
      relay' = { relay with stdoutRead := false, outputEof := true } ∨ relay' = relay := by
  cases result with
  | data chunk =>
      obtain ⟨⟨child, outputs⟩, hreceive, hok⟩ := except_bind_ok.mp h
      cases hok
      exact Or.inl ⟨chunk, child, outputs, rfl, hreceive, rfl⟩
  | endOfFile =>
      obtain ⟨child, hclose, hok⟩ := except_bind_ok.mp h
      cases hok
      rw [close_ok hclose]
      exact Or.inr (Or.inl rfl)
  | retry =>
      cases h
      exact Or.inr (Or.inr rfl)
  | failed => cases h

theorem readClient_balanced (h : Balanced config handler state relay) {result : ReadResult}
    (hread : readClient handler relay result = .ok relay') :
    Balanced config handler state relay' := by
  rcases readClient_cases hread with
    ⟨chunk, client, outputs, -, hreceive, rfl⟩ | rfl | rfl
  · obtain ⟨rfl, hdelivered⟩ := receive_ok hreceive
    obtain ⟨hdecided, harrivals, hchild, hclient, hto, hfrom⟩ := h.delivered hdelivered
    have hfed := (LineFramer.feed_after h.client chunk.val).1
    refine ⟨hdecided, ?_, ?_, hchild, hclient, hto, hfrom⟩
    · dsimp only
      rw [harrivals, messagesOf_append, messagesOf_same]
      exact hfed
    · have hother : MessageDirection.clientToServer ≠ .serverToClient := by decide
      dsimp only
      rw [harrivals, messagesOf_append, messagesOf_other hother, List.append_nil]
      exact h.child
  · exact { h with }
  · exact h

theorem readChild_balanced (h : Balanced config handler state relay) {result : ReadResult}
    (hread : readChild handler relay result = .ok relay') :
    Balanced config handler state relay' := by
  rcases readChild_cases hread with
    ⟨chunk, child, outputs, -, hreceive, rfl⟩ | rfl | rfl
  · obtain ⟨rfl, hdelivered⟩ := receive_ok hreceive
    obtain ⟨hdecided, harrivals, hchild, hclient, hto, hfrom⟩ := h.delivered hdelivered
    have hfed := (LineFramer.feed_after h.child chunk.val).1
    refine ⟨hdecided, ?_, ?_, hchild, hclient, hto, hfrom⟩
    · have hother : MessageDirection.serverToClient ≠ .clientToServer := by decide
      dsimp only
      rw [harrivals, messagesOf_append, messagesOf_other hother, List.append_nil]
      exact h.client
    · dsimp only
      rw [harrivals, messagesOf_append, messagesOf_same]
      exact hfed
  · exact { h with }
  · exact h

/-- A write to the child sends a part of the queue, or finds the pipe broken. -/
theorem writeChild_cases {result : WriteResult} (h : writeChild relay result = .ok relay') :
    relay' = { relay.setToChild (relay.outputs.toChild.flushTo result).2.2 with
        writtenToChild :=
          relay.writtenToChild ++ (relay.outputs.toChild.flushTo result).2.1 } ∨
      result = .brokenPipe ∧ ∃ written, relay' =
        { abandonChild { relay.setToChild (relay.outputs.toChild.flushTo result).2.2 with
            writtenToChild := written } with inputEof := true } := by
  unfold writeChild at h
  dsimp only at h
  split at h
  · rename_i hstatus
    cases h
    exact Or.inr ⟨Queue.flushTo_brokenPipe hstatus, _, rfl⟩
  · cases h
  · cases h
    exact Or.inl rfl
  · cases h
    exact Or.inl rfl

theorem writeClient_ok {result : WriteResult} (h : writeClient relay result = .ok relay') :
    relay' = { relay.setToClient (relay.outputs.toClient.flushTo result).2.2 with
      writtenToClient :=
        relay.writtenToClient ++ (relay.outputs.toClient.flushTo result).2.1 } := by
  unfold writeClient at h
  dsimp only at h
  split at h
  · cases h
  · cases h
  · cases h
    rfl
  · cases h
    rfl

/-- A write to the child, unless its pipe is broken. -/
theorem writeChild_balanced (h : Balanced config handler state relay) {result : WriteResult}
    (hpipe : result ≠ .brokenPipe) (hwrite : writeChild relay result = .ok relay') :
    Balanced config handler state relay' := by
  obtain ⟨hrest, hsound⟩ := Queue.flushTo_rest h.soundToChild result
  rcases writeChild_cases hwrite with rfl | ⟨hbroken, -⟩
  · exact
      { h with
        soundToChild := hsound
        toChild := by
          dsimp only [setToChild]
          rw [List.append_assoc, hrest]
          exact h.toChild }
  · exact absurd hbroken hpipe

theorem writeClient_balanced (h : Balanced config handler state relay)
    {result : WriteResult} (hwrite : writeClient relay result = .ok relay') :
    Balanced config handler state relay' := by
  obtain ⟨hrest, hsound⟩ := Queue.flushTo_rest h.soundToClient result
  cases writeClient_ok hwrite
  exact
    { h with
      soundToClient := hsound
      toClient := by
        dsimp only [setToClient]
        rw [List.append_assoc, hrest]
        exact h.toClient }

/-! ## §5  Turns -/

/-- The child is not reaped, no signal is seen and the child's pipe holds. -/
structure Turn.Undisturbed (t : Turn) : Prop where
  waited : t.waited ≠ .reaped
  terminationSignal : t.terminationSignal = false
  polled : ∀ events, t.polled = .ready events → events.childStdin ≠ some .brokenPipe

/-- A descriptor is left alone, or its result is served. -/
theorem whenReady_cases {ρ : Type} {polled : Bool} {event : Option ρ}
    {serve : Relay σ → ρ → Except (Exit σ) (Relay σ)}
    (h : whenReady polled event serve relay = .ok relay') :
    relay' = relay ∨
      ∃ result, polled = true ∧ event = some result ∧ serve relay result = .ok relay' := by
  unfold whenReady at h
  split at h
  · exact Or.inr ⟨_, rfl, rfl, h⟩
  · cases h
    exact Or.inl rfl

/-- What each of the four services keeps is kept by all of them. -/
theorem serve_keeps {P : Relay σ → Prop} {events : Ready}
    (hstdin : ∀ {relay relay' result}, P relay →
      readClient handler relay result = .ok relay' → P relay')
    (hchildStdout : ∀ {relay relay' result}, P relay →
      readChild handler relay result = .ok relay' → P relay')
    (hchildStdin : ∀ {relay relay' result}, events.childStdin = some result → P relay →
      writeChild relay result = .ok relay' → P relay')
    (hstdout : ∀ {relay relay' result}, P relay →
      writeClient relay result = .ok relay' → P relay')
    (h : P relay) (hserve : serve handler relay events = .ok relay') : P relay' := by
  obtain ⟨first, hfirst, hserve⟩ := except_bind_ok.mp hserve
  obtain ⟨second, hsecond, hserve⟩ := except_bind_ok.mp hserve
  obtain ⟨third, hthird, hserve⟩ := except_bind_ok.mp hserve
  have hfirst' : P first := by
    rcases whenReady_cases hfirst with rfl | ⟨result, -, -, hread⟩
    · exact h
    · exact hstdin h hread
  have hsecond' : P second := by
    rcases whenReady_cases hsecond with rfl | ⟨result, -, -, hread⟩
    · exact hfirst'
    · exact hchildStdout hfirst' hread
  have hthird' : P third := by
    rcases whenReady_cases hthird with rfl | ⟨result, -, hevent, hwrite⟩
    · exact hsecond'
    · exact hchildStdin hevent hsecond' hwrite
  rcases whenReady_cases hserve with rfl | ⟨result, -, -, hwrite⟩
  · exact hthird'
  · exact hstdout hthird' hwrite

theorem poll_keeps {P : Relay σ → Prop} {polled : Polled}
    (hserve : ∀ events, polled = .ready events →
      serve handler relay events = .ok relay' → P relay')
    (h : P relay) (hpoll : poll handler relay polled = .ok relay') : P relay' := by
  cases polled with
  | interrupted =>
      cases hpoll
      exact h
  | timeout =>
      cases hpoll
      exact h
  | failed => cases hpoll
  | ready events => exact hserve events rfl hpoll

theorem serve_balanced (h : Balanced config handler state relay) {events : Ready}
    (hpipe : events.childStdin ≠ some .brokenPipe)
    (hserve : serve handler relay events = .ok relay') :
    Balanced config handler state relay' := by
  refine serve_keeps (fun hr hread => readClient_balanced hr hread)
    (fun hr hread => readChild_balanced hr hread) (fun hevent hr hwrite => ?_)
    (fun hr hwrite => writeClient_balanced hr hwrite) h hserve
  refine writeChild_balanced hr ?_ hwrite
  rintro rfl
  exact hpipe hevent

theorem observe_undisturbed {waited : Waited} (hwaited : waited ≠ .reaped)
    (h : relay.observe waited = .ok relay') : relay' = relay := by
  unfold observe at h
  split at h
  · cases h
    rfl
  · cases waited with
    | running =>
        cases h
        rfl
    | interrupted =>
        cases h
        rfl
    | reaped => exact absurd rfl hwaited
    | failed => cases h

/-- Without a signal, no queue is touched in front of the poll. -/
theorem closeInput_balanced (h : Balanced config handler state relay) (graceOver : Bool) :
    Balanced config handler state ((relay.terminate false).kill graceOver).closeInput := by
  have hterminate : relay.terminate false = relay :=
    if_neg fun hsignal => Bool.false_ne_true hsignal.1
  rw [hterminate]
  have hkill : Balanced config handler state (relay.kill graceOver) := by
    unfold kill
    split
    · exact { h with }
    · exact h
  unfold closeInput
  split
  · exact { hkill with }
  · exact hkill

theorem prepare_balanced (h : Balanced config handler state relay) {t : Turn}
    (ht : t.Undisturbed) (hprepare : relay.prepare t = .ok relay') :
    Balanced config handler state relay' := by
  unfold prepare at hprepare
  split at hprepare
  · cases hprepare
  obtain ⟨observed, hobserve, hprepare⟩ := except_bind_ok.mp hprepare
  cases observe_undisturbed ht.waited hobserve
  rw [ht.terminationSignal] at hprepare
  dsimp only at hprepare
  split at hprepare
  · cases hprepare
  · cases hprepare
    exact closeInput_balanced h t.graceOver

theorem turn_balanced (h : Balanced config handler state relay) {t : Turn}
    (ht : t.Undisturbed) (hturn : turn handler relay t = .ok relay') :
    Balanced config handler state relay' := by
  obtain ⟨prepared, hprepare, hpoll⟩ := except_bind_ok.mp hturn
  have hprepared := prepare_balanced h ht hprepare
  refine poll_keeps (fun events hpolled hserve => ?_) hprepared hpoll
  exact serve_balanced hprepared (ht.polled events hpolled) hserve

theorem run_balanced {turns : List Turn} (hturns : ∀ t ∈ turns, t.Undisturbed)
    (h : Balanced config handler state relay) (hrun : run handler relay turns = .ok relay') :
    Balanced config handler state relay' := by
  induction turns generalizing relay with
  | nil =>
      cases hrun
      exact h
  | cons t turns ih =>
      rw [run_cons] at hrun
      obtain ⟨next, hturn, hrest⟩ := except_bind_ok.mp hrun
      exact ih (fun t' ht' => hturns t' (List.mem_cons_of_mem _ ht'))
        (turn_balanced h (hturns t List.mem_cons_self) hturn) hrest

end Relay

end NativeGuard.Process

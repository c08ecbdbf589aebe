import NativeGuard.Process.FilteredRelay

/-!
# The room in the relay's queues (`src/linux_stdio_relay.cpp`)

The queues are reserved for what one read can bring, and a read happens only when they
are empty. What goes to the child always fits, and so does what goes to the client from
one of its two sources; but one turn may read from both, and then the queue to the
client has to hold the answers and the server's lines together (`room_iff`).
-/

namespace NativeGuard.Process

open Json Json.Scan Data Io Protocol ToolCallFilter

/-! ## §1  What a sink needs -/

namespace Queue

def HasRoom (q : Queue) (text : Bytes) : Prop :=
  q.buffer.bytes.length + text.length ≤ q.buffer.capacity

theorem Takes.room {q q' : Queue} {text : Bytes} (h : q.Takes text q') : q.HasRoom text := by
  have hfits := q'.buffer.fits
  rw [h.bytes, h.capacity, List.length_append] at hfits
  exact hfits

theorem HasRoom.first {q : Queue} {text text' : Bytes} (h : q.HasRoom (text ++ text')) :
    q.HasRoom text := by
  unfold HasRoom at h ⊢
  rw [List.length_append] at h
  omega

theorem HasRoom.second {q q' : Queue} {text text' : Bytes} (h : q.HasRoom (text ++ text'))
    (htakes : q.Takes text q') : q'.HasRoom text' := by
  unfold HasRoom at h ⊢
  rw [htakes.bytes, htakes.capacity, List.length_append]
  rw [List.length_append] at h
  omega

theorem HasRoom.added {q : Queue} {append : Append} {text : Bytes} (hroom : q.HasRoom text)
    (h : Writes append text) : (q.add append).1 = true := by
  obtain ⟨output, hadded, -⟩ := h q.buffer hroom
  unfold add
  rw [hadded]

end Queue

namespace Relay

variable {σ : Type} {handler : Option (ClientMessageHandler σ)}

/-- The codes that the handler answers with fit `code_buffer`. -/
def ShortCodes (handler : Option (ClientMessageHandler σ)) : Prop :=
  ∀ state message, (inspectClient handler state message).1.action = .respondWithError →
    (toChars (inspectClient handler state message).1.errorCode).length ≤ codeBufferBytes

theorem clientSink_room (hcodes : ShortCodes handler) {outputs : Outputs σ} {message : Bytes}
    (hchild : outputs.toChild.HasRoom
      (inspectOne handler outputs.handlerState (.clientToServer, message)).1.textForChild)
    (hclient : outputs.toClient.HasRoom
      (inspectOne handler outputs.handlerState (.clientToServer, message)).1.textForClient) :
    (clientSink handler (outputs, false) message).2 = false := by
  unfold clientSink
  dsimp only
  cases haction : (inspectClient handler outputs.handlerState message).1.action with
  | forward =>
      have htext : (inspectOne handler outputs.handlerState
          (.clientToServer, message)).1.textForChild = message ++ [newline] := if_pos haction
      rw [htext] at hchild
      have hadded := hchild.added (writes_appendMessage message)
      show (!(outputs.toChild.add (appendMessage message)).1 || false) = false
      rw [hadded]
      rfl
  | respondWithError =>
      have htext : (inspectOne handler outputs.handlerState
          (.clientToServer, message)).1.textForClient =
            errorLine (inspectClient handler outputs.handlerState message).1 ++ [newline] :=
        if_pos haction
      rw [htext] at hclient
      have hadded := hclient.added (writes_appendJsonRpcError (hcodes _ _ haction))
      show (!(outputs.toClient.add (appendJsonRpcError
        (inspectClient handler outputs.handlerState message).1)).1 || false) = false
      rw [hadded]
      rfl
  | drop => rfl

theorem serverSink_room {outputs : Outputs σ} {message : Bytes}
    (hclient : outputs.toClient.HasRoom
      (inspectOne handler outputs.handlerState (.serverToClient, message)).1.textForClient) :
    (serverSink handler (outputs, false) message).2 = false := by
  have hinspected : (inspectOne handler outputs.handlerState (.serverToClient, message)).1 =
      .server message (inspectServer handler outputs.handlerState message).1 := rfl
  rw [hinspected] at hclient
  unfold serverSink
  dsimp only
  cases haction : (inspectServer handler outputs.handlerState message).1.action with
  | forward =>
      rw [Inspection.server_forward haction] at hclient
      have hadded := hclient.added (writes_appendMessage message)
      show (!(outputs.toClient.add (appendMessage message)).1 || false) = false
      rw [hadded]
      rfl
  | replace =>
      rw [Inspection.server_replace haction] at hclient
      have hadded := hclient.added (writes_appendMessage _)
      show (!(outputs.toClient.add (appendMessage
        (inspectServer handler outputs.handlerState message).1.replacement)).1 || false) = false
      rw [hadded]
      rfl
  | drop => rfl

/-- What the messages call for fits in both queues. -/
def Room (handler : Option (ClientMessageHandler σ)) (outputs : Outputs σ)
    (arrivals : List Arrival) : Prop :=
  outputs.toChild.HasRoom ((inspectAll handler outputs.handlerState arrivals).1.flatMap
      Inspection.textForChild) ∧
    outputs.toClient.HasRoom ((inspectAll handler outputs.handlerState arrivals).1.flatMap
      Inspection.textForClient)

theorem sink_room (hcodes : ShortCodes handler) {outputs : Outputs σ}
    {direction : MessageDirection} {message : Bytes} {arrivals : List Arrival}
    (h : Room handler outputs ((direction, message) :: arrivals)) :
    (sink handler direction (outputs, false) message).2 = false ∧
      Room handler (sink handler direction (outputs, false) message).1 arrivals := by
  obtain ⟨hchild, hclient⟩ := h
  unfold inspectAll at hchild hclient
  dsimp only at hchild hclient
  rw [List.flatMap_cons] at hchild hclient
  have hsunk : (sink handler direction (outputs, false) message).2 = false := by
    cases direction with
    | clientToServer => exact clientSink_room hcodes hchild.first hclient.first
    | serverToClient => exact serverSink_room hclient.first
  obtain ⟨-, hstate, -, htoChild, htoClient⟩ := sink_delivers hsunk
  refine ⟨hsunk, ?_, ?_⟩
  · rw [hstate]
    refine hchild.second ?_
    rw [← List.append_nil (Inspection.textForChild _)]
    exact htoChild
  · rw [hstate]
    refine hclient.second ?_
    rw [← List.append_nil (Inspection.textForClient _)]
    exact htoClient

/-- `queue_overflow` stays unset exactly if there is room. -/
theorem sinks_overflow_iff (hcodes : ShortCodes handler) (direction : MessageDirection)
    (messages : List Bytes) (outputs : Outputs σ) :
    (messages.foldl (sink handler direction) (outputs, false)).2 = false ↔
      Room handler outputs (messages.map (direction, ·)) := by
  constructor
  · intro h
    obtain ⟨-, hdelivered⟩ := sinks_deliver messages h
    exact ⟨hdelivered.toChild.room, hdelivered.toClient.room⟩
  · intro h
    induction messages generalizing outputs with
    | nil => rfl
    | cons message messages ih =>
        obtain ⟨hsunk, hroom⟩ := sink_room hcodes h
        have hpair : sink handler direction (outputs, false) message =
            ((sink handler direction (outputs, false) message).1, false) :=
          Prod.ext rfl hsunk
        rw [List.foldl_cons, hpair]
        exact ih _ hroom

/-! ## §2  What the filter sends -/

theorem shortCodes_filter : ShortCodes (some filterHandler) := by
  intro f message hrespond
  obtain ⟨-, -, -, -, -, -, -, hcode⟩ := respond_parts hrespond
  show (toChars (f.inspect message).decision.errorCode).length ≤ codeBufferBytes
  rw [hcode]
  decide

/-- A bound on the text of every message bounds the texts of all. -/
theorem texts_length_le {text : Inspection → Bytes} {bound : Bytes → Nat}
    {direction : MessageDirection}
    (h : ∀ state message,
      (text (inspectOne handler state (direction, message)).1).length ≤ bound message)
    (state : σ) (messages : List Bytes) :
    ((inspectAll handler state (messages.map (direction, ·))).1.flatMap text).length ≤
      (messages.map bound).sum := by
  induction messages generalizing state with
  | nil => exact Nat.zero_le _
  | cons message messages ih =>
      simp only [List.map_cons, inspectAll, List.flatMap_cons, List.length_append,
        List.sum_cons]
      exact Nat.add_le_add (h state message) (ih _)

theorem sum_bound_eq (messages : List Bytes) :
    (messages.map fun message => message.length + 1).sum = linesLength messages := rfl

theorem client_textForChild (f : ToolCallFilter) (message : Bytes) :
    (inspectOne (some filterHandler) f
      (.clientToServer, message)).1.textForChild.length ≤ message.length + 1 := by
  show (if (f.inspect message).decision.action = .forward then message ++ [newline]
    else []).length ≤ _
  split
  · rw [List.length_append, List.length_singleton]
  · exact Nat.zero_le _

theorem client_textForClient (f : ToolCallFilter) (message : Bytes) :
    (inspectOne (some filterHandler) f
        (.clientToServer, message)).1.textForClient.length ≤ message.length + 75 ∧
      (inspectOne (some filterHandler) f
        (.clientToServer, message)).1.textForClient.length ≤ 4 * (message.length + 1) := by
  show (if (f.inspect message).decision.action = .respondWithError then
    errorLine (f.inspect message).decision ++ [newline] else []).length ≤ _ ∧
      (if (f.inspect message).decision.action = .respondWithError then
        errorLine (f.inspect message).decision ++ [newline] else []).length ≤ _
  split
  · rename_i hrespond
    obtain ⟨hshort, hfour⟩ := errorLine_length hrespond
    rw [List.length_append, List.length_singleton]
    exact ⟨Nat.succ_le_succ hshort, hfour⟩
  · exact ⟨Nat.zero_le _, Nat.zero_le _⟩

theorem server_textForClient (f : ToolCallFilter) (message : Bytes) :
    (inspectOne (some filterHandler) f
      (.serverToClient, message)).1.textForClient.length ≤ message.length + 1 := by
  show (Inspection.server message (f.inspectServer message).decision).textForClient.length ≤ _
  cases haction : (f.inspectServer message).decision.action with
  | forward =>
      rw [Inspection.server_forward haction, List.length_append, List.length_singleton]
  | replace =>
      rw [Inspection.server_replace haction, List.length_append, List.length_singleton]
      exact Nat.succ_le_succ (replacement_bytes haction).1
  | drop =>
      rw [Inspection.server_drop haction]
      exact Nat.zero_le _

theorem server_textForChild (state : σ) (message : Bytes) :
    (inspectOne handler state (.serverToClient, message)).1.textForChild.length ≤ 0 :=
  Nat.le_refl 0

/-! ## §3  What a read brings -/

/-- An inlet that has been fed a stream. -/
def Framed (config : RunConfig) (inlet : Inlet) : Prop :=
  ∃ messages, LineFramer.After config.framerConfig inlet.read messages inlet.framer

theorem emitted_eq (config : RunConfig) (s : Bytes) :
    LineFramer.emitted config.framerConfig s =
      shortLines newline config.runtime.maxMessageBytes s := by
  have hemit : config.framerConfig.emit = id :=
    funext fun _ => if_neg fun htrim => Bool.false_ne_true htrim.1
  unfold LineFramer.emitted
  rw [hemit, List.map_id]
  rfl

/-- Only the first message of a read may have begun in front of it. -/
theorem fed_length {config : RunConfig} {inlet : Inlet} (h : Framed config inlet)
    (chunk : Chunk) :
    (inlet.framer.feed chunk.val).messages = [] ∨
      ∃ message messages, (inlet.framer.feed chunk.val).messages = message :: messages ∧
        message.length ≤ config.runtime.maxMessageBytes ∧
        linesLength messages + 1 ≤ readChunkBytes := by
  obtain ⟨before, hafter⟩ := h
  have hfed := (LineFramer.feed_after hafter chunk.val).1.emits
  have hmessages : (inlet.framer.feed chunk.val).messages = [] ∨
      (inlet.framer.feed chunk.val).messages = shortLines newline
        config.runtime.maxMessageBytes (restOf newline inlet.read ++ chunk.val) := by
    rw [hafter.emits, emitted_eq, emitted_eq] at hfed
    by_cases hover : Overlong newline config.runtime.maxMessageBytes inlet.read
    · left
      rw [(overlong_append hover chunk.val).2] at hfed
      exact List.append_cancel_left (hfed.trans (List.append_nil _).symm)
    · right
      rw [shortLines_append hover] at hfed
      exact List.append_cancel_left hfed
  rcases hmessages with hnil | hshort
  · exact Or.inl hnil
  · rw [hshort]
    rcases shortLines_open_length (not_mem_restOf inlet.read) chunk.val with
      hnil | ⟨message, messages, hcons, hmessage, hlength⟩
    · exact Or.inl hnil
    · exact Or.inr ⟨message, messages, hcons, hmessage, hlength.trans chunk.property.2⟩

/-- What one read of the client brings fits in the empty queues. -/
theorem client_room {config : RunConfig} {inlet : Inlet} (hframed : Framed config inlet)
    {outputs : Outputs ToolCallFilter} (hchild : outputs.toChild.buffer.bytes = [])
    (hclient : outputs.toClient.buffer.bytes = [])
    (hchildCapacity : config.clientQueueBytes ≤ outputs.toChild.buffer.capacity)
    (hclientCapacity : config.serverQueueBytes ≤ outputs.toClient.buffer.capacity)
    (chunk : Chunk) :
    Room (some filterHandler) outputs
      ((inlet.framer.feed chunk.val).messages.map (.clientToServer, ·)) := by
  have hforward := texts_length_le client_textForChild outputs.handlerState
    (inlet.framer.feed chunk.val).messages
  rw [sum_bound_eq] at hforward
  unfold Room Queue.HasRoom
  rw [hchild, hclient]
  rcases fed_length hframed chunk with hnil | ⟨message, messages, hcons, hmessage, hlength⟩
  · rw [hnil]
    exact ⟨Nat.zero_le _, Nat.zero_le _⟩
  rw [hcons] at hforward ⊢
  constructor
  · have hsum : linesLength (message :: messages) =
        message.length + 1 + linesLength messages := List.sum_cons
    unfold RunConfig.clientQueueBytes at hchildCapacity
    rw [List.length_nil]
    omega
  · -- the first answer has its message's length, the others four times what was read
    have hfirst := (client_textForClient outputs.handlerState message).1
    have hothers := texts_length_le
      (fun state message => (client_textForClient state message).2)
      (inspectOne (some filterHandler) outputs.handlerState (.clientToServer, message)).2
      messages
    have hfour : (messages.map fun message => 4 * (message.length + 1)).sum =
        4 * linesLength messages := List.sum_map_mul_left messages _ 4
    rw [hfour] at hothers
    have hexpansion : config.serverQueueBytes =
        config.runtime.maxMessageBytes + (4 * readChunkBytes + 512) := rfl
    rw [List.map_cons]
    unfold inspectAll
    rw [List.flatMap_cons, List.length_append, List.length_nil]
    omega

/-- The queue to the child takes nothing from the server. -/
theorem server_toChild_room (outputs : Outputs σ) (messages : List Bytes) :
    outputs.toChild.HasRoom ((inspectAll handler outputs.handlerState
      (messages.map (.serverToClient, ·))).1.flatMap Inspection.textForChild) := by
  have hnone : ((inspectAll handler outputs.handlerState
      (messages.map (.serverToClient, ·))).1.flatMap Inspection.textForChild).length ≤
        (messages.map fun _ => 0).sum :=
    texts_length_le server_textForChild outputs.handlerState messages
  have hfits := outputs.toChild.buffer.fits
  unfold Queue.HasRoom
  simp only [List.map_const', List.sum_replicate, smul_zero] at hnone
  omega

/-- What one read of the child brings fits in the empty queue to the client. -/
theorem server_room {config : RunConfig} {inlet : Inlet} (hframed : Framed config inlet)
    {outputs : Outputs ToolCallFilter} (hclient : outputs.toClient.buffer.bytes = [])
    (hclientCapacity : config.serverQueueBytes ≤ outputs.toClient.buffer.capacity)
    (chunk : Chunk) :
    Room (some filterHandler) outputs
      ((inlet.framer.feed chunk.val).messages.map (.serverToClient, ·)) := by
  refine ⟨server_toChild_room outputs _, ?_⟩
  have hlines := texts_length_le server_textForClient outputs.handlerState
    (inlet.framer.feed chunk.val).messages
  have hexpansion : config.serverQueueBytes =
      config.runtime.maxMessageBytes + (4 * readChunkBytes + 512) := rfl
  rw [sum_bound_eq] at hlines
  unfold Queue.HasRoom
  rw [hclient, List.length_nil]
  rcases fed_length hframed chunk with hnil | ⟨message, messages, hcons, hmessage, hlength⟩
  · rw [hnil]
    exact Nat.zero_le _
  · rw [hcons] at hlines ⊢
    have hsum : linesLength (message :: messages) =
        message.length + 1 + linesLength messages := List.sum_cons
    omega

/-! ## §4  A turn -/

/-- The loop is left because an append found no room. -/
def QueueExceeded {α : Type} (r : Except (Exit σ) α) : Prop :=
  ∃ state, r = .error (.returned 4 "bounded relay queue exceeded" state)

/-- The loop is left because a message is over the limit. -/
def TooLong {α : Type} (r : Except (Exit σ) α) : Prop :=
  ∃ direction state,
    r = .error (.returned 3 (framingError direction ++ messageTooLarge.message) state)

theorem QueueExceeded.bind {α β : Type} {r : Except (Exit σ) α}
    {f : α → Except (Exit σ) β} (h : QueueExceeded (r >>= f)) :
    QueueExceeded r ∨ ∃ a, r = .ok a ∧ QueueExceeded (f a) := by
  cases r with
  | error e =>
      obtain ⟨state, he⟩ := h
      cases he
      exact Or.inl ⟨state, rfl⟩
  | ok a => exact Or.inr ⟨a, rfl, h⟩

/-- What follows the step does not exceed a queue. -/
theorem QueueExceeded.of_map {α β : Type} {r : Except (Exit σ) α} {f : α → β}
    (h : QueueExceeded (r >>= fun a => .ok (f a))) : QueueExceeded r := by
  rcases h.bind with hr | ⟨a, -, state, hok⟩
  · exact hr
  · cases hok

theorem not_queueExceeded_ok {α : Type} (a : α) :
    ¬ QueueExceeded (.ok a : Except (Exit σ) α) := by
  rintro ⟨state, h⟩
  cases h

theorem not_queueExceeded_error {α : Type} {code : Nat} {text : String} {state : σ}
    (h : text ≠ "bounded relay queue exceeded") :
    ¬ QueueExceeded (.error (.returned code text state) : Except (Exit σ) α) := by
  rintro ⟨state', heq⟩
  cases heq
  exact h rfl

/-- A received chunk is too long, or the room for it decides. -/
theorem receive_room (hcodes : ShortCodes handler) {config : RunConfig} {inlet : Inlet}
    (hframed : Framed config inlet) (direction : MessageDirection) (outputs : Outputs σ)
    (chunk : Chunk) :
    (Overlong newline config.runtime.maxMessageBytes (inlet.read ++ chunk.val) ∧
        TooLong (receive handler direction inlet outputs chunk)) ∨
      (Room handler outputs ((inlet.framer.feed chunk.val).messages.map (direction, ·)) ∧
        ∃ fed, receive handler direction inlet outputs chunk = .ok fed) ∨
      (¬ Room handler outputs ((inlet.framer.feed chunk.val).messages.map (direction, ·)) ∧
        QueueExceeded (receive handler direction inlet outputs chunk)) := by
  obtain ⟨before, hafter⟩ := hframed
  have hstatus := (LineFramer.feed_after hafter chunk.val).2
  have hroom := sinks_overflow_iff hcodes direction (inlet.framer.feed chunk.val).messages
    outputs
  unfold LineFramer.streamStatus at hstatus
  unfold receive
  dsimp only
  by_cases hover : Overlong newline config.framerConfig.maxMessageBytes
      (inlet.read ++ chunk.val)
  · rw [if_pos hover] at hstatus
    left
    rw [hstatus, if_pos (by decide)]
    exact ⟨hover, _, _, rfl⟩
  · rw [if_neg hover] at hstatus
    right
    rw [hstatus, if_neg (by decide)]
    by_cases hsunk : ((inlet.framer.feed chunk.val).messages.foldl (sink handler direction)
        (outputs, false)).2 = false
    · left
      refine ⟨hroom.mp hsunk, _, if_neg ?_⟩
      rw [hsunk]
      exact Bool.false_ne_true
    · right
      refine ⟨fun h => hsunk (hroom.mpr h), _, if_pos ?_⟩
      exact eq_true_of_ne_false hsunk

theorem not_queueExceeded_of_tooLong {α : Type} {r : Except (Exit σ) α} (h : TooLong r) :
    ¬ QueueExceeded r := by
  obtain ⟨direction, state, rfl⟩ := h
  rintro ⟨state', heq⟩
  cases heq

theorem not_queueExceeded_receive (hcodes : ShortCodes handler) {config : RunConfig}
    {inlet : Inlet} (hframed : Framed config inlet) {direction : MessageDirection}
    {outputs : Outputs σ} {chunk : Chunk}
    (hroom : Room handler outputs
      ((inlet.framer.feed chunk.val).messages.map (direction, ·))) :
    ¬ QueueExceeded (receive handler direction inlet outputs chunk) := by
  rcases receive_room hcodes hframed direction outputs chunk with
    ⟨-, htooLong⟩ | ⟨-, fed, hok⟩ | ⟨hnot, -⟩
  · exact not_queueExceeded_of_tooLong htooLong
  · rw [hok]
    exact not_queueExceeded_ok fed
  · exact absurd hroom hnot

theorem not_queueExceeded_close (direction : MessageDirection) (inlet : Inlet)
    (outputs : Outputs σ) : ¬ QueueExceeded (close direction inlet outputs) := by
  unfold close
  dsimp only
  split
  · rintro ⟨state, heq⟩
    cases heq
  · exact not_queueExceeded_ok _

/-- Reading from the client exceeds a queue only with a chunk that has no room. -/
theorem readClient_exceeded {relay : Relay σ} {result : ReadResult}
    (h : QueueExceeded (readClient handler relay result)) :
    ∃ chunk, result = .data chunk ∧
      QueueExceeded (receive handler .clientToServer relay.client relay.outputs chunk) := by
  cases result with
  | data chunk => exact ⟨chunk, rfl, h.of_map⟩
  | endOfFile => exact absurd h.of_map (not_queueExceeded_close _ _ _)
  | retry => exact absurd h (not_queueExceeded_ok _)
  | failed => exact absurd h (not_queueExceeded_error (by decide))

theorem readChild_exceeded {relay : Relay σ} {result : ReadResult}
    (h : QueueExceeded (readChild handler relay result)) :
    ∃ chunk, result = .data chunk ∧
      QueueExceeded (receive handler .serverToClient relay.child relay.outputs chunk) := by
  cases result with
  | data chunk => exact ⟨chunk, rfl, h.of_map⟩
  | endOfFile => exact absurd h.of_map (not_queueExceeded_close _ _ _)
  | retry => exact absurd h (not_queueExceeded_ok _)
  | failed => exact absurd h (not_queueExceeded_error (by decide))

theorem writeChild_exceeded {relay : Relay σ} (result : WriteResult) :
    ¬ QueueExceeded (writeChild relay result) := by
  unfold writeChild
  dsimp only
  split
  · exact not_queueExceeded_ok _
  · exact not_queueExceeded_error (by decide)
  · exact not_queueExceeded_ok _
  · exact not_queueExceeded_ok _

theorem writeClient_exceeded {relay : Relay σ} (result : WriteResult) :
    ¬ QueueExceeded (writeClient relay result) := by
  unfold writeClient
  dsimp only
  split
  · exact not_queueExceeded_error (by decide)
  · exact not_queueExceeded_error (by decide)
  · exact not_queueExceeded_ok _
  · exact not_queueExceeded_ok _

theorem whenReady_exceeded {ρ : Type} {polled : Bool} {event : Option ρ}
    {serve : Relay σ → ρ → Except (Exit σ) (Relay σ)} {relay : Relay σ}
    (h : QueueExceeded (whenReady polled event serve relay)) :
    polled = true ∧ ∃ result, event = some result ∧ QueueExceeded (serve relay result) := by
  unfold whenReady at h
  split at h
  · exact ⟨rfl, _, rfl, h⟩
  · exact absurd h (not_queueExceeded_ok _)

/-! ## §5  What every turn keeps -/

structure Roomy (config : RunConfig) (relay : Relay σ) : Prop where
  client : Framed config relay.client
  child : Framed config relay.child
  toChild : relay.outputs.toChild.buffer.capacity =
    max config.relayBufferBytes config.clientQueueBytes
  toClient : relay.outputs.toClient.buffer.capacity =
    max config.relayBufferBytes config.serverQueueBytes

variable {config : RunConfig} {relay relay' : Relay σ}

theorem start_roomy {state : σ} (h : start config state = .ok relay) :
    Roomy config relay := by
  obtain rfl := start_ok h
  exact ⟨⟨_, freshInlet_after config⟩, ⟨_, freshInlet_after config⟩, rfl, rfl⟩

theorem Framed.fed {inlet : Inlet} (h : Framed config inlet) (chunk : Chunk) :
    Framed config ⟨(inlet.framer.feed chunk.val).framer, inlet.read ++ chunk.val⟩ := by
  obtain ⟨before, hafter⟩ := h
  exact ⟨_, (LineFramer.feed_after hafter chunk.val).1⟩

theorem readClient_roomy (h : Roomy config relay) {result : ReadResult}
    (hread : readClient handler relay result = .ok relay') : Roomy config relay' := by
  rcases readClient_cases hread with
    ⟨chunk, client, outputs, -, hreceive, rfl⟩ | rfl | rfl
  · obtain ⟨rfl, hdelivered⟩ := receive_ok hreceive
    exact ⟨h.client.fed chunk, h.child, hdelivered.toChild.capacity.trans h.toChild,
      hdelivered.toClient.capacity.trans h.toClient⟩
  · exact { h with }
  · exact h

theorem readChild_roomy (h : Roomy config relay) {result : ReadResult}
    (hread : readChild handler relay result = .ok relay') : Roomy config relay' := by
  rcases readChild_cases hread with
    ⟨chunk, child, outputs, -, hreceive, rfl⟩ | rfl | rfl
  · obtain ⟨rfl, hdelivered⟩ := receive_ok hreceive
    exact ⟨h.client, h.child.fed chunk, hdelivered.toChild.capacity.trans h.toChild,
      hdelivered.toClient.capacity.trans h.toClient⟩
  · exact { h with }
  · exact h

theorem writeChild_roomy (h : Roomy config relay) {result : WriteResult}
    (hwrite : writeChild relay result = .ok relay') : Roomy config relay' := by
  have hcapacity := (Queue.flushTo_capacity relay.outputs.toChild result).trans h.toChild
  rcases writeChild_cases hwrite with rfl | ⟨-, written, rfl⟩
  · exact { h with toChild := hcapacity }
  · exact { h with toChild := hcapacity }

theorem writeClient_roomy (h : Roomy config relay) {result : WriteResult}
    (hwrite : writeClient relay result = .ok relay') : Roomy config relay' := by
  have hcapacity := (Queue.flushTo_capacity relay.outputs.toClient result).trans h.toClient
  cases writeClient_ok hwrite
  exact { h with toClient := hcapacity }

theorem serve_roomy (h : Roomy config relay) {events : Ready}
    (hserve : serve handler relay events = .ok relay') : Roomy config relay' :=
  serve_keeps (fun hr hread => readClient_roomy hr hread)
    (fun hr hread => readChild_roomy hr hread) (fun _ hr hwrite => writeChild_roomy hr hwrite)
    (fun hr hwrite => writeClient_roomy hr hwrite) h hserve

theorem observe_roomy (h : Roomy config relay) {waited : Waited}
    (hobserve : relay.observe waited = .ok relay') : Roomy config relay' := by
  unfold observe at hobserve
  split at hobserve
  · cases hobserve
    exact h
  · cases waited with
    | running =>
        cases hobserve
        exact h
    | interrupted =>
        cases hobserve
        exact h
    | reaped =>
        cases hobserve
        exact { h with }
    | failed => cases hobserve

theorem terminate_roomy (h : Roomy config relay) (terminationSignal graceOver : Bool) :
    Roomy config ((relay.terminate terminationSignal).kill graceOver).closeInput := by
  have hterminate : Roomy config (relay.terminate terminationSignal) := by
    unfold terminate
    split
    · exact { h with }
    · exact h
  have hkill : Roomy config ((relay.terminate terminationSignal).kill graceOver) := by
    unfold kill
    split
    · exact { hterminate with }
    · exact hterminate
  unfold closeInput
  split
  · exact { hkill with }
  · exact hkill

theorem prepare_roomy (h : Roomy config relay) {t : Turn}
    (hprepare : relay.prepare t = .ok relay') : Roomy config relay' := by
  unfold prepare at hprepare
  split at hprepare
  · cases hprepare
  obtain ⟨observed, hobserve, hprepare⟩ := except_bind_ok.mp hprepare
  dsimp only at hprepare
  split at hprepare
  · cases hprepare
  · cases hprepare
    exact terminate_roomy (observe_roomy h hobserve) _ _

theorem turn_roomy (h : Roomy config relay) {t : Turn}
    (hturn : turn handler relay t = .ok relay') : Roomy config relay' := by
  obtain ⟨prepared, hprepare, hpoll⟩ := except_bind_ok.mp hturn
  have hprepared := prepare_roomy h hprepare
  exact poll_keeps (fun events _ hserve => serve_roomy hprepared hserve) hprepared hpoll

/-! ## §6  Turns that read from both sides -/

/-- The messages that a turn reads, the client's first. -/
def arrivalsOf (relay : Relay σ) (clientChunk childChunk : Chunk) : List Arrival :=
  (relay.client.framer.feed clientChunk.val).messages.map (.clientToServer, ·) ++
    (relay.child.framer.feed childChunk.val).messages.map (.serverToClient, ·)

/-- If the poll finds both sources readable, the answers to the client's messages and
the lines from the server are together no longer than the queue to the client. -/
def FitsTogether (config : RunConfig) (handler : Option (ClientMessageHandler σ))
    (relay : Relay σ) (events : Ready) : Prop :=
  ∀ clientChunk childChunk,
    relay.pollsStdin = true → events.stdin = some (.data clientChunk) →
    relay.pollsChildStdout = true → events.childStdout = some (.data childChunk) →
    ((inspectAll handler relay.outputs.handlerState
        (relay.arrivalsOf clientChunk childChunk)).1.flatMap
      Inspection.textForClient).length ≤
        max config.relayBufferBytes config.serverQueueBytes

theorem isEmpty_bytes {q : Queue} (h : q.isEmpty = true) : q.buffer.bytes = [] :=
  List.isEmpty_iff.mp h

/-- The queue to the client is empty when a source is polled. -/
theorem pollsStdin_empty (h : relay.pollsStdin = true) :
    relay.outputs.toChild.buffer.bytes = [] ∧ relay.outputs.toClient.buffer.bytes = [] := by
  unfold pollsStdin at h
  simp only [Bool.and_eq_true] at h
  exact ⟨isEmpty_bytes h.1.2, isEmpty_bytes h.2⟩

theorem pollsChildStdout_empty (h : relay.pollsChildStdout = true) :
    relay.outputs.toClient.buffer.bytes = [] := by
  unfold pollsChildStdout at h
  rw [Bool.and_eq_true] at h
  exact isEmpty_bytes h.2

section filter

variable {relay relay' : Relay ToolCallFilter}

theorem Roomy.client_room (h : Roomy config relay) (hpolled : relay.pollsStdin = true)
    (chunk : Chunk) : Room (some filterHandler) relay.outputs
      ((relay.client.framer.feed chunk.val).messages.map (.clientToServer, ·)) := by
  obtain ⟨hchild, hclient⟩ := pollsStdin_empty hpolled
  refine Relay.client_room h.client hchild hclient ?_ ?_ chunk
  · rw [h.toChild]
    exact Nat.le_max_right _ _
  · rw [h.toClient]
    exact Nat.le_max_right _ _

theorem Roomy.server_room (h : Roomy config relay)
    (hempty : relay.outputs.toClient.buffer.bytes = []) (chunk : Chunk) :
    Room (some filterHandler) relay.outputs
      ((relay.child.framer.feed chunk.val).messages.map (.serverToClient, ·)) := by
  refine Relay.server_room h.child hempty ?_ chunk
  rw [h.toClient]
  exact Nat.le_max_right _ _

/-- Behind a read of the client, the room for the server's lines is what the answers
left. -/
theorem both_room_iff (h : Roomy config relay) {clientChunk childChunk : Chunk}
    {client : Inlet} {outputs : Outputs ToolCallFilter}
    (hempty : relay.outputs.toClient.buffer.bytes = [])
    (hreceive : receive (some filterHandler) .clientToServer relay.client relay.outputs
      clientChunk = .ok (client, outputs)) :
    Room (some filterHandler) outputs
        ((relay.child.framer.feed childChunk.val).messages.map (.serverToClient, ·)) ↔
      ((inspectAll (some filterHandler) relay.outputs.handlerState
          (relay.arrivalsOf clientChunk childChunk)).1.flatMap
        Inspection.textForClient).length ≤
          max config.relayBufferBytes config.serverQueueBytes := by
  obtain ⟨-, hstate, -, -, htakes⟩ := receive_ok hreceive
  unfold arrivalsOf
  rw [inspectAll_append, List.flatMap_append, List.length_append, ← h.toClient, ← hstate]
  have hbytes := htakes.bytes
  rw [hempty, List.nil_append] at hbytes
  rw [← hbytes, ← htakes.capacity]
  constructor
  · exact fun hroom => hroom.2
  · exact fun hfits => ⟨server_toChild_room outputs _, hfits⟩

/-- A turn's services exceed a queue only when they read from both sides. -/
theorem serve_fits (h : Roomy config relay) {events : Ready}
    (hfits : FitsTogether config (some filterHandler) relay events) :
    ¬ QueueExceeded (serve (some filterHandler) relay events) := by
  intro hexceeded
  rcases hexceeded.bind with hfirst | ⟨first, hfirst, hexceeded⟩
  · obtain ⟨hpolled, result, -, hread⟩ := whenReady_exceeded hfirst
    obtain ⟨chunk, -, hreceive⟩ := readClient_exceeded hread
    exact not_queueExceeded_receive shortCodes_filter h.client
      (h.client_room hpolled chunk) hreceive
  rcases hexceeded.bind with hsecond | ⟨second, -, hexceeded⟩
  · obtain ⟨hpolled, result, hevent, hread⟩ := whenReady_exceeded hsecond
    obtain ⟨childChunk, rfl, hreceive⟩ := readChild_exceeded hread
    have hempty := pollsChildStdout_empty hpolled
    have hexceeds : ∀ {outputs}, Room (some filterHandler) outputs
        ((relay.child.framer.feed childChunk.val).messages.map (.serverToClient, ·)) →
          ¬ QueueExceeded (receive (some filterHandler) .serverToClient relay.child outputs
            childChunk) :=
      fun hroom => not_queueExceeded_receive shortCodes_filter h.child hroom
    rcases whenReady_cases hfirst with rfl | ⟨result, hinput, hstdin, hread⟩
    · exact hexceeds (h.server_room hempty childChunk) hreceive
    rcases readClient_cases hread with ⟨clientChunk, client, outputs, rfl, hclient, rfl⟩ | hrest
    · -- both sides are read: the server's lines come behind the answers
      refine hexceeds ((both_room_iff h hempty hclient).mpr ?_) hreceive
      exact hfits clientChunk childChunk hinput hstdin hpolled hevent
    · rcases hrest with rfl | rfl
      · exact hexceeds (h.server_room hempty childChunk) hreceive
      · exact hexceeds (h.server_room hempty childChunk) hreceive
  rcases hexceeded.bind with hthird | ⟨third, -, hexceeded⟩
  · obtain ⟨-, result, -, hwrite⟩ := whenReady_exceeded hthird
    exact writeChild_exceeded result hwrite
  · obtain ⟨-, result, -, hwrite⟩ := whenReady_exceeded hexceeded
    exact writeClient_exceeded result hwrite

/-- Without the room, a turn that reads from both sides is the last one. -/
theorem serve_exceeds (h : Roomy config relay) {events : Ready} {clientChunk childChunk : Chunk}
    (hinput : relay.pollsStdin = true) (hstdin : events.stdin = some (.data clientChunk))
    (hpolled : relay.pollsChildStdout = true)
    (hevent : events.childStdout = some (.data childChunk))
    (hover : max config.relayBufferBytes config.serverQueueBytes <
      ((inspectAll (some filterHandler) relay.outputs.handlerState
          (relay.arrivalsOf clientChunk childChunk)).1.flatMap
        Inspection.textForClient).length) :
    ((Overlong newline config.runtime.maxMessageBytes (relay.client.read ++ clientChunk.val) ∨
        Overlong newline config.runtime.maxMessageBytes (relay.child.read ++ childChunk.val)) ∧
      TooLong (serve (some filterHandler) relay events)) ∨
      QueueExceeded (serve (some filterHandler) relay events) := by
  have hempty := pollsChildStdout_empty hpolled
  unfold serve
  rw [hinput, hstdin, hpolled, hevent]
  show (_ ∧ TooLong (readClient (some filterHandler) relay (.data clientChunk) >>= _)) ∨
    QueueExceeded (readClient (some filterHandler) relay (.data clientChunk) >>= _)
  rcases receive_room shortCodes_filter h.client .clientToServer relay.outputs clientChunk with
    ⟨hlong, direction, state, hreceive⟩ | ⟨-, ⟨client, outputs⟩, hreceive⟩ | ⟨hnot, -⟩
  · left
    refine ⟨Or.inl hlong, direction, state, ?_⟩
    rw [readClient, hreceive]
    rfl
  · have hclient : readClient (some filterHandler) relay (.data clientChunk) =
        .ok { relay with client := client, outputs := outputs } := by
      rw [readClient, hreceive]
      rfl
    rw [hclient]
    -- the client's part has fitted, so it is the child's that has no room
    have hroom := mt (@both_room_iff config relay h clientChunk childChunk client outputs
      hempty hreceive).mp (Nat.not_le.mpr hover)
    rcases receive_room shortCodes_filter h.child .serverToClient outputs childChunk with
      ⟨hlong, direction, state, hchild⟩ | ⟨hyes, -⟩ | ⟨-, state, hchild⟩
    · left
      refine ⟨Or.inr hlong, direction, state, ?_⟩
      show readChild (some filterHandler)
        { relay with client := client, outputs := outputs } (.data childChunk) >>= _ = _
      rw [readChild, hchild]
      rfl
    · exact absurd hyes hroom
    · right
      refine ⟨state, ?_⟩
      show readChild (some filterHandler)
        { relay with client := client, outputs := outputs } (.data childChunk) >>= _ = _
      rw [readChild, hchild]
      rfl
  · exact absurd (h.client_room hinput clientChunk) hnot

end filter

/-! ## §7  Runs -/

/-- What a turn reads from both sides fits together. -/
def TurnFits (config : RunConfig) (handler : Option (ClientMessageHandler σ))
    (relay : Relay σ) (t : Turn) : Prop :=
  ∀ prepared events, relay.prepare t = .ok prepared → t.polled = .ready events →
    FitsTogether config handler prepared events

/-- So it is in every turn that is reached. -/
def RunFits (config : RunConfig) (handler : Option (ClientMessageHandler σ)) :
    Relay σ → List Turn → Prop
  | _, [] => True
  | relay, t :: turns =>
      TurnFits config handler relay t ∧
        ∀ next, turn handler relay t = .ok next → RunFits config handler next turns

theorem not_queueExceeded_prepare (t : Turn) : ¬ QueueExceeded (relay.prepare t) := by
  unfold prepare
  split
  · rintro ⟨state, heq⟩
    cases heq
  intro hexceeded
  rcases hexceeded.bind with hobserve | ⟨observed, -, hexceeded⟩
  · revert hobserve
    unfold observe
    split
    · exact not_queueExceeded_ok _
    · cases t.waited with
      | running => exact not_queueExceeded_ok _
      | interrupted => exact not_queueExceeded_ok _
      | reaped => exact not_queueExceeded_ok _
      | failed => exact not_queueExceeded_error (by decide)
  · dsimp only at hexceeded
    split at hexceeded
    · obtain ⟨state, heq⟩ := hexceeded
      cases heq
    · exact not_queueExceeded_ok _ hexceeded

section filter

variable {relay : Relay ToolCallFilter}

theorem turn_fits (h : Roomy config relay) {t : Turn}
    (hfits : TurnFits config (some filterHandler) relay t) :
    ¬ QueueExceeded (turn (some filterHandler) relay t) := by
  intro hexceeded
  rcases hexceeded.bind with hprepare | ⟨prepared, hprepare, hpoll⟩
  · exact not_queueExceeded_prepare t hprepare
  · cases hpolled : t.polled with
    | interrupted =>
        rw [hpolled] at hpoll
        exact not_queueExceeded_ok _ hpoll
    | timeout =>
        rw [hpolled] at hpoll
        exact not_queueExceeded_ok _ hpoll
    | failed =>
        rw [hpolled] at hpoll
        exact not_queueExceeded_error (by decide) hpoll
    | ready events =>
        rw [hpolled] at hpoll
        exact serve_fits (prepare_roomy h hprepare)
          (hfits prepared events hprepare hpolled) hpoll

theorem turn_not_fits (h : Roomy config relay) {t : Turn}
    (hfits : ¬ TurnFits config (some filterHandler) relay t) :
    TooLong (turn (some filterHandler) relay t) ∨
      QueueExceeded (turn (some filterHandler) relay t) := by
  unfold TurnFits FitsTogether at hfits
  push Not at hfits
  obtain ⟨prepared, events, hprepare, hready, clientChunk, childChunk, hinput, hstdin,
    hpolled, hevent, hover⟩ := hfits
  unfold turn
  rw [hprepare, hready]
  exact (serve_exceeds (prepare_roomy h hprepare) hinput hstdin hpolled hevent hover).imp
    And.right id

theorem run_fits_iff (turns : List Turn) (h : Roomy config relay)
    (hsize : ¬ TooLong (run (some filterHandler) relay turns)) :
    ¬ QueueExceeded (run (some filterHandler) relay turns) ↔
      RunFits config (some filterHandler) relay turns := by
  induction turns generalizing relay with
  | nil => exact iff_of_true (not_queueExceeded_ok relay) trivial
  | cons t turns ih =>
      rw [run_cons] at hsize ⊢
      constructor
      · intro hnot
        constructor
        · by_contra hfits
          rcases turn_not_fits h hfits with ⟨direction, state, hturn⟩ | ⟨state, hturn⟩
          · exact hsize ⟨direction, state, by rw [hturn]; rfl⟩
          · exact hnot ⟨state, by rw [hturn]; rfl⟩
        · intro next hturn
          rw [hturn] at hsize hnot
          exact (ih (turn_roomy h hturn) hsize).mp hnot
      · rintro ⟨hfits, hrest⟩ hexceeded
        rcases hexceeded.bind with hturn | ⟨next, hturn, hexceeded⟩
        · exact turn_fits h hfits hturn
        · rw [hturn] at hsize
          exact (ih (turn_roomy h hturn) hsize).mpr (hrest next hturn) hexceeded

/-- The queues suffice in a run of messages within the limit exactly if, in each of its
turns that reads from both sides, the answers to the client and the lines from the server
are together no longer than the queue to the client. A turn that reads from one side
never exceeds a queue, nor does anything that is sent to the child. -/
theorem queues_suffice_iff {f : ToolCallFilter} {turns : List Turn}
    (hstart : start config f = .ok relay)
    (hsize : ¬ TooLong (run (some filterHandler) relay turns)) :
    ¬ QueueExceeded (run (some filterHandler) relay turns) ↔
      RunFits config (some filterHandler) relay turns :=
  run_fits_iff turns (start_roomy hstart) hsize

/-- A turn that reads an answer to the client and a line from the server fits. -/
theorem queues_suffice_iff_example : ∃ relay',
    run (some filterHandler) (fresh {} denyFilter) bothTurns = .ok relay' ∧
      relay'.outputs.toClient.rest.length = 79 ∧
      RunFits {} (some filterHandler) (fresh {} denyFilter) bothTurns := by
  have hstart : start {} denyFilter = .ok (fresh {} denyFilter) := if_neg (by decide)
  obtain ⟨relay', hrun, -, hclient⟩ := bothTurns_run
  have hsize : ¬ TooLong (run (some filterHandler) (fresh {} denyFilter) bothTurns) := by
    rintro ⟨direction, state, heq⟩
    rw [hrun] at heq
    cases heq
  have hroom : ¬ QueueExceeded (run (some filterHandler) (fresh {} denyFilter) bothTurns) := by
    rw [hrun]
    exact not_queueExceeded_ok relay'
  exact ⟨relay', hrun, hclient, (queues_suffice_iff hstart hsize).mp hroom⟩

end filter

/-! ## §8  A turn without room -/

theorem flatten_replicate_length (line : Bytes) (n : Nat) :
    (List.replicate n line).flatten.length = n * line.length := by
  rw [List.length_flatten, List.map_replicate, List.sum_replicate, smul_eq_mul]

/-- A chunk of one line over and over. -/
theorem repeated_lines {line : Bytes} {limit : Nat} (hline : newline ∉ line)
    (hshort : line.length ≤ limit) (n : Nat) :
    ¬ Overlong newline limit (List.replicate n (line ++ [newline])).flatten ∧
      shortLines newline limit (List.replicate n (line ++ [newline])).flatten =
        List.replicate n line := by
  induction n with
  | zero =>
      refine ⟨?_, rfl⟩
      rintro ⟨l, hl, hlt⟩
      rw [List.mem_singleton.mp hl] at hlt
      exact absurd hlt (Nat.not_lt_zero limit)
  | succ n ih =>
      rw [List.replicate_succ, List.flatten_cons, List.append_assoc, List.singleton_append]
      obtain ⟨hover, hlines, -⟩ :=
        shortLines_line hline hshort (List.replicate n (line ++ [newline])).flatten
      exact ⟨fun h => ih.1 (hover.mp h), by rw [hlines, ih.2, List.replicate_succ]⟩

/-- A message that leaves the handler as it is, over and over. -/
theorem inspectAll_replicate {state : σ} {arrival : Arrival} {inspection : Inspection}
    (h : inspectOne handler state arrival = (inspection, state)) (n : Nat) :
    inspectAll handler state (List.replicate n arrival) =
      (List.replicate n inspection, state) := by
  induction n with
  | zero => rfl
  | succ n ih =>
      rw [List.replicate_succ, inspectAll, h, ih]
      rfl

/-- A call that is cut off behind its method, and a notification. -/
def callLine : Bytes := ascii "\x7b\"id\":1,\"method\":\"tools/call\""
def noteLine : Bytes := ascii "\x7b\"jsonrpc\":\"2.0\",\"method\":\"x\"\x7d"

/-- Thirty bytes for a message, and the smallest relay buffer. -/
def floodConfig : RunConfig := { relayBufferBytes := 1, runtime := { maxMessageBytes := 30 } }

def floodFilter : ToolCallFilter := init allowAll { runtime := floodConfig.runtime }

theorem flooded_size {line : Bytes} {n : Nat} (hn : 0 < n)
    (h : n * (line.length + 1) ≤ readChunkBytes) :
    (List.replicate n (line ++ [newline])).flatten ≠ [] ∧
      (List.replicate n (line ++ [newline])).flatten.length ≤ readChunkBytes := by
  have hlength := flatten_replicate_length (line ++ [newline]) n
  rw [List.length_append, List.length_singleton] at hlength
  refine ⟨fun hnil => ?_, by rw [hlength]; exact h⟩
  rw [hnil, List.length_nil] at hlength
  exact absurd hlength.symm (Nat.mul_pos hn (Nat.succ_pos _)).ne'

def clientFlood : Chunk :=
  ⟨(List.replicate 2184 (callLine ++ [newline])).flatten, flooded_size (by decide) (by decide)⟩

def childFlood : Chunk :=
  ⟨(List.replicate 2114 (noteLine ++ [newline])).flatten, flooded_size (by decide) (by decide)⟩

/-- Both sources are readable in one poll. -/
def floodTurn : Turn :=
  { polled := .ready { stdin := some (.data clientFlood), childStdout := some (.data childFlood) } }

theorem fresh_fed {line : Bytes} {n : Nat} (hline : newline ∉ line) (hshort : line.length ≤ 30) :
    ((freshInlet floodConfig).framer.feed
      (List.replicate n (line ++ [newline])).flatten).messages = List.replicate n line := by
  have hopen := (LineFramer.after_open (f := (freshInlet floodConfig).framer) (s := [])
    rfl rfl rfl List.not_mem_nil).1
  have hfed := (LineFramer.feed_after hopen
    (List.replicate n (line ++ [newline])).flatten).1.emits
  have hemitted : LineFramer.emitted floodConfig.framerConfig
      (List.replicate n (line ++ [newline])).flatten = List.replicate n line := by
    rw [emitted_eq]
    exact (repeated_lines hline hshort n).2
  exact hfed.trans hemitted

/-- A rejected call is answered with the id that was scanned. -/
theorem inspectOne_rejected {f : ToolCallFilter} {message : Bytes}
    (herror : (classify f.config.runtime message).error ≠ .none)
    (hmethod : (classify f.config.runtime message).method = ascii "tools/call")
    (hid : (classify f.config.runtime message).idJson ≠ []) :
    inspectOne (some filterHandler) f (.clientToServer, message) =
      (.client message ⟨.respondWithError, (classify f.config.runtime message).idJson,
        invalidParamsErrorCode, invalidParamsErrorMessage⟩, f) := by
  have hinspect : f.inspect message =
      f.rejectMessage (classify f.config.runtime message) message := if_pos herror
  show (Inspection.client message (f.inspect message).decision, (f.inspect message).filter) = _
  rw [hinspect]
  unfold rejectMessage
  dsimp only
  rw [if_pos ⟨hmethod, hid⟩]

theorem inspectOne_passed {f : ToolCallFilter} {message : Bytes}
    (herror : (classify f.config.runtime message).error = .none)
    (hkind : (classify f.config.runtime message).kind ≠ .response) :
    inspectOne (some filterHandler) f (.serverToClient, message) = (.server message {}, f) := by
  show (Inspection.server message (f.inspectServer message).decision,
    (f.inspectServer message).filter) = _
  rw [inspectServer_of_not_pending herror (Or.inl hkind)]

theorem flood_call : inspectOne (some filterHandler) floodFilter (.clientToServer, callLine) =
    (.client callLine ⟨.respondWithError, ascii "1", invalidParamsErrorCode,
      invalidParamsErrorMessage⟩, floodFilter) := by
  have hclassify : (classify floodFilter.config.runtime callLine).error ≠ .none ∧
      (classify floodFilter.config.runtime callLine).method = ascii "tools/call" ∧
      (classify floodFilter.config.runtime callLine).idJson = ascii "1" := by decide +kernel
  obtain ⟨herror, hmethod, hid⟩ := hclassify
  have hne : (classify floodFilter.config.runtime callLine).idJson ≠ [] := by
    rw [hid]
    decide
  rw [inspectOne_rejected herror hmethod hne, hid]

theorem flood_note : inspectOne (some filterHandler) floodFilter (.serverToClient, noteLine) =
    (.server noteLine {}, floodFilter) := by
  have hclassify : (classify floodFilter.config.runtime noteLine).error = .none ∧
      (classify floodFilter.config.runtime noteLine).kind ≠ .response := by decide +kernel
  exact inspectOne_passed hclassify.1 hclassify.2

theorem flatMap_replicate_length (text : Inspection → Bytes) (inspection : Inspection) (n : Nat) :
    ((List.replicate n inspection).flatMap text).length = n * (text inspection).length := by
  rw [List.length_flatMap, List.map_replicate, List.sum_replicate, smul_eq_mul]

/-- An answer takes ninety-one bytes, a notification thirty-one. -/
theorem flood_texts (n m : Nat) :
    ((inspectAll (some filterHandler) floodFilter
        (List.replicate n (.clientToServer, callLine) ++
          List.replicate m (.serverToClient, noteLine))).1.flatMap
      Inspection.textForClient).length = n * 91 + m * 31 := by
  have hreply : (Inspection.textForClient (.client callLine ⟨.respondWithError, ascii "1",
      invalidParamsErrorCode, invalidParamsErrorMessage⟩)).length = 91 := by decide
  have hnote : (Inspection.textForClient (.server noteLine {})).length = 31 := by decide
  rw [inspectAll_append, inspectAll_replicate flood_call, inspectAll_replicate flood_note,
    List.flatMap_append, List.length_append, flatMap_replicate_length,
    flatMap_replicate_length, hreply, hnote]

section flood

variable {clientChunk childChunk : Chunk}
  (hclient : clientChunk.val = (List.replicate 2184 (callLine ++ [newline])).flatten)
  (hchild : childChunk.val = (List.replicate 2114 (noteLine ++ [newline])).flatten)

include hclient hchild

/-- The answers to the calls and the notifications are longer than the queue. -/
theorem flood_length :
    max floodConfig.relayBufferBytes floodConfig.serverQueueBytes <
      ((inspectAll (some filterHandler) floodFilter
          ((fresh floodConfig floodFilter).arrivalsOf clientChunk childChunk)).1.flatMap
        Inspection.textForClient).length := by
  have harrivals : (fresh floodConfig floodFilter).arrivalsOf clientChunk childChunk =
      List.replicate 2184 (.clientToServer, callLine) ++
        List.replicate 2114 (.serverToClient, noteLine) := by
    show ((freshInlet floodConfig).framer.feed clientChunk.val).messages.map _ ++
      ((freshInlet floodConfig).framer.feed childChunk.val).messages.map _ = _
    rw [hclient, hchild, fresh_fed (by decide) (by decide), fresh_fed (by decide) (by decide),
      List.map_replicate, List.map_replicate]
  have hcapacity : max floodConfig.relayBufferBytes floodConfig.serverQueueBytes = 262686 := by
    decide
  rw [harrivals, flood_texts, hcapacity]
  omega

theorem flood_exceeds : QueueExceeded (serve (some filterHandler)
    (fresh floodConfig floodFilter)
    { stdin := some (.data clientChunk), childStdout := some (.data childChunk) }) := by
  have hstart : start floodConfig floodFilter = .ok (fresh floodConfig floodFilter) :=
    if_neg (by decide)
  have hcalls := (repeated_lines (by decide : newline ∉ callLine)
    (by decide : callLine.length ≤ 30) 2184).1
  have hnotes := (repeated_lines (by decide : newline ∉ noteLine)
    (by decide : noteLine.length ≤ 30) 2114).1
  rw [← hclient] at hcalls
  rw [← hchild] at hnotes
  have hroomy := start_roomy hstart
  rcases @serve_exceeds floodConfig (fresh floodConfig floodFilter) hroomy
    { stdin := some (.data clientChunk), childStdout := some (.data childChunk) }
    clientChunk childChunk rfl rfl rfl rfl (flood_length hclient hchild) with
    ⟨hlong | hlong, -⟩ | hexceeded
  · exact absurd hlong hcalls
  · exact absurd hlong hnotes
  · exact hexceeded

/-- The turn is the last one of its run. -/
theorem flood_ends : ∃ state, run (some filterHandler) (fresh floodConfig floodFilter)
    [{ polled := .ready
        { stdin := some (.data clientChunk), childStdout := some (.data childChunk) } }] =
      .error (.returned 4 "bounded relay queue exceeded" state) := by
  obtain ⟨state, hserve⟩ := flood_exceeds hclient hchild
  refine ⟨state, ?_⟩
  have hturn : turn (some filterHandler) (fresh floodConfig floodFilter)
      { polled := .ready
          { stdin := some (.data clientChunk), childStdout := some (.data childChunk) } } =
        serve (some filterHandler) (fresh floodConfig floodFilter)
          { stdin := some (.data clientChunk), childStdout := some (.data childChunk) } := rfl
  rw [run_cons, hturn, hserve]
  rfl

end flood

/-- One poll in which both sources bring a chunk of short messages exceeds the queue. -/
theorem queues_exceeded :
    start floodConfig floodFilter = .ok (fresh floodConfig floodFilter) ∧
      ¬ TooLong (run (some filterHandler) (fresh floodConfig floodFilter) [floodTurn]) ∧
      QueueExceeded (run (some filterHandler) (fresh floodConfig floodFilter) [floodTurn]) := by
  obtain ⟨state, hrun⟩ := @flood_ends clientFlood childFlood rfl rfl
  refine ⟨if_neg (by decide), ?_, state, hrun⟩
  rintro ⟨direction, state', heq⟩
  unfold floodTurn at heq
  rw [hrun] at heq
  cases heq

end Relay

end NativeGuard.Process

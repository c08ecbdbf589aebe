import NativeGuard.Io.LineFramer
import NativeGuard.Process.OutputBuffer
import NativeGuard.Protocol.Envelope

/-!
# The relay (`run_stdio_child` in `src/linux_stdio_relay.cpp`)

One turn of the loop asks after the child, polls up to four descriptors and serves
those that are ready. A relay carries, beside its own data, what it has read from its
two peers, what it has written to them and what its handler has decided (`Relay.read`
and `Outputs`), so that a run can be compared with its traffic.
-/

namespace NativeGuard.Process

open Json Io Protocol

/-! ## §1  Data -/

def readChunkBytes : Nat := 64 * 1024

/-- What a `read` brings that brings something. -/
abbrev Chunk : Type := { bytes : Bytes // bytes ≠ [] ∧ bytes.length ≤ readChunkBytes }

inductive ReadResult where
  | data (chunk : Chunk)
  | endOfFile
  | retry
  | failed

/-- What a `write` returns; a count of zero is an error. -/
inductive WriteResult where
  | wrote (count : Nat)
  | retry
  | brokenPipe
  | failed
deriving DecidableEq, Repr

inductive WriteStatus where
  | data
  | retry
  | brokenPipe
  | error
deriving DecidableEq, Repr

/-- A buffer and how much of it has been written. -/
structure Queue where
  buffer : OutputBuffer
  start : Nat := 0

namespace Queue

def reserve (capacity : Nat) : Queue where
  buffer := ⟨[], capacity, Nat.zero_le _⟩

/-- What is still to be written. -/
def rest (q : Queue) : Bytes := q.buffer.bytes.drop q.start

def isEmpty (q : Queue) : Bool := q.buffer.bytes.isEmpty

def clear (q : Queue) : Queue := reserve q.buffer.capacity

def add (append : Append) (q : Queue) : Bool × Queue :=
  ((append q.buffer).1, { q with buffer := (append q.buffer).2 })

/-- `flush_to`, with the bytes that it writes. -/
def flushTo (result : WriteResult) (q : Queue) : WriteStatus × Bytes × Queue :=
  if q.start = q.buffer.bytes.length then (.data, [], q.clear)
  else
    match result with
    | .wrote 0 => (.error, [], q)
    | .wrote (count + 1) =>
        let written := q.rest.take (count + 1)
        let start := q.start + written.length
        if start = q.buffer.bytes.length then (.data, written, q.clear)
        else (.data, written, { q with start := start })
    | .retry => (.retry, [], q)
    | .brokenPipe => (.brokenPipe, [], q)
    | .failed => (.error, [], q)

end Queue

/-- A message that has been shown to the handler. -/
inductive Inspection where
  | client (message : Bytes) (decision : ClientMessageDecision)
  | server (message : Bytes) (decision : ServerMessageDecision)
deriving DecidableEq, Repr

/-- What the sinks of the framers write to. -/
structure Outputs (σ : Type) where
  handlerState : σ
  toChild : Queue
  toClient : Queue
  inspected : List Inspection := []

/-- A framer and the stream that it has been fed. -/
structure Inlet where
  framer : LineFramer
  read : Bytes := []

structure Relay (σ : Type) where
  outputs : Outputs σ
  client : Inlet
  child : Inlet
  writtenToChild : Bytes := []
  writtenToClient : Bytes := []
  inputEof : Bool := false
  outputEof : Bool := false
  childReaped : Bool := false
  sentTermination : Bool := false
  sentKill : Bool := false
  stdinWrite : Bool := true
  stdoutRead : Bool := true

/-- How the loop is left: a return with its message, or its end. -/
inductive Exit (σ : Type) where
  | returned (code : Nat) (text : String) (handlerState : σ)
  | finished (relay : Relay σ)

structure RunConfig where
  relayBufferBytes : Nat := 64 * 1024
  runtime : RuntimeLimits := {}

namespace RunConfig

variable (config : RunConfig)

def responseExpansionBytes : Nat := 4 * readChunkBytes + 512

/-- `static_cast<std::size_t>(-1)`. -/
def sizeMax : Nat := 2 ^ 64 - 1

def Rejected : Prop :=
  config.relayBufferBytes = 0 ∨ config.runtime.maxMessageBytes = 0 ∨
    config.runtime.maxNestingDepth = 0 ∨ config.runtime.maxPendingToolsList = 0 ∨
    config.runtime.maxMessageBytes > sizeMax - responseExpansionBytes

instance : Decidable config.Rejected := by
  unfold Rejected
  infer_instance

def framerConfig : Config where
  maxMessageBytes := config.runtime.maxMessageBytes
  trimCarriageReturn := false

def clientQueueBytes : Nat := config.runtime.maxMessageBytes + readChunkBytes + 1

def serverQueueBytes : Nat := config.runtime.maxMessageBytes + responseExpansionBytes

end RunConfig

namespace Relay

variable {σ : Type}

/-- What `framerConfig` constructs. -/
def freshInlet (config : RunConfig) : Inlet where
  framer := .fresh config.framerConfig

/-- The relay in front of its loop, the child running. -/
def fresh (config : RunConfig) (handlerState : σ) : Relay σ where
  outputs :=
    { handlerState := handlerState
      toChild := Queue.reserve (max config.relayBufferBytes config.clientQueueBytes)
      toClient := Queue.reserve (max config.relayBufferBytes config.serverQueueBytes) }
  client := freshInlet config
  child := freshInlet config

def start (config : RunConfig) (handlerState : σ) : Except (Exit σ) (Relay σ) :=
  if config.Rejected then .error (.returned 2 "invalid run configuration" handlerState)
  else .ok (fresh config handlerState)

theorem start_ok {config : RunConfig} {handlerState : σ} {relay : Relay σ}
    (h : start config handlerState = .ok relay) : relay = fresh config handlerState := by
  unfold start at h
  split at h
  · cases h
  · cases h
    rfl

/-! ## §2  What comes in -/

variable (handler : Option (ClientMessageHandler σ))

def inspectClient (state : σ) (message : Bytes) : ClientMessageDecision × σ :=
  match handler with
  | none => ({}, state)
  | some handler => handler.inspect state message

def inspectServer (state : σ) (message : Bytes) : ServerMessageDecision × σ :=
  match handler with
  | none => ({}, state)
  | some handler => handler.inspectServer state message

def reportTooLarge (direction : MessageDirection) (encodedMessageBytes : Nat) (state : σ) : σ :=
  match handler with
  | none => state
  | some handler => handler.messageTooLarge state direction encodedMessageBytes

/-- The outputs, and `queue_overflow`. -/
abbrev Sunk (σ : Type) : Type := Outputs σ × Bool

def clientSink (sunk : Sunk σ) (message : Bytes) : Sunk σ :=
  let (decision, handlerState) := inspectClient handler sunk.1.handlerState message
  let outputs := { sunk.1 with
    handlerState := handlerState
    inspected := sunk.1.inspected ++ [.client message decision] }
  match decision.action with
  | .forward =>
      let (added, toChild) := outputs.toChild.add (appendMessage message)
      ({ outputs with toChild := toChild }, !added || sunk.2)
  | .respondWithError =>
      let (added, toClient) := outputs.toClient.add (appendJsonRpcError decision)
      ({ outputs with toClient := toClient }, !added || sunk.2)
  | .drop => (outputs, sunk.2)

def serverSink (sunk : Sunk σ) (message : Bytes) : Sunk σ :=
  let (decision, handlerState) := inspectServer handler sunk.1.handlerState message
  let outputs := { sunk.1 with
    handlerState := handlerState
    inspected := sunk.1.inspected ++ [.server message decision] }
  match decision.action with
  | .forward =>
      let (added, toClient) := outputs.toClient.add (appendMessage message)
      ({ outputs with toClient := toClient }, !added || sunk.2)
  | .replace =>
      let (added, toClient) := outputs.toClient.add (appendMessage decision.replacement)
      ({ outputs with toClient := toClient }, !added || sunk.2)
  | .drop => (outputs, sunk.2)

def sink : MessageDirection → Sunk σ → Bytes → Sunk σ
  | .clientToServer => clientSink handler
  | .serverToClient => serverSink handler

def framingError : MessageDirection → String
  | .clientToServer => "client framing error: "
  | .serverToClient => "server framing error: "

/-- A chunk goes through a framer to the handler and on to the queues. -/
def receive (direction : MessageDirection) (inlet : Inlet) (outputs : Outputs σ)
    (chunk : Chunk) : Except (Exit σ) (Inlet × Outputs σ) :=
  let fed := inlet.framer.feed chunk.val
  let sunk := fed.messages.foldl (sink handler direction) (outputs, false)
  if fed.status.code ≠ .ok then
    -- the run ends here: what the chunk has put on the queues is lost with them
    let handlerState :=
      if fed.status.code = .messageTooLarge then
        reportTooLarge handler direction fed.framer.failedMessageBytes sunk.1.handlerState
      else sunk.1.handlerState
    .error (.returned 3 (framingError direction ++ fed.status.message) handlerState)
  else if sunk.2 = true then
    .error (.returned 4 "bounded relay queue exceeded" sunk.1.handlerState)
  else .ok (⟨fed.framer, inlet.read ++ chunk.val⟩, sunk.1)

/-- The end of a stream, which must not cut a message. -/
def close (direction : MessageDirection) (inlet : Inlet) (outputs : Outputs σ) :
    Except (Exit σ) Inlet :=
  let finished := inlet.framer.finish
  if finished.status.code ≠ .ok then
    .error (.returned 3 (framingError direction ++ finished.status.message)
      outputs.handlerState)
  else .ok ⟨finished.framer, inlet.read⟩

def readClient (relay : Relay σ) : ReadResult → Except (Exit σ) (Relay σ)
  | .data chunk => do
      let (client, outputs) ←
        receive handler .clientToServer relay.client relay.outputs chunk
      .ok { relay with client := client, outputs := outputs }
  | .endOfFile => do
      let client ← close .clientToServer relay.client relay.outputs
      .ok { relay with client := client, inputEof := true }
  | .retry => .ok relay
  | .failed => .error (.returned 4 "stdin read failed" relay.outputs.handlerState)

def readChild (relay : Relay σ) : ReadResult → Except (Exit σ) (Relay σ)
  | .data chunk => do
      let (child, outputs) ←
        receive handler .serverToClient relay.child relay.outputs chunk
      .ok { relay with child := child, outputs := outputs }
  | .endOfFile => do
      let child ← close .serverToClient relay.child relay.outputs
      .ok { relay with child := child, stdoutRead := false, outputEof := true }
  | .retry => .ok relay
  | .failed =>
      .error (.returned 4 "downstream stdout read failed" relay.outputs.handlerState)

/-! ## §3  What goes out -/

def setToChild (relay : Relay σ) (toChild : Queue) : Relay σ :=
  { relay with outputs := { relay.outputs with toChild := toChild } }

def setToClient (relay : Relay σ) (toClient : Queue) : Relay σ :=
  { relay with outputs := { relay.outputs with toClient := toClient } }

/-- The child's standard input is closed, and what waits for it is dropped. -/
def abandonChild (relay : Relay σ) : Relay σ :=
  { relay.setToChild relay.outputs.toChild.clear with stdinWrite := false }

def writeChild (relay : Relay σ) (result : WriteResult) : Except (Exit σ) (Relay σ) :=
  let (status, written, toChild) := relay.outputs.toChild.flushTo result
  let relay := { relay.setToChild toChild with
    writtenToChild := relay.writtenToChild ++ written }
  match status with
  -- the child hears no more, but may go on talking
  | .brokenPipe => .ok { relay.abandonChild with inputEof := true }
  | .error => .error (.returned 4 "downstream stdin write failed" relay.outputs.handlerState)
  | .data => .ok relay
  | .retry => .ok relay

def writeClient (relay : Relay σ) (result : WriteResult) : Except (Exit σ) (Relay σ) :=
  let (status, written, toClient) := relay.outputs.toClient.flushTo result
  let relay := { relay.setToClient toClient with
    writtenToClient := relay.writtenToClient ++ written }
  match status with
  -- without the client the run is over
  | .brokenPipe => .error (.returned 4 "stdout write failed" relay.outputs.handlerState)
  | .error => .error (.returned 4 "stdout write failed" relay.outputs.handlerState)
  | .data => .ok relay
  | .retry => .ok relay

/-! ## §4  The loop -/

/-- What `waitpid` says of the child. -/
inductive Waited where
  | running
  | reaped
  | interrupted
  | failed
deriving DecidableEq, Repr

/-- The result on each descriptor that is ready. -/
structure Ready where
  stdin : Option ReadResult := none
  childStdout : Option ReadResult := none
  childStdin : Option WriteResult := none
  stdout : Option WriteResult := none

inductive Polled where
  | interrupted
  | failed
  | timeout
  | ready (events : Ready)

/-- What one turn of the loop meets. -/
structure Turn where
  waited : Waited := .running
  terminationSignal : Bool := false
  graceOver : Bool := false
  polled : Polled

def observe (relay : Relay σ) (waited : Waited) : Except (Exit σ) (Relay σ) :=
  if relay.childReaped = true then .ok relay
  else
    match waited with
    | .running => .ok relay
    | .interrupted => .ok relay
    | .reaped => .ok { relay.abandonChild with childReaped := true }
    | .failed =>
        .error (.returned 4 "failed to observe downstream process"
          relay.outputs.handlerState)

def terminate (relay : Relay σ) (terminationSignal : Bool) : Relay σ :=
  if terminationSignal ∧ ¬ relay.sentTermination ∧ ¬ relay.childReaped then
    { relay.abandonChild with sentTermination := true }
  else relay

def kill (relay : Relay σ) (graceOver : Bool) : Relay σ :=
  if relay.sentTermination ∧ ¬ relay.sentKill ∧ ¬ relay.childReaped ∧ graceOver then
    { relay with sentKill := true }
  else relay

def closeInput (relay : Relay σ) : Relay σ :=
  if relay.inputEof ∧ relay.outputs.toChild.isEmpty then { relay with stdinWrite := false }
  else relay

/-- A descriptor that was polled and is ready. -/
def whenReady {ρ : Type} (polled : Bool) (event : Option ρ)
    (serve : Relay σ → ρ → Except (Exit σ) (Relay σ)) (relay : Relay σ) :
    Except (Exit σ) (Relay σ) :=
  match polled, event with
  | true, some result => serve relay result
  | _, _ => .ok relay

def pollsStdin (relay : Relay σ) : Bool :=
  !relay.inputEof && relay.stdinWrite && relay.outputs.toChild.isEmpty &&
    relay.outputs.toClient.isEmpty

def pollsChildStdout (relay : Relay σ) : Bool :=
  relay.stdoutRead && relay.outputs.toClient.isEmpty

def pollsChildStdin (relay : Relay σ) : Bool :=
  relay.stdinWrite && !relay.outputs.toChild.isEmpty

def pollsStdout (relay : Relay σ) : Bool := !relay.outputs.toClient.isEmpty

/-- The descriptors are chosen before the poll, and served in their order. -/
def serve (relay : Relay σ) (events : Ready) : Except (Exit σ) (Relay σ) := do
  let first ← whenReady relay.pollsStdin events.stdin (readClient handler) relay
  let second ← whenReady relay.pollsChildStdout events.childStdout (readChild handler) first
  let third ← whenReady relay.pollsChildStdin events.childStdin writeChild second
  whenReady relay.pollsStdout events.stdout writeClient third

def poll (relay : Relay σ) : Polled → Except (Exit σ) (Relay σ)
  | .interrupted => .ok relay
  | .timeout => .ok relay
  | .failed => .error (.returned 4 "relay poll failed" relay.outputs.handlerState)
  | .ready events => relay.serve handler events

/-- The turn up to its poll. -/
def prepare (relay : Relay σ) (t : Turn) : Except (Exit σ) (Relay σ) :=
  -- the condition of the loop, and then the `break` in front of its `poll`
  if relay.childReaped ∧ ¬ relay.stdoutRead ∧ relay.outputs.toClient.isEmpty then
    .error (.finished relay)
  else do
    let relay ← relay.observe t.waited
    let relay := ((relay.terminate t.terminationSignal).kill t.graceOver).closeInput
    if relay.outputEof ∧ relay.outputs.toClient.isEmpty ∧ relay.childReaped then
      .error (.finished relay)
    else .ok relay

def turn (relay : Relay σ) (t : Turn) : Except (Exit σ) (Relay σ) := do
  let relay ← relay.prepare t
  relay.poll handler t.polled

def run (relay : Relay σ) (turns : List Turn) : Except (Exit σ) (Relay σ) :=
  turns.foldlM (turn handler) relay

theorem run_cons (relay : Relay σ) (t : Turn) (turns : List Turn) :
    relay.run handler (t :: turns) = relay.turn handler t >>= fun next =>
      next.run handler turns :=
  List.foldlM_cons

end Relay

end NativeGuard.Process

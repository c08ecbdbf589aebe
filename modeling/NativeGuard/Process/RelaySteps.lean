import NativeGuard.Process.RelayConservation
import NativeGuard.Process.SessionReport
import Mathlib.Logic.Relation

/-!
# The steps of the relay (`run_stdio_child` in `src/linux_stdio_relay.cpp`)

A turn of the loop is a few steps (`Step`), and a run is steps one after the other
(`steps_of_reaches`), whatever the peers do, when the child dies and when a signal
comes. A run that returns within a turn has gone as far as one whose last turn serves
the descriptors in front of the one that fails. What every step keeps (`Accounts`) says
what either peer has been sent at any moment.
-/

namespace NativeGuard.Process

open Json Json.Scan Data Io

/-! ## §1  Steps -/

namespace Relay

variable {σ : Type}

section steps

variable (handler : Option (ClientMessageHandler σ))

/-- One thing that the loop does to its relay. -/
inductive Step : Relay σ → Relay σ → Prop
  | reaps (relay : Relay σ) : Step relay { relay.abandonChild with childReaped := true }
  | terminates (relay : Relay σ) :
      Step relay { relay.abandonChild with sentTermination := true }
  | kills (relay : Relay σ) : Step relay { relay with sentKill := true }
  | closesInput {relay : Relay σ} (hempty : relay.outputs.toChild.isEmpty = true) :
      Step relay { relay with stdinWrite := false }
  | readsClient {relay relay' : Relay σ} {result : ReadResult}
      (hopen : relay.stdinWrite = true) (h : readClient handler relay result = .ok relay') :
      Step relay relay'
  | readsChild {relay relay' : Relay σ} {result : ReadResult}
      (hopen : relay.stdoutRead = true) (h : readChild handler relay result = .ok relay') :
      Step relay relay'
  | writesChild {relay relay' : Relay σ} {result : WriteResult}
      (hopen : relay.stdinWrite = true) (h : writeChild relay result = .ok relay') :
      Step relay relay'
  | writesClient {relay relay' : Relay σ} {result : WriteResult}
      (h : writeClient relay result = .ok relay') : Step relay relay'

abbrev Steps : Relay σ → Relay σ → Prop := Relation.ReflTransGen (Step handler)

/-- The relay behind some turns, or the one with which they end the loop. -/
def Reaches (relay : Relay σ) (turns : List Turn) (relay' : Relay σ) : Prop :=
  relay.run handler turns = .ok relay' ∨
    relay.run handler turns = .error (.finished relay')

end steps

variable {handler : Option (ClientMessageHandler σ)} {relay relay' : Relay σ}

theorem steps_refl (relay : Relay σ) : Steps handler relay relay :=
  Relation.ReflTransGen.refl

theorem Step.steps (h : Step handler relay relay') : Steps handler relay relay' :=
  Relation.ReflTransGen.single h

/-- What each step keeps is kept by all of them. -/
theorem Steps.keeps {P : Relay σ → Prop}
    (hstep : ∀ {relay relay'}, Step handler relay relay' → P relay → P relay')
    (hsteps : Steps handler relay relay') (h : P relay) : P relay' := by
  induction hsteps with
  | refl => exact h
  | tail _ hlast ih => exact hstep hlast ih

/-- A reading of the client leaves the pipes of the child as they are. -/
theorem readClient_pipes {result : ReadResult}
    (h : readClient handler relay result = .ok relay') :
    relay'.stdinWrite = relay.stdinWrite ∧ relay'.stdoutRead = relay.stdoutRead := by
  rcases readClient_cases h with ⟨chunk, client, outputs, -, -, rfl⟩ | rfl | rfl
  · exact ⟨rfl, rfl⟩
  · exact ⟨rfl, rfl⟩
  · exact ⟨rfl, rfl⟩

theorem readChild_stdinWrite {result : ReadResult}
    (h : readChild handler relay result = .ok relay') :
    relay'.stdinWrite = relay.stdinWrite := by
  rcases readChild_cases h with ⟨chunk, child, outputs, -, -, rfl⟩ | rfl | rfl
  · rfl
  · rfl
  · rfl

theorem observe_steps {waited : Waited} (h : relay.observe waited = .ok relay') :
    Steps handler relay relay' := by
  unfold observe at h
  split at h
  · cases h
    exact steps_refl relay
  · cases waited with
    | running =>
        cases h
        exact steps_refl relay
    | interrupted =>
        cases h
        exact steps_refl relay
    | reaped =>
        cases h
        exact (Step.reaps relay).steps
    | failed => cases h

theorem terminate_steps (relay : Relay σ) (terminationSignal : Bool) :
    Steps handler relay (relay.terminate terminationSignal) := by
  unfold terminate
  split
  · exact (Step.terminates relay).steps
  · exact steps_refl relay

theorem kill_steps (relay : Relay σ) (graceOver : Bool) :
    Steps handler relay (relay.kill graceOver) := by
  unfold kill
  split
  · exact (Step.kills relay).steps
  · exact steps_refl relay

theorem closeInput_steps (relay : Relay σ) : Steps handler relay relay.closeInput := by
  unfold closeInput
  split
  · rename_i hclose
    exact (Step.closesInput hclose.2).steps
  · exact steps_refl relay

/-- The turn up to its poll, whether it goes on or ends the loop. -/
theorem prepare_steps {t : Turn}
    (h : relay.prepare t = .ok relay' ∨ relay.prepare t = .error (.finished relay')) :
    Steps handler relay relay' := by
  unfold prepare at h
  split at h
  · -- the loop's own condition: the relay is the one that it was
    rcases h with h | h
    · cases h
    · cases h
      exact steps_refl relay
  cases hobserve : relay.observe t.waited with
  | error e =>
      rw [hobserve] at h
      rcases h with h | h
      · cases h
      · -- an observation that fails returns, and does not finish
        have hfails : e = .finished relay' := Except.error.inj h
        unfold observe at hobserve
        rw [hfails] at hobserve
        split at hobserve
        · cases hobserve
        · split at hobserve <;> cases hobserve
  | ok observed =>
      rw [hobserve] at h
      have hsteps : Steps handler relay
          ((observed.terminate t.terminationSignal).kill t.graceOver).closeInput :=
        (((observe_steps hobserve).trans (terminate_steps _ _)).trans (kill_steps _ _)).trans
          (closeInput_steps _)
      dsimp only [bind, Except.bind] at h
      split at h
      · rcases h with h | h
        · cases h
        · cases h
          exact hsteps
      · rcases h with h | h
        · cases h
          exact hsteps
        · cases h

theorem serve_steps {events : Ready} (h : relay.serve handler events = .ok relay') :
    Steps handler relay relay' := by
  obtain ⟨first, hfirst, h⟩ := except_bind_ok.mp h
  obtain ⟨second, hsecond, h⟩ := except_bind_ok.mp h
  obtain ⟨third, hthird, h⟩ := except_bind_ok.mp h
  -- the descriptors were chosen in front of the first service, and stay as they were
  have hone : Steps handler relay first ∧ first.stdinWrite = relay.stdinWrite ∧
      first.stdoutRead = relay.stdoutRead := by
    rcases whenReady_cases hfirst with rfl | ⟨result, hpolled, -, hread⟩
    · exact ⟨steps_refl _, rfl, rfl⟩
    · unfold pollsStdin at hpolled
      simp only [Bool.and_eq_true] at hpolled
      exact ⟨(Step.readsClient hpolled.1.1.2 hread).steps, readClient_pipes hread⟩
  have htwo : Steps handler first second ∧ second.stdinWrite = relay.stdinWrite := by
    rcases whenReady_cases hsecond with rfl | ⟨result, hpolled, -, hread⟩
    · exact ⟨steps_refl _, hone.2.1⟩
    · unfold pollsChildStdout at hpolled
      simp only [Bool.and_eq_true] at hpolled
      exact ⟨(Step.readsChild (hone.2.2.trans hpolled.1) hread).steps,
        (readChild_stdinWrite hread).trans hone.2.1⟩
  have hthree : Steps handler second third := by
    rcases whenReady_cases hthird with rfl | ⟨result, hpolled, -, hwrite⟩
    · exact steps_refl _
    · unfold pollsChildStdin at hpolled
      simp only [Bool.and_eq_true] at hpolled
      exact (Step.writesChild (htwo.2.trans hpolled.1) hwrite).steps
  have hfour : Steps handler third relay' := by
    rcases whenReady_cases h with rfl | ⟨result, -, -, hwrite⟩
    · exact steps_refl _
    · exact (Step.writesClient hwrite).steps
  exact ((hone.1.trans htwo.1).trans hthree).trans hfour

theorem poll_steps {polled : Polled} (h : relay.poll handler polled = .ok relay') :
    Steps handler relay relay' := by
  cases polled with
  | interrupted =>
      cases h
      exact steps_refl relay
  | timeout =>
      cases h
      exact steps_refl relay
  | failed => cases h
  | ready events => exact serve_steps h

/-- The poll of a turn goes on or returns, but does not end the loop. -/
theorem poll_not_finished (relay last : Relay σ) (polled : Polled) :
    relay.poll handler polled ≠ .error (.finished last) := by
  intro h
  have hreturns := @poll_returnsIff σ handler relay polled
  by_cases hfails : relay.PollFails handler polled
  · obtain ⟨code, text, state, hreturned⟩ := hreturns.returns hfails
    rw [h] at hreturned
    cases hreturned
  · obtain ⟨next, hok⟩ := hreturns.goesOn hfails
    rw [h] at hok
    cases hok

theorem turn_steps {t : Turn}
    (h : relay.turn handler t = .ok relay' ∨ relay.turn handler t = .error (.finished relay')) :
    Steps handler relay relay' := by
  unfold turn at h
  cases hprepare : relay.prepare t with
  | error e =>
      rw [hprepare] at h
      rcases h with h | h
      · cases h
      · have hfinished : e = .finished relay' := Except.error.inj h
        rw [hfinished] at hprepare
        exact prepare_steps (Or.inr hprepare)
  | ok prepared =>
      rw [hprepare] at h
      rcases h with h | h
      · exact (prepare_steps (Or.inl hprepare)).trans (poll_steps h)
      · exact absurd h (poll_not_finished prepared relay' t.polled)

/-- A run is made of steps, and of nothing else. -/
theorem steps_of_reaches {turns : List Turn} (h : Reaches handler relay turns relay') :
    Steps handler relay relay' := by
  induction turns generalizing relay with
  | nil =>
      rcases h with h | h
      · cases h
        exact steps_refl _
      · cases h
  | cons t turns ih =>
      unfold Reaches at h
      rw [run_cons] at h
      cases hturn : relay.turn handler t with
      | error e =>
          rw [hturn] at h
          rcases h with h | h
          · cases h
          · have hfinished : e = .finished relay' := Except.error.inj h
            rw [hfinished] at hturn
            exact turn_steps (Or.inr hturn)
      | ok next =>
          rw [hturn] at h
          exact (turn_steps (Or.inl hturn)).trans (ih h)

/-- How the loop ends: the child is gone, its output is at its end, and nothing waits. -/
theorem prepare_finished {t : Turn} {last : Relay σ}
    (h : relay.prepare t = .error (.finished last)) :
    last.childReaped = true ∧ (last.stdoutRead = false ∨ last.outputEof = true) ∧
      last.outputs.toClient.isEmpty = true := by
  unfold prepare at h
  split at h
  · rename_i hover
    cases h
    exact ⟨hover.1, Or.inl (Bool.eq_false_iff.mpr hover.2.1), hover.2.2⟩
  have hobserve := observe_returnsIff relay t.waited
  by_cases hfails : relay.childReaped = false ∧ t.waited = .failed
  · obtain ⟨code, text, state, hreturned⟩ := hobserve.returns hfails
    rw [hreturned] at h
    cases h
  · obtain ⟨observed, hobserved⟩ := hobserve.goesOn hfails
    rw [hobserved] at h
    dsimp only [bind, Except.bind] at h
    split at h
    · rename_i hover
      cases h
      exact ⟨hover.2.2, Or.inr hover.1, hover.2.1⟩
    · cases h

theorem run_finished {turns : List Turn} {last : Relay σ}
    (h : relay.run handler turns = .error (.finished last)) :
    last.childReaped = true ∧ (last.stdoutRead = false ∨ last.outputEof = true) ∧
      last.outputs.toClient.isEmpty = true := by
  induction turns generalizing relay with
  | nil => cases h
  | cons t turns ih =>
      rw [run_cons] at h
      cases hturn : relay.turn handler t with
      | ok next =>
          rw [hturn] at h
          exact ih h
      | error e =>
          rw [hturn] at h
          have hfinished : e = .finished last := Except.error.inj h
          rw [hfinished] at hturn
          unfold turn at hturn
          cases hprepare : relay.prepare t with
          | error e' =>
              rw [hprepare] at hturn
              have hended : e' = .finished last := Except.error.inj hturn
              rw [hended] at hprepare
              exact prepare_finished hprepare
          | ok prepared =>
              rw [hprepare] at hturn
              exact absurd hturn (poll_not_finished prepared last t.polled)

/-! ## §2  What every step keeps -/

/-- Messages of the server call for nothing that is meant for the child. -/
theorem server_silent (handler : Option (ClientMessageHandler σ)) (state : σ)
    (messages : List Bytes) :
    (inspectAll handler state
      (messages.map (MessageDirection.serverToClient, ·))).1.flatMap
        Inspection.textForChild = [] := by
  induction messages generalizing state with
  | nil => rfl
  | cons message messages ih =>
      rw [List.map_cons, inspectAll, List.flatMap_cons, ih, List.append_nil]
      rfl

/-- The books of a relay at any moment. The client's side always balances. The child's
side balances while its input is open; what is dropped when it is closed is an end of
what the decisions call for. -/
structure Accounts (config : RunConfig) (handler : Option (ClientMessageHandler σ))
    (state : σ) (relay : Relay σ) : Prop where
  decided : inspectAll handler state (relay.outputs.inspected.map Inspection.arrival) =
    (relay.outputs.inspected, relay.outputs.handlerState)
  client : LineFramer.After config.framerConfig relay.client.read
    (messagesOf .clientToServer (relay.outputs.inspected.map Inspection.arrival))
    relay.client.framer
  child : LineFramer.After config.framerConfig relay.child.read
    (messagesOf .serverToClient (relay.outputs.inspected.map Inspection.arrival))
    relay.child.framer
  soundToChild : relay.outputs.toChild.Sound
  soundToClient : relay.outputs.toClient.Sound
  forChild : relay.writtenToChild ++ relay.outputs.toChild.rest <+:
    relay.outputs.inspected.flatMap Inspection.textForChild
  openPipe : relay.stdinWrite = true → relay.writtenToChild ++ relay.outputs.toChild.rest =
    relay.outputs.inspected.flatMap Inspection.textForChild
  closedPipe : relay.stdinWrite = false → relay.outputs.toChild.rest = []
  forClient : relay.writtenToClient ++ relay.outputs.toClient.rest =
    relay.outputs.inspected.flatMap Inspection.textForClient
  reading : relay.outputEof = !relay.stdoutRead
  ended : relay.outputEof = true →
    LineFramer.finalCode config.framerConfig relay.child.read = .ok

variable {config : RunConfig} {state : σ}

theorem start_accounts (h : start config state = .ok relay) :
    Accounts config handler state relay := by
  have hbalanced : Balanced config handler state relay := start_balanced h
  obtain rfl := start_ok h
  exact
    { decided := hbalanced.decided
      client := hbalanced.client
      child := hbalanced.child
      soundToChild := hbalanced.soundToChild
      soundToClient := hbalanced.soundToClient
      forChild := List.prefix_rfl
      openPipe := fun _ => rfl
      closedPipe := fun hclosed => absurd hclosed.symm Bool.false_ne_true
      forClient := rfl
      reading := rfl
      ended := fun heof => absurd heof Bool.false_ne_true }

/-- With its pipe open, a relay balances. -/
theorem Accounts.balanced (h : Accounts config handler state relay)
    (hopen : relay.stdinWrite = true) : Balanced config handler state relay :=
  { h with
    toChild := h.openPipe hopen
    toClient := h.forClient }

/-- What is meant for the child may be dropped once its pipe is closed. -/
theorem Accounts.abandon (h : Accounts config handler state relay) :
    Accounts config handler state relay.abandonChild := by
  have hbegins : relay.writtenToChild <+:
      relay.outputs.inspected.flatMap Inspection.textForChild :=
    (List.prefix_append _ _).trans h.forChild
  exact
    { h with
      soundToChild := Nat.zero_le _
      forChild := by
        show relay.writtenToChild ++ [] <+: _
        rw [List.append_nil]
        exact hbegins
      openPipe := fun hopen => absurd hopen Bool.false_ne_true
      closedPipe := fun _ => rfl }

theorem rest_of_isEmpty {q : Queue} (h : q.isEmpty = true) : q.rest = [] := by
  unfold Queue.isEmpty at h
  unfold Queue.rest
  rw [List.isEmpty_iff.mp h, List.drop_nil]

/-- The relay reads from its client as one that balances does. -/
theorem Accounts.readClient (h : Accounts config handler state relay)
    (hopen : relay.stdinWrite = true) {result : ReadResult}
    (hread : Relay.readClient handler relay result = .ok relay') :
    Accounts config handler state relay' := by
  have hbalanced := readClient_balanced (h.balanced hopen) hread
  obtain ⟨hstdin, -⟩ := readClient_pipes hread
  have hcommon : relay'.outputEof = relay.outputEof ∧ relay'.stdoutRead = relay.stdoutRead ∧
      relay'.child = relay.child := by
    rcases readClient_cases hread with ⟨chunk, client, outputs, -, -, rfl⟩ | rfl | rfl
    · exact ⟨rfl, rfl, rfl⟩
    · exact ⟨rfl, rfl, rfl⟩
    · exact ⟨rfl, rfl, rfl⟩
  obtain ⟨heof, hstdout, hchild⟩ := hcommon
  exact
    { hbalanced with
      forChild := hbalanced.toChild ▸ List.prefix_rfl
      openPipe := fun _ => hbalanced.toChild
      closedPipe := fun hclosed =>
        absurd (hclosed.symm.trans (hstdin.trans hopen)) Bool.false_ne_true
      forClient := hbalanced.toClient
      reading := by rw [heof, hstdout, h.reading]
      ended := by
        rw [heof, hchild]
        exact h.ended }

theorem close_code {direction : MessageDirection} {inlet inlet' : Inlet}
    {outputs : Outputs σ} (h : close direction inlet outputs = .ok inlet') :
    inlet.framer.finish.status.code = .ok := by
  unfold close at h
  dsimp only at h
  split at h
  · cases h
  · exact not_not.mp ‹_›

/-- A chunk of the child's, whether the child still listens or not. -/
theorem Accounts.receive (h : Accounts config handler state relay) {chunk : Chunk}
    {child : Inlet} {outputs : Outputs σ} (hopen : relay.stdoutRead = true)
    (hreceive : Relay.receive handler .serverToClient relay.child relay.outputs chunk =
      .ok (child, outputs)) :
    Accounts config handler state { relay with child := child, outputs := outputs } := by
  obtain ⟨rfl, hdelivered⟩ := receive_ok hreceive
  have hsilent := server_silent handler relay.outputs.handlerState
    (relay.child.framer.feed chunk.val).messages
  have harrivals : outputs.inspected.map Inspection.arrival =
      relay.outputs.inspected.map Inspection.arrival ++
        (relay.child.framer.feed chunk.val).messages.map
          (MessageDirection.serverToClient, ·) := by
    rw [hdelivered.inspected, List.map_append, inspectAll_arrivals]
  have htexts : outputs.inspected.flatMap Inspection.textForChild =
      relay.outputs.inspected.flatMap Inspection.textForChild := by
    rw [hdelivered.inspected, List.flatMap_append, hsilent, List.append_nil]
  have hrest : outputs.toChild.rest = relay.outputs.toChild.rest := by
    rw [hdelivered.toChild.rest h.soundToChild, hsilent, List.append_nil]
  have hother : MessageDirection.serverToClient ≠ .clientToServer := nofun
  refine
    { decided := ?_
      client := ?_
      child := ?_
      soundToChild := hdelivered.toChild.sound h.soundToChild
      soundToClient := hdelivered.toClient.sound h.soundToClient
      forChild := ?_
      openPipe := ?_
      closedPipe := ?_
      forClient := ?_
      reading := h.reading
      ended := ?_ }
  · dsimp only
    rw [harrivals, inspectAll_append, h.decided, hdelivered.inspected,
      hdelivered.handlerState]
  · dsimp only
    rw [harrivals, messagesOf_append, messagesOf_other hother, List.append_nil]
    exact h.client
  · dsimp only
    rw [harrivals, messagesOf_append, messagesOf_same]
    exact (LineFramer.feed_after h.child chunk.val).1
  · dsimp only
    rw [hrest, htexts]
    exact h.forChild
  · dsimp only
    rw [hrest, htexts]
    exact h.openPipe
  · dsimp only
    rw [hrest]
    exact h.closedPipe
  · dsimp only
    rw [hdelivered.toClient.rest h.soundToClient, ← List.append_assoc, h.forClient,
      hdelivered.inspected, List.flatMap_append]
  · -- the stream has not ended, or nothing would be read
    intro heof
    have hread : relay.outputEof = false := by
      rw [h.reading, hopen]
      rfl
    exact absurd (heof.symm.trans hread) Bool.false_ne_true.symm

theorem Accounts.readChild (h : Accounts config handler state relay)
    (hopen : relay.stdoutRead = true) {result : ReadResult}
    (hread : Relay.readChild handler relay result = .ok relay') :
    Accounts config handler state relay' := by
  cases result with
  | data chunk =>
      obtain ⟨⟨child, outputs⟩, hreceive, hok⟩ := except_bind_ok.mp hread
      cases hok
      exact h.receive hopen hreceive
  | endOfFile =>
      obtain ⟨child, hclose, hok⟩ := except_bind_ok.mp hread
      cases hok
      have hcode := close_code hclose
      rw [close_ok hclose]
      rw [(LineFramer.finish_after h.child).2] at hcode
      exact
        { h with
          reading := rfl
          ended := fun _ => hcode }
  | retry =>
      cases hread
      exact h
  | failed => cases hread

theorem Accounts.writeChild (h : Accounts config handler state relay)
    (hopen : relay.stdinWrite = true) {result : WriteResult}
    (hwrite : Relay.writeChild relay result = .ok relay') :
    Accounts config handler state relay' := by
  obtain ⟨hrest, hsound⟩ := Queue.flushTo_rest h.soundToChild result
  unfold Relay.writeChild at hwrite
  dsimp only at hwrite
  -- whatever the write says, its bytes have left the queue
  have hsent : Accounts config handler state
      { relay.setToChild (relay.outputs.toChild.flushTo result).2.2 with
        writtenToChild :=
          relay.writtenToChild ++ (relay.outputs.toChild.flushTo result).2.1 } := by
    have hwritten : relay.writtenToChild ++ (relay.outputs.toChild.flushTo result).2.1 ++
        (relay.outputs.toChild.flushTo result).2.2.rest =
          relay.outputs.inspected.flatMap Inspection.textForChild := by
      rw [List.append_assoc, hrest]
      exact h.openPipe hopen
    exact
      { h with
        soundToChild := hsound
        forChild := hwritten ▸ List.prefix_rfl
        openPipe := fun _ => hwritten
        closedPipe := fun hclosed => absurd (hclosed.symm.trans hopen) Bool.false_ne_true }
  split at hwrite
  · cases hwrite
    exact { hsent.abandon with }
  · cases hwrite
  · cases hwrite
    exact hsent
  · cases hwrite
    exact hsent

theorem Accounts.writeClient (h : Accounts config handler state relay)
    {result : WriteResult} (hwrite : Relay.writeClient relay result = .ok relay') :
    Accounts config handler state relay' := by
  obtain ⟨hrest, hsound⟩ := Queue.flushTo_rest h.soundToClient result
  cases writeClient_ok hwrite
  exact
    { h with
      soundToClient := hsound
      forClient := by
        dsimp only [setToClient]
        rw [List.append_assoc, hrest]
        exact h.forClient }

theorem Step.accounts (hstep : Step handler relay relay')
    (h : Accounts config handler state relay) : Accounts config handler state relay' := by
  cases hstep with
  | reaps => exact { h.abandon with }
  | terminates => exact { h.abandon with }
  | kills => exact { h with }
  | closesInput hempty =>
      exact
        { h with
          openPipe := fun hopen => absurd hopen Bool.false_ne_true
          closedPipe := fun _ => rest_of_isEmpty hempty }
  | readsClient hopen hread => exact h.readClient hopen hread
  | readsChild hopen hread => exact h.readChild hopen hread
  | writesChild hopen hwrite => exact h.writeChild hopen hwrite
  | writesClient hwrite => exact h.writeClient hwrite

/-- The books are right at every moment of every run. -/
theorem reaches_accounts {turns : List Turn} (hstart : start config state = .ok relay)
    (h : Reaches handler relay turns relay') : Accounts config handler state relay' :=
  (steps_of_reaches h).keeps (fun hstep => hstep.accounts) (start_accounts hstart)

/-! ## §3  A closed pipe -/

/-- The child's input is closed, with this much written to it and read for it. -/
structure ClosedAt (written read : Bytes) (relay : Relay σ) : Prop where
  closed : relay.stdinWrite = false
  written : relay.writtenToChild = written
  read : relay.client.read = read

/-- Behind the closing, nothing is read from the client or written to the child. -/
theorem Step.closedAt {written read : Bytes} (hstep : Step handler relay relay')
    (h : ClosedAt written read relay) : ClosedAt written read relay' := by
  have hshut : relay.stdinWrite ≠ true := by
    rw [h.closed]
    exact Bool.false_ne_true
  cases hstep with
  | reaps => exact ⟨rfl, h.written, h.read⟩
  | terminates => exact ⟨rfl, h.written, h.read⟩
  | kills => exact ⟨h.closed, h.written, h.read⟩
  | closesInput _ => exact ⟨rfl, h.written, h.read⟩
  | readsClient hopen _ => exact absurd hopen hshut
  | readsChild _ hread =>
      rcases readChild_cases hread with ⟨chunk, child, outputs, -, -, rfl⟩ | rfl | rfl
      · exact ⟨h.closed, h.written, h.read⟩
      · exact ⟨h.closed, h.written, h.read⟩
      · exact h
  | writesChild hopen _ => exact absurd hopen hshut
  | writesClient hwrite =>
      cases writeClient_ok hwrite
      exact ⟨h.closed, h.written, h.read⟩

theorem reaches_closedAt {turns : List Turn} (hclosed : relay.stdinWrite = false)
    (h : Reaches handler relay turns relay') :
    ClosedAt relay.writtenToChild relay.client.read relay' :=
  (steps_of_reaches h).keeps (fun hstep => hstep.closedAt) ⟨hclosed, rfl, rfl⟩

end Relay

end NativeGuard.Process

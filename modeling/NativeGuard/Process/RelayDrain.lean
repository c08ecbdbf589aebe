import NativeGuard.Process.RelaySafety

/-!
# The relay comes to its end (`run_stdio_child` in `src/linux_stdio_relay.cpp`)

Once the child is reaped the relay has only to read what the child has left in its pipe
and to pass it on. As long as it has not ended it polls the descriptor that it waits for
(`polls_of_reaped`), and every turn in which that descriptor moves brings the end
closer. In any run, whatever the turns between them do, the number of such turns is
bounded by the bytes that are left (`drain_bound`).
-/

namespace NativeGuard.Process

open Json Json.Scan Data Io Protocol ToolCallFilter Security

/-! ## §1  Queues that hold what they say -/

namespace Queue

/-- A queue that holds bytes has some to write. -/
def Proper (q : Queue) : Prop := q.start = 0 ∨ q.start < q.buffer.bytes.length

theorem Takes.proper {q q' : Queue} {text : Bytes} (h : q.Takes text q') (hq : q.Proper) :
    q'.Proper := by
  unfold Proper at hq ⊢
  rw [h.start, h.bytes, List.length_append]
  omega

theorem flushTo_proper {q : Queue} (hq : q.Proper) (hsound : q.Sound) (result : WriteResult) :
    (q.flushTo result).2.2.Proper := by
  have hcleared : q.clear.Proper := Or.inl rfl
  have hafter := (flushTo_rest hsound result).2
  unfold flushTo at hafter ⊢
  split
  · exact hcleared
  rename_i hne
  rw [if_neg hne] at hafter
  rcases result with (_ | count) | _ | _ | _
  · exact hq
  · dsimp only at hafter ⊢
    split
    · exact hcleared
    · -- cut short, with a start that stays below the length
      rename_i hlast
      rw [if_neg hlast] at hafter
      exact Or.inr (lt_of_le_of_ne hafter hlast)
  · exact hq
  · exact hq
  · exact hq

theorem Proper.rest_ne_nil {q : Queue} (hq : q.Proper) (h : q.isEmpty = false) :
    q.rest ≠ [] := by
  unfold Queue.isEmpty at h
  have hne : q.buffer.bytes ≠ [] := fun hnil => by
    rw [hnil] at h
    cases h
  intro hrest
  have hlength : q.rest.length = q.buffer.bytes.length - q.start := List.length_drop
  have hpos := List.length_pos_iff.mpr hne
  rw [hrest] at hlength
  unfold Proper at hq
  simp only [List.length_nil] at hlength
  omega

/-- A write that moves takes bytes out of a queue that holds some. -/
theorem flushTo_moves {q : Queue} (hq : q.Proper) (h : q.isEmpty = false) (count : Nat) :
    (q.flushTo (.wrote (count + 1))).2.1 ≠ [] := by
  have hrest := hq.rest_ne_nil h
  have hstart : q.start ≠ q.buffer.bytes.length := by
    intro hall
    exact hrest (List.drop_eq_nil_of_le hall.ge)
  have htake : q.rest.take (count + 1) ≠ [] := by
    intro hnil
    rw [List.take_eq_nil_iff] at hnil
    exact hnil.elim (Nat.succ_ne_zero count) hrest
  unfold flushTo
  rw [if_neg hstart]
  dsimp only
  split
  · exact htake
  · exact htake

end Queue

namespace Relay

variable {σ : Type} {handler : Option (ClientMessageHandler σ)} {config : RunConfig}
  {state : σ} {relay relay' : Relay σ}

theorem Step.proper (hstep : Step handler relay relay')
    (h : relay.outputs.toClient.Sound ∧ relay.outputs.toClient.Proper) :
    relay'.outputs.toClient.Sound ∧ relay'.outputs.toClient.Proper := by
  cases hstep with
  | reaps => exact h
  | terminates => exact h
  | kills => exact h
  | closesInput _ => exact h
  | readsClient _ hread =>
      rcases readClient_cases hread with ⟨chunk, client, outputs, -, hreceive, rfl⟩ | rfl | rfl
      · have htakes := (receive_ok hreceive).2.toClient
        exact ⟨htakes.sound h.1, htakes.proper h.2⟩
      · exact h
      · exact h
  | readsChild _ hread =>
      rcases readChild_cases hread with ⟨chunk, child, outputs, -, hreceive, rfl⟩ | rfl | rfl
      · have htakes := (receive_ok hreceive).2.toClient
        exact ⟨htakes.sound h.1, htakes.proper h.2⟩
      · exact h
      · exact h
  | writesChild _ hwrite =>
      rcases writeChild_cases hwrite with rfl | ⟨-, written, rfl⟩
      · exact h
      · exact h
  | writesClient hwrite =>
      cases writeClient_ok hwrite
      exact ⟨(Queue.flushTo_rest h.1 _).2, Queue.flushTo_proper h.2 h.1 _⟩

/-! ## §2  What is left -/

/-- No handler says more to the client than the server has said. -/
def ShortAnswers (handler : Option (ClientMessageHandler σ)) : Prop :=
  ∀ state message,
    (inspectOne handler state (.serverToClient, message)).1.textForClient.length ≤
      message.length + 1

theorem shortAnswers_filter : ShortAnswers (some filterHandler) := server_textForClient

theorem receive_code {direction : MessageDirection} {inlet inlet' : Inlet}
    {outputs outputs' : Outputs σ} {chunk : Chunk}
    (h : receive handler direction inlet outputs chunk = .ok (inlet', outputs')) :
    (inlet.framer.feed chunk.val).status.code = .ok := by
  unfold receive at h
  dsimp only at h
  split at h
  · cases h
  · exact not_not.mp ‹_›

/-- A chunk ends lines, or is left behind them. -/
theorem fed_spent {s chunk : Bytes} {messages : List Bytes} {f : LineFramer}
    (h : LineFramer.After config.framerConfig s messages f)
    (hcode : (f.feed chunk).status.code = .ok) :
    linesLength (f.feed chunk).messages + (restOf newline (s ++ chunk)).length =
      (restOf newline s).length + chunk.length := by
  obtain ⟨hfed, hstatus⟩ := LineFramer.feed_after h chunk
  have hfits : ¬ Overlong newline config.runtime.maxMessageBytes (s ++ chunk) := by
    intro hover
    rw [hstatus] at hcode
    have hlong : LineFramer.streamStatus config.framerConfig (s ++ chunk) =
        Io.messageTooLarge := if_pos hover
    rw [hlong] at hcode
    cases hcode
  have hbefore : ¬ Overlong newline config.runtime.maxMessageBytes s :=
    fun hover => hfits (overlong_append hover chunk).1
  have hlines := hfed.emits
  rw [h.emits, emitted_eq, emitted_eq, shortLines_of_not_overlong hbefore,
    shortLines_of_not_overlong hfits, linesOf_append] at hlines
  rw [List.append_cancel_left hlines, restOf_append, linesLength_add, List.length_append]

/-- What has been sent to the client, what waits for it and what the child has begun to
say. -/
def held (relay : Relay σ) : Nat :=
  relay.writtenToClient.length + relay.outputs.toClient.rest.length +
    (restOf newline relay.child.read).length

/-- The child's input is closed, and what is held has come from the child since. -/
structure Drains (first relay : Relay σ) : Prop where
  closed : relay.stdinWrite = false
  held : relay.held + first.child.read.length ≤ first.held + relay.child.read.length

theorem Step.drains {first : Relay σ} (hshort : ShortAnswers handler)
    (hstep : Step handler relay relay') (haccounts : Accounts config handler state relay)
    (h : Drains first relay) : Drains first relay' := by
  have hshut : relay.stdinWrite ≠ true := by
    rw [h.closed]
    exact Bool.false_ne_true
  cases hstep with
  | reaps => exact ⟨rfl, h.held⟩
  | terminates => exact ⟨rfl, h.held⟩
  | kills => exact ⟨h.closed, h.held⟩
  | closesInput _ => exact ⟨rfl, h.held⟩
  | readsClient hopen _ => exact absurd hopen hshut
  | readsChild _ hread =>
      rcases readChild_cases hread with ⟨chunk, child, outputs, -, hreceive, rfl⟩ | rfl | rfl
      -- what the client is told of a line is no longer than the line
      · obtain ⟨rfl, hdelivered⟩ := receive_ok hreceive
        have hspent := fed_spent haccounts.child (receive_code hreceive)
        have htexts := texts_length_le hshort relay.outputs.handlerState
          (relay.child.framer.feed chunk.val).messages
        rw [sum_bound_eq] at htexts
        refine ⟨h.closed, ?_⟩
        have hheld := h.held
        unfold Relay.held at hheld ⊢
        dsimp only
        rw [hdelivered.toClient.rest haccounts.soundToClient, List.length_append,
          List.length_append]
        omega
      · exact ⟨h.closed, h.held⟩
      · exact h
  | writesChild hopen _ => exact absurd hopen hshut
  | writesClient hwrite =>
      rename_i result
      have hrest := congrArg List.length (Queue.flushTo_rest haccounts.soundToClient result).1
      rw [List.length_append] at hrest
      cases writeClient_ok hwrite
      refine ⟨h.closed, ?_⟩
      have hheld := h.held
      unfold Relay.held at hheld ⊢
      dsimp only [setToClient]
      rw [List.length_append]
      omega

/-! ## §3  Turns that move -/

/-- The bytes that have been read from the child and written to the client, and one for
the end of the child's output. -/
def moved (relay : Relay σ) : Nat :=
  relay.child.read.length + relay.writtenToClient.length + relay.outputEof.toNat

theorem Step.moved_le (hstep : Step handler relay relay') : relay.moved ≤ relay'.moved := by
  cases hstep with
  | reaps => exact le_rfl
  | terminates => exact le_rfl
  | kills => exact le_rfl
  | closesInput _ => exact le_rfl
  | readsClient _ hread =>
      rcases readClient_cases hread with ⟨chunk, client, outputs, -, -, rfl⟩ | rfl | rfl
      · exact le_rfl
      · exact le_rfl
      · exact le_rfl
  | readsChild _ hread =>
      rcases readChild_cases hread with ⟨chunk, child, outputs, -, hreceive, rfl⟩ | rfl | rfl
      · obtain ⟨rfl, -⟩ := receive_ok hreceive
        unfold moved
        rw [List.length_append]
        dsimp only
        omega
      · exact Nat.add_le_add_left (Bool.toNat_le relay.outputEof) _
      · exact le_rfl
  | writesChild _ hwrite =>
      rcases writeChild_cases hwrite with rfl | ⟨-, written, rfl⟩
      · exact le_rfl
      · exact le_rfl
  | writesClient hwrite =>
      cases writeClient_ok hwrite
      unfold moved
      rw [List.length_append]
      dsimp only [setToClient]
      omega

theorem Steps.moved_le (hsteps : Steps handler relay relay') : relay.moved ≤ relay'.moved :=
  hsteps.keeps (P := fun r => relay.moved ≤ r.moved)
    (fun hstep hle => hle.trans hstep.moved_le) le_rfl

/-- A read that brings bytes or the end of the stream. -/
def ReadResult.moves : ReadResult → Bool
  | .data _ => true
  | .endOfFile => true
  | .retry => false
  | .failed => false

def WriteResult.moves : WriteResult → Bool
  | .wrote (_ + 1) => true
  | _ => false

/-- The child's output or the client's input is polled, is ready and moves. -/
def pollMoves (relay : Relay σ) : Polled → Bool
  | .ready events =>
      (relay.pollsChildStdout && events.childStdout.any ReadResult.moves) ||
        (relay.pollsStdout && events.stdout.any WriteResult.moves)
  | _ => false

theorem readChild_moves (hopen : relay.outputEof = false) {result : ReadResult}
    (hmoves : ReadResult.moves result = true) (h : readChild handler relay result = .ok relay') :
    relay.moved + 1 ≤ relay'.moved := by
  cases result with
  | data chunk =>
      obtain ⟨⟨child, outputs⟩, hreceive, hok⟩ := except_bind_ok.mp h
      cases hok
      obtain ⟨rfl, -⟩ := receive_ok hreceive
      have hpos := List.length_pos_iff.mpr chunk.property.1
      unfold moved
      rw [List.length_append]
      dsimp only
      omega
  | endOfFile =>
      obtain ⟨child, hclose, hok⟩ := except_bind_ok.mp h
      cases hok
      rw [close_ok hclose]
      unfold moved
      rw [hopen]
      exact le_rfl
  | retry => cases hmoves
  | failed => cases hmoves

theorem writeClient_moves (hproper : relay.outputs.toClient.Proper)
    (hholds : relay.outputs.toClient.isEmpty = false) {result : WriteResult}
    (hmoves : WriteResult.moves result = true) (h : writeClient relay result = .ok relay') :
    relay.moved + 1 ≤ relay'.moved := by
  obtain ⟨count, rfl⟩ : ∃ count, result = .wrote (count + 1) := by
    rcases result with (_ | count) | _ | _ | _
    · cases hmoves
    · exact ⟨count, rfl⟩
    all_goals cases hmoves
  have hpos := List.length_pos_iff.mpr (Queue.flushTo_moves hproper hholds count)
  cases writeClient_ok h
  unfold moved
  rw [List.length_append]
  dsimp only [setToClient]
  omega

theorem whenReady_event {ρ : Type} {serve : Relay σ → ρ → Except (Exit σ) (Relay σ)}
    {polled : Bool} {event : Option ρ} {result : ρ} (hpolled : polled = true)
    (hevent : event = some result) (relay : Relay σ) : whenReady polled event serve relay = serve relay result := by
  rw [hpolled, hevent]
  rfl

/-- A service that is a step takes nothing back. -/
theorem whenReady_moved_le {ρ : Type} {serve : Relay σ → ρ → Except (Exit σ) (Relay σ)}
    {polled : Bool} {event : Option ρ}
    (hstep : ∀ result, polled = true → serve relay result = .ok relay' → Step handler relay relay')
    (h : whenReady polled event serve relay = .ok relay') : relay.moved ≤ relay'.moved := by
  rcases whenReady_cases h with rfl | ⟨result, hpolled, -, hserve⟩
  · exact le_rfl
  · exact (hstep result hpolled hserve).moved_le

/-- The child's input counts for nothing, and its service leaves the client's queue. -/
theorem writesChild_moved {polled : Bool} {event : Option WriteResult}
    (h : whenReady polled event writeChild relay = .ok relay') :
    relay'.moved = relay.moved ∧ relay'.outputs.toClient = relay.outputs.toClient := by
  rcases whenReady_cases h with rfl | ⟨result, -, -, hwrite⟩
  · exact ⟨rfl, rfl⟩
  · rcases writeChild_cases hwrite with rfl | ⟨-, written, rfl⟩
    · exact ⟨rfl, rfl⟩
    · exact ⟨rfl, rfl⟩

/-- The client's input is read in front of the child's output, which it leaves open. -/
theorem readsClient_outputEof {polled : Bool} {event : Option ReadResult}
    (h : whenReady polled event (readClient handler) relay = .ok relay') :
    relay'.outputEof = relay.outputEof := by
  rcases whenReady_cases h with rfl | ⟨result, -, -, hread⟩
  · rfl
  · rcases readClient_cases hread with ⟨chunk, client, outputs, -, -, rfl⟩ | rfl | rfl
    · rfl
    · rfl
    · rfl

/-- While something waits for the client, nothing is read. -/
theorem serve_writes {events : Ready} (hfull : relay.outputs.toClient.isEmpty = false)
    (h : relay.serve handler events = .ok relay') :
    ∃ written, whenReady relay.pollsChildStdin events.childStdin writeChild relay = .ok written ∧
      whenReady relay.pollsStdout events.stdout writeClient written = .ok relay' := by
  obtain ⟨first, hfirst, h⟩ := except_bind_ok.mp h
  obtain ⟨second, hsecond, h⟩ := except_bind_ok.mp h
  obtain ⟨third, hthird, h⟩ := except_bind_ok.mp h
  have hone : first = relay := by
    rcases whenReady_cases hfirst with rfl | ⟨result, hstdin, -, -⟩
    · rfl
    · unfold pollsStdin at hstdin
      rw [hfull, Bool.and_false] at hstdin
      cases hstdin
  subst hone
  have htwo : second = first := by
    rcases whenReady_cases hsecond with rfl | ⟨result, hstdout, -, -⟩
    · rfl
    · unfold pollsChildStdout at hstdout
      rw [hfull, Bool.and_false] at hstdout
      cases hstdout
  subst htwo
  exact ⟨third, hthird, h⟩

theorem serve_reads_moves (hreading : relay.outputEof = !relay.stdoutRead) {events : Ready}
    (hpolled : relay.pollsChildStdout = true) {result : ReadResult}
    (hevent : events.childStdout = some result) (hmoves : ReadResult.moves result = true)
    (h : relay.serve handler events = .ok relay') : relay.moved + 1 ≤ relay'.moved := by
  obtain ⟨first, hfirst, h⟩ := except_bind_ok.mp h
  obtain ⟨second, hsecond, h⟩ := except_bind_ok.mp h
  obtain ⟨third, hthird, h⟩ := except_bind_ok.mp h
  rw [whenReady_event hpolled hevent] at hsecond
  unfold pollsChildStdout at hpolled
  rw [Bool.and_eq_true] at hpolled
  have heof : first.outputEof = false := by
    rw [readsClient_outputEof hfirst, hreading, hpolled.1]
    rfl
  have hstep : ∀ result, relay.pollsStdin = true → readClient handler relay result = .ok first →
      Step handler relay first := by
    intro result hstdin hread
    unfold pollsStdin at hstdin
    simp only [Bool.and_eq_true] at hstdin
    exact .readsClient hstdin.1.1.2 hread
  have hread : relay.moved ≤ first.moved := whenReady_moved_le hstep hfirst
  have hmoved : first.moved + 1 ≤ second.moved := readChild_moves heof hmoves hsecond
  have hwritten : third.moved = second.moved := (writesChild_moved hthird).1
  have hclient : third.moved ≤ relay'.moved :=
    whenReady_moved_le (fun _ _ hwrite => @Step.writesClient σ handler third relay' _ hwrite) h
  omega

theorem serve_writes_moves (hproper : relay.outputs.toClient.Proper) {events : Ready}
    (hpolled : relay.pollsStdout = true) {result : WriteResult}
    (hevent : events.stdout = some result) (hmoves : WriteResult.moves result = true)
    (h : relay.serve handler events = .ok relay') : relay.moved + 1 ≤ relay'.moved := by
  have hfull : relay.outputs.toClient.isEmpty = false := by
    unfold pollsStdout at hpolled
    simpa using hpolled
  obtain ⟨written, hwritten, h⟩ := serve_writes hfull h
  obtain ⟨hmoved, hqueue⟩ := writesChild_moved hwritten
  rw [whenReady_event hpolled hevent] at h
  rw [← hmoved]
  rw [← hqueue] at hproper hfull
  exact writeClient_moves hproper hfull hmoves h

/-- One service moves, and none of the others takes anything back. -/
theorem serve_moves (hproper : relay.outputs.toClient.Proper)
    (hreading : relay.outputEof = !relay.stdoutRead) {events : Ready}
    (hmoves : relay.pollMoves (.ready events) = true)
    (h : relay.serve handler events = .ok relay') : relay.moved + 1 ≤ relay'.moved := by
  unfold pollMoves at hmoves
  simp only [Bool.or_eq_true, Bool.and_eq_true, Option.any_eq_true] at hmoves
  rcases hmoves with ⟨hpolled, result, hevent, hmove⟩ | ⟨hpolled, result, hevent, hmove⟩
  · exact serve_reads_moves hreading hpolled hevent hmove h
  · exact serve_writes_moves hproper hpolled hevent hmove h

/-! ## §4  The end of the loop -/

/-- While the loop goes on without its child, the relay polls the client that it has
something for, or else the child's output. -/
theorem polls_of_reaped {t : Turn} {prepared : Relay σ}
    (haccounts : Accounts config handler state prepared)
    (hprepare : relay.prepare t = .ok prepared) (hreaped : prepared.childReaped = true) :
    prepared.pollsStdout = true ∨ prepared.pollsChildStdout = true := by
  unfold prepare at hprepare
  split at hprepare
  · cases hprepare
  obtain ⟨observed, -, hprepare⟩ := except_bind_ok.mp hprepare
  dsimp only at hprepare
  split at hprepare
  · cases hprepare
  rename_i hover
  cases hprepare
  generalize ((observed.terminate t.terminationSignal).kill t.graceOver).closeInput =
    prepared at haccounts hreaped hover
  unfold pollsStdout pollsChildStdout
  cases hempty : prepared.outputs.toClient.isEmpty with
  | false => exact Or.inl rfl
  | true =>
      right
      cases hread : prepared.stdoutRead with
      | true => rfl
      | false =>
          -- the stream is at its end, and so the loop would have been left
          have heof := haccounts.reading
          rw [hread] at heof
          exact absurd ⟨heof, hempty, hreaped⟩ hover

/-- A descriptor that the turn polls is ready, and moves. -/
def turnMoves (relay : Relay σ) (t : Turn) : Bool :=
  match relay.prepare t with
  | .ok prepared => prepared.pollMoves t.polled
  | .error _ => false

variable (handler) in
/-- How many turns of a run move. -/
def movingTurns : Relay σ → List Turn → Nat
  | _, [] => 0
  | relay, t :: turns => (relay.turnMoves t).toNat +
      match relay.turn handler t with
      | .ok relay' => movingTurns relay' turns
      | .error _ => 0

/-- A turn that moves is counted in `moved`; any other takes nothing back. -/
theorem turn_moves {t : Turn} (haccounts : Accounts config handler state relay)
    (hproper : relay.outputs.toClient.Proper) (hturn : relay.turn handler t = .ok relay') :
    relay.moved + (relay.turnMoves t).toNat ≤ relay'.moved := by
  cases hmoves : relay.turnMoves t with
  | false => exact (turn_steps (Or.inl hturn)).moved_le
  | true =>
      obtain ⟨prepared, hprepare, hpoll⟩ := except_bind_ok.mp hturn
      have hready : Steps handler relay prepared := prepare_steps (Or.inl hprepare)
      unfold turnMoves at hmoves
      rw [hprepare] at hmoves
      dsimp only at hmoves
      cases hpolled : t.polled with
      | ready events =>
          rw [hpolled] at hmoves hpoll
          have hserved := serve_moves
            (hready.keeps (fun hstep => hstep.proper) ⟨haccounts.soundToClient, hproper⟩).2
            (hready.keeps (fun hstep => hstep.accounts) haccounts).reading hmoves hpoll
          exact (Nat.add_le_add_right hready.moved_le 1).trans hserved
      | _ =>
          rw [hpolled] at hmoves
          cases hmoves

theorem run_moves {turns : List Turn} (haccounts : Accounts config handler state relay)
    (hproper : relay.outputs.toClient.Proper)
    (hreaches : Reaches handler relay turns relay') :
    relay.moved + relay.movingTurns handler turns ≤ relay'.moved := by
  induction turns generalizing relay with
  | nil =>
      rcases hreaches with h | h
      · cases h
        exact le_rfl
      · cases h
  | cons t turns ih =>
      unfold Reaches at hreaches
      rw [run_cons] at hreaches
      rw [movingTurns]
      cases hturn : relay.turn handler t with
      | ok next =>
          rw [hturn] at hreaches
          have hsteps : Steps handler relay next := turn_steps (Or.inl hturn)
          have hrest := ih (hsteps.keeps (fun hstep => hstep.accounts) haccounts)
            (hsteps.keeps (fun hstep => hstep.proper) ⟨haccounts.soundToClient, hproper⟩).2
            hreaches
          have hone := turn_moves haccounts hproper hturn
          dsimp only
          omega
      | error e =>
          -- the loop is left in front of the poll
          rw [hturn] at hreaches
          have hfinished : e = .finished relay' :=
            hreaches.elim (fun h => nomatch h) Except.error.inj
          rw [hfinished] at hturn
          have hstill : relay.turnMoves t = false := by
            unfold turnMoves
            cases hprepare : relay.prepare t with
            | error e => rfl
            | ok prepared =>
                unfold turn at hturn
                rw [hprepare] at hturn
                exact absurd hturn (poll_not_finished prepared relay' t.polled)
          rw [hstill]
          exact (turn_steps (Or.inr hturn)).moved_le

/-- The child's input is closed for good when the child is reaped. -/
theorem Step.reaped (hstep : Step handler relay relay')
    (h : relay.childReaped = true → relay.stdinWrite = false) :
    relay'.childReaped = true → relay'.stdinWrite = false := by
  cases hstep with
  | reaps => exact fun _ => rfl
  | terminates => exact fun _ => rfl
  | kills => exact h
  | closesInput _ => exact fun _ => rfl
  | readsClient _ hread =>
      rcases readClient_cases hread with ⟨chunk, client, outputs, -, -, rfl⟩ | rfl | rfl
      · exact h
      · exact h
      · exact h
  | readsChild _ hread =>
      rcases readChild_cases hread with ⟨chunk, child, outputs, -, -, rfl⟩ | rfl | rfl
      · exact h
      · exact h
      · exact h
  | writesChild _ hwrite =>
      rcases writeChild_cases hwrite with rfl | ⟨-, written, rfl⟩
      · exact h
      · exact fun _ => rfl
  | writesClient hwrite =>
      cases writeClient_ok hwrite
      exact h

theorem Step.stays_reaped (hstep : Step handler relay relay')
    (h : relay.childReaped = true) : relay'.childReaped = true := by
  cases hstep with
  | reaps => rfl
  | terminates => exact h
  | kills => exact h
  | closesInput _ => exact h
  | readsClient _ hread =>
      rcases readClient_cases hread with ⟨chunk, client, outputs, -, -, rfl⟩ | rfl | rfl
      · exact h
      · exact h
      · exact h
  | readsChild _ hread =>
      rcases readChild_cases hread with ⟨chunk, child, outputs, -, -, rfl⟩ | rfl | rfl
      · exact h
      · exact h
      · exact h
  | writesChild _ hwrite =>
      rcases writeChild_cases hwrite with rfl | ⟨-, written, rfl⟩
      · exact h
      · exact h
  | writesClient hwrite =>
      cases writeClient_ok hwrite
      exact h

/-- `drain_bound`, for every handler whose answers are short. -/
theorem drain_bound_of_short {before turns : List Turn} {first : Relay σ}
    (hshort : ShortAnswers handler) (hstart : start config state = .ok first)
    (hbefore : Reaches handler first before relay) (hreaped : relay.childReaped = true)
    (hreaches : Reaches handler relay turns relay') :
    relay.movingTurns handler turns ≤
        2 * (relay'.child.read.length - relay.child.read.length) +
          relay.outputs.toClient.rest.length + (restOf newline relay.child.read).length + 1 ∧
      ∀ t prepared, relay'.prepare t = .ok prepared →
        prepared.pollsStdout = true ∨ prepared.pollsChildStdout = true := by
  have hsteps := steps_of_reaches hbefore
  have haccounts := reaches_accounts hstart hbefore
  have hlater : Steps handler relay relay' := steps_of_reaches hreaches
  constructor
  · have hfresh : first.childReaped = true → first.stdinWrite = false := by
      obtain rfl := start_ok hstart
      exact fun h => absurd h Bool.false_ne_true
    have hclosed := hsteps.keeps (P := fun r => r.childReaped = true → r.stdinWrite = false)
      (fun hstep => hstep.reaped) hfresh hreaped
    have hproper : relay.outputs.toClient.Sound ∧ relay.outputs.toClient.Proper := by
      refine hsteps.keeps (fun hstep => hstep.proper) ?_
      obtain rfl := start_ok hstart
      exact ⟨Nat.zero_le _, Or.inl rfl⟩
    have hmoved := run_moves haccounts hproper.2 hreaches
    have hdrains : Accounts config handler state relay' ∧ Drains relay relay' :=
      hlater.keeps (P := fun r => Accounts config handler state r ∧ Drains relay r)
        (fun hstep h => ⟨hstep.accounts h.1, hstep.drains hshort h.1 h.2⟩)
        ⟨haccounts, hclosed, le_rfl⟩
    have hheld := hdrains.2.held
    have heof := Bool.toNat_le relay'.outputEof
    unfold moved at hmoved
    unfold held at hheld
    omega
  · intro t prepared hprepare
    have hall : Steps handler relay prepared :=
      hlater.trans (prepare_steps (Or.inl hprepare))
    exact polls_of_reaped (hall.keeps (fun hstep => hstep.accounts) haccounts) hprepare
      (hall.keeps (fun hstep => hstep.stays_reaped) hreaped)

/-- Behind the child's end, the loop with the filter makes no more turns that move, in
whatever run and with whatever turns between them, than twice the bytes that the child has
left in its pipe, those that wait for the client, those of a line that the child has begun,
and one; and until it ends it polls a descriptor. So it comes to its end as long as its
peers let it move. -/
theorem drain_bound {policy : PolicyTable} {filterConfig : FilterConfig}
    {before turns : List Turn} {first relay relay' : Relay ToolCallFilter}
    (hstart : start config (init policy filterConfig) = .ok first)
    (hbefore : Reaches (some filterHandler) first before relay)
    (hreaped : relay.childReaped = true)
    (hreaches : Reaches (some filterHandler) relay turns relay') :
    relay.movingTurns (some filterHandler) turns ≤
        2 * (relay'.child.read.length - relay.child.read.length) +
          relay.outputs.toClient.rest.length + (restOf newline relay.child.read).length + 1 ∧
      ∀ t prepared, relay'.prepare t = .ok prepared →
        prepared.pollsStdout = true ∨ prepared.pollsChildStdout = true :=
  drain_bound_of_short shortAnswers_filter hstart hbefore hreaped hreaches

/-- The child says a line and is reaped, and then the client takes some of it, does not
come, is interrupted, and takes the rest; the child's output is at its end. -/
def saidTurns : List Turn :=
  [{ polled := .ready { childStdout := some (.data noteChunk) } },
    { waited := .reaped, polled := .timeout }]

def drainTurns : List Turn :=
  [{ polled := .ready { stdout := some (.wrote 1) } }, { polled := .timeout },
    { polled := .ready { stdout := some .retry } }, { polled := .interrupted },
    { polled := .ready { stdout := some (.wrote 100) } },
    { polled := .ready { childStdout := some .endOfFile } }, { polled := .timeout }]

theorem drain_bound_example : ∃ relay relay' : Relay ToolCallFilter,
    Reaches (some filterHandler) (fresh {} (init allowAll {})) saidTurns relay ∧
      run (some filterHandler) relay drainTurns = .error (.finished relay') ∧
      relay.movingTurns (some filterHandler) drainTurns = 3 ∧
      3 ≤ 2 * (relay'.child.read.length - relay.child.read.length) +
        relay.outputs.toClient.rest.length + (restOf newline relay.child.read).length + 1 := by
  have hstart : start {} (init allowAll {}) = .ok (fresh {} (init allowAll {})) :=
    if_neg (by decide)
  have hsaid : ((run (some filterHandler) (fresh {} (init allowAll {})) saidTurns).toOption.map
      fun relay => (relay.childReaped, relay.movingTurns (some filterHandler) drainTurns,
        match run (some filterHandler) relay drainTurns with
        | .error (.finished _) => true
        | _ => false)) = some (true, 3, true) := by decide +kernel
  cases hrun : run (some filterHandler) (fresh {} (init allowAll {})) saidTurns with
  | error e =>
      rw [hrun] at hsaid
      cases hsaid
  | ok relay =>
      rw [hrun] at hsaid
      have hall := Option.some.inj hsaid
      rw [Prod.mk.injEq, Prod.mk.injEq] at hall
      obtain ⟨hreaped, hcount, hdrained⟩ := hall
      cases hdrain : run (some filterHandler) relay drainTurns with
      | ok relay' =>
          rw [hdrain] at hdrained
          cases hdrained
      | error exit =>
          rw [hdrain] at hdrained
          cases exit with
          | returned _ _ _ => cases hdrained
          | finished relay' =>
              have hbound := (drain_bound hstart (Or.inl hrun) hreaped (Or.inr hdrain)).1
              rw [hcount] at hbound
              exact ⟨relay, relay', Or.inl hrun, hdrain, hcount, hbound⟩

end Relay

end NativeGuard.Process

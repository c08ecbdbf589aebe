import NativeGuard.Process.Relay

/-!
# What a session reports (`run_stdio_child` in `src/linux_stdio_relay.cpp`)

A run that has spawned its child tells the observer about a `RunResult` when it
returns, by whichever of its returns. The result is filled in behind the loop alone, so
that it is true of the runs that get there (`session_end_truthful_iff`).
-/

namespace NativeGuard.Process

open Json Io Protocol

/-! ## §1  Results -/

structure RunResult where
  proxyExitStatus : Int := 4
  childExitStatus : Int := -1
  childStarted : Bool := false
  cleanShutdown : Bool := false
  terminationReason : String := "startup_failure"
deriving DecidableEq, Repr

inductive ObserverCall where
  | childStarted
  | childFinished (result : RunResult)
deriving DecidableEq, Repr

def ObserverCall.finishedWith : ObserverCall → Option RunResult
  | .childStarted => none
  | .childFinished result => some result

/-- How a child is gone, in the words of `waitpid`. -/
inductive ChildStatus where
  | exited (code : Nat)
  | signaled (signal : Nat)
  | other
deriving DecidableEq, Repr

def exitCodeFromStatus : ChildStatus → Nat
  | .exited code => code
  | .signaled signal => 128 + signal
  | .other => 1

/-- What `termination_signal` is when it is read behind the loop, one read after the
other; no signal is forgotten. -/
structure SignalReads where
  proxy : Nat := 0
  number : Nat := 0
  clean : Nat := 0
  reason : Nat := 0
  keptClean : proxy ≠ 0 → clean ≠ 0 := by decide
  keptReason : clean ≠ 0 → reason ≠ 0 := by decide

/-- What a run meets once the child is spawned; `childStatus` is how the child ends,
observed or not. -/
structure Session where
  nonblockingFails : Bool := false
  allocationFails : Bool := false
  turns : List Relay.Turn
  childStatus : ChildStatus
  finalWaitFails : Bool := false
  signals : SignalReads := {}
  kept : (∃ t ∈ turns, t.terminationSignal = true) → signals.proxy ≠ 0

namespace Session

variable (session : Session)

/-- The result behind the loop. -/
def finalResult : RunResult :=
  let childExitStatus : Int := exitCodeFromStatus session.childStatus
  { childStarted := true
    childExitStatus := childExitStatus
    proxyExitStatus :=
      if session.signals.proxy ≠ 0 then 128 + session.signals.number else childExitStatus
    cleanShutdown := decide (session.signals.clean = 0 ∧ childExitStatus = 0)
    terminationReason :=
      if session.signals.reason ≠ 0 then "signal"
      else if childExitStatus = 0 then "child_exit"
      else "child_nonzero_exit" }

/-- A return, with the calls that the scope of the observer makes. -/
def report (returned : Int) (result : RunResult) : Int × List ObserverCall :=
  (returned, [.childStarted, .childFinished result])

variable {σ : Type} (handler : Option (ClientMessageHandler σ)) (config : RunConfig)
  (handlerState : σ)

/-- `run_stdio_child` behind a successful spawn: what it returns and tells the
observer; nothing while the loop goes on. -/
def runStdioChild : Option (Int × List ObserverCall) :=
  let result : RunResult := { childStarted := true }
  if session.nonblockingFails then some (report 4 result)
  else if session.allocationFails then some (report 4 result)
  else
    match Relay.run handler (Relay.fresh config handlerState) session.turns with
    | .ok _ => none
    -- a `return` inside the loop leaves the result as it was initialised
    | .error (.returned code _ _) => some (report code result)
    | .error (.finished relay) =>
        if ¬ relay.childReaped ∧ session.finalWaitFails then some (report 4 result)
        else some (report session.finalResult.proxyExitStatus session.finalResult)

end Session

/-! ## §2  Turns that return -/

namespace Relay

variable {σ : Type} (handler : Option (ClientMessageHandler σ))

/-- A chunk breaks the framing or finds no room, the stream ends within a message, or
the `read` fails. -/
def ReadFails (direction : MessageDirection) (inlet : Inlet) (outputs : Outputs σ) :
    ReadResult → Prop
  | .data chunk =>
      (inlet.framer.feed chunk.val).status.code ≠ .ok ∨
        ((inlet.framer.feed chunk.val).messages.foldl (sink handler direction)
          (outputs, false)).2 = true
  | .endOfFile => inlet.framer.finish.status.code ≠ .ok
  | .retry => False
  | .failed => True

/-- A `write` to the child fails otherwise than on a broken pipe. -/
def ChildWriteFails (relay : Relay σ) (result : WriteResult) : Prop :=
  (relay.outputs.toChild.flushTo result).1 = .error

def ClientWriteFails (relay : Relay σ) (result : WriteResult) : Prop :=
  (relay.outputs.toClient.flushTo result).1 = .error ∨
    (relay.outputs.toClient.flushTo result).1 = .brokenPipe

/-- A descriptor that was polled is ready, and its service fails. -/
def EventFails {ρ : Type} (polled : Bool) (event : Option ρ) (fails : ρ → Prop) : Prop :=
  polled = true ∧ ∃ result, event = some result ∧ fails result

/-- One of the four services fails, in the state that those before it have left. -/
def ServeFails (relay : Relay σ) (events : Ready) : Prop :=
  EventFails relay.pollsStdin events.stdin
      (ReadFails handler .clientToServer relay.client relay.outputs) ∨
    ∃ first, whenReady relay.pollsStdin events.stdin (readClient handler) relay = .ok first ∧
      (EventFails relay.pollsChildStdout events.childStdout
          (ReadFails handler .serverToClient first.child first.outputs) ∨
        ∃ second, whenReady relay.pollsChildStdout events.childStdout (readChild handler)
            first = .ok second ∧
          (EventFails relay.pollsChildStdin events.childStdin second.ChildWriteFails ∨
            ∃ third, whenReady relay.pollsChildStdin events.childStdin writeChild second =
                .ok third ∧
              EventFails relay.pollsStdout events.stdout third.ClientWriteFails))

def PollFails (relay : Relay σ) : Polled → Prop
  | .interrupted => False
  | .timeout => False
  | .failed => True
  | .ready events => relay.ServeFails handler events

/-- The turn meets a failure: of `waitpid` while the child is not reaped, of `poll`, or
of a descriptor. -/
def TurnFails (relay : Relay σ) (t : Turn) : Prop :=
  relay.childReaped = false ∧ t.waited = .failed ∨
    ∃ ready, relay.prepare t = .ok ready ∧ ready.PollFails handler t.polled

/-- None of the turns, each from the state that the one before has left, meets a
failure. -/
def NoFailure : Relay σ → List Turn → Prop
  | _, [] => True
  | relay, t :: turns =>
      ¬ relay.TurnFails handler t ∧
        ∀ next, relay.turn handler t = .ok next → NoFailure next turns

/-- A step that returns if it fails, and goes on otherwise. -/
structure ReturnsIff {α : Type} (r : Except (Exit σ) α) (fails : Prop) : Prop where
  goesOn : ¬ fails → ∃ a, r = .ok a
  returns : fails → ∃ code text state, r = .error (.returned code text state)

variable {handler} {relay : Relay σ}

theorem returnsIff_ok {α : Type} (a : α) :
    ReturnsIff (.ok a : Except (Exit σ) α) False :=
  ⟨fun _ => ⟨a, rfl⟩, False.elim⟩

theorem returnsIff_error {α : Type} (code : Nat) (text : String) (state : σ) :
    ReturnsIff (.error (.returned code text state) : Except (Exit σ) α) True :=
  ⟨fun h => absurd trivial h, fun _ => ⟨code, text, state, rfl⟩⟩

theorem ReturnsIff.bind {α β : Type} {r : Except (Exit σ) α} {f : α → Except (Exit σ) β}
    {p : Prop} {q : α → Prop} (hr : ReturnsIff r p) (hf : ∀ a, ReturnsIff (f a) (q a)) :
    ReturnsIff (r >>= f) (p ∨ ∃ a, r = .ok a ∧ q a) where
  goesOn h := by
    obtain ⟨hp, hq⟩ := not_or.mp h
    obtain ⟨a, ha⟩ := hr.goesOn hp
    rw [ha]
    exact (hf a).goesOn fun hqa => hq ⟨a, ha, hqa⟩
  returns h := by
    rcases h with hp | ⟨a, ha, hqa⟩
    · obtain ⟨code, text, state, hreturned⟩ := hr.returns hp
      rw [hreturned]
      exact ⟨code, text, state, rfl⟩
    · rw [ha]
      exact (hf a).returns hqa

/-- What follows a step does not fail. -/
theorem ReturnsIff.map {α β : Type} {r : Except (Exit σ) α} {f : α → β} {p : Prop}
    (hr : ReturnsIff r p) : ReturnsIff (r >>= fun a => .ok (f a)) p := by
  have hbind := hr.bind fun a => returnsIff_ok (f a)
  simpa using hbind

theorem receive_returnsIff (direction : MessageDirection) (inlet : Inlet)
    (outputs : Outputs σ) (chunk : Chunk) :
    ReturnsIff (receive handler direction inlet outputs chunk)
      (ReadFails handler direction inlet outputs (.data chunk)) := by
  unfold receive ReadFails
  dsimp only
  by_cases hstatus : (inlet.framer.feed chunk.val).status.code = .ok
  · rw [if_neg (not_not.mpr hstatus)]
    by_cases hsunk : ((inlet.framer.feed chunk.val).messages.foldl (sink handler direction)
        (outputs, false)).2 = true
    · rw [if_pos hsunk]
      simpa [hsunk] using returnsIff_error _ _ _
    · rw [if_neg hsunk]
      simpa [hstatus, hsunk] using returnsIff_ok _
  · rw [if_pos hstatus]
    simpa [hstatus] using returnsIff_error _ _ _

theorem close_returnsIff (direction : MessageDirection) (inlet : Inlet)
    (outputs : Outputs σ) :
    ReturnsIff (close direction inlet outputs)
      (ReadFails handler direction inlet outputs .endOfFile) := by
  unfold close ReadFails
  dsimp only
  by_cases hstatus : inlet.framer.finish.status.code = .ok
  · rw [if_neg (not_not.mpr hstatus)]
    simpa [hstatus] using returnsIff_ok _
  · rw [if_pos hstatus]
    simpa [hstatus] using returnsIff_error _ _ _

theorem readClient_returnsIff (relay : Relay σ) (result : ReadResult) :
    ReturnsIff (readClient handler relay result)
      (ReadFails handler .clientToServer relay.client relay.outputs result) := by
  cases result with
  | data chunk => exact (receive_returnsIff _ _ _ chunk).map
  | endOfFile => exact (close_returnsIff _ _ _).map
  | retry => exact returnsIff_ok relay
  | failed => exact returnsIff_error _ _ _

theorem readChild_returnsIff (relay : Relay σ) (result : ReadResult) :
    ReturnsIff (readChild handler relay result)
      (ReadFails handler .serverToClient relay.child relay.outputs result) := by
  cases result with
  | data chunk => exact (receive_returnsIff _ _ _ chunk).map
  | endOfFile => exact (close_returnsIff _ _ _).map
  | retry => exact returnsIff_ok relay
  | failed => exact returnsIff_error _ _ _

theorem writeChild_returnsIff (relay : Relay σ) (result : WriteResult) :
    ReturnsIff (writeChild relay result) (relay.ChildWriteFails result) := by
  unfold writeChild ChildWriteFails
  obtain ⟨status, written, toChild⟩ := relay.outputs.toChild.flushTo result
  cases status with
  | data => simpa using returnsIff_ok _
  | retry => simpa using returnsIff_ok _
  | brokenPipe => simpa using returnsIff_ok _
  | error => simpa using returnsIff_error _ _ _

theorem writeClient_returnsIff (relay : Relay σ) (result : WriteResult) :
    ReturnsIff (writeClient relay result) (relay.ClientWriteFails result) := by
  unfold writeClient ClientWriteFails
  obtain ⟨status, written, toClient⟩ := relay.outputs.toClient.flushTo result
  cases status with
  | data => simpa using returnsIff_ok _
  | retry => simpa using returnsIff_ok _
  | brokenPipe => simpa using returnsIff_error _ _ _
  | error => simpa using returnsIff_error _ _ _

theorem whenReady_returnsIff {ρ : Type} {serve : Relay σ → ρ → Except (Exit σ) (Relay σ)}
    {fails : ρ → Prop} (hserve : ∀ result, ReturnsIff (serve relay result) (fails result))
    (polled : Bool) (event : Option ρ) :
    ReturnsIff (whenReady polled event serve relay) (EventFails polled event fails) := by
  unfold whenReady EventFails
  cases polled with
  | false => simpa using returnsIff_ok relay
  | true =>
      cases event with
      | none => simpa using returnsIff_ok relay
      | some result => simpa using hserve result

theorem serve_returnsIff (relay : Relay σ) (events : Ready) :
    ReturnsIff (relay.serve handler events) (relay.ServeFails handler events) :=
  (whenReady_returnsIff (readClient_returnsIff relay) _ _).bind fun first =>
    (whenReady_returnsIff (readChild_returnsIff first) _ _).bind fun second =>
      (whenReady_returnsIff (writeChild_returnsIff second) _ _).bind fun third =>
        whenReady_returnsIff (writeClient_returnsIff third) _ _

theorem poll_returnsIff (relay : Relay σ) (polled : Polled) :
    ReturnsIff (relay.poll handler polled) (relay.PollFails handler polled) := by
  cases polled with
  | interrupted => exact returnsIff_ok relay
  | timeout => exact returnsIff_ok relay
  | failed => exact returnsIff_error _ _ _
  | ready events => exact serve_returnsIff relay events

/-- A stretch of the loop: it returns where it meets a failure, and when the loop ends
the child is reaped. -/
inductive Ends (fails : Prop) : Except (Exit σ) (Relay σ) → Prop
  | goesOn (next : Relay σ) (h : ¬ fails) : Ends fails (.ok next)
  | finishes (last : Relay σ) (h : ¬ fails) (hreaped : last.childReaped = true) :
      Ends fails (.error (.finished last))
  | returns (code : Nat) (text : String) (state : σ) (h : fails) :
      Ends fails (.error (.returned code text state))

theorem Ends.congr {p q : Prop} {r : Except (Exit σ) (Relay σ)} (h : Ends p r)
    (hiff : p ↔ q) : Ends q r :=
  propext hiff ▸ h

theorem ReturnsIff.ends {r : Except (Exit σ) (Relay σ)} {fails : Prop}
    (h : ReturnsIff r fails) : Ends fails r := by
  by_cases hfails : fails
  · obtain ⟨code, text, state, hr⟩ := h.returns hfails
    exact hr ▸ .returns code text state hfails
  · obtain ⟨next, hr⟩ := h.goesOn hfails
    exact hr ▸ .goesOn next hfails

theorem observe_returnsIff (relay : Relay σ) (waited : Waited) :
    ReturnsIff (relay.observe waited) (relay.childReaped = false ∧ waited = .failed) := by
  unfold observe
  cases hreaped : relay.childReaped with
  | true => simpa using returnsIff_ok relay
  | false =>
      cases waited with
      | running => simpa using returnsIff_ok relay
      | reaped => simpa using returnsIff_ok _
      | interrupted => simpa using returnsIff_ok relay
      | failed => simpa using returnsIff_error _ _ _

/-- Both ways out of the loop ask for the child to be reaped, so that the wait behind it
is never made. -/
theorem prepare_ends (relay : Relay σ) (t : Turn) :
    Ends (relay.childReaped = false ∧ t.waited = .failed) (relay.prepare t) := by
  unfold prepare
  split
  · next hover => exact .finishes relay (fun h => by simp [h.1] at hover) hover.1
  · have hobserve := observe_returnsIff relay t.waited
    by_cases hfails : relay.childReaped = false ∧ t.waited = .failed
    · obtain ⟨code, text, state, hreturned⟩ := hobserve.returns hfails
      rw [hreturned]
      exact .returns code text state hfails
    · obtain ⟨observed, hobserved⟩ := hobserve.goesOn hfails
      rw [hobserved]
      show Ends _ (if _ then _ else _)
      split
      · next hover => exact .finishes _ hfails hover.2.2
      · exact .goesOn _ hfails

variable (handler) in
theorem turn_ends (relay : Relay σ) (t : Turn) :
    Ends (relay.TurnFails handler t) (relay.turn handler t) := by
  unfold turn TurnFails
  generalize hprepare : relay.prepare t = prepared
  cases hprepare ▸ prepare_ends relay t with
  | returns code text state hfails => exact .returns code text state (Or.inl hfails)
  | finishes last hnot hreaped =>
      refine .finishes last ?_ hreaped
      rintro (hfails | ⟨ready, hready, -⟩)
      · exact hnot hfails
      · cases hready
  | goesOn ready hnot =>
      have hpoll : Ends (ready.PollFails handler t.polled) (ready.poll handler t.polled) :=
        (poll_returnsIff ready t.polled).ends
      have hiff : ready.PollFails handler t.polled ↔
          relay.childReaped = false ∧ t.waited = .failed ∨
            ∃ first, (.ok ready : Except (Exit σ) (Relay σ)) = .ok first ∧
              first.PollFails handler t.polled := by
        simp [hnot]
      exact hpoll.congr hiff

variable (handler) in
theorem run_ends (relay : Relay σ) (turns : List Turn) :
    Ends (¬ relay.NoFailure handler turns) (relay.run handler turns) := by
  induction turns generalizing relay with
  | nil => exact .goesOn relay (not_not.mpr trivial)
  | cons t turns ih =>
      rw [run_cons]
      unfold NoFailure
      generalize hturn : relay.turn handler t = turned
      cases hturn ▸ turn_ends handler relay t with
      | returns code text state hfails =>
          exact .returns code text state fun h => h.1 hfails
      | finishes last hnot hreaped =>
          refine .finishes last (not_not.mpr ⟨hnot, ?_⟩) hreaped
          intro next hnext
          cases hnext
      | goesOn next hnot =>
          have hiff : (¬ next.NoFailure handler turns) ↔
              ¬ (¬ relay.TurnFails handler t ∧
                ∀ following, (.ok next : Except (Exit σ) (Relay σ)) = .ok following →
                  following.NoFailure handler turns) := by
            simp [hnot]
          exact (ih next).congr hiff

/-! ## §3  What a run has seen -/

variable (handler) in
/-- A turn reaps the child, be it one that returns afterwards. -/
def reaps : Relay σ → List Turn → Bool
  | relay, [] => relay.childReaped
  | relay, t :: turns =>
      match relay.turn handler t with
      | .ok next => reaps next turns
      | .error (.finished last) => last.childReaped
      | .error (.returned _ _ _) => relay.childReaped || t.waited == .reaped

/-- The turn gets to where it reads `termination_signal`. -/
def readsSignal (relay : Relay σ) (t : Turn) : Bool :=
  !(relay.childReaped && !relay.stdoutRead && relay.outputs.toClient.isEmpty) &&
    (relay.childReaped || t.waited != .failed)

variable (handler) in
/-- A turn finds a termination signal. -/
def seesSignal : Relay σ → List Turn → Bool
  | _, [] => false
  | relay, t :: turns =>
      relay.readsSignal t && t.terminationSignal ||
        match relay.turn handler t with
        | .ok next => seesSignal next turns
        | .error _ => false

theorem reaps_of_finished {turns : List Turn} {last : Relay σ}
    (h : relay.run handler turns = .error (.finished last)) :
    relay.reaps handler turns = true := by
  induction turns generalizing relay with
  | nil => cases h
  | cons t turns ih =>
      rw [run_cons] at h
      unfold reaps
      generalize hturn : relay.turn handler t = turned at h
      cases hturn ▸ turn_ends handler relay t with
      | returns code text state hfails => cases h
      | finishes last hnot hreaped => exact hreaped
      | goesOn next hnot => exact ih h

theorem signal_of_seesSignal {turns : List Turn} (h : relay.seesSignal handler turns = true) :
    ∃ t ∈ turns, t.terminationSignal = true := by
  induction turns generalizing relay with
  | nil => cases h
  | cons t turns ih =>
      unfold seesSignal at h
      rcases Bool.or_eq_true_iff.mp h with hnow | hlater
      · exact ⟨t, List.mem_cons_self, (Bool.and_eq_true_iff.mp hnow).2⟩
      · split at hlater
        · obtain ⟨later, hmem, hsignal⟩ := ih hlater
          exact ⟨later, List.mem_cons_of_mem t hmem, hsignal⟩
        · cases hlater

end Relay

/-! ## §4  Reports -/

/-- One of the reads behind the loop finds a signal. -/
def SignalReads.Seen (signals : SignalReads) : Prop :=
  signals.proxy ≠ 0 ∨ signals.clean ≠ 0 ∨ signals.reason ≠ 0

/-- No signal is forgotten, so that the last read tells. -/
theorem SignalReads.seen_iff (signals : SignalReads) : signals.Seen ↔ signals.reason ≠ 0 := by
  constructor
  · rintro (hproxy | hclean | hreason)
    · exact signals.keptReason (signals.keptClean hproxy)
    · exact signals.keptReason hclean
    · exact hreason
  · exact fun hreason => Or.inr (Or.inr hreason)

theorem exitCodeFromStatus_eq_zero (status : ChildStatus) :
    exitCodeFromStatus status = 0 ↔ status = .exited 0 := by
  cases status <;> simp [exitCodeFromStatus]

namespace Session

variable {σ : Type} (session : Session) (handler : Option (ClientMessageHandler σ))
  (config : RunConfig) (handlerState : σ)

/-- The loop is entered. -/
def relayStarted : Bool := !(session.nonblockingFails || session.allocationFails)

def observed : Option ChildStatus :=
  if session.relayStarted ∧
      (Relay.fresh config handlerState).reaps handler session.turns = true then
    some session.childStatus
  else none

/-- The loop or, behind it, one of the last reads finds a signal. -/
def SignalSeen : Prop :=
  session.relayStarted ∧
    ((Relay.fresh config handlerState).seesSignal handler session.turns = true ∨
      (∃ last, (Relay.fresh config handlerState).run handler session.turns =
        .error (.finished last)) ∧ session.signals.Seen)

/-- What is reported is what happened. -/
structure Truthful (returned : Int) (result : RunResult) : Prop where
  proxyExitStatus : result.proxyExitStatus = returned
  childExitStatus : ∀ status, session.observed handler config handlerState = some status →
    result.childExitStatus = exitCodeFromStatus status
  terminationReason : result.terminationReason = "startup_failure" →
    session.relayStarted = false
  cleanShutdown : result.cleanShutdown = true ↔
    session.childStatus = .exited 0 ∧ ¬ session.SignalSeen handler config handlerState

/-- The relay never starts and the child has not left in peace; or no turn meets a
failure, and no signal comes between the last two reads when they tell what happened. -/
def Orderly : Prop :=
  session.relayStarted = false ∧ session.childStatus ≠ .exited 0 ∨
    session.relayStarted = true ∧
      (Relay.fresh config handlerState).NoFailure handler session.turns ∧
      (session.childStatus = .exited 0 → session.signals.clean = 0 →
        session.signals.reason = 0)

variable {session handler config handlerState}

theorem signalSeen_of_finished (hstarted : session.relayStarted = true) {last : Relay σ}
    (hrun : (Relay.fresh config handlerState).run handler session.turns =
      .error (.finished last)) :
    session.SignalSeen handler config handlerState ↔ session.signals.reason ≠ 0 := by
  rw [← session.signals.seen_iff]
  constructor
  · rintro ⟨-, hsees | ⟨-, hseen⟩⟩
    · exact Or.inl (session.kept (Relay.signal_of_seesSignal hsees))
    · exact hseen
  · exact fun hseen => ⟨hstarted, Or.inr ⟨⟨last, hrun⟩, hseen⟩⟩

theorem truthful_unstarted (hstarted : session.relayStarted = false) :
    session.Truthful handler config handlerState 4 { childStarted := true } ↔
      session.Orderly handler config handlerState := by
  unfold Orderly
  rw [hstarted]
  constructor
  · intro h
    refine Or.inl ⟨rfl, fun hexited => ?_⟩
    refine Bool.false_ne_true (h.cleanShutdown.mpr ⟨hexited, ?_⟩)
    exact fun hseen => Bool.false_ne_true (hstarted ▸ hseen.1)
  · rintro (⟨-, hexited⟩ | ⟨hfalse, -⟩)
    · refine ⟨rfl, fun status hobserved => ?_, fun _ => hstarted, ?_⟩
      · simp [observed, hstarted] at hobserved
      · exact ⟨fun hclean => absurd hclean Bool.false_ne_true,
          fun h => absurd h.1 hexited⟩
    · cases hfalse

/-- A report of the result as it was in front of the loop blames the start. -/
theorem not_truthful_returned (hstarted : session.relayStarted = true) (returned : Int) :
    ¬ session.Truthful handler config handlerState returned { childStarted := true } := by
  intro h
  exact Bool.false_ne_true ((h.terminationReason rfl).symm.trans hstarted)

theorem finalResult_reason (session : Session) :
    session.finalResult.terminationReason ≠ "startup_failure" := by
  unfold finalResult
  dsimp only
  split
  · decide
  · split
    · decide
    · decide

theorem finalResult_clean (session : Session) :
    session.finalResult.cleanShutdown = true ↔
      session.signals.clean = 0 ∧ session.childStatus = .exited 0 := by
  rw [← exitCodeFromStatus_eq_zero]
  simp [finalResult]

theorem truthful_finished (hstarted : session.relayStarted = true) {last : Relay σ}
    (hrun : (Relay.fresh config handlerState).run handler session.turns =
      .error (.finished last)) :
    session.Truthful handler config handlerState session.finalResult.proxyExitStatus
        session.finalResult ↔
      (session.childStatus = .exited 0 → session.signals.clean = 0 →
        session.signals.reason = 0) := by
  have hclean : (session.finalResult.cleanShutdown = true ↔
      session.childStatus = .exited 0 ∧
        ¬ session.SignalSeen handler config handlerState) ↔
      (session.childStatus = .exited 0 → session.signals.clean = 0 →
        session.signals.reason = 0) := by
    rw [finalResult_clean, signalSeen_of_finished hstarted hrun]
    have hkept := session.signals.keptReason
    constructor
    · intro h hexited hzero
      exact not_not.mp (h.mp ⟨hzero, hexited⟩).2
    · intro h
      constructor
      · rintro ⟨hzero, hexited⟩
        exact ⟨hexited, not_not.mpr (h hexited hzero)⟩
      · rintro ⟨hexited, hreason⟩
        exact ⟨not_not.mp fun hne => hreason (hkept hne), hexited⟩
  constructor
  · exact fun h => hclean.mp h.cleanShutdown
  · intro h
    refine ⟨rfl, fun status hobserved => ?_, fun heq => ?_, hclean.mpr h⟩
    · unfold observed at hobserved
      rw [if_pos ⟨hstarted, Relay.reaps_of_finished hrun⟩] at hobserved
      cases hobserved
      rfl
    · exact absurd heq (finalResult_reason session)

/-- The observer is told once that the child has finished; what it is told is true if and
only if the session is orderly. -/
theorem session_end_truthful_iff {returned : Int} {calls : List ObserverCall}
    (h : session.runStdioChild handler config handlerState = some (returned, calls)) :
    ∃ result, calls.filterMap ObserverCall.finishedWith = [result] ∧
      (session.Truthful handler config handlerState returned result ↔
        session.Orderly handler config handlerState) := by
  unfold runStdioChild at h
  cases hstarted : session.relayStarted with
  | false =>
      have hreport : some (report 4 { childStarted := true }) = some (returned, calls) := by
        rw [← h]
        cases hnonblocking : session.nonblockingFails with
        | true => rfl
        | false =>
            have hallocation : session.allocationFails = true := by
              simpa [relayStarted, hnonblocking] using hstarted
            simp [hallocation]
      cases hreport
      exact ⟨_, rfl, truthful_unstarted hstarted⟩
  | true =>
      have hboth : session.nonblockingFails = false ∧ session.allocationFails = false := by
        simpa [relayStarted] using hstarted
      simp only [hboth.1, hboth.2, Bool.false_eq_true, if_false] at h
      generalize hrun : (Relay.fresh config handlerState).run handler session.turns = ended
        at h
      cases hrun ▸ Relay.run_ends handler (Relay.fresh config handlerState)
        session.turns with
      | goesOn next hnot => cases h
      | returns code text state hfails =>
          cases h
          refine ⟨_, rfl, iff_of_false (not_truthful_returned hstarted _) ?_⟩
          rintro (⟨hfalse, -⟩ | ⟨-, hfailure, -⟩)
          · exact Bool.false_ne_true (hfalse.symm.trans hstarted)
          · exact hfails hfailure
      | finishes last hfailure hreaped =>
          dsimp only at h
          rw [if_neg (fun hwait => hwait.1 hreaped)] at h
          cases h
          refine ⟨_, rfl, (truthful_finished hstarted hrun).trans ?_⟩
          unfold Orderly
          simp [hstarted, not_not.mp hfailure]

/-- The child exits with 0 and closes its output. -/
def peacefulSession : Session where
  turns := [{ waited := .reaped, polled := .ready { childStdout := some .endOfFile } },
    { polled := .timeout }]
  childStatus := .exited 0
  kept := by decide

theorem session_end_truthful_iff_example :
    ∃ result, ((report 0 peacefulSession.finalResult).2.filterMap
        ObserverCall.finishedWith) = [result] ∧
      (peacefulSession.Truthful none {} () 0 result ↔
        peacefulSession.Orderly none {} ()) :=
  session_end_truthful_iff (by decide +kernel)

/-- The client closes its end in the middle of a message; the child ends as it is
killed. -/
def cutSession : Session where
  turns := [{ polled := .ready { stdin := some (.data ⟨[0x7b], by decide⟩) } },
    { polled := .ready { stdin := some .endOfFile } }]
  childStatus := .signaled 9
  kept := by decide

/-- The run returns 3, reports 4 and blames the start, behind a relay that has run. -/
theorem cut_session_misreports :
    cutSession.runStdioChild none {} () = some (3, [.childStarted, .childFinished
      { proxyExitStatus := 4
        childExitStatus := -1
        childStarted := true
        cleanShutdown := false
        terminationReason := "startup_failure" }]) ∧
      cutSession.relayStarted = true ∧
      ¬ ∀ (session : Session) (returned : Int) (calls : List ObserverCall),
        session.runStdioChild none {} () = some (returned, calls) →
          ∃ result, calls.filterMap ObserverCall.finishedWith = [result] ∧
            session.Truthful none {} () returned result := by
  have hrun : cutSession.runStdioChild none {} () =
      some (report 3 { childStarted := true }) := by decide +kernel
  refine ⟨hrun, rfl, fun hclaim => ?_⟩
  obtain ⟨result, hresult, htruthful⟩ := hclaim cutSession _ _ hrun
  cases hresult
  exact absurd htruthful.proxyExitStatus (by decide)

end Session

end NativeGuard.Process

import NativeGuard.Data.Options
import NativeGuard.Io.LineFramer
import NativeGuard.Process.AuditedRun

/-!
# The `relay` subcommand (`run_relay` in `src/main.cpp`)

The standard input goes through a framer to the standard output. However it is cut into
reads, a run succeeds exactly for lines that are all short enough and all ended, and then
has written them all; whatever it fails of, it has written a beginning of the messages in
front of that and nothing else (`relay_result`).
-/

namespace NativeGuard.Process

open Json Json.Scan Data Io LineFramer

/-! ## §1  The command line -/

/-- `parse_size`. -/
abbrev parseSize (text : Bytes) : Option Nat := parseBoundedInteger text

inductive RelayOption where
  | discard
  | maxMessageBytes
deriving DecidableEq, Repr

def RelayOption.word : RelayOption → Bytes
  | discard => ascii "--discard"
  | maxMessageBytes => ascii "--max-message-bytes"

inductive RelayRefusal where
  | invalidMaxMessageBytes
  | unknown (argument : Bytes)
deriving DecidableEq, Repr

/-- The locals of `run_relay` that the loop sets. -/
structure RelayOptions where
  maxMessageBytes : Nat := 1024 * 1024
  discard : Bool := false
deriving DecidableEq, Repr

def findRelayOption (argument : Bytes) : Except RelayRefusal RelayOption :=
  if argument = ascii "--discard" then .ok .discard
  else if argument = ascii "--max-message-bytes" then .ok .maxMessageBytes
  else .error (.unknown argument)

/-- Both options may be given again; the last value counts. -/
def relaySwitch : RelayOption → Switch RelayRefusal RelayOptions Bytes
  | .discard => .flag fun options => .ok { options with discard := true }
  | .maxMessageBytes =>
      .reading .invalidMaxMessageBytes (fun _ => false) parseSize
        fun options value => { options with maxMessageBytes := value }

def readRelayArguments (arguments : List Bytes) : Except RelayRefusal RelayOptions := do
  let (options, _) ← readOptions findRelayOption relaySwitch (fun _ => false) {} arguments
  .ok options

def ValidRelayOption : Written RelayOption Bytes → Prop
  | .flag name => name = .discard
  | .valued name value => name = .maxMessageBytes ∧ (parseSize value).isSome = true

/-- The locals, looked up in the options. -/
def relayOptionsOf (options : List (Written RelayOption Bytes)) : RelayOptions where
  maxMessageBytes :=
    ((valuesOf .maxMessageBytes options).getLast?.bind parseSize).getD (1024 * 1024)
  discard := decide (.flag .discard ∈ options)

/-- The words of a command line of `relay`. -/
structure IsRelayLine (arguments : List Bytes) (options : List (Written RelayOption Bytes)) :
    Prop where
  words : arguments = options.flatMap (Written.words RelayOption.word)
  valid : ∀ option ∈ options, ValidRelayOption option

theorem relayOption_spelling : Spelling findRelayOption RelayOption.word fun _ => false where
  find_iff := by
    intro w name
    constructor
    · intro h
      unfold findRelayOption at h
      split_ifs at h with h₁ h₂ <;> cases h
      · exact h₁
      · exact h₂
    · rintro rfl
      cases name <;> rfl
  not_stop := fun _ => rfl

theorem relayOptions_records :
    Records relaySwitch (fun _ => False) ValidRelayOption relayOptionsOf := by
  intro options option s' hformed
  cases option with
  | flag name =>
      cases name with
      | discard =>
          have hset : setOption relaySwitch (relayOptionsOf options) (.flag .discard) =
              some (relayOptionsOf (options ++ [.flag .discard])) := by
            simp [setOption, relaySwitch, relayOptionsOf, valuesOf, Written.valueOf,
              Except.toOption]
          rw [hset, Option.some.injEq, eq_comm]
          refine (and_iff_right ?_).symm
          exact wellFormed_append_singleton.mpr ⟨hformed, rfl, False.elim⟩
      | maxMessageBytes =>
          have hnone : setOption relaySwitch (relayOptionsOf options)
              (.flag .maxMessageBytes) = none := rfl
          rw [hnone]
          refine iff_of_false (Option.some_ne_none s').symm fun h => ?_
          cases h.1.valid _ (List.mem_append_right _ List.mem_cons_self)
  | valued name value =>
      cases name with
      | discard =>
          have hnone : setOption relaySwitch (relayOptionsOf options) (.valued .discard value) =
            none := rfl
          rw [hnone]
          refine iff_of_false (Option.some_ne_none s').symm fun h => ?_
          cases (h.1.valid _ (List.mem_append_right _ List.mem_cons_self)).1
      | maxMessageBytes =>
          have hswitch : relaySwitch .maxMessageBytes = .reading .invalidMaxMessageBytes
            (fun _ => false) parseSize fun options value =>
              { options with maxMessageBytes := value } := rfl
          refine records_again hswitch hformed id (and_iff_right rfl).symm (fun r hr => ?_) s'
          simp [relayOptionsOf, valuesOf, Written.valueOf, hr]

theorem readRelayArguments_ok_iff {arguments : List Bytes} {locals : RelayOptions} :
    readRelayArguments arguments = .ok locals ↔
      ∃ options, IsRelayLine arguments options ∧ locals = relayOptionsOf options := by
  have hread := fun (locals : RelayOptions) (rest : List Bytes) =>
    @readOptions_all_iff _ _ _ _ findRelayOption relaySwitch RelayOption.word _ _
      relayOptionsOf relayOption_spelling relayOptions_records locals arguments rest
  unfold readRelayArguments
  rw [except_bind_ok]
  constructor
  · rintro ⟨⟨found, rest⟩, hfound, hlocals⟩
    cases hlocals
    obtain ⟨options, hwords, hformed, rfl, -⟩ := (hread _ _).mp hfound
    exact ⟨options, ⟨hwords, hformed.valid⟩, rfl⟩
  · rintro ⟨options, hline, rfl⟩
    have hformed : WellFormed (fun _ => False) ValidRelayOption options :=
      ⟨hline.valid, List.pairwise_of_forall fun _ _ => False.elim⟩
    exact ⟨_, (hread _ []).mpr ⟨options, hline.words, hformed, rfl, rfl⟩, rfl⟩

/-- A limit that is read is positive. -/
theorem relayOptionsOf_pos {options : List (Written RelayOption Bytes)} :
    0 < (relayOptionsOf options).maxMessageBytes := by
  unfold relayOptionsOf
  dsimp only
  cases hvalue : (valuesOf .maxMessageBytes options).getLast?.bind parseSize with
  | none => exact Nat.succ_pos _
  | some value =>
      obtain ⟨text, -, hparse⟩ := Option.bind_eq_some_iff.mp hvalue
      rw [Option.getD_some]
      exact Nat.pos_of_ne_zero (parseBoundedInteger_ne_zero hparse)

/-! ## §2  `run_relay` -/

inductive RelayError where
  | options (refusal : RelayRefusal)
  | framing (status : Status)
  | stdoutWrite
  | stdinRead

/-- What an output function of `std::cout` meets: the buffer takes its characters, or the
stream fails, and of all that it was ever given so many characters have come through. -/
inductive Output where
  | taken
  | fails (through : Nat)
deriving DecidableEq, Repr

/-- `std::cout`: what it has taken, and what its next output functions meet. -/
structure OutStream where
  answers : List Output
  taken : Bytes := []
  good : Bool := true

/-- `write` and `put`. A stream that has failed takes nothing more. -/
def OutStream.write (out : OutStream) (text : Bytes) : OutStream :=
  if out.good = false then out
  else
    match out.answers with
    | [] => { out with taken := out.taken ++ text }
    | .taken :: answers => { out with answers := answers, taken := out.taken ++ text }
    | .fails through :: answers =>
        { answers := answers, taken := (out.taken ++ text).take through, good := false }

/-- The reads up to the end of the input, whether that is an error, and the output. -/
structure RelayWorld where
  reads : List Bytes
  stdinBad : Bool := false
  stdout : List Output := []

/-- The framer, the counters, and the output. -/
structure RelayState where
  framer : LineFramer
  messages : UInt64 := 0
  payloadBytes : UInt64 := 0
  stdout : OutStream

/-- What the framer calls with each message. -/
def RelayState.sink (discard : Bool) (st : RelayState) (message : Bytes) : RelayState :=
  { st with
    messages := st.messages + 1
    payloadBytes := st.payloadBytes + UInt64.ofNat message.length
    stdout := if discard = true then st.stdout else (st.stdout.write message).write [newline] }

/-- The loop over the reads. -/
def relayReads (discard : Bool) :
    RelayState → List Bytes → RelayState × Except RelayError Unit
  | st, [] => (st, .ok ())
  | st, input :: reads =>
      let fed := st.framer.feed input
      let st := fed.messages.foldl (RelayState.sink discard) { st with framer := fed.framer }
      if fed.status.code ≠ .ok then (st, .error (.framing fed.status))
      else if st.stdout.good = false then (st, .error .stdoutWrite)
      else relayReads discard st reads

/-- What the output has taken, and the counters or where the run fails. A last flush that
fails behind the run is not noticed. -/
def runRelay (world : RelayWorld) (arguments : List Bytes) :
    Bytes × Except RelayError (UInt64 × UInt64) :=
  match readRelayArguments arguments with
  | .error refusal => ([], .error (.options refusal))
  | .ok options =>
      let (st, result) := relayReads options.discard
        { framer := fresh { maxMessageBytes := options.maxMessageBytes }
          stdout := { answers := world.stdout } } world.reads
      match result with
      | .error e => (st.stdout.taken, .error e)
      | .ok () =>
          if world.stdinBad = true then (st.stdout.taken, .error .stdinRead)
          else
            let finished := st.framer.finish
            if finished.status.code ≠ .ok then
              (st.stdout.taken, .error (.framing finished.status))
            else (st.stdout.taken, .ok (st.messages, st.payloadBytes))

/-! ## §3  What the output takes -/

section output

variable {out : OutStream}

/-- Once it has failed, it stays as it is. -/
theorem writes_of_failed (hfailed : out.good = false) (texts : List Bytes) :
    texts.foldl OutStream.write out = out := by
  induction texts with
  | nil => rfl
  | cons text texts ih =>
      rw [List.foldl_cons, OutStream.write, if_pos hfailed]
      exact ih

/-- What has been taken is a beginning of what was to be written, and all of it while the
stream is good, which it stays exactly until it meets a failure. -/
theorem writes_taken (hgood : out.good = true) (texts : List Bytes) :
    (texts.foldl OutStream.write out).taken <+: out.taken ++ texts.flatten ∧
      ((texts.foldl OutStream.write out).good = true →
        (texts.foldl OutStream.write out).taken = out.taken ++ texts.flatten) ∧
      ((texts.foldl OutStream.write out).good = true ↔
        ∀ answer ∈ out.answers.take texts.length, answer = .taken) := by
  induction texts generalizing out with
  | nil =>
      rw [List.flatten_nil, List.append_nil]
      exact ⟨List.prefix_rfl, fun _ => rfl, iff_of_true hgood nofun⟩
  | cons text texts ih =>
      rw [List.foldl_cons, List.flatten_cons, ← List.append_assoc, OutStream.write,
        if_neg (ne_false_of_eq_true hgood), List.length_cons]
      cases hanswers : out.answers with
      | nil =>
          obtain ⟨hbegins, hall, hmeets⟩ :=
            @ih { out with answers := [], taken := out.taken ++ text } hgood
          rw [List.take_nil] at hmeets ⊢
          exact ⟨hbegins, hall, hmeets⟩
      | cons answer answers =>
          rw [List.take_succ_cons, List.forall_mem_cons]
          cases answer with
          | taken =>
              obtain ⟨hbegins, hall, hmeets⟩ :=
                @ih { out with answers := answers, taken := out.taken ++ text } hgood
              exact ⟨hbegins, hall, hmeets.trans (and_iff_right rfl).symm⟩
          | fails through =>
              dsimp only
              rw [writes_of_failed rfl]
              refine ⟨?_, fun hgood => absurd hgood nofun, iff_of_false nofun fun h => nomatch h.1⟩
              exact (List.take_prefix _ _).trans (List.prefix_append _ _)

end output

/-! ## §4  What a run does -/

/-- The input, however it is cut. -/
def RelayWorld.stream (world : RelayWorld) : Bytes := world.reads.flatten

/-- What the output functions are called with for messages. -/
def relayTexts (discard : Bool) (messages : List Bytes) : List Bytes :=
  if discard = true then [] else messages.flatMap fun message => [message, [newline]]

/-- What is written for messages. -/
def relayText (discard : Bool) (messages : List Bytes) : Bytes :=
  if discard = true then [] else messages.flatMap (· ++ [newline])

theorem relayTexts_flatten (discard : Bool) (messages : List Bytes) :
    (relayTexts discard messages).flatten = relayText discard messages := by
  cases discard with
  | true => rfl
  | false =>
      show (messages.flatMap _).flatten = messages.flatMap _
      induction messages with
      | nil => rfl
      | cons message messages ih => simp [ih]

theorem relayTexts_append (discard : Bool) (messages messages' : List Bytes) :
    relayTexts discard (messages ++ messages') =
      relayTexts discard messages ++ relayTexts discard messages' := by
  cases discard with
  | true => rfl
  | false => exact List.flatMap_append

/-- `std::cout` behind messages. -/
def outputOf (answers : List Output) (discard : Bool) (messages : List Bytes) : OutStream :=
  (relayTexts discard messages).foldl OutStream.write { answers := answers }

/-- None of the output functions that messages need fails. -/
def OutputTaken (answers : List Output) (discard : Bool) (messages : List Bytes) : Prop :=
  ∀ answer ∈ answers.take (relayTexts discard messages).length, answer = .taken

instance (answers : List Output) (discard : Bool) (messages : List Bytes) :
    Decidable (OutputTaken answers discard messages) := by
  unfold OutputTaken
  infer_instance

theorem outputOf_taken (answers : List Output) (discard : Bool) (messages : List Bytes) :
    (outputOf answers discard messages).taken <+: relayText discard messages ∧
      ((outputOf answers discard messages).good = true →
        (outputOf answers discard messages).taken = relayText discard messages) ∧
      ((outputOf answers discard messages).good = true ↔
        OutputTaken answers discard messages) := by
  rw [← relayTexts_flatten]
  exact @writes_taken { answers := answers } rfl (relayTexts discard messages)

/-- A loop that has read the stream `s`. -/
structure Relayed (answers : List Output) (config : Config) (discard : Bool) (s : Bytes)
    (st : RelayState) : Prop where
  after : After config s (emitted config s) st.framer
  messages : st.messages = UInt64.ofNat (emitted config s).length
  payloadBytes : st.payloadBytes = UInt64.ofNat (emitted config s).flatten.length
  stdout : st.stdout = outputOf answers discard (emitted config s)

theorem sink_foldl (discard : Bool) (st : RelayState) (messages : List Bytes) :
    messages.foldl (RelayState.sink discard) st = { st with
      messages := st.messages + UInt64.ofNat messages.length
      payloadBytes := st.payloadBytes + UInt64.ofNat messages.flatten.length
      stdout := (relayTexts discard messages).foldl OutStream.write st.stdout } := by
  induction messages generalizing st with
  | nil => simp [relayTexts]
  | cons message messages ih =>
      rw [List.foldl_cons, ih]
      cases discard with
      | true => simp [RelayState.sink, relayTexts, UInt64.add_assoc, UInt64.add_comm]
      | false => simp [RelayState.sink, relayTexts, UInt64.add_assoc, UInt64.add_comm]

section reads

variable {answers : List Output} {config : Config} {discard : Bool} {s : Bytes}
  {st : RelayState}

/-- One read: the messages that it completes go to the output behind the others. -/
theorem relayed_read (h : Relayed answers config discard s st) (bytes : Bytes) :
    Relayed answers config discard (s ++ bytes)
        ((st.framer.feed bytes).messages.foldl (RelayState.sink discard)
          { st with framer := (st.framer.feed bytes).framer }) ∧
      (st.framer.feed bytes).status = streamStatus config (s ++ bytes) := by
  obtain ⟨hafter, hstatus⟩ := feed_after h.after bytes
  have hemits := hafter.emits
  rw [sink_foldl]
  refine ⟨⟨?_, ?_, ?_, ?_⟩, hstatus⟩
  · rw [hemits] at hafter
    exact hafter
  · rw [← hemits, List.length_append, UInt64.ofNat_add, h.messages]
  · rw [← hemits, List.flatten_append, List.length_append, UInt64.ofNat_add, h.payloadBytes]
  · rw [← hemits, h.stdout, outputOf, outputOf, relayTexts_append, List.foldl_append]

/-- What more messages need is met only if what the first of them need is. -/
theorem outputTaken_append {messages messages' : List Bytes}
    (h : OutputTaken answers discard (messages ++ messages')) :
    OutputTaken answers discard messages := by
  intro answer hmem
  refine h answer ?_
  rw [relayTexts_append, List.length_append, List.take_add]
  exact List.mem_append_left _ hmem

/-- All the reads: the loop ends well exactly if each of them does. -/
theorem relayed_reads (h : Relayed answers config discard s st)
    (hfits : ¬ Overlong newline config.maxMessageBytes s) (hgood : st.stdout.good = true)
    (reads : List Bytes) :
    (∃ fed, fed <+: s ++ reads.flatten ∧
      Relayed answers config discard fed (relayReads discard st reads).1) ∧
    ((relayReads discard st reads).2 = .ok () ↔
      OutputTaken answers discard (emitted config (s ++ reads.flatten)) ∧
        ¬ Overlong newline config.maxMessageBytes (s ++ reads.flatten)) ∧
    ((relayReads discard st reads).2 = .ok () → Relayed answers config discard
      (s ++ reads.flatten) (relayReads discard st reads).1) := by
  induction reads generalizing s st with
  | nil =>
      rw [List.flatten_nil, List.append_nil]
      rw [h.stdout] at hgood
      have htaken := (outputOf_taken answers discard (emitted config s)).2.2.mp hgood
      exact ⟨⟨s, List.prefix_rfl, h⟩, iff_of_true rfl ⟨htaken, hfits⟩, fun _ => h⟩
  | cons bytes reads ih =>
      obtain ⟨hnext, hstatus⟩ := relayed_read h bytes
      rw [List.flatten_cons, ← List.append_assoc, relayReads]
      have hbegins : s ++ bytes <+: s ++ bytes ++ reads.flatten := List.prefix_append _ _
      by_cases hover : Overlong newline config.maxMessageBytes (s ++ bytes)
      · -- the framer has failed, and no read takes that back
        have hfailed : messageTooLarge.code ≠ .ok := by decide
        rw [hstatus, streamStatus, if_pos hover, if_pos hfailed]
        refine ⟨⟨_, hbegins, hnext⟩, iff_of_false ?_ fun hok => ?_, fun hok => ?_⟩
        · rintro ⟨⟩
        · exact hok.2 (overlong_append hover _).1
        · cases hok
      · rw [hstatus, streamStatus, if_neg hover, if_neg (not_not.mpr rfl)]
        split
        · rename_i hbad
          refine ⟨⟨_, hbegins, hnext⟩, iff_of_false ?_ fun hok => ?_, fun hok => ?_⟩
          · rintro ⟨⟩
          · -- the messages so far are a beginning of all of them
            have htaken := hok.1
            rw [emitted, shortLines_append hover, List.map_append] at htaken
            rw [hnext.stdout] at hbad
            have hgood := (outputOf_taken answers discard (emitted config (s ++ bytes))).2.2.mpr
              (outputTaken_append htaken)
            exact Bool.false_ne_true (hbad.symm.trans hgood)
          · cases hok
        · rename_i hgood
          exact ih hnext hover (eq_true_of_ne_false hgood)

theorem relayed_fresh (answers : List Output) (config : Config) (discard : Bool) :
    Relayed answers config discard []
      { framer := fresh config, stdout := { answers := answers } } where
  after := by
    refine ⟨rfl, rfl, fun h => ?_, fun _ => ⟨rfl, rfl⟩⟩
    exact absurd ((overlong_of_not_mem List.not_mem_nil).mp h) (Nat.not_lt_zero _)
  messages := rfl
  payloadBytes := rfl
  stdout := by cases discard <;> rfl

/-- The loop from its start. -/
theorem relayed_loop (config : Config) (discard : Bool) (world : RelayWorld) :
    let loop := relayReads discard
      { framer := fresh config, stdout := { answers := world.stdout } } world.reads
    (∃ fed, fed <+: world.stream ∧ Relayed world.stdout config discard fed loop.1) ∧
    (loop.2 = .ok () ↔ OutputTaken world.stdout discard (emitted config world.stream) ∧
      ¬ Overlong newline config.maxMessageBytes world.stream) ∧
    (loop.2 = .ok () → Relayed world.stdout config discard world.stream loop.1) := by
  refine relayed_reads (relayed_fresh _ config discard) (fun h => ?_) rfl world.reads
  exact absurd ((overlong_of_not_mem List.not_mem_nil).mp h) (Nat.not_lt_zero _)

end reads

section line

variable {world : RelayWorld} {arguments : List Bytes} {options : List (Written RelayOption Bytes)}
  (hline : IsRelayLine arguments options)
include hline

/-- The limit of a command line. -/
def relayConfig (options : List (Written RelayOption Bytes)) : Config :=
  { maxMessageBytes := (relayOptionsOf options).maxMessageBytes }

/-- The messages of a stream under that limit. -/
def relayMessages (options : List (Written RelayOption Bytes)) (s : Bytes) : List Bytes :=
  emitted (relayConfig options) s

/-- What the output has taken is of the messages of what has been read. -/
theorem relay_written {written : Bytes} {result : Except RelayError (UInt64 × UInt64)}
    (h : runRelay world arguments = (written, result)) :
    ∃ fed, fed <+: world.stream ∧
      written <+: relayText (relayOptionsOf options).discard (relayMessages options fed) ∧
        (OutputTaken world.stdout (relayOptionsOf options).discard (relayMessages options fed) →
          written = relayText (relayOptionsOf options).discard (relayMessages options fed)) := by
  obtain ⟨⟨fed, hbegins, hrelayed⟩, -⟩ :=
    relayed_loop (relayConfig options) (relayOptionsOf options).discard world
  obtain ⟨hstart, hall, hgood⟩ := outputOf_taken world.stdout (relayOptionsOf options).discard
    (relayMessages options fed)
  have hout := hrelayed.stdout
  have hwritten : written = (outputOf world.stdout (relayOptionsOf options).discard
      (relayMessages options fed)).taken := by
    rw [relayMessages, ← hout]
    unfold runRelay at h
    rw [readRelayArguments_ok_iff.mpr ⟨options, hline, rfl⟩] at h
    -- every way out hands back what the loop has written
    dsimp only at h
    split at h
    · exact (Prod.mk.inj h).1.symm
    split at h
    · exact (Prod.mk.inj h).1.symm
    split at h
    · exact (Prod.mk.inj h).1.symm
    · exact (Prod.mk.inj h).1.symm
  rw [hwritten]
  exact ⟨fed, hbegins, hstart, fun htaken => hall (hgood.mpr htaken)⟩

/-- The run succeeds exactly if the input is lines, none of them too long, that are read
and taken by the output without an error. -/
theorem relay_ok_iff {written : Bytes} {counts : UInt64 × UInt64} :
    runRelay world arguments = (written, .ok counts) ↔
      OutputTaken world.stdout (relayOptionsOf options).discard
          (relayMessages options world.stream) ∧ world.stdinBad = false ∧
        ¬ Overlong newline (relayOptionsOf options).maxMessageBytes world.stream ∧
          restOf newline world.stream = [] ∧
            written = relayText (relayOptionsOf options).discard
              (relayMessages options world.stream) ∧
              counts = (UInt64.ofNat (relayMessages options world.stream).length,
                UInt64.ofNat (relayMessages options world.stream).flatten.length) := by
  obtain ⟨-, hok, hrelayed⟩ :=
    relayed_loop (relayConfig options) (relayOptionsOf options).discard world
  unfold runRelay
  rw [readRelayArguments_ok_iff.mpr ⟨options, hline, rfl⟩]
  have hconfig : ({ maxMessageBytes := (relayOptionsOf options).maxMessageBytes } : Config) =
    relayConfig options := rfl
  dsimp only
  rw [hconfig]
  unfold relayMessages
  generalize relayReads _ _ world.reads = loop at hok hrelayed ⊢
  obtain ⟨st, result⟩ := loop
  cases result with
  | error e =>
      refine iff_of_false nofun fun h => ?_
      cases hok.mpr ⟨h.1, h.2.2.1⟩
  | ok done =>
      obtain ⟨htaken, hfits⟩ := hok.mp rfl
      have hrelayed := hrelayed rfl
      obtain ⟨-, hall, hgood⟩ := outputOf_taken world.stdout (relayOptionsOf options).discard
        (emitted (relayConfig options) world.stream)
      obtain ⟨-, hcode⟩ := finish_after hrelayed.after
      rw [finalCode, if_neg hfits] at hcode
      dsimp only
      by_cases hbad : world.stdinBad = true
      · rw [if_pos hbad]
        refine iff_of_false nofun fun h => ?_
        exact Bool.false_ne_true (h.2.1.symm.trans hbad)
      rw [if_neg hbad, hcode]
      by_cases hrest : restOf newline world.stream = []
      · rw [if_neg (not_not.mpr hrest), if_neg (not_not.mpr rfl), Prod.mk.injEq, Except.ok.injEq,
          hrelayed.stdout, hrelayed.messages, hrelayed.payloadBytes, hall (hgood.mpr htaken)]
        constructor
        · rintro ⟨rfl, rfl⟩
          exact ⟨htaken, Bool.not_eq_true _ ▸ hbad, hfits, hrest, rfl, rfl⟩
        · rintro ⟨-, -, -, -, rfl, rfl⟩
          exact ⟨rfl, rfl⟩
      · rw [if_pos hrest, if_pos nofun]
        exact iff_of_false nofun fun h => hrest h.2.2.2.1

end line

/-- Lines that end in no carriage return are written as they are read. -/
theorem relayText_of_plain {config : Config} {s : Bytes}
    (hfits : ¬ Overlong newline config.maxMessageBytes s) (hrest : restOf newline s = [])
    (hplain : ∀ line ∈ linesOf newline s, line.getLast? ≠ some carriageReturn) :
    relayText false (emitted config s) = s := by
  have hemit : ∀ line ∈ linesOf newline s, config.emit line = line := by
    intro line hline
    unfold Config.emit
    rw [if_neg fun h => hplain line hline h.2]
  have hjoin := @lines_join _ _ newline s
  rw [hrest, List.append_nil] at hjoin
  unfold relayText emitted
  rw [if_neg Bool.false_ne_true, shortLines_of_not_overlong hfits, List.map_congr_left hemit,
    List.map_id']
  exact hjoin

/-- The framer can be built of what the options set. -/
theorem create_relayConfig {options : List (Written RelayOption Bytes)} :
    create (relayConfig options) = .ok (fresh (relayConfig options)) :=
  if_neg (Nat.pos_iff_ne_zero.mp relayOptionsOf_pos)

end NativeGuard.Process

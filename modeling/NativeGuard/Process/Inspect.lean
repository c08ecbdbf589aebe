import NativeGuard.Io.LineFramer
import NativeGuard.Protocol.PartialEnvelope
import NativeGuard.Protocol.ResponseAgrees

/-!
# Discovery (`src/inspect.cpp`)

`receive_expected_response` reads until the first line of what the child writes, and
`run_inspect` calls it twice. The bytes that a read brings behind the line are dropped
with the buffer, and the size is tested on the whole buffer, so the result may depend
on where the reads end. `discovery_independent_iff` says for which streams it does not.
-/

namespace NativeGuard.Process

open Json Protocol Protocol.Inventory Io

/-! ## §1  Data -/

inductive ReceiveStatus where
  | ok
  | timeout
  | childExited
  | oversized
  | unsolicited
  | wrongId
  | malformed
  | unsupportedJsonrpc
  | ioError
deriving DecidableEq, Repr

/-- What one turn of the loop finds in front of the deadline. -/
inductive Turn where
  | exited
  | failed
  | idle
  | data (bytes : Bytes)
deriving DecidableEq, Repr

/-- The status of a call, and the line that it stores. -/
structure Outcome where
  status : ReceiveStatus
  response : Option Bytes := none
deriving DecidableEq, Repr

structure Received where
  outcome : Outcome
  rest : List Turn := []
deriving DecidableEq, Repr

/-- What `run_inspect` learns from its two calls. -/
@[ext] structure Discovery where
  initialized : Outcome
  listed : Option Outcome
deriving DecidableEq, Repr

def initializeIdJson : Bytes := ascii "\"inspect-init\""
def toolsListIdJson : Bytes := ascii "\"inspect-list\""

namespace Inspect

variable (limits : InventoryLimits) (expectedIdJson : Bytes)

/-- `max_message_bytes + 1U`, in `size_t`. -/
def room : Nat := (limits.maxMessageBytes + 1) % 2 ^ 64

/-! ## §2  `receive_expected_response` -/

/-- What the loop makes of a line. -/
def judge (line : Bytes) : ReceiveStatus :=
  if line.length > limits.maxMessageBytes then .oversized
  else
    let envelope := classify (classifierLimits limits) line
    if envelope.error ≠ .none then
      if envelope.error = .unsupportedJsonrpcVersion then .unsupportedJsonrpc
      else if envelope.error = .messageTooLarge then .oversized
      else .malformed
    else if envelope.kind ≠ .response then .unsolicited
    else if envelope.idJson ≠ expectedIdJson then .wrongId
    else .ok

def judged (line : Bytes) : Outcome :=
  if judge limits expectedIdJson line = .ok then ⟨.ok, some line⟩
  else ⟨judge limits expectedIdJson line, none⟩

/-- The loop returns at the first line, whatever it is; the turns end at the deadline. -/
def receiveFrom : Bytes → List Turn → Received
  | _, [] => ⟨⟨.timeout, none⟩, []⟩
  | _, .exited :: turns => ⟨⟨.childExited, none⟩, turns⟩
  | _, .failed :: turns => ⟨⟨.ioError, none⟩, turns⟩
  | pending, .idle :: turns => receiveFrom pending turns
  | pending, .data bytes :: turns =>
      let pending := pending ++ bytes
      if pending.length > room limits then ⟨⟨.oversized, none⟩, turns⟩
      else if newline ∈ pending then
        ⟨judged limits expectedIdJson (pending.takeWhile (· ≠ newline)), turns⟩
      else receiveFrom pending turns

def receiveExpectedResponse (turns : List Turn) : Received :=
  receiveFrom limits expectedIdJson [] turns

/-- The two calls of `run_inspect`, with the check of the first response between them. -/
def discover (turns : List Turn) : Discovery :=
  let first := receiveExpectedResponse limits initializeIdJson turns
  match first.outcome.response with
  | none => ⟨first.outcome, none⟩
  | some response =>
      if validateInitializeResponse limits response initializeIdJson = .ok () then
        ⟨first.outcome,
          some (receiveExpectedResponse limits toolsListIdJson first.rest).outcome⟩
      else ⟨first.outcome, none⟩

/-! ## §3  Streams -/

/-- The bytes that one `read` may bring. -/
def readSize : Nat := 4096

def bytesOf : Turn → Bytes
  | .data bytes => bytes
  | _ => []

/-- The turns read the stream `s`, neither an error nor an end of it aside. -/
structure Splits (s : Bytes) (turns : List Turn) : Prop where
  stream : turns.flatMap bytesOf = s
  reads : ∀ turn ∈ turns, turn = .idle ∨
    ∃ bytes, turn = .data bytes ∧ bytes ≠ [] ∧ bytes.length ≤ readSize

def firstLine (s : Bytes) : Bytes := s.takeWhile (· ≠ newline)

/-- What stands behind the newline of the first line. -/
def afterLine (s : Bytes) : Bytes := (s.dropWhile (· ≠ newline)).tail

/-- There is room for the first line and its newline. -/
def Completes (s : Bytes) : Prop := newline ∈ s ∧ (firstLine s).length < room limits

instance (s : Bytes) : Decidable (Completes limits s) :=
  inferInstanceAs (Decidable (_ ∧ _))

/-- What a call returns that reads byte by byte. -/
def verdict (s : Bytes) : Outcome :=
  if Completes limits s then judged limits expectedIdJson (firstLine s)
  else if s.length > room limits then ⟨.oversized, none⟩
  else ⟨.timeout, none⟩

/-- No read that completes the first line brings more than there is room for. -/
def Settled (s : Bytes) : Prop :=
  Completes limits s → (firstLine s).length ≤ limits.maxMessageBytes →
    min s.length ((firstLine s).length + readSize) ≤ room limits

/-- The first line is the answer to `initialize`. -/
def AnswersInitialize (s : Bytes) : Prop :=
  Completes limits s ∧ judge limits initializeIdJson (firstLine s) = .ok ∧
    validateInitializeResponse limits (firstLine s) initializeIdJson = .ok ()

/-- The first line is settled, and if it answers `initialize`, so is what is read
behind it, from whichever of the next bytes the second call starts. -/
def ReadsAlike (s : Bytes) : Prop :=
  Settled limits s ∧ (AnswersInitialize limits s →
    ∀ dropped < readSize, dropped ≤ (afterLine s).length →
      Settled limits ((afterLine s).drop dropped) ∧
        verdict limits toolsListIdJson ((afterLine s).drop dropped) =
          verdict limits toolsListIdJson (afterLine s))

variable {limits expectedIdJson}

theorem firstLine_eq {line : Bytes} (h : newline ∉ line) (rest : Bytes) :
    firstLine (line ++ newline :: rest) = line ∧
      afterLine (line ++ newline :: rest) = rest := by
  have hall : ∀ b ∈ line, decide (b ≠ newline) = true := by
    intro b hb
    exact decide_eq_true fun heq => h (heq ▸ hb)
  have htake : (line ++ newline :: rest).takeWhile (· ≠ newline) = _ :=
    List.takeWhile_append_of_pos hall
  have hdrop : (line ++ newline :: rest).dropWhile (· ≠ newline) = _ :=
    List.dropWhile_append_of_pos hall
  constructor
  · unfold firstLine
    rw [htake]
    simp
  · unfold afterLine
    rw [hdrop]
    simp

/-- A stream with a newline, cut at the first one. -/
theorem stream_cut {s : Bytes} (h : newline ∈ s) :
    newline ∉ firstLine s ∧ s = firstLine s ++ newline :: afterLine s := by
  refine ⟨LineFramer.takeWhile_newline s, ?_⟩
  cases hdrop : s.dropWhile (· ≠ newline) with
  | nil => exact absurd h (LineFramer.not_mem_of_dropWhile hdrop)
  | cons b rest =>
      have hcut := LineFramer.cursor_split hdrop
      unfold afterLine firstLine
      rw [hdrop]
      exact hcut

/-! ## §4  One call -/

theorem judged_tooLong {line : Bytes} (h : limits.maxMessageBytes < line.length) :
    judged limits expectedIdJson line = ⟨.oversized, none⟩ := by
  have hjudge : judge limits expectedIdJson line = .oversized := if_pos h
  unfold judged
  rw [hjudge, if_neg nofun]

/-- The first line of a stream, when no newline has been read yet. -/
theorem length_le_firstLine {pending rest : Bytes} (hpending : newline ∉ pending)
    (h : newline ∈ pending ++ rest) :
    pending.length ≤ (firstLine (pending ++ rest)).length := by
  obtain ⟨hline, hcut⟩ := stream_cut h
  by_contra hlt
  have hstart : firstLine (pending ++ rest) ++ [newline] <+: pending := by
    have hle : (firstLine (pending ++ rest) ++ [newline]).length ≤ pending.length := by
      rw [List.length_append, List.length_singleton]
      omega
    refine List.prefix_of_prefix_length_le ⟨afterLine (pending ++ rest), ?_⟩
      (List.prefix_append pending rest) hle
    rw [List.append_assoc, List.singleton_append]
    exact hcut.symm
  exact hpending (hstart.mem (List.mem_append_right _ List.mem_cons_self))

/-- A settled stream whose next bytes find no room: if its line completes at all, the
line is too long. -/
theorem tooLong_of_no_room {pending bytes rest : Bytes} (hpending : newline ∉ pending)
    (hsettled : Settled limits (pending ++ bytes ++ rest)) (hsize : bytes.length ≤ readSize)
    (hover : room limits < (pending ++ bytes).length)
    (hcomplete : Completes limits (pending ++ bytes ++ rest)) :
    limits.maxMessageBytes < (firstLine (pending ++ bytes ++ rest)).length := by
  by_contra hshort
  have hmin := hsettled hcomplete (Nat.not_lt.mp hshort)
  have hopen : pending.length ≤ (firstLine (pending ++ bytes ++ rest)).length := by
    have hmem := hcomplete.1
    rw [List.append_assoc] at hmem ⊢
    exact length_le_firstLine hpending hmem
  rw [List.length_append] at hmin
  rw [List.length_append] at hover hmin
  omega

/-- A line that the next bytes complete within the room: the stream behind it starts
with what they brought behind the newline. -/
theorem completes_of_mem {pending bytes : Bytes} (rest : Bytes)
    (hroom : (pending ++ bytes).length ≤ room limits) (hmem : newline ∈ pending ++ bytes) :
    Completes limits (pending ++ bytes ++ rest) ∧
      firstLine (pending ++ bytes ++ rest) = firstLine (pending ++ bytes) ∧
      afterLine (pending ++ bytes ++ rest) = afterLine (pending ++ bytes) ++ rest := by
  obtain ⟨hline, hcut⟩ := stream_cut hmem
  have hs : pending ++ bytes ++ rest = firstLine (pending ++ bytes) ++ newline ::
      (afterLine (pending ++ bytes) ++ rest) := by
    conv_lhs => rw [hcut]
    rw [List.append_assoc, List.cons_append]
  obtain ⟨hfirst, hafter⟩ := firstLine_eq hline (afterLine (pending ++ bytes) ++ rest)
  rw [← hs] at hfirst hafter
  have hlength : (pending ++ bytes).length = (firstLine (pending ++ bytes)).length +
      ((afterLine (pending ++ bytes)).length + 1) :=
    (congrArg List.length hcut).trans List.length_append
  refine ⟨⟨List.mem_append_left _ hmem, ?_⟩, hfirst, hafter⟩
  rw [hfirst]
  omega

/-- What the next bytes bring behind the newline is less than a read. -/
theorem afterLine_lt_readSize {pending bytes : Bytes} (hpending : newline ∉ pending)
    (hsize : bytes.length ≤ readSize) (hmem : newline ∈ pending ++ bytes) :
    (afterLine (pending ++ bytes)).length < readSize := by
  obtain ⟨-, hcut⟩ := stream_cut hmem
  have hlength : (pending ++ bytes).length = (firstLine (pending ++ bytes)).length +
      ((afterLine (pending ++ bytes)).length + 1) :=
    (congrArg List.length hcut).trans List.length_append
  have hopen : pending.length ≤ (firstLine (pending ++ bytes)).length :=
    length_le_firstLine hpending hmem
  rw [List.length_append] at hlength
  omega

/-- A call on a settled stream returns the verdict on it, and leaves what stands behind
the line, without the bytes that the last read brought. The induction is on the turns. -/
theorem receiveFrom_settled {s pending : Bytes} {turns : List Turn}
    (hpending : newline ∉ pending) (hfits : pending.length ≤ room limits)
    (hstream : s = pending ++ turns.flatMap bytesOf) (hsettled : Settled limits s)
    (hreads : ∀ turn ∈ turns, turn = .idle ∨
      ∃ bytes, turn = .data bytes ∧ bytes ≠ [] ∧ bytes.length ≤ readSize) :
    (receiveFrom limits expectedIdJson pending turns).outcome =
        verdict limits expectedIdJson s ∧
      (Completes limits s → (firstLine s).length ≤ limits.maxMessageBytes →
        ∃ dropped < readSize, dropped ≤ (afterLine s).length ∧
          Splits ((afterLine s).drop dropped)
            (receiveFrom limits expectedIdJson pending turns).rest) := by
  induction turns generalizing pending with
  | nil =>
      rw [List.flatMap_nil, List.append_nil] at hstream
      subst hstream
      have hopen : ¬ Completes limits s := fun h => hpending h.1
      refine ⟨?_, fun h => absurd h hopen⟩
      unfold verdict
      rw [if_neg hopen, if_neg (Nat.not_lt.mpr hfits)]
      rfl
  | cons turn turns ih =>
      have hrest : ∀ t ∈ turns, t = .idle ∨
          ∃ bytes, t = .data bytes ∧ bytes ≠ [] ∧ bytes.length ≤ readSize :=
        fun t ht => hreads t (List.mem_cons_of_mem _ ht)
      rw [List.flatMap_cons] at hstream
      rcases hreads turn List.mem_cons_self with rfl | ⟨bytes, rfl, -, hsize⟩
      · exact ih hpending hfits hstream hrest
      have hbytes : s = pending ++ bytes ++ turns.flatMap bytesOf := by
        rw [hstream, List.append_assoc]
        rfl
      subst hbytes
      unfold receiveFrom
      dsimp only
      by_cases hover : (pending ++ bytes).length > room limits
      · -- no room for the read: then the line is too long, or does not complete
        rw [if_pos hover]
        have hlong := tooLong_of_no_room hpending hsettled hsize hover
        constructor
        · unfold verdict
          by_cases hcomplete : Completes limits (pending ++ bytes ++ turns.flatMap bytesOf)
          · rw [if_pos hcomplete, judged_tooLong (hlong hcomplete)]
          · rw [if_neg hcomplete, if_pos]
            rw [List.length_append]
            omega
        · intro hcomplete hshort
          exact absurd (hlong hcomplete) (Nat.not_lt.mpr hshort)
      rw [if_neg hover]
      by_cases hmem : newline ∈ pending ++ bytes
      · -- the read completes the line: what it brought behind the newline is dropped
        rw [if_pos hmem]
        obtain ⟨hcomplete, hfirst, hafter⟩ := completes_of_mem
          (turns.flatMap bytesOf) (Nat.not_lt.mp hover) hmem
        constructor
        · unfold verdict
          rw [if_pos hcomplete, hfirst]
          rfl
        · intro _ _
          refine ⟨(afterLine (pending ++ bytes)).length,
            afterLine_lt_readSize hpending hsize hmem, ?_, ?_⟩
          · rw [hafter, List.length_append]
            omega
          · rw [hafter, List.drop_left]
            exact ⟨rfl, hrest⟩
      · rw [if_neg hmem]
        exact ih hmem (Nat.not_lt.mp hover) rfl hrest

/-! ## §5  Reads of one's choice -/

/-- The stream byte by byte. -/
def singles (s : Bytes) : List Turn := s.map fun b => .data [b]

/-- The first line byte by byte, then its newline together with bytes behind it. -/
def readsWith (s : Bytes) (dropped : Nat) (turns : List Turn) : List Turn :=
  singles (firstLine s) ++ .data (newline :: (afterLine s).take dropped) :: turns

theorem singles_stream (s : Bytes) : (singles s).flatMap bytesOf = s := by
  induction s with
  | nil => rfl
  | cons b s ih =>
      show [b] ++ (singles s).flatMap bytesOf = b :: s
      rw [ih]
      rfl

theorem singles_reads (s : Bytes) : ∀ turn ∈ singles s, turn = .idle ∨
    ∃ bytes, turn = .data bytes ∧ bytes ≠ [] ∧ bytes.length ≤ readSize := by
  intro turn hturn
  rcases List.mem_map.mp hturn with ⟨b, -, rfl⟩
  refine Or.inr ⟨[b], rfl, List.cons_ne_nil b [], ?_⟩
  show 1 ≤ 4096
  omega

theorem splits_singles (s : Bytes) : Splits s (singles s) :=
  ⟨singles_stream s, singles_reads s⟩

theorem splits_readsWith {s : Bytes} {dropped : Nat} {turns : List Turn}
    (hmem : newline ∈ s) (hdropped : dropped < readSize)
    (h : Splits ((afterLine s).drop dropped) turns) : Splits s (readsWith s dropped turns) := by
  constructor
  · unfold readsWith
    rw [List.flatMap_append, List.flatMap_cons, singles_stream, h.stream]
    show firstLine s ++ (newline :: (afterLine s).take dropped ++
      (afterLine s).drop dropped) = s
    rw [List.cons_append, List.take_append_drop]
    exact (stream_cut hmem).2.symm
  · intro turn hturn
    rcases List.mem_append.mp hturn with hturn | hturn
    · exact singles_reads _ turn hturn
    rcases List.mem_cons.mp hturn with rfl | hturn
    · refine Or.inr ⟨_, rfl, List.cons_ne_nil _ _, ?_⟩
      rw [List.length_cons, List.length_take]
      omega
    · exact h.reads turn hturn

theorem receiveFrom_singles {pending bytes : Bytes} (hmem : newline ∉ pending ++ bytes)
    (hfits : (pending ++ bytes).length ≤ room limits) (turns : List Turn) :
    receiveFrom limits expectedIdJson pending (singles bytes ++ turns) =
      receiveFrom limits expectedIdJson (pending ++ bytes) turns := by
  induction bytes generalizing pending with
  | nil =>
      rw [List.append_nil]
      rfl
  | cons b bytes ih =>
      have hassoc : pending ++ b :: bytes = (pending ++ [b]) ++ bytes := by simp
      rw [hassoc] at hmem hfits ⊢
      rw [← ih hmem hfits]
      show receiveFrom limits expectedIdJson pending (.data [b] :: (singles bytes ++ turns)) = _
      rw [receiveFrom, if_neg, if_neg]
      · exact fun h => hmem (List.mem_append_left _ h)
      · rw [List.length_append] at hfits
        omega

/-- The read that completes the line decides: it is over the limit, or the line is
judged. -/
theorem receive_readsWith {s : Bytes} {dropped : Nat} (hcomplete : Completes limits s)
    (hdropped : dropped ≤ (afterLine s).length) (turns : List Turn) :
    receiveExpectedResponse limits expectedIdJson (readsWith s dropped turns) =
      if (firstLine s).length + dropped + 1 > room limits then
        ⟨⟨.oversized, none⟩, turns⟩
      else ⟨judged limits expectedIdJson (firstLine s), turns⟩ := by
  have hline := (stream_cut hcomplete.1).1
  unfold receiveExpectedResponse readsWith
  rw [receiveFrom_singles (by rwa [List.nil_append])
    (by rw [List.nil_append]; exact hcomplete.2.le), List.nil_append, receiveFrom]
  have hlength : (firstLine s ++ newline :: (afterLine s).take dropped).length =
      (firstLine s).length + dropped + 1 := by
    rw [List.length_append, List.length_cons, List.length_take]
    omega
  have hmem : newline ∈ firstLine s ++ newline :: (afterLine s).take dropped :=
    List.mem_append_right _ List.mem_cons_self
  have hfirst : (firstLine s ++ newline :: (afterLine s).take dropped).takeWhile
      (· ≠ newline) = firstLine s := (firstLine_eq hline _).1
  rw [hlength, hfirst, if_pos hmem]

theorem judge_short {line : Bytes} (h : line.length ≤ limits.maxMessageBytes) :
    judge limits expectedIdJson line ≠ .oversized := by
  have hsize : (classify (classifierLimits limits) line).error ≠ .messageTooLarge := by
    intro herror
    have hlt := (classify_messageTooLarge (classifierLimits limits) line).mp herror
    exact absurd hlt (Nat.not_lt.mpr h)
  unfold judge
  rw [if_neg (Nat.not_lt.mpr h)]
  dsimp only
  rw [if_neg hsize]
  split_ifs <;> exact nofun

theorem judged_short {line : Bytes} (h : line.length ≤ limits.maxMessageBytes) :
    judged limits expectedIdJson line ≠ ⟨.oversized, none⟩ := by
  unfold judged
  split
  · exact nofun
  · exact fun heq => judge_short h (congrArg Outcome.status heq)

/-- A stream that is not settled has two readings. -/
theorem unsettled_differs (expectedIdJson : Bytes) {s : Bytes} (h : ¬ Settled limits s) :
    ∃ turns turns', Splits s turns ∧ Splits s turns' ∧
      (receiveExpectedResponse limits expectedIdJson turns).outcome ≠
        (receiveExpectedResponse limits expectedIdJson turns').outcome := by
  unfold Settled at h
  push Not at h
  obtain ⟨hcomplete, hshort, hover⟩ := h
  have hlength := congrArg List.length (stream_cut hcomplete.1).2
  rw [List.length_append, List.length_cons] at hlength
  have hroom := hcomplete.2
  have hdropped : min (afterLine s).length (readSize - 1) < readSize := by
    unfold readSize
    omega
  refine ⟨_, _, splits_readsWith hcomplete.1 hdropped (splits_singles _),
    splits_readsWith hcomplete.1 (by decide : 0 < readSize) (splits_singles _), ?_⟩
  rw [receive_readsWith hcomplete (Nat.min_le_left _ _),
    receive_readsWith hcomplete (Nat.zero_le _), if_pos, if_neg]
  · exact (judged_short hshort).symm
  · omega
  · unfold readSize at hover ⊢
    omega

/-! ## §6  Both calls -/

/-- Every reading of the stream gives the same statuses and the same lines. -/
def DiscoveryIndependent (limits : InventoryLimits) (s : Bytes) : Prop :=
  ∀ turns turns', Splits s turns → Splits s turns' →
    discover limits turns = discover limits turns'

theorem discover_initialized (turns : List Turn) :
    (discover limits turns).initialized =
      (receiveExpectedResponse limits initializeIdJson turns).outcome := by
  unfold discover
  dsimp only
  split
  · rfl
  · split <;> rfl

theorem receive_settled (expectedIdJson : Bytes) {s : Bytes} {turns : List Turn}
    (hsplits : Splits s turns) (hsettled : Settled limits s) :
    (receiveExpectedResponse limits expectedIdJson turns).outcome =
        verdict limits expectedIdJson s ∧
      (Completes limits s → (firstLine s).length ≤ limits.maxMessageBytes →
        ∃ dropped < readSize, dropped ≤ (afterLine s).length ∧
          Splits ((afterLine s).drop dropped)
            (receiveExpectedResponse limits expectedIdJson turns).rest) :=
  receiveFrom_settled List.not_mem_nil (Nat.zero_le _) hsplits.stream.symm hsettled
    hsplits.reads

theorem AnswersInitialize.short {s : Bytes} (h : AnswersInitialize limits s) :
    (firstLine s).length ≤ limits.maxMessageBytes := by
  by_contra hlong
  have hjudge : judge limits initializeIdJson (firstLine s) = .oversized :=
    if_pos (Nat.not_le.mp hlong)
  have hok := h.2.1
  rw [hjudge] at hok
  cases hok

/-- The second call starts behind the bytes that the first one drops. -/
theorem discover_readsWith {s : Bytes} (h : AnswersInitialize limits s)
    (hsettled : Settled limits s) {dropped : Nat} (hdropped : dropped < readSize)
    (hle : dropped ≤ (afterLine s).length) (turns : List Turn) :
    discover limits (readsWith s dropped turns) = ⟨⟨.ok, some (firstLine s)⟩,
      some (receiveExpectedResponse limits toolsListIdJson turns).outcome⟩ := by
  have hroom := hsettled h.1 h.short
  have hlength := congrArg List.length (stream_cut h.1.1).2
  rw [List.length_append, List.length_cons] at hlength
  have hjudged : judged limits initializeIdJson (firstLine s) =
      ⟨.ok, some (firstLine s)⟩ := if_pos h.2.1
  unfold discover
  rw [receive_readsWith h.1 hle, if_neg (by omega), hjudged]
  exact if_pos h.2.2

/-- What is learnt from a stream that reads alike. -/
theorem discover_of_readsAlike {s : Bytes} {turns : List Turn} (h : ReadsAlike limits s)
    (hsplits : Splits s turns) :
    (discover limits turns).initialized = verdict limits initializeIdJson s ∧
      (AnswersInitialize limits s → (discover limits turns).listed =
        some (verdict limits toolsListIdJson (afterLine s))) ∧
      (¬ AnswersInitialize limits s → (discover limits turns).listed = none) := by
  obtain ⟨hfirst, hrest⟩ := receive_settled initializeIdJson hsplits h.1
  refine ⟨(discover_initialized turns).trans hfirst, fun hanswers => ?_, fun hnot => ?_⟩
  · obtain ⟨dropped, hdropped, hle, hsecond⟩ := hrest hanswers.1 hanswers.short
    obtain ⟨hsettled, hverdict⟩ := h.2 hanswers dropped hdropped hle
    have hjudged : judged limits initializeIdJson (firstLine s) =
        ⟨.ok, some (firstLine s)⟩ := if_pos hanswers.2.1
    have hresponse : (receiveExpectedResponse limits initializeIdJson turns).outcome =
        ⟨.ok, some (firstLine s)⟩ := by
      rw [hfirst]
      unfold verdict
      rw [if_pos hanswers.1, hjudged]
    unfold discover
    dsimp only
    rw [hresponse]
    dsimp only
    rw [if_pos hanswers.2.2, (receive_settled _ hsecond hsettled).1, hverdict]
  · unfold discover
    dsimp only
    rw [hfirst]
    cases hline : (verdict limits initializeIdJson s).response with
    | none => rfl
    | some response =>
        dsimp only
        rw [if_neg]
        intro hvalid
        -- a verdict with a line is one of an accepted line
        apply hnot
        unfold verdict at hline
        split at hline
        · rename_i hcomplete
          unfold judged at hline
          split at hline
          · rename_i hok
            cases hline
            exact ⟨hcomplete, hok, hvalid⟩
          · cases hline
        · split at hline
          · cases hline
          · cases hline

/-- Discovery is independent of the read boundaries exactly on the streams that read
alike: no read can bring the first line together with more than the limit, and behind
the answer to `initialize` the verdict is the same from whichever byte that a read can
reach. -/
theorem discovery_independent_iff (limits : InventoryLimits) (s : Bytes) :
    DiscoveryIndependent limits s ↔ ReadsAlike limits s := by
  constructor
  · intro hindependent
    have hsettled : Settled limits s := by
      by_contra hnot
      obtain ⟨turns, turns', hturns, hturns', hne⟩ :=
        unsettled_differs initializeIdJson hnot
      apply hne
      rw [← discover_initialized, ← discover_initialized,
        hindependent turns turns' hturns hturns']
    refine ⟨hsettled, fun hanswers dropped hdropped hle => ?_⟩
    -- two readings of the rest are two readings of the stream
    have hsame : ∀ {d d' turns turns'}, d < readSize → d ≤ (afterLine s).length →
        d' < readSize → d' ≤ (afterLine s).length →
        Splits ((afterLine s).drop d) turns → Splits ((afterLine s).drop d') turns' →
        (receiveExpectedResponse limits toolsListIdJson turns).outcome =
          (receiveExpectedResponse limits toolsListIdJson turns').outcome := by
      intro d d' turns turns' hd hle hd' hle' hturns hturns'
      have heq := hindependent _ _ (splits_readsWith hanswers.1.1 hd hturns)
        (splits_readsWith hanswers.1.1 hd' hturns')
      rw [discover_readsWith hanswers hsettled hd hle,
        discover_readsWith hanswers hsettled hd' hle'] at heq
      exact Option.some.inj (congrArg Discovery.listed heq)
    have hrest : ∀ {d}, d < readSize → d ≤ (afterLine s).length →
        Settled limits ((afterLine s).drop d) := by
      intro d hd hle
      by_contra hnot
      obtain ⟨turns, turns', hturns, hturns', hne⟩ :=
        unsettled_differs toolsListIdJson hnot
      exact hne (hsame hd hle hd hle hturns hturns')
    have hzero : 0 < readSize := by
      show 0 < 4096
      omega
    have heq := hsame hdropped hle hzero (Nat.zero_le _) (splits_singles _)
      (splits_singles _)
    rw [(receive_settled _ (splits_singles _) (hrest hdropped hle)).1,
      (receive_settled _ (splits_singles _) (hrest hzero (Nat.zero_le _))).1] at heq
    exact ⟨hrest hdropped hle, heq⟩
  · intro h turns turns' hturns hturns'
    obtain ⟨hfirst, hlisted, hnone⟩ := discover_of_readsAlike h hturns
    obtain ⟨hfirst', hlisted', hnone'⟩ := discover_of_readsAlike h hturns'
    have hinitialized : (discover limits turns).initialized =
        (discover limits turns').initialized := hfirst.trans hfirst'.symm
    have hlist : (discover limits turns).listed = (discover limits turns').listed := by
      by_cases hanswers : AnswersInitialize limits s
      · exact (hlisted hanswers).trans (hlisted' hanswers).symm
      · exact (hnone hanswers).trans (hnone' hanswers).symm
    exact Discovery.ext hinitialized hlist

def initializeLine : Bytes :=
  ascii "\x7b\"jsonrpc\":\"2.0\",\"id\":\"inspect-init\",\"result\":\x7b\x7d\x7d" ++ [newline]

def unsolicitedLine : Bytes :=
  ascii "\x7b\"jsonrpc\":\"2.0\",\"method\":\"x\"\x7d" ++ [newline]

def toolsListLine : Bytes :=
  ascii "\x7b\"jsonrpc\":\"2.0\",\"id\":\"inspect-list\",\"result\":\x7b\"tools\":[]\x7d\x7d" ++
    [newline]

/-- Read line by line, the notification is seen. -/
def lineChunks : List Bytes := [initializeLine, unsolicitedLine, toolsListLine]

/-- The read that completes the first line brings the notification. -/
def joinedChunks : List Bytes := [initializeLine ++ unsolicitedLine, toolsListLine]

/-- Room for each of the lines, not for two of them. -/
def lineLimits : InventoryLimits := { maxMessageBytes := 64 }

theorem splits_data {chunks : List Bytes}
    (h : ∀ bytes ∈ chunks, bytes ≠ [] ∧ bytes.length ≤ readSize) :
    Splits chunks.flatten (chunks.map .data) := by
  constructor
  · rw [List.flatMap_map]
    exact List.flatMap_id'
  · intro turn hturn
    rcases List.mem_map.mp hturn with ⟨bytes, hbytes, rfl⟩
    exact Or.inr ⟨bytes, rfl, h bytes hbytes⟩

/-- An unsolicited message that is read with the first line is not rejected, and lines
within the limit are reported as too long when one read brings two of them. -/
theorem discovery_depends_on_reads :
    ¬ (∀ limits s, DiscoveryIndependent limits s) ∧
      (discover {} (joinedChunks.map .data)).listed =
        some ⟨.ok, some toolsListLine.dropLast⟩ ∧
      discover lineLimits (joinedChunks.map .data) = ⟨⟨.oversized, none⟩, none⟩ := by
  have hruns : (discover {} (lineChunks.map .data)).listed = some ⟨.unsolicited, none⟩ ∧
      (discover {} (joinedChunks.map .data)).listed =
        some ⟨.ok, some toolsListLine.dropLast⟩ ∧
      discover lineLimits (joinedChunks.map .data) = ⟨⟨.oversized, none⟩, none⟩ := by
    decide +kernel
  refine ⟨fun hindependent => ?_, hruns.2⟩
  have hline : ∀ bytes ∈ lineChunks, bytes ≠ [] ∧ bytes.length ≤ readSize := by decide
  have hjoined : ∀ bytes ∈ joinedChunks, bytes ≠ [] ∧ bytes.length ≤ readSize := by decide
  have hstream : joinedChunks.flatten = lineChunks.flatten := by
    show (initializeLine ++ unsolicitedLine) ++ (toolsListLine ++ []) =
      initializeLine ++ (unsolicitedLine ++ (toolsListLine ++ []))
    rw [List.append_assoc]
  have hreads := splits_data hjoined
  rw [hstream] at hreads
  have heq := hindependent {} _ _ _ (splits_data hline) hreads
  have hlisted := congrArg Discovery.listed heq
  rw [hruns.1, hruns.2.1] at hlisted
  cases hlisted

end Inspect

end NativeGuard.Process

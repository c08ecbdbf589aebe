import NativeGuard.Core.Status
import NativeGuard.Data.Lines
import NativeGuard.Json.Grammar

/-!
# The line framer (`io/line_framer.hpp`, `src/line_framer.cpp`)

`feed` emits the lines of a chunk, whole ones straight from the chunk and split ones
through the buffer. What it has emitted, and what it holds, depends on the stream so
far and not on its chunks (`After`, `feed_after`).
-/

namespace NativeGuard.Io

open Json Data

/-! ## §1  Data -/

structure Config where
  maxMessageBytes : Nat := 1024 * 1024
  trimCarriageReturn : Bool := true

/-- The buffer never holds more than a message, and a failure is none of the
successes. -/
structure LineFramer where
  config : Config
  buffer : Bytes := []
  failed : Bool := false
  failure : Status := {}
  failedMessageBytes : Nat := 0
  bounded : buffer.length ≤ config.maxMessageBytes
  isFailure : failed = true → failure.code ≠ .ok

def newline : UInt8 := 0x0A
def carriageReturn : UInt8 := 0x0D

def messageTooLarge : Status := ⟨.messageTooLarge, "message exceeds configured limit"⟩
def truncatedMessage : Status :=
  ⟨.truncatedMessage, "input ended before newline delimiter"⟩

/-- The message as it is handed to the sink. -/
def Config.emit (config : Config) (message : Bytes) : Bytes :=
  if config.trimCarriageReturn ∧ message.getLast? = some carriageReturn then message.dropLast
  else message

/-- What a call returns, the messages it hands to the sink, and the framer after it. -/
structure Fed where
  status : Status := {}
  messages : List Bytes := []
  framer : LineFramer

namespace LineFramer

/-- The members as they are initialised. -/
def fresh (config : Config) : LineFramer where
  config := config
  bounded := Nat.zero_le _
  isFailure := fun h => absurd h Bool.false_ne_true

/-- The constructor, which throws on a limit of zero. -/
def create (config : Config) : Except Status LineFramer :=
  if config.maxMessageBytes = 0 then
    .error ⟨.invalidArgument, "max_message_bytes must be greater than zero"⟩
  else .ok (fresh config)

variable (f : LineFramer)

/-! ## §2  `feed` and `finish` -/

def fail (failure : Status) (failedMessageBytes : Nat) (h : failure.code ≠ .ok) : Fed where
  status := failure
  framer :=
    { config := f.config
      failed := true
      failure := failure
      failedMessageBytes := failedMessageBytes
      bounded := Nat.zero_le _
      isFailure := fun _ => h }

/-- The message has been handed out. -/
def clear : LineFramer := { f with buffer := [], bounded := Nat.zero_le _ }

def append (bytes : Bytes) : Fed :=
  if h : bytes.length > f.config.maxMessageBytes - f.buffer.length then
    f.fail messageTooLarge (f.buffer.length + bytes.length) nofun
  else
    { framer :=
        { f with
          buffer := f.buffer ++ bytes
          bounded := by
            have hbounded := f.bounded
            rw [List.length_append]
            omega } }

/-- The rest of a chunk behind a message. -/
def Fed.after (message : Bytes) (r : Fed) : Fed :=
  { r with messages := message :: r.messages }

/-- The loop over the newlines of a chunk, fuelled by its length. -/
def feedFrom : Nat → LineFramer → Bytes → Fed
  | 0, f, _ => { framer := f }
  | fuel + 1, f, cursor =>
      if cursor = [] then { framer := f }
      else
        let segment := cursor.takeWhile (· ≠ newline)
        match cursor.dropWhile (· ≠ newline) with
        | [] => f.append cursor
        | _ :: rest =>
            if f.buffer = [] then
              if segment.length > f.config.maxMessageBytes then
                f.fail messageTooLarge segment.length nofun
              else Fed.after (f.config.emit segment) (feedFrom fuel f rest)
            else
              let appended := f.append segment
              if appended.status.code ≠ .ok then appended
              else
                Fed.after (f.config.emit appended.framer.buffer)
                  (feedFrom fuel appended.framer.clear rest)

def feed (bytes : Bytes) : Fed :=
  if f.failed then { status := f.failure, framer := f }
  else feedFrom (bytes.length + 1) f bytes

def finish : Fed :=
  if f.failed then { status := f.failure, framer := f }
  else if f.buffer ≠ [] then f.fail truncatedMessage 0 nofun
  else { framer := f }

/-! ## §3  One chunk -/

/-- The messages of a stream: its lines in front of the first one that is too long. -/
def emitted (config : Config) (s : Bytes) : List Bytes :=
  (shortLines newline config.maxMessageBytes s).map config.emit

/-- A framer that has read the stream `s` and handed out `messages`. -/
structure After (config : Config) (s : Bytes) (messages : List Bytes) (f : LineFramer) :
    Prop where
  configured : f.config = config
  emits : messages = emitted config s
  tooLong : Overlong newline config.maxMessageBytes s →
    f.failed = true ∧ f.failure = messageTooLarge
  fits : ¬ Overlong newline config.maxMessageBytes s →
    f.failed = false ∧ f.buffer = restOf newline s

def streamStatus (config : Config) (s : Bytes) : Status :=
  if Overlong newline config.maxMessageBytes s then messageTooLarge else {}

variable {f}

/-- A line that has grown too long ends the stream, whatever follows in the chunk. -/
theorem fail_after {line : Bytes} (hline : newline ∉ line)
    (hlong : f.config.maxMessageBytes < line.length) (rest : Bytes) (n : Nat) :
    After f.config (line ++ rest) [] (f.fail messageTooLarge n nofun).framer ∧
      streamStatus f.config (line ++ rest) = messageTooLarge := by
  obtain ⟨hover, hshort⟩ := overlong_open hline hlong rest
  refine ⟨⟨rfl, ?_, fun _ => ⟨rfl, rfl⟩, fun h => absurd hover h⟩, if_pos hover⟩
  unfold emitted
  rw [hshort]
  rfl

/-- A complete line is handed out, and the framer goes on with an empty buffer. -/
theorem after_line {config : Config} {line rest : Bytes} {r : Fed}
    (hline : newline ∉ line) (hshort : line.length ≤ config.maxMessageBytes)
    (h : After config rest r.messages r.framer ∧ r.status = streamStatus config rest) :
    After config (line ++ newline :: rest) (Fed.after (config.emit line) r).messages
        (Fed.after (config.emit line) r).framer ∧
      (Fed.after (config.emit line) r).status =
        streamStatus config (line ++ newline :: rest) := by
  obtain ⟨⟨hconfig, hmessages, htooLong, hfits⟩, hstatus⟩ := h
  obtain ⟨hover, hlines, hrest⟩ := shortLines_line hline hshort rest
  refine ⟨⟨hconfig, ?_, ?_, ?_⟩, ?_⟩
  · show config.emit line :: r.messages = _
    unfold emitted at hmessages ⊢
    rw [hlines, List.map_cons, hmessages]
  · exact fun h => htooLong (hover.mp h)
  · rw [hrest]
    exact fun h => hfits (mt hover.mpr h)
  · show r.status = _
    rw [hstatus]
    unfold streamStatus
    simp only [hover]

theorem append_of_fits {bytes : Bytes}
    (h : (f.buffer ++ bytes).length ≤ f.config.maxMessageBytes) :
    (f.append bytes).status = {} ∧ (f.append bytes).messages = [] ∧
      (f.append bytes).framer.config = f.config ∧
      (f.append bytes).framer.failed = f.failed ∧
      (f.append bytes).framer.buffer = f.buffer ++ bytes := by
  have hroom : ¬ bytes.length > f.config.maxMessageBytes - f.buffer.length := by
    rw [List.length_append] at h
    omega
  unfold append
  rw [dif_neg hroom]
  exact ⟨rfl, rfl, rfl, rfl, rfl⟩

theorem append_of_tooLong {bytes : Bytes}
    (h : f.config.maxMessageBytes < (f.buffer ++ bytes).length) :
    f.append bytes = f.fail messageTooLarge (f.buffer.length + bytes.length) nofun := by
  have hroom : bytes.length > f.config.maxMessageBytes - f.buffer.length := by
    have hbounded := f.bounded
    rw [List.length_append] at h
    omega
  unfold append
  rw [dif_pos hroom]

theorem takeWhile_newline (cursor : Bytes) :
    newline ∉ cursor.takeWhile (· ≠ newline) := by
  intro h
  simpa using List.mem_takeWhile_imp h

/-- The newline in front of what follows the first line of a chunk. -/
theorem cursor_split {cursor rest : Bytes} {b : UInt8}
    (h : cursor.dropWhile (· ≠ newline) = b :: rest) :
    cursor = cursor.takeWhile (· ≠ newline) ++ newline :: rest := by
  have hne : cursor.dropWhile (· ≠ newline) ≠ [] := by
    rw [h]
    exact List.cons_ne_nil b rest
  have hb : b = newline := by
    have hhead := List.head_dropWhile_not _ hne
    have heq : (cursor.dropWhile (· ≠ newline)).head hne = b := by
      simp only [h, List.head_cons]
    rw [heq] at hhead
    simpa using hhead
  subst hb
  have hsplit := List.takeWhile_append_dropWhile (p := (· ≠ newline)) (l := cursor)
  rw [h] at hsplit
  exact hsplit.symm

theorem not_mem_of_dropWhile {cursor : Bytes} (h : cursor.dropWhile (· ≠ newline) = []) :
    newline ∉ cursor := by
  intro hmem
  have hall := List.dropWhile_eq_nil_iff.mp h newline hmem
  simp at hall

/-- A framer that holds an unfinished line and nothing else. -/
theorem after_open {config : Config} {s : Bytes} (hconfig : f.config = config)
    (hfailed : f.failed = false) (hs : f.buffer = s) (hmem : newline ∉ s) :
    After config s [] f ∧ ({} : Status) = streamStatus config s := by
  have hfits : ¬ Overlong newline config.maxMessageBytes s := by
    rw [overlong_of_not_mem hmem, ← hs, ← hconfig]
    exact Nat.not_lt.mpr f.bounded
  refine ⟨⟨hconfig, ?_, fun h => absurd h hfits, fun _ => ⟨hfailed, ?_⟩⟩,
    (if_neg hfits).symm⟩
  · unfold emitted
    rw [shortLines_of_not_mem hmem]
    rfl
  · unfold restOf
    rw [splitLines_of_not_mem hmem]
    exact hs

/-- A chunk without a newline continues the unfinished line. -/
theorem append_after {cursor : Bytes} (hf : f.failed = false)
    (hmem : newline ∉ f.buffer ++ cursor) :
    After f.config (f.buffer ++ cursor) (f.append cursor).messages
        (f.append cursor).framer ∧
      (f.append cursor).status = streamStatus f.config (f.buffer ++ cursor) := by
  by_cases hlong : f.config.maxMessageBytes < (f.buffer ++ cursor).length
  · have hfail := fail_after hmem hlong [] (f.buffer.length + cursor.length)
    rw [List.append_nil] at hfail
    rw [append_of_tooLong hlong]
    exact ⟨hfail.1, hfail.2.symm⟩
  · obtain ⟨hstatus, hmessages, hconfig, hfailed, happended⟩ :=
      append_of_fits (Nat.not_lt.mp hlong)
    rw [hstatus, hmessages]
    exact after_open hconfig (hfailed.trans hf) happended hmem

section turn

variable (fuel : Nat) {cursor rest : Bytes} {b : UInt8}
  (hdrop : cursor.dropWhile (· ≠ newline) = b :: rest)
include hdrop

theorem cursor_ne_nil : cursor ≠ [] := by
  rintro rfl
  exact List.cons_ne_nil b rest hdrop.symm

/-- A turn that ends a line which is too long. -/
theorem feedFrom_tooLong (h : f.config.maxMessageBytes <
      (f.buffer ++ cursor.takeWhile (· ≠ newline)).length) :
    ∃ n, feedFrom (fuel + 1) f cursor = f.fail messageTooLarge n nofun := by
  rw [feedFrom, if_neg (cursor_ne_nil hdrop)]
  dsimp only
  rw [hdrop]
  dsimp only
  by_cases hempty : f.buffer = []
  · rw [hempty, List.nil_append] at h
    rw [if_pos hempty, if_pos h]
    exact ⟨_, rfl⟩
  · rw [if_neg hempty, append_of_tooLong h, if_pos]
    · exact ⟨_, rfl⟩
    · exact nofun

/-- A turn that ends a line which fits: the loop goes on behind the newline. -/
theorem feedFrom_line (h : (f.buffer ++ cursor.takeWhile (· ≠ newline)).length ≤
      f.config.maxMessageBytes) :
    ∃ next : LineFramer, next.config = f.config ∧ next.failed = f.failed ∧
      next.buffer = [] ∧ feedFrom (fuel + 1) f cursor =
        Fed.after (f.config.emit (f.buffer ++ cursor.takeWhile (· ≠ newline)))
          (feedFrom fuel next rest) := by
  rw [feedFrom, if_neg (cursor_ne_nil hdrop)]
  dsimp only
  rw [hdrop]
  dsimp only
  by_cases hempty : f.buffer = []
  · rw [hempty, List.nil_append] at h
    rw [if_pos hempty, if_neg (Nat.not_lt.mpr h)]
    exact ⟨f, rfl, rfl, hempty, by rw [hempty, List.nil_append]⟩
  · obtain ⟨hstatus, -, hconfig, hfailed, happended⟩ := append_of_fits h
    rw [if_neg hempty, if_neg (by rw [hstatus]; exact not_not.mpr rfl), happended]
    exact ⟨(f.append _).framer.clear, hconfig, hfailed, rfl, rfl⟩

end turn

/-- What the loop makes of a chunk, in a framer that has not failed. The induction is
on the fuel; each turn hands out one line. -/
theorem feedFrom_after {config : Config} (fuel : Nat) {f : LineFramer} (cursor : Bytes)
    (hfuel : cursor.length < fuel) (hconfig : f.config = config) (hf : f.failed = false)
    (hbuffer : newline ∉ f.buffer) :
    After config (f.buffer ++ cursor) (feedFrom fuel f cursor).messages
        (feedFrom fuel f cursor).framer ∧
      (feedFrom fuel f cursor).status = streamStatus config (f.buffer ++ cursor) := by
  subst hconfig
  induction fuel generalizing f cursor with
  | zero => omega
  | succ fuel ih =>
      cases hdrop : cursor.dropWhile (· ≠ newline) with
      | nil =>
          -- no newline: the chunk is the rest of an unfinished line, or is used up
          have hmem : newline ∉ f.buffer ++ cursor := by
            rw [List.mem_append, not_or]
            exact ⟨hbuffer, not_mem_of_dropWhile hdrop⟩
          unfold feedFrom
          by_cases hcursor : cursor = []
          · rw [if_pos hcursor, hcursor, List.append_nil]
            exact after_open rfl hf rfl hbuffer
          rw [if_neg hcursor]
          dsimp only
          rw [hdrop]
          exact append_after hf hmem
      | cons b rest =>
          -- a newline: the line ends with the segment in front of it
          have hcut := cursor_split hdrop
          have hline : newline ∉ f.buffer ++ cursor.takeWhile (· ≠ newline) := by
            rw [List.mem_append, not_or]
            exact ⟨hbuffer, takeWhile_newline cursor⟩
          have hstream : f.buffer ++ cursor =
              (f.buffer ++ cursor.takeWhile (· ≠ newline)) ++ newline :: rest := by
            rw [List.append_assoc, ← hcut]
          have hrest : rest.length < fuel := by
            have hlength := congrArg List.length hcut
            rw [List.length_append, List.length_cons] at hlength
            omega
          rw [hstream]
          by_cases hlong : f.config.maxMessageBytes <
              (f.buffer ++ cursor.takeWhile (· ≠ newline)).length
          · obtain ⟨n, hfail⟩ := feedFrom_tooLong fuel hdrop hlong
            obtain ⟨hafter, hstatus⟩ := fail_after hline hlong (newline :: rest) n
            rw [hfail]
            exact ⟨hafter, hstatus.symm⟩
          · have hshort := Nat.not_lt.mp hlong
            obtain ⟨next, hconfig, hfailed, hempty, hturn⟩ :=
              feedFrom_line fuel hdrop hshort
            have hnext := ih (f := next) rest hrest (hfailed.trans hf)
              (by rw [hempty]; exact List.not_mem_nil)
            rw [hempty, List.nil_append, hconfig] at hnext
            rw [hturn]
            exact after_line hline hshort hnext

/-! ## §4  Any cut of a stream -/

/-- A chunk takes a framer from what it has read to what it has read then. -/
theorem feed_after {config : Config} {s : Bytes} {messages : List Bytes}
    (h : After config s messages f) (bytes : Bytes) :
    After config (s ++ bytes) (messages ++ (f.feed bytes).messages) (f.feed bytes).framer ∧
      (f.feed bytes).status = streamStatus config (s ++ bytes) := by
  obtain ⟨hconfig, hmessages, htooLong, hfits⟩ := h
  unfold feed
  by_cases hover : Overlong newline config.maxMessageBytes s
  · obtain ⟨hfailed, hfailure⟩ := htooLong hover
    obtain ⟨hover', hshort⟩ := overlong_append hover bytes
    rw [if_pos hfailed]
    refine ⟨⟨hconfig, ?_, fun _ => ⟨hfailed, hfailure⟩, fun h => absurd hover' h⟩, ?_⟩
    · rw [List.append_nil, hmessages]
      unfold emitted
      rw [hshort]
    · rw [streamStatus, if_pos hover']
      exact hfailure
  · obtain ⟨hfailed, hbuffer⟩ := hfits hover
    have hnext := feedFrom_after (bytes.length + 1) bytes (Nat.lt_succ_self _)
      hconfig hfailed (by rw [hbuffer]; exact not_mem_restOf s)
    rw [if_neg (by rw [hfailed]; exact Bool.false_ne_true)]
    rw [hbuffer] at hnext
    obtain ⟨⟨hconfig', hmessages', htooLong', hfits'⟩, hstatus⟩ := hnext
    have hiff := overlong_append_iff hover bytes
    refine ⟨⟨hconfig', ?_, fun h => htooLong' (hiff.mp h), ?_⟩, ?_⟩
    · unfold emitted at hmessages hmessages' ⊢
      rw [shortLines_append hover, List.map_append, hmessages, hmessages']
    · rw [restOf_append]
      exact fun h => hfits' (mt hiff.mpr h)
    · rw [hstatus]
      unfold streamStatus
      simp only [hiff]

/-- One call of the framer. -/
inductive Call where
  | feed (bytes : Bytes)
  | finish
  deriving Repr, DecidableEq

def Call.run (f : LineFramer) : Call → Fed
  | .feed bytes => f.feed bytes
  | .finish => f.finish

/-- What the calls return, one after the other. -/
def results : LineFramer → List Call → List Fed
  | _, [] => []
  | f, call :: calls => call.run f :: results (call.run f).framer calls

/-- What `finish` says of a whole stream. -/
def finalCode (config : Config) (s : Bytes) : StatusCode :=
  if Overlong newline config.maxMessageBytes s then .messageTooLarge
  else if restOf newline s ≠ [] then .truncatedMessage
  else .ok

theorem finish_after {config : Config} {s : Bytes} {messages : List Bytes}
    (h : After config s messages f) :
    f.finish.messages = [] ∧ f.finish.status.code = finalCode config s := by
  unfold finish finalCode
  by_cases hover : Overlong newline config.maxMessageBytes s
  · obtain ⟨hfailed, hfailure⟩ := h.tooLong hover
    rw [if_pos hfailed, if_pos hover, hfailure]
    exact ⟨rfl, rfl⟩
  · obtain ⟨hfailed, hbuffer⟩ := h.fits hover
    rw [if_neg (by rw [hfailed]; exact Bool.false_ne_true), if_neg hover, hbuffer]
    split
    · exact ⟨rfl, rfl⟩
    · exact ⟨rfl, rfl⟩

/-- The chunks of a stream and the end of it. -/
theorem results_after {config : Config} (chunks : List Bytes) {f : LineFramer} {s : Bytes}
    {messages : List Bytes} (h : After config s messages f) :
    messages ++ (results f (chunks.map .feed ++ [.finish])).flatMap Fed.messages =
        emitted config (s ++ chunks.flatten) ∧
      ∃ last, (results f (chunks.map .feed ++ [.finish])).getLast? = some last ∧
        last.status.code = finalCode config (s ++ chunks.flatten) := by
  induction chunks generalizing f s messages with
  | nil =>
      obtain ⟨hmessages, hcode⟩ := finish_after h
      rw [List.flatten_nil, List.append_nil]
      refine ⟨?_, f.finish, rfl, hcode⟩
      show messages ++ (f.finish.messages ++ []) = _
      rw [hmessages, h.emits]
      exact List.append_nil _
  | cons bytes chunks ih =>
      obtain ⟨hall, last, hlast, hcode⟩ := ih (feed_after h bytes).1
      have hresults : results f ((bytes :: chunks).map .feed ++ [.finish]) =
          f.feed bytes :: results (f.feed bytes).framer (chunks.map .feed ++ [.finish]) := rfl
      rw [List.flatten_cons, ← List.append_assoc, hresults]
      refine ⟨?_, last, ?_, hcode⟩
      · rw [← hall, List.flatMap_cons, List.append_assoc]
      · rw [List.getLast?_cons, hlast]
        rfl

/-! ## §5  A failure stays -/

/-- What every call keeps. -/
structure Kept (f : LineFramer) (r : Fed) : Prop where
  configured : r.framer.config = f.config
  sticks : r.status.code ≠ .ok → r.framer.failed = true ∧ r.framer.failure = r.status

theorem kept_unchanged : Kept f { framer := f } :=
  ⟨rfl, fun h => absurd rfl h⟩

theorem append_kept (bytes : Bytes) : Kept f (f.append bytes) := by
  unfold append
  split
  · exact ⟨rfl, fun _ => ⟨rfl, rfl⟩⟩
  · exact ⟨rfl, fun h => absurd rfl h⟩

theorem feedFrom_kept (fuel : Nat) (f : LineFramer) (cursor : Bytes) :
    Kept f (feedFrom fuel f cursor) := by
  induction fuel generalizing f cursor with
  | zero => exact kept_unchanged
  | succ fuel ih =>
      unfold feedFrom
      split
      · exact kept_unchanged
      dsimp only
      split
      · exact append_kept cursor
      · rename_i b rest hdrop
        split
        · split
          · exact ⟨rfl, fun _ => ⟨rfl, rfl⟩⟩
          · exact ⟨(ih f rest).configured, (ih f rest).sticks⟩
        · have happend : Kept f (f.append (cursor.takeWhile (· ≠ newline))) :=
            append_kept _
          split
          · exact happend
          · obtain ⟨hconfig, hsticks⟩ :=
              ih (f.append (cursor.takeWhile (· ≠ newline))).framer.clear rest
            exact ⟨hconfig.trans happend.configured, hsticks⟩

theorem run_kept (call : Call) : Kept f (call.run f) := by
  cases call with
  | feed bytes =>
      show Kept f (f.feed bytes)
      unfold feed
      split
      · rename_i hfailed
        exact ⟨rfl, fun _ => ⟨hfailed, rfl⟩⟩
      · exact feedFrom_kept _ f bytes
  | finish =>
      show Kept f f.finish
      unfold finish
      split
      · rename_i hfailed
        exact ⟨rfl, fun _ => ⟨hfailed, rfl⟩⟩
      · split
        · exact ⟨rfl, fun _ => ⟨rfl, rfl⟩⟩
        · exact kept_unchanged

theorem run_failed (call : Call) (h : f.failed = true) :
    call.run f = { status := f.failure, framer := f } := by
  cases call with
  | feed bytes => exact if_pos h
  | finish => exact if_pos h

theorem results_failed (calls : List Call) (h : f.failed = true) :
    ∀ r ∈ results f calls, r.status = f.failure ∧ r.messages = [] := by
  induction calls with
  | nil => exact fun r hr => absurd hr List.not_mem_nil
  | cons call calls ih =>
      intro r hr
      unfold results at hr
      rw [run_failed call h] at hr
      rcases List.mem_cons.mp hr with rfl | hmem
      · exact ⟨rfl, rfl⟩
      · exact ih r hmem

theorem results_bounded (calls : List Call) (f : LineFramer) :
    ∀ r ∈ results f calls, r.framer.buffer.length ≤ f.config.maxMessageBytes := by
  induction calls generalizing f with
  | nil => exact fun r hr => absurd hr List.not_mem_nil
  | cons call calls ih =>
      intro r hr
      have hconfig := (run_kept (f := f) call).configured
      rcases List.mem_cons.mp hr with rfl | hmem
      · rw [← hconfig]
        exact (call.run f).framer.bounded
      · rw [← hconfig]
        exact ih (call.run f).framer r hmem

theorem results_sticky (calls : List Call) (f : LineFramer) :
    (results f calls).Pairwise fun r later =>
      r.status.code ≠ .ok → later.status = r.status ∧ later.messages = [] := by
  induction calls generalizing f with
  | nil => exact List.Pairwise.nil
  | cons call calls ih =>
      refine List.Pairwise.cons ?_ (ih (call.run f).framer)
      intro later hlater hcode
      obtain ⟨hfailed, hfailure⟩ := (run_kept call).sticks hcode
      rw [← hfailure]
      exact results_failed calls hfailed later hlater

/-- The framer is independent of the chunks. For every way of cutting a stream, the
messages are its lines up to the first that is too long, and the last status says
whether there was one, or bytes were left. The buffer stays within the limit, and a
failure is what every later call returns. -/
theorem independent_of_chunks (config : Config) (h : 0 < config.maxMessageBytes) :
    ∃ f, create config = .ok f ∧
      (∀ chunks : List Bytes,
        (results f (chunks.map .feed ++ [.finish])).flatMap Fed.messages =
            emitted config chunks.flatten ∧
          ∃ last, (results f (chunks.map .feed ++ [.finish])).getLast? = some last ∧
            last.status.code = finalCode config chunks.flatten) ∧
      ∀ calls : List Call,
        (∀ r ∈ results f calls, r.framer.buffer.length ≤ config.maxMessageBytes) ∧
          (results f calls).Pairwise fun r later =>
            r.status.code ≠ .ok → later.status = r.status ∧ later.messages = [] := by
  refine ⟨_, if_neg (Nat.ne_of_gt h), fun chunks => ?_, fun calls =>
    ⟨results_bounded calls _, results_sticky calls _⟩⟩
  exact results_after chunks (after_open rfl rfl rfl List.not_mem_nil).1

/-- A limit of four bytes, and a line cut inside its end. -/
theorem independent_of_chunks_example :
    (0 < 4) ∧ ∃ f, create { maxMessageBytes := 4 } = .ok f ∧
      (results f ([[0x61, 0x0D], [0x0A, 0x62]].map .feed ++ [.finish])).flatMap
        Fed.messages = [[0x61]] := by
  refine ⟨by decide, ?_⟩
  obtain ⟨f, hcreate, hchunks, -⟩ :=
    independent_of_chunks { maxMessageBytes := 4 } (by decide)
  refine ⟨f, hcreate, ?_⟩
  rw [(hchunks [[0x61, 0x0D], [0x0A, 0x62]]).1]
  decide

end LineFramer

end NativeGuard.Io

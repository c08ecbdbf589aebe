import NativeGuard.Data.Decimal
import NativeGuard.Process.Inspect

/-!
# The message limit of discovery (`src/inspect.cpp`)

`--max-message-bytes` takes every size but zero. The receive loop adds one to it for
the newline without the guard that `run_stdio_child` has, so at the largest size the sum
is zero and the first byte is too many (`message_limit_honoured_iff`).
-/

namespace NativeGuard.Process

open Json Data Protocol Protocol.Inventory Io

namespace Inspect

/-! ## §1  The option -/

/-- `std::from_chars` fails on digits that a `size_t` does not hold. -/
def parseSizeDecimal (text : Bytes) : Option Nat :=
  if text = [] then none
  else if ∃ character ∈ text, ¬ IsDigit character then none
  else if 2 ^ 64 ≤ digitsValue text then none
  else if digitsValue text = 0 then none
  else some (digitsValue text)

theorem parseSizeDecimal_some {text : Bytes} {n : Nat} (h : parseSizeDecimal text = some n) :
    0 < n ∧ n < 2 ^ 64 := by
  unfold parseSizeDecimal at h
  split_ifs at h with _ _ hlarge hzero
  cases h
  exact ⟨Nat.pos_of_ne_zero hzero, Nat.not_le.mp hlarge⟩

/-! ## §2  What the child sends -/

/-- The child sends `s` and nothing else, and not always all of it is read. -/
structure Sends (s : Bytes) (turns : List Turn) : Prop where
  stream : turns.flatMap bytesOf <+: s
  reads : ∀ bytes, .data bytes ∈ turns → bytes ≠ [] ∧ bytes.length ≤ readSize

/-- A read comes before the exit, the failure and the deadline. -/
def ReadsFirst : List Turn → Prop
  | .idle :: turns => ReadsFirst turns
  | .data _ :: _ => True
  | _ => False

/-- A line within the limit is never reported as too long, and one beyond it is, once it
has been read. -/
def HonoursLimit (limits : InventoryLimits) (expectedIdJson : Bytes) : Prop :=
  ∀ line, newline ∉ line →
    (line.length ≤ limits.maxMessageBytes → ∀ turns, Sends (line ++ [newline]) turns →
      (receiveExpectedResponse limits expectedIdJson turns).outcome.status ≠ .oversized) ∧
    (limits.maxMessageBytes < line.length → ∀ reads later, Splits (line ++ [newline]) reads →
      (receiveExpectedResponse limits expectedIdJson (reads ++ later)).outcome.status =
        .oversized)

/-! ## §3  The loop -/

variable {limits : InventoryLimits} {expectedIdJson : Bytes}

theorem judged_status (line : Bytes) :
    (judged limits expectedIdJson line).status = judge limits expectedIdJson line := by
  unfold judged
  split
  · next hok => exact hok.symm
  · rfl

theorem firstLine_length_lt {s : Bytes} (h : newline ∈ s) : (firstLine s).length < s.length := by
  have hlength := congrArg List.length (stream_cut h).2
  rw [List.length_append, List.length_cons] at hlength
  omega

/-- There is room for all that the child sends, so the size test never fires and the line
is short. -/
theorem receiveFrom_roomy {pending : Bytes} {turns : List Turn}
    (hroom : room limits = limits.maxMessageBytes + 1)
    (hfits : (pending ++ turns.flatMap bytesOf).length ≤ limits.maxMessageBytes + 1) :
    (receiveFrom limits expectedIdJson pending turns).outcome.status ≠ .oversized := by
  induction turns generalizing pending with
  | nil => exact nofun
  | cons turn turns ih =>
      rw [List.flatMap_cons] at hfits
      cases turn with
      | exited => exact nofun
      | failed => exact nofun
      | idle => exact ih hfits
      | data bytes =>
          rw [← List.append_assoc] at hfits
          have hread : (pending ++ bytes).length ≤ limits.maxMessageBytes + 1 := by
            rw [List.length_append] at hfits
            exact Nat.le_of_add_right_le hfits
          unfold receiveFrom
          dsimp only
          rw [hroom, if_neg (Nat.not_lt.mpr hread)]
          split
          · next hmem =>
            have hshort := firstLine_length_lt hmem
            rw [judged_status]
            exact judge_short (Nat.le_of_lt_succ (Nat.lt_of_lt_of_le hshort hread))
          · exact ih hfits

/-- There is no room for any byte. -/
theorem receiveFrom_wrapped {turns : List Turn} (hroom : room limits = 0)
    (hreads : ∀ bytes, .data bytes ∈ turns → bytes ≠ []) :
    (receiveFrom limits expectedIdJson [] turns).outcome.status = .oversized ↔
      ReadsFirst turns := by
  induction turns with
  | nil => exact iff_of_false nofun nofun
  | cons turn turns ih =>
      cases turn with
      | exited => exact iff_of_false nofun nofun
      | failed => exact iff_of_false nofun nofun
      | idle => exact ih fun bytes hmem => hreads bytes (List.mem_cons_of_mem _ hmem)
      | data bytes =>
          have hne := hreads bytes List.mem_cons_self
          refine iff_of_true ?_ trivial
          unfold receiveFrom
          dsimp only
          rw [hroom, List.nil_append, if_pos (List.length_pos_of_ne_nil hne)]

/-- A line that is too long is not reported as anything else. -/
theorem receiveFrom_long {line pending : Bytes} {reads later : List Turn}
    (hline : newline ∉ line) (hlong : limits.maxMessageBytes < line.length)
    (hpending : newline ∉ pending)
    (hstream : pending ++ reads.flatMap bytesOf = line ++ [newline])
    (hreads : ∀ turn ∈ reads, turn = .idle ∨
      ∃ bytes, turn = .data bytes ∧ bytes ≠ [] ∧ bytes.length ≤ readSize) :
    (receiveFrom limits expectedIdJson pending (reads ++ later)).outcome.status =
      .oversized := by
  induction reads generalizing pending with
  | nil =>
      -- the newline has been read, so it is among the bytes pending
      rw [List.flatMap_nil, List.append_nil] at hstream
      rw [hstream] at hpending
      exact absurd (List.mem_append_right line List.mem_cons_self) hpending
  | cons turn reads ih =>
      obtain ⟨hturn, hrest⟩ := List.forall_mem_cons.mp hreads
      rw [List.flatMap_cons] at hstream
      rcases hturn with rfl | ⟨bytes, rfl, -, -⟩
      · exact ih hpending hstream hrest
      rw [← List.append_assoc] at hstream
      rw [List.cons_append]
      unfold receiveFrom
      dsimp only
      split
      · rfl
      split
      · next hmem =>
        obtain ⟨hfirst, hcut⟩ := stream_cut hmem
        have hwhole : line = firstLine (pending ++ bytes) := by
          have hstart := (firstLine_eq hline []).1
          have hread := (firstLine_eq hfirst
            (afterLine (pending ++ bytes) ++ reads.flatMap bytesOf)).1
          rw [← List.cons_append, ← List.append_assoc, ← hcut] at hread
          exact hstart.symm.trans ((congrArg firstLine hstream.symm).trans hread)
        have hjudged : judged limits expectedIdJson (firstLine (pending ++ bytes)) =
            ⟨.oversized, none⟩ := judged_tooLong (hwhole ▸ hlong)
        exact congrArg Outcome.status hjudged
      · next hmem => exact ih hmem hstream hrest

/-! ## §4  The limits that are honoured -/

theorem room_eq (h : limits.maxMessageBytes < 2 ^ 64) :
    room limits = if limits.maxMessageBytes = 2 ^ 64 - 1 then 0
      else limits.maxMessageBytes + 1 := by
  unfold room
  split
  · next hlargest =>
    rw [hlargest]
    rfl
  · next hsmaller => exact Nat.mod_eq_of_lt (by omega)

theorem receive_short {line : Bytes} {turns : List Turn}
    (hlimit : limits.maxMessageBytes < 2 ^ 64)
    (hshort : line.length ≤ limits.maxMessageBytes) (hsends : Sends (line ++ [newline]) turns) :
    (receiveExpectedResponse limits expectedIdJson turns).outcome.status ≠ .oversized ↔
      limits.maxMessageBytes ≠ 2 ^ 64 - 1 ∨ ¬ ReadsFirst turns := by
  have hroom := room_eq hlimit
  by_cases hlargest : limits.maxMessageBytes = 2 ^ 64 - 1
  · rw [if_pos hlargest] at hroom
    have hwrapped := @receiveFrom_wrapped limits expectedIdJson turns hroom
      fun bytes hmem => (hsends.reads bytes hmem).1
    rw [or_iff_right (not_not.mpr hlargest)]
    exact not_congr hwrapped
  · rw [if_neg hlargest] at hroom
    refine iff_of_true (receiveFrom_roomy hroom ?_) (Or.inl hlargest)
    have hlength := hsends.stream.length_le
    rw [List.length_append, List.length_singleton] at hlength
    rw [List.nil_append]
    exact hlength.trans (Nat.succ_le_succ hshort)

theorem receive_long {line : Bytes} {reads : List Turn} (hline : newline ∉ line)
    (hlong : limits.maxMessageBytes < line.length) (later : List Turn)
    (hsplits : Splits (line ++ [newline]) reads) :
    (receiveExpectedResponse limits expectedIdJson (reads ++ later)).outcome.status =
      .oversized :=
  receiveFrom_long hline hlong List.not_mem_nil hsplits.stream hsplits.reads

theorem sends_newline : Sends ([] ++ [newline]) [.data [newline]] where
  stream := List.prefix_rfl
  reads := by
    intro bytes hmem
    cases List.mem_singleton.mp hmem
    exact ⟨List.cons_ne_nil _ _, Nat.le_of_ble_eq_true rfl⟩

/-- Of the accepted limits all but the largest are honoured. Under that one a line is
reported as too long as soon as a byte of it has been read; a line that is too long is
reported under each of them. -/
theorem message_limit_honoured_iff {text : Bytes} (limits : InventoryLimits)
    (expectedIdJson : Bytes) (h : parseSizeDecimal text = some limits.maxMessageBytes) :
    (HonoursLimit limits expectedIdJson ↔ limits.maxMessageBytes ≠ 2 ^ 64 - 1) ∧
      ∀ line, newline ∉ line →
        (line.length ≤ limits.maxMessageBytes → ∀ turns, Sends (line ++ [newline]) turns →
          ((receiveExpectedResponse limits expectedIdJson turns).outcome.status ≠
              .oversized ↔
            limits.maxMessageBytes ≠ 2 ^ 64 - 1 ∨ ¬ ReadsFirst turns)) ∧
        (limits.maxMessageBytes < line.length →
          ∀ reads later, Splits (line ++ [newline]) reads →
            (receiveExpectedResponse limits expectedIdJson
              (reads ++ later)).outcome.status = .oversized) := by
  have hlimit := (parseSizeDecimal_some h).2
  refine ⟨⟨fun hhonours => ?_, fun hsmaller line hline => ⟨?_, ?_⟩⟩, fun line hline => ⟨?_, ?_⟩⟩
  · have hnewline := (hhonours [] List.not_mem_nil).1 (Nat.zero_le _) _ sends_newline
    rcases (receive_short hlimit (Nat.zero_le _) sends_newline).mp hnewline with hne | hnone
    · exact hne
    · exact absurd trivial hnone
  · exact fun hshort turns hsends => (receive_short hlimit hshort hsends).mpr (Or.inl hsmaller)
  · exact fun hlong reads later hsplits => receive_long hline hlong later hsplits
  · exact fun hshort turns hsends => receive_short hlimit hshort hsends
  · exact fun hlong reads later hsplits => receive_long hline hlong later hsplits

theorem message_limit_honoured_example :
    parseSizeDecimal (ascii "64") = some lineLimits.maxMessageBytes ∧
      HonoursLimit lineLimits initializeIdJson := by
  have haccepted : parseSizeDecimal (ascii "64") = some lineLimits.maxMessageBytes := by decide
  exact ⟨haccepted, (message_limit_honoured_iff lineLimits initializeIdJson haccepted).1.mpr
    (by decide)⟩

def largestText : Bytes := ascii "18446744073709551615"

def largestLimits : InventoryLimits := { maxMessageBytes := 2 ^ 64 - 1 }

/-- The largest size is accepted, and rejects the answer to `initialize`. -/
theorem largest_limit_rejects :
    parseSizeDecimal largestText = some largestLimits.maxMessageBytes ∧
      receiveExpectedResponse largestLimits initializeIdJson [.data initializeLine] =
        ⟨⟨.oversized, none⟩, []⟩ ∧
      ¬ (∀ text limits expectedIdJson, parseSizeDecimal text = some limits.maxMessageBytes →
        HonoursLimit limits expectedIdJson) := by
  have hruns : parseSizeDecimal largestText = some largestLimits.maxMessageBytes ∧
      receiveExpectedResponse largestLimits initializeIdJson [.data initializeLine] =
        ⟨⟨.oversized, none⟩, []⟩ ∧ newline ∉ initializeLine.dropLast ∧
      initializeLine.dropLast.length ≤ largestLimits.maxMessageBytes ∧
      initializeLine.length ≤ readSize ∧ initializeLine.dropLast ++ [newline] = initializeLine ∧
      initializeLine ≠ [] := by
    decide +kernel
  obtain ⟨haccepted, hrejected, hline, hshort, hsize, hwhole, hne⟩ := hruns
  refine ⟨haccepted, hrejected, fun hevery => ?_⟩
  have hsends : Sends (initializeLine.dropLast ++ [newline]) [.data initializeLine] := by
    rw [hwhole]
    refine ⟨List.prefix_rfl, fun bytes hmem => ?_⟩
    cases List.mem_singleton.mp hmem
    exact ⟨hne, hsize⟩
  have hhonoured := hevery largestText largestLimits initializeIdJson haccepted _ hline
  apply hhonoured.1 hshort _ hsends
  rw [hrejected]

end Inspect

end NativeGuard.Process

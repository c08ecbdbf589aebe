import NativeGuard.Json.Grammar

/-!
# Reading a bounded file

`load_file` (`src/policy_loader.cpp`) and `run_policy_create` (`src/policy_create.cpp`)
ask for one byte more than they allow, so a file is never read beyond that, and one that
fits is read whole (`read_ok_iff`).
-/

namespace NativeGuard.Io

open Json

/-- A file that is opened for reading. -/
inductive InputFile where
  | missing
  | unreadable
  | bytes (content : Bytes)

inductive ReadError where
  | cannotOpen
  | cannotRead
  | tooLarge
deriving DecidableEq, Repr

/-- The first `limit + 1` bytes, and the check of their number. -/
def InputFile.read (limit : Nat) : InputFile → Except ReadError Bytes
  | .missing => .error .cannotOpen
  | .unreadable => .error .cannotRead
  | .bytes content =>
      if limit < (content.take (limit + 1)).length then .error .tooLarge
      else .ok (content.take (limit + 1))

theorem InputFile.read_ok_iff {limit : Nat} {file : InputFile} {content : Bytes} :
    file.read limit = .ok content ↔ file = .bytes content ∧ content.length ≤ limit := by
  cases file with
  | missing => exact iff_of_false nofun fun h => nomatch h.1
  | unreadable => exact iff_of_false nofun fun h => nomatch h.1
  | bytes whole =>
      rw [InputFile.read, List.length_take, InputFile.bytes.injEq]
      by_cases hfits : whole.length ≤ limit
      · rw [if_neg (by omega), List.take_of_length_le (by omega), Except.ok.injEq]
        exact ⟨fun h => ⟨h, h ▸ hfits⟩, fun h => h.1⟩
      · rw [if_pos (by omega)]
        refine iff_of_false nofun ?_
        rintro ⟨rfl, hle⟩
        exact hfits hle

end NativeGuard.Io

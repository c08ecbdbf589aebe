import NativeGuard.Data.Options
import NativeGuard.Io.AtomicFileWriter

/-!
# The output of a command

`run_inspect` (`src/inspect.cpp`) and `run_policy_create` (`src/policy_create.cpp`) end
alike: a text and a newline on the standard output, or in a file that is replaced as a
whole. If that fails, no file has changed (`writeOutput_error_nodes`).
-/

namespace NativeGuard.Io

open Json Data

/-- How the standard output and the calls of the file writer come out. `stdoutGood` is the
state of the buffered stream where the code tests it: a flush that fails at exit is not
seen. The `unlink` of a temporary file succeeds. -/
structure OutputWorld (Entry : Type) where
  stdoutGood : Bool
  locate : Bytes → Entry
  answers : Answers

inductive OutputError where
  | standardOutput
  | file (error : AtomicWriteError)
deriving DecidableEq

/-- What a command has written to `stdout`, and the file system behind it. -/
abbrev Finished (ε Entry : Type) : Type := Except ε Bytes × FileSystem Entry

def Finished.mapError {ε ε' Entry : Type} (f : ε → ε') (finished : Finished ε Entry) :
    Finished ε' Entry :=
  (finished.1.mapError f, finished.2)

section mapError

variable {ε ε' Entry : Type} {f : ε → ε'} {finished : Option (Finished ε Entry)}

theorem Finished.mapError_ok_iff {stdout : Bytes} {after : FileSystem Entry} :
    finished.map (Finished.mapError f) = some (.ok stdout, after) ↔
      finished = some (.ok stdout, after) := by
  cases finished with
  | none => exact iff_of_false nofun nofun
  | some finished =>
      obtain ⟨result, fs⟩ := finished
      show some (result.mapError f, fs) = _ ↔ _
      rw [Option.some.injEq, Option.some.injEq, Prod.mk.injEq, Prod.mk.injEq, Data.mapError_ok_iff]

theorem Finished.mapError_error {e : ε'} {after : FileSystem Entry}
    (h : finished.map (Finished.mapError f) = some (.error e, after)) :
    ∃ e', finished = some (.error e', after) := by
  obtain ⟨⟨result, fs⟩, hfinished, hresult⟩ := Option.map_eq_some_iff.mp h
  obtain ⟨herror, rfl⟩ := Prod.mk.inj hresult
  cases result with
  | error e' => exact ⟨e', hfinished⟩
  | ok stdout => cases herror

end mapError

variable {Entry : Type} [DecidableEq Entry] (world : OutputWorld Entry) (tempFilePrefix : Bytes)

/-- Nothing while a call of the writer has not come back. -/
def writeOutput (outputPath text : Bytes) (fs : FileSystem Entry) :
    Option (Finished OutputError Entry) :=
  if outputPath = [] then
    if world.stdoutGood = true then some (.ok (text ++ [0x0A]), fs)
    else some (.error .standardOutput, fs)
  else
    (writeFileAtomic world.locate world.answers outputPath (text ++ [0x0A]) tempFilePrefix
      fs).map fun written => ((written.1.map fun _ => []).mapError .file, written.2)

/-- The text and a newline, on the standard output or at the path. -/
def WrittenTo (path : Option Bytes) (text : Bytes) (before : FileSystem Entry) (stdout : Bytes)
    (after : FileSystem Entry) : Prop :=
  match path with
  | none => world.stdoutGood = true ∧ stdout = text ++ [0x0A] ∧ after = before
  | some path => stdout = [] ∧ writeFileAtomic world.locate world.answers path
      (text ++ [0x0A]) tempFilePrefix before = some (.ok (), after)

variable {world tempFilePrefix}

theorem writeOutput_ok_iff {path : Option Bytes} (hpath : ∀ p, path = some p → p ≠ [])
    {text stdout : Bytes} {before after : FileSystem Entry} :
    writeOutput world tempFilePrefix (path.getD []) text before = some (.ok stdout, after) ↔
      WrittenTo world tempFilePrefix path text before stdout after := by
  unfold writeOutput WrittenTo
  cases path with
  | none =>
      rw [Option.getD_none, if_pos rfl]
      by_cases hgood : world.stdoutGood = true
      · rw [if_pos hgood, Option.some.injEq, Prod.mk.injEq, Except.ok.injEq]
        exact ⟨fun h => ⟨hgood, h.1.symm, h.2.symm⟩, fun h => ⟨h.2.1.symm, h.2.2.symm⟩⟩
      · rw [if_neg hgood]
        exact iff_of_false nofun fun h => hgood h.1
  | some path =>
      rw [Option.getD_some, if_neg (hpath path rfl), Option.map_eq_some_iff]
      constructor
      · rintro ⟨⟨result, fs⟩, hwritten, h⟩
        obtain ⟨hresult, rfl⟩ := Prod.mk.inj h
        cases result with
        | error e => cases hresult
        | ok done =>
            cases hresult
            exact ⟨rfl, hwritten⟩
      · rintro ⟨rfl, hwritten⟩
        exact ⟨_, hwritten, rfl⟩

theorem writeOutput_error_nodes {outputPath text : Bytes} {nodes : Entry → Option Node}
    {e : OutputError} {after : FileSystem Entry}
    (h : writeOutput world tempFilePrefix outputPath text { nodes := nodes } =
      some (.error e, after)) : after.nodes = nodes := by
  unfold writeOutput at h
  split at h
  · split at h
    · cases h
    · cases h
      rfl
  · obtain ⟨⟨result, fs⟩, hwritten, hresult⟩ := Option.map_eq_some_iff.mp h
    obtain ⟨herror, rfl⟩ := Prod.mk.inj hresult
    rcases writeFileAtomic_cases hwritten with ⟨_, hcase⟩ | ⟨_, hcase⟩ | ⟨-, hcase⟩
    · cases hcase
      rfl
    · cases hcase
      rfl
    · cases hcase
      cases herror

/-- The file that has been written. -/
theorem written_nodes {path text stdout : Bytes} {nodes : Entry → Option Node}
    {after : FileSystem Entry}
    (h : WrittenTo world tempFilePrefix (some path) text { nodes := nodes } stdout after) :
    after.nodes = Function.update nodes (world.locate path) (some (.file (text ++ [0x0A]))) := by
  rcases writeFileAtomic_cases h.2 with ⟨_, hcase⟩ | ⟨_, hcase⟩ | ⟨-, hcase⟩
  · cases hcase
  · cases hcase
  · cases hcase
    rfl

end NativeGuard.Io

import Mathlib.Logic.Function.Basic
import NativeGuard.Json.Grammar

/-!
# The atomic file writer (`io/atomic_file_writer.hpp`, `src/atomic_file_writer.cpp`)

`write_file_atomic` writes a temporary file beside the destination and renames it
over the destination. The system may let any of its calls fail and may cut its writes
short; whatever it answers, the nodes of the file system are afterwards the ones
before, or these with the contents at the destination (`writeFileAtomic_cases`).
-/

namespace NativeGuard.Io

open Json

/-! ## §1  The file system -/

inductive Node where
  | file (contents : Bytes)
  | directory
  | symlink
  | special
deriving DecidableEq

/-- The nodes by directory entry, and the descriptor that the writer holds, with the
number of descriptors it was given and of those it gave back. -/
@[ext] structure FileSystem (Entry : Type) where
  nodes : Entry → Option Node
  descriptor : Option Entry := none
  opened : Nat := 0
  closed : Nat := 0

def Node.append (bytes : Bytes) : Node → Node
  | .file contents => .file (contents ++ bytes)
  | node => node

namespace FileSystem

variable {Entry : Type} [DecidableEq Entry] (fs : FileSystem Entry)

/-- `open` with `O_CREAT | O_EXCL`, of an entry that does not exist. -/
def create (entry : Entry) : FileSystem Entry :=
  { nodes := Function.update fs.nodes entry (some (.file []))
    descriptor := some entry
    opened := fs.opened + 1
    closed := fs.closed }

def write (bytes : Bytes) : FileSystem Entry :=
  match fs.descriptor with
  | some entry =>
      { fs with nodes := Function.update fs.nodes entry ((fs.nodes entry).map (.append bytes)) }
  | none => fs

/-- The descriptor is given back even if `close` reports an error. -/
def close : FileSystem Entry := { fs with descriptor := none, closed := fs.closed + 1 }

def unlink (entry : Entry) : FileSystem Entry :=
  { fs with nodes := Function.update fs.nodes entry none }

/-- In one step; an entry renamed to itself stays. -/
def rename (source target : Entry) : FileSystem Entry :=
  if source = target then fs
  else
    { fs with
      nodes := Function.update (Function.update fs.nodes target (fs.nodes source)) source none }

end FileSystem

/-! ## §2  `write_file_atomic` -/

inductive AtomicWriteError where
  | invalidDestination
  | destinationUnusable
  | directoryUnusable
  | temporaryFileCreate
  | temporaryFileWrite
  | temporaryFileSync
  | temporaryFileClose
  | renameFailed
deriving DecidableEq

/-- What one `write` comes back with; it moves no more than it was given. -/
inductive WriteAnswer where
  | moved (count : Nat)
  | interrupted
  | failed
deriving DecidableEq

/-- What the calls come back with. A call that does not fail tells the truth, and
`mkstemp` picks the last bytes of the name. -/
structure Answers where
  lstatFails : Bool := false
  directoryStat : Option Node := some .directory
  mkstemp : Option Bytes
  writes : List WriteAnswer
  fsyncFails : Bool := false
  closeFails : Bool := false
  renameFails : Bool := false

def slash : UInt8 := 0x2F

/-- `find_last_of('/')` -/
def lastSlash (destination : Bytes) : Option Nat :=
  (destination.reverse.idxOf? slash).map fun i => destination.length - 1 - i

def directoryOf (destination : Bytes) : Bytes :=
  match lastSlash destination with
  | none => ascii "."
  | some 0 => ascii "/"
  | some i => destination.take i

/-- The template with `suffix` in the place of its `XXXXXX`. -/
def temporaryPath (destination tempFilePrefix suffix : Bytes) : Bytes :=
  let directory := directoryOf destination
  directory ++ (if directory.getLast? ≠ some slash then [slash] else []) ++
    ascii "." ++ tempFilePrefix ++ ascii "-" ++ suffix

def isInvalidDestination (destination : Bytes) : Bool :=
  decide (destination = [] ∨ destination = ascii "." ∨ destination = ascii ".." ∨
    destination.getLast? = some slash)

/-- `lstat` found neither a directory nor a link, or reported `ENOENT`. -/
def isUsable : Option Node → Bool
  | some .directory => false
  | some .symlink => false
  | _ => true

variable {Entry : Type} [DecidableEq Entry]

/-- What `write_file_atomic` returns, and the file system after it. -/
abbrev Written (Entry : Type) : Type := Except AtomicWriteError Unit × FileSystem Entry

/-- Nothing while the next call has not come back. -/
def writeLoop : List WriteAnswer → Bytes → FileSystem Entry → Option (Bool × FileSystem Entry)
  | _, [], fs => some (true, fs)
  | [], _ :: _, _ => none
  | .moved count :: answers, byte :: remaining, fs =>
      -- a `write` of nothing is taken for a failure
      if count > 0 then
        writeLoop answers ((byte :: remaining).drop count)
          (fs.write ((byte :: remaining).take count))
      else some (false, fs)
  | .interrupted :: answers, byte :: remaining, fs => writeLoop answers (byte :: remaining) fs
  | .failed :: _, _ :: _, fs => some (false, fs)

def failTemp (error : AtomicWriteError) (temporary : Entry) (fs : FileSystem Entry) :
    Written Entry :=
  (.error error, fs.close.unlink temporary)

/-- From `fsync` on. -/
def finish (answers : Answers) (temporary destination : Entry) (fs : FileSystem Entry) :
    Written Entry :=
  if answers.fsyncFails then failTemp .temporaryFileSync temporary fs
  else if answers.closeFails then (.error .temporaryFileClose, fs.close.unlink temporary)
  else if answers.renameFails then (.error .renameFailed, fs.close.unlink temporary)
  else (.ok (), fs.close.rename temporary destination)

/-- `locate` is the entry that a path names: its directory, and its last component
without following a link. `mkstemp` takes no entry that exists. -/
def writeFileAtomic (locate : Bytes → Entry) (answers : Answers)
    (destination contents tempFilePrefix : Bytes) (fs : FileSystem Entry) :
    Option (Written Entry) :=
  if isInvalidDestination destination then some (.error .invalidDestination, fs)
  else if answers.lstatFails || !isUsable (fs.nodes (locate destination)) then
    some (.error .destinationUnusable, fs)
  else if answers.directoryStat ≠ some .directory then some (.error .directoryUnusable, fs)
  else
    match answers.mkstemp with
    | none => some (.error .temporaryFileCreate, fs)
    | some suffix =>
        let temporary := locate (temporaryPath destination tempFilePrefix suffix)
        if fs.nodes temporary ≠ none then some (.error .temporaryFileCreate, fs)
        else
          match writeLoop answers.writes contents (fs.create temporary) with
          | none => none
          | some (false, fs) => some (failTemp .temporaryFileWrite temporary fs)
          | some (true, fs) => some (finish answers temporary (locate destination) fs)

/-! ## §3  The temporary file -/

variable {nodes : Entry → Option Node} {temporary : Entry}

/-- The temporary file is open and holds `contents`; all else is as before. -/
def staged (nodes : Entry → Option Node) (temporary : Entry) (contents : Bytes) :
    FileSystem Entry where
  nodes := Function.update nodes temporary (some (.file contents))
  descriptor := some temporary
  opened := 1
  closed := 0

theorem create_staged (nodes : Entry → Option Node) (temporary : Entry) :
    ({ nodes := nodes } : FileSystem Entry).create temporary = staged nodes temporary [] := rfl

theorem write_staged (contents bytes : Bytes) :
    (staged nodes temporary contents).write bytes = staged nodes temporary (contents ++ bytes) := by
  ext1
  · show Function.update (Function.update nodes temporary (some (.file contents))) temporary
      ((Function.update nodes temporary (some (.file contents)) temporary).map
        (.append bytes)) = _
    rw [Function.update_idem, Function.update_self]
    rfl
  · rfl
  · rfl
  · rfl

/-- The loop adds to the file what it has moved, all of it if it finishes. -/
theorem writeLoop_staged {answers : List WriteAnswer} {remaining : Bytes} {finished : Bool}
    {fs : FileSystem Entry} {contents : Bytes}
    (h : writeLoop answers remaining (staged nodes temporary contents) = some (finished, fs)) :
    ∃ moved, fs = staged nodes temporary (contents ++ moved) ∧
      (finished = true → moved = remaining) := by
  induction answers generalizing remaining contents with
  | nil =>
      cases remaining with
      | nil =>
          cases h
          exact ⟨[], by rw [List.append_nil], fun _ => rfl⟩
      | cons byte remaining => cases h
  | cons answer answers ih =>
      cases remaining with
      | nil =>
          cases h
          exact ⟨[], by rw [List.append_nil], fun _ => rfl⟩
      | cons byte remaining =>
          cases answer with
          | moved count =>
              rw [writeLoop] at h
              split at h
              · rw [write_staged] at h
                obtain ⟨moved, hfs, hall⟩ := ih h
                refine ⟨(byte :: remaining).take count ++ moved, ?_, ?_⟩
                · rw [hfs, List.append_assoc]
                · intro hfinished
                  rw [hall hfinished, List.take_append_drop]
              · cases h
                exact ⟨[], by rw [List.append_nil], fun hfinished => by cases hfinished⟩
          | interrupted => exact ih h
          | failed =>
              cases h
              exact ⟨[], by rw [List.append_nil], fun hfinished => by cases hfinished⟩

/-- Every answer but an interruption moves a byte or ends the loop. -/
theorem writeLoop_returns {answers : List WriteAnswer} {remaining : Bytes}
    {fs : FileSystem Entry}
    (h : remaining.length ≤ (answers.filter fun answer => answer ≠ .interrupted).length) :
    ∃ result, writeLoop answers remaining fs = some result := by
  induction answers generalizing remaining fs with
  | nil =>
      cases remaining with
      | nil => exact ⟨_, rfl⟩
      | cons byte remaining => exact absurd h (Nat.not_succ_le_zero _)
  | cons answer answers ih =>
      cases remaining with
      | nil => exact ⟨_, rfl⟩
      | cons byte remaining =>
          cases answer with
          | moved count =>
              rw [writeLoop]
              split
              · apply ih
                have hlater : remaining.length ≤
                    (answers.filter fun answer => answer ≠ .interrupted).length :=
                  Nat.le_of_succ_le_succ h
                rw [List.length_drop, List.length_cons]
                omega
              · exact ⟨_, rfl⟩
          | interrupted => exact ih h
          | failed => exact ⟨_, rfl⟩

/-- The descriptor has been given back. -/
def settled (nodes : Entry → Option Node) : FileSystem Entry where
  nodes := nodes
  opened := 1
  closed := 1

theorem unlink_staged (h : nodes temporary = none) (contents : Bytes) :
    (staged nodes temporary contents).close.unlink temporary = settled nodes := by
  ext1
  · show Function.update (Function.update nodes temporary (some (.file contents))) temporary
      none = nodes
    rw [Function.update_idem, Function.update_eq_self_iff]
    exact h.symm
  · rfl
  · rfl
  · rfl

/-- The temporary may have been created at the destination itself. -/
theorem rename_staged (h : nodes temporary = none) (destination : Entry) (contents : Bytes) :
    (staged nodes temporary contents).close.rename temporary destination =
      settled (Function.update nodes destination (some (.file contents))) := by
  unfold FileSystem.rename
  split
  · rename_i heq
    rw [heq]
    rfl
  · rename_i hne
    have hback : Function.update nodes temporary none = nodes := by
      rw [Function.update_eq_self_iff]
      exact h.symm
    ext1
    · show Function.update (Function.update (Function.update nodes temporary
          (some (.file contents))) destination
            (Function.update nodes temporary (some (.file contents)) temporary)) temporary
              none = Function.update nodes destination (some (.file contents))
      rw [Function.update_self, Function.update_comm (Ne.symm hne), Function.update_idem, hback]
    · rfl
    · rfl
    · rfl

theorem finish_staged (h : nodes temporary = none) (answers : Answers) (destination : Entry)
    (contents : Bytes) :
    (∃ error, finish answers temporary destination (staged nodes temporary contents) =
        (.error error, settled nodes)) ∨
      finish answers temporary destination (staged nodes temporary contents) =
        (.ok (), settled (Function.update nodes destination (some (.file contents)))) := by
  have hunlink := unlink_staged h contents
  have hrename := rename_staged h destination contents
  unfold finish failTemp
  rw [hunlink, hrename]
  split_ifs
  · exact Or.inl ⟨_, rfl⟩
  · exact Or.inl ⟨_, rfl⟩
  · exact Or.inl ⟨_, rfl⟩
  · exact Or.inr rfl

/-! ## §4  All or nothing -/

/-- The writer fails before it has a descriptor, fails with all as it was, or
succeeds. -/
theorem writeFileAtomic_cases {locate : Bytes → Entry} {answers : Answers}
    {destination contents tempFilePrefix : Bytes} {written : Written Entry}
    (h : writeFileAtomic locate answers destination contents tempFilePrefix
      { nodes := nodes } = some written) :
    (∃ error, written = (.error error, { nodes := nodes })) ∨
      (∃ error, written = (.error error, settled nodes)) ∨
      isUsable (nodes (locate destination)) = true ∧
        written = (.ok (),
          settled (Function.update nodes (locate destination) (some (.file contents)))) := by
  unfold writeFileAtomic at h
  split at h
  · exact Or.inl ⟨_, (Option.some.inj h).symm⟩
  split at h
  · exact Or.inl ⟨_, (Option.some.inj h).symm⟩
  rename_i hlstat
  split at h
  · exact Or.inl ⟨_, (Option.some.inj h).symm⟩
  split at h
  · exact Or.inl ⟨_, (Option.some.inj h).symm⟩
  dsimp only at h
  split at h
  · exact Or.inl ⟨_, (Option.some.inj h).symm⟩
  rename_i hvacant
  have husable : isUsable (nodes (locate destination)) = true := by
    simpa using (not_or.mp (mt (Bool.or_eq_true _ _).mpr hlstat)).2
  have hfree := not_not.mp hvacant
  rw [create_staged] at h
  split at h
  · cases h
  · rename_i hloop
    obtain ⟨moved, rfl, -⟩ := writeLoop_staged hloop
    rw [failTemp, unlink_staged hfree] at h
    exact Or.inr (Or.inl ⟨_, (Option.some.inj h).symm⟩)
  · rename_i hloop
    obtain ⟨moved, rfl, hall⟩ := writeLoop_staged hloop
    rw [hall rfl, List.nil_append] at h
    rcases finish_staged hfree answers (locate destination) contents with ⟨error, herror⟩ | hok
    · rw [herror] at h
      exact Or.inr (Or.inl ⟨error, (Option.some.inj h).symm⟩)
    · rw [hok] at h
      exact Or.inr (Or.inr ⟨husable, (Option.some.inj h).symm⟩)

/-- What a run leaves behind. -/
structure AllOrNothing (nodes : Entry → Option Node) (destination : Entry) (contents : Bytes)
    (written : Written Entry) : Prop where
  all : written.1 = .ok () →
    written.2.nodes = Function.update nodes destination (some (.file contents))
  nothing : written.1 ≠ .ok () → written.2.nodes = nodes
  tells : nodes destination ≠ some (.file contents) →
    (written.1 = .ok () ↔ written.2.nodes destination = some (.file contents))
  closed : written.2.descriptor = none ∧ written.2.opened ≤ 1 ∧
    written.2.closed = written.2.opened
  refused : nodes destination = some .directory ∨ nodes destination = some .symlink →
    written.1 ≠ .ok ()

theorem allOrNothing_error {destination : Entry} {contents : Bytes} {error : AtomicWriteError}
    {fs : FileSystem Entry} (hnodes : fs.nodes = nodes)
    (hclosed : fs.descriptor = none ∧ fs.opened ≤ 1 ∧ fs.closed = fs.opened) :
    AllOrNothing nodes destination contents (.error error, fs) where
  all h := by cases h
  nothing _ := hnodes
  tells hbefore := by
    constructor
    · intro h
      cases h
    · intro h
      exact absurd (hnodes ▸ h) hbefore
  closed := hclosed
  refused _ h := by cases h

/-- Whatever the calls come back with, a run that returns replaces the destination or
leaves all as it was, and it returns once enough writes were not interrupted. -/
theorem write_file_all_or_nothing (locate : Bytes → Entry) (answers : Answers)
    (destination contents tempFilePrefix : Bytes) (nodes : Entry → Option Node) :
    (∀ written, writeFileAtomic locate answers destination contents tempFilePrefix
        { nodes := nodes } = some written →
        AllOrNothing nodes (locate destination) contents written) ∧
      (contents.length ≤
          (answers.writes.filter fun answer => answer ≠ .interrupted).length →
        ∃ written, writeFileAtomic locate answers destination contents tempFilePrefix
          { nodes := nodes } = some written) := by
  constructor
  · intro written h
    rcases writeFileAtomic_cases h with ⟨error, rfl⟩ | ⟨error, rfl⟩ | ⟨husable, rfl⟩
    · exact allOrNothing_error rfl ⟨rfl, Nat.zero_le 1, rfl⟩
    · exact allOrNothing_error rfl ⟨rfl, le_refl 1, rfl⟩
    · refine ⟨fun _ => rfl, fun hne => absurd rfl hne, fun _ => ?_, ⟨rfl, le_refl 1, rfl⟩, ?_⟩
      · exact iff_of_true rfl (Function.update_self _ _ _)
      · rintro (hnode | hnode)
        · rw [hnode] at husable
          cases husable
        · rw [hnode] at husable
          cases husable
  · intro hwrites
    unfold writeFileAtomic
    split
    · exact ⟨_, rfl⟩
    split
    · exact ⟨_, rfl⟩
    split
    · exact ⟨_, rfl⟩
    split
    · exact ⟨_, rfl⟩
    dsimp only
    split
    · exact ⟨_, rfl⟩
    obtain ⟨⟨finished, fs⟩, hloop⟩ := @writeLoop_returns Entry _ _ _ _ hwrites
    rw [hloop]
    cases finished with
    | true => exact ⟨_, rfl⟩
    | false => exact ⟨_, rfl⟩

/-- A file that holds the contents already, and answers of which `fsync` is an error. -/
def oldNodes : Bytes → Option Node :=
  Function.update (fun _ => none) (ascii "policy.json") (some (.file (ascii "x")))

def syncFails : Answers where
  mkstemp := some (ascii "a1b2c3")
  writes := [.interrupted, .moved 1]
  fsyncFails := true

theorem write_file_same_contents :
    ∃ written, writeFileAtomic id syncFails (ascii "policy.json") (ascii "x")
        (ascii "mng-policy") { nodes := oldNodes } = some written ∧
      ¬ (written.1 = .ok () ↔
        written.2.nodes (ascii "policy.json") = some (.file (ascii "x"))) := by
  refine ⟨_, rfl, ?_⟩
  decide

end NativeGuard.Io

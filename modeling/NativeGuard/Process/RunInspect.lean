import NativeGuard.Io.CommandOutput
import NativeGuard.Process.InspectSession
import NativeGuard.Process.RunOptions

/-!
# `run_inspect` (`src/inspect.cpp`)

The options are read, the server is started, and the inventory of its session is written
to the standard output or to a file. A run succeeds exactly if each of them does
(`inspect_ok_iff`), and one that fails leaves every file as it was
(`inspect_error_nodes`).
-/

namespace NativeGuard.Process

open Json Json.Scan Data Io Protocol Protocol.Inventory

/-! ## §1  The command line -/

/-- `parse_size_decimal`. -/
abbrev parseSizeDecimal (text : Bytes) : Option Nat := parseBoundedInteger text

/-- The same for an `unsigned`. -/
def parseUnsignedDecimal (text : Bytes) : Option Nat :=
  (parseSizeDecimal text).filter (· < 2 ^ 32)

inductive InspectOption where
  | timeout
  | shutdownTimeoutMs
  | maxMessageBytes
  | maxNestingDepth
  | maxTools
  | maxToolNameBytes
  | maxToolDescriptionBytes
  | maxToolSchemaBytes
  | straceFile
  | output
deriving DecidableEq, Repr

def InspectOption.word : InspectOption → Bytes
  | timeout => ascii "--timeout"
  | shutdownTimeoutMs => ascii "--shutdown-timeout-ms"
  | maxMessageBytes => ascii "--max-message-bytes"
  | maxNestingDepth => ascii "--max-nesting-depth"
  | maxTools => ascii "--max-tools"
  | maxToolNameBytes => ascii "--max-tool-name-bytes"
  | maxToolDescriptionBytes => ascii "--max-tool-description-bytes"
  | maxToolSchemaBytes => ascii "--max-tool-schema-bytes"
  | straceFile => ascii "--strace-file"
  | output => ascii "--output"

inductive InspectRefusal where
  | policyOrAudit
  | invalid (option : InspectOption)
  | unknown (argument : Bytes)
  | missingCommand
deriving DecidableEq, Repr

/-- The locals of `run_inspect` that the loop sets. -/
structure InspectOptions where
  inventory : InventoryLimits := {}
  timeoutSeconds : Nat := 5
  shutdownTimeoutMs : Nat := 2000
  outputPath : Bytes := []
  straceFilePath : Bytes := []
  /-- `saw_timeout` and the like. -/
  saw : InspectOption → Bool := fun _ => false

/-- The options of `run` are refused by name. -/
def isPolicyOrAudit (argument : Bytes) : Bool :=
  argument == ascii "--policy" || argument == ascii "--deny-tool" ||
    argument == ascii "--server-label" || argument == ascii "--audit-file" ||
      argument == ascii "--audit-stderr"

/-- The comparisons of the loop, in their order. -/
def findInspectOption (argument : Bytes) : Except InspectRefusal InspectOption :=
  if isPolicyOrAudit argument = true then .error .policyOrAudit
  else if argument = ascii "--timeout" then .ok .timeout
  else if argument = ascii "--shutdown-timeout-ms" then .ok .shutdownTimeoutMs
  else if argument = ascii "--max-message-bytes" then .ok .maxMessageBytes
  else if argument = ascii "--max-nesting-depth" then .ok .maxNestingDepth
  else if argument = ascii "--max-tools" then .ok .maxTools
  else if argument = ascii "--max-tool-name-bytes" then .ok .maxToolNameBytes
  else if argument = ascii "--max-tool-description-bytes" then .ok .maxToolDescriptionBytes
  else if argument = ascii "--max-tool-schema-bytes" then .ok .maxToolSchemaBytes
  else if argument = ascii "--strace-file" then .ok .straceFile
  else if argument = ascii "--output" then .ok .output
  else .error (.unknown argument)

/-- An option is refused once it has been seen. -/
def seenOnce {β : Type} (name : InspectOption) (read : Bytes → Option β)
    (set : InspectOptions → β → InspectOptions) : Switch InspectRefusal InspectOptions Bytes :=
  .reading (.invalid name) (fun options => options.saw name) read fun options value =>
    { set options value with saw := Function.update options.saw name true }

def parseTimeout (text : Bytes) : Option Nat := (parseUnsignedDecimal text).filter (· ≤ 300)

def inspectSwitch : InspectOption → Switch InspectRefusal InspectOptions Bytes
  | .timeout =>
      seenOnce .timeout parseTimeout
        fun options value => { options with timeoutSeconds := value }
  | .shutdownTimeoutMs =>
      seenOnce .shutdownTimeoutMs parseUnsignedDecimal
        fun options value => { options with shutdownTimeoutMs := value }
  | .maxMessageBytes =>
      seenOnce .maxMessageBytes parseSizeDecimal fun options value =>
        { options with inventory := { options.inventory with maxMessageBytes := value } }
  | .maxNestingDepth =>
      seenOnce .maxNestingDepth parseSizeDecimal fun options value =>
        { options with inventory := { options.inventory with maxNestingDepth := value } }
  | .maxTools =>
      seenOnce .maxTools parseSizeDecimal fun options value =>
        { options with inventory := { options.inventory with maxTools := value } }
  | .maxToolNameBytes =>
      seenOnce .maxToolNameBytes parseSizeDecimal fun options value =>
        { options with inventory := { options.inventory with maxToolNameBytes := value } }
  | .maxToolDescriptionBytes =>
      seenOnce .maxToolDescriptionBytes parseSizeDecimal fun options value =>
        { options with inventory := { options.inventory with maxToolDescriptionBytes := value } }
  | .maxToolSchemaBytes =>
      seenOnce .maxToolSchemaBytes parseSizeDecimal fun options value =>
        { options with inventory := { options.inventory with maxToolSchemaBytes := value } }
  | .straceFile =>
      seenOnce .straceFile (keepIf validStraceOutputPath)
        fun options value => { options with straceFilePath := value }
  | .output =>
      seenOnce .output (keepIf validText)
        fun options value => { options with outputPath := value }

/-- The loop, and the check behind it: the options and the command. -/
def readInspectArguments (arguments : List Bytes) :
    Except InspectRefusal (InspectOptions × List Bytes) := do
  let (options, rest) ← readOptions findInspectOption inspectSwitch isSeparator {} arguments
  match rest with
  | [] => .error .missingCommand
  | [_] => .error .missingCommand
  | _ :: command => .ok (options, command)

/-! ## §2  What the loop accepts -/

/-- A value that the option takes. -/
def InspectOption.Takes (name : InspectOption) (value : Bytes) : Prop :=
  match name with
  | .timeout => (parseTimeout value).isSome = true
  | .shutdownTimeoutMs => (parseUnsignedDecimal value).isSome = true
  | .straceFile => validStraceOutputPath value = true
  | .output => validText value = true
  | .maxMessageBytes | .maxNestingDepth | .maxTools | .maxToolNameBytes
  | .maxToolDescriptionBytes | .maxToolSchemaBytes => (parseSizeDecimal value).isSome = true

def ValidInspectOption : Written InspectOption Bytes → Prop
  | .flag _ => False
  | .valued name value => name.Takes value

/-- Every option is given once. -/
abbrev InspectOptionsFormed (options : List (Written InspectOption Bytes)) : Prop :=
  WellFormed (fun _ => True) ValidInspectOption options

def numberOf (name : InspectOption) (read : Bytes → Option Nat) (default : Nat)
    (options : List (Written InspectOption Bytes)) : Nat :=
  ((valueOf? name options).bind read).getD default

/-- The limits that the options set. -/
def inventoryLimitsOf (options : List (Written InspectOption Bytes)) : InventoryLimits where
  maxMessageBytes := numberOf .maxMessageBytes parseSizeDecimal (1024 * 1024) options
  maxNestingDepth := numberOf .maxNestingDepth parseSizeDecimal 64 options
  maxTools := numberOf .maxTools parseSizeDecimal 256 options
  maxToolNameBytes := numberOf .maxToolNameBytes parseSizeDecimal 256 options
  maxToolDescriptionBytes := numberOf .maxToolDescriptionBytes parseSizeDecimal 8192 options
  maxToolSchemaBytes := numberOf .maxToolSchemaBytes parseSizeDecimal 65536 options

/-- The locals, looked up in the options. -/
def inspectOptionsOf (options : List (Written InspectOption Bytes)) : InspectOptions where
  inventory := inventoryLimitsOf options
  timeoutSeconds := numberOf .timeout parseTimeout 5 options
  shutdownTimeoutMs := numberOf .shutdownTimeoutMs parseUnsignedDecimal 2000 options
  outputPath := (valueOf? .output options).getD []
  straceFilePath := (valueOf? .straceFile options).getD []
  saw name := (valueOf? name options).isSome

theorem inspectOption_spelling :
    Spelling findInspectOption InspectOption.word isSeparator where
  find_iff := by
    intro w name
    constructor
    · intro h
      rw [findInspectOption, ite_eq_iff] at h
      rcases h with ⟨-, h⟩ | ⟨-, h⟩
      · cases h
      -- one comparison after the other
      iterate 10
        rw [ite_eq_iff] at h
        rcases h with ⟨heq, h⟩ | ⟨-, h⟩
        · cases h
          exact heq
      cases h
    · rintro rfl
      cases name <;> rfl
  not_stop := by
    intro name
    cases name <;> rfl

section records

variable {options : List (Written InspectOption Bytes)}

/-- What is seen behind one more option. -/
theorem saw_append {name : InspectOption} {value : Bytes}
    (hnew : ∀ earlier ∈ options, earlier.name ≠ name) :
    Function.update (inspectOptionsOf options).saw name true =
      (inspectOptionsOf (options ++ [.valued name value])).saw := by
  funext name'
  by_cases heq : name' = name
  · subst heq
    rw [Function.update_self]
    show true = (valueOf? _ _).isSome
    rw [valueOf?_append_fresh hnew]
    rfl
  · rw [Function.update_of_ne heq]
    show (valueOf? _ _).isSome = (valueOf? _ _).isSome
    rw [valueOf?_append_of_ne (Ne.symm heq)]

/-- An option that sets what the options say of it. -/
theorem records_seenOnce (hformed : InspectOptionsFormed options) {β : Type}
    {name : InspectOption} {read : Bytes → Option β}
    {set : InspectOptions → β → InspectOptions} (h : inspectSwitch name = seenOnce name read set)
    {value : Bytes} (htakes : (read value).isSome = true ↔ name.Takes value)
    (hset : ∀ r, read value = some r → (∀ earlier ∈ options, earlier.name ≠ name) →
      { set (inspectOptionsOf options) r with
          saw := (inspectOptionsOf (options ++ [.valued name value])).saw } =
        inspectOptionsOf (options ++ [.valued name value]))
    (s' : InspectOptions) :
    setOption inspectSwitch (inspectOptionsOf options) (.valued name value) = some s' ↔
      InspectOptionsFormed (options ++ [.valued name value]) ∧
        s' = inspectOptionsOf (options ++ [.valued name value]) := by
  refine records_once h hformed trivial (fun hmem => hformed.valid _ hmem) rfl htakes
    (fun r hr hnew => ?_) s'
  rw [← hset r hr hnew, ← saw_append hnew]

end records

/-- The locals record the options. -/
theorem inspectOptions_records :
    Records inspectSwitch (fun _ => True) ValidInspectOption inspectOptionsOf := by
  intro options option s' hformed
  cases option with
  | flag name =>
      have hnone : setOption inspectSwitch (inspectOptionsOf options) (.flag name) = none := by
        cases name <;> rfl
      rw [hnone]
      exact iff_of_false nofun fun h =>
        h.1.valid _ (List.mem_append_right _ List.mem_cons_self)
  | valued name value =>
      cases name with
      | straceFile =>
          refine records_seenOnce hformed rfl keepIf_isSome (fun r hr hnew => ?_) s'
          obtain ⟨-, rfl⟩ := keepIf_eq_some.mp hr
          simp [inspectOptionsOf, inventoryLimitsOf, numberOf, valueOf?_append_of_ne,
            valueOf?_append_fresh hnew]
      | output =>
          refine records_seenOnce hformed rfl keepIf_isSome (fun r hr hnew => ?_) s'
          obtain ⟨-, rfl⟩ := keepIf_eq_some.mp hr
          simp [inspectOptionsOf, inventoryLimitsOf, numberOf, valueOf?_append_of_ne,
            valueOf?_append_fresh hnew]
      | _ =>
          -- a number that is read
          refine records_seenOnce hformed rfl Iff.rfl (fun r hr hnew => ?_) s'
          simp [inspectOptionsOf, inventoryLimitsOf, numberOf, valueOf?_append_of_ne,
            valueOf?_append_fresh hnew, hr]

/-- The words of a command line of `inspect`. -/
structure IsInspectLine (arguments : List Bytes) (options : List (Written InspectOption Bytes))
    (command : List Bytes) : Prop where
  words : arguments =
    options.flatMap (Written.words InspectOption.word) ++ separator :: command
  command : command ≠ []
  formed : InspectOptionsFormed options

/-- The loop and the check behind it accept the command lines, and no other words. -/
theorem readInspectArguments_ok_iff {arguments : List Bytes} {locals : InspectOptions}
    {command : List Bytes} :
    readInspectArguments arguments = .ok (locals, command) ↔
      ∃ options, IsInspectLine arguments options command ∧ locals = inspectOptionsOf options := by
  have hread := fun (s : InspectOptions) rest =>
    @readOptions_view_iff _ _ _ _ _ _ _ _ _ _ _ inspectOption_spelling inspectOptions_records s
      arguments rest
  constructor
  · intro h
    obtain ⟨⟨found, rest⟩, hfound, hrest⟩ := except_bind_ok.mp h
    obtain ⟨options, hwords, hstop, hformed, rfl⟩ := (hread found rest).mp hfound
    rcases rest with _ | ⟨stop, _ | ⟨executable, others⟩⟩
    · cases hrest
    · cases hrest
    · cases hrest
      obtain rfl : stop = separator := eq_of_beq (hstop stop rfl)
      exact ⟨options, ⟨hwords, List.cons_ne_nil _ _, hformed⟩, rfl⟩
  · rintro ⟨options, hline, rfl⟩
    have hfound := (hread _ (separator :: command)).mpr
      ⟨options, hline.words, fun w hw => Option.some.inj hw ▸ rfl, hline.formed, rfl⟩
    obtain ⟨executable, others, rfl⟩ := List.exists_cons_of_ne_nil hline.command
    exact except_bind_ok.mpr ⟨_, hfound, rfl⟩

/-! ## §3  `run_inspect` -/

inductive InspectError where
  | options (refusal : InspectRefusal)
  | start
  | session (stage : Stage)
  | output (error : OutputError)

/-- Whether a command starts, how the pipes to the server go, and the output. -/
structure InspectWorld (Entry : Type) where
  spawns : List Bytes → Bool
  writes : List WriteAnswer
  turns : List Turn
  output : OutputWorld Entry

/-- The command that is started. -/
def inspectCommand (options : InspectOptions) (command : List Bytes) : List Bytes :=
  makeStraceCommand command
    (if options.straceFilePath = [] then none else some options.straceFilePath)

variable {Entry : Type} [DecidableEq Entry] (world : InspectWorld Entry)

/-- What has been written to the server, and how the run ends. Nothing while a write has
not come back. -/
def runInspect (arguments : List Bytes) (fs : FileSystem Entry) :
    Option (Bytes × Finished InspectError Entry) :=
  match readInspectArguments arguments with
  | .error refusal => some ([], .error (.options refusal), fs)
  | .ok (options, command) =>
      if world.spawns (inspectCommand options command) = true then do
        let (sent, result) ← inspectSession options.inventory
          (executableBasename (command.headD [])) world.writes world.turns
        match result with
        | .error stage => some (sent, .error (.session stage), fs)
        | .ok text =>
            let finished ← writeOutput world.output (ascii "mng-inspect") options.outputPath text fs
            some (sent, finished.mapError .output)
      else some ([], .error .start, fs)

/-! ## §4  What a run does -/

variable {world}

/-- The server is started and asked, and the inventory is of its answers. -/
structure InspectedBy (world : InspectWorld Entry) (options : List (Written InspectOption Bytes))
    (command : List Bytes) (text : Bytes) : Prop where
  started : world.spawns (makeStraceCommand command (valueOf? .straceFile options)) = true
  session : inspectSession (inventoryLimitsOf options) (executableBasename (command.headD []))
    world.writes world.turns = some (inspectText, .ok text)

section line

variable {arguments : List Bytes} {options : List (Written InspectOption Bytes)}
  {command : List Bytes} (hline : IsInspectLine arguments options command)
include hline

theorem inspectCommand_eq : inspectCommand (inspectOptionsOf options) command =
    makeStraceCommand command (valueOf? .straceFile options) := by
  unfold inspectCommand inspectOptionsOf
  dsimp only
  cases hvalue : valueOf? .straceFile options with
  | none => rfl
  | some path =>
      have hvalid : validStraceOutputPath path = true :=
        hline.formed.valid _ (mem_of_valueOf? hvalue)
      rw [Option.getD_some, if_neg]
      rintro rfl
      exact Bool.false_ne_true hvalid

theorem inspectOutput_ne_nil : ∀ path, valueOf? .output options = some path → path ≠ [] := by
  rintro path hpath rfl
  have hvalid : validText [] = true := hline.formed.valid _ (mem_of_valueOf? hpath)
  exact Bool.false_ne_true hvalid

end line

/-- However the words are read as a command line, the run is that of the line. -/
theorem inspect_of_line {arguments : List Bytes} {options : List (Written InspectOption Bytes)}
    {command : List Bytes} (hline : IsInspectLine arguments options command)
    {before after : FileSystem Entry} {sent stdout : Bytes} :
    runInspect world arguments before = some (sent, .ok stdout, after) ↔
      sent = inspectText ∧ ∃ text, InspectedBy world options command text ∧
        WrittenTo world.output (ascii "mng-inspect") (valueOf? .output options) text before
          stdout after := by
  unfold runInspect
  rw [readInspectArguments_ok_iff.mpr ⟨options, hline, rfl⟩]
  dsimp only
  rw [inspectCommand_eq hline]
  constructor
  · intro h
    split at h
    · rename_i hstarted
      obtain ⟨⟨sent', result⟩, hsession, h⟩ := Option.bind_eq_some_iff.mp h
      cases result with
      | error stage => cases h
      | ok text =>
          obtain ⟨⟨result, fs⟩, hwritten, h⟩ := Option.bind_eq_some_iff.mp h
          cases result with
          | error e => cases h
          | ok stdout' =>
              cases h
              have hsent := inspectText_of_ok hsession
              rw [hsent] at hsession
              exact ⟨hsent, text, ⟨hstarted, hsession⟩,
                (writeOutput_ok_iff (inspectOutput_ne_nil hline)).mp hwritten⟩
    · cases h
  · rintro ⟨hsent, text, hinspected, hwritten⟩
    rw [if_pos hinspected.started, hsent]
    refine Option.bind_eq_some_iff.mpr ⟨_, hinspected.session, ?_⟩
    generalize inspectText = text'
    exact Option.bind_eq_some_iff.mpr
      ⟨_, (writeOutput_ok_iff (inspectOutput_ne_nil hline)).mpr hwritten, rfl⟩

/-- A run succeeds exactly for a command line whose server starts and is inspected, and
whose inventory can be written. -/
theorem inspect_ok_iff {arguments : List Bytes} {before after : FileSystem Entry}
    {sent stdout : Bytes} :
    runInspect world arguments before = some (sent, .ok stdout, after) ↔
      ∃ options command text, IsInspectLine arguments options command ∧ sent = inspectText ∧
        InspectedBy world options command text ∧
          WrittenTo world.output (ascii "mng-inspect") (valueOf? .output options) text before
            stdout after := by
  constructor
  · intro h
    cases hread : readInspectArguments arguments with
    | error refusal =>
        unfold runInspect at h
        rw [hread] at h
        cases h
    | ok read =>
        obtain ⟨options, hline, -⟩ := readInspectArguments_ok_iff.mp hread
        obtain ⟨hsent, text, hinspected, hwritten⟩ := (inspect_of_line hline).mp h
        exact ⟨options, read.2, text, hline, hsent, hinspected, hwritten⟩
  · rintro ⟨options, command, text, hline, hsent, hinspected, hwritten⟩
    exact (inspect_of_line hline).mpr ⟨hsent, text, hinspected, hwritten⟩

/-- A run that fails leaves every file as it was. -/
theorem inspect_error_nodes {arguments : List Bytes} {nodes : Entry → Option Node} {sent : Bytes}
    {e : InspectError} {after : FileSystem Entry}
    (h : runInspect world arguments { nodes := nodes } = some (sent, .error e, after)) :
    after.nodes = nodes := by
  unfold runInspect at h
  split at h
  · cases h
    rfl
  split at h
  · obtain ⟨⟨sent', result⟩, -, h⟩ := Option.bind_eq_some_iff.mp h
    cases result with
    | error stage =>
        cases h
        rfl
    | ok text =>
        obtain ⟨⟨result, fs⟩, hwritten, h⟩ := Option.bind_eq_some_iff.mp h
        cases result with
        | error e' =>
            cases h
            exact writeOutput_error_nodes hwritten
        | ok stdout => cases h
  · cases h
    rfl

/-- Whatever the run comes to, the server is sent a beginning of the three messages. -/
theorem inspect_sent {arguments : List Bytes} {before after : FileSystem Entry} {sent : Bytes}
    {result : Except InspectError Bytes}
    (h : runInspect world arguments before = some (sent, result, after)) :
    sent <+: inspectText := by
  unfold runInspect at h
  split at h
  · cases h
    exact List.nil_prefix
  split at h
  · obtain ⟨⟨sent', result'⟩, hrun, h⟩ := Option.bind_eq_some_iff.mp h
    cases result' with
    | error stage =>
        cases h
        exact inspectSession_begins hrun
    | ok text =>
        obtain ⟨finished, -, h⟩ := Option.bind_eq_some_iff.mp h
        cases h
        exact inspectSession_begins hrun
  · cases h
    exact List.nil_prefix

/-- `inspect` succeeds exactly for a command line whose server starts and lists its tools,
and whose inventory can be written, and then has sent all of its messages. A run that fails
leaves every file as it was. Whatever the run comes to, the server is not sent a call. -/
theorem inspect_result (world : InspectWorld Entry) (arguments : List Bytes)
    (nodes : Entry → Option Node) :
    (∀ sent stdout after, runInspect world arguments { nodes := nodes } =
        some (sent, .ok stdout, after) ↔
      ∃ options command text, IsInspectLine arguments options command ∧ sent = inspectText ∧
        InspectedBy world options command text ∧
          WrittenTo world.output (ascii "mng-inspect") (valueOf? .output options) text
            { nodes := nodes } stdout after) ∧
    ∀ sent result after, runInspect world arguments { nodes := nodes } =
        some (sent, result, after) →
      (∀ e, result = .error e → after.nodes = nodes) ∧
        ∀ text ∈ linesOf newline sent ++ [restOf newline sent], ∀ v, IsText text v →
          ∀ toolName, ¬ Calls v toolName := by
  refine ⟨fun _ _ _ => inspect_ok_iff, fun sent result after h => ⟨?_, ?_⟩⟩
  · rintro e rfl
    exact inspect_error_nodes h
  · exact fun text htext v hv => not_calls_of_begins inspectMessages_ask (inspect_sent h) htext hv

end NativeGuard.Process

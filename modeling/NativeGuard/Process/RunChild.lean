import NativeGuard.Audit.AuditLines
import NativeGuard.Io.InputFile
import NativeGuard.Process.RunOptions
import NativeGuard.Process.RelaySafety
import NativeGuard.Security.EffectivePolicy
import NativeGuard.Security.Fingerprint

/-!
# From the command line to the child (`run_child` in `src/main.cpp`)

`run_child` starts a child exactly for a command line that it can make a policy table of,
and where its surroundings let it (`launches_iff`). What reaches that child calls no tool
that the command line denies (`denied_tools_never_called`), and neither depends on the order
of the options (`order_of_options`).
-/

namespace NativeGuard.Process

open Json Json.Scan Data Io Protocol Security Audit

/-! ## §1  `load_file` -/

inductive PolicyFileError where
  | io (message : String)
  | tooLarge (message : String)
  | parse (failure : PolicyLoadFailure)
deriving DecidableEq, Repr

/-- `std::numeric_limits<std::streamsize>::max()`. -/
def streamsizeMax : Nat := 2 ^ 63 - 1

def loadFile (config : PolicyLoader.Config) (path : Bytes) (file : InputFile) :
    Except PolicyFileError PolicyDefinition :=
  if path = [] ∨ config.maxFileBytes = 0 ∨ streamsizeMax ≤ config.maxFileBytes then
    .error (.io "invalid policy file configuration")
  else
    match file.read config.maxFileBytes with
    | .error .cannotOpen => .error (.io "cannot open policy file")
    | .error .cannotRead => .error (.io "failed to read policy file")
    | .error .tooLarge => .error (.tooLarge "policy file exceeds configured size limit")
    | .ok json => (PolicyLoader.parse config json).mapError .parse

/-! ## §2  `run_child` -/

/-- What the surroundings give: the files, room for so many pending requests, the signal
handlers, and whether a command can be spawned. -/
structure RunWorld where
  policyFile : Bytes → InputFile
  opensForAppend : Bytes → Bool
  holdsPending : Nat → Bool := fun _ => true
  installsSignals : Bool := true
  spawns : List Bytes → Bool := fun _ => true

inductive RunError where
  | usage
  | policyFile (error : PolicyFileError) (path : Bytes)
  | policyTable (status : Status)
  | auditFile (path : Bytes)
  /-- The vector of pending requests throws, and nothing catches it. -/
  | pendingTable
  | runConfiguration
  | signalHandlers
  | spawn

inductive AuditDestination where
  | file (path : Bytes)
  | standardError
deriving DecidableEq, Repr

/-- What `run_stdio_child` is called with. -/
structure Launch where
  policy : PolicyTable
  config : FilterConfig
  audit : Option AuditDestination
  runConfig : RunConfig
  identity : SessionIdentity
  command : List Bytes

variable (version : Bytes) (world : RunWorld)

def runDefinition (policyPath : Bytes) : Except RunError PolicyDefinition :=
  if policyPath = [] then .ok { defaults := ⟨.allow, .allow⟩ }
  else
    (loadFile {} policyPath (world.policyFile policyPath)).mapError
      fun error => .policyFile error policyPath

def runPolicy (policyPath : Bytes) (deniedTools : List Bytes) : Except RunError PolicyTable := do
  let definition ← runDefinition world policyPath
  let definition := applyDenyOverrides deniedTools definition
  (PolicyTable.build definition.rules definition.defaults).mapError .policyTable

def runAudit (auditFilePath : Bytes) (auditStderr : Bool) :
    Except RunError (Option AuditDestination) :=
  if auditFilePath ≠ [] then
    if world.opensForAppend auditFilePath = true then .ok (some (.file auditFilePath))
    else .error (.auditFile auditFilePath)
  else if auditStderr = true then .ok (some .standardError)
  else .ok none

/-- `run_child` behind its option loop: what it calls `run_stdio_child` with. -/
def launchWith (options : RunOptions) (command : List Bytes) : Except RunError Launch := do
  let policy ← runPolicy world options.policyPath options.deniedTools
  let audit ← runAudit world options.auditFilePath options.auditStderr
  .ok {
    policy := policy
    config := { runtime := options.runtimeLimits }
    audit := audit
    runConfig := { runtime := options.runtimeLimits }
    identity := {
      guardVersion := version
      serverLabel := options.serverLabel
      downstreamExecutable := executableBasename (command.headD [])
      policyHash := policy.fingerprint
      limits := options.runtimeLimits }
    command := makeStraceCommand command
      (if options.straceFilePath = [] then none else some options.straceFilePath) }

/-- The constructor of the filter, and `run_stdio_child` until its child runs. -/
def startChild (launch : Launch) : Except RunError Launch :=
  if world.holdsPending launch.config.runtime.maxPendingToolsList = false then
    .error .pendingTable
  else if launch.command = [] ∨ launch.runConfig.Rejected then .error .runConfiguration
  else if world.installsSignals = false then .error .signalHandlers
  else if world.spawns launch.command = false then .error .spawn
  else .ok launch

/-- `run_child` until its child runs. -/
def runChild (arguments : List Bytes) : Except RunError Launch := do
  let (options, command) ← (readRunArguments arguments).mapError fun _ => .usage
  let launch ← launchWith version world options command
  startChild world launch

/-! ## §3  What is launched -/

variable {version world}

/-- The text of the policy file, if the options name one. -/
def PolicyTextOf (world : RunWorld) (path : Option Bytes) (policyText : Option Bytes) : Prop :=
  match path with
  | none => policyText = none
  | some path => ∃ content, world.policyFile path = .bytes content ∧ policyText = some content

/-- Where the options send the audit. -/
def auditOf (options : List (Written RunOption Bytes)) : Option AuditDestination :=
  ((valueOf? .auditFile options).map .file).or
    (if (runOptionsOf options).auditStderr = true then some .standardError else none)

/-- What a command line makes `run_stdio_child` be called with, and which files it needs. -/
structure PreparedBy (version : Bytes) (world : RunWorld)
    (options : List (Written RunOption Bytes)) (command : List Bytes) (launch : Launch) :
    Prop where
  policy : ∃ policyText, PolicyTextOf world (valueOf? .policy options) policyText ∧
    assemblePolicy {} policyText (valuesOf .denyTool options) = .ok launch.policy
  config : launch.config = { runtime := (runOptionsOf options).runtimeLimits }
  runConfig : launch.runConfig = { runtime := (runOptionsOf options).runtimeLimits }
  audit : launch.audit = auditOf options
  opened : ∀ path, .valued .auditFile path ∈ options → world.opensForAppend path = true
  identity : launch.identity = {
    guardVersion := version
    serverLabel := (valueOf? .serverLabel options).getD (ascii "unlabeled")
    downstreamExecutable := executableBasename (command.headD [])
    policyHash := launch.policy.fingerprint
    limits := (runOptionsOf options).runtimeLimits }
  command : launch.command = makeStraceCommand command (valueOf? .straceFile options)

/-- What must hold further for the child to run. -/
structure StartedBy (world : RunWorld) (options : List (Written RunOption Bytes))
    (launch : Launch) : Prop where
  holdsPending : world.holdsPending (limitOf .maxPendingToolsList 64 options) = true
  -- every other limit that `run_stdio_child` rejects is refused by the option loop
  maxMessageBytes : limitOf .maxMessageBytes (1024 * 1024) options ≤
    RunConfig.sizeMax - RunConfig.responseExpansionBytes
  installsSignals : world.installsSignals = true
  spawned : world.spawns launch.command = true

/-- A file is loaded exactly if its text is parsed: a longer one is refused by both. -/
theorem loadFile_ok_iff {path : Bytes} (hpath : path ≠ []) {file : InputFile}
    {definition : PolicyDefinition} :
    loadFile {} path file = .ok definition ↔
      ∃ content, file = .bytes content ∧ PolicyLoader.parse {} content = .ok definition := by
  have hlimit : ({} : PolicyLoader.Config).maxFileBytes = 262144 := rfl
  have hconfig : ¬ (path = [] ∨ ({} : PolicyLoader.Config).maxFileBytes = 0 ∨
      streamsizeMax ≤ ({} : PolicyLoader.Config).maxFileBytes) := by
    rw [hlimit, streamsizeMax]
    rintro (h | h | h)
    · exact hpath h
    · omega
    · omega
  rw [loadFile, if_neg hconfig]
  cases hread : file.read ({} : PolicyLoader.Config).maxFileBytes with
  | error e =>
      have hnone : ¬ ∃ content, file = .bytes content ∧
          PolicyLoader.parse {} content = .ok definition := by
        rintro ⟨content, hfile, hparse⟩
        obtain ⟨gap, ms, haccepted, -⟩ := PolicyLoader.parse_ok_iff.mp hparse
        rw [InputFile.read_ok_iff.mpr ⟨hfile, haccepted.size⟩] at hread
        cases hread
      refine iff_of_false ?_ hnone
      cases e <;> exact nofun
  | ok json =>
      obtain ⟨rfl, -⟩ := InputFile.read_ok_iff.mp hread
      show (PolicyLoader.parse {} json).mapError PolicyFileError.parse = _ ↔ _
      rw [mapError_ok_iff]
      constructor
      · exact fun h => ⟨json, rfl, h⟩
      · rintro ⟨content, hcontent, h⟩
        cases hcontent
        exact h

theorem runDefinition_ok_iff {policyPath : Bytes} {definition : PolicyDefinition} :
    runDefinition world policyPath = .ok definition ↔ ∃ policyText,
      PolicyTextOf world (if policyPath = [] then none else some policyPath) policyText ∧
        loadPolicy {} policyText = .ok definition := by
  unfold runDefinition
  by_cases hpath : policyPath = []
  · rw [if_pos hpath, if_pos hpath]
    constructor
    · exact fun h => ⟨none, rfl, congrArg Except.ok (Except.ok.inj h)⟩
    · rintro ⟨policyText, hnone, h⟩
      obtain rfl : policyText = none := hnone
      exact congrArg Except.ok (Except.ok.inj h)
  · rw [if_neg hpath, if_neg hpath, mapError_ok_iff, loadFile_ok_iff hpath]
    constructor
    · rintro ⟨content, hfile, h⟩
      exact ⟨some content, ⟨content, hfile, rfl⟩, h⟩
    · rintro ⟨policyText, ⟨content, hfile, rfl⟩, h⟩
      exact ⟨content, hfile, h⟩

theorem runPolicy_ok_iff {policyPath : Bytes} {deniedTools : List Bytes} {table : PolicyTable} :
    runPolicy world policyPath deniedTools = .ok table ↔ ∃ policyText,
      PolicyTextOf world (if policyPath = [] then none else some policyPath) policyText ∧
        assemblePolicy {} policyText deniedTools = .ok table := by
  have hassemble : ∀ policyText, assemblePolicy {} policyText deniedTools = .ok table ↔
      ∃ definition, loadPolicy {} policyText = .ok definition ∧
        PolicyTable.build (applyDenyOverrides deniedTools definition).rules
          (applyDenyOverrides deniedTools definition).defaults = .ok table := by
    intro policyText
    unfold assemblePolicy
    rw [except_bind_ok]
    simp only [mapError_ok_iff]
  unfold runPolicy
  rw [except_bind_ok]
  simp only [mapError_ok_iff, runDefinition_ok_iff, hassemble]
  constructor
  · rintro ⟨definition, ⟨policyText, htext, hload⟩, hbuild⟩
    exact ⟨policyText, htext, definition, hload, hbuild⟩
  · rintro ⟨policyText, htext, definition, hload, hbuild⟩
    exact ⟨definition, ⟨policyText, htext, hload⟩, hbuild⟩

theorem runAudit_ok_iff {auditFilePath : Bytes} {auditStderr : Bool}
    {audit : Option AuditDestination} :
    runAudit world auditFilePath auditStderr = .ok audit ↔
      (auditFilePath ≠ [] → world.opensForAppend auditFilePath = true) ∧
        audit = if auditFilePath ≠ [] then some (.file auditFilePath)
          else if auditStderr = true then some .standardError else none := by
  unfold runAudit
  by_cases hpath : auditFilePath = []
  · rw [if_neg (not_not.mpr hpath), if_neg (not_not.mpr hpath)]
    cases auditStderr with
    | true =>
        constructor
        · rintro ⟨⟩
          exact ⟨fun hne => absurd hpath hne, rfl⟩
        · rintro ⟨-, rfl⟩
          rfl
    | false =>
        constructor
        · rintro ⟨⟩
          exact ⟨fun hne => absurd hpath hne, rfl⟩
        · rintro ⟨-, rfl⟩
          rfl
  · rw [if_pos hpath, if_pos hpath]
    by_cases hopens : world.opensForAppend auditFilePath = true
    · rw [if_pos hopens]
      constructor
      · rintro ⟨⟩
        exact ⟨fun _ => hopens, rfl⟩
      · rintro ⟨-, rfl⟩
        rfl
    · rw [if_neg hopens]
      exact iff_of_false nofun fun h => hopens (h.1 hpath)

/-- What the loop leaves of a value that is not empty. -/
theorem getD_ite {α : Type} {value : Option (List α)} (h : ∀ text, value = some text → text ≠ []) :
    (if value.getD [] = [] then none else some (value.getD [])) = value := by
  cases value with
  | none => rfl
  | some text => exact if_neg (h text rfl)

section formed

variable {options : List (Written RunOption Bytes)} (hformed : RunOptionsFormed options)
include hformed

theorem policyPath_eq :
    (if (runOptionsOf options).policyPath = [] then none
      else some (runOptionsOf options).policyPath) = valueOf? .policy options := by
  refine getD_ite fun text hvalue hnil => ?_
  have htakes : validText text = true := hformed.valid _ (mem_of_valueOf? hvalue)
  rw [hnil] at htakes
  exact Bool.false_ne_true htakes

theorem straceFilePath_eq :
    (if (runOptionsOf options).straceFilePath = [] then none
      else some (runOptionsOf options).straceFilePath) = valueOf? .straceFile options := by
  refine getD_ite fun text hvalue hnil => ?_
  have htakes : validStraceOutputPath text = true := hformed.valid _ (mem_of_valueOf? hvalue)
  rw [hnil] at htakes
  exact Bool.false_ne_true htakes

theorem runAudit_formed {audit : Option AuditDestination} :
    runAudit world (runOptionsOf options).auditFilePath (runOptionsOf options).auditStderr =
        .ok audit ↔
      (∀ path, .valued .auditFile path ∈ options → world.opensForAppend path = true) ∧
        audit = auditOf options := by
  have hstderr : (runOptionsOf options).auditStderr = true ↔ .flag .auditStderr ∈ options :=
    decide_eq_true_iff
  have hvalue : ∀ path, .valued .auditFile path ∈ options ↔
      valueOf? .auditFile options = some path :=
    fun path => @WellFormed.mem_iff_valueOf? _ _ _ _ _ _ RunOption.auditFile hformed nofun path
  rw [runAudit_ok_iff, auditOf]
  simp only [hvalue, hstderr]
  show ((valueOf? .auditFile options).getD [] ≠ [] → _) ∧
    _ = (if (valueOf? .auditFile options).getD [] ≠ [] then _ else _) ↔ _
  cases hpath : valueOf? RunOption.auditFile options with
  | none => simp
  | some path =>
      have hne : path ≠ [] := by
        rintro rfl
        have htakes : validText [] = true := hformed.valid _ ((hvalue _).mpr hpath)
        exact Bool.false_ne_true htakes
      simp [hne, runOptionsOf, hpath]

end formed

theorem limitOf_ne_zero {name : RunOption} {default : Nat} (hdefault : default ≠ 0) :
    limitOf name default options ≠ 0 := by
  unfold limitOf
  cases hvalue : (valueOf? name options).bind parseBoundedInteger with
  | none => exact hdefault
  | some value =>
      obtain ⟨text, -, htext⟩ := Option.bind_eq_some_iff.mp hvalue
      exact parseBoundedInteger_ne_zero htext

/-- Of what the option loop lets through, only a limit on messages can be too large. -/
theorem rejected_iff :
    ({ runtime := (runOptionsOf options).runtimeLimits } : RunConfig).Rejected ↔
      ¬ limitOf .maxMessageBytes (1024 * 1024) options ≤
        RunConfig.sizeMax - RunConfig.responseExpansionBytes := by
  rw [not_le]
  constructor
  · rintro (h | h | h | h | h)
    · cases h
    · exact absurd h (limitOf_ne_zero (by decide))
    · exact absurd h (limitOf_ne_zero (by decide))
    · exact absurd h (limitOf_ne_zero (by decide))
    · exact h
  · exact fun h => .inr (.inr (.inr (.inr h)))

theorem makeStraceCommand_ne_nil {command : List Bytes} (hcommand : command ≠ [])
    (outputPath : Option Bytes) : makeStraceCommand command outputPath ≠ [] := by
  cases outputPath with
  | none => exact hcommand
  | some path => exact List.cons_ne_nil _ _

theorem launchWith_ok_iff {arguments command : List Bytes} {launch : Launch}
    (hline : IsRunLine arguments options command) :
    launchWith version world (runOptionsOf options) command = .ok launch ↔
      PreparedBy version world options command launch := by
  constructor
  · intro h
    obtain ⟨policy, hpolicy, h⟩ := except_bind_ok.mp h
    obtain ⟨audit, haudit, h⟩ := except_bind_ok.mp h
    obtain ⟨policyText, htext, hassemble⟩ := runPolicy_ok_iff.mp hpolicy
    rw [policyPath_eq hline.formed] at htext
    obtain ⟨hopened, rfl⟩ := (runAudit_formed hline.formed).mp haudit
    cases h
    refine ⟨⟨policyText, htext, hassemble⟩, rfl, rfl, rfl, hopened, rfl, ?_⟩
    rw [straceFilePath_eq hline.formed]
  · rintro hprepared
    obtain ⟨policyText, htext, hassemble⟩ := hprepared.policy
    rw [← policyPath_eq hline.formed] at htext
    refine except_bind_ok.mpr ⟨_, runPolicy_ok_iff.mpr ⟨policyText, htext, hassemble⟩, ?_⟩
    refine except_bind_ok.mpr
      ⟨_, (runAudit_formed hline.formed).mpr ⟨hprepared.opened, rfl⟩, ?_⟩
    rw [straceFilePath_eq hline.formed]
    obtain ⟨policy, config, audit, runConfig, identity, argv⟩ := launch
    obtain ⟨-, hconfig, hrunConfig, haudit, -, hidentity, hcommand⟩ := hprepared
    dsimp only at hconfig hrunConfig haudit hidentity hcommand ⊢
    rw [hconfig, hrunConfig, haudit, hidentity, hcommand]
    rfl

theorem startChild_ok_iff {command : List Bytes} (hcommand : command ≠ [])
    {launch started : Launch} (hprepared : PreparedBy version world options command launch) :
    startChild world launch = .ok started ↔
      started = launch ∧ StartedBy world options launch := by
  have haccepted : (launch.command = [] ∨ launch.runConfig.Rejected) ↔
      ¬ limitOf .maxMessageBytes (1024 * 1024) options ≤
        RunConfig.sizeMax - RunConfig.responseExpansionBytes := by
    rw [hprepared.command, hprepared.runConfig, rejected_iff,
      or_iff_right (makeStraceCommand_ne_nil hcommand _)]
  have hpending : launch.config.runtime.maxPendingToolsList =
      limitOf .maxPendingToolsList 64 options := by
    rw [hprepared.config]
    rfl
  unfold startChild
  rw [hpending]
  constructor
  · intro h
    split_ifs at h with hholds hrejected hsignals hspawns
    cases h
    have hlimit := not_not.mp fun hlarge => hrejected (haccepted.mpr hlarge)
    exact ⟨rfl, eq_true_of_ne_false hholds, hlimit, eq_true_of_ne_false hsignals,
      eq_true_of_ne_false hspawns⟩
  · rintro ⟨rfl, hholds, hlimit, hsignals, hspawned⟩
    rw [if_neg (ne_false_of_eq_true hholds),
      if_neg fun hrejected => haccepted.mp hrejected hlimit,
      if_neg (ne_false_of_eq_true hsignals), if_neg (ne_false_of_eq_true hspawned)]

/-- `run_child` starts a child exactly for a command line whose policy file, if it names
one, is read as a policy and makes a table with the denied names, whose audit file can be
opened, whose limits the relay and the table of pending requests have room for, and whose
command is spawned behind its signal handlers; it then runs with what the options say. -/
theorem launches_iff {arguments : List Bytes} {launch : Launch} :
    runChild version world arguments = .ok launch ↔ ∃ options command,
      IsRunLine arguments options command ∧
        PreparedBy version world options command launch ∧ StartedBy world options launch := by
  constructor
  · intro h
    obtain ⟨⟨locals, command⟩, hread, h⟩ := except_bind_ok.mp h
    obtain ⟨prepared, hlaunch, hstart⟩ := except_bind_ok.mp h
    obtain ⟨options, hline, rfl⟩ := readRunArguments_ok_iff.mp (mapError_ok_iff.mp hread)
    have hprepared := (launchWith_ok_iff hline).mp hlaunch
    obtain ⟨rfl, hstarted⟩ := (startChild_ok_iff hline.command hprepared).mp hstart
    exact ⟨options, command, hline, hprepared, hstarted⟩
  · rintro ⟨options, command, hline, hprepared, hstarted⟩
    have hread := readRunArguments_ok_iff.mpr ⟨options, hline, rfl⟩
    refine except_bind_ok.mpr ⟨_, mapError_ok_iff.mpr hread, ?_⟩
    refine except_bind_ok.mpr ⟨launch, (launchWith_ok_iff hline).mpr hprepared, ?_⟩
    exact (startChild_ok_iff hline.command hprepared).mpr ⟨rfl, hstarted⟩

section launched

variable {arguments : List Bytes} {options : List (Written RunOption Bytes)}
  {command : List Bytes} (hline : IsRunLine arguments options command)
include hline

theorem deniedTools_ne_nil : ∀ n ∈ valuesOf RunOption.denyTool options, n ≠ [] := by
  rintro n hn rfl
  have htakes : validText [] = true := hline.formed.valid _ (mem_valuesOf.mp hn)
  exact Bool.false_ne_true htakes

theorem runChild_of_line :
    runChild version world arguments =
      (launchWith version world (runOptionsOf options) command).bind (startChild world) := by
  unfold runChild
  rw [readRunArguments_ok_iff.mpr ⟨options, hline, rfl⟩]
  rfl

/-- However the words are read as a command line, the table is the one of that line. -/
theorem launched_policy {launch : Launch} (h : runChild version world arguments = .ok launch) :
    ∃ policyText, PolicyTextOf world (valueOf? .policy options) policyText ∧
      assemblePolicy {} policyText (valuesOf .denyTool options) = .ok launch.policy := by
  rw [runChild_of_line hline] at h
  obtain ⟨prepared, hlaunch, hstart⟩ := except_bind_ok.mp h
  have hprepared := (launchWith_ok_iff hline).mp hlaunch
  obtain ⟨rfl, -⟩ := (startChild_ok_iff hline.command hprepared).mp hstart
  exact hprepared.policy

/-- From the command line to the child: whatever the client sends and however the run
goes, no text that has reached the child calls a tool that the command line denies, or
one that the policy file does not let it call. -/
theorem denied_tools_never_called {launch : Launch}
    (hlaunch : runChild version world arguments = .ok launch)
    {relay relay' : Relay Protocol.ToolCallFilter} {turns : List Relay.Turn}
    (hstart : Relay.start launch.runConfig (ToolCallFilter.init launch.policy launch.config) =
      .ok relay)
    (hreaches : Relay.Reaches (some filterHandler) relay turns relay') :
    ∃ policyText, PolicyTextOf world (valueOf? .policy options) policyText ∧
      ∀ text ∈ linesOf newline relay'.writtenToChild ++ [restOf newline relay'.writtenToChild],
        ∀ v, IsText text v → ∀ toolName, Calls v toolName →
          .valued .denyTool toolName ∉ options ∧
            ∀ defaults rules, Describes policyText defaults rules →
              (decided defaults rules toolName).callable = .allow := by
  obtain ⟨policyText, htext, hassemble⟩ := launched_policy hline hlaunch
  refine ⟨policyText, htext, fun text hmem v hv toolName hcalls => ?_⟩
  have hallowed := (hearsAllowed_of_reaches hstart hreaches).allowed
  have hallow := (hallowed text hmem v hv).of_calls hcalls
  obtain ⟨definition, hload, -⟩ := except_bind_ok.mp hassemble
  have hdefinition := mapError_ok_iff.mp hload
  have hdecision := assemble_decision hdefinition (deniedTools_ne_nil hline) hassemble toolName
  by_cases hdenied : toolName ∈ valuesOf RunOption.denyTool options
  · rw [if_pos hdenied] at hdecision
    have hdeny : launch.policy.invocationFor toolName = .deny := congrArg (·.callable) hdecision
    rw [hdeny] at hallow
    cases hallow
  · refine ⟨fun hmem => hdenied (mem_valuesOf.mpr hmem), fun defaults rules hdescribes => ?_⟩
    rw [if_neg hdenied] at hdecision
    rw [← (describes_load hdefinition).2 defaults rules hdescribes toolName, ← hdecision]
    exact hallow

end launched

/-- A world without files. -/
def bareWorld : RunWorld where
  policyFile _ := .missing
  opensForAppend _ := false

/-- `run --deny-tool x -- s`. -/
def denyArguments : List Bytes := [ascii "--deny-tool", ascii "x", ascii "--", ascii "s"]

theorem denyArguments_line :
    IsRunLine denyArguments [.valued .denyTool (ascii "x")] [ascii "s"] where
  words := rfl
  command := List.cons_ne_nil _ _
  formed := ⟨List.forall_mem_singleton.mpr rfl, List.pairwise_singleton _ _⟩
  audit := fun hflag => nomatch List.mem_singleton.mp hflag

def callText : Bytes :=
  ascii ("\x7b\"jsonrpc\":\"2.0\",\"id\":1,\"method\":\"tools/call\"," ++
    "\"params\":\x7b\"name\":\"y\"\x7d\x7d\n")

/-- The client calls another tool, and the child is sent the call. -/
def callTurns : List Relay.Turn :=
  [{ polled := .ready { stdin := some (.data ⟨callText, by decide, by decide⟩) } },
    { polled := .ready { childStdin := some (.wrote 69) } }]

/-- What the child gets in these turns of the launched run. -/
def deniedRun : Option Bytes := do
  let launch ← (runChild [] bareWorld denyArguments).toOption
  let relay ← (Relay.start launch.runConfig
    (ToolCallFilter.init launch.policy launch.config)).toOption
  let relay' ← (Relay.run (some filterHandler) relay callTurns).toOption
  some relay'.writtenToChild

theorem denied_tools_never_called_example : ∃ launch relay relay',
    runChild [] bareWorld denyArguments = .ok launch ∧
      Relay.start launch.runConfig (ToolCallFilter.init launch.policy launch.config) =
        .ok relay ∧
      Relay.run (some filterHandler) relay callTurns = .ok relay' ∧
      relay'.writtenToChild = callText ∧
      ∀ v, IsText callText.dropLast v → ∀ toolName, Calls v toolName → toolName ≠ ascii "x" := by
  have hrun : deniedRun = some callText := by decide +kernel
  unfold deniedRun at hrun
  simp only [Option.bind_eq_bind, Option.bind_eq_some_iff, toOption_eq_some, Option.some.injEq]
    at hrun
  obtain ⟨launch, hlaunch, relay, hstart, relay', hturns, hwritten⟩ := hrun
  obtain ⟨_, -, hcalls⟩ := denied_tools_never_called denyArguments_line hlaunch hstart
    (Or.inl hturns)
  refine ⟨launch, relay, relay', hlaunch, hstart, hturns, hwritten, fun v hv toolName hcall => ?_⟩
  rintro rfl
  have hline : callText.dropLast ∈ linesOf newline relay'.writtenToChild := by
    rw [hwritten]
    decide +kernel
  exact (hcalls _ (List.mem_append_left _ hline) v hv _ hcall).1 List.mem_cons_self

/-! ## §4  The order of the options -/

/-- The same names denied in another order: the same table, or the same error. -/
theorem runPolicy_same {policyPath : Bytes} {deniedTools deniedTools' : List Bytes}
    (hnames : ∀ n ∈ deniedTools, n ≠ []) (hsame : ∀ n, n ∈ deniedTools' ↔ n ∈ deniedTools) :
    runPolicy world policyPath deniedTools' = runPolicy world policyPath deniedTools := by
  cases hdefinition : runDefinition world policyPath with
  | error e =>
      unfold runPolicy
      rw [hdefinition]
      rfl
  | ok definition =>
      obtain ⟨policyText, htext, hload⟩ := runDefinition_ok_iff.mp hdefinition
      have hnames' : ∀ n ∈ deniedTools', n ≠ [] := fun n hn => hnames n ((hsame n).mp hn)
      obtain ⟨table, hok, hrules, hdefaults⟩ := assemble_ok hload hnames
      obtain ⟨table', hok', hrules', hdefaults'⟩ := assemble_ok hload hnames'
      rw [rules_determined (loadPolicy_rules hload).1 hsame] at hrules'
      have heq : table' = table := PolicyTable.eq_of_rules (hrules'.trans hrules.symm)
        (hdefaults'.trans hdefaults.symm)
      rw [runPolicy_ok_iff.mpr ⟨policyText, htext, hok⟩,
        runPolicy_ok_iff.mpr ⟨policyText, htext, hok'⟩, heq]

/-- The options of a command line may come in any order: it stays a command line, and
starts the same child behind the same table, or fails with the same error. -/
theorem order_of_options {arguments : List Bytes}
    {options options' : List (Written RunOption Bytes)}
    {command : List Bytes} (hline : IsRunLine arguments options command)
    (hperm : options.Perm options') :
    IsRunLine (options'.flatMap (Written.words RunOption.word) ++ separator :: command)
        options' command ∧
      runChild version world
          (options'.flatMap (Written.words RunOption.word) ++ separator :: command) =
        runChild version world arguments := by
  have hline' := hline.perm hperm
  obtain ⟨hdenied, hlocals⟩ := runOptionsOf_perm hline.formed hperm
  have hpolicy := @runPolicy_same world (runOptionsOf options).policyPath _ _
    (deniedTools_ne_nil hline) fun n => hdenied.symm.mem_iff
  refine ⟨hline', ?_⟩
  rw [runChild_of_line hline', runChild_of_line hline, hlocals]
  unfold launchWith
  rw [show (runOptionsOf options).deniedTools = valuesOf RunOption.denyTool options from rfl,
    ← hpolicy]

/-- `--audit-stderr` behind the denied tool, and before it. -/
theorem order_of_options_example :
    runChild [] bareWorld [ascii "--audit-stderr", ascii "--deny-tool", ascii "x", ascii "--",
        ascii "s"] =
      runChild [] bareWorld [ascii "--deny-tool", ascii "x", ascii "--audit-stderr", ascii "--",
        ascii "s"] := by
  have hline : IsRunLine [ascii "--deny-tool", ascii "x", ascii "--audit-stderr", ascii "--",
      ascii "s"] [.valued .denyTool (ascii "x"), .flag .auditStderr] [ascii "s"] := by
    refine ⟨rfl, List.cons_ne_nil _ _, ⟨?_, ?_⟩, ?_⟩
    · exact List.forall_mem_cons.mpr ⟨rfl, List.forall_mem_singleton.mpr rfl⟩
    · exact List.pairwise_pair.mpr fun hone => absurd rfl hone
    · intro _ path hpath
      simp at hpath
  exact (order_of_options hline (List.Perm.swap _ _ _)).2

end NativeGuard.Process

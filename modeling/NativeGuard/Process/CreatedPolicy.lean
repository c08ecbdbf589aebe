import NativeGuard.Process.PolicyCreate
import NativeGuard.Process.RunChild

/-!
# From `policy create` to the child

`run` behind the file that `policy create` has written. The policy is never refused, and
what reaches the child calls only tools that `--allow-tool` named
(`created_policy_guards`).
-/

namespace NativeGuard.Process

open Json Json.Scan Data Io Protocol Security

/-- A policy that allows some names is loaded as one that allows these and no others. -/
theorem loadPolicy_of_loads {policy : Bytes} {names : List Bytes}
    (h : PolicyGenerator.LoadsAllowing policy names) :
    ∃ definition, loadPolicy {} (some (policy ++ [0x0A])) = .ok definition ∧
      ∀ n, decided definition.defaults definition.rules n =
        if n ∈ names then ⟨.allow, .allow⟩ else ⟨.deny, .deny⟩ := by
  obtain ⟨definition, table, hparse, hbuild, hlookups⟩ := h
  have hload : loadPolicy {} (some (policy ++ [0x0A])) = .ok definition := hparse
  refine ⟨definition, hload, fun n => ?_⟩
  -- the table without overrides decides as the definition
  have hassemble : assemblePolicy {} (some (policy ++ [0x0A])) [] = .ok table := by
    refine except_bind_ok.mpr ⟨definition, mapError_ok_iff.mpr hload, ?_⟩
    exact mapError_ok_iff.mpr hbuild
  have hdecision := assemble_decision hload (fun _ h => absurd h List.not_mem_nil) hassemble n
  rw [if_neg List.not_mem_nil] at hdecision
  rw [← hdecision]
  by_cases hn : n ∈ names
  · rw [if_pos hn, PolicyTable.decision, ((hlookups n).1 hn).1, ((hlookups n).1 hn).2]
  · rw [if_neg hn, PolicyTable.decision, ((hlookups n).2 hn).1, ((hlookups n).2 hn).2]

section run

variable {version : Bytes} {world : RunWorld} {arguments : List Bytes}
  {options : List (Written RunOption Bytes)} {command : List Bytes}

/-- Behind a policy that is loaded, only the audit file and the start of the child fail. -/
theorem runChild_error_of_loads (hline : IsRunLine arguments options command)
    {policyPath content : Bytes} (hpolicy : .valued .policy policyPath ∈ options)
    (hfile : world.policyFile policyPath = .bytes content) {definition : PolicyDefinition}
    (hload : loadPolicy {} (some content) = .ok definition) {e : RunError}
    (h : runChild version world arguments = .error e) :
    (∃ path, .valued .auditFile path ∈ options ∧ e = .auditFile path) ∨
      ∃ launch, PreparedBy version world options command launch ∧
        startChild world launch = .error e := by
  have hvalue : valueOf? .policy options = some policyPath :=
    (@WellFormed.mem_iff_valueOf? _ _ _ _ _ _ RunOption.policy hline.formed nofun _).mp hpolicy
  have htext : PolicyTextOf world (if (runOptionsOf options).policyPath = [] then none
      else some (runOptionsOf options).policyPath) (some content) := by
    rw [policyPath_eq hline.formed, hvalue]
    exact ⟨content, hfile, rfl⟩
  obtain ⟨table, hassemble, -⟩ := assemble_ok hload (deniedTools_ne_nil hline)
  have htable : runPolicy world (runOptionsOf options).policyPath
      (runOptionsOf options).deniedTools = .ok table :=
    runPolicy_ok_iff.mpr ⟨_, htext, hassemble⟩
  rw [runChild_of_line hline] at h
  cases haudit : runAudit world (runOptionsOf options).auditFilePath
      (runOptionsOf options).auditStderr with
  | ok audit =>
      have hlaunch : ∃ launch,
          launchWith version world (runOptionsOf options) command = .ok launch := by
        rw [launchWith, htable, haudit]
        exact ⟨_, rfl⟩
      obtain ⟨launch, hlaunch⟩ := hlaunch
      rw [hlaunch] at h
      exact Or.inr ⟨launch, (launchWith_ok_iff hline).mp hlaunch, h⟩
  | error e' =>
      rw [launchWith, htable, haudit] at h
      cases h
      unfold runAudit at haudit
      split at haudit
      · rename_i hpath
        split at haudit
        · cases haudit
        · refine Or.inl ⟨_, mem_of_valueOf? ?_, (Except.error.inj haudit).symm⟩
          unfold runOptionsOf at hpath ⊢
          dsimp only at hpath ⊢
          cases hvalue : valueOf? RunOption.auditFile options with
          | none =>
              rw [hvalue] at hpath
              exact absurd rfl hpath
          | some path => rfl
      · split at haudit
        · cases haudit
        · cases haudit

/-- The command line decides on top of the names that the policy allows. -/
theorem decision_of_loads (hline : IsRunLine arguments options command) {policyPath policy : Bytes}
    (hpolicy : .valued .policy policyPath ∈ options)
    (hfile : world.policyFile policyPath = .bytes (policy ++ [0x0A])) {names : List Bytes}
    (hloads : PolicyGenerator.LoadsAllowing policy names) {launch : Launch}
    (hlaunch : runChild version world arguments = .ok launch) (n : Bytes) :
    launch.policy.decision n =
      if n ∈ names ∧ .valued .denyTool n ∉ options then ⟨.allow, .allow⟩ else ⟨.deny, .deny⟩ := by
  obtain ⟨definition, hload, hdecided⟩ := loadPolicy_of_loads hloads
  obtain ⟨policyText, htext, hassemble⟩ := launched_policy hline hlaunch
  have hvalue : valueOf? .policy options = some policyPath :=
    (@WellFormed.mem_iff_valueOf? _ _ _ _ _ _ RunOption.policy hline.formed nofun _).mp hpolicy
  rw [hvalue] at htext
  obtain ⟨content, hread, rfl⟩ := htext
  cases hread.symm.trans hfile
  rw [assemble_decision hload (deniedTools_ne_nil hline) hassemble n, hdecided]
  simp only [mem_valuesOf]
  by_cases hdenied : .valued .denyTool n ∈ options
  · rw [if_pos hdenied, if_neg fun h => h.2 hdenied]
  · rw [if_neg hdenied]
    simp only [hdenied, not_false_eq_true, and_true]

/-- What a text among the bytes for the child calls, the policy names and no option denies. -/
theorem named_of_calls (hline : IsRunLine arguments options command) {policyPath policy : Bytes}
    (hpolicy : .valued .policy policyPath ∈ options)
    (hfile : world.policyFile policyPath = .bytes (policy ++ [0x0A])) {names : List Bytes}
    (hloads : PolicyGenerator.LoadsAllowing policy names) {launch : Launch}
    (hlaunch : runChild version world arguments = .ok launch)
    {relay relay' : Relay ToolCallFilter} {turns : List Relay.Turn}
    (hstart : Relay.start launch.runConfig (ToolCallFilter.init launch.policy launch.config) =
      .ok relay)
    (hreaches : Relay.Reaches (some filterHandler) relay turns relay') {text : Bytes}
    (hmem : text ∈ linesOf newline relay'.writtenToChild ++ [restOf newline relay'.writtenToChild])
    {v : Value} (hv : IsText text v) {toolName : Bytes} (hcalls : Calls v toolName) :
    toolName ∈ names ∧ .valued .denyTool toolName ∉ options := by
  have hallowed := (hearsAllowed_of_reaches hstart hreaches).allowed
  have hcallable : (launch.policy.decision toolName).callable = .allow :=
    (hallowed text hmem v hv).of_calls hcalls
  rw [decision_of_loads hline hpolicy hfile hloads hlaunch toolName] at hcallable
  by_contra hnot
  rw [if_neg hnot] at hcallable
  cases hcallable

end run

section create

variable {Entry : Type} [DecidableEq Entry] {createWorld : CreateWorld Entry}
  {createArguments : List Bytes} {createOptions : List (Written CreateOption Bytes)}

/-- The file that a run of `policy create` has written is the policy of its options. -/
theorem created_file (hline : IsCreateLine createArguments createOptions) {path : Bytes}
    (houtput : .valued .output path ∈ createOptions) {nodes : Entry → Option Node}
    {stdout : Bytes} {after : FileSystem Entry}
    (h : runPolicyCreate createWorld createArguments { nodes := nodes } =
      some (.ok stdout, after)) :
    ∃ policy, CreatedBy createWorld createOptions policy ∧
      after.nodes (createWorld.output.locate path) = some (.file (policy ++ [0x0A])) := by
  obtain ⟨policy, hcreated, hwritten⟩ := (policyCreate_of_line hline).mp h
  have hpath : valueOf? .output createOptions = some path :=
    (@WellFormed.mem_iff_valueOf? _ _ _ _ _ _ CreateOption.output hline.formed nofun _).mp houtput
  rw [hpath] at hwritten
  refine ⟨policy, hcreated, ?_⟩
  rw [written_nodes hwritten, Function.update_self]

end create

/-- Behind the file that `policy create` has written, `run` never refuses the policy (it
fails of the audit file or of starting the child, if it fails), and
decides by the two command lines alone: a tool is shown and may be called exactly if
`--allow-tool` named it and `--deny-tool` does not. No text that reaches the child, however
the run goes, calls another tool. -/
theorem created_policy_guards {Entry : Type} [DecidableEq Entry] {createWorld : CreateWorld Entry}
    {createArguments : List Bytes} {createOptions : List (Written CreateOption Bytes)}
    (hcreateLine : IsCreateLine createArguments createOptions) {path : Bytes}
    (houtput : .valued .output path ∈ createOptions) {nodes : Entry → Option Node}
    {stdout : Bytes} {after : FileSystem Entry}
    (hcreate : runPolicyCreate createWorld createArguments { nodes := nodes } =
      some (.ok stdout, after))
    {version : Bytes} {world : RunWorld} {arguments : List Bytes}
    {options : List (Written RunOption Bytes)} {command : List Bytes}
    (hline : IsRunLine arguments options command) {policyPath : Bytes}
    (hpolicy : .valued .policy policyPath ∈ options)
    (hfile : ∀ content, after.nodes (createWorld.output.locate path) = some (.file content) →
      world.policyFile policyPath = .bytes content) :
    (∀ e, runChild version world arguments = .error e →
      (∃ auditPath, .valued .auditFile auditPath ∈ options ∧ e = .auditFile auditPath) ∨
        ∃ launch, PreparedBy version world options command launch ∧
          startChild world launch = .error e) ∧
    ∀ launch, runChild version world arguments = .ok launch →
      (∀ n, launch.policy.decision n =
        if .valued .allowTool n ∈ createOptions ∧ .valued .denyTool n ∉ options
          then ⟨.allow, .allow⟩ else ⟨.deny, .deny⟩) ∧
      ∀ relay relay' turns,
        Relay.start launch.runConfig (ToolCallFilter.init launch.policy launch.config) =
          .ok relay →
        Relay.Reaches (some filterHandler) relay turns relay' →
          ∀ text ∈ linesOf newline relay'.writtenToChild ++
              [restOf newline relay'.writtenToChild],
            ∀ v, IsText text v → ∀ toolName, Calls v toolName →
              .valued .allowTool toolName ∈ createOptions ∧
                .valued .denyTool toolName ∉ options := by
  obtain ⟨policy, hcreated, hnode⟩ := created_file hcreateLine houtput hcreate
  have hcontent := hfile _ hnode
  refine ⟨fun e => ?_, fun launch hlaunch => ?_⟩
  · obtain ⟨definition, hload, -⟩ := loadPolicy_of_loads hcreated.loads
    exact runChild_error_of_loads hline hpolicy hcontent hload
  refine ⟨fun n => ?_, fun relay relay' turns hstart hreaches text hmem v hv toolName hcalls => ?_⟩
  · rw [decision_of_loads hline hpolicy hcontent hcreated.loads hlaunch n]
    simp only [mem_valuesOf]
  · obtain ⟨hnamed, hkept⟩ := named_of_calls hline hpolicy hcontent hcreated.loads hlaunch hstart
      hreaches hmem hv hcalls
    exact ⟨mem_valuesOf.mp hnamed, hkept⟩

/-- The regular files of a file system, as they are read. -/
def readNode : Option Node → InputFile
  | some (.file contents) => .bytes contents
  | _ => .missing

/-- An inventory of one tool at `i`, and a file system that lets its policy be written. -/
def oneToolWorld : CreateWorld Bytes where
  inventoryFile path :=
    if path = ascii "i" then .bytes (ascii
      "\x7b\"inventory_version\":1,\"server\":\x7b\x7d,\"tools\":[\x7b\"name\":\"t\"\x7d]\x7d")
    else .missing
  output := {
    stdoutGood := true
    locate := fun path => path
    answers := { mkstemp := some (ascii "000000"), writes := [.moved 4096] } }

/-- `policy create --from i --allow-tool t --output o`. -/
def createLine : List (Written CreateOption Bytes) :=
  [.valued .fromPath (ascii "i"), .valued .allowTool (ascii "t"), .valued .output (ascii "o")]

theorem createLine_formed :
    IsCreateLine (createLine.flatMap (Written.words CreateOption.word)) createLine where
  words := rfl
  formed := by
    refine ⟨?_, ?_⟩
    · exact List.forall_mem_cons.mpr ⟨rfl, List.forall_mem_cons.mpr
        ⟨rfl, List.forall_mem_singleton.mpr rfl⟩⟩
    · unfold createLine
      simp [Written.name]
  given := rfl

/-- `run --policy o -- s`. -/
theorem policyLine_formed :
    IsRunLine [ascii "--policy", ascii "o", ascii "--", ascii "s"]
      [.valued .policy (ascii "o")] [ascii "s"] where
  words := rfl
  command := List.cons_ne_nil _ _
  formed := ⟨List.forall_mem_singleton.mpr rfl, List.pairwise_singleton _ _⟩
  audit := fun hflag => nomatch List.mem_singleton.mp hflag

/-- A run that reads its policy from the files as they stand. -/
def worldOf (fs : FileSystem Bytes) : RunWorld where
  policyFile path := readNode (fs.nodes path)
  opensForAppend _ := false

theorem policyLine_starts {fs : FileSystem Bytes} {launch : Launch}
    (hprepared : PreparedBy [] (worldOf fs) [.valued .policy (ascii "o")] [ascii "s"] launch) :
    startChild (worldOf fs) launch = .ok launch :=
  (startChild_ok_iff (List.cons_ne_nil _ _) hprepared).mpr ⟨rfl, rfl, by decide, rfl, rfl⟩

theorem created_policy_guards_example : ∃ after launch,
    runPolicyCreate oneToolWorld (createLine.flatMap (Written.words CreateOption.word))
        { nodes := fun _ => none } = some (.ok [], after) ∧
      runChild [] (worldOf after)
        [ascii "--policy", ascii "o", ascii "--", ascii "s"] = .ok launch ∧
      launch.policy.decision (ascii "t") = ⟨.allow, .allow⟩ ∧
      launch.policy.decision (ascii "u") = ⟨.deny, .deny⟩ := by
  have hrun : (runPolicyCreate oneToolWorld
      (createLine.flatMap (Written.words CreateOption.word)) { nodes := fun _ => none }).map
        (fun finished => finished.1.toOption) = some (some []) := by
    decide +kernel
  obtain ⟨⟨result, after⟩, hcreate, hresult⟩ := Option.map_eq_some_iff.mp hrun
  obtain rfl : result = .ok [] := toOption_eq_some.mp hresult
  have hguards := @created_policy_guards _ _ _ _ _ createLine_formed (ascii "o")
    (List.mem_cons_of_mem _ (List.mem_cons_of_mem _ List.mem_cons_self)) _ _ _ hcreate []
    (worldOf after) _ _ _ policyLine_formed (ascii "o")
    List.mem_cons_self (fun content hnode => congrArg readNode hnode)
  cases hlaunch : runChild [] (worldOf after)
      [ascii "--policy", ascii "o", ascii "--", ascii "s"] with
  | error e =>
      rcases hguards.1 e hlaunch with ⟨path, hmem, -⟩ | ⟨launch, hprepared, hfails⟩
      · -- no audit file is asked for
        cases List.mem_singleton.mp hmem
      · cases hfails.symm.trans (policyLine_starts hprepared)
  | ok launch =>
      obtain ⟨hdecision, -⟩ := hguards.2 launch hlaunch
      refine ⟨after, launch, hcreate, hlaunch, ?_, ?_⟩
      · rw [hdecision]
        decide
      · rw [hdecision]
        decide

end NativeGuard.Process

import NativeGuard.Process.CreatedPolicy
import NativeGuard.Process.RunInspect
import NativeGuard.Security.InspectedPolicy

/-!
# From `inspect` to the child

The three commands one after the other: `inspect` writes the tools that a server lists,
`policy create` makes a policy of that file exactly if its `--allow-tool` options name
such tools (`generate_inspected_iff`), and behind the policy a child is called by their
names only (`inspected_tools_guarded`).
-/

namespace NativeGuard.Process

open Json Json.Scan Data Io Protocol Protocol.Inventory Security

/-! ## §1  The inventory as the generator reads it -/

/-- What `inspect` accepts, `policy create` accepts too. -/
structure WithinGenerator (limits : InventoryLimits) (generatorLimits : PolicyGeneratorLimits) :
    Prop where
  toolNameBytes : limits.maxToolNameBytes ≤ generatorLimits.maxToolNameBytes
  tools : limits.maxTools ≤ generatorLimits.maxTools
  /-- The levels around a tool. -/
  room : 3 ≤ limits.maxNestingDepth
  nestingDepth : limits.maxNestingDepth ≤ generatorLimits.maxNestingDepth

/-- A policy is made of a written inventory exactly if the text with its newline has room
and the names are different names of its tools. -/
theorem generate_inspected_iff {limits : InventoryLimits} {generatorLimits : PolicyGeneratorLimits}
    (hwithin : WithinGenerator limits generatorLimits) {message expectedIdJson : Bytes}
    {downstreamExecutable : Bytes} {inventory : ToolInventory}
    (hparse : parseToolsListResponse limits message expectedIdJson downstreamExecutable =
      .ok inventory) {text : Bytes}
    (hemit : emitInventoryJson inventory limits.maxMessageBytes = some text)
    (names : List Bytes) :
    (∃ policy, PolicyGenerator.generatePolicyFromInventory generatorLimits (text ++ [0x0A]) names =
        .ok policy) ↔
      text.length + 1 ≤ generatorLimits.maxInventoryBytes ∧ names.Nodup ∧
        ∀ name ∈ names, name ∈ inventory.tools.map ToolInventoryEntry.name := by
  obtain ⟨-, ms, -, hms, rfl⟩ := parseToolsListResponse_ok.mp hparse
  obtain ⟨tools, hinventory, htools, hcount, hdistinct⟩ :=
    inventoryOf_tools hms downstreamExecutable
  rw [hinventory] at hemit ⊢
  rw [emitInventoryJson_eq] at hemit
  split at hemit
  · cases hemit
    have hdocument : IsText (inventoryJson ⟨downstreamExecutable, tools.map entryOf⟩ ++ [0x0A])
        (.obj noGap (inventoryMembers downstreamExecutable tools)) := by
      refine ⟨noGap, ⟨[0x0A], List.forall_mem_singleton.mpr (by decide)⟩, ?_⟩
      rw [inventoryJson_render htools]
      rfl
    have hread : PolicyGenerator.IsInventory generatorLimits
        (inventoryMembers downstreamExecutable tools) :=
      InspectedPolicy.isInventory_written htools hwithin.toolNameBytes
        (hcount.trans hwithin.tools) hdistinct downstreamExecutable
    have hdepth : (Value.obj noGap (inventoryMembers downstreamExecutable tools)).depth ≤
        generatorLimits.maxNestingDepth :=
      (InspectedPolicy.depth_written htools hwithin.room downstreamExecutable).trans
        hwithin.nestingDepth
    simp only [PolicyGenerator.generate_text hdocument, List.length_append, List.length_singleton]
    constructor
    · rintro ⟨policy, hsize, -, -, hallow, -⟩
      refine ⟨hsize, hallow.distinct, fun name hname => ?_⟩
      rw [← InspectedPolicy.inventoryNames_written htools downstreamExecutable]
      exact hallow.listed name hname
    · rintro ⟨hsize, hnames, hlisted⟩
      refine ⟨_, hsize, hdepth, hread, ⟨hnames, ?_⟩, rfl⟩
      rwa [InspectedPolicy.inventoryNames_written htools downstreamExecutable]
  · cases hemit

/-! ## §2  The three commands -/

section inspect

variable {Entry : Type} [DecidableEq Entry] {world : InspectWorld Entry} {arguments : List Bytes}
  {options : List (Written InspectOption Bytes)} {command : List Bytes}

/-- What the server has listed in a run of `inspect`. -/
def ListedBy (world : InspectWorld Entry) (options : List (Written InspectOption Bytes))
    (command : List Bytes) (inventory : ToolInventory) : Prop :=
  ∃ outcome response,
    (Inspect.discover (inventoryLimitsOf options) world.turns).listed = some outcome ∧
      outcome.response = some response ∧
        parseToolsListResponse (inventoryLimitsOf options) response toolsListIdJson
          (executableBasename (command.headD [])) = .ok inventory

/-- The file that a run of `inspect` has written is the inventory of what was listed. -/
theorem inspected_file (hline : IsInspectLine arguments options command) {path : Bytes}
    (houtput : .valued .output path ∈ options) {nodes : Entry → Option Node} {sent stdout : Bytes}
    {after : FileSystem Entry}
    (h : runInspect world arguments { nodes := nodes } = some (sent, .ok stdout, after)) :
    ∃ inventory text, ListedBy world options command inventory ∧
      emitInventoryJson inventory (inventoryLimitsOf options).maxMessageBytes = some text ∧
        after.nodes (world.output.locate path) = some (.file (text ++ [0x0A])) := by
  obtain ⟨-, text, hinspected, hwritten⟩ := (inspect_of_line hline).mp h
  obtain ⟨-, outcome, response, inventory, hlisted, hresponse, hparse, hemit⟩ :=
    (inspectSession_ok_iff hinspected.session).mp rfl
  have hpath : valueOf? .output options = some path :=
    (@WellFormed.mem_iff_valueOf? _ _ _ _ _ _ InspectOption.output hline.formed trivial _).mp
      houtput
  rw [hpath] at hwritten
  refine ⟨inventory, text, ⟨outcome, response, hlisted, hresponse, hparse⟩, hemit, ?_⟩
  rw [written_nodes hwritten, Function.update_self]

end inspect

/-- A regular file is read as it stands there. -/
def ReadAs {Entry : Type} (fs : FileSystem Entry) (entry : Entry) (file : InputFile) : Prop :=
  ∀ content, fs.nodes entry = some (.file content) → file = .bytes content

/-- However the relay runs, what reaches the child calls no other tools. -/
def CallsOnly (launch : Launch) (called : Bytes → Prop) : Prop :=
  ∀ relay relay' turns,
    Relay.start launch.runConfig (ToolCallFilter.init launch.policy launch.config) = .ok relay →
      Relay.Reaches (some filterHandler) relay turns relay' →
        ∀ text ∈ linesOf newline relay'.writtenToChild ++ [restOf newline relay'.writtenToChild],
          ∀ v, IsText text v → ∀ toolName, Calls v toolName → called toolName

/-- The inventory that `inspect` has written makes a policy exactly if it has room and the
`--allow-tool` options name different tools that the server listed; and behind the file of
that policy, whatever the relay goes through, the child is called only by names that the
server listed, `--allow-tool` named and `--deny-tool` does not. -/
theorem inspected_tools_guarded {Entry : Type} [DecidableEq Entry]
    {inspectWorld : InspectWorld Entry} {inspectArguments : List Bytes}
    {inspectOptions : List (Written InspectOption Bytes)} {server : List Bytes}
    (hinspectLine : IsInspectLine inspectArguments inspectOptions server)
    (hwithin : WithinGenerator (inventoryLimitsOf inspectOptions) {}) {inventoryPath : Bytes}
    (hinventoryPath : .valued .output inventoryPath ∈ inspectOptions)
    {nodes : Entry → Option Node} {sent stdout : Bytes} {inspected : FileSystem Entry}
    (hinspect : runInspect inspectWorld inspectArguments { nodes := nodes } =
      some (sent, .ok stdout, inspected))
    {createWorld : CreateWorld Entry} {createArguments : List Bytes}
    {createOptions : List (Written CreateOption Bytes)}
    (hcreateLine : IsCreateLine createArguments createOptions) {fromPath : Bytes}
    (hfromPath : .valued .fromPath fromPath ∈ createOptions)
    (hinventory : ReadAs inspected (inspectWorld.output.locate inventoryPath)
      (createWorld.inventoryFile fromPath)) :
    ∃ inventory, ListedBy inspectWorld inspectOptions server inventory ∧
      ((∃ policy, CreatedBy createWorld createOptions policy) ↔
        (inventoryJson inventory).length + 1 ≤ 1024 * 1024 ∧
          (valuesOf .allowTool createOptions).Nodup ∧
            ∀ name, .valued .allowTool name ∈ createOptions →
              name ∈ inventory.tools.map ToolInventoryEntry.name) ∧
      ∀ path before stdout' created, .valued .output path ∈ createOptions →
        runPolicyCreate createWorld createArguments { nodes := before } =
            some (.ok stdout', created) →
          ∀ version world arguments options command policyPath launch,
            IsRunLine arguments options command → .valued .policy policyPath ∈ options →
              ReadAs created (createWorld.output.locate path) (world.policyFile policyPath) →
                runChild version world arguments = .ok launch →
                  CallsOnly launch fun toolName =>
                    toolName ∈ inventory.tools.map ToolInventoryEntry.name ∧
                      .valued .allowTool toolName ∈ createOptions ∧
                        .valued .denyTool toolName ∉ options := by
  obtain ⟨inventory, text, hlisted, hemit, hnode⟩ :=
    inspected_file hinspectLine hinventoryPath hinspect
  have hread := hinventory _ hnode
  obtain rfl : text = inventoryJson inventory := by
    rw [emitInventoryJson_eq] at hemit
    split at hemit
    · exact (Option.some.inj hemit).symm
    · cases hemit
  obtain ⟨outcome, response, -, -, hparse⟩ := id hlisted
  have hgenerates := generate_inspected_iff hwithin hparse hemit (valuesOf .allowTool createOptions)
  simp only [mem_valuesOf] at hgenerates
  -- the options name one inventory file
  have hcreates : ∀ policy, CreatedBy createWorld createOptions policy ↔
      PolicyGenerator.generatePolicyFromInventory {} (inventoryJson inventory ++ [0x0A])
        (valuesOf .allowTool createOptions) = .ok policy := by
    intro policy
    have hpath := fun path => @WellFormed.mem_iff_valueOf? _ _ _ _ _ _ CreateOption.fromPath
      hcreateLine.formed (by decide) path
    constructor
    · rintro ⟨path, content, hmem, hfile, hgenerate⟩
      obtain rfl : path = fromPath :=
        Option.some.inj (((hpath path).mp hmem).symm.trans ((hpath fromPath).mp hfromPath))
      cases hfile.symm.trans hread
      exact hgenerate
    · exact fun hgenerate => ⟨fromPath, _, hfromPath, hread, hgenerate⟩
  refine ⟨inventory, hlisted, ?_, ?_⟩
  · simp only [hcreates]
    exact hgenerates
  intro path before stdout' created houtput hcreate version world arguments options command
    policyPath launch hline hpolicy hpolicyFile hlaunch relay relay' turns hstart hreaches text'
    hmem v hv toolName hcalls
  obtain ⟨policy, hcreated, hpolicyNode⟩ := created_file hcreateLine houtput hcreate
  obtain ⟨hnamed, hkept⟩ := named_of_calls hline hpolicy (hpolicyFile _ hpolicyNode)
    hcreated.loads hlaunch hstart hreaches hmem hv hcalls
  have hallowed := mem_valuesOf.mp hnamed
  obtain ⟨-, -, hall⟩ := hgenerates.mp ⟨policy, (hcreates policy).mp hcreated⟩
  exact ⟨hall toolName hallowed, hallowed, hkept⟩

/-- The server of one tool, and a file system that lets its inventory be written. -/
def oneToolServer : InspectWorld Bytes where
  spawns _ := true
  writes := oneToolWrites
  turns := oneToolTurns
  output := {
    stdoutGood := true
    locate := fun path => path
    answers := { mkstemp := some (ascii "111111"), writes := [.moved 4096] } }

/-- What its run writes to `i`. -/
def oneToolInventory : Bytes :=
  ascii ("\x7b\"inventory_version\":1,\"server\":\x7b\"downstream_executable\":\"s\"\x7d," ++
    "\"tools\":[\x7b\"name\":\"t\"\x7d]\x7d\n")

/-- `inspect --output i -- s`. -/
theorem inspectLine_formed :
    IsInspectLine [ascii "--output", ascii "i", ascii "--", ascii "s"]
      [.valued .output (ascii "i")] [ascii "s"] where
  words := rfl
  command := List.cons_ne_nil _ _
  formed := ⟨List.forall_mem_singleton.mpr rfl, List.pairwise_singleton _ _⟩

theorem inspected_tools_guarded_example : ∃ sent inspected inventory created launch,
    runInspect oneToolServer [ascii "--output", ascii "i", ascii "--", ascii "s"]
        { nodes := fun _ => none } = some (sent, .ok [], inspected) ∧
      ListedBy oneToolServer [.valued .output (ascii "i")] [ascii "s"] inventory ∧
      runPolicyCreate { oneToolWorld with inventoryFile := fun _ => .bytes oneToolInventory }
        (createLine.flatMap (Written.words CreateOption.word)) { nodes := fun _ => none } =
          some (.ok [], created) ∧
      runChild [] (worldOf created)
        [ascii "--policy", ascii "o", ascii "--", ascii "s"] = .ok launch ∧
      CallsOnly launch fun toolName =>
        toolName ∈ inventory.tools.map ToolInventoryEntry.name ∧ toolName = ascii "t" := by
  have hrun : (runInspect oneToolServer [ascii "--output", ascii "i", ascii "--", ascii "s"]
      { nodes := fun _ => none }).map (fun run =>
        (run.2.1.toOption, run.2.2.nodes (ascii "i"))) =
          some (some [], some (.file oneToolInventory)) := by
    decide +kernel
  have hrun' : (runPolicyCreate
      { oneToolWorld with inventoryFile := fun _ => .bytes oneToolInventory }
      (createLine.flatMap (Written.words CreateOption.word)) { nodes := fun _ => none }).map
        (fun run => run.1.toOption) = some (some []) := by
    decide +kernel
  obtain ⟨⟨sent, result, inspected⟩, hinspect, hresult⟩ := Option.map_eq_some_iff.mp hrun
  obtain ⟨hok, hnode⟩ := Prod.mk.inj hresult
  obtain rfl : result = .ok [] := toOption_eq_some.mp hok
  obtain ⟨⟨result', created⟩, hcreate, hok'⟩ := Option.map_eq_some_iff.mp hrun'
  obtain rfl : result' = .ok [] := toOption_eq_some.mp hok'
  have houtput : .valued .output (ascii "o") ∈ createLine :=
    List.mem_cons_of_mem _ (List.mem_cons_of_mem _ List.mem_cons_self)
  obtain ⟨inventory, hlisted, -, hguarded⟩ := @inspected_tools_guarded _ _ _ _ _ _
    inspectLine_formed ⟨le_refl 256, le_refl 256, by decide, le_refl 64⟩ (ascii "i")
    List.mem_cons_self _ _ _ _ hinspect
    { oneToolWorld with inventoryFile := fun _ => .bytes oneToolInventory } _ _ createLine_formed
    (ascii "i") List.mem_cons_self (fun content hwritten => by
      cases hnode.symm.trans hwritten
      rfl)
  obtain ⟨policy, hcreated, hpolicy⟩ := created_file createLine_formed houtput hcreate
  obtain ⟨definition, hload, -⟩ := loadPolicy_of_loads hcreated.loads
  cases hlaunch : runChild [] (worldOf created)
      [ascii "--policy", ascii "o", ascii "--", ascii "s"] with
  | error e =>
      rcases runChild_error_of_loads policyLine_formed List.mem_cons_self
        (congrArg readNode hpolicy) hload hlaunch with ⟨path, hmem, -⟩ | ⟨launch, hprepared, hfails⟩
      · -- no audit file is asked for
        cases List.mem_singleton.mp hmem
      · cases hfails.symm.trans (policyLine_starts hprepared)
  | ok launch =>
      refine ⟨sent, inspected, inventory, created, launch, hinspect, hlisted, hcreate, hlaunch, ?_⟩
      have hcalls := hguarded _ _ _ _ houtput hcreate _ _ _ _ _ _ launch policyLine_formed
        List.mem_cons_self (fun content hnode => congrArg readNode hnode) hlaunch
      intro relay relay' turns hstart hreaches text hmem v hv toolName htool
      obtain ⟨hname, hallowed, -⟩ :=
        hcalls relay relay' turns hstart hreaches text hmem v hv toolName htool
      refine ⟨hname, ?_⟩
      simpa [createLine] using hallowed

end NativeGuard.Process

import NativeGuard.Io.CommandOutput
import NativeGuard.Io.InputFile
import NativeGuard.Security.GeneratedPolicy

/-!
# `policy create` (`src/policy_create.cpp`)

The options are read, then the inventory, and the policy made of it is written to the
standard output or to a file. A run succeeds exactly if each of them does
(`policyCreate_ok_iff`), and one that fails leaves every file as it was
(`policyCreate_error_nodes`).
-/

namespace NativeGuard.Process

open Json Json.Scan Data Io Security

/-! ## §1  The command line -/

inductive CreateOption where
  | fromPath
  | allowTool
  | output
deriving DecidableEq, Repr

def CreateOption.word : CreateOption → Bytes
  | fromPath => ascii "--from"
  | allowTool => ascii "--allow-tool"
  | output => ascii "--output"

inductive CreateRefusal where
  | invalid (option : CreateOption)
  | unknown (argument : Bytes)
  | missingFrom
deriving DecidableEq, Repr

/-- The locals of `run_policy_create` that the loop sets. -/
structure CreateOptions where
  fromPath : Bytes := []
  outputPath : Bytes := []
  sawFrom : Bool := false
  sawOutput : Bool := false
  allowTools : List Bytes := []

def findCreateOption (argument : Bytes) : Except CreateRefusal CreateOption :=
  if argument = ascii "--from" then .ok .fromPath
  else if argument = ascii "--allow-tool" then .ok .allowTool
  else if argument = ascii "--output" then .ok .output
  else .error (.unknown argument)

def notEmpty (value : Bytes) : Bool := !value.isEmpty

def createSwitch : CreateOption → Switch CreateRefusal CreateOptions Bytes
  | .fromPath =>
      .reading (.invalid .fromPath) (fun options => options.sawFrom) (keepIf notEmpty)
        fun options value => { options with sawFrom := true, fromPath := value }
  | .allowTool =>
      .reading (.invalid .allowTool) (fun _ => false) (keepIf notEmpty)
        fun options value => { options with allowTools := options.allowTools ++ [value] }
  | .output =>
      .reading (.invalid .output) (fun options => options.sawOutput) (keepIf notEmpty)
        fun options value => { options with sawOutput := true, outputPath := value }

/-- The loop, which no word stops, and the check behind it. -/
def readCreateArguments (arguments : List Bytes) : Except CreateRefusal CreateOptions := do
  let (options, _) ← readOptions findCreateOption createSwitch (fun _ => false) {} arguments
  if options.sawFrom = true then .ok options else .error .missingFrom

def ValidCreateOption : Written CreateOption Bytes → Prop
  | .flag _ => False
  | .valued _ value => notEmpty value = true

/-- Every option but `--allow-tool` is given once. -/
abbrev CreateOptionsFormed (options : List (Written CreateOption Bytes)) : Prop :=
  WellFormed (fun name => name ≠ CreateOption.allowTool) ValidCreateOption options

/-- The locals, looked up in the options. -/
def createOptionsOf (options : List (Written CreateOption Bytes)) : CreateOptions where
  fromPath := (valueOf? .fromPath options).getD []
  outputPath := (valueOf? .output options).getD []
  sawFrom := (valueOf? .fromPath options).isSome
  sawOutput := (valueOf? .output options).isSome
  allowTools := valuesOf .allowTool options

/-- The words of a command line of `policy create`. -/
structure IsCreateLine (arguments : List Bytes) (options : List (Written CreateOption Bytes)) :
    Prop where
  words : arguments = options.flatMap (Written.words CreateOption.word)
  formed : CreateOptionsFormed options
  given : (valueOf? .fromPath options).isSome = true

theorem createOption_spelling :
    Spelling findCreateOption CreateOption.word (fun _ => false) where
  find_iff := by
    intro w name
    constructor
    · intro h
      unfold findCreateOption at h
      split_ifs at h with h₁ h₂ h₃ <;> cases h
      · exact h₁
      · exact h₂
      · exact h₃
    · rintro rfl
      cases name <;> rfl
  not_stop := fun _ => rfl

theorem createOptions_records :
    Records createSwitch (fun name => name ≠ CreateOption.allowTool) ValidCreateOption
      createOptionsOf := by
  intro options option s' hformed
  have hflag : ∀ name : CreateOption, .flag name ∉ options :=
    fun name hmem => hformed.valid _ hmem
  cases option with
  | flag name =>
      have hnone : setOption createSwitch (createOptionsOf options) (.flag name) = none := by
        cases name <;> rfl
      rw [hnone]
      exact iff_of_false (Option.some_ne_none s').symm fun h =>
        h.1.valid _ (List.mem_append_right _ List.mem_cons_self)
  | valued name value =>
      cases name with
      | fromPath =>
          have hswitch : createSwitch .fromPath = .reading (.invalid .fromPath)
            (fun options => options.sawFrom) (keepIf notEmpty) fun options value =>
              { options with sawFrom := true, fromPath := value } := rfl
          refine records_once hswitch hformed (by decide) (hflag _) rfl keepIf_isSome
            (fun r hr hnew => ?_) s'
          obtain ⟨-, rfl⟩ := keepIf_eq_some.mp hr
          simp [createOptionsOf, valueOf?_append_of_ne, valueOf?_append_fresh hnew, valuesOf,
            Written.valueOf]
      | allowTool =>
          have hswitch : createSwitch .allowTool = .reading (.invalid .allowTool)
            (fun _ => false) (keepIf notEmpty) fun options value =>
              { options with allowTools := options.allowTools ++ [value] } := rfl
          refine records_again hswitch hformed (fun h => h rfl) keepIf_isSome (fun r hr => ?_) s'
          obtain ⟨-, rfl⟩ := keepIf_eq_some.mp hr
          simp [createOptionsOf, valueOf?_append_of_ne, valuesOf, Written.valueOf]
      | output =>
          have hswitch : createSwitch .output = .reading (.invalid .output)
            (fun options => options.sawOutput) (keepIf notEmpty) fun options value =>
              { options with sawOutput := true, outputPath := value } := rfl
          refine records_once hswitch hformed (by decide) (hflag _) rfl keepIf_isSome
            (fun r hr hnew => ?_) s'
          obtain ⟨-, rfl⟩ := keepIf_eq_some.mp hr
          simp [createOptionsOf, valueOf?_append_of_ne, valueOf?_append_fresh hnew, valuesOf,
            Written.valueOf]

theorem readCreateArguments_ok_iff {arguments : List Bytes} {locals : CreateOptions} :
    readCreateArguments arguments = .ok locals ↔
      ∃ options, IsCreateLine arguments options ∧ locals = createOptionsOf options := by
  have hread := fun (locals : CreateOptions) (rest : List Bytes) =>
    @readOptions_all_iff _ _ _ _ findCreateOption createSwitch CreateOption.word _ _
      createOptionsOf createOption_spelling createOptions_records locals arguments rest
  constructor
  · intro h
    obtain ⟨⟨found, rest⟩, hfound, hgiven⟩ := except_bind_ok.mp h
    obtain ⟨options, hwords, hformed, rfl, -⟩ := (hread found rest).mp hfound
    dsimp only at hgiven
    split at hgiven
    · rename_i hfrom
      cases hgiven
      exact ⟨options, ⟨hwords, hformed, hfrom⟩, rfl⟩
    · cases hgiven
  · rintro ⟨options, hline, rfl⟩
    have hfound := (hread _ []).mpr ⟨options, hline.words, hline.formed, rfl, rfl⟩
    exact except_bind_ok.mpr ⟨_, hfound, if_pos hline.given⟩

/-! ## §2  `run_policy_create` -/

inductive CreateError where
  | options (refusal : CreateRefusal)
  | inventoryFile (error : ReadError) (path : Bytes)
  | generate (failure : PolicyGenerateFailure)
  | output (error : OutputError)

structure CreateWorld (Entry : Type) where
  inventoryFile : Bytes → InputFile
  output : OutputWorld Entry

variable {Entry : Type} [DecidableEq Entry] (world : CreateWorld Entry)

/-- The policy that the options ask for. -/
def createdPolicy (options : CreateOptions) : Except CreateError Bytes := do
  let inventory ← ((world.inventoryFile options.fromPath).read
    ({} : PolicyGeneratorLimits).maxInventoryBytes).mapError (.inventoryFile · options.fromPath)
  (PolicyGenerator.generatePolicyFromInventory {} inventory options.allowTools).mapError .generate

/-- Nothing while a call of the writer has not come back. -/
def runPolicyCreate (arguments : List Bytes) (fs : FileSystem Entry) :
    Option (Finished CreateError Entry) :=
  match (readCreateArguments arguments).mapError CreateError.options with
  | .error e => some (.error e, fs)
  | .ok options =>
      match createdPolicy world options with
      | .error e => some (.error e, fs)
      | .ok policy =>
          (writeOutput world.output (ascii "mng-policy") options.outputPath policy fs).map
            (Finished.mapError .output)

/-! ## §3  What a run does -/

variable {world}

/-- The policy is made of the inventory that the options name. -/
def CreatedBy (world : CreateWorld Entry) (options : List (Written CreateOption Bytes))
    (policy : Bytes) : Prop :=
  ∃ path inventory, .valued .fromPath path ∈ options ∧
    world.inventoryFile path = .bytes inventory ∧
      PolicyGenerator.generatePolicyFromInventory {} inventory (valuesOf .allowTool options) =
        .ok policy

section line

variable {arguments : List Bytes} {options : List (Written CreateOption Bytes)}
  (hline : IsCreateLine arguments options)
include hline

omit [DecidableEq Entry] in
/-- The generator refuses what the file reader refuses. -/
theorem createdPolicy_ok_iff {policy : Bytes} :
    createdPolicy world (createOptionsOf options) = .ok policy ↔
      CreatedBy world options policy := by
  obtain ⟨path, hpath⟩ := Option.isSome_iff_exists.mp hline.given
  have hfrom : (createOptionsOf options).fromPath = path := by
    rw [createOptionsOf, hpath, Option.getD_some]
  have hmem : ∀ path', .valued .fromPath path' ∈ options ↔ path' = path := by
    intro path'
    rw [@WellFormed.mem_iff_valueOf? _ _ _ _ _ _ CreateOption.fromPath hline.formed nofun, hpath,
      Option.some.injEq]
    exact eq_comm
  unfold createdPolicy CreatedBy
  rw [except_bind_ok, hfrom]
  simp only [mapError_ok_iff, InputFile.read_ok_iff, hmem]
  constructor
  · rintro ⟨inventory, ⟨hfile, -⟩, hgenerate⟩
    exact ⟨path, inventory, rfl, hfile, hgenerate⟩
  · rintro ⟨_, inventory, rfl, hfile, hgenerate⟩
    exact ⟨inventory, ⟨hfile, (PolicyGenerator.generate_ok.mp hgenerate).1⟩, hgenerate⟩

theorem outputPath_eq : (createOptionsOf options).outputPath =
      (valueOf? .output options).getD [] ∧
    ∀ path, valueOf? .output options = some path → path ≠ [] := by
  refine ⟨rfl, ?_⟩
  rintro path hpath rfl
  have htakes : notEmpty [] = true := hline.formed.valid _ (mem_of_valueOf? hpath)
  exact Bool.false_ne_true htakes

end line

/-- However the words are read as a command line, the run is that of the line. -/
theorem policyCreate_of_line {arguments : List Bytes}
    {options : List (Written CreateOption Bytes)} (hline : IsCreateLine arguments options)
    {before after : FileSystem Entry} {stdout : Bytes} :
    runPolicyCreate world arguments before = some (.ok stdout, after) ↔
      ∃ policy, CreatedBy world options policy ∧
        WrittenTo world.output (ascii "mng-policy") (valueOf? .output options) policy before
          stdout after := by
  unfold runPolicyCreate
  rw [mapError_ok_iff.mpr (readCreateArguments_ok_iff.mpr ⟨options, hline, rfl⟩)]
  dsimp only
  constructor
  · intro h
    cases hcreated : createdPolicy world (createOptionsOf options) with
    | error e =>
        rw [hcreated] at h
        cases h
    | ok policy =>
        rw [hcreated] at h
        exact ⟨policy, (createdPolicy_ok_iff hline).mp hcreated,
          (writeOutput_ok_iff (outputPath_eq hline).2).mp (Finished.mapError_ok_iff.mp h)⟩
  · rintro ⟨policy, hcreated, hwritten⟩
    rw [(createdPolicy_ok_iff hline).mpr hcreated]
    exact Finished.mapError_ok_iff.mpr ((writeOutput_ok_iff (outputPath_eq hline).2).mpr hwritten)

/-- A run succeeds exactly for a command line whose inventory is read and makes a policy
that can be written. -/
theorem policyCreate_ok_iff {arguments : List Bytes} {before after : FileSystem Entry}
    {stdout : Bytes} :
    runPolicyCreate world arguments before = some (.ok stdout, after) ↔
      ∃ options policy, IsCreateLine arguments options ∧ CreatedBy world options policy ∧
        WrittenTo world.output (ascii "mng-policy") (valueOf? .output options) policy before
          stdout after := by
  constructor
  · intro h
    have hread : ∃ locals, readCreateArguments arguments = .ok locals := by
      cases hread : readCreateArguments arguments with
      | error e =>
          unfold runPolicyCreate at h
          rw [hread] at h
          cases h
      | ok locals => exact ⟨locals, rfl⟩
    obtain ⟨locals, hread⟩ := hread
    obtain ⟨options, hline, rfl⟩ := readCreateArguments_ok_iff.mp hread
    obtain ⟨policy, hcreated, hwritten⟩ := (policyCreate_of_line hline).mp h
    exact ⟨options, policy, hline, hcreated, hwritten⟩
  · rintro ⟨options, policy, hline, hcreated, hwritten⟩
    exact (policyCreate_of_line hline).mpr ⟨policy, hcreated, hwritten⟩

/-- A run that fails leaves every file as it was. -/
theorem policyCreate_error_nodes {arguments : List Bytes} {nodes : Entry → Option Node}
    {e : CreateError} {after : FileSystem Entry}
    (h : runPolicyCreate world arguments { nodes := nodes } = some (.error e, after)) :
    after.nodes = nodes := by
  unfold runPolicyCreate at h
  cases hread : (readCreateArguments arguments).mapError CreateError.options with
  | error e' =>
      rw [hread] at h
      cases h
      rfl
  | ok options =>
      rw [hread] at h
      dsimp only at h
      cases hcreated : createdPolicy world options with
      | error e' =>
          rw [hcreated] at h
          cases h
          rfl
      | ok policy =>
          rw [hcreated] at h
          obtain ⟨e', hwritten⟩ := Finished.mapError_error h
          exact writeOutput_error_nodes hwritten

omit [DecidableEq Entry] in
/-- What a policy that was created lets through: the tools of its options. -/
theorem CreatedBy.loads {options : List (Written CreateOption Bytes)} {policy : Bytes}
    (h : CreatedBy world options policy) :
    PolicyGenerator.LoadsAllowing policy (valuesOf .allowTool options) := by
  obtain ⟨path, inventory, -, -, hgenerate⟩ := h
  obtain ⟨-, -, ms, -, -, -, -, hinventory, hallow, rfl⟩ :=
    PolicyGenerator.generate_ok.mp hgenerate
  exact PolicyGenerator.allow_list_loads hinventory hallow (le_refl 256) (le_refl 256)

/-- `policy create` succeeds exactly for a command line whose inventory is read and makes a
policy that can be written; what it writes is then loaded as a policy that allows the
tools of `--allow-tool` and no others, whole at its path. A run that fails leaves every
file as it was. -/
theorem policy_create_result (world : CreateWorld Entry) (arguments : List Bytes)
    (nodes : Entry → Option Node) :
    (∀ stdout after, runPolicyCreate world arguments { nodes := nodes } =
        some (.ok stdout, after) ↔
      ∃ options policy, IsCreateLine arguments options ∧ CreatedBy world options policy ∧
        WrittenTo world.output (ascii "mng-policy") (valueOf? .output options) policy
          { nodes := nodes } stdout after) ∧
    (∀ options policy, CreatedBy world options policy →
      PolicyGenerator.LoadsAllowing policy (valuesOf .allowTool options)) ∧
    (∀ path policy stdout after,
      WrittenTo world.output (ascii "mng-policy") (some path) policy { nodes := nodes } stdout
          after →
        after.nodes = Function.update nodes (world.output.locate path)
          (some (.file (policy ++ [0x0A])))) ∧
    ∀ e after, runPolicyCreate world arguments { nodes := nodes } = some (.error e, after) →
      after.nodes = nodes :=
  ⟨fun _ _ => policyCreate_ok_iff, fun _ _ h => h.loads, fun _ _ _ _ h => written_nodes h,
    fun _ _ h => policyCreate_error_nodes h⟩

end NativeGuard.Process

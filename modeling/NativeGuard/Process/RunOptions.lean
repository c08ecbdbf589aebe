import NativeGuard.Data.Options
import NativeGuard.Process.AuditedRun

/-!
# The command line of `run` (`src/main.cpp`)

The option loop of `run_child`. It accepts exactly the options that are valid one by one
and given once, up to the separator (`runOptions_iff`), and what it ends with is looked
up in them (`runOptionsOf`).
-/

namespace NativeGuard.Process

open Json Json.Scan Data Protocol

/-! ## §1  Checks of one value -/

def separator : Bytes := ascii "--"

def maxServerLabelBytes : Nat := 128

def validServerLabel (label : Bytes) : Bool :=
  !(label.isEmpty || decide (maxServerLabelBytes < label.length)) &&
    label.all fun byte => !(decide (byte < 0x20) || byte == 0x7F)

def validStraceOutputPath (path : Bytes) : Bool :=
  !(path.isEmpty || path == ascii "-" || decide (4096 < path.length)) &&
    path.all fun character => !(decide (character < 0x20) || character == 0x7F)

/-- `find_last_of('/')`, and what is behind it. -/
def executableBasename (executable : Bytes) : Bytes :=
  (executable.reverse.takeWhile (· ≠ 0x2F)).reverse

/-- `make_strace_command`, without the null at its end. -/
def makeStraceCommand (command : List Bytes) (outputPath : Option Bytes) : List Bytes :=
  match outputPath with
  | none => command
  | some path =>
      [ascii "strace", ascii "-f", ascii "-qq", ascii "-s", ascii "256", ascii "-e",
        ascii "trace=%file,%process,%network", ascii "-o", path, ascii "--"] ++ command

/-! ## §2  The loop -/

inductive RunOption where
  | policy
  | auditFile
  | straceFile
  | serverLabel
  | auditStderr
  | maxMessageBytes
  | maxNestingDepth
  | maxPendingToolsList
  | denyTool
deriving DecidableEq, Repr

namespace RunOption

def word : RunOption → Bytes
  | policy => ascii "--policy"
  | auditFile => ascii "--audit-file"
  | straceFile => ascii "--strace-file"
  | serverLabel => ascii "--server-label"
  | auditStderr => ascii "--audit-stderr"
  | maxMessageBytes => ascii "--max-message-bytes"
  | maxNestingDepth => ascii "--max-nesting-depth"
  | maxPendingToolsList => ascii "--max-pending-tools-list"
  | denyTool => ascii "--deny-tool"

end RunOption

/-- `print_run_usage`, and the return. -/
inductive RunUsage where
  | usage
deriving DecidableEq, Repr

/-- The comparisons of the loop, in their order. -/
def findRunOption (argument : Bytes) : Except RunUsage RunOption :=
  if argument = ascii "--policy" then .ok .policy
  else if argument = ascii "--audit-file" then .ok .auditFile
  else if argument = ascii "--strace-file" then .ok .straceFile
  else if argument = ascii "--server-label" then .ok .serverLabel
  else if argument = ascii "--audit-stderr" then .ok .auditStderr
  else if argument = ascii "--max-message-bytes" then .ok .maxMessageBytes
  else if argument = ascii "--max-nesting-depth" then .ok .maxNestingDepth
  else if argument = ascii "--max-pending-tools-list" then .ok .maxPendingToolsList
  else if argument ≠ ascii "--deny-tool" then .error .usage
  else .ok .denyTool

/-- The locals of `run_child` that the loop sets. -/
structure RunOptions where
  deniedTools : List Bytes := []
  policyPath : Bytes := []
  auditFilePath : Bytes := []
  straceFilePath : Bytes := []
  serverLabel : Bytes := ascii "unlabeled"
  sawServerLabel : Bool := false
  runtimeLimits : RuntimeLimits := {}
  auditStderr : Bool := false
  sawMaxMessageBytes : Bool := false
  sawMaxNestingDepth : Bool := false
  sawMaxPendingToolsList : Bool := false

/-- An option with a value; the usage is printed where it is refused. -/
abbrev valueOption {β : Type} (seen : RunOptions → Bool) (read : Bytes → Option β)
    (set : RunOptions → β → RunOptions) : Switch RunUsage RunOptions Bytes :=
  .reading .usage seen read set

/-- The check of paths and tool names. -/
def validText (value : Bytes) : Bool := !(value.isEmpty || value == separator)

def runSwitch : RunOption → Switch RunUsage RunOptions Bytes
  | .policy =>
      valueOption (fun options => !options.policyPath.isEmpty) (keepIf validText)
        fun options value => { options with policyPath := value }
  | .auditFile =>
      valueOption (fun options => !options.auditFilePath.isEmpty) (keepIf validText)
        fun options value => { options with auditFilePath := value }
  | .straceFile =>
      valueOption (fun options => !options.straceFilePath.isEmpty) (keepIf validStraceOutputPath)
        fun options value => { options with straceFilePath := value }
  | .serverLabel =>
      valueOption (fun options => options.sawServerLabel)
        (keepIf fun value => validServerLabel value && value != separator)
        fun options value => { options with sawServerLabel := true, serverLabel := value }
  | .auditStderr =>
      .flag fun options =>
        if options.auditStderr = true then .error .usage
        else .ok { options with auditStderr := true }
  | .maxMessageBytes =>
      valueOption (fun options => options.sawMaxMessageBytes) parseBoundedInteger
        fun options value => { options with
          runtimeLimits := { options.runtimeLimits with maxMessageBytes := value }
          sawMaxMessageBytes := true }
  | .maxNestingDepth =>
      valueOption (fun options => options.sawMaxNestingDepth) parseBoundedInteger
        fun options value => { options with
          runtimeLimits := { options.runtimeLimits with maxNestingDepth := value }
          sawMaxNestingDepth := true }
  | .maxPendingToolsList =>
      valueOption (fun options => options.sawMaxPendingToolsList) parseBoundedInteger
        fun options value => { options with
          runtimeLimits := { options.runtimeLimits with maxPendingToolsList := value }
          sawMaxPendingToolsList := true }
  | .denyTool =>
      valueOption (fun _ => false) (keepIf validText)
        fun options value => { options with deniedTools := options.deniedTools ++ [value] }

def isSeparator (argument : Bytes) : Bool := argument == separator

/-- The loop, and the checks behind it: the options and the command. -/
def readRunArguments (arguments : List Bytes) :
    Except RunUsage (RunOptions × List Bytes) := do
  let (options, rest) ← readOptions findRunOption runSwitch isSeparator {} arguments
  match rest with
  | [] => .error .usage
  | [_] => .error .usage
  | _ :: command =>
      if options.auditStderr = true ∧ options.auditFilePath ≠ [] then .error .usage
      else .ok (options, command)

/-! ## §3  What the loop accepts -/

/-- A value that the option takes. -/
def RunOption.Takes (name : RunOption) (value : Bytes) : Prop :=
  match name with
  | .policy | .auditFile | .denyTool => validText value = true
  | .straceFile => validStraceOutputPath value = true
  | .serverLabel => validServerLabel value = true ∧ value ≠ separator
  | .auditStderr => False
  | .maxMessageBytes | .maxNestingDepth | .maxPendingToolsList =>
      (parseBoundedInteger value).isSome = true

def ValidRunOption : Written RunOption Bytes → Prop
  | .flag name => name = .auditStderr
  | .valued name value => name.Takes value

/-- Every option but `--deny-tool` is given once. -/
abbrev RunOptionsFormed (options : List (Written RunOption Bytes)) : Prop :=
  WellFormed (fun name => name ≠ RunOption.denyTool) ValidRunOption options

def limitOf (name : RunOption) (default : Nat) (options : List (Written RunOption Bytes)) : Nat :=
  ((valueOf? name options).bind parseBoundedInteger).getD default

/-- The locals, looked up in the options. -/
def runOptionsOf (options : List (Written RunOption Bytes)) : RunOptions where
  deniedTools := valuesOf .denyTool options
  policyPath := (valueOf? .policy options).getD []
  auditFilePath := (valueOf? .auditFile options).getD []
  straceFilePath := (valueOf? .straceFile options).getD []
  serverLabel := (valueOf? .serverLabel options).getD (ascii "unlabeled")
  sawServerLabel := (valueOf? .serverLabel options).isSome
  runtimeLimits := {
    maxMessageBytes := limitOf .maxMessageBytes (1024 * 1024) options
    maxNestingDepth := limitOf .maxNestingDepth 64 options
    maxPendingToolsList := limitOf .maxPendingToolsList 64 options }
  auditStderr := decide (.flag .auditStderr ∈ options)
  sawMaxMessageBytes := (valueOf? .maxMessageBytes options).isSome
  sawMaxNestingDepth := (valueOf? .maxNestingDepth options).isSome
  sawMaxPendingToolsList := (valueOf? .maxPendingToolsList options).isSome

theorem runOption_spelling : Spelling findRunOption RunOption.word isSeparator where
  find_iff := by
    intro w name
    constructor
    · intro h
      unfold findRunOption at h
      split_ifs at h with h₁ h₂ h₃ h₄ h₅ h₆ h₇ h₈ h₉ <;> cases h
      · exact h₁
      · exact h₂
      · exact h₃
      · exact h₄
      · exact h₅
      · exact h₆
      · exact h₇
      · exact h₈
      · exact not_not.mp h₉
    · rintro rfl
      cases name <;> rfl
  not_stop := by
    intro name
    cases name <;> decide

section records

variable {options : List (Written RunOption Bytes)} (hformed : RunOptionsFormed options)
include hformed

/-- An option other than the flag has been given exactly if it has a value. -/
theorem given_iff_value {name : RunOption} (hname : name ≠ .auditStderr) :
    (∃ earlier ∈ options, earlier.name = name) ↔ (valueOf? name options).isSome = true :=
  given_iff_valueOf? fun hmem => hname (hformed.valid _ hmem)

/-- A path is not empty, so it tells whether its option has been given. -/
theorem given_iff_path {name : RunOption} (hname : name ≠ .auditStderr)
    (hpath : ∀ value, name.Takes value → value ≠ []) :
    (∃ earlier ∈ options, earlier.name = name) ↔
      (!((valueOf? name options).getD []).isEmpty) = true := by
  rw [given_iff_value hformed hname]
  cases hvalue : valueOf? name options with
  | none => exact iff_of_false nofun nofun
  | some value =>
      have htakes : name.Takes value := hformed.valid _ (mem_of_valueOf? hvalue)
      refine iff_of_true rfl ?_
      simpa using hpath value htakes

theorem given_iff_flag :
    (∃ earlier ∈ options, earlier.name = .auditStderr) ↔ .flag .auditStderr ∈ options := by
  constructor
  · rintro ⟨earlier, hmem, hname⟩
    cases earlier with
    | flag name =>
        obtain rfl : name = .auditStderr := hname
        exact hmem
    | valued name value =>
        obtain rfl : name = .auditStderr := hname
        exact (hformed.valid _ hmem).elim
  · exact fun hmem => ⟨_, hmem, rfl⟩

theorem records_path {name : RunOption} {valid : Bytes → Bool} {path : RunOptions → Bytes}
    {set : RunOptions → Bytes → RunOptions}
    (h : runSwitch name =
      valueOption (fun options => !(path options).isEmpty) (keepIf valid) set)
    (hname : name ≠ .auditStderr ∧ name ≠ .denyTool)
    (hpath : path (runOptionsOf options) = (valueOf? name options).getD [])
    (htakes : ∀ value, name.Takes value ↔ valid value = true) (hvalid : valid [] = false)
    {value : Bytes}
    (hset : (∀ earlier ∈ options, earlier.name ≠ name) →
      set (runOptionsOf options) value = runOptionsOf (options ++ [.valued name value]))
    (s' : RunOptions) :
    setOption runSwitch (runOptionsOf options) (.valued name value) = some s' ↔
      RunOptionsFormed (options ++ [.valued name value]) ∧
        s' = runOptionsOf (options ++ [.valued name value]) := by
  refine records_reading h hformed ?_ ?_ ?_ s'
  · rw [hpath, ← given_iff_path hformed hname.1]
    · exact (and_iff_right hname.2).symm
    · rintro _ hvalue rfl
      rw [htakes, hvalid] at hvalue
      exact Bool.false_ne_true hvalue
  · exact keepIf_isSome.trans (htakes value).symm
  · intro r hr hnew
    obtain ⟨-, rfl⟩ := keepIf_eq_some.mp hr
    exact hset (hnew hname.2)

theorem records_limit {name : RunOption} {seen : RunOptions → Bool}
    {set : RunOptions → Nat → RunOptions}
    (h : runSwitch name = valueOption seen parseBoundedInteger set)
    (hname : name ≠ .auditStderr ∧ name ≠ .denyTool)
    (hseen : seen (runOptionsOf options) = (valueOf? name options).isSome) {value : Bytes}
    (htakes : (parseBoundedInteger value).isSome = true ↔ name.Takes value)
    (hset : ∀ r, parseBoundedInteger value = some r →
      (∀ earlier ∈ options, earlier.name ≠ name) →
        set (runOptionsOf options) r = runOptionsOf (options ++ [.valued name value]))
    (s' : RunOptions) :
    setOption runSwitch (runOptionsOf options) (.valued name value) = some s' ↔
      RunOptionsFormed (options ++ [.valued name value]) ∧
        s' = runOptionsOf (options ++ [.valued name value]) := by
  exact records_once h hformed hname.2 (fun hmem => hname.1 (hformed.valid _ hmem)) hseen htakes
    hset s'

theorem records_flag (s' : RunOptions) :
    setOption runSwitch (runOptionsOf options) (.flag .auditStderr) = some s' ↔
      RunOptionsFormed (options ++ [.flag .auditStderr]) ∧
        s' = runOptionsOf (options ++ [.flag .auditStderr]) := by
  have hview : { runOptionsOf options with auditStderr := true } =
      runOptionsOf (options ++ [.flag .auditStderr]) := by
    simp [runOptionsOf, limitOf, valuesOf, Written.valueOf]
  have hset : setOption runSwitch (runOptionsOf options) (.flag .auditStderr) =
      (if (runOptionsOf options).auditStderr = true then .error .usage
        else .ok (runOptionsOf (options ++ [.flag .auditStderr])) :
          Except RunUsage RunOptions).toOption := by
    rw [← hview]
    rfl
  have hflag : (runOptionsOf options).auditStderr = true ↔ .flag .auditStderr ∈ options :=
    decide_eq_true_iff
  have hgiven := given_iff_flag hformed
  rw [hset, toOption_eq_some]
  by_cases hseen : .flag .auditStderr ∈ options
  · rw [if_pos (hflag.mpr hseen)]
    refine iff_of_false (by rintro ⟨⟩) fun h => ?_
    obtain ⟨earlier, hmem, hname⟩ := hgiven.mpr hseen
    exact (wellFormed_append_singleton.mp h.1).2.2 (by decide) earlier hmem hname
  · rw [if_neg fun h => hseen (hflag.mp h), Except.ok.injEq]
    constructor
    · rintro rfl
      refine ⟨wellFormed_append_singleton.mpr ⟨hformed, rfl, fun _ earlier hmem hname => ?_⟩, rfl⟩
      exact hseen (hgiven.mp ⟨earlier, hmem, hname⟩)
    · exact fun h => h.2.symm

end records

/-- The locals record the options. -/
theorem runOptions_records :
    Records runSwitch (fun name => name ≠ RunOption.denyTool) ValidRunOption runOptionsOf := by
  intro options option s' hformed
  cases option with
  | flag name =>
      by_cases hname : name = .auditStderr
      · subst hname
        exact records_flag hformed s'
      · have hnone : setOption runSwitch (runOptionsOf options) (.flag name) = none := by
          cases name <;> first | rfl | exact absurd rfl hname
        rw [hnone]
        exact iff_of_false (Option.some_ne_none s').symm fun h =>
          hname (h.1.valid _ (List.mem_append_right _ List.mem_cons_self))
  | valued name value =>
      cases name with
      -- of these three a path that is not empty tells that they have been given
      | policy =>
          have hswitch : runSwitch .policy = valueOption (fun options =>
            !options.policyPath.isEmpty) (keepIf validText) fun options value =>
              { options with policyPath := value } := rfl
          refine records_path hformed hswitch (by decide) rfl (fun _ => Iff.rfl) rfl
            (fun hnew => ?_) s'
          simp [runOptionsOf, limitOf, valueOf?_append_of_ne, valueOf?_append_fresh hnew,
            valuesOf, Written.valueOf]
      | auditFile =>
          have hswitch : runSwitch .auditFile = valueOption (fun options =>
            !options.auditFilePath.isEmpty) (keepIf validText) fun options value =>
              { options with auditFilePath := value } := rfl
          refine records_path hformed hswitch (by decide) rfl (fun _ => Iff.rfl) rfl
            (fun hnew => ?_) s'
          simp [runOptionsOf, limitOf, valueOf?_append_of_ne, valueOf?_append_fresh hnew,
            valuesOf, Written.valueOf]
      | straceFile =>
          have hswitch : runSwitch .straceFile = valueOption (fun options =>
            !options.straceFilePath.isEmpty) (keepIf validStraceOutputPath) fun options value =>
              { options with straceFilePath := value } := rfl
          refine records_path hformed hswitch (by decide) rfl (fun _ => Iff.rfl) rfl
            (fun hnew => ?_) s'
          simp [runOptionsOf, limitOf, valueOf?_append_of_ne, valueOf?_append_fresh hnew,
            valuesOf, Written.valueOf]
      -- of the label and the limits a flag does
      | serverLabel =>
          have hswitch : runSwitch .serverLabel = valueOption (fun options =>
            options.sawServerLabel) (keepIf fun value =>
              validServerLabel value && value != separator) fun options value =>
                { options with sawServerLabel := true, serverLabel := value } := rfl
          have hname : RunOption.serverLabel ≠ .auditStderr ∧
              RunOption.serverLabel ≠ .denyTool := by
            decide
          have hgiven := given_iff_value hformed hname.1
          refine records_reading hswitch hformed ?_ ?_ (fun r hr hnew => ?_) s'
          · exact hgiven.symm.trans (and_iff_right hname.2).symm
          · rw [keepIf_isSome, Bool.and_eq_true, bne_iff_ne]
            exact Iff.rfl
          · obtain ⟨-, rfl⟩ := keepIf_eq_some.mp hr
            simp [runOptionsOf, limitOf, valueOf?_append_of_ne,
              valueOf?_append_fresh (hnew hname.2), valuesOf, Written.valueOf]
      | auditStderr =>
          have hnone : setOption runSwitch (runOptionsOf options)
              (.valued .auditStderr value) = none := rfl
          rw [hnone]
          exact iff_of_false (Option.some_ne_none s').symm fun h =>
            h.1.valid _ (List.mem_append_right _ List.mem_cons_self)
      | maxMessageBytes =>
          have hswitch : runSwitch .maxMessageBytes = valueOption (fun options =>
            options.sawMaxMessageBytes) parseBoundedInteger fun options value => { options with
              runtimeLimits := { options.runtimeLimits with maxMessageBytes := value }
              sawMaxMessageBytes := true } := rfl
          refine records_limit hformed hswitch (by decide) rfl Iff.rfl (fun r hr hnew => ?_) s'
          simp [runOptionsOf, limitOf, valueOf?_append_of_ne, valueOf?_append_fresh hnew, hr,
            valuesOf, Written.valueOf]
      | maxNestingDepth =>
          have hswitch : runSwitch .maxNestingDepth = valueOption (fun options =>
            options.sawMaxNestingDepth) parseBoundedInteger fun options value => { options with
              runtimeLimits := { options.runtimeLimits with maxNestingDepth := value }
              sawMaxNestingDepth := true } := rfl
          refine records_limit hformed hswitch (by decide) rfl Iff.rfl (fun r hr hnew => ?_) s'
          simp [runOptionsOf, limitOf, valueOf?_append_of_ne, valueOf?_append_fresh hnew, hr,
            valuesOf, Written.valueOf]
      | maxPendingToolsList =>
          have hswitch : runSwitch .maxPendingToolsList = valueOption (fun options =>
            options.sawMaxPendingToolsList) parseBoundedInteger fun options value => { options with
              runtimeLimits := { options.runtimeLimits with maxPendingToolsList := value }
              sawMaxPendingToolsList := true } := rfl
          refine records_limit hformed hswitch (by decide) rfl Iff.rfl (fun r hr hnew => ?_) s'
          simp [runOptionsOf, limitOf, valueOf?_append_of_ne, valueOf?_append_fresh hnew, hr,
            valuesOf, Written.valueOf]
      -- it may be given again, and the names stand in their order
      | denyTool =>
          have hswitch : runSwitch .denyTool = valueOption (fun _ => false) (keepIf validText)
            fun options value =>
              { options with deniedTools := options.deniedTools ++ [value] } := rfl
          refine records_reading hswitch hformed ?_ keepIf_isSome (fun r hr _ => ?_) s'
          · exact iff_of_false Bool.false_ne_true fun h => h.1 rfl
          · rw [keepIf] at hr
            split at hr
            · cases hr
              simp [runOptionsOf, limitOf, valueOf?_append_of_ne, valuesOf, Written.valueOf]
            · cases hr

/-- A command line: options, the separator and a command. -/
structure IsRunLine (arguments : List Bytes) (options : List (Written RunOption Bytes))
    (command : List Bytes) : Prop where
  words : arguments =
    options.flatMap (Written.words RunOption.word) ++ separator :: command
  command : command ≠ []
  formed : RunOptionsFormed options
  audit : .flag .auditStderr ∈ options → ∀ path, .valued .auditFile path ∉ options

/-- An audit file is named exactly if there is an option for it. -/
theorem auditFilePath_ne_nil {options : List (Written RunOption Bytes)}
    (hformed : RunOptionsFormed options) :
    (runOptionsOf options).auditFilePath ≠ [] ↔ ∃ path, .valued .auditFile path ∈ options := by
  have hvalue := @given_iff_value options hformed RunOption.auditFile nofun
  have hpath := @given_iff_path options hformed RunOption.auditFile nofun (by
    rintro _ htakes rfl
    exact absurd htakes Bool.false_ne_true)
  rw [← valueOf?_isSome, ← hvalue, hpath, Bool.not_eq_true', List.isEmpty_eq_false_iff]
  exact Iff.rfl

/-- The loop and the checks behind it accept the command lines, and no other words. -/
theorem readRunArguments_ok_iff {arguments : List Bytes} {locals : RunOptions}
    {command : List Bytes} :
    readRunArguments arguments = .ok (locals, command) ↔
      ∃ options, IsRunLine arguments options command ∧ locals = runOptionsOf options := by
  have hread := fun (s : RunOptions) rest =>
    @readOptions_view_iff _ _ _ _ _ _ _ _ _ _ _ runOption_spelling runOptions_records s
      arguments rest
  have haudit : ∀ {options}, RunOptionsFormed options →
      (¬ ((runOptionsOf options).auditStderr = true ∧ (runOptionsOf options).auditFilePath ≠ []) ↔
        (.flag .auditStderr ∈ options → ∀ path, .valued .auditFile path ∉ options)) := by
    intro options hformed
    rw [auditFilePath_ne_nil hformed]
    show ¬ (decide _ = true ∧ _) ↔ _
    rw [decide_eq_true_iff]
    push Not
    exact Iff.rfl
  constructor
  · intro h
    obtain ⟨⟨found, rest⟩, hfound, hrest⟩ := except_bind_ok.mp h
    obtain ⟨options, hwords, hstop, hformed, rfl⟩ := (hread found rest).mp hfound
    rcases rest with _ | ⟨stop, _ | ⟨executable, others⟩⟩
    · cases hrest
    · cases hrest
    · dsimp only at hrest
      split at hrest
      · cases hrest
      · rename_i hboth
        cases hrest
        obtain rfl : stop = separator := eq_of_beq (hstop stop rfl)
        exact ⟨options, ⟨hwords, List.cons_ne_nil _ _, hformed, (haudit hformed).mp hboth⟩, rfl⟩
  · rintro ⟨options, hline, rfl⟩
    have hfound := (hread _ (separator :: command)).mpr
      ⟨options, hline.words, fun w hw => Option.some.inj hw ▸ rfl, hline.formed, rfl⟩
    obtain ⟨executable, others, rfl⟩ := List.exists_cons_of_ne_nil hline.command
    refine except_bind_ok.mpr ⟨_, hfound, ?_⟩
    dsimp only
    rw [if_neg ((haudit hline.formed).mpr hline.audit)]

/-! ## §4  The order of the options -/

/-- In another order the options leave the same locals, with the denied tools in another
order. -/
theorem runOptionsOf_perm {options options' : List (Written RunOption Bytes)}
    (hformed : RunOptionsFormed options) (hperm : options.Perm options') :
    (valuesOf .denyTool options).Perm (valuesOf .denyTool options') ∧
      runOptionsOf options' =
        { runOptionsOf options with deniedTools := valuesOf .denyTool options' } := by
  refine ⟨hperm.filterMap _, ?_⟩
  have hvalue : ∀ name : RunOption, name ≠ .denyTool →
      valueOf? name options' = valueOf? name options :=
    fun name hname => hformed.valueOf?_perm hname hperm
  have hflag : (.flag .auditStderr ∈ options') = (.flag .auditStderr ∈ options) :=
    propext hperm.mem_iff.symm
  unfold runOptionsOf limitOf
  simp only [hvalue .policy nofun, hvalue .auditFile nofun, hvalue .straceFile nofun,
    hvalue .serverLabel nofun, hvalue .maxMessageBytes nofun, hvalue .maxNestingDepth nofun,
    hvalue .maxPendingToolsList nofun, hflag]

/-- The options of a command line in another order are a command line too. -/
theorem IsRunLine.perm {arguments : List Bytes} {options options' : List (Written RunOption Bytes)}
    {command : List Bytes} (h : IsRunLine arguments options command)
    (hperm : options.Perm options') :
    IsRunLine (options'.flatMap (Written.words RunOption.word) ++ separator :: command)
      options' command where
  words := rfl
  command := h.command
  formed := h.formed.perm hperm
  audit := fun hflag path hpath =>
    h.audit (hperm.mem_iff.mpr hflag) path (hperm.mem_iff.mpr hpath)

end NativeGuard.Process

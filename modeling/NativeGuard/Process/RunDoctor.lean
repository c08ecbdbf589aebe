import NativeGuard.Process.Doctor
import NativeGuard.Process.RunChild
import NativeGuard.Process.RunInspect

/-!
# `run_doctor` (`src/doctor.cpp`)

`doctor` starts the guard with the words that are left of its own command line, speaks to
the server through it, and looks for the tools that it has seen denied. Where its options
stand between those of `run`, these are the tools that the guard denies
(`doctor_line_guarded`). Whatever comes back, it calls no tool, and its verdict is on the
first answers that it reads (`doctor_verdict`).
-/

namespace NativeGuard.Process

open Json Json.Scan Data Io Protocol Protocol.ToolCallFilter Security

/-! ## §1  The command line -/

/-- All of them print the same line. -/
inductive DoctorRefusal where
  | arguments
deriving DecidableEq, Repr

/-- The locals of `run_doctor` that its first loop sets; `runArguments` without the name of
the program and `run`. -/
structure DoctorOptions where
  timeoutSeconds : Nat := 5
  deniedTools : List Bytes := []
  runArguments : List Bytes := []
  separator : Bool := false

/-- The loop. The word behind `--deny-tool` is seen twice: here, and as a word of its own. -/
def readDoctor : DoctorOptions → List Bytes → Except DoctorRefusal DoctorOptions
  | options, [] => .ok options
  | options, argument :: words =>
      if options.separator = false ∧ argument = ascii "--doctor-timeout" then
        match words with
        | [] => .error .arguments
        | value :: words =>
            match parseTimeout value with
            | none => .error .arguments
            | some seconds => readDoctor { options with timeoutSeconds := seconds } words
      else
        readDoctor { options with
          deniedTools :=
            if options.separator = false ∧ argument = ascii "--deny-tool" then
              options.deniedTools ++ words.head?.toList
            else options.deniedTools
          runArguments := options.runArguments ++ [argument]
          separator := options.separator || isSeparator argument } words

/-- The loop, and the check behind it: a command whose last word is the separator is
refused as well. -/
def readDoctorArguments (arguments : List Bytes) : Except DoctorRefusal DoctorOptions := do
  let options ← readDoctor {} arguments
  if options.separator = true ∧ options.runArguments.getLast? ≠ some separator then .ok options
  else .error .arguments

/-- An option of `doctor` or one of `run`. -/
inductive DoctorItem where
  | timeout (value : Bytes)
  | run (option : Written RunOption Bytes)
deriving DecidableEq, Repr

namespace DoctorItem

def words : DoctorItem → List Bytes
  | .timeout value => [ascii "--doctor-timeout", value]
  | .run option => option.words RunOption.word

def runOption : DoctorItem → Option (Written RunOption Bytes)
  | .timeout _ => none
  | .run option => some option

/-- The timeout behind the item. -/
def timeoutFrom (seconds : Nat) : DoctorItem → Nat
  | .timeout value => (parseTimeout value).getD seconds
  | .run _ => seconds

end DoctorItem

/-- The words of a valid command line of `doctor`: options in any order in front of a
command. Each timeout is from 1 to 300, no option of `run` has a value that `doctor` would
take for an option, and the last word is not the separator, which `doctor` refuses. -/
structure IsDoctorLine (arguments : List Bytes) (items : List DoctorItem)
    (command : List Bytes) : Prop where
  words : arguments = items.flatMap DoctorItem.words ++ separator :: command
  timeouts : ∀ value, .timeout value ∈ items → (parseTimeout value).isSome = true
  plain : ∀ name value, .run (.valued name value) ∈ items →
    value ≠ ascii "--doctor-timeout" ∧ value ≠ ascii "--deny-tool" ∧ value ≠ separator
  run : IsRunLine ((items.filterMap DoctorItem.runOption).flatMap
    (Written.words RunOption.word) ++ separator :: command)
      (items.filterMap DoctorItem.runOption) command
  last : command.getLast? ≠ some separator

section arguments

variable {options : DoctorOptions}

theorem readDoctor_word {argument : Bytes}
    (h : ¬ (options.separator = false ∧ argument = ascii "--doctor-timeout")) (words : List Bytes) :
    readDoctor options (argument :: words) =
      readDoctor { options with
        deniedTools :=
          if options.separator = false ∧ argument = ascii "--deny-tool" then
            options.deniedTools ++ words.head?.toList
          else options.deniedTools
        runArguments := options.runArguments ++ [argument]
        separator := options.separator || isSeparator argument } words := by
  rw [readDoctor.eq_def]
  exact if_neg h

/-- A word that is none of the three goes to the guard. -/
theorem readDoctor_plain {argument : Bytes} (htimeout : argument ≠ ascii "--doctor-timeout")
    (hdeny : argument ≠ ascii "--deny-tool") (hstop : argument ≠ separator) (words : List Bytes) :
    readDoctor options (argument :: words) =
      readDoctor { options with runArguments := options.runArguments ++ [argument] } words := by
  have hseparator : isSeparator argument = false := beq_eq_false_iff_ne.mpr hstop
  rw [readDoctor_word fun h => htimeout h.2, if_neg fun h => hdeny h.2, hseparator,
    Bool.or_false]

/-- The words of one option. -/
theorem readDoctor_item {item : DoctorItem} (hopen : options.separator = false)
    (htimeout : ∀ value, item = .timeout value → (parseTimeout value).isSome = true)
    (hplain : ∀ name value, item = .run (.valued name value) →
      value ≠ ascii "--doctor-timeout" ∧ value ≠ ascii "--deny-tool" ∧ value ≠ separator)
    (hvalid : ∀ option, item = .run option → ValidRunOption option) (words : List Bytes) :
    readDoctor options (item.words ++ words) =
      readDoctor { options with
        timeoutSeconds := item.timeoutFrom options.timeoutSeconds
        deniedTools := options.deniedTools ++ valuesOf .denyTool item.runOption.toList
        runArguments := options.runArguments ++
          item.runOption.toList.flatMap (Written.words RunOption.word) } words := by
  cases item with
  | timeout value =>
      obtain ⟨seconds, hseconds⟩ := Option.isSome_iff_exists.mp (htimeout value rfl)
      show readDoctor options (ascii "--doctor-timeout" :: value :: words) = _
      rw [readDoctor.eq_def]
      dsimp only
      rw [if_pos ⟨hopen, rfl⟩, hseconds]
      simp [DoctorItem.timeoutFrom, DoctorItem.runOption, hseconds, valuesOf]
  | run option =>
      cases option with
      | flag name =>
          obtain rfl : name = .auditStderr := hvalid _ rfl
          show readDoctor options (ascii "--audit-stderr" :: words) = _
          have hnone : valuesOf RunOption.denyTool
            [(.flag .auditStderr : Written RunOption Bytes)] = [] := rfl
          rw [readDoctor_plain (by decide) (by decide) (by decide)]
          simp [DoctorItem.timeoutFrom, DoctorItem.runOption, hnone, Written.words, RunOption.word]
      | valued name value =>
          obtain ⟨hvalue, hvalue', hvalue''⟩ := hplain name value rfl
          show readDoctor options (name.word :: value :: words) = _
          by_cases hname : name = .denyTool
          · -- the word behind it is looked at here, and passed on in its turn
            subst hname
            have hword : readDoctor options (RunOption.denyTool.word :: value :: words) =
                readDoctor { options with
                  deniedTools := options.deniedTools ++ [value]
                  runArguments := options.runArguments ++ [RunOption.denyTool.word]
                  separator := options.separator || isSeparator RunOption.denyTool.word }
                    (value :: words) := by
              rw [readDoctor_word fun h => absurd h.2 (by decide), if_pos ⟨hopen, rfl⟩]
              rfl
            have hseparator : isSeparator RunOption.denyTool.word = false := rfl
            rw [hword, hseparator, Bool.or_false, readDoctor_plain hvalue hvalue' hvalue'']
            simp [DoctorItem.timeoutFrom, DoctorItem.runOption, valuesOf, Written.valueOf,
              Written.words]
          · have hword : name.word ≠ ascii "--doctor-timeout" ∧ name.word ≠ ascii "--deny-tool" ∧
                name.word ≠ separator := by
              cases name <;> first | exact absurd rfl hname | decide
            rw [readDoctor_plain hword.1 hword.2.1 hword.2.2,
              readDoctor_plain hvalue hvalue' hvalue'']
            simp [DoctorItem.timeoutFrom, DoctorItem.runOption, valuesOf, Written.valueOf,
              Written.words, hname]

/-- The words of the options, one after the other. -/
theorem readDoctor_items {items : List DoctorItem} (hopen : options.separator = false)
    (htimeouts : ∀ value, .timeout value ∈ items → (parseTimeout value).isSome = true)
    (hplain : ∀ name value, .run (.valued name value) ∈ items →
      value ≠ ascii "--doctor-timeout" ∧ value ≠ ascii "--deny-tool" ∧ value ≠ separator)
    (hvalid : ∀ option, .run option ∈ items → ValidRunOption option) (words : List Bytes) :
    readDoctor options (items.flatMap DoctorItem.words ++ words) =
      readDoctor { options with
        timeoutSeconds := items.foldl DoctorItem.timeoutFrom options.timeoutSeconds
        deniedTools := options.deniedTools ++
          valuesOf .denyTool (items.filterMap DoctorItem.runOption)
        runArguments := options.runArguments ++ (items.filterMap DoctorItem.runOption).flatMap
          (Written.words RunOption.word) } words := by
  induction items generalizing options with
  | nil => simp [valuesOf]
  | cons item items ih =>
      rw [List.flatMap_cons, List.append_assoc]
      refine (readDoctor_item hopen (fun value h => htimeouts value (h ▸ List.mem_cons_self))
        (fun name value h => hplain name value (h ▸ List.mem_cons_self))
        (fun option h => hvalid option (h ▸ List.mem_cons_self)) _).trans ((ih ?_
          (fun value h => htimeouts value (List.mem_cons_of_mem _ h))
          (fun name value h => hplain name value (List.mem_cons_of_mem _ h))
          (fun option h => hvalid option (List.mem_cons_of_mem _ h))).trans ?_)
      · exact hopen
      have hcut : (item :: items).filterMap DoctorItem.runOption =
          item.runOption.toList ++ items.filterMap DoctorItem.runOption := by
        rw [List.filterMap_cons]
        cases item.runOption <;> rfl
      rw [hcut, valuesOf_append, List.flatMap_append, List.foldl_cons]
      simp only [List.append_assoc]

/-- Behind the separator every word goes to the guard. -/
theorem readDoctor_command (hseparator : options.separator = true) (words : List Bytes) :
    readDoctor options words =
      .ok { options with runArguments := options.runArguments ++ words } := by
  induction words generalizing options with
  | nil => simp [readDoctor]
  | cons word words ih =>
      rw [readDoctor_word fun h => Bool.false_ne_true (h.1.symm.trans hseparator),
        if_neg fun h => Bool.false_ne_true (h.1.symm.trans hseparator), hseparator,
        Bool.true_or, ih rfl]
      simp

end arguments

/-- What `doctor` makes of its command line: the last timeout, the values of the
`--deny-tool` options, and the words of a command line of `run`. -/
theorem readDoctorArguments_of_line {arguments : List Bytes} {items : List DoctorItem}
    {command : List Bytes} (hline : IsDoctorLine arguments items command) :
    readDoctorArguments arguments = .ok {
      timeoutSeconds := items.foldl DoctorItem.timeoutFrom 5
      deniedTools := valuesOf .denyTool (items.filterMap DoctorItem.runOption)
      runArguments := (items.filterMap DoctorItem.runOption).flatMap
        (Written.words RunOption.word) ++ separator :: command
      separator := true } := by
  have hvalid : ∀ option, .run option ∈ items → ValidRunOption option := fun option hmem =>
    hline.run.formed.valid option (List.mem_filterMap.mpr ⟨_, hmem, rfl⟩)
  have hread : readDoctor {} arguments = .ok {
      timeoutSeconds := items.foldl DoctorItem.timeoutFrom 5
      deniedTools := valuesOf .denyTool (items.filterMap DoctorItem.runOption)
      runArguments := (items.filterMap DoctorItem.runOption).flatMap
        (Written.words RunOption.word) ++ separator :: command
      separator := true } := by
    rw [hline.words, readDoctor_items rfl hline.timeouts hline.plain hvalid,
      readDoctor_word fun h => absurd h.2 (by decide), if_neg fun h => absurd h.2 (by decide),
      readDoctor_command rfl]
    simp
    rfl
  refine except_bind_ok.mpr ⟨_, hread, if_pos ⟨rfl, ?_⟩⟩
  -- the last word is that of the command, and it is no separator
  obtain ⟨executable, others, hcommand⟩ := List.exists_cons_of_ne_nil hline.run.command
  have hlast := hline.last
  rw [hcommand] at hlast ⊢
  rw [List.getLast?_append_of_ne_nil _ (List.cons_ne_nil _ _), List.getLast?_cons_cons]
  exact hlast

/-! ## §2  `receive_response` -/

def maxDoctorMessageBytes : Nat := 1024 * 1024

instance (expectedId line : Bytes) : Decidable (Doctor.isExpected expectedId line) :=
  inferInstanceAs (Decidable (_ ∧ _ ∧ _))

/-- The line that is handed back, and the turns behind it. What a read brings behind that
line is dropped. -/
def receiveResponse (expectedId : Bytes) : Bytes → List Turn → Option Bytes × List Turn
  | _, [] => (none, [])
  | _, .exited :: turns => (none, turns)
  | _, .failed :: turns => (none, turns)
  | pendingBytes, .idle :: turns => receiveResponse expectedId pendingBytes turns
  | pendingBytes, .data bytes :: turns =>
      let read := pendingBytes ++ bytes
      if read.length > maxDoctorMessageBytes then (none, turns)
      else
        match (linesOf newline read).find? fun line => Doctor.isExpected expectedId line with
        | some line => (some line, turns)
        | none => receiveResponse expectedId (restOf newline read) turns

/-- What is handed back is the first line, of all that the call has read, that it expects. -/
theorem receiveResponse_some {expectedId pending line : Bytes} {turns rest : List Turn}
    (hopen : newline ∉ pending)
    (h : receiveResponse expectedId pending turns = (some line, rest)) :
    ∃ read, turns = read ++ rest ∧
      (linesOf newline (pending ++ read.flatMap Inspect.bytesOf)).find?
        (fun line => Doctor.isExpected expectedId line) = some line := by
  induction turns generalizing pending with
  | nil => cases h
  | cons turn turns ih =>
      cases turn with
      | exited => cases h
      | failed => cases h
      | idle =>
          obtain ⟨read, rfl, hline⟩ := ih hopen h
          exact ⟨.idle :: read, rfl, hline⟩
      | data bytes =>
          rw [receiveResponse] at h
          split at h
          · cases h
          split at h
          · rename_i hfound
            cases h
            refine ⟨[.data bytes], rfl, ?_⟩
            rw [List.flatMap_singleton]
            exact hfound
          · -- no line up to here is expected, so what follows starts at the open line
            rename_i hnone
            obtain ⟨read, rfl, hline⟩ := ih (not_mem_restOf _) h
            refine ⟨.data bytes :: read, rfl, ?_⟩
            show (linesOf newline (pending ++ (bytes ++ read.flatMap Inspect.bytesOf))).find? _ = _
            rw [← List.append_assoc, linesOf_append, List.find?_append, hnone, hline]
            rfl

/-! ## §3  The session -/

def doctorInitIdJson : Bytes := ascii "\"doctor-init\""

def doctorInitializeRequest : Bytes :=
  ascii ("\x7b\"jsonrpc\":\"2.0\",\"id\":\"doctor-init\",\"method\":\"initialize\",\"params\":" ++
    "\x7b\"protocolVersion\":\"2025-06-18\",\"capabilities\":\x7b\x7d,\"clientInfo\":" ++
      "\x7b\"name\":\"mcp-native-guard-doctor\",\"version\":\"0.1.0\"\x7d\x7d\x7d")

def doctorListRequest : Bytes :=
  ascii ("\x7b\"jsonrpc\":\"2.0\",\"id\":\"doctor-list\",\"method\":\"tools/list\"," ++
    "\"params\":\x7b\x7d\x7d")

/-- What `doctor` has to say, in its order. -/
def doctorMessages : List Bytes :=
  [doctorInitializeRequest, initializedNotification, doctorListRequest]

/-- What has been sent, the checks that have been passed, and the stage that failed. -/
structure Diagnosis where
  sent : Bytes
  passed : List String := []
  failed : Option String := none
deriving DecidableEq

def launchedChecks : List String :=
  ["CLI arguments", "policy loaded and effective table built",
    "effective policy fingerprint computed", "audit destination writable",
    "downstream process started", "initialize"]

def listedChecks : List String :=
  ["tools/list", "tools/list returned tools array", "denied tools hidden by guard policy"]

/-- What is written to `stdout`. -/
def Diagnosis.stdout (diagnosis : Diagnosis) : Bytes :=
  diagnosis.passed.flatMap (fun check => ascii ("PASS " ++ check ++ "\n")) ++
    match diagnosis.failed with
    | none => ascii "doctor result: healthy\n"
    | some stage => ascii ("FAIL " ++ stage ++ "\ndoctor result: unhealthy\n")

def Diagnosis.exitCode (diagnosis : Diagnosis) : Nat :=
  if diagnosis.failed = none then 0 else 1

variable (denied : List Bytes) (cleanShutdown : Bool)

/-- From the second response on; the child is to end with a status of zero in time. -/
def diagnoseList (sent : Bytes) (turns : List Turn) : Diagnosis :=
  let passed := launchedChecks ++ ["notifications/initialized"]
  match (receiveResponse Doctor.listIdJson [] turns).1 with
  | none => ⟨sent, passed, some "tools/list"⟩
  | some response =>
      match Doctor.checkToolsList response denied with
      | .error stage => ⟨sent, passed, some stage⟩
      | .ok () =>
          if cleanShutdown = true then
            ⟨sent, passed ++ listedChecks ++ ["clean shutdown"], none⟩
          else ⟨sent, passed ++ listedChecks, some "clean shutdown"⟩

/-- From the start of the guard on. Nothing while a write has not come back. -/
def doctorSession (answers : List WriteAnswer) (turns : List Turn) : Option Diagnosis := do
  let (done, sent, answers) ← writeAll answers (doctorInitializeRequest ++ [newline])
  if done = false then some ⟨sent, [], some "initialize"⟩
  else
    match receiveResponse doctorInitIdJson [] turns with
    | (none, _) => some ⟨sent, [], some "initialize"⟩
    | (some response, turns) =>
        if ascii "\"result\":" <:+: response then do
          let (done, asked) ← writeBoth answers (initializedNotification ++ [newline])
            (doctorListRequest ++ [newline])
          if done = false then
            some ⟨sent ++ asked, launchedChecks, some "notifications/initialized"⟩
          else some (diagnoseList denied cleanShutdown (sent ++ asked) turns)
        else some ⟨sent, [], some "initialize"⟩

/-! ## §4  What a session can be -/

variable {denied cleanShutdown}

/-- The texts of the messages, each with its newline. -/
def doctorText : Bytes := doctorMessages.flatMap (· ++ [newline])

/-- What follows the first message. -/
def doctorAskText : Bytes :=
  initializedNotification ++ [newline] ++ (doctorListRequest ++ [newline])

theorem doctorText_eq : doctorText = doctorInitializeRequest ++ [newline] ++ doctorAskText := by
  unfold doctorText doctorMessages doctorAskText
  simp

theorem diagnoseList_healthy {sent : Bytes} {turns : List Turn} :
    (diagnoseList denied cleanShutdown sent turns).failed = none ↔ cleanShutdown = true ∧
      ∃ response, (receiveResponse Doctor.listIdJson [] turns).1 = some response ∧
        Doctor.checkToolsList response denied = .ok () := by
  unfold diagnoseList
  dsimp only
  constructor
  · intro h
    split at h
    · cases h
    rename_i response hresponse
    split at h
    · cases h
    rename_i hcheck
    split at h
    · rename_i hclean
      exact ⟨hclean, response, hresponse, hcheck⟩
    · cases h
  · rintro ⟨rfl, response, hresponse, hcheck⟩
    rw [hresponse]
    dsimp only
    rw [hcheck]
    rfl

theorem diagnoseList_sent {sent : Bytes} {turns : List Turn} :
    (diagnoseList denied cleanShutdown sent turns).sent = sent := by
  unfold diagnoseList
  dsimp only
  split
  · rfl
  split
  · rfl
  split <;> rfl

/-- The session fails before the answer to `initialize`, or goes on to the list. -/
theorem doctorSession_cases {answers : List WriteAnswer} {turns : List Turn}
    {diagnosis : Diagnosis}
    (h : doctorSession denied cleanShutdown answers turns = some diagnosis) :
    (diagnosis.sent <+: doctorInitializeRequest ++ [newline] ∧ diagnosis.failed ≠ none) ∨
      ∃ response rest asked, receiveResponse doctorInitIdJson [] turns = (some response, rest) ∧
        ascii "\"result\":" <:+: response ∧
          diagnosis.sent = doctorInitializeRequest ++ [newline] ++ asked ∧
            asked <+: doctorAskText ∧ (asked ≠ doctorAskText ∧ diagnosis.failed ≠ none ∨
              asked = doctorAskText ∧
                diagnosis = diagnoseList denied cleanShutdown diagnosis.sent rest) := by
  unfold doctorSession at h
  -- the text stays folded: no step below looks into it
  generalize doctorInitializeRequest ++ [newline] = opening at h ⊢
  obtain ⟨⟨done, first, left⟩, hfirst, hrest⟩ := Option.bind_eq_some_iff.mp h
  clear h
  obtain ⟨hbegins, hdone⟩ := writeAll_written hfirst
  -- a message that is cut short, an answer that does not come, an answer without a result
  dsimp only at hrest
  split at hrest
  · cases hrest
    exact Or.inl ⟨hbegins, nofun⟩
  rename_i hwhole
  obtain rfl : first = opening := hdone.mp (Bool.not_eq_false _ ▸ hwhole)
  split at hrest
  · cases hrest
    exact Or.inl ⟨List.prefix_rfl, nofun⟩
  rename_i response rest hresponse
  split at hrest
  · rename_i hresult
    obtain ⟨⟨done', asked⟩, hasked, hlist⟩ := Option.bind_eq_some_iff.mp hrest
    obtain ⟨hbegins', hdone'⟩ := writeBoth_written hasked
    refine Or.inr ⟨response, rest, asked, hresponse, hresult, ?_, hbegins', ?_⟩
    · dsimp only at hlist
      split at hlist
      · cases hlist
        rfl
      · rw [← Option.some.inj hlist, diagnoseList_sent]
    · dsimp only at hlist
      split at hlist
      · rename_i hbroken
        cases hlist
        refine Or.inl ⟨fun heq => ?_, nofun⟩
        rw [hbroken] at hdone'
        exact Bool.false_ne_true (hdone'.mpr heq)
      · rename_i hboth
        refine Or.inr ⟨hdone'.mp (Bool.not_eq_false _ ▸ hboth), ?_⟩
        rw [← Option.some.inj hlist, diagnoseList_sent]
  · cases hrest
    exact Or.inl ⟨List.prefix_rfl, nofun⟩

theorem doctorSession_begins {answers : List WriteAnswer} {turns : List Turn}
    {diagnosis : Diagnosis}
    (h : doctorSession denied cleanShutdown answers turns = some diagnosis) :
    diagnosis.sent <+: doctorText := by
  rw [doctorText_eq]
  rcases doctorSession_cases h with ⟨hbegins, -⟩ | ⟨_, _, asked, -, -, hsent, hasked, -⟩
  · exact hbegins.trans (List.prefix_append _ _)
  · rw [hsent]
    exact (List.prefix_append_right_inj _).mpr hasked

/-- The verdict is healthy exactly if all was sent, the first answers that are expected
pass the checks, and the child ended well. -/
theorem doctorSession_healthy {answers : List WriteAnswer} {turns : List Turn}
    {diagnosis : Diagnosis}
    (h : doctorSession denied cleanShutdown answers turns = some diagnosis) :
    diagnosis.failed = none ↔ diagnosis.sent = doctorText ∧ cleanShutdown = true ∧
      ∃ first rest second, receiveResponse doctorInitIdJson [] turns = (some first, rest) ∧
        ascii "\"result\":" <:+: first ∧
          (receiveResponse Doctor.listIdJson [] rest).1 = some second ∧
            Doctor.checkToolsList second denied = .ok () := by
  rcases doctorSession_cases h with ⟨hbegins, hfailed⟩ |
    ⟨response, rest, asked, hresponse, hresult, hsent, -, hcases⟩
  · refine iff_of_false hfailed fun hall => ?_
    have hle := hbegins.length_le
    rw [hall.1, doctorText_eq] at hle
    unfold doctorAskText at hle
    simp at hle
  rw [doctorText_eq]
  rcases hcases with ⟨hpart, hfailed⟩ | ⟨hwhole, hdiagnosis⟩
  · refine iff_of_false hfailed fun hall => hpart ?_
    exact List.append_cancel_left (hsent.symm.trans hall.1)
  rw [hdiagnosis, diagnoseList_sent, diagnoseList_healthy, hsent, hwhole, and_iff_right rfl]
  refine and_congr_right fun _ => ?_
  constructor
  · rintro ⟨second, hsecond, hcheck⟩
    exact ⟨response, rest, second, hresponse, hresult, hsecond, hcheck⟩
  · rintro ⟨first, rest', second, hfirst, -, hsecond, hcheck⟩
    cases hresponse.symm.trans hfirst
    exact ⟨second, hsecond, hcheck⟩

/-! ## §5  What the server hears, and the verdict -/

theorem doctorMessages_ask : ∀ message ∈ doctorMessages, AsksOnly message := by
  decide +kernel

/-- Whatever the guard and the server answer, `doctor` sends a beginning of three messages
that call no tool, the first of them alone until it has been answered. Its verdict is
healthy exactly if all was sent, the first answers that are expected pass its checks, and
the guard ended well. The list that it passes has, at some depth, a member that is spelled
as `"tools":[`, and none that is spelled as a denied name; where such keys stand nowhere
else, its result lists tools and none of them is denied. -/
theorem doctor_verdict {answers : List WriteAnswer} {turns : List Turn} {diagnosis : Diagnosis}
    (h : doctorSession denied cleanShutdown answers turns = some diagnosis) :
    diagnosis.sent <+: doctorText ∧
      (∀ text ∈ linesOf newline diagnosis.sent ++ [restOf newline diagnosis.sent],
        ∀ v, IsText text v → ∀ toolName, ¬ Calls v toolName) ∧
      (¬ diagnosis.sent <+: doctorInitializeRequest ++ [newline] →
        (receiveResponse doctorInitIdJson [] turns).1.isSome = true) ∧
      (diagnosis.failed = none ↔ diagnosis.sent = doctorText ∧ cleanShutdown = true ∧
        ∃ first rest second, receiveResponse doctorInitIdJson [] turns = (some first, rest) ∧
          ascii "\"result\":" <:+: first ∧
            (receiveResponse Doctor.listIdJson [] rest).1 = some second ∧
              Doctor.checkToolsList second denied = .ok ()) ∧
      (diagnosis.failed = none → ∃ before read rest second, turns = before ++ (read ++ rest) ∧
        (linesOf newline (read.flatMap Inspect.bytesOf)).find?
            (fun line => Doctor.isExpected Doctor.listIdJson line) = some second ∧
          ∀ v, IsText second v → Doctor.toolsNeedle.FoundIn v ∧
            (∀ name ∈ denied, ¬ (Doctor.nameNeedle name).FoundIn v) ∧
              (Doctor.InPlace v → Doctor.HidesDenied v denied)) := by
  have hall := doctorSession_begins h
  have hhealthy := doctorSession_healthy h
  refine ⟨hall, fun text htext v hv => not_calls_of_begins doctorMessages_ask hall htext hv,
    fun hmore => ?_, hhealthy, fun hnone => ?_⟩
  · rcases doctorSession_cases h with ⟨hbegins, -⟩ | ⟨response, rest, asked, hresponse, -⟩
    · exact absurd hbegins hmore
    · rw [hresponse]
      rfl
  · obtain ⟨-, -, first, rest, second, hfirst, -, hsecond, hcheck⟩ := hhealthy.mp hnone
    obtain ⟨before, rfl, -⟩ := receiveResponse_some List.not_mem_nil hfirst
    obtain ⟨read, hread, hfound⟩ := receiveResponse_some List.not_mem_nil
      (Prod.ext hsecond rfl :
        receiveResponse Doctor.listIdJson [] rest = (some second, _))
    refine ⟨before, read, _, second, congrArg (before ++ ·) hread, hfound, fun v hv => ?_⟩
    obtain ⟨htools, hnames⟩ := (Doctor.checkToolsList_found hv denied).mp hcheck
    exact ⟨htools, hnames, fun hplace => (hplace.right hv denied).mp hcheck⟩

/-- Two answers, the first of them behind a notification in one read. -/
def healthyTurns : List Turn :=
  [.data (ascii ("\x7b\"jsonrpc\":\"2.0\",\"method\":\"note\"\x7d\n" ++
      "\x7b\"jsonrpc\":\"2.0\",\"id\":\"doctor-init\",\"result\":\x7b\x7d\x7d\n")), .idle,
    .data (ascii ("\x7b\"jsonrpc\":\"2.0\",\"id\":\"doctor-list\",\"result\":" ++
      "\x7b\"tools\":[\x7b\"name\":\"y\"\x7d]\x7d\x7d\n"))]

theorem doctor_verdict_example : ∃ diagnosis,
    doctorSession [ascii "x"] true [.moved 4096, .moved 4096, .moved 4096] healthyTurns =
        some diagnosis ∧
      diagnosis.exitCode = 0 ∧ diagnosis.sent = doctorText := by
  have hrun : (doctorSession [ascii "x"] true [.moved 4096, .moved 4096, .moved 4096]
      healthyTurns).map Diagnosis.failed = some none := by decide +kernel
  obtain ⟨diagnosis, hsession, hnone⟩ := Option.map_eq_some_iff.mp hrun
  obtain ⟨-, -, -, hhealthy, -⟩ := doctor_verdict hsession
  exact ⟨diagnosis, hsession, if_pos hnone, (hhealthy.mp hnone).1⟩

/-- Where the options of `doctor` stand between those of `run`, the guard is started with
those of `run` alone: it denies exactly the tools that `doctor` looks for. And however
`doctor` and the relay go on, nothing that reaches the server is a call. -/
theorem doctor_line_guarded {arguments : List Bytes} {items : List DoctorItem}
    {command : List Bytes} (hline : IsDoctorLine arguments items command) :
    ∃ options, readDoctorArguments arguments = .ok options ∧
      options.timeoutSeconds = items.foldl DoctorItem.timeoutFrom 5 ∧
      (∀ n, n ∈ options.deniedTools ↔ .run (.valued .denyTool n) ∈ items) ∧
      IsRunLine options.runArguments (items.filterMap DoctorItem.runOption) command ∧
      ∀ version world launch, runChild version world options.runArguments = .ok launch →
        (∀ n ∈ options.deniedTools, launch.policy.decision n = ⟨.deny, .deny⟩) ∧
        ∀ cleanShutdown answers turns diagnosis,
          doctorSession options.deniedTools cleanShutdown answers turns = some diagnosis →
            ∀ relay relay' steps,
              Relay.start launch.runConfig (init launch.policy launch.config) = .ok relay →
                Relay.Reaches (some filterHandler) relay steps relay' →
                  relay'.client.read <+: diagnosis.sent →
                    ∀ text ∈ linesOf newline relay'.writtenToChild ++
                        [restOf newline relay'.writtenToChild],
                      ∀ v, IsText text v → ∀ toolName, ¬ Calls v toolName := by
  refine ⟨_, readDoctorArguments_of_line hline, rfl, fun n => ?_, hline.run,
    fun version world launch hlaunch => ⟨fun n hn => ?_, ?_⟩⟩
  · rw [mem_valuesOf, List.mem_filterMap]
    constructor
    · rintro ⟨item, hmem, hitem⟩
      cases item with
      | timeout value => cases hitem
      | run option =>
          cases hitem
          exact hmem
    · exact fun hmem => ⟨_, hmem, rfl⟩
  · obtain ⟨policyText, -, hassemble⟩ := launched_policy hline.run hlaunch
    obtain ⟨definition, hload, -⟩ := except_bind_ok.mp hassemble
    rw [assemble_decision (mapError_ok_iff.mp hload) (deniedTools_ne_nil hline.run) hassemble n,
      if_pos hn]
  · intro cleanShutdown answers turns diagnosis hsession relay relay' steps hstart hreaches hread
      text htext v hv toolName
    obtain ⟨hsublist, hbegins, -, -⟩ := hearsAllowed_of_reaches hstart hreaches
    have hlines : ∀ message ∈ relay'.outputs.inspected.filterMap Inspection.forwarded,
        message ∈ linesOf newline relay'.client.read :=
      fun message hmem => (List.takeWhile_sublist _).subset (hsublist.subset hmem)
    obtain ⟨message, hmessage, htext'⟩ := begins_of_text
      (fun message hmem => not_mem_of_mem_linesOf (hlines message hmem)) hbegins htext hv
    -- what the guard has forwarded is a message of `doctor`
    obtain ⟨hmessages, -⟩ := lines_of_prefix
      (fun message hmem => (doctorMessages_ask message hmem).1)
      (hread.trans (doctorSession_begins hsession))
    have hmember := hmessages.subset (hlines message hmessage)
    exact (doctorMessages_ask message hmember).not_calls htext' hv toolName

/-- `doctor --deny-tool x --doctor-timeout 7 -- s`. -/
theorem doctor_line_guarded_example : ∃ options,
    readDoctorArguments [ascii "--deny-tool", ascii "x", ascii "--doctor-timeout", ascii "7",
        ascii "--", ascii "s"] = .ok options ∧
      options.timeoutSeconds = 7 ∧ (∀ n, n ∈ options.deniedTools ↔ n = ascii "x") ∧
      ∀ version world launch, runChild version world options.runArguments = .ok launch →
        launch.policy.decision (ascii "x") = ⟨.deny, .deny⟩ := by
  have hline : IsDoctorLine [ascii "--deny-tool", ascii "x", ascii "--doctor-timeout", ascii "7",
      ascii "--", ascii "s"] [.run (.valued .denyTool (ascii "x")), .timeout (ascii "7")]
        [ascii "s"] := by
    refine ⟨rfl, fun value hmem => ?_, fun name value hmem => ?_, ⟨rfl, List.cons_ne_nil _ _,
      ⟨List.forall_mem_singleton.mpr rfl, List.pairwise_singleton _ _⟩, fun hflag => ?_⟩, ?_⟩
    · obtain rfl : value = ascii "7" := by simpa using hmem
      decide
    · obtain ⟨-, rfl⟩ : name = .denyTool ∧ value = ascii "x" := by simpa using hmem
      decide
    · cases List.mem_singleton.mp hflag
    · decide
  obtain ⟨options, hread, htimeout, hdenied, -, hguard⟩ := doctor_line_guarded hline
  have hnames : ∀ n, n ∈ options.deniedTools ↔ n = ascii "x" := by
    intro n
    rw [hdenied]
    simp
  refine ⟨options, hread, htimeout, hnames, fun version world launch hlaunch => ?_⟩
  exact (hguard version world launch hlaunch).1 _ ((hnames _).mpr rfl)

end NativeGuard.Process

import NativeGuard.Data.Options
import NativeGuard.Io.AtomicFileWriter
import NativeGuard.Process.Inspect
import NativeGuard.Process.RelaySafety

/-!
# The session of `inspect` (`src/inspect.cpp`)

`run_inspect` between the start of the server and the output: a request, its response, a
notification and a second request, and that response. Whatever the server does, the bytes
that reach it begin the three fixed messages, and so never are a call of a tool
(`inspect_only_asks`).
-/

namespace NativeGuard.Process

open Json Data Io Protocol Protocol.Inventory Security

/-! ## §1  `write_all` -/

/-- Whether all of it has been written, what has been, and the answers left. Nothing
while a write has not come back. -/
def writeAll : List WriteAnswer → Bytes → Option (Bool × Bytes × List WriteAnswer)
  | answers, [] => some (true, [], answers)
  | [], _ :: _ => none
  | .moved count :: answers, byte :: bytes =>
      if count > 0 then
        (writeAll answers ((byte :: bytes).drop count)).map fun written =>
          (written.1, (byte :: bytes).take count ++ written.2.1, written.2.2)
      else some (false, [], answers)
  | .interrupted :: answers, byte :: bytes => writeAll answers (byte :: bytes)
  | .failed :: answers, _ :: _ => some (false, [], answers)

/-- What has been written is a beginning, and all of it only if the loop says so. -/
theorem writeAll_written {answers left : List WriteAnswer} {bytes moved : Bytes} {done : Bool}
    (h : writeAll answers bytes = some (done, moved, left)) :
    moved <+: bytes ∧ (done = true ↔ moved = bytes) := by
  induction answers generalizing bytes moved with
  | nil =>
      cases bytes with
      | nil =>
          cases h
          exact ⟨List.prefix_rfl, iff_of_true rfl rfl⟩
      | cons byte bytes => cases h
  | cons answer answers ih =>
      cases bytes with
      | nil =>
          cases h
          exact ⟨List.prefix_rfl, iff_of_true rfl rfl⟩
      | cons byte bytes =>
          have hnone : (false, ([] : Bytes), answers) = (done, moved, left) →
              moved <+: byte :: bytes ∧ (done = true ↔ moved = byte :: bytes) := by
            rintro ⟨⟩
            exact ⟨List.nil_prefix, iff_of_false nofun nofun⟩
          cases answer with
          | moved count =>
              rw [writeAll] at h
              split at h
              · obtain ⟨⟨done', moved', left'⟩, hlater, heq⟩ := Option.map_eq_some_iff.mp h
                cases heq
                obtain ⟨hbegins, hdone⟩ := ih hlater
                have hcut := List.take_append_drop count (byte :: bytes)
                obtain ⟨rest, hrest⟩ := hbegins
                refine ⟨⟨rest, by rw [List.append_assoc, hrest, hcut]⟩, hdone.trans ⟨?_, ?_⟩⟩
                · rintro rfl
                  exact hcut
                · exact fun heq => List.append_cancel_left (heq.trans hcut.symm)
              · exact hnone (Option.some.inj h)
          | interrupted => exact ih h
          | failed => exact hnone (Option.some.inj h)

/-- Two messages, the second one if the first has been written. -/
def writeBoth (answers : List WriteAnswer) (first second : Bytes) : Option (Bool × Bytes) := do
  let (done, moved, answers) ← writeAll answers first
  if done = false then some (false, moved)
  else do
    let (done, moved', _) ← writeAll answers second
    some (done, moved ++ moved')

theorem writeBoth_written {answers : List WriteAnswer} {first second moved : Bytes} {done : Bool}
    (h : writeBoth answers first second = some (done, moved)) :
    moved <+: first ++ second ∧ (done = true ↔ moved = first ++ second) := by
  obtain ⟨⟨done', moved', left⟩, hfirst, hrest⟩ := Option.bind_eq_some_iff.mp h
  obtain ⟨hbegins, hdone⟩ := writeAll_written hfirst
  dsimp only at hrest
  split at hrest
  · rename_i hbroken
    cases hrest
    refine ⟨hbegins.trans (List.prefix_append _ _), iff_of_false nofun fun hall => ?_⟩
    -- a part of the first message is not both
    have hwhole : moved = first :=
      hbegins.eq_of_length_le (by rw [hall, List.length_append]; omega)
    rw [hbroken] at hdone
    exact Bool.false_ne_true (hdone.mpr hwhole)
  · rename_i hwhole
    rw [hdone.mp (Bool.not_eq_false _ ▸ hwhole)] at hrest
    obtain ⟨⟨done'', moved'', left'⟩, hsecond, heq⟩ := Option.bind_eq_some_iff.mp hrest
    obtain ⟨hbegins', hdone'⟩ := writeAll_written hsecond
    obtain ⟨rfl, rfl⟩ := Prod.mk.inj (Option.some.inj heq)
    exact ⟨(List.prefix_append_right_inj _).mpr hbegins',
      hdone'.trans (List.append_right_inj _).symm⟩

/-! ## §2  The session -/

def initializeRequest : Bytes :=
  ascii ("\x7b\"jsonrpc\":\"2.0\",\"id\":\"inspect-init\",\"method\":\"initialize\",\"params\":" ++
    "\x7b\"protocolVersion\":\"2025-06-18\",\"capabilities\":\x7b\x7d,\"clientInfo\":" ++
      "\x7b\"name\":\"mcp-native-guard-inspect\",\"version\":\"0.1.0\"\x7d\x7d\x7d")

def initializedNotification : Bytes :=
  ascii "\x7b\"jsonrpc\":\"2.0\",\"method\":\"notifications/initialized\",\"params\":\x7b\x7d\x7d"

def toolsListRequest : Bytes :=
  ascii ("\x7b\"jsonrpc\":\"2.0\",\"id\":\"inspect-list\",\"method\":\"tools/list\"," ++
    "\"params\":\x7b\x7d\x7d")

/-- What `inspect` has to say, in its order. -/
def inspectMessages : List Bytes := [initializeRequest, initializedNotification, toolsListRequest]

/-- Where the session fails. -/
inductive Stage where
  | initializeWrite
  | initializeReceive (status : ReceiveStatus)
  | initializeInvalid (error : InventoryError)
  | toolsListWrite
  | toolsListReceive (status : ReceiveStatus)
  | toolsListInvalid (error : InventoryError)
  | inventoryEmit
deriving DecidableEq, Repr

variable (limits : InventoryLimits) (downstream : Bytes)

/-- From the second response on: the inventory that is emitted. -/
def listInventory (turns : List Turn) : Except Stage Bytes :=
  let received := Inspect.receiveExpectedResponse limits toolsListIdJson turns
  match received.outcome.response with
  | none => .error (.toolsListReceive received.outcome.status)
  | some response =>
      match parseToolsListResponse limits response toolsListIdJson downstream with
      | .error e => .error (.toolsListInvalid e)
      | .ok inventory =>
          match emitInventoryJson inventory limits.maxMessageBytes with
          | none => .error .inventoryEmit
          | some text => .ok text

/-- From the notification on. -/
def askTools (answers : List WriteAnswer) (turns : List Turn) :
    Option (Bytes × Except Stage Bytes) := do
  let (done, asked) ← writeBoth answers (initializedNotification ++ [newline])
    (toolsListRequest ++ [newline])
  if done = false then some (asked, .error .toolsListWrite)
  else some (asked, listInventory limits downstream turns)

/-- What has been written to the server, and the inventory or where the session failed. -/
def inspectSession (answers : List WriteAnswer) (turns : List Turn) :
    Option (Bytes × Except Stage Bytes) := do
  let (done, sent, answers) ← writeAll answers (initializeRequest ++ [newline])
  if done = false then some (sent, .error .initializeWrite)
  else
    let received := Inspect.receiveExpectedResponse limits initializeIdJson turns
    match received.outcome.response with
    | none => some (sent, .error (.initializeReceive received.outcome.status))
    | some response =>
        match validateInitializeResponse limits response initializeIdJson with
        | .error e => some (sent, .error (.initializeInvalid e))
        | .ok () => do
            let (asked, result) ← askTools limits downstream answers received.rest
            some (sent ++ asked, result)

/-! ## §3  What a session can be -/

variable {limits downstream}

/-- The texts of the messages, each with its newline. -/
def inspectText : Bytes := inspectMessages.flatMap (· ++ [newline])

/-- What follows the first message. -/
def askText : Bytes := initializedNotification ++ [newline] ++ (toolsListRequest ++ [newline])

theorem inspectText_eq : inspectText = initializeRequest ++ [newline] ++ askText := by
  unfold inspectText inspectMessages askText
  simp

/-- Both messages are written and the response is read, or the writing breaks off. -/
theorem askTools_cases {answers : List WriteAnswer} {turns : List Turn} {asked : Bytes}
    {result : Except Stage Bytes}
    (h : askTools limits downstream answers turns = some (asked, result)) :
    asked <+: askText ∧
      (asked ≠ askText ∧ result = .error .toolsListWrite ∨
        asked = askText ∧ result = listInventory limits downstream turns) := by
  obtain ⟨⟨done, moved⟩, hmoved, hrest⟩ := Option.bind_eq_some_iff.mp h
  obtain ⟨hbegins, hdone⟩ := writeBoth_written hmoved
  dsimp only at hrest
  split at hrest
  · rename_i hbroken
    cases hrest
    refine ⟨hbegins, Or.inl ⟨fun heq => ?_, rfl⟩⟩
    rw [hbroken] at hdone
    exact Bool.false_ne_true (hdone.mpr heq)
  · rename_i hwhole
    cases hrest
    exact ⟨hbegins, Or.inr ⟨hdone.mp (Bool.not_eq_false _ ▸ hwhole), rfl⟩⟩

/-- The session fails before the server has answered `initialize`, or asks for the tools. -/
theorem inspectSession_cases {answers : List WriteAnswer} {turns : List Turn} {sent : Bytes}
    {result : Except Stage Bytes}
    (h : inspectSession limits downstream answers turns = some (sent, result)) :
    (sent <+: initializeRequest ++ [newline] ∧ ∃ stage, result = .error stage) ∨
      ∃ response asked,
        (Inspect.receiveExpectedResponse limits initializeIdJson turns).outcome.response =
            some response ∧
          validateInitializeResponse limits response initializeIdJson = .ok () ∧
            sent = initializeRequest ++ [newline] ++ asked ∧ asked <+: askText ∧
              (asked ≠ askText ∧ result = .error .toolsListWrite ∨
                asked = askText ∧ result = listInventory limits downstream
                  (Inspect.receiveExpectedResponse limits initializeIdJson turns).rest) := by
  unfold inspectSession at h
  -- the text stays folded: no step below looks into it
  generalize initializeRequest ++ [newline] = opening at h ⊢
  obtain ⟨⟨done, first, left⟩, hfirst, hrest⟩ := Option.bind_eq_some_iff.mp h
  clear h
  obtain ⟨hbegins, hdone⟩ := writeAll_written hfirst
  dsimp only at hrest
  split at hrest
  · cases hrest
    exact Or.inl ⟨hbegins, _, rfl⟩
  rename_i hwhole
  obtain rfl : first = opening := hdone.mp (Bool.not_eq_false _ ▸ hwhole)
  split at hrest
  · cases hrest
    exact Or.inl ⟨List.prefix_rfl, _, rfl⟩
  rename_i response hresponse
  split at hrest
  · cases hrest
    exact Or.inl ⟨List.prefix_rfl, _, rfl⟩
  rename_i hvalid
  obtain ⟨⟨asked, result'⟩, hasked, heq⟩ := Option.bind_eq_some_iff.mp hrest
  obtain ⟨hsent, rfl⟩ := Prod.mk.inj (Option.some.inj heq)
  obtain ⟨hbegin, hcases⟩ := askTools_cases hasked
  exact Or.inr ⟨response, asked, hresponse, hvalid, hsent.symm, hbegin, hcases⟩

theorem inspectSession_begins {answers : List WriteAnswer} {turns : List Turn} {sent : Bytes}
    {result : Except Stage Bytes}
    (h : inspectSession limits downstream answers turns = some (sent, result)) :
    sent <+: inspectText := by
  rw [inspectText_eq]
  rcases inspectSession_cases h with ⟨hbegins, -⟩ | ⟨_, asked, -, -, hsent, hasked, -⟩
  · exact hbegins.trans (List.prefix_append _ _)
  · rw [hsent]
    exact (List.prefix_append_right_inj _).mpr hasked

/-- A session that emits an inventory has sent all of its messages. -/
theorem inspectText_of_ok {answers : List WriteAnswer} {turns : List Turn} {sent text : Bytes}
    (h : inspectSession limits downstream answers turns = some (sent, .ok text)) :
    sent = inspectText := by
  rcases inspectSession_cases h with ⟨-, stage, hstage⟩ | ⟨_, asked, -, -, hsent, -, hcases⟩
  · cases hstage
  · rcases hcases with ⟨-, hbroken⟩ | ⟨hasked, -⟩
    · cases hbroken
    · rw [hsent, hasked, inspectText_eq]

/-! ## §4  What the server hears -/

/-- A guard that denies every tool lets the message through, so it is no call. -/
def AsksOnly (message : Bytes) : Prop :=
  newline ∉ message ∧
    ((ToolCallFilter.init (.ofDefaults ⟨.deny, .deny⟩) {}).inspect message).decision.action =
      .forward

instance (message : Bytes) : Decidable (AsksOnly message) := inferInstanceAs (Decidable (_ ∧ _))

/-- A beginning of such a message is no call either. -/
theorem AsksOnly.not_calls {message : Bytes} (h : AsksOnly message) {text : Bytes}
    (hbegins : text <+: message) {v : Value} (hv : IsText text v) (toolName : Bytes) :
    ¬ Calls v toolName := by
  intro hcalls
  have hallow := (ToolCallFilter.callsAllowed_of_forward h.2 hbegins hv).of_calls hcalls
  cases hallow

theorem not_calls_of_begins {messages : List Bytes}
    (hmessages : ∀ message ∈ messages, AsksOnly message) {sent : Bytes}
    (hbegins : sent <+: messages.flatMap (· ++ [newline])) {text : Bytes}
    (htext : text ∈ linesOf newline sent ++ [restOf newline sent]) {v : Value}
    (hv : IsText text v) (toolName : Bytes) : ¬ Calls v toolName := by
  obtain ⟨message, hmessage, hbegins⟩ :=
    begins_of_text (fun message hmem => (hmessages message hmem).1) hbegins htext hv
  exact (hmessages message hmessage).not_calls hbegins hv toolName

theorem inspectMessages_ask : ∀ message ∈ inspectMessages, AsksOnly message := by
  decide +kernel

/-- The inventory is emitted exactly if both calls of the discovery succeed. -/
theorem listInventory_ok_iff {turns : List Turn} {text : Bytes} :
    listInventory limits downstream turns = .ok text ↔
      ∃ response inventory,
        (Inspect.receiveExpectedResponse limits toolsListIdJson turns).outcome.response =
            some response ∧
          parseToolsListResponse limits response toolsListIdJson downstream = .ok inventory ∧
            emitInventoryJson inventory limits.maxMessageBytes = some text := by
  unfold listInventory
  dsimp only
  constructor
  · intro h
    split at h
    · cases h
    rename_i response hresponse
    split at h
    · cases h
    rename_i inventory hparse
    split at h
    · cases h
    rename_i text' hemit
    cases h
    exact ⟨response, inventory, hresponse, hparse, hemit⟩
  · rintro ⟨response, inventory, hresponse, hparse, hemit⟩
    rw [hresponse]
    dsimp only
    rw [hparse]
    dsimp only
    rw [hemit]

theorem listed_eq {turns : List Turn} {response : Bytes}
    (hresponse : (Inspect.receiveExpectedResponse limits initializeIdJson
      turns).outcome.response = some response)
    (hvalid : validateInitializeResponse limits response initializeIdJson = .ok ()) :
    (Inspect.discover limits turns).listed = some (Inspect.receiveExpectedResponse limits
      toolsListIdJson (Inspect.receiveExpectedResponse limits initializeIdJson
        turns).rest).outcome := by
  unfold Inspect.discover
  dsimp only
  rw [hresponse]
  dsimp only
  rw [if_pos hvalid]

/-- An inventory is emitted exactly if all was sent and the discovery ends with a list of
tools that is accepted. -/
theorem inspectSession_ok_iff {answers : List WriteAnswer} {turns : List Turn} {sent : Bytes}
    {result : Except Stage Bytes}
    (h : inspectSession limits downstream answers turns = some (sent, result)) {text : Bytes} :
    result = .ok text ↔ sent = inspectText ∧
      ∃ outcome response inventory, (Inspect.discover limits turns).listed = some outcome ∧
        outcome.response = some response ∧
          parseToolsListResponse limits response toolsListIdJson downstream = .ok inventory ∧
            emitInventoryJson inventory limits.maxMessageBytes = some text := by
  rcases inspectSession_cases h with ⟨hbegins, stage, rfl⟩ |
    ⟨response, asked, hresponse, hvalid, hsent, hasked, hcases⟩
  · -- the session has come to its end before the second message
    refine iff_of_false nofun ?_
    rintro ⟨hsent, -⟩
    have hle := hbegins.length_le
    rw [hsent, inspectText_eq] at hle
    unfold askText at hle
    simp at hle
  rw [inspectText_eq, hsent, List.append_right_inj]
  rcases hcases with ⟨hpart, rfl⟩ | ⟨rfl, rfl⟩
  · exact iff_of_false nofun fun hwhole => hpart hwhole.1
  rw [listInventory_ok_iff, listed_eq hresponse hvalid]
  constructor
  · rintro ⟨response', inventory, hresponse', hparse, hemit⟩
    exact ⟨rfl, _, response', inventory, rfl, hresponse', hparse, hemit⟩
  · rintro ⟨-, outcome, response', inventory, houtcome, hresponse', hparse, hemit⟩
    cases houtcome
    exact ⟨response', inventory, hresponse', hparse, hemit⟩

/-- Whatever the server answers, and whenever, it is sent a beginning of three messages
that call no tool, the first of them alone until it has answered. An inventory is emitted
exactly if all was sent and the discovery ends with a list of tools that is accepted. -/
theorem inspect_only_asks {answers : List WriteAnswer} {turns : List Turn} {sent : Bytes}
    {result : Except Stage Bytes}
    (h : inspectSession limits downstream answers turns = some (sent, result)) :
    sent <+: inspectText ∧
      (∀ text ∈ linesOf newline sent ++ [restOf newline sent], ∀ v, IsText text v →
        ∀ toolName, ¬ Calls v toolName) ∧
      (¬ sent <+: initializeRequest ++ [newline] →
        ((Inspect.discover limits turns).listed).isSome = true) ∧
      ∀ text, result = .ok text ↔ sent = inspectText ∧
        ∃ outcome response inventory, (Inspect.discover limits turns).listed = some outcome ∧
          outcome.response = some response ∧
            parseToolsListResponse limits response toolsListIdJson downstream = .ok inventory ∧
              emitInventoryJson inventory limits.maxMessageBytes = some text := by
  have hall := inspectSession_begins h
  refine ⟨hall, fun text htext v hv => not_calls_of_begins inspectMessages_ask hall htext hv,
    fun hmore => ?_, fun text => inspectSession_ok_iff h⟩
  rcases inspectSession_cases h with ⟨hbegins, -⟩ | ⟨response, asked, hresponse, hvalid, -⟩
  · exact absurd hbegins hmore
  · rw [listed_eq hresponse hvalid]
    rfl

/-- A server that answers both requests, the second one in two reads. -/
def oneToolTurns : List Turn :=
  [.data (ascii "\x7b\"jsonrpc\":\"2.0\",\"id\":\"inspect-init\",\"result\":\x7b\x7d\x7d\n"), .idle,
    .data (ascii "\x7b\"jsonrpc\":\"2.0\",\"id\":\"inspect-list\",\"result\":"),
    .data (ascii "\x7b\"tools\":[\x7b\"name\":\"t\"\x7d]\x7d\x7d\n")]

/-- The first message goes out in two writes. -/
def oneToolWrites : List WriteAnswer :=
  [.moved 100, .interrupted, .moved 4096, .moved 4096, .moved 4096]

theorem inspect_only_asks_example : ∃ text,
    inspectSession {} (ascii "s") oneToolWrites oneToolTurns = some (inspectText, .ok text) ∧
      ∀ line ∈ linesOf newline inspectText, ∀ v, IsText line v →
        ∀ toolName, ¬ Calls v toolName := by
  have hrun : (inspectSession {} (ascii "s") oneToolWrites oneToolTurns).map
      (fun session => session.2.toOption.isSome) = some true := by decide +kernel
  obtain ⟨⟨sent, result⟩, hsession, hemitted⟩ := Option.map_eq_some_iff.mp hrun
  obtain ⟨text, htext⟩ := Option.isSome_iff_exists.mp hemitted
  obtain rfl : result = .ok text := toOption_eq_some.mp htext
  obtain ⟨-, hcalls, -, hemits⟩ := inspect_only_asks hsession
  obtain ⟨hsent, -⟩ := (hemits text).mp rfl
  rw [hsent] at hsession hcalls
  exact ⟨text, hsession, fun line hline => hcalls line (List.mem_append_left _ hline)⟩

end NativeGuard.Process

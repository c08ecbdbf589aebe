import NativeGuard.Audit.AuditLines
import NativeGuard.Protocol.StringEscapers

/-!
# The session records (`src/audit_sink.cpp`)

What `record_session_start` and `record_session_end` write: a record is formatted
exactly if its text fits (`formatSessionStart_eq`, `formatSessionEnd_eq`), and the text
is one line and an object with the members of the session
(`sessionStartText_tree`, `sessionEndText_tree`).
-/

namespace NativeGuard.Audit

open Json Data Protocol

/-! ## §1  The texts -/

/-- What both records start with, up to the policy hash. -/
def sessionText (event : Bytes) (identity : SessionIdentity) (timestamp : Bytes) : Bytes :=
  ascii "\x7b\"ts\":\"" ++ (timestamp ++ (event ++ (jsonString identity.guardVersion ++
    (ascii ",\"server_label\":" ++ (jsonString identity.serverLabel ++
      (ascii ",\"downstream_executable\":" ++ (jsonString identity.downstreamExecutable ++
        (ascii ",\"policy_hash\":" ++ jsonString identity.policyHash))))))))

def sessionStartText (identity : SessionIdentity) (timestamp : Bytes) : Bytes :=
  sessionText (ascii "\",\"event\":\"session_start\",\"guard_version\":") identity timestamp ++
    (ascii ",\"runtime_limits\":\x7b\"max_message_bytes\":" ++
      (decimal identity.limits.maxMessageBytes ++ (ascii ",\"max_nesting_depth\":" ++
        (decimal identity.limits.maxNestingDepth ++ (ascii ",\"max_pending_tools_list\":" ++
          (decimal identity.limits.maxPendingToolsList ++ ascii "\x7d\x7d"))))))

def sessionEndText (identity : SessionIdentity) (sessionEnd : SessionEnd) (timestamp : Bytes) :
    Bytes :=
  sessionText (ascii "\",\"event\":\"session_end\",\"guard_version\":") identity timestamp ++
    (ascii ",\"child_exit_status\":" ++ (toChars sessionEnd.childExitStatus ++
      (ascii ",\"proxy_exit_status\":" ++ (toChars sessionEnd.proxyExitStatus ++
        (ascii ",\"termination_reason\":" ++ (jsonString sessionEnd.terminationReason ++
          (ascii ",\"duration_ms\":" ++ (decimal sessionEnd.durationMs ++
            if sessionEnd.cleanShutdown then ascii ",\"clean_shutdown\":true\x7d"
            else ascii ",\"clean_shutdown\":false\x7d"))))))))

/-- A text that fits, and what is appended to it. -/
theorem fits_bind {limit : Nat} {r : Option Bytes} {g : Bytes → Option Bytes}
    {text text' : Bytes} (hr : r = if text.length ≤ limit then some text else none)
    (hg : Appends limit g text') :
    (r >>= g) =
      if (text ++ text').length ≤ limit then some (text ++ text') else none := by
  rw [hr, List.length_append]
  by_cases h : text.length ≤ limit
  · rw [if_pos h]
    exact hg text h
  · rw [if_neg h, if_neg (by omega)]
    rfl

theorem appendSession_eq (event : Bytes) (identity : SessionIdentity) (timestamp : Bytes)
    (limit : Nat) :
    appendSession event identity (some timestamp) limit =
      if (sessionText event identity timestamp).length ≤ limit then
        some (sessionText event identity timestamp)
      else none := by
  have happends := (@appends_append limit (ascii "\x7b\"ts\":\"")).bind <|
    (appends_append timestamp).bind <|
    (appends_append event).bind <|
    (appends_appendJsonString identity.guardVersion).bind <|
    (appends_append (ascii ",\"server_label\":")).bind <|
    (appends_appendJsonString identity.serverLabel).bind <|
    (appends_append (ascii ",\"downstream_executable\":")).bind <|
    (appends_appendJsonString identity.downstreamExecutable).bind <|
    (appends_append (ascii ",\"policy_hash\":")).bind <|
    appends_appendJsonString identity.policyHash
  have hsession := happends [] (Nat.zero_le _)
  simp only [List.length_nil, Nat.zero_add, List.nil_append] at hsession
  exact hsession

theorem formatSessionStart_eq (identity : SessionIdentity) (timestamp : Bytes) (limit : Nat) :
    formatSessionStart identity (some timestamp) limit =
      if (sessionStartText identity timestamp).length ≤ limit then
        some (sessionStartText identity timestamp)
      else none :=
  fits_bind (appendSession_eq _ identity timestamp limit) <|
    (appends_append (ascii ",\"runtime_limits\":\x7b\"max_message_bytes\":")).bind <|
    (appends_append (decimal identity.limits.maxMessageBytes)).bind <|
    (appends_append (ascii ",\"max_nesting_depth\":")).bind <|
    (appends_append (decimal identity.limits.maxNestingDepth)).bind <|
    (appends_append (ascii ",\"max_pending_tools_list\":")).bind <|
    (appends_append (decimal identity.limits.maxPendingToolsList)).bind <|
    appends_append (ascii "\x7d\x7d")

theorem formatSessionEnd_eq (identity : SessionIdentity) (sessionEnd : SessionEnd)
    (timestamp : Bytes) (limit : Nat) :
    formatSessionEnd identity sessionEnd (some timestamp) limit =
      if (sessionEndText identity sessionEnd timestamp).length ≤ limit then
        some (sessionEndText identity sessionEnd timestamp)
      else none :=
  fits_bind (appendSession_eq _ identity timestamp limit) <|
    (appends_append (ascii ",\"child_exit_status\":")).bind <|
    (appends_append (toChars sessionEnd.childExitStatus)).bind <|
    (appends_append (ascii ",\"proxy_exit_status\":")).bind <|
    (appends_append (toChars sessionEnd.proxyExitStatus)).bind <|
    (appends_append (ascii ",\"termination_reason\":")).bind <|
    (appends_appendJsonString sessionEnd.terminationReason).bind <|
    (appends_append (ascii ",\"duration_ms\":")).bind <|
    (appends_append (decimal sessionEnd.durationMs)).bind <|
    appends_append (if sessionEnd.cleanShutdown then ascii ",\"clean_shutdown\":true\x7d"
      else ascii ",\"clean_shutdown\":false\x7d")

/-! ## §2  The trees -/

def textMember (key : Bytes) (hkey : key.all isPlainByte = true) (value : Bytes) :
    Member Value :=
  .compact (plainString key hkey) (.str (writtenString value))

def numberMember (key : Bytes) (hkey : key.all isPlainByte = true) (value : Int) :
    Member Value :=
  .compact (plainString key hkey) (.num (numberText value))

/-- The members that both records start with. -/
def sessionMembers (event : Bytes) (hevent : event.all isPlainByte = true)
    (identity : SessionIdentity) (timestamp : Bytes)
    (hplain : timestamp.all isPlainByte = true) : List (Member Value) :=
  [plainMember (ascii "ts") timestamp (.refl true) hplain,
    plainMember (ascii "event") event (.refl true) hevent,
    textMember (ascii "guard_version") (.refl true) identity.guardVersion,
    textMember (ascii "server_label") (.refl true) identity.serverLabel,
    textMember (ascii "downstream_executable") (.refl true) identity.downstreamExecutable,
    textMember (ascii "policy_hash") (.refl true) identity.policyHash]

def limitMembers (limits : RuntimeLimits) : List (Member Value) :=
  [numberMember (ascii "max_message_bytes") (.refl true) limits.maxMessageBytes,
    numberMember (ascii "max_nesting_depth") (.refl true) limits.maxNestingDepth,
    numberMember (ascii "max_pending_tools_list") (.refl true) limits.maxPendingToolsList]

def sessionStartMembers (identity : SessionIdentity) (timestamp : Bytes)
    (hplain : timestamp.all isPlainByte = true) : List (Member Value) :=
  sessionMembers (ascii "session_start") (.refl true) identity timestamp hplain ++
    [.compact (plainString (ascii "runtime_limits") (.refl true))
      (.obj noGap (limitMembers identity.limits))]

def endMembers (sessionEnd : SessionEnd) : List (Member Value) :=
  [numberMember (ascii "child_exit_status") (.refl true) sessionEnd.childExitStatus,
    numberMember (ascii "proxy_exit_status") (.refl true) sessionEnd.proxyExitStatus,
    textMember (ascii "termination_reason") (.refl true) sessionEnd.terminationReason,
    numberMember (ascii "duration_ms") (.refl true) sessionEnd.durationMs,
    .compact (plainString (ascii "clean_shutdown") (.refl true))
      (.lit (if sessionEnd.cleanShutdown then .true else .false))]

def sessionEndMembers (identity : SessionIdentity) (sessionEnd : SessionEnd) (timestamp : Bytes)
    (hplain : timestamp.all isPlainByte = true) : List (Member Value) :=
  sessionMembers (ascii "session_end") (.refl true) identity timestamp hplain ++
    endMembers sessionEnd

/-- Members of an object, without its braces. -/
def membersText (ms : List (Member Value)) : Bytes := List.intercalate [0x2C] (ms.map renderMember)

theorem sessionText_members (event : Bytes) (hevent : event.all isPlainByte = true)
    (identity : SessionIdentity) (timestamp : Bytes)
    (hplain : timestamp.all isPlainByte = true) :
    sessionText (ascii "\",\"event\":\"" ++ (event ++ ascii "\",\"guard_version\":")) identity
        timestamp =
      0x7B :: membersText (sessionMembers event hevent identity timestamp hplain) := by
  have hliterals : ascii "\x7b\"ts\":\"" = 0x7B :: 0x22 :: (ascii "ts" ++ [0x22, 0x3A, 0x22]) ∧
      ascii "\",\"event\":\"" = 0x22 :: 0x2C :: 0x22 :: (ascii "event" ++ [0x22, 0x3A, 0x22]) ∧
      ascii "\",\"guard_version\":" =
        0x22 :: 0x2C :: 0x22 :: (ascii "guard_version" ++ [0x22, 0x3A]) ∧
      ascii ",\"server_label\":" = 0x2C :: 0x22 :: (ascii "server_label" ++ [0x22, 0x3A]) ∧
      ascii ",\"downstream_executable\":" =
        0x2C :: 0x22 :: (ascii "downstream_executable" ++ [0x22, 0x3A]) ∧
      ascii ",\"policy_hash\":" = 0x2C :: 0x22 :: (ascii "policy_hash" ++ [0x22, 0x3A]) := by
    decide
  obtain ⟨hts, hevent', hversion, hlabel, hexecutable, hhash⟩ := hliterals
  rw [sessionText, hts, hevent', hversion, hlabel, hexecutable, hhash]
  simp only [jsonString_render]
  simp [membersText, sessionMembers, plainMember, textMember, plainString, Value.render,
    List.intercalate_cons_cons]

theorem membersText_append (m : Member Value) (ms : List (Member Value)) (m' : Member Value)
    (ms' : List (Member Value)) :
    membersText ((m :: ms) ++ m' :: ms') =
      membersText (m :: ms) ++ 0x2C :: membersText (m' :: ms') := by
  unfold membersText
  rw [List.map_append, List.map_cons, List.map_cons, List.cons_append, intercalate_cons,
    intercalate_cons, intercalate_cons, List.flatMap_append, List.flatMap_cons]
  simp

theorem sessionStartText_tree (identity : SessionIdentity) (timestamp : Bytes)
    (hplain : timestamp.all isPlainByte = true) :
    sessionStartText identity timestamp =
      (Value.obj noGap (sessionStartMembers identity timestamp hplain)).render := by
  have hevent : ascii "\",\"event\":\"session_start\",\"guard_version\":" =
      ascii "\",\"event\":\"" ++ (ascii "session_start" ++ ascii "\",\"guard_version\":") := by
    decide
  have hliterals : ascii ",\"runtime_limits\":\x7b\"max_message_bytes\":" =
        0x2C :: 0x22 :: (ascii "runtime_limits" ++ 0x22 :: 0x3A :: 0x7B :: 0x22 ::
          (ascii "max_message_bytes" ++ [0x22, 0x3A])) ∧
      ascii ",\"max_nesting_depth\":" =
        0x2C :: 0x22 :: (ascii "max_nesting_depth" ++ [0x22, 0x3A]) ∧
      ascii ",\"max_pending_tools_list\":" =
        0x2C :: 0x22 :: (ascii "max_pending_tools_list" ++ [0x22, 0x3A]) ∧
      ascii "\x7d\x7d" = [0x7D, 0x7D] := by
    decide
  obtain ⟨hlimits, hnesting, hpending, hclose⟩ := hliterals
  rw [sessionStartText, hevent,
    sessionText_members (ascii "session_start") (.refl true) identity timestamp hplain,
    render_obj_joined]
  show _ = 0x7B :: (membersText (_ :: _ ++ _ :: []) ++ _)
  have hobject : membersText [Member.compact (plainString (ascii "runtime_limits") (.refl true))
      (.obj noGap (limitMembers identity.limits))] = 0x22 :: (ascii "runtime_limits" ++
        0x22 :: 0x3A :: 0x7B :: (membersText (limitMembers identity.limits) ++ [0x7D])) := by
    rw [membersText, List.map_singleton, List.intercalate_singleton, renderMember_compact,
      render_obj_joined]
    rfl
  rw [membersText_append, hobject, hlimits, hnesting, hpending, hclose]
  simp [membersText, sessionMembers, limitMembers, numberMember, plainString, numberText,
    toChars, Value.render, List.intercalate_cons_cons]

theorem sessionEndText_tree (identity : SessionIdentity) (sessionEnd : SessionEnd)
    (timestamp : Bytes) (hplain : timestamp.all isPlainByte = true) :
    sessionEndText identity sessionEnd timestamp =
      (Value.obj noGap (sessionEndMembers identity sessionEnd timestamp hplain)).render := by
  have hevent : ascii "\",\"event\":\"session_end\",\"guard_version\":" =
      ascii "\",\"event\":\"" ++ (ascii "session_end" ++ ascii "\",\"guard_version\":") := by
    decide
  have hliterals : ascii ",\"child_exit_status\":" =
        0x2C :: 0x22 :: (ascii "child_exit_status" ++ [0x22, 0x3A]) ∧
      ascii ",\"proxy_exit_status\":" =
        0x2C :: 0x22 :: (ascii "proxy_exit_status" ++ [0x22, 0x3A]) ∧
      ascii ",\"termination_reason\":" =
        0x2C :: 0x22 :: (ascii "termination_reason" ++ [0x22, 0x3A]) ∧
      ascii ",\"duration_ms\":" = 0x2C :: 0x22 :: (ascii "duration_ms" ++ [0x22, 0x3A]) ∧
      ascii ",\"clean_shutdown\":true\x7d" =
        0x2C :: 0x22 :: (ascii "clean_shutdown" ++ 0x22 :: 0x3A :: (ascii "true" ++ [0x7D])) ∧
      ascii ",\"clean_shutdown\":false\x7d" =
        0x2C :: 0x22 :: (ascii "clean_shutdown" ++ 0x22 :: 0x3A :: (ascii "false" ++ [0x7D])) := by
    decide
  obtain ⟨hchild, hproxy, hreason, hduration, htrue, hfalse⟩ := hliterals
  rw [sessionEndText, hevent,
    sessionText_members (ascii "session_end") (.refl true) identity timestamp hplain,
    render_obj_joined]
  show _ = 0x7B :: (membersText (_ :: _ ++ _ :: _) ++ _)
  rw [membersText_append, hchild, hproxy, hreason, hduration, htrue, hfalse]
  simp only [jsonString_render]
  cases sessionEnd.cleanShutdown with
  | true =>
      simp [membersText, sessionMembers, textMember, numberMember, plainString, numberText,
        toChars, Value.render, Literal.bytes, List.intercalate_cons_cons]
      rfl
  | false =>
      simp [membersText, sessionMembers, textMember, numberMember, plainString, numberText,
        toChars, Value.render, Literal.bytes, List.intercalate_cons_cons]
      rfl

/-! ## §3  One line each -/

theorem decimal_printable (n : Nat) : ∀ b ∈ decimal n, 0x20 ≤ b :=
  fun b hb => (isDigit_of_mem_decimal b hb).printable

theorem toChars_printable (i : Int) : ∀ b ∈ toChars i, 0x20 ≤ b := by
  cases i with
  | ofNat n => exact decimal_printable n
  | negSucc n => exact List.forall_mem_cons.mpr ⟨by decide, decimal_printable _⟩

section printable

variable {timestamp : Bytes} (hplain : timestamp.all isPlainByte = true)
include hplain

theorem sessionText_printable {event : Bytes} (hevent : ∀ b ∈ event, 0x20 ≤ b)
    (identity : SessionIdentity) : ∀ b ∈ sessionText event identity timestamp, 0x20 ≤ b := by
  have htext := Escapers.jsonString_printable
  unfold sessionText
  simp only [List.forall_mem_append]
  exact ⟨printable_of_all (by decide), (stringBody_plain hplain).printable, hevent, htext _,
    printable_of_all (by decide), htext _, printable_of_all (by decide), htext _,
    printable_of_all (by decide), htext _⟩

theorem sessionStartText_printable (identity : SessionIdentity) :
    ∀ b ∈ sessionStartText identity timestamp, 0x20 ≤ b := by
  unfold sessionStartText
  simp only [List.forall_mem_append]
  exact ⟨sessionText_printable hplain (printable_of_all (by decide)) identity,
    printable_of_all (by decide), decimal_printable _, printable_of_all (by decide),
    decimal_printable _, printable_of_all (by decide), decimal_printable _,
    printable_of_all (by decide)⟩

theorem sessionEndText_printable (identity : SessionIdentity) (sessionEnd : SessionEnd) :
    ∀ b ∈ sessionEndText identity sessionEnd timestamp, 0x20 ≤ b := by
  unfold sessionEndText
  simp only [List.forall_mem_append]
  refine ⟨sessionText_printable hplain (printable_of_all (by decide)) identity,
    printable_of_all (by decide), toChars_printable _, printable_of_all (by decide),
    toChars_printable _, printable_of_all (by decide), Escapers.jsonString_printable _,
    printable_of_all (by decide), decimal_printable _, ?_⟩
  split
  · exact printable_of_all (by decide)
  · exact printable_of_all (by decide)

end printable

end NativeGuard.Audit

import NativeGuard.Data.Counter
import NativeGuard.Data.Pairing

/-!
# The audit health summary (`scripts/audit_health_summary.py`)

Records are read across the files in order. Each session start raises the balance
of its label, executable and policy hash, each session end lowers it while it is
not zero; what the balances add up to is what a maximum pairing of ends with
earlier starts leaves over (`unmatchedSessionStarts_eq_left`).
-/

namespace NativeGuard.Audit

open Data

/-! ## §1  Records -/

/-- A string of Python: its code points, among which a lone surrogate may be. -/
abbrev PyString : Type := List (Fin 0x110000)

/-- A string of the script. -/
def py (text : String) : PyString :=
  text.toList.map fun c => ⟨c.toNat, by
    rcases c.valid with h | h
    · exact Nat.lt_trans h (by decide)
    · exact h.2⟩

@[simp] theorem py_inj {s t : String} : py s = py t ↔ s = t := by
  constructor
  · intro h
    refine String.toList_inj.mp (List.map_injective_iff.mpr (fun c d hcd => ?_) h)
    exact Char.toNat_inj.mp (Fin.mk.inj hcd)
  · rintro rfl
    rfl

/-- What `json.loads` gives. Of a number it is read only whether it is zero. -/
inductive PyValue where
  | none
  | bool (value : Bool)
  | number (text : String) (isZero : Bool)
  | str (text : PyString)
  | list (items : List PyValue)
  | dict (members : List (PyString × PyValue))

/-- `isinstance(value, str)`. -/
def PyValue.text? : PyValue → Option PyString
  | .str text => some text
  | _ => Option.none

def PyValue.truthy : PyValue → Bool
  | .none => false
  | .bool value => value
  | .number _ isZero => !isZero
  | .str text => text ≠ []
  | .list items => !items.isEmpty
  | .dict members => !members.isEmpty

/-- A string, or what `get` gives for an absent member. -/
def PyValue.TextOrNone : PyValue → Prop
  | .none => True
  | .str _ => True
  | _ => False

theorem PyValue.text?_inj {v w : PyValue} (hv : v.TextOrNone) (hw : w.TextOrNone) :
    v.text? = w.text? ↔ v = w := by
  cases v <;> cases w <;> simp_all [PyValue.TextOrNone, PyValue.text?]

/-- A JSON object by its `get`, which the script calls with its own strings; the members
that identify a session are strings or absent. -/
structure Record where
  get : String → PyValue
  executable_text : (get "downstream_executable").TextOrNone
  policyHash_text : (get "policy_hash").TextOrNone

/-- Label, executable and policy hash. -/
abbrev SessionKey : Type := PyString × Option PyString × Option PyString

namespace Record

def event (record : Record) : Option PyString := (record.get "event").text?

def reason (record : Record) : Option PyString := (record.get "reason").text?

def label (record : Record) : PyString :=
  ((record.get "server_label").text?).getD (py "unlabeled")

def timestamp (record : Record) : PyValue :=
  if (record.get "ts").truthy then record.get "ts" else record.get "timestamp"

def key (record : Record) : SessionKey :=
  (record.label, (record.get "downstream_executable").text?,
    (record.get "policy_hash").text?)

/-- Records have one key if label, executable and policy hash are the same. -/
theorem key_eq_iff {r s : Record} :
    r.key = s.key ↔ r.label = s.label ∧
      r.get "downstream_executable" = s.get "downstream_executable" ∧
      r.get "policy_hash" = s.get "policy_hash" := by
  rw [key, key, Prod.mk.injEq, Prod.mk.injEq,
    PyValue.text?_inj r.executable_text s.executable_text,
    PyValue.text?_inj r.policyHash_text s.policyHash_text]

def cleanShutdown (record : Record) : Bool :=
  match record.get "clean_shutdown" with
  | .bool value => value
  | _ => false

def isStart (record : Record) : Prop := record.event = some (py "session_start")

def isEnd (record : Record) : Prop := record.event = some (py "session_end")

instance (record : Record) : Decidable record.isStart := by
  unfold isStart; infer_instance

instance (record : Record) : Decidable record.isEnd := by
  unfold isEnd; infer_instance

end Record

/-- What the loop makes of a line: a record, or an error of `json.loads`. -/
inductive Line where
  | record (record : Record)
  | invalid (finalTruncated : Bool)

/-- A path, with the lines of the file or the text of the `OSError`. -/
structure Source where
  path : String
  content : Except String (List Line)

/-! ## §2  `summarize` -/

structure UnhealthySession where
  ts : PyString
  serverLabel : PyString
  childExitStatus : PyValue
  terminationReason : PyValue

structure Summary where
  filesRead : Nat := 0
  invalidJsonLines : Nat := 0
  truncatedFinalLines : Nat := 0
  totalSessions : Nat := 0
  cleanSessions : Nat := 0
  uncleanSessions : Nat := 0
  unmatchedSessionStarts : Nat := 0
  allowedToolCalls : Nat := 0
  deniedToolCalls : Nat := 0
  hiddenTools : Nat := 0
  invalidMessages : Nat := 0
  oversizedMessages : Nat := 0
  excessiveNestingEvents : Nat := 0
  correlationCapacityEvents : Nat := 0
  auditWriteFailures : Nat := 0
  byServerLabel : List (PyString × Nat) := []
  mostRecentSessionTimestamp : Option PyString := none
  mostRecentUnhealthySession : Option UnhealthySession := none
  policyFingerprintsObserved : List PyString := []

/-- The locals of `summarize`. -/
structure Tally where
  summary : Summary := {}
  balances : Counter SessionKey := {}
  labels : Counter PyString := {}
  fingerprints : List PyString := []
  missing : List String := []

/-- `ts is None or text > ts`. -/
def later (text : PyString) : Option PyString → Bool
  | none => true
  | some previous => previous < text

def noteTimestamp (record : Record) (summary : Summary) : Summary :=
  match record.timestamp.text? with
  | some ts =>
      if later ts summary.mostRecentSessionTimestamp then
        { summary with mostRecentSessionTimestamp := some ts }
      else summary
  | none => summary

def noteUnhealthy (record : Record) (summary : Summary) : Summary :=
  match record.timestamp.text? with
  | some ts =>
      if later ts (summary.mostRecentUnhealthySession.map UnhealthySession.ts) then
        { summary with mostRecentUnhealthySession := some {
            ts := ts
            serverLabel := record.label
            childExitStatus := record.get "child_exit_status"
            terminationReason := record.get "termination_reason" } }
      else summary
  | none => summary

def noteFingerprint (record : Record) (fingerprints : List PyString) : List PyString :=
  match (record.get "policy_hash").text? with
  | some fingerprint => fingerprints.insert fingerprint
  | none => fingerprints

def startSession (record : Record) (tally : Tally) : Tally :=
  { tally with
    summary := { tally.summary with totalSessions := tally.summary.totalSessions + 1 }
    labels := tally.labels.set record.label (tally.labels.get record.label + 1)
    balances := tally.balances.set record.key (tally.balances.get record.key + 1) }

def endSession (record : Record) (tally : Tally) : Tally :=
  { tally with
    balances :=
      if tally.balances.get record.key > 0 then
        tally.balances.set record.key (tally.balances.get record.key - 1)
      else tally.balances
    summary :=
      if record.cleanShutdown then
        { tally.summary with cleanSessions := tally.summary.cleanSessions + 1 }
      else
        noteUnhealthy record
          { tally.summary with uncleanSessions := tally.summary.uncleanSessions + 1 } }

/-- The events that are no session start or end. -/
def countEvent (record : Record) (summary : Summary) : Summary :=
  if record.event = some (py "tools/call") then
    if (record.get "decision").text? = some (py "allow") then
      { summary with allowedToolCalls := summary.allowedToolCalls + 1 }
    else { summary with deniedToolCalls := summary.deniedToolCalls + 1 }
  else if record.event = some (py "tools/list_tool_removed") then
    { summary with hiddenTools := summary.hiddenTools + 1 }
  else if record.event = some (py "message_rejected") then
    if record.reason = some (py "message_too_large") then
      { summary with oversizedMessages := summary.oversizedMessages + 1 }
    else if record.reason = some (py "excessive_nesting") then
      { summary with excessiveNestingEvents := summary.excessiveNestingEvents + 1 }
    else { summary with invalidMessages := summary.invalidMessages + 1 }
  else if record.event = some (py "tools/list_correlation") ∨
      record.reason = some (py "capacity_exhausted") then
    { summary with correlationCapacityEvents := summary.correlationCapacityEvents + 1 }
  else if record.event = some (py "audit_write_failure") then
    { summary with auditWriteFailures := summary.auditWriteFailures + 1 }
  else summary

def countRecord (tally : Tally) (record : Record) : Tally :=
  if record.isStart ∨ record.isEnd then
    let tally := { tally with
      summary := noteTimestamp record tally.summary
      fingerprints := noteFingerprint record tally.fingerprints }
    if record.isStart then startSession record tally else endSession record tally
  else { tally with summary := countEvent record tally.summary }

def countLine (tally : Tally) : Line → Tally
  | .record record => countRecord tally record
  | .invalid finalTruncated =>
      { tally with summary := { tally.summary with
          invalidJsonLines := tally.summary.invalidJsonLines + 1
          truncatedFinalLines :=
            tally.summary.truncatedFinalLines + if finalTruncated then 1 else 0 } }

def readSource (tally : Tally) (source : Source) : Tally :=
  match source.content with
  | .error strerror =>
      { tally with missing := tally.missing ++ [source.path ++ ": " ++ strerror] }
  | .ok lines =>
      lines.foldl countLine
        { tally with summary := { tally.summary with
            filesRead := tally.summary.filesRead + 1 } }

def finish (tally : Tally) : Summary × List String :=
  ({ tally.summary with
      unmatchedSessionStarts := tally.balances.total
      byServerLabel := tally.labels.entries.mergeSort fun a b => a.1 ≤ b.1
      policyFingerprintsObserved := tally.fingerprints.mergeSort fun a b => a ≤ b },
    tally.missing)

def summarize (sources : List Source) : Summary × List String :=
  finish (sources.foldl readSource {})

/-! ## §3  The balances -/

/-- A session start opens under its key, a session end closes. -/
def Record.mark (record : Record) : Mark SessionKey :=
  if record.isStart then .opens record.key
  else if record.isEnd then .closes record.key
  else .other

/-- The records read across the files in order. -/
def recordsRead (sources : List Source) : List Record :=
  sources.flatMap fun source =>
    match source.content with
    | .error _ => []
    | .ok lines => lines.filterMap fun line =>
        match line with
        | .record record => some record
        | .invalid _ => none

def sessionMarks (records : List Record) : List (Mark SessionKey) := records.map Record.mark

/-- The balances are the counters of the records so far. -/
structure Balanced (records : List Record) (tally : Tally) : Prop where
  get_eq : tally.balances.get = pending (sessionMarks records)
  opened : ∀ k, .opens k ∈ sessionMarks records → k ∈ tally.balances.keys

theorem balanced_nil : Balanced [] {} := by
  constructor
  · rfl
  · intro k hk
    exact absurd hk List.not_mem_nil

theorem countRecord_balances_start {record : Record} (h : record.isStart) (tally : Tally) :
    (countRecord tally record).balances =
      tally.balances.set record.key (tally.balances.get record.key + 1) := by
  unfold countRecord
  rw [if_pos (Or.inl h)]
  simp only [if_pos h]
  rfl

theorem countRecord_balances_end {record : Record} (hstart : ¬ record.isStart)
    (hend : record.isEnd) (tally : Tally) :
    (countRecord tally record).balances =
      if tally.balances.get record.key > 0 then
        tally.balances.set record.key (tally.balances.get record.key - 1)
      else tally.balances := by
  unfold countRecord
  rw [if_pos (Or.inr hend)]
  simp only [if_neg hstart]
  rfl

theorem countRecord_balances_other {record : Record} (hstart : ¬ record.isStart)
    (hend : ¬ record.isEnd) (tally : Tally) :
    (countRecord tally record).balances = tally.balances := by
  unfold countRecord
  rw [if_neg (not_or.mpr ⟨hstart, hend⟩)]

theorem sessionMarks_append (records : List Record) (record : Record) :
    sessionMarks (records ++ [record]) = sessionMarks records ++ [record.mark] :=
  List.map_append

section countRecord

variable {records : List Record} {tally : Tally} (h : Balanced records tally)
  (record : Record)
include h

/-- A session that has opened with one record more had opened before, or opens with it. -/
theorem Balanced.opened_append {k : SessionKey}
    (hk : .opens k ∈ sessionMarks (records ++ [record])) :
    k ∈ tally.balances.keys ∨ record.mark = .opens k := by
  rw [sessionMarks_append, List.mem_append, List.mem_singleton] at hk
  exact hk.imp (h.opened k) Eq.symm

theorem Balanced.countRecord_start (hstart : record.isStart) :
    Balanced (records ++ [record]) (countRecord tally record) := by
  have hmark : record.mark = .opens record.key := if_pos hstart
  have hbalances := countRecord_balances_start hstart tally
  constructor
  · rw [hbalances, Counter.get_set, sessionMarks_append, pending_append, hmark, ← h.get_eq]
    rfl
  · intro k hk
    rw [hbalances, Counter.mem_keys_set]
    rcases h.opened_append record hk with hold | hnew
    · exact Or.inr hold
    · rw [hmark] at hnew
      exact Or.inl (Mark.opens.inj hnew).symm

theorem Balanced.countRecord_end (hstart : ¬ record.isStart) (hend : record.isEnd) :
    Balanced (records ++ [record]) (countRecord tally record) := by
  have hmark : record.mark = .closes record.key := by
    rw [Record.mark, if_neg hstart, if_pos hend]
  have hbalances := countRecord_balances_end hstart hend tally
  constructor
  · rw [hbalances, sessionMarks_append, pending_append, hmark, ← h.get_eq]
    split
    · rw [Counter.get_set]
      rfl
    · -- a balance of zero stays as it is
      rename_i hzero
      funext k
      rw [tally_apply]
      by_cases hk : Mark.closes record.key = .closes k
      · obtain rfl := Mark.closes.inj hk
        simp
        omega
      · simp [hk]
  · intro k hk
    have hold : k ∈ tally.balances.keys := by
      rcases h.opened_append record hk with hold | hnew
      · exact hold
      · rw [hmark] at hnew
        cases hnew
    rw [hbalances]
    split
    · exact Counter.mem_keys_set.mpr (Or.inr hold)
    · exact hold

theorem Balanced.countRecord_other (hstart : ¬ record.isStart) (hend : ¬ record.isEnd) :
    Balanced (records ++ [record]) (countRecord tally record) := by
  have hmark : record.mark = .other := by
    rw [Record.mark, if_neg hstart, if_neg hend]
  have hbalances := countRecord_balances_other hstart hend tally
  constructor
  · rw [hbalances, sessionMarks_append, pending_append, hmark, ← h.get_eq]
    rfl
  · intro k hk
    rw [hbalances]
    rcases h.opened_append record hk with hold | hnew
    · exact hold
    · rw [hmark] at hnew
      cases hnew

/-- One record keeps the balances at the counters of the marks. -/
theorem Balanced.countRecord :
    Balanced (records ++ [record]) (countRecord tally record) := by
  by_cases hstart : record.isStart
  · exact h.countRecord_start record hstart
  by_cases hend : record.isEnd
  · exact h.countRecord_end record hstart hend
  · exact h.countRecord_other record hstart hend

end countRecord

theorem Balanced.countLines {records : List Record} {tally : Tally}
    (h : Balanced records tally) (lines : List Line) :
    Balanced (records ++ lines.filterMap fun line =>
        match line with
        | .record record => some record
        | .invalid _ => none)
      (lines.foldl countLine tally) := by
  induction lines generalizing records tally with
  | nil => simpa using h
  | cons line lines ih =>
      cases line with
      | record record =>
          have hnext := ih (h.countRecord record)
          rwa [List.append_assoc] at hnext
      | invalid finalTruncated =>
          have hsame : Balanced records (countLine tally (.invalid finalTruncated)) :=
            ⟨h.get_eq, h.opened⟩
          exact ih hsame

theorem Balanced.readSources {records : List Record} {tally : Tally}
    (h : Balanced records tally) (sources : List Source) :
    Balanced (records ++ recordsRead sources) (sources.foldl readSource tally) := by
  induction sources generalizing records tally with
  | nil => simpa [recordsRead] using h
  | cons source sources ih =>
      rw [recordsRead, List.flatMap_cons, ← List.append_assoc, List.foldl_cons]
      refine ih ?_
      obtain ⟨path, content⟩ := source
      cases content with
      | error strerror =>
          rw [List.append_nil]
          exact ⟨h.get_eq, h.opened⟩
      | ok lines =>
          have hopen : Balanced records { tally with summary := { tally.summary with
              filesRead := tally.summary.filesRead + 1 } } := ⟨h.get_eq, h.opened⟩
          exact hopen.countLines lines

/-- The unmatched session starts are those that a maximum pairing of session ends
with earlier starts of the same key leaves over; none are left exactly if every
start can be paired with an end of its own. -/
theorem unmatchedSessionStarts_eq_left (sources : List Source) :
    let marks := sessionMarks (recordsRead sources)
    let unmatched := (summarize sources).1.unmatchedSessionStarts
    (∃ M, IsMaximum marks M) ∧
    (∀ M, IsMaximum marks M → unmatched = (left marks M).card) ∧
    (unmatched = 0 ↔ ∃ M, IsMatching marks M ∧ left marks M = ∅) := by
  have hbalanced := balanced_nil.readSources sources
  rw [List.nil_append] at hbalanced
  have htotal : ∀ M, IsMaximum (sessionMarks (recordsRead sources)) M →
      (summarize sources).1.unmatchedSessionStarts =
        (left (sessionMarks (recordsRead sources)) M).card := by
    intro M hM
    rw [← sum_pending_of_maximum hM hbalanced.opened, ← hbalanced.get_eq]
    exact Counter.total_eq_sum _ (Finset.Subset.refl _)
  obtain ⟨N, hN⟩ := exists_maximum (sessionMarks (recordsRead sources))
  refine ⟨⟨N, hN⟩, htotal, ?_⟩
  rw [htotal N hN]
  constructor
  · intro hzero
    exact ⟨N, hN.matching, Finset.card_eq_zero.mp hzero⟩
  · rintro ⟨M, hM, hempty⟩
    have hcardM := hM.card_left
    have hcardN := hN.matching.card_left
    have hmax := hN.le M hM
    rw [hempty, Finset.card_empty] at hcardM
    omega

end NativeGuard.Audit

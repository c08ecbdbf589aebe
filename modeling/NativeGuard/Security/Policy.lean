import NativeGuard.Core.Status
import NativeGuard.Data.Decimal
import NativeGuard.Data.SortedTable
import NativeGuard.Json.Grammar

/-!
# The policy table (`src/policy.cpp`)

A `PolicyTable` carries what `build` establishes: rules in strictly ascending
order of bytewise name, and no empty name. The lookups are then those of the
finite map the rules describe.
-/

namespace NativeGuard.Security

open Json Data

inductive Access where
  | deny
  | allow
deriving DecidableEq, Repr

structure ToolRule where
  name : Bytes
  visible : Access := .deny
  callable : Access := .deny
deriving DecidableEq, Repr

structure PolicyDefaults where
  visible : Access := .deny
  callable : Access := .deny
deriving DecidableEq, Repr

structure PolicyTable where
  rules : List ToolRule := []
  defaults : PolicyDefaults := {}
  sorted : Ascending ToolRule.name rules
  named : ∀ rule ∈ rules, rule.name ≠ []

/-- No rules: the defaults decide on every tool. -/
def PolicyTable.ofDefaults (defaults : PolicyDefaults) : PolicyTable :=
  ⟨[], defaults, List.Pairwise.nil, nofun⟩

/-! ## Building -/

theorem sorted_of_not_adjacent {rules : List ToolRule}
    (h : ¬ adjacentEqual ToolRule.name (sortOn ToolRule.name rules) = true) :
    Ascending ToolRule.name (sortOn ToolRule.name rules) := by
  have hpair := sortOn_pairwise ToolRule.name rules
  exact (adjacentEqual_eq_false ToolRule.name hpair).mp (by simpa using h)

namespace PolicyTable

def build (rules : List ToolRule) (defaults : PolicyDefaults) :
    Except Status PolicyTable :=
  if hempty : ∃ rule ∈ rules, rule.name = [] then
    .error ⟨.invalidArgument, "tool rule name must not be empty"⟩
  else if hdup : adjacentEqual ToolRule.name (sortOn ToolRule.name rules) = true then
    .error ⟨.duplicateRule, "duplicate tool rule"⟩
  else
    .ok {
      rules := sortOn ToolRule.name rules
      defaults := defaults
      sorted := sorted_of_not_adjacent hdup
      named := fun rule hrule hname =>
        hempty ⟨rule, (mem_sortOn ToolRule.name).mp hrule, hname⟩ }

/-- `build` succeeds exactly on named rules without a repeated name. -/
theorem build_ok {rules : List ToolRule} {defaults : PolicyDefaults}
    (hnamed : ∀ rule ∈ rules, rule.name ≠ [])
    (hnodup : (rules.map ToolRule.name).Nodup) :
    ∃ table, build rules defaults = .ok table ∧
      table.rules = sortOn ToolRule.name rules ∧ table.defaults = defaults := by
  have hempty : ¬ ∃ rule ∈ rules, rule.name = [] := by
    rintro ⟨rule, hrule, hname⟩
    exact hnamed rule hrule hname
  have hdup : ¬ adjacentEqual ToolRule.name (sortOn ToolRule.name rules) = true := by
    rw [(adjacentEqual_sortOn ToolRule.name rules).mpr hnodup]
    decide
  unfold build
  rw [dif_neg hempty, dif_neg hdup]
  exact ⟨_, rfl, rfl, rfl⟩

theorem build_eq_ok {rules : List ToolRule} {defaults : PolicyDefaults}
    {table : PolicyTable} (h : build rules defaults = .ok table) :
    (∀ rule ∈ rules, rule.name ≠ []) ∧ (rules.map ToolRule.name).Nodup ∧
      table.rules = sortOn ToolRule.name rules ∧ table.defaults = defaults := by
  unfold build at h
  split at h
  · cases h
  · rename_i hempty
    split at h
    · cases h
    · rename_i hdup
      cases h
      refine ⟨fun rule hrule hname => hempty ⟨rule, hrule, hname⟩, ?_, rfl, rfl⟩
      exact (adjacentEqual_sortOn ToolRule.name rules).mp (by simpa using hdup)

/-! ## Lookup -/

/-- `std::lower_bound` on the sorted rules, then the test for the name. -/
def find (table : PolicyTable) (toolName : Bytes) : Option ToolRule :=
  lookup ToolRule.name table.rules toolName

def visibilityFor (table : PolicyTable) (toolName : Bytes) : Access :=
  match table.find toolName with
  | some rule => rule.visible
  | none => table.defaults.visible

def invocationFor (table : PolicyTable) (toolName : Bytes) : Access :=
  match table.find toolName with
  | some rule => rule.callable
  | none => table.defaults.callable

theorem find_eq_some (table : PolicyTable) {toolName : Bytes} {rule : ToolRule} :
    table.find toolName = some rule ↔
      rule ∈ table.rules ∧ rule.name = toolName :=
  lookup_eq_some ToolRule.name table.sorted

theorem find_eq_none (table : PolicyTable) {toolName : Bytes} :
    table.find toolName = none ↔ ∀ rule ∈ table.rules, rule.name ≠ toolName :=
  lookup_eq_none ToolRule.name table.sorted

/-- A listed rule decides its own name. -/
theorem lookups_of_mem (table : PolicyTable) {rule : ToolRule}
    (h : rule ∈ table.rules) :
    table.visibilityFor rule.name = rule.visible ∧
      table.invocationFor rule.name = rule.callable := by
  have hfind := table.find_eq_some.mpr ⟨h, rfl⟩
  unfold visibilityFor invocationFor
  rw [hfind]
  exact ⟨rfl, rfl⟩

/-- The defaults decide every name that is not listed. -/
theorem lookups_of_not_mem (table : PolicyTable) {toolName : Bytes}
    (h : ∀ rule ∈ table.rules, rule.name ≠ toolName) :
    table.visibilityFor toolName = table.defaults.visible ∧
      table.invocationFor toolName = table.defaults.callable := by
  have hfind := table.find_eq_none.mpr h
  unfold visibilityFor invocationFor
  rw [hfind]
  exact ⟨rfl, rfl⟩

/-! ## Fingerprint -/

def accessByte : Access → UInt8
  | .deny => 0
  | .allow => 1

def ruleInput (rule : ToolRule) : Bytes :=
  decimal rule.name.length ++ (ascii ":" ++ (rule.name ++
    [accessByte rule.visible, accessByte rule.callable]))

/-- The bytes that are hashed. The domain string is passed as a C string, so
its explicit zero byte is not part of it. -/
def fingerprintInput (table : PolicyTable) : Bytes :=
  ascii "mng-effective-policy-v1" ++
    ([accessByte table.defaults.visible, accessByte table.defaults.callable] ++
      table.rules.flatMap ruleInput)

def fnv1a (bytes : Bytes) : UInt64 :=
  bytes.foldl (fun value byte => (value ^^^ byte.toUInt64) * 1099511628211)
    14695981039346656037

def hexDigit (nibble : UInt64) : UInt8 :=
  if nibble < 10 then 0x30 + nibble.toUInt8 else 0x61 + (nibble - 10).toUInt8

/-- The `n` low nibbles of `value`, most significant first. -/
def hexDigits : Nat → UInt64 → Bytes
  | 0, _ => []
  | n + 1, value => hexDigits n (value >>> 4) ++ [hexDigit (value &&& 0x0F)]

def fingerprint (table : PolicyTable) : Bytes :=
  ascii "fnv1a64:" ++ hexDigits 16 (fnv1a table.fingerprintInput)

end PolicyTable

end NativeGuard.Security

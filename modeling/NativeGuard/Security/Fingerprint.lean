import NativeGuard.Data.Codes
import NativeGuard.Security.Policy

/-!
# The policy fingerprint (`src/policy.cpp`)

The hashed bytes are a self-delimiting code of the rules behind the two default
bytes, so they stand for one table only (`fingerprintInput_eq_iff`). An FNV-1a
step is a bijection of the 64-bit state, and the hexadecimal digits tell all
values apart, so one access value exchanged changes the fingerprint
(`fingerprint_ne_of_one_access`).
-/

namespace NativeGuard.Security

open Json Data Function

namespace PolicyTable

/-! ## §1  The hashed bytes -/

theorem accessByte_injective : Injective accessByte := by
  intro a b h
  cases a <;> cases b <;> first | rfl | exact absurd h (by decide)

theorem decimal_injective : Injective decimal := fun m n h => by
  rw [← digitsValue_decimal m, h, digitsValue_decimal]

/-- The length, up to its `:`. -/
theorem selfDelimiting_decimal : SelfDelimiting fun n => decimal n ++ ascii ":" := by
  apply selfDelimiting_of_stop decimal_injective
  intro n hmem
  exact absurd (isDigit_of_mem_decimal _ hmem) (by decide)

theorem selfDelimiting_ruleInput : SelfDelimiting ruleInput := by
  have hbody : ∀ ⦃a b : ToolRule⦄, a.name.length = b.name.length → ∀ ⦃s t : Bytes⦄,
      a.name ++ [accessByte a.visible, accessByte a.callable] ++ s =
        b.name ++ [accessByte b.visible, accessByte b.callable] ++ t → a = b ∧ s = t := by
    intro a b hlength s t h
    rw [List.append_assoc, List.append_assoc] at h
    obtain ⟨hname, hrest⟩ := List.append_inj h hlength
    simp only [List.cons_append, List.nil_append, List.cons.injEq] at hrest
    obtain ⟨hvisible, hcallable, rfl⟩ := hrest
    obtain ⟨name, visible, callable⟩ := a
    obtain ⟨name', visible', callable'⟩ := b
    obtain rfl : name = name' := hname
    obtain rfl : visible = visible' := accessByte_injective hvisible
    obtain rfl : callable = callable' := accessByte_injective hcallable
    exact ⟨rfl, rfl⟩
  have hcode := selfDelimiting_decimal.announced hbody
  intro a b s t h
  refine hcode (s := s) (t := t) ?_
  simpa only [ruleInput, List.append_assoc] using h

theorem ruleInput_ne_nil (rule : ToolRule) : ruleInput rule ≠ [] := by
  simp [ruleInput]

theorem fingerprintInput_injective {table₁ table₂ : PolicyTable}
    (h : table₁.fingerprintInput = table₂.fingerprintInput) :
    table₁.defaults = table₂.defaults ∧ table₁.rules = table₂.rules := by
  have hrest := List.append_cancel_left h
  simp only [List.cons_append, List.nil_append, List.cons.injEq] at hrest
  obtain ⟨hvisible, hcallable, hrules⟩ := hrest
  refine ⟨?_, selfDelimiting_ruleInput.flatMap_injective ruleInput_ne_nil hrules⟩
  -- the two default bytes
  revert hvisible hcallable
  obtain ⟨-, ⟨visible, callable⟩, -, -⟩ := table₁
  obtain ⟨-, ⟨visible', callable'⟩, -, -⟩ := table₂
  intro hvisible hcallable
  obtain rfl : visible = visible' := accessByte_injective hvisible
  obtain rfl : callable = callable' := accessByte_injective hcallable
  rfl

/-- The hashed bytes of two built tables are the same exactly for one set of rules
and one pair of defaults; the order in which rules are supplied is not seen. -/
theorem fingerprintInput_eq_iff {rules₁ rules₂ : List ToolRule}
    {defaults₁ defaults₂ : PolicyDefaults} {table₁ table₂ : PolicyTable}
    (h₁ : build rules₁ defaults₁ = .ok table₁) (h₂ : build rules₂ defaults₂ = .ok table₂) :
    (table₁.fingerprintInput = table₂.fingerprintInput ↔
      defaults₁ = defaults₂ ∧ ∀ rule, rule ∈ rules₁ ↔ rule ∈ rules₂) ∧
    (defaults₁ = defaults₂ → rules₁.Perm rules₂ →
      table₁.fingerprint = table₂.fingerprint) ∧
    (table₁.fingerprint ≠ table₂.fingerprint →
      ¬ (defaults₁ = defaults₂ ∧ ∀ rule, rule ∈ rules₁ ↔ rule ∈ rules₂)) := by
  obtain ⟨-, -, hrules₁, hdefaults₁⟩ := build_eq_ok h₁
  obtain ⟨-, -, hrules₂, hdefaults₂⟩ := build_eq_ok h₂
  have hiff : table₁.fingerprintInput = table₂.fingerprintInput ↔
      defaults₁ = defaults₂ ∧ ∀ rule, rule ∈ rules₁ ↔ rule ∈ rules₂ := by
    constructor
    · intro h
      obtain ⟨hdefaults, hrules⟩ := fingerprintInput_injective h
      refine ⟨by rw [← hdefaults₁, hdefaults, hdefaults₂], fun rule => ?_⟩
      rw [← mem_sortOn ToolRule.name, ← hrules₁, hrules, hrules₂,
        mem_sortOn ToolRule.name]
    · rintro ⟨hdefaults, hmem⟩
      have hrules : table₁.rules = table₂.rules := by
        refine table₁.sorted.ext ToolRule.name table₂.sorted fun rule => ?_
        rw [hrules₁, hrules₂, mem_sortOn, mem_sortOn]
        exact hmem rule
      unfold fingerprintInput
      rw [hrules, hdefaults₁, hdefaults₂, hdefaults]
  have hsame : (defaults₁ = defaults₂ ∧ ∀ rule, rule ∈ rules₁ ↔ rule ∈ rules₂) →
      table₁.fingerprint = table₂.fingerprint := by
    intro h
    unfold fingerprint
    rw [hiff.mpr h]
  exact ⟨hiff, fun hdefaults hperm => hsame ⟨hdefaults, fun _ => hperm.mem_iff⟩,
    fun hne h => hne (hsame h)⟩

theorem fingerprintInput_eq_iff_example :
    ∃ table₁ table₂ : PolicyTable,
      build [⟨ascii "b", .deny, .allow⟩, ⟨ascii "a1:", .allow, .deny⟩] ⟨.allow, .deny⟩ =
        .ok table₁ ∧
      build [⟨ascii "a1:", .allow, .deny⟩, ⟨ascii "b", .deny, .allow⟩] ⟨.allow, .deny⟩ =
        .ok table₂ ∧
      table₁.fingerprint = table₂.fingerprint := by
  obtain ⟨table₁, h₁, -, -⟩ := @build_ok
    [⟨ascii "b", .deny, .allow⟩, ⟨ascii "a1:", .allow, .deny⟩] ⟨.allow, .deny⟩
    (by decide) (by decide)
  obtain ⟨table₂, h₂, -, -⟩ := @build_ok
    [⟨ascii "a1:", .allow, .deny⟩, ⟨ascii "b", .deny, .allow⟩] ⟨.allow, .deny⟩
    (by decide) (by decide)
  exact ⟨table₁, table₂, h₁, h₂,
    (fingerprintInput_eq_iff h₁ h₂).2.1 rfl (List.Perm.swap _ _ _)⟩

/-! ## §2  The hash and its digits -/

/-- The multiplier is odd: it has an inverse modulo 2^64. -/
theorem fnvPrime_inverse : (1099511628211 : UInt64) * 14886173955864302971 = 1 := by
  decide

theorem mul_fnvPrime_injective : Injective fun value : UInt64 => value * 1099511628211 := by
  intro a b h
  have hinverse := congrArg (· * (14886173955864302971 : UInt64)) h
  simpa only [UInt64.mul_assoc, fnvPrime_inverse, UInt64.mul_one] using hinverse

theorem fnvStep_injective (byte : UInt8) :
    Injective fun value : UInt64 => (value ^^^ byte.toUInt64) * 1099511628211 := by
  intro a b h
  exact (UInt64.xor_left_inj _).mp (mul_fnvPrime_injective h)

theorem fnvStep_symbol_injective (value : UInt64) :
    Injective fun byte : UInt8 => (value ^^^ byte.toUInt64) * 1099511628211 := by
  intro a b h
  have hbyte := (UInt64.xor_right_inj value).mp (mul_fnvPrime_injective h)
  simpa using congrArg UInt64.toUInt8 hbyte

/-- One byte exchanged anywhere changes the hash. -/
theorem fnv1a_exchange_ne {a b : UInt8} (hne : a ≠ b) (before after : Bytes) :
    fnv1a (before ++ a :: after) ≠ fnv1a (before ++ b :: after) :=
  foldl_exchange_ne fnvStep_injective fnvStep_symbol_injective hne before after _

theorem nibble_toNat (value : UInt64) : (value &&& 0x0F).toNat = value.toNat % 16 := by
  rw [UInt64.toNat_and]
  exact Nat.and_two_pow_sub_one_eq_mod value.toNat 4

theorem hexDigit_nibble_injective {v w : UInt64}
    (h : hexDigit (v &&& 0x0F) = hexDigit (w &&& 0x0F)) :
    v.toNat % 16 = w.toNat % 16 := by
  have hcases : ∀ a b : Fin 16, hexDigit (UInt64.ofNat a) = hexDigit (UInt64.ofNat b) →
      a = b := by decide
  have hread : ∀ u : UInt64, u &&& 0x0F = UInt64.ofNat (u.toNat % 16) := fun u => by
    rw [← nibble_toNat, UInt64.ofNat_toNat]
  rw [hread v, hread w] at h
  exact Fin.mk.inj_iff.mp (hcases ⟨_, Nat.mod_lt _ (by omega)⟩ ⟨_, Nat.mod_lt _ (by omega)⟩ h)

theorem hexDigits_inj {n : Nat} {v w : UInt64} (h : hexDigits n v = hexDigits n w) :
    v.toNat % 16 ^ n = w.toNat % 16 ^ n := by
  induction n generalizing v w with
  | zero => rw [pow_zero, Nat.mod_one, Nat.mod_one]
  | succ n ih =>
      obtain ⟨hhigh, hlow⟩ := List.append_inj' h rfl
      have hnibble := hexDigit_nibble_injective (List.cons.inj hlow).1
      have hshift : ∀ u : UInt64, (u >>> 4).toNat = u.toNat / 16 := fun u => by
        rw [UInt64.toNat_shiftRight, Nat.shiftRight_eq_div_pow]
        rfl
      have hrest := ih hhigh
      rw [hshift, hshift] at hrest
      rw [pow_succ', Nat.mod_mul, Nat.mod_mul, hnibble, hrest]

/-- The sixteen digits tell all values apart. -/
theorem hexDigits_injective : Injective (hexDigits 16) := by
  intro v w h
  have hmod := hexDigits_inj h
  have hv := v.toNat_lt
  have hw := w.toNat_lt
  apply UInt64.toNat_inj.mp
  omega

theorem fingerprint_ne_of_fnv1a_ne {table₁ table₂ : PolicyTable}
    (h : fnv1a table₁.fingerprintInput ≠ fnv1a table₂.fingerprintInput) :
    table₁.fingerprint ≠ table₂.fingerprint :=
  fun heq => h (hexDigits_injective (List.append_cancel_left heq))

/-! ## §3  One access value -/

/-- The places of a table that hold an access value. -/
inductive AccessPlace where
  | defaultVisible
  | defaultCallable
  | visible (name : Bytes)
  | callable (name : Bytes)
deriving DecidableEq

def accessAt (table : PolicyTable) : AccessPlace → Option Access
  | .defaultVisible => some table.defaults.visible
  | .defaultCallable => some table.defaults.callable
  | .visible name => (table.find name).map ToolRule.visible
  | .callable name => (table.find name).map ToolRule.callable

def names (table : PolicyTable) : List Bytes := table.rules.map ToolRule.name

/-- The rule that decides a name. -/
def ruleFor (table : PolicyTable) (name : Bytes) : ToolRule :=
  ⟨name, table.visibilityFor name, table.invocationFor name⟩

theorem rules_eq_map (table : PolicyTable) :
    table.rules = table.names.map table.ruleFor := by
  rw [names, List.map_map]
  conv_lhs => rw [← List.map_id table.rules]
  refine List.map_congr_left fun rule hrule => ?_
  obtain ⟨hvisible, hcallable⟩ := table.lookups_of_mem hrule
  show rule = ⟨rule.name, table.visibilityFor rule.name, table.invocationFor rule.name⟩
  rw [hvisible, hcallable]

theorem accessAt_of_listed (table : PolicyTable) {name : Bytes} (h : name ∈ table.names) :
    table.accessAt (.visible name) = some (table.visibilityFor name) ∧
      table.accessAt (.callable name) = some (table.invocationFor name) := by
  obtain ⟨rule, hrule, rfl⟩ := List.mem_map.mp h
  have hfind := table.find_eq_some.mpr ⟨hrule, rfl⟩
  simp only [accessAt, visibilityFor, invocationFor, hfind, Option.map_some, and_self]

theorem accessAt_of_not_listed (table : PolicyTable) {name : Bytes}
    (h : name ∉ table.names) :
    table.accessAt (.visible name) = none ∧ table.accessAt (.callable name) = none := by
  have hfind : table.find name = none := by
    rw [table.find_eq_none]
    rintro rule hrule rfl
    exact h (List.mem_map_of_mem hrule)
  simp only [accessAt, hfind, Option.map_none, and_self]

theorem names_ascending (table : PolicyTable) : Ascending id table.names :=
  List.pairwise_map.mpr table.sorted

section exchange

variable {table₁ table₂ : PolicyTable}

theorem rules_eq_of_ruleFor (hnames : table₁.names = table₂.names)
    (hrules : ∀ name ∈ table₁.names, table₁.ruleFor name = table₂.ruleFor name) :
    table₁.rules = table₂.rules := by
  rw [rules_eq_map, rules_eq_map, ← hnames]
  exact List.map_congr_left hrules

/-- Tables that differ at one listed name are hashed from bytes that differ at its
rule. -/
theorem input_exchange (hdefaults : table₁.defaults = table₂.defaults)
    (hnames : table₁.names = table₂.names) {name : Bytes} (hmem : name ∈ table₁.names)
    (hother : ∀ other ∈ table₁.names, other ≠ name →
      table₁.ruleFor other = table₂.ruleFor other) :
    ∃ before after : Bytes,
      table₁.fingerprintInput = before ++ (ruleInput (table₁.ruleFor name) ++ after) ∧
      table₂.fingerprintInput = before ++ (ruleInput (table₂.ruleFor name) ++ after) := by
  obtain ⟨earlier, later, hsplit⟩ := List.append_of_mem hmem
  have hnodup : table₁.names.Nodup := by
    simpa using ascending_nodup id table₁.names_ascending
  rw [hsplit, List.nodup_middle, List.nodup_cons, List.mem_append, not_or] at hnodup
  have hagree : ∀ part : List Bytes, (∀ other ∈ part, other ∈ table₁.names) →
      name ∉ part → part.map table₁.ruleFor = part.map table₂.ruleFor := by
    intro part hpart hname
    refine List.map_congr_left fun other hin => hother other (hpart other hin) ?_
    rintro rfl
    exact hname hin
  have hearlier := hagree earlier (fun other h => by simp [hsplit, h]) hnodup.1.1
  have hlater := hagree later (fun other h => by simp [hsplit, h]) hnodup.1.2
  refine ⟨ascii "mng-effective-policy-v1" ++
    ([accessByte table₁.defaults.visible, accessByte table₁.defaults.callable] ++
      (earlier.map table₁.ruleFor).flatMap ruleInput),
    (later.map table₁.ruleFor).flatMap ruleInput, ?_, ?_⟩
  · rw [fingerprintInput, rules_eq_map, hsplit]
    simp only [List.map_append, List.map_cons, List.flatMap_append, List.flatMap_cons,
      List.append_assoc]
  · rw [fingerprintInput, rules_eq_map, ← hnames, hsplit, ← hdefaults, hearlier, hlater]
    simp only [List.map_append, List.map_cons, List.flatMap_append, List.flatMap_cons,
      List.append_assoc]

theorem visible_differs (hnames : table₁.names = table₂.names) {name : Bytes}
    (h : table₁.accessAt (.visible name) ≠ table₂.accessAt (.visible name)) :
    name ∈ table₁.names ∧ table₁.visibilityFor name ≠ table₂.visibilityFor name := by
  by_cases hname : name ∈ table₁.names
  · rw [(table₁.accessAt_of_listed hname).1,
      (table₂.accessAt_of_listed (hnames ▸ hname)).1] at h
    exact ⟨hname, fun heq => h (congrArg some heq)⟩
  · rw [(table₁.accessAt_of_not_listed hname).1,
      (table₂.accessAt_of_not_listed (hnames ▸ hname)).1] at h
    exact absurd rfl h

theorem callable_differs (hnames : table₁.names = table₂.names) {name : Bytes}
    (h : table₁.accessAt (.callable name) ≠ table₂.accessAt (.callable name)) :
    name ∈ table₁.names ∧ table₁.invocationFor name ≠ table₂.invocationFor name := by
  by_cases hname : name ∈ table₁.names
  · rw [(table₁.accessAt_of_listed hname).2,
      (table₂.accessAt_of_listed (hnames ▸ hname)).2] at h
    exact ⟨hname, fun heq => h (congrArg some heq)⟩
  · rw [(table₁.accessAt_of_not_listed hname).2,
      (table₂.accessAt_of_not_listed (hnames ▸ hname)).2] at h
    exact absurd rfl h

/-- A rule whose visibility alone, or whose invocation alone, is exchanged changes
the hash of the bytes around it. -/
theorem fnv1a_rule_ne {name : Bytes} {v v' c c' : Access}
    (h : v ≠ v' ∧ c = c' ∨ v = v' ∧ c ≠ c') (before after : Bytes) :
    fnv1a (before ++ (ruleInput ⟨name, v, c⟩ ++ after)) ≠
      fnv1a (before ++ (ruleInput ⟨name, v', c'⟩ ++ after)) := by
  rcases h with ⟨hne, rfl⟩ | ⟨rfl, hne⟩
  · have hbyte := fnv1a_exchange_ne (accessByte_injective.ne hne)
      (before ++ (decimal name.length ++ (ascii ":" ++ name))) (accessByte c :: after)
    simpa only [ruleInput, List.append_assoc, List.cons_append, List.nil_append] using hbyte
  · have hbyte := fnv1a_exchange_ne (accessByte_injective.ne hne)
      (before ++ (decimal name.length ++ (ascii ":" ++ (name ++ [accessByte v])))) after
    simpa only [ruleInput, List.append_assoc, List.cons_append, List.nil_append] using hbyte

/-- Tables built from rules of the same names list the same names. -/
theorem names_eq_of_build {rules₁ rules₂ : List ToolRule} {defaults₁ defaults₂ : PolicyDefaults}
    (h₁ : build rules₁ defaults₁ = .ok table₁) (h₂ : build rules₂ defaults₂ = .ok table₂)
    (hnames : ∀ name, name ∈ rules₁.map ToolRule.name ↔ name ∈ rules₂.map ToolRule.name) :
    table₁.names = table₂.names := by
  refine table₁.names_ascending.ext id table₂.names_ascending fun name => ?_
  obtain ⟨-, -, hrules₁, -⟩ := build_eq_ok h₁
  obtain ⟨-, -, hrules₂, -⟩ := build_eq_ok h₂
  rw [names, names, hrules₁, hrules₂, ((sortOn_perm _ rules₁).map _).mem_iff,
    ((sortOn_perm _ rules₂).map _).mem_iff]
  exact hnames name

section elsewhere

variable {place : AccessPlace}
  (hsame : ∀ other, other ≠ place → table₁.accessAt other = table₂.accessAt other)
include hsame

theorem visibilityFor_elsewhere (hnames : table₁.names = table₂.names) {name : Bytes}
    (hname : name ∈ table₁.names) (hplace : .visible name ≠ place) :
    table₁.visibilityFor name = table₂.visibilityFor name := by
  have heq := hsame _ hplace
  rwa [(table₁.accessAt_of_listed hname).1, (table₂.accessAt_of_listed (hnames ▸ hname)).1,
    Option.some.injEq] at heq

theorem invocationFor_elsewhere (hnames : table₁.names = table₂.names) {name : Bytes}
    (hname : name ∈ table₁.names) (hplace : .callable name ≠ place) :
    table₁.invocationFor name = table₂.invocationFor name := by
  have heq := hsame _ hplace
  rwa [(table₁.accessAt_of_listed hname).2, (table₂.accessAt_of_listed (hnames ▸ hname)).2,
    Option.some.injEq] at heq

theorem ruleFor_elsewhere (hnames : table₁.names = table₂.names) {name : Bytes}
    (hname : name ∈ table₁.names) (hvisible : .visible name ≠ place)
    (hcallable : .callable name ≠ place) : table₁.ruleFor name = table₂.ruleFor name := by
  unfold ruleFor
  rw [visibilityFor_elsewhere hsame hnames hname hvisible,
    invocationFor_elsewhere hsame hnames hname hcallable]

theorem defaultVisible_elsewhere (hplace : .defaultVisible ≠ place) :
    table₁.defaults.visible = table₂.defaults.visible :=
  Option.some.inj (hsame _ hplace)

theorem defaultCallable_elsewhere (hplace : .defaultCallable ≠ place) :
    table₁.defaults.callable = table₂.defaults.callable :=
  Option.some.inj (hsame _ hplace)

theorem defaults_elsewhere (hvisible : .defaultVisible ≠ place)
    (hcallable : .defaultCallable ≠ place) : table₁.defaults = table₂.defaults := by
  have hpair : ∀ d e : PolicyDefaults, d.visible = e.visible → d.callable = e.callable →
      d = e := by rintro ⟨_, _⟩ ⟨_, _⟩ rfl rfl; rfl
  exact hpair _ _ (defaultVisible_elsewhere hsame hvisible)
    (defaultCallable_elsewhere hsame hcallable)

end elsewhere

end exchange

/-- Built tables with the same names that differ in exactly one access value have
different fingerprints. -/
theorem fingerprint_ne_of_one_access {rules₁ rules₂ : List ToolRule}
    {defaults₁ defaults₂ : PolicyDefaults} {table₁ table₂ : PolicyTable}
    (h₁ : build rules₁ defaults₁ = .ok table₁) (h₂ : build rules₂ defaults₂ = .ok table₂)
    (hnames : ∀ name, name ∈ rules₁.map ToolRule.name ↔ name ∈ rules₂.map ToolRule.name)
    (place : AccessPlace) (hdiffer : table₁.accessAt place ≠ table₂.accessAt place)
    (hsame : ∀ other, other ≠ place → table₁.accessAt other = table₂.accessAt other) :
    table₁.fingerprint ≠ table₂.fingerprint := by
  have hnames := names_eq_of_build h₁ h₂ hnames
  apply fingerprint_ne_of_fnv1a_ne
  cases place with
  | defaultVisible =>
      have hrules := rules_eq_of_ruleFor hnames fun name hname =>
        ruleFor_elsewhere hsame hnames hname (by simp) (by simp)
      have hne : table₁.defaults.visible ≠ table₂.defaults.visible := fun h =>
        hdiffer (congrArg some h)
      unfold fingerprintInput
      rw [hrules, defaultCallable_elsewhere hsame (by simp)]
      exact fnv1a_exchange_ne (accessByte_injective.ne hne) _ _
  | defaultCallable =>
      have hrules := rules_eq_of_ruleFor hnames fun name hname =>
        ruleFor_elsewhere hsame hnames hname (by simp) (by simp)
      have hne : table₁.defaults.callable ≠ table₂.defaults.callable := fun h =>
        hdiffer (congrArg some h)
      unfold fingerprintInput
      rw [hrules, defaultVisible_elsewhere hsame (by simp)]
      have hbyte := fnv1a_exchange_ne (accessByte_injective.ne hne)
        (ascii "mng-effective-policy-v1" ++ [accessByte table₂.defaults.visible])
        (table₂.rules.flatMap ruleInput)
      simpa only [List.append_assoc, List.cons_append, List.nil_append] using hbyte
  | visible name =>
      obtain ⟨hname, hne⟩ := visible_differs hnames hdiffer
      have hdefaults := defaults_elsewhere hsame (by simp) (by simp)
      have hcallable := invocationFor_elsewhere hsame hnames hname (by simp)
      obtain ⟨before, after, hinput₁, hinput₂⟩ :=
        input_exchange hdefaults hnames hname fun other hother hne =>
          ruleFor_elsewhere hsame hnames hother (by simpa using hne) (by simp)
      rw [hinput₁, hinput₂]
      exact fnv1a_rule_ne (Or.inl ⟨hne, hcallable⟩) before after
  | callable name =>
      obtain ⟨hname, hne⟩ := callable_differs hnames hdiffer
      have hdefaults := defaults_elsewhere hsame (by simp) (by simp)
      have hvisible := visibilityFor_elsewhere hsame hnames hname (by simp)
      obtain ⟨before, after, hinput₁, hinput₂⟩ :=
        input_exchange hdefaults hnames hname fun other hother hne =>
          ruleFor_elsewhere hsame hnames hother (by simp) (by simpa using hne)
      rw [hinput₁, hinput₂]
      exact fnv1a_rule_ne (Or.inr ⟨hvisible, hne⟩) before after

theorem fingerprint_ne_of_one_access_example :
    ∃ table₁ table₂ : PolicyTable,
      build [⟨ascii "b", .deny, .allow⟩] ⟨.allow, .deny⟩ = .ok table₁ ∧
      build [⟨ascii "b", .deny, .deny⟩] ⟨.allow, .deny⟩ = .ok table₂ ∧
      table₁.fingerprint ≠ table₂.fingerprint := by
  obtain ⟨table₁, h₁, hrules₁, hdefaults₁⟩ :=
    @build_ok [⟨ascii "b", .deny, .allow⟩] ⟨.allow, .deny⟩ (by decide) (by decide)
  obtain ⟨table₂, h₂, hrules₂, hdefaults₂⟩ :=
    @build_ok [⟨ascii "b", .deny, .deny⟩] ⟨.allow, .deny⟩ (by decide) (by decide)
  have hfind₁ : ∀ name, table₁.find name =
      if ascii "b" = name then some ⟨ascii "b", .deny, .allow⟩ else none := fun name => by
    by_cases hname : ascii "b" = name
    · rw [if_pos hname, find_eq_some, hrules₁]
      exact ⟨List.mem_singleton_self _, hname⟩
    · rw [if_neg hname, find_eq_none, hrules₁]
      exact List.forall_mem_singleton.mpr hname
  have hfind₂ : ∀ name, table₂.find name =
      if ascii "b" = name then some ⟨ascii "b", .deny, .deny⟩ else none := fun name => by
    by_cases hname : ascii "b" = name
    · rw [if_pos hname, find_eq_some, hrules₂]
      exact ⟨List.mem_singleton_self _, hname⟩
    · rw [if_neg hname, find_eq_none, hrules₂]
      exact List.forall_mem_singleton.mpr hname
  refine ⟨table₁, table₂, h₁, h₂, fingerprint_ne_of_one_access h₁ h₂ (fun _ => Iff.rfl)
    (.callable (ascii "b")) ?_ ?_⟩
  · simp [accessAt, hfind₁, hfind₂]
  · intro other hother
    cases other with
    | defaultVisible => simp [accessAt, hdefaults₁, hdefaults₂]
    | defaultCallable => simp [accessAt, hdefaults₁, hdefaults₂]
    | visible name =>
        by_cases hname : ascii "b" = name <;> simp [accessAt, hfind₁, hfind₂, hname]
    | callable name =>
        have hname : ascii "b" ≠ name := by
          rintro rfl
          exact hother rfl
        simp [accessAt, hfind₁, hfind₂, hname]

end PolicyTable

end NativeGuard.Security

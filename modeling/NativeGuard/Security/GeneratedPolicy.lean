import NativeGuard.Data.Decimal
import NativeGuard.Security.PolicyGenerator

/-!
# Generated policies and the loader

What the generator writes is the text of a tree (`policyJson_render`), whose
size and depth stay below the loader's own limits for every list of names that
the generator lets through. The loader then reads the rules back off the tree,
and the table built from them allows the listed names and no others
(`generated_policy_loads`).
-/

namespace NativeGuard.Security.PolicyGenerator

open Json Json.Scan Protocol Data PolicyLoader

/-! ## §1  The written tree -/

def plainKey (key : Bytes) (h : key.all isPlainByte = true) (v : Value) : Member Value :=
  .compact (plainString key h) v

def denyText : Value := .str (plainString (ascii "deny") (.refl true))

def allowText : Value := .str (plainString (ascii "allow") (.refl true))

def defaultsMembers : List (Member Value) :=
  [plainKey (ascii "visibility") (.refl true) denyText,
    plainKey (ascii "invocation") (.refl true) denyText]

def ruleMembers (name : StringText) : List (Member Value) :=
  [plainKey (ascii "name") (.refl true) (.str name),
    plainKey (ascii "visibility") (.refl true) allowText,
    plainKey (ascii "invocation") (.refl true) allowText]

def ruleTree (name : StringText) : Value := .obj noGap (ruleMembers name)

def toolsTree (names : List StringText) : Value :=
  .arr noGap ((names.map ruleTree).map Element.compact)

def policyMembers (names : List StringText) : List (Member Value) :=
  [plainKey (ascii "version") (.refl true) (.num (numberText 1)),
    plainKey (ascii "defaults") (.refl true) (.obj noGap defaultsMembers),
    plainKey (ascii "tools") (.refl true) (toolsTree names)]

def policyTree (names : List StringText) : Value := .obj noGap (policyMembers names)

theorem ruleJson_render {name : StringText} (h : 0x5C ∉ name.val) :
    ruleJson (allowRule name.val) = (ruleTree name).render := by
  have hopen : ascii "\x7b\"name\":" = 0x7B :: 0x22 :: (ascii "name" ++ [0x22, 0x3A]) := by
    decide
  have hclose : ascii ",\"visibility\":\"allow\",\"invocation\":\"allow\"\x7d" =
      0x2C :: 0x22 :: (ascii "visibility" ++ 0x22 :: 0x3A :: 0x22 :: (ascii "allow" ++
        0x22 :: 0x2C :: 0x22 :: (ascii "invocation" ++ 0x22 :: 0x3A :: 0x22 ::
          (ascii "allow" ++ [0x22, 0x7D])))) := by decide
  unfold ruleJson allowRule
  rw [jsonString_plain h, hopen, hclose]
  simp [ruleTree, ruleMembers, plainKey, allowText, Value.render, renderMembers_open,
    openMembers, plainString]

theorem policyJson_render {names : List StringText} (h : ∀ name ∈ names, 0x5C ∉ name.val) :
    policyJson (names.map fun name => allowRule name.val) = (policyTree names).render := by
  have hversion : ascii "\x7b\"version\":1,\"defaults\":\x7b\"visibility\":\"deny\"," =
      0x7B :: 0x22 :: (ascii "version" ++ 0x22 :: 0x3A :: 0x31 :: 0x2C :: 0x22 ::
        (ascii "defaults" ++ 0x22 :: 0x3A :: 0x7B :: 0x22 :: (ascii "visibility" ++
          0x22 :: 0x3A :: 0x22 :: (ascii "deny" ++ [0x22, 0x2C])))) := by decide
  have hdefaults : ascii "\"invocation\":\"deny\"\x7d,\"tools\":[" =
      0x22 :: (ascii "invocation" ++ 0x22 :: 0x3A :: 0x22 :: (ascii "deny" ++ 0x22 ::
        0x7D :: 0x2C :: 0x22 :: (ascii "tools" ++ [0x22, 0x3A, 0x5B]))) := by decide
  have hclose : ascii "]\x7d" = [0x5D, 0x7D] := by decide
  have hnumber : (numberText 1).val = [0x31] := by simp [numberText, toChars, decimal, digitByte]
  have hrules : (names.map fun name => allowRule name.val).map ruleJson =
      (names.map ruleTree).map Value.render := by
    rw [List.map_map, List.map_map]
    apply List.map_congr_left
    intro name hname
    exact ruleJson_render (h name hname)
  have htools : (toolsTree names).render =
      0x5B :: (List.intercalate [0x2C] ((names.map ruleTree).map Value.render) ++ [0x5D]) :=
    render_arr_compact _
  unfold policyJson
  rw [hversion, hdefaults, hclose, hrules]
  simp [policyTree, policyMembers, plainKey, defaultsMembers, denyText, Value.render,
    renderMembers_open, openMembers, plainString, hnumber, htools]

/-! ## §2  What the loader makes of it -/

theorem plainKey_unescaped (key : Bytes) (h : key.all isPlainByte = true) (v : Value) :
    0x5C ∉ (plainKey key h v).key.val :=
  plainString_unescaped key h

theorem isDefaults_written : IsDefaults (.obj noGap defaultsMembers) := by
  refine ⟨noGap, defaultsMembers, rfl, ?_, ?_, ?_⟩
  · simp only [defaultsMembers, List.forall_mem_cons]
    exact ⟨plainKey_unescaped _ _ _, plainKey_unescaped _ _ _,
      fun _ h => absurd h List.not_mem_nil⟩
  · exact ⟨denyText, rfl, Or.inr ⟨_, rfl, rfl⟩⟩
  · exact ⟨denyText, rfl, Or.inr ⟨_, rfl, rfl⟩⟩

theorem isRule_written {name : StringText} (hescape : 0x5C ∉ name.val)
    (hempty : name.val ≠ []) : IsRule (ruleTree name) := by
  refine ⟨noGap, ruleMembers name, rfl, ?_, ?_, ?_, ?_⟩
  · simp only [ruleMembers, List.forall_mem_cons]
    exact ⟨plainKey_unescaped _ _ _, plainKey_unescaped _ _ _, plainKey_unescaped _ _ _,
      fun _ h => absurd h List.not_mem_nil⟩
  · exact ⟨.str name, rfl, name, rfl, hescape, hempty⟩
  · exact ⟨allowText, rfl, Or.inl ⟨_, rfl, rfl⟩⟩
  · exact ⟨allowText, rfl, Or.inl ⟨_, rfl, rfl⟩⟩

theorem isPolicy_written {names : List StringText}
    (h : ∀ name ∈ names, 0x5C ∉ name.val ∧ name.val ≠ []) : IsPolicy (policyMembers names) := by
  have htools : valuesAt (ascii "tools") (policyMembers names) = [toolsTree names] := rfl
  refine ⟨?_, ⟨numberText 1, rfl, ?_⟩, ⟨_, rfl, isDefaults_written⟩, ?_, ?_⟩
  · simp only [policyMembers, List.forall_mem_cons]
    exact ⟨plainKey_unescaped _ _ _, plainKey_unescaped _ _ _, plainKey_unescaped _ _ _,
      fun _ h => absurd h List.not_mem_nil⟩
  · simp [numberText, toChars, decimal, digitByte]
    decide
  · rw [htools]
    exact le_refl 1
  · intro v hv
    rw [htools, List.mem_singleton] at hv
    rw [hv]
    refine ⟨noGap, _, rfl, ?_⟩
    intro e he
    obtain ⟨tree, htree, rfl⟩ := List.mem_map.mp he
    obtain ⟨name, hname, rfl⟩ := List.mem_map.mp htree
    exact isRule_written (h name hname).1 (h name hname).2

theorem policyRules_written (names : List StringText) :
    policyRules (policyMembers names) = names.map fun name => allowRule name.val := by
  have htools : valuesAt (ascii "tools") (policyMembers names) = [toolsTree names] := rfl
  rw [policyRules, htools, List.flatMap_singleton, rulesOf, toolsTree, elementsOf,
    List.map_map, List.map_map]
  rfl

theorem policyDefaults_written (names : List StringText) :
    policyDefaults (policyMembers names) = ⟨.deny, .deny⟩ := rfl

theorem depth_written (names : List StringText) : (policyTree names).depth ≤ 3 := by
  have hrule : ∀ e ∈ (names.map ruleTree).map Element.compact, e.value.depth ≤ 1 := by
    intro e he
    obtain ⟨tree, htree, rfl⟩ := List.mem_map.mp he
    obtain ⟨name, -, rfl⟩ := List.mem_map.mp htree
    exact le_refl 1
  have htools : (toolsTree names).depth ≤ 2 := depth_arr_le.mpr fun e he => by
    have hle := hrule e he
    omega
  apply depth_obj_le.mpr
  simp only [policyMembers, List.forall_mem_cons]
  refine ⟨Nat.zero_le _, ?_, htools, fun _ h => absurd h List.not_mem_nil⟩
  show 1 + max 0 (max 0 0) ≤ 2
  decide

/-! ## §3  The size -/

theorem ruleJson_length {name : StringText} (hescape : 0x5C ∉ name.val)
    (hlength : name.val.length ≤ 256) : (ruleJson (allowRule name.val)).length ≤ 309 := by
  have hlengths : (ascii "\x7b\"name\":").length = 8 ∧
      (ascii ",\"visibility\":\"allow\",\"invocation\":\"allow\"\x7d").length = 43 := by
    decide
  unfold ruleJson allowRule
  rw [List.length_append, List.length_append, jsonString_length hescape, hlengths.1,
    hlengths.2]
  omega

/-- The longest names, and as many as an inventory may list, fit the loader's file. -/
theorem policyJson_length {names : List StringText} (hcount : names.length ≤ 256)
    (h : ∀ name ∈ names, 0x5C ∉ name.val ∧ name.val.length ≤ 256) :
    (policyJson (names.map fun name => allowRule name.val)).length + 1 ≤ 256 * 1024 := by
  have hlengths : (ascii "\x7b\"version\":1,\"defaults\":\x7b\"visibility\":\"deny\",").length =
        45 ∧ (ascii "\"invocation\":\"deny\"\x7d,\"tools\":[").length = 30 ∧
      (ascii "]\x7d").length = 2 := by decide
  have hrules := @intercalate_length_le
    ((names.map fun name => allowRule name.val).map ruleJson) 309 fun text htext => by
      obtain ⟨rule, hrule, rfl⟩ := List.mem_map.mp htext
      obtain ⟨name, hname, rfl⟩ := List.mem_map.mp hrule
      exact ruleJson_length (h name hname).1 (h name hname).2
  rw [List.length_map, List.length_map] at hrules
  unfold policyJson
  simp only [List.length_append, hlengths]
  omega

/-! ## §4  The round trip -/

/-- Rules that are all allow rules of checked names, as the names. -/
theorem names_of_rules {P : StringText → Prop} {rules : List ToolRule}
    (h : ∀ rule ∈ rules, ∃ name : StringText, rule = allowRule name.val ∧ P name) :
    ∃ names : List StringText, rules = names.map (fun name => allowRule name.val) ∧
      ∀ name ∈ names, P name := by
  induction rules with
  | nil => exact ⟨[], rfl, fun _ h => absurd h List.not_mem_nil⟩
  | cons rule rules ih =>
      obtain ⟨name, hname, hP⟩ := h rule List.mem_cons_self
      obtain ⟨names, hnames, hall⟩ := ih fun r hr => h r (List.mem_cons_of_mem rule hr)
      exact ⟨name :: names, by rw [List.map_cons, ← hname, ← hnames],
        List.forall_mem_cons.mpr ⟨hP, hall⟩⟩

/-- The allow list is no longer than the inventory. -/
theorem allowList_length {limits : PolicyGeneratorLimits} {ms : List (Member Value)}
    {allowToolNames : List Bytes} (hinventory : IsInventory limits ms)
    (hallow : IsAllowList ms allowToolNames) :
    allowToolNames.length ≤ limits.maxTools := by
  obtain ⟨v, hv, htools⟩ := hinventory.tools
  have hnames : inventoryNames ms = namesOf v := by
    rw [inventoryNames, hv, List.flatMap_singleton]
  have hsubset : allowToolNames ⊆ namesOf v := fun name hname => by
    rw [← hnames]
    exact hallow.listed name hname
  have hle := (List.subperm_of_subset hallow.distinct hsubset).length_le
  have hcount := htools.count
  rw [namesOf, List.length_map] at hle
  omega

/-- The policy, with the newline behind it, is loaded and built, and allows exactly
the names of the list. -/
def LoadsAllowing (policy : Bytes) (allowToolNames : List Bytes) : Prop :=
  ∃ definition table, PolicyLoader.parse {} (policy ++ [0x0A]) = .ok definition ∧
    PolicyTable.build definition.rules definition.defaults = .ok table ∧
    ∀ n, (n ∈ allowToolNames →
        table.visibilityFor n = .allow ∧ table.invocationFor n = .allow) ∧
      (n ∉ allowToolNames →
        table.visibilityFor n = .deny ∧ table.invocationFor n = .deny)

theorem mem_sortedRules {allowToolNames : List Bytes} {rule : ToolRule} :
    rule ∈ sortedRules allowToolNames ↔ ∃ name ∈ allowToolNames, rule = allowRule name := by
  rw [sortedRules, mem_sortOn, List.mem_map]
  simp only [eq_comm]

theorem sortedRules_length (allowToolNames : List Bytes) :
    (sortedRules allowToolNames).length = allowToolNames.length := by
  rw [sortedRules, (sortOn_perm ToolRule.name (allowToolNames.map allowRule)).length_eq,
    List.length_map]

theorem sortedRules_nodup {allowToolNames : List Bytes} (h : allowToolNames.Nodup) :
    ((sortedRules allowToolNames).map ToolRule.name).Nodup := by
  have hperm := (sortOn_perm ToolRule.name (allowToolNames.map allowRule)).map ToolRule.name
  rw [map_allowRule_name] at hperm
  exact hperm.nodup_iff.mpr h

/-- The loader accepts the text of distinct names that keep to its bounds. -/
theorem policy_accepted {names : List StringText} (hcount : names.length ≤ 256)
    (hchecked : ∀ name ∈ names, 0x5C ∉ name.val ∧ name.val ≠ [] ∧ name.val.length ≤ 256)
    (hdistinct : ((names.map fun name => allowRule name.val).map ToolRule.name).Nodup) :
    Accepted {} (policyJson (names.map fun name => allowRule name.val) ++ [0x0A]) noGap
      (policyMembers names) := by
  refine ⟨?_, ⟨noGap, ⟨[0x0A], List.forall_mem_singleton.mpr (by decide)⟩, ?_⟩, ?_, ?_, ?_⟩
  · rw [List.length_append, List.length_singleton]
    exact policyJson_length hcount fun name hname =>
      ⟨(hchecked name hname).1, (hchecked name hname).2.2⟩
  · rw [policyJson_render fun name hname => (hchecked name hname).1]
    rfl
  · have hdepth := depth_written names
    show (policyTree names).depth ≤ 16
    omega
  · exact isPolicy_written fun name hname =>
      ⟨(hchecked name hname).1, (hchecked name hname).2.1⟩
  · rw [policyRules_written]
    exact hdistinct

/-- A table of allow rules under denying defaults allows exactly the names it lists. -/
theorem lookups_of_allow_rules {table : PolicyTable} {allowToolNames : List Bytes}
    (hrules : ∀ rule, rule ∈ table.rules ↔ ∃ name ∈ allowToolNames, rule = allowRule name)
    (hdefaults : table.defaults = ⟨.deny, .deny⟩) (n : Bytes) :
    (n ∈ allowToolNames → table.visibilityFor n = .allow ∧ table.invocationFor n = .allow) ∧
      (n ∉ allowToolNames →
        table.visibilityFor n = .deny ∧ table.invocationFor n = .deny) := by
  constructor
  · intro hn
    exact table.lookups_of_mem ((hrules _).mpr ⟨n, hn, rfl⟩)
  · intro hn
    have hnone : ∀ rule ∈ table.rules, rule.name ≠ n := by
      rintro rule hrule rfl
      obtain ⟨name, hname, rfl⟩ := (hrules _).mp hrule
      exact hn hname
    have hlookups := table.lookups_of_not_mem hnone
    rw [hdefaults] at hlookups
    exact hlookups

/-- An allow list of an inventory that keeps to the default bounds of names. -/
theorem allow_list_loads {limits : PolicyGeneratorLimits} {ms : List (Member Value)}
    {allowToolNames : List Bytes} (hinventory : IsInventory limits ms)
    (hallow : IsAllowList ms allowToolNames) (hmaxTools : limits.maxTools ≤ 256)
    (hmaxName : limits.maxToolNameBytes ≤ 256) :
    LoadsAllowing (policyJson (sortedRules allowToolNames)) allowToolNames := by
  obtain ⟨names, hnames, hchecked⟩ := @names_of_rules (fun name => 0x5C ∉ name.val ∧
      name.val ≠ [] ∧ name.val.length ≤ 256) (sortedRules allowToolNames) fun rule hrule => by
    obtain ⟨name, hname, rfl⟩ := mem_sortedRules.mp hrule
    obtain ⟨t, rfl, hescape, hempty, hlength⟩ :=
      hinventory.named name (hallow.listed name hname)
    exact ⟨t, rfl, hescape, hempty, hlength.trans hmaxName⟩
  have hcount : names.length ≤ 256 := by
    have hlength := congrArg List.length hnames
    rw [sortedRules_length, List.length_map] at hlength
    have hallowed := allowList_length hinventory hallow
    omega
  have hdistinct := sortedRules_nodup hallow.distinct
  -- the loader accepts the text
  have hparse := parse_ok_iff.mpr
    ⟨_, _, policy_accepted hcount hchecked (hnames ▸ hdistinct), rfl⟩
  rw [policyRules_written, policyDefaults_written, ← hnames] at hparse
  -- and the table is built from the rules it read
  have hsorted : ∀ {rule}, rule ∈ sortOn ToolRule.name (sortedRules allowToolNames) ↔
      ∃ name ∈ allowToolNames, rule = allowRule name := by
    intro rule
    rw [mem_sortOn, mem_sortedRules]
  obtain ⟨table, hbuild, hrules, hdefaults⟩ := @PolicyTable.build_ok
    (sortOn ToolRule.name (sortedRules allowToolNames)) ⟨.deny, .deny⟩
    (fun rule hrule => by
      obtain ⟨name, hname, rfl⟩ := hsorted.mp hrule
      obtain ⟨t, rfl, -, hempty, -⟩ := hinventory.named name (hallow.listed name hname)
      exact hempty)
    (((sortOn_perm ToolRule.name _).map ToolRule.name).nodup_iff.mpr hdistinct)
  have htable : ∀ rule, rule ∈ table.rules ↔
      ∃ name ∈ allowToolNames, rule = allowRule name := by
    intro rule
    rw [hrules, mem_sortOn]
    exact hsorted
  rw [hnames] at hparse ⊢
  exact ⟨_, table, hparse, hnames ▸ hbuild, lookups_of_allow_rules htable hdefaults⟩

/-- A generated policy, with the newline behind it, is loaded and built, and
allows exactly the names of the list. -/
theorem generated_policy_loads {inventoryJson : Bytes} {allowToolNames : List Bytes}
    {text : Bytes}
    (h : generatePolicyFromInventory {} inventoryJson allowToolNames = .ok text) :
    ∃ definition table, PolicyLoader.parse {} (text ++ [0x0A]) = .ok definition ∧
      PolicyTable.build definition.rules definition.defaults = .ok table ∧
      ∀ n, (n ∈ allowToolNames →
          table.visibilityFor n = .allow ∧ table.invocationFor n = .allow) ∧
        (n ∉ allowToolNames →
          table.visibilityFor n = .deny ∧ table.invocationFor n = .deny) := by
  obtain ⟨-, -, ms, -, -, -, -, hinventory, hallow, rfl⟩ := generate_ok.mp h
  exact allow_list_loads hinventory hallow (le_refl 256) (le_refl 256)

/-- One tool, allowed. -/
theorem generated_policy_loads_example :
    ∃ definition table, PolicyLoader.parse {} (policyJson [allowRule (ascii "x")] ++ [0x0A]) =
        .ok definition ∧
      PolicyTable.build definition.rules definition.defaults = .ok table ∧
      ∀ n, (n ∈ [ascii "x"] →
          table.visibilityFor n = .allow ∧ table.invocationFor n = .allow) ∧
        (n ∉ [ascii "x"] →
          table.visibilityFor n = .deny ∧ table.invocationFor n = .deny) := by
  have h : generatePolicyFromInventory {} (ascii
      "\x7b\"inventory_version\":1,\"server\":\x7b\x7d,\"tools\":[\x7b\"name\":\"x\"\x7d]\x7d")
      [ascii "x"] = .ok (policyJson [allowRule (ascii "x")]) := by
    decide +kernel
  exact generated_policy_loads h

end NativeGuard.Security.PolicyGenerator

import NativeGuard.Security.PolicyLoader

/-!
# The effective policy

`apply_deny_overrides` and the policy assembly of `run_child`: load the text if
there is one, deny the tools named on the command line, build the table. What
the table decides is read off the text and the set of denied names
(`assemble_ok`); the order of either does not reach the table, because its
rules are the sorted list of one set (`rules_determined`).
-/

namespace NativeGuard.Security

open Json Protocol Data PolicyLoader

/-! ## §1  The assembly -/

def denied (toolName : Bytes) : ToolRule := ⟨toolName, .deny, .deny⟩

/-- One turn of the loop over the denied names: `std::find_if`, then the edit
or the append. -/
def denyTool (deniedName : Bytes) : List ToolRule → List ToolRule
  | [] => [denied deniedName]
  | rule :: rules =>
      if rule.name = deniedName then
        { rule with visible := .deny, callable := .deny } :: rules
      else rule :: denyTool deniedName rules

def applyDenyOverrides (deniedTools : List Bytes) (policy : PolicyDefinition) :
    PolicyDefinition :=
  { policy with
    rules := deniedTools.foldl (fun rules deniedName => denyTool deniedName rules)
      policy.rules }

inductive AssemblyError where
  | load (failure : PolicyLoadFailure)
  | build (status : Status)

/-- Without a policy file everything is allowed. -/
def loadPolicy (config : Config) : Option Bytes → Except PolicyLoadFailure PolicyDefinition
  | none => .ok { defaults := ⟨.allow, .allow⟩ }
  | some text => parse config text

/-- The part of `run_child` between the command line and the policy table. -/
def assemblePolicy (config : Config) (policyText : Option Bytes)
    (deniedTools : List Bytes) : Except AssemblyError PolicyTable := do
  let definition ← (loadPolicy config policyText).mapError .load
  let definition := applyDenyOverrides deniedTools definition
  (PolicyTable.build definition.rules definition.defaults).mapError .build

/-! ## §2  The overrides -/

theorem denyTool_eq_upsert (deniedName : Bytes) (rules : List ToolRule) :
    denyTool deniedName rules = upsert ToolRule.name (denied deniedName) rules := by
  induction rules with
  | nil => rfl
  | cons rule rules ih =>
      unfold denyTool upsert
      by_cases h : rule.name = deniedName
      · rw [if_pos h, if_pos (show rule.name = (denied deniedName).name from h), ← h]
        rfl
      · rw [if_neg h, if_neg (show rule.name ≠ (denied deniedName).name from h), ih]

theorem nodup_overrides {rules : List ToolRule}
    (h : (rules.map ToolRule.name).Nodup) (deniedTools : List Bytes) :
    ((deniedTools.foldl (fun rules n => denyTool n rules) rules).map
      ToolRule.name).Nodup := by
  induction deniedTools generalizing rules with
  | nil => exact h
  | cons n deniedTools ih =>
      apply ih
      show ((denyTool n rules).map ToolRule.name).Nodup
      rw [denyTool_eq_upsert]
      exact nodup_upsert ToolRule.name h _

/-- The overrides keep the rules of other names and deny every listed one. -/
theorem mem_overrides {rules : List ToolRule} (h : (rules.map ToolRule.name).Nodup)
    (deniedTools : List Bytes) (rule : ToolRule) :
    rule ∈ deniedTools.foldl (fun rules n => denyTool n rules) rules ↔
      (rule ∈ rules ∧ rule.name ∉ deniedTools) ∨
        ∃ n ∈ deniedTools, rule = denied n := by
  induction deniedTools generalizing rules with
  | nil => simp
  | cons n deniedTools ih =>
      have hnodup : ((denyTool n rules).map ToolRule.name).Nodup := by
        rw [denyTool_eq_upsert]
        exact nodup_upsert ToolRule.name h _
      rw [List.foldl_cons, ih hnodup, denyTool_eq_upsert, mem_upsert ToolRule.name h]
      have hname : (denied n).name = n := rfl
      constructor
      · rintro (⟨rfl | ⟨hrule, hne⟩, hlist⟩ | ⟨n', hn', rfl⟩)
        · exact Or.inr ⟨n, List.mem_cons_self, rfl⟩
        · refine Or.inl ⟨hrule, ?_⟩
          rw [List.mem_cons, not_or]
          exact ⟨hne, hlist⟩
        · exact Or.inr ⟨n', List.mem_cons_of_mem n hn', rfl⟩
      · rintro (⟨hrule, hlist⟩ | ⟨n', hn', rfl⟩)
        · rw [List.mem_cons, not_or] at hlist
          exact Or.inl ⟨Or.inr ⟨hrule, hlist.1⟩, hlist.2⟩
        · rcases List.mem_cons.mp hn' with rfl | hn'
          · by_cases hlater : n' ∈ deniedTools
            · exact Or.inr ⟨n', hlater, rfl⟩
            · exact Or.inl ⟨Or.inl rfl, hlater⟩
          · exact Or.inr ⟨n', hn', rfl⟩

/-! ## §3  What a list of rules decides -/

/-- The rule named `n`, or the defaults. -/
def decided (defaults : PolicyDefaults) (rules : List ToolRule) (n : Bytes) :
    PolicyDefaults :=
  match rules.find? fun rule => rule.name = n with
  | some rule => ⟨rule.visible, rule.callable⟩
  | none => defaults

theorem decided_of_mem {defaults : PolicyDefaults} {rules : List ToolRule}
    (h : (rules.map ToolRule.name).Nodup) {rule : ToolRule} (hrule : rule ∈ rules) :
    decided defaults rules rule.name = ⟨rule.visible, rule.callable⟩ := by
  induction rules with
  | nil => cases hrule
  | cons first rules ih =>
      simp only [List.map_cons, List.nodup_cons, List.mem_map] at h
      unfold decided
      rcases List.mem_cons.mp hrule with rfl | hrule
      · rw [List.find?_cons_of_pos (by simp)]
      · have hne : ¬ first.name = rule.name := by
          intro heq
          exact h.1 ⟨rule, hrule, heq.symm⟩
        rw [List.find?_cons_of_neg (by simpa using hne)]
        exact ih h.2 hrule

theorem decided_of_not_mem {defaults : PolicyDefaults} {rules : List ToolRule}
    {n : Bytes} (h : ∀ rule ∈ rules, rule.name ≠ n) :
    decided defaults rules n = defaults := by
  have hnone : rules.find? (fun rule => decide (rule.name = n)) = none := by
    rw [List.find?_eq_none]
    intro rule hrule
    simpa using h rule hrule
  unfold decided
  rw [hnone]

namespace PolicyTable

/-- Both lookups at once. -/
def decision (table : PolicyTable) (n : Bytes) : PolicyDefaults :=
  ⟨table.visibilityFor n, table.invocationFor n⟩

/-- A table decides as the rules that it was built from. -/
theorem decision_of_perm {table : PolicyTable} {rules : List ToolRule}
    (hperm : table.rules.Perm rules) (n : Bytes) :
    table.decision n = decided table.defaults rules n := by
  have hnodup : (rules.map ToolRule.name).Nodup :=
    (hperm.map ToolRule.name).nodup_iff.mp (ascending_nodup ToolRule.name table.sorted)
  by_cases h : ∃ rule ∈ rules, rule.name = n
  · obtain ⟨rule, hrule, rfl⟩ := h
    have hlookups := table.lookups_of_mem (hperm.mem_iff.mpr hrule)
    rw [decided_of_mem hnodup hrule, decision, hlookups.1, hlookups.2]
  · have hnone : ∀ rule ∈ rules, rule.name ≠ n := by
      intro rule hrule hname
      exact h ⟨rule, hrule, hname⟩
    have hlookups := @lookups_of_not_mem table n fun rule hrule =>
      hnone rule (hperm.mem_iff.mp hrule)
    rw [decided_of_not_mem hnone, decision, hlookups.1, hlookups.2]

end PolicyTable

/-- The overridden rules decide as the rules do, but deny the listed names. -/
theorem decided_overrides {defaults : PolicyDefaults} {rules : List ToolRule}
    (h : (rules.map ToolRule.name).Nodup) (deniedTools : List Bytes) (n : Bytes) :
    decided defaults (deniedTools.foldl (fun rules n => denyTool n rules) rules) n =
      if n ∈ deniedTools then ⟨.deny, .deny⟩ else decided defaults rules n := by
  have hnodup := nodup_overrides h deniedTools
  by_cases hn : n ∈ deniedTools
  · rw [if_pos hn]
    have hmem := (mem_overrides h deniedTools (denied n)).mpr (Or.inr ⟨n, hn, rfl⟩)
    exact decided_of_mem hnodup hmem
  · rw [if_neg hn]
    by_cases hrule : ∃ rule ∈ rules, rule.name = n
    · obtain ⟨rule, hrule, rfl⟩ := hrule
      have hmem := (mem_overrides h deniedTools rule).mpr (Or.inl ⟨hrule, hn⟩)
      rw [decided_of_mem hnodup hmem, decided_of_mem h hrule]
    · have hnone : ∀ rule ∈ rules, rule.name ≠ n := by
        intro rule hr hname
        exact hrule ⟨rule, hr, hname⟩
      have hnone' : ∀ rule ∈ deniedTools.foldl (fun rules n => denyTool n rules) rules,
          rule.name ≠ n := by
        intro rule hr
        rcases (mem_overrides h deniedTools rule).mp hr with ⟨hr, -⟩ | ⟨n', hn', rfl⟩
        · exact hnone rule hr
        · rintro rfl
          exact hn hn'
      rw [decided_of_not_mem hnone, decided_of_not_mem hnone']

/-! ## §4  Loading, overriding, building -/

theorem policyRules_named {ms : List (Member Value)} (h : IsPolicy ms) :
    ∀ rule ∈ policyRules ms, rule.name ≠ [] := by
  intro rule hrule
  obtain ⟨v, hv, hrule⟩ := List.mem_flatMap.mp hrule
  obtain ⟨gap, es, rfl, hes⟩ := h.rules v hv
  obtain ⟨e, he, rfl⟩ := List.mem_map.mp hrule
  obtain ⟨gap', tool, hobj, hmembers⟩ := hes e he
  obtain ⟨name, hname, t, rfl, -, hne⟩ := hmembers.name
  have heq : (ruleOf e.value).name = t.val := by
    rw [hobj]
    show nameAt tool = t.val
    rw [nameAt, hname]
    rfl
  rw [heq]
  exact hne

/-- Loaded rules have distinct names, none of them empty. -/
theorem loadPolicy_rules {config : Config} {policyText : Option Bytes}
    {definition : PolicyDefinition}
    (h : loadPolicy config policyText = .ok definition) :
    (definition.rules.map ToolRule.name).Nodup ∧
      ∀ rule ∈ definition.rules, rule.name ≠ [] := by
  cases policyText with
  | none =>
      cases h
      simp
  | some text =>
      obtain ⟨gap, ms, haccepted, rfl⟩ := parse_ok_iff.mp h
      have hperm := sortOn_perm ToolRule.name (policyRules ms)
      refine ⟨(hperm.map ToolRule.name).nodup_iff.mpr haccepted.distinct, ?_⟩
      intro rule hrule
      exact policyRules_named haccepted.policy rule (hperm.mem_iff.mp hrule)

/-- Once the text is loaded, the assembly succeeds, and the table lists the
overridden rules in order. -/
theorem assemble_ok {config : Config} {policyText : Option Bytes}
    {definition : PolicyDefinition}
    (hload : loadPolicy config policyText = .ok definition) {deniedTools : List Bytes}
    (hnames : ∀ n ∈ deniedTools, n ≠ []) :
    ∃ table, assemblePolicy config policyText deniedTools = .ok table ∧
      table.rules = sortOn ToolRule.name
        (deniedTools.foldl (fun rules n => denyTool n rules) definition.rules) ∧
      table.defaults = definition.defaults := by
  obtain ⟨hnodup, hnamed⟩ := loadPolicy_rules hload
  have hnamed' : ∀ rule ∈ deniedTools.foldl (fun rules n => denyTool n rules)
      definition.rules, rule.name ≠ [] := by
    intro rule hrule
    rcases (mem_overrides hnodup deniedTools rule).mp hrule with
      ⟨hrule, -⟩ | ⟨n, hn, rfl⟩
    · exact hnamed rule hrule
    · exact hnames n hn
  obtain ⟨table, hbuild, hrules, hdefaults⟩ := @PolicyTable.build_ok _
    definition.defaults hnamed' (nodup_overrides hnodup deniedTools)
  refine ⟨table, ?_, hrules, hdefaults⟩
  have hrun : assemblePolicy config policyText deniedTools =
      ((loadPolicy config policyText).mapError AssemblyError.load >>= fun definition =>
        (PolicyTable.build (applyDenyOverrides deniedTools definition).rules
          (applyDenyOverrides deniedTools definition).defaults).mapError .build) := rfl
  rw [hrun, hload]
  show (PolicyTable.build _ _).mapError AssemblyError.build = _
  rw [show PolicyTable.build (applyDenyOverrides deniedTools definition).rules
    (applyDenyOverrides deniedTools definition).defaults = .ok table from hbuild]
  rfl

theorem assemble_decision {config : Config} {policyText : Option Bytes}
    {definition : PolicyDefinition}
    (hload : loadPolicy config policyText = .ok definition) {deniedTools : List Bytes}
    (hnames : ∀ n ∈ deniedTools, n ≠ []) {table : PolicyTable}
    (h : assemblePolicy config policyText deniedTools = .ok table) (n : Bytes) :
    table.decision n = if n ∈ deniedTools then ⟨.deny, .deny⟩
      else decided definition.defaults definition.rules n := by
  obtain ⟨table', hok, hrules, hdefaults⟩ := assemble_ok hload hnames
  rw [h] at hok
  cases hok
  have hperm := sortOn_perm ToolRule.name
    (deniedTools.foldl (fun rules n => denyTool n rules) definition.rules)
  rw [← hrules] at hperm
  rw [PolicyTable.decision_of_perm hperm, hdefaults,
    decided_overrides (loadPolicy_rules hload).1]

theorem PolicyTable.eq_of_rules {table table' : PolicyTable}
    (hrules : table.rules = table'.rules) (hdefaults : table.defaults = table'.defaults) :
    table = table' := by
  cases table
  cases table'
  cases hrules
  cases hdefaults
  rfl

/-- The overridden rules as a set depend only on the set of denied names. -/
theorem rules_determined {rules : List ToolRule} (h : (rules.map ToolRule.name).Nodup)
    {deniedTools deniedTools' : List Bytes}
    (hsame : ∀ n, n ∈ deniedTools' ↔ n ∈ deniedTools) :
    sortOn ToolRule.name (deniedTools'.foldl (fun rules n => denyTool n rules) rules) =
      sortOn ToolRule.name (deniedTools.foldl (fun rules n => denyTool n rules) rules) := by
  have hnodup := nodup_overrides h deniedTools
  have hnodup' := nodup_overrides h deniedTools'
  apply sortOn_eq_of_perm ToolRule.name _ hnodup'
  rw [List.perm_ext_iff_of_nodup (List.Nodup.of_map _ hnodup')
    (List.Nodup.of_map _ hnodup)]
  intro rule
  rw [mem_overrides h, mem_overrides h]
  simp only [hsame]

/-! ## §5  The order of the entries -/

/-- The texts differ only in the order of the entries of the `tools` array. -/
def ToolsReordered (text text' : Bytes) : Prop :=
  ∃ (lead trail gap gap' : Gap) (pre post : List (Member Value)) (m : Member Value)
    (es es' : List (Element Value)), m.key.val = ascii "tools" ∧
    m.value = .arr gap' es ∧ es.Perm es' ∧
    text = lead.val ++ ((Value.obj gap (pre ++ m :: post)).render ++ trail.val) ∧
    text' = lead.val ++ ((Value.obj gap
      (pre ++ { m with value := .arr gap' es' } :: post)).render ++ trail.val)

section reordered

variable {pre post : List (Member Value)} {m : Member Value} {gap : Gap}
  {es es' : List (Element Value)}

theorem valuesAt_replaced (key : Bytes) (w : Value) :
    valuesAt key (pre ++ { m with value := w } :: post) =
      valuesAt key pre ++ ((if m.key.val = key then [w] else []) ++
        valuesAt key post) := by
  have hcons : valuesAt key ({ m with value := w } :: post) =
      if m.key.val = key then w :: valuesAt key post else valuesAt key post := rfl
  rw [valuesAt_append, hcons]
  split_ifs <;> rfl

theorem policyRules_reordered (hm : m.value = .arr gap es) (hperm : es.Perm es') :
    (policyRules (pre ++ m :: post)).Perm
      (policyRules (pre ++ { m with value := .arr gap es' } :: post)) := by
  have hsame := @valuesAt_replaced pre post m (ascii "tools") m.value
  unfold policyRules
  rw [hsame, valuesAt_replaced]
  simp only [List.flatMap_append]
  apply List.Perm.append_left
  apply List.Perm.append_right
  split
  · rw [hm]
    simp only [List.flatMap_cons, List.flatMap_nil, List.append_nil]
    exact hperm.map _
  · exact List.Perm.refl _

theorem isPolicy_reordered (hkey : m.key.val = ascii "tools")
    (hm : m.value = .arr gap es) (hperm : es.Perm es')
    (h : IsPolicy (pre ++ m :: post)) :
    IsPolicy (pre ++ { m with value := .arr gap es' } :: post) := by
  have hsame := fun key => @valuesAt_replaced pre post m key m.value
  -- only the values at `tools` have changed
  have hother : ∀ key, key ≠ ascii "tools" →
      valuesAt key (pre ++ { m with value := .arr gap es' } :: post) =
        valuesAt key (pre ++ m :: post) := by
    intro key hne
    have hmkey : m.key.val ≠ key := by
      rw [hkey]
      exact hne.symm
    rw [valuesAt_replaced, hsame, if_neg hmkey]
    rw [if_neg hmkey]
  have htools := h.tools
  have hrules := h.rules
  rw [hsame, if_pos hkey] at htools hrules
  refine ⟨?_, ?_, ?_, ?_, ?_⟩
  · intro m' hm'
    rw [List.mem_append, List.mem_cons] at hm'
    rcases hm' with hm' | rfl | hm'
    · exact h.keys m' (List.mem_append_left _ hm')
    · exact h.keys m (by simp)
    · exact h.keys m' (by simp [hm'])
  · rw [hother _ (by decide)]
    exact h.version
  · rw [hother _ (by decide)]
    exact h.defaults
  · rw [valuesAt_replaced, if_pos hkey]
    simpa using htools
  · intro v hv
    rw [valuesAt_replaced, if_pos hkey] at hv
    have hentry : IsRules (.arr gap es) := by
      rw [← hm]
      exact hrules m.value (by simp)
    obtain ⟨gap', es₀, harr, hes⟩ := hentry
    cases harr
    simp only [List.mem_append, List.mem_singleton] at hv
    rcases hv with hv | rfl | hv
    · exact hrules v (by simp [hv])
    · exact ⟨gap, es', rfl, fun e he => hes e (hperm.mem_iff.mpr he)⟩
    · exact hrules v (by simp [hv])

theorem depth_reordered {maxDepth : Nat} {gap₀ : Gap} (hm : m.value = .arr gap es)
    (hperm : es.Perm es')
    (h : (Value.obj gap₀ (pre ++ m :: post)).depth ≤ maxDepth) :
    (Value.obj gap₀ (pre ++ { m with value := .arr gap es' } :: post)).depth ≤
      maxDepth := by
  obtain ⟨limit, rfl⟩ : ∃ limit, maxDepth = limit + 1 := by
    rw [Value.depth] at h
    exact ⟨maxDepth - 1, by omega⟩
  rw [depth_obj_le] at h ⊢
  intro m' hm'
  rw [List.mem_append, List.mem_cons] at hm'
  rcases hm' with hm' | rfl | hm'
  · exact h m' (by simp [hm'])
  · have hdepth : (Value.arr gap es).depth ≤ limit := by
      rw [← hm]
      exact h m (by simp)
    have helements : elementsDepth es' ≤ elementsDepth es := by
      rw [elementsDepth_le]
      intro e he
      exact elementsDepth_le.mp (le_refl _) e (hperm.mem_iff.mpr he)
    show (Value.arr gap es').depth ≤ limit
    rw [Value.depth] at hdepth ⊢
    omega
  · exact h m' (by simp [hm'])

end reordered

/-- Reordered entries load as the same policy. -/
theorem parse_reordered {config : Config} {text text' : Bytes}
    {definition : PolicyDefinition} (h : parse config text = .ok definition)
    (hreordered : ToolsReordered text text') :
    parse config text' = .ok definition := by
  obtain ⟨lead, trail, gap, gap', pre, post, m, es, es', hkey, hm, hperm, rfl, rfl⟩ :=
    hreordered
  obtain ⟨hsize, hdepth, hpolicy, hdistinct, rfl⟩ :=
    (@parse_text config _ gap _ ⟨lead, trail, rfl⟩ _).mp h
  have hrules := @policyRules_reordered pre post m gap' es es' hm hperm
  refine (@parse_text config _ gap _ ⟨lead, trail, rfl⟩ _).mpr ⟨?_,
    depth_reordered hm hperm hdepth, isPolicy_reordered hkey hm hperm hpolicy,
    (hrules.map ToolRule.name).nodup_iff.mp hdistinct, ?_⟩
  · obtain ⟨before, after, hcontext⟩ := render_obj_context gap pre post m
    have hlength := render_arr_length_of_perm hperm gap'
    have htext := hcontext m.value
    have htext' := hcontext (.arr gap' es')
    rw [hm] at htext
    have hsame : ({ m with value := Value.arr gap' es } : Member Value) = m := by
      rw [← hm]
    rw [hsame] at htext
    rw [htext'] at *
    rw [htext] at hsize
    simp only [List.length_append] at hsize ⊢
    omega
  · have hdefaults : policyDefaults
        (pre ++ { m with value := .arr gap' es' } :: post) =
          policyDefaults (pre ++ m :: post) := by
      have hne : m.key.val ≠ ascii "defaults" := by
        rw [hkey]
        decide
      unfold policyDefaults
      rw [valuesAt_replaced, @valuesAt_replaced pre post m _ m.value, if_neg hne]
      rw [if_neg hne]
    rw [hdefaults, sortOn_eq_of_perm ToolRule.name hrules hdistinct]

/-! ## §6  The effective policy -/

/-- What the operator wrote: the defaults and the rules in the order of the
text. -/
def Describes : Option Bytes → PolicyDefaults → List ToolRule → Prop
  | none, defaults, rules => defaults = ⟨.allow, .allow⟩ ∧ rules = []
  | some text, defaults, rules => ∃ gap ms, IsText text (.obj gap ms) ∧
      defaults = policyDefaults ms ∧ rules = policyRules ms

theorem decided_of_perm {defaults : PolicyDefaults} {rules rules' : List ToolRule}
    (hperm : rules.Perm rules') (h : (rules.map ToolRule.name).Nodup) (n : Bytes) :
    decided defaults rules n = decided defaults rules' n := by
  have h' := (hperm.map ToolRule.name).nodup_iff.mp h
  by_cases hn : ∃ rule ∈ rules, rule.name = n
  · obtain ⟨rule, hrule, rfl⟩ := hn
    rw [decided_of_mem h hrule, decided_of_mem h' (hperm.mem_iff.mp hrule)]
  · have hnone : ∀ rule ∈ rules, rule.name ≠ n := by
      intro rule hrule hname
      exact hn ⟨rule, hrule, hname⟩
    rw [decided_of_not_mem hnone,
      decided_of_not_mem fun rule hrule => hnone rule (hperm.mem_iff.mpr hrule)]

/-- A loaded policy decides as its text says, whichever tree of it is read. -/
theorem describes_load {config : Config} {policyText : Option Bytes}
    {definition : PolicyDefinition}
    (hload : loadPolicy config policyText = .ok definition) :
    (∃ defaults rules, Describes policyText defaults rules) ∧
      ∀ defaults rules, Describes policyText defaults rules → ∀ n,
        decided definition.defaults definition.rules n = decided defaults rules n := by
  cases policyText with
  | none =>
      cases hload
      refine ⟨⟨_, _, rfl, rfl⟩, ?_⟩
      rintro defaults rules ⟨rfl, rfl⟩ n
      rfl
  | some text =>
      refine ⟨?_, ?_⟩
      · obtain ⟨gap, ms, htext⟩ := parse_sound hload
        exact ⟨_, _, gap, ms, htext, rfl, rfl⟩
      · rintro defaults rules ⟨gap, ms, htext, rfl, rfl⟩ n
        obtain ⟨-, -, -, hdistinct, rfl⟩ := (parse_text htext).mp hload
        have hperm := sortOn_perm ToolRule.name (policyRules ms)
        exact decided_of_perm hperm
          ((hperm.map ToolRule.name).nodup_iff.mpr hdistinct) n

/-- The assembled table denies the listed names and decides every other as the
text says. It is the same for every order of the entries and for every list of
the same denied names, and a longer list never turns a deny into an allow. -/
theorem effective_policy {config : Config} {policyText : Option Bytes}
    {definition : PolicyDefinition}
    (hload : loadPolicy config policyText = .ok definition) {deniedTools : List Bytes}
    (hnames : ∀ n ∈ deniedTools, n ≠ []) :
    ∃ table, assemblePolicy config policyText deniedTools = .ok table ∧
      (∃ defaults rules, Describes policyText defaults rules) ∧
      (∀ defaults rules, Describes policyText defaults rules → ∀ n,
        (⟨table.visibilityFor n, table.invocationFor n⟩ : PolicyDefaults) =
          if n ∈ deniedTools then ⟨.deny, .deny⟩ else decided defaults rules n) ∧
      (∀ text text', policyText = some text → ToolsReordered text text' →
        assemblePolicy config (some text') deniedTools = .ok table) ∧
      (∀ deniedTools', (∀ n, n ∈ deniedTools' ↔ n ∈ deniedTools) →
        assemblePolicy config policyText deniedTools' = .ok table) ∧
      ∀ deniedTools', (∀ n ∈ deniedTools', n ≠ []) →
        (∀ n ∈ deniedTools, n ∈ deniedTools') →
        ∃ table', assemblePolicy config policyText deniedTools' = .ok table' ∧
          ∀ n, (table.visibilityFor n = .deny → table'.visibilityFor n = .deny) ∧
            (table.invocationFor n = .deny → table'.invocationFor n = .deny) := by
  obtain ⟨table, hok, hrules, hdefaults⟩ := assemble_ok hload hnames
  have hdecision := fun n => assemble_decision hload hnames hok n
  obtain ⟨hdescribed, hdescribes⟩ := describes_load hload
  refine ⟨table, hok, hdescribed, ?_, ?_, ?_, ?_⟩
  · intro defaults rules hdesc n
    rw [← hdescribes defaults rules hdesc n]
    exact hdecision n
  · rintro text text' rfl hreordered
    have hload' : loadPolicy config (some text') = .ok definition :=
      parse_reordered hload hreordered
    obtain ⟨table', hok', hrules', hdefaults'⟩ := assemble_ok hload' hnames
    rw [hok', PolicyTable.eq_of_rules (hrules'.trans hrules.symm)
      (hdefaults'.trans hdefaults.symm)]
  · intro deniedTools' hsame
    have hnames' : ∀ n ∈ deniedTools', n ≠ [] := fun n hn => hnames n ((hsame n).mp hn)
    obtain ⟨table', hok', hrules', hdefaults'⟩ := assemble_ok hload hnames'
    rw [rules_determined (loadPolicy_rules hload).1 hsame] at hrules'
    rw [hok', PolicyTable.eq_of_rules (hrules'.trans hrules.symm)
      (hdefaults'.trans hdefaults.symm)]
  · intro deniedTools' hnames' hlonger
    obtain ⟨table', hok', -, -⟩ := assemble_ok hload hnames'
    refine ⟨table', hok', fun n => ?_⟩
    have hd := hdecision n
    have hd' := assemble_decision hload hnames' hok' n
    -- a name on the longer list is denied, any other decided as before
    by_cases hn' : n ∈ deniedTools'
    · rw [if_pos hn'] at hd'
      obtain ⟨hv, hi⟩ := PolicyDefaults.mk.inj hd'
      exact ⟨fun _ => hv, fun _ => hi⟩
    · have hn : n ∉ deniedTools := fun hn => hn' (hlonger n hn)
      rw [if_neg hn] at hd
      rw [if_neg hn'] at hd'
      have heq := hd'.trans hd.symm
      obtain ⟨hv, hi⟩ := PolicyDefaults.mk.inj heq
      rw [hv, hi]
      exact ⟨id, id⟩

def policyMember (key value : String) (hkey : (ascii key).all isPlainByte = true)
    (hvalue : (ascii value).all isPlainByte = true) : Member Value :=
  .compact (plainString (ascii key) hkey) (.str (plainString (ascii value) hvalue))

/-- A rule that allows everything. -/
def allowingRule (name : String) (hname : (ascii name).all isPlainByte = true) : Value :=
  .obj noGap [policyMember "name" name (.refl true) hname,
    policyMember "visibility" "allow" (.refl true) (.refl true),
    policyMember "invocation" "allow" (.refl true) (.refl true)]

/-- A policy that allows `x` and `y`. -/
def allowingMembers : List (Member Value) :=
  [.compact (plainString (ascii "version") (.refl true)) (.num (numberText 1)),
    .compact (plainString (ascii "defaults") (.refl true)) (.obj noGap
      [policyMember "visibility" "deny" (.refl true) (.refl true),
        policyMember "invocation" "deny" (.refl true) (.refl true)]),
    .compact (plainString (ascii "tools") (.refl true)) (.arr noGap
      [.compact (allowingRule "x" (.refl true)), .compact (allowingRule "y" (.refl true))])]

/-- The rule of `x` is overridden, that of `y` stands. -/
theorem effective_policy_example : ∃ table,
    assemblePolicy {} (some (Value.obj noGap allowingMembers).render) [ascii "x", ascii "x"] =
        .ok table ∧
      table.visibilityFor (ascii "x") = .deny ∧ table.visibilityFor (ascii "y") = .allow := by
  have hloads : (loadPolicy {} (some (Value.obj noGap allowingMembers).render)).toOption.isSome =
      true := by
    decide +kernel
  cases hload : loadPolicy {} (some (Value.obj noGap allowingMembers).render) with
  | error e =>
      rw [hload] at hloads
      cases hloads
  | ok definition =>
      obtain ⟨table, hok, -, hdecision, -⟩ := @effective_policy {} _ definition hload
        [ascii "x", ascii "x"] (by decide)
      have hdescribes : Describes (some (Value.obj noGap allowingMembers).render)
          (policyDefaults allowingMembers) (policyRules allowingMembers) :=
        ⟨noGap, allowingMembers, ⟨noGap, noGap, by simp⟩, rfl, rfl⟩
      have hx := hdecision _ _ hdescribes (ascii "x")
      have hy := hdecision _ _ hdescribes (ascii "y")
      have hallowed : decided (policyDefaults allowingMembers) (policyRules allowingMembers)
          (ascii "y") = ⟨.allow, .allow⟩ := by
        decide +kernel
      rw [if_pos (by decide)] at hx
      rw [if_neg (by decide), hallowed] at hy
      exact ⟨table, hok, (PolicyDefaults.mk.inj hx).1, (PolicyDefaults.mk.inj hy).1⟩

end NativeGuard.Security

import NativeGuard.Protocol.CallPolicy
import NativeGuard.Protocol.ToolsList

/-!
# Stricter policies

A guard behind a guard lists what both show (`rewrite_chain`), and a guard with a
stricter policy is the same guard with some calls refused and some tools hidden: at
every point of every run the two have the same requests pending, and they decide alike
but for those calls and listings (`stricter_only_removes`).
-/

namespace NativeGuard.Protocol

open Json Proxy Process Security ToolCallFilter

/-! ## §1  Two policies on one list -/

/-- `both` shows the tools that `first` and `second` show. -/
def ShowsBoth (first second both : PolicyTable) : Prop :=
  ∀ toolName, both.visibilityFor toolName = .allow ↔
    first.visibilityFor toolName = .allow ∧ second.visibilityFor toolName = .allow

section chain

variable {first second both : ProxyCore}

theorem visible_both (h : ShowsBoth first.policy second.policy both.policy) (v : Value) :
    visible both v = (visible first v && visible second v) := by
  unfold visible
  rw [Bool.eq_iff_iff, Bool.and_eq_true]
  simp only [ProxyCore.authorizeToolVisibility_forward]
  rw [h (toolName v)]
  constructor
  · rintro ⟨hne, hfirst, hsecond⟩
    exact ⟨⟨hne, hfirst⟩, hne, hsecond⟩
  · rintro ⟨⟨hne, hfirst⟩, -, hsecond⟩
    exact ⟨hne, hfirst, hsecond⟩

theorem kept_both (h : ShowsBoth first.policy second.policy both.policy)
    (es : List (Element Value)) : kept second (kept first es) = kept both es := by
  unfold kept
  rw [List.filter_map, List.filter_filter, List.map_map]
  congr 1
  apply List.filter_congr
  intro e _
  simp [visible_both h, Bool.and_comm]

/-- What both hide is what the first hides and what the second hides of the rest. -/
theorem hidden_both (h : ShowsBoth first.policy second.policy both.policy)
    (es : List (Element Value)) :
    (hidden both es).Perm (hidden first es ++ hidden second (kept first es)) := by
  induction es with
  | nil => exact List.Perm.refl _
  | cons e es ih =>
      unfold hidden kept at ih ⊢
      cases hfirst : visible first e.value with
      | false =>
          have hboth : visible both e.value = false := by
            rw [visible_both h, hfirst, Bool.false_and]
          simpa [hfirst, hboth] using ih
      | true =>
          cases hsecond : visible second e.value with
          | false =>
              have hboth : visible both e.value = false := by
                rw [visible_both h, hsecond, Bool.and_false]
              simp only [List.filter_cons, List.map_cons, hfirst, hboth, hsecond, Bool.not_true,
                Bool.not_false, Bool.false_eq_true, if_true, if_false,
                Element.compact_value] at ih ⊢
              exact (List.Perm.cons _ ih).trans List.perm_middle.symm
          | true =>
              have hboth : visible both e.value = true := by
                rw [visible_both h, hfirst, hsecond, Bool.true_and]
              simpa [hfirst, hboth, hsecond] using ih

variable {message : Bytes} {maxDepth : Nat}

/-- Which of its three outcomes the rewriter has does not depend on the policy. -/
theorem rewrite_outcome (core core' : ProxyCore) :
    (rewriteToolsListResponse message maxDepth core = .malformed ↔
        rewriteToolsListResponse message maxDepth core' = .malformed) ∧
      (rewriteToolsListResponse message maxDepth core = .passthrough ↔
        rewriteToolsListResponse message maxDepth core' = .passthrough) := by
  by_cases hdoc : ∃ exit ms tail, DocumentText exit ms tail message
  · obtain ⟨exit, ms, tail, hdoc⟩ := hdoc
    have hpass : ∀ core : ProxyCore,
        rewriteToolsListResponse message maxDepth core = .passthrough ↔ _ :=
      fun core => @rewrite_passthrough_iff message maxDepth core exit ms tail hdoc
    have hrewritten : ∀ core : ProxyCore,
        (∃ text removedTools, rewriteToolsListResponse message maxDepth core =
          .rewritten text removedTools) ↔
        (exit ≠ .cut ∧ ResponseMembers maxDepth ms) ∧
          valuesAt (ascii "result") ms ≠ [] ∧ valuesAt (ascii "error") ms = [] := by
      intro core
      constructor
      · rintro ⟨text, removedTools, heq⟩
        obtain ⟨hms, hresult, herror, -⟩ := (rewrite_rewritten_iff hdoc).mp heq
        exact ⟨hms, hresult, herror⟩
      · rintro ⟨hms, hresult, herror⟩
        exact ⟨_, _, (rewrite_rewritten_iff hdoc).mpr ⟨hms, hresult, herror, rfl, rfl⟩⟩
    have hmalformed : ∀ core : ProxyCore,
        rewriteToolsListResponse message maxDepth core = .malformed ↔
          ¬ rewriteToolsListResponse message maxDepth core = .passthrough ∧
            ¬ ∃ text removedTools, rewriteToolsListResponse message maxDepth core =
              .rewritten text removedTools := by
      intro core
      cases rewriteToolsListResponse message maxDepth core <;> simp
    rw [hmalformed core, hmalformed core', hrewritten core, hrewritten core', hpass core,
      hpass core']
    exact ⟨Iff.rfl, Iff.rfl⟩
  · have hall : ∀ core : ProxyCore,
        rewriteToolsListResponse message maxDepth core = .malformed :=
      fun core => by_contra fun hne => hdoc (rewrite_document hne)
    rw [hall core, hall core']
    exact ⟨Iff.rfl, Iff.rfl⟩

theorem rewrite_chain_rewritten (h : ShowsBoth first.policy second.policy both.policy)
    {text : Bytes} {removedTools : List Bytes}
    (hfirst : rewriteToolsListResponse message maxDepth first =
      .rewritten text removedTools) :
    ∃ text' removedTools' all,
      rewriteToolsListResponse text maxDepth second = .rewritten text' removedTools' ∧
      rewriteToolsListResponse message maxDepth both = .rewritten text' all ∧
      all.Perm (removedTools ++ removedTools') := by
  obtain ⟨exit, ms, tail, hdoc⟩ := rewrite_document (by
    rw [hfirst]
    exact nofun)
  obtain ⟨⟨hexit, hms⟩, hresult, herror, -, -⟩ := (rewrite_rewritten_iff hdoc).mp hfirst
  obtain ⟨site, gap, es, rfl, -, -⟩ := hms.site hresult
  obtain ⟨before, hmessage, hcontext⟩ := site.context hdoc
  -- the first guard, and the one with both policies, on the message
  have hone := @rewrite_site first _ _ _ _ _ _ _ _ hexit hdoc hms herror hmessage
  have hboth := @rewrite_site both _ _ _ _ _ _ _ _ hexit hdoc hms herror hmessage
  rw [hfirst] at hone
  obtain ⟨rfl, rfl⟩ := Rewrite.rewritten.inj hone
  -- the second guard on what the first has written
  have hms' := @ResponseMembers.filtered first maxDepth _ hms
  have herror' : valuesAt (ascii "error") (filtered first (site.members (.arr gap es))) =
      [] := by
    unfold filtered
    rw [valuesAt_mapAt_of_ne (by decide)]
    exact herror
  rw [site.filtered_members] at hms' herror'
  have htwo := @rewrite_site second _ _ _ _ _ _ _ _ hexit
    (hcontext (.arr noGap (kept first es))) hms' herror' rfl
  rw [kept_both h] at htwo
  exact ⟨_, _, _, htwo, hboth, hidden_both h es⟩

/-- Two guards in a row with one nesting limit are one guard with both policies: it takes
and passes the same responses, writes what the second makes of the first one's text, and
hides what either hides. -/
theorem rewrite_chain (h : ShowsBoth first.policy second.policy both.policy)
    (message : Bytes) (maxDepth : Nat) :
    (∀ text removedTools, rewriteToolsListResponse message maxDepth first =
        .rewritten text removedTools →
      ∃ text' removedTools' all,
        rewriteToolsListResponse text maxDepth second = .rewritten text' removedTools' ∧
        rewriteToolsListResponse message maxDepth both = .rewritten text' all ∧
        all.Perm (removedTools ++ removedTools')) ∧
      (rewriteToolsListResponse message maxDepth first = .passthrough →
        rewriteToolsListResponse message maxDepth second = .passthrough ∧
          rewriteToolsListResponse message maxDepth both = .passthrough) ∧
      (rewriteToolsListResponse message maxDepth first = .malformed →
        rewriteToolsListResponse message maxDepth both = .malformed) :=
  ⟨fun _ _ hfirst => rewrite_chain_rewritten h hfirst,
    fun hfirst => ⟨(rewrite_outcome first second).2.mp hfirst,
      (rewrite_outcome first both).2.mp hfirst⟩,
    fun hfirst => (rewrite_outcome first both).1.mp hfirst⟩

end chain

/-- Of `x` and `y` the first guard hides `y`, and the second the rest. -/
theorem rewrite_chain_example : ∃ text' removedTools' all,
    rewriteToolsListResponse listResponse 64 ⟨denyAll, 64⟩ = .rewritten text' removedTools' ∧
      rewriteToolsListResponse twoTools 64 ⟨denyAll, 64⟩ = .rewritten text' all ∧
      all.Perm ([ascii "y"] ++ removedTools') := by
  have hboth : ShowsBoth showX denyAll denyAll := by
    intro toolName
    constructor
    · intro hallow
      cases hallow
    · exact fun hallow => hallow.2
  exact (@rewrite_chain ⟨showX, 64⟩ ⟨denyAll, 64⟩ ⟨denyAll, 64⟩ hboth twoTools 64).1
    listResponse [ascii "y"] (by decide +kernel)

/-! ## §2  Two policies in one run -/

/-- `strict` shows and allows no more than `lax`. -/
structure Stricter (strict lax : PolicyTable) : Prop where
  visible : ∀ toolName, strict.visibilityFor toolName = .allow →
    lax.visibilityFor toolName = .allow
  callable : ∀ toolName, strict.invocationFor toolName = .allow →
    lax.invocationFor toolName = .allow

theorem Stricter.showsBoth {strict lax : PolicyTable} (h : Stricter strict lax) :
    ShowsBoth lax strict strict := fun toolName =>
  ⟨fun hstrict => ⟨h.visible toolName hstrict, hstrict⟩, fun hboth => hboth.2⟩

namespace ToolCallFilter

/-- Two filters that differ in their policies alone. -/
structure Twins (f g : ToolCallFilter) : Prop where
  config : f.config = g.config
  limit : f.core.maxMessageBytes = g.core.maxMessageBytes
  pending : f.pending = g.pending
  valid : f.Valid

variable {f g : ToolCallFilter}

theorem Twins.forget (h : Twins f g) (idJson : Bytes) :
    (f.forget idJson).pending = (g.forget idJson).pending := by
  unfold ToolCallFilter.forget
  rw [h.pending]

theorem Twins.inspect (h : Twins f g) (message : Bytes) :
    (f.inspect message).filter.pending = (g.inspect message).filter.pending := by
  by_cases hlist : RequestsList (classify f.config.runtime message)
  · have hlist' : RequestsList (classify g.config.runtime message) := h.config ▸ hlist
    rcases inspect_list_cases hlist with ⟨-, hadd, hfilter⟩ | ⟨-, hadd, hfilter⟩
    · rcases inspect_list_cases hlist' with ⟨-, -, hfilter'⟩ | ⟨-, hadd', -⟩
      · rw [hfilter, hfilter', h.pending, h.config]
      · rw [h.pending, h.config] at hadd
        exact absurd hadd hadd'
    · rcases inspect_list_cases hlist' with ⟨-, hadd', -⟩ | ⟨-, -, hfilter'⟩
      · rw [← h.pending, ← h.config] at hadd'
        exact absurd hadd' hadd
      · rw [hfilter, hfilter', h.pending]
  · have hlist' : ¬ RequestsList (classify g.config.runtime message) := h.config ▸ hlist
    rw [inspect_filter_of_not hlist, inspect_filter_of_not hlist', h.pending]

theorem Twins.valid_right (h : Twins f g) : g.Valid := by
  have hvalid := h.valid
  unfold Valid at hvalid ⊢
  rw [← h.pending, ← h.config]
  exact hvalid

theorem Twins.inspectServer (h : Twins f g) (message : Bytes) :
    (f.inspectServer message).filter.pending = (g.inspectServer message).filter.pending := by
  rw [inspectServer_filter h.valid.nil_not_mem, inspectServer_filter h.valid_right.nil_not_mem,
    ← h.config]
  split
  · exact h.forget _
  · exact h.pending

/-- No step tells the policies apart by what it leaves pending. -/
theorem Twins.next (h : Twins f g) (input : Input) : Twins (f.next input) (g.next input) := by
  obtain ⟨hconfig, hcore⟩ := next_settings f input
  obtain ⟨hconfig', hcore'⟩ := next_settings g input
  refine
    { config := by rw [hconfig, hconfig', h.config]
      limit := by rw [hcore, hcore', h.limit]
      pending := ?_
      valid := valid_next h.valid input }
  cases input with
  | client message => exact h.inspect message
  | server message => exact h.inspectServer message
  | closed =>
      show f.pending.clear = g.pending.clear
      rw [h.pending]

theorem Twins.run (h : Twins f g) (inputs : List Input) :
    Twins (f.run inputs) (g.run inputs) := by
  induction inputs generalizing f g with
  | nil => exact h
  | cons input inputs ih => exact ih (h.next input)

theorem twins_init (policy policy' : PolicyTable) (config : FilterConfig) :
    Twins (init policy config) (init policy' config) :=
  ⟨rfl, rfl, rfl, valid_init policy config⟩

/-- The calls to a tool that `f` denies and `g` allows. -/
def CallsBetween (f g : ToolCallFilter) (message : Bytes) : Prop :=
  (classify f.config.runtime message).error = .none ∧
    (classify f.config.runtime message).method = ascii "tools/call" ∧
    ∃ params, extract f.config.runtime message = .ok params ∧
      f.core.policy.invocationFor params.name ≠ .allow ∧
      g.core.policy.invocationFor params.name = .allow

/-- Client messages are decided on alike, but for a call that the stricter policy denies:
it is refused instead of being forwarded. -/
theorem Twins.inspect_decision (h : Twins f g)
    (hstrict : Stricter f.core.policy g.core.policy) (message : Bytes) :
    (f.inspect message).decision = (g.inspect message).decision ∨
      CallsBetween f g message ∧ (g.inspect message).decision.action = .forward ∧
        (f.inspect message).decision = refuse (classify f.config.runtime message)
          deniedToolErrorCode deniedToolErrorMessage := by
  rcases f.inspect_cases message with
    ⟨herror, heq⟩ | ⟨herror, hcall, heq⟩ | ⟨herror, hlist, heq⟩ | ⟨herror, hcall, hlist, heq⟩
  · have heq' : g.inspect message =
        g.rejectMessage (classify g.config.runtime message) message :=
      if_pos (h.config ▸ herror)
    rw [heq, heq', ← h.config]
    exact Or.inl rfl
  · have heq' := inspect_of_call (f := g) (h.config ▸ herror) (h.config ▸ hcall)
    rw [heq, heq', ← h.config]
    rcases f.inspectToolsCall_cases (classify f.config.runtime message) message with
      ⟨e, hextract, hout⟩ | ⟨params, hextract, hdecided⟩
    · rcases g.inspectToolsCall_cases (classify f.config.runtime message) message with
        ⟨e', -, hout'⟩ | ⟨params', hextract', -⟩
      · rw [hout, hout']
        exact Or.inl rfl
      · rw [← h.config, hextract] at hextract'
        cases hextract'
    · rcases g.inspectToolsCall_cases (classify f.config.runtime message) message with
        ⟨e', hextract', -⟩ | ⟨params', hextract', hdecided'⟩
      · rw [← h.config, hextract] at hextract'
        cases hextract'
      · rw [← h.config, hextract] at hextract'
        cases hextract'
        rcases hdecided with ⟨hforward, hout⟩ | ⟨hblock, hout⟩
        · rcases hdecided' with ⟨-, hout'⟩ | ⟨hblock', -⟩
          · rw [hout, hout']
            exact Or.inl rfl
          · -- what the stricter policy allows, the other allows
            obtain ⟨hsize, hname, hallow⟩ := f.core.authorizeToolCall_forward.mp hforward
            have hforward' := g.core.authorizeToolCall_forward.mpr
              ⟨h.limit ▸ hsize, hname, hstrict.callable _ hallow⟩
            rw [hforward'] at hblock'
            cases hblock'
        · rcases hdecided' with ⟨hforward', hout'⟩ | ⟨-, hout'⟩
          · rw [hout, hout']
            obtain ⟨hsize, hname, hallow⟩ := g.core.authorizeToolCall_forward.mp hforward'
            refine Or.inr ⟨⟨herror, hcall, params, hextract, fun hallow' => ?_, hallow⟩,
              rfl, rfl⟩
            have hforward := f.core.authorizeToolCall_forward.mpr
              ⟨h.limit.symm ▸ hsize, hname, hallow'⟩
            rw [hblock] at hforward
            cases hforward
          · rw [hout, hout']
            exact Or.inl rfl
  · have heq' : g.inspect message =
        g.inspectToolsList (classify g.config.runtime message) message := by
      rcases g.inspect_cases message with
        ⟨herror', -⟩ | ⟨-, hcall', -⟩ | ⟨-, -, heq'⟩ | ⟨-, -, hlist', -⟩
      · exact absurd (h.config ▸ herror) herror'
      · rw [← h.config, hlist] at hcall'
        exact absurd hcall' (by decide)
      · exact heq'
      · exact absurd (h.config ▸ hlist) hlist'
    left
    rw [heq, heq', ← h.config]
    unfold inspectToolsList
    rw [← h.pending, ← h.config]
    split
    · split <;> rfl
    · split <;> rfl
  · have heq' : g.inspect message = { decision := {}, filter := g } := by
      rcases g.inspect_cases message with
        ⟨herror', -⟩ | ⟨-, hcall', -⟩ | ⟨-, hlist', -⟩ | ⟨-, -, -, heq'⟩
      · exact absurd (h.config ▸ herror) herror'
      · exact absurd (h.config.symm ▸ hcall') hcall
      · exact absurd (h.config.symm ▸ hlist') hlist
      · exact heq'
    rw [heq, heq']
    exact Or.inl rfl

/-- Server messages are decided on alike, but for a listing: what the stricter policy
lets through is its part of what the other one does. -/
theorem Twins.inspectServer_decision (h : Twins f g)
    (hstrict : Stricter f.core.policy g.core.policy) (message : Bytes) :
    (f.inspectServer message).decision = (g.inspectServer message).decision ∨
      (f.inspectServer message).decision.action = .replace ∧
        (g.inspectServer message).decision.action = .replace ∧
        ∃ removedTools,
          rewriteToolsListResponse (g.inspectServer message).decision.replacement
              f.config.runtime.maxNestingDepth f.core =
            .rewritten (f.inspectServer message).decision.replacement removedTools := by
  unfold ToolCallFilter.inspectServer
  rw [← h.config, ← h.pending]
  dsimp only
  split
  · exact Or.inl rfl
  · split
    · exact Or.inl rfl
    · unfold filterResponse
      rw [← h.config]
      have houtcome := @rewrite_outcome message f.config.runtime.maxNestingDepth g.core f.core
      cases hg : rewriteToolsListResponse message f.config.runtime.maxNestingDepth g.core with
      | malformed =>
          rw [houtcome.1.mp hg]
          exact Or.inl rfl
      | passthrough =>
          rw [houtcome.2.mp hg]
          exact Or.inl rfl
      | rewritten text removedTools =>
          obtain ⟨text', removedTools', all, htwo, hboth, -⟩ :=
            rewrite_chain_rewritten hstrict.showsBoth hg
          rw [hboth]
          exact Or.inr ⟨rfl, rfl, removedTools', htwo⟩

/-- On the message `f` does what `g` does, but that it refuses the calls and leaves out
the tools that only `g` lets through. -/
structure OnlyRemoves (f g : ToolCallFilter) (message : Bytes) : Prop where
  client : (f.inspect message).decision = (g.inspect message).decision ∨
    CallsBetween f g message ∧ (g.inspect message).decision.action = .forward ∧
      (f.inspect message).decision = refuse (classify f.config.runtime message)
        deniedToolErrorCode deniedToolErrorMessage
  server : (f.inspectServer message).decision = (g.inspectServer message).decision ∨
    (f.inspectServer message).decision.action = .replace ∧
      (g.inspectServer message).decision.action = .replace ∧
      ∃ removedTools,
        rewriteToolsListResponse (g.inspectServer message).decision.replacement
            f.config.runtime.maxNestingDepth f.core =
          .rewritten (f.inspectServer message).decision.replacement removedTools

/-- A stricter policy only removes. Whatever both guards have been shown, they have the
same requests pending, and the stricter one forwards and lists no more than the other. -/
theorem stricter_only_removes {strict lax : PolicyTable} (h : Stricter strict lax)
    (config : FilterConfig) (inputs : List Input) :
    ((init strict config).run inputs).pending = ((init lax config).run inputs).pending ∧
      ∀ message, OnlyRemoves ((init strict config).run inputs)
        ((init lax config).run inputs) message := by
  have htwins := (twins_init strict lax config).run inputs
  have hpolicies : Stricter ((init strict config).run inputs).core.policy
      ((init lax config).run inputs).core.policy := by
    rw [(run_settings (init strict config) inputs).2, (run_settings (init lax config) inputs).2]
    exact h
  exact ⟨htwins.pending, fun message =>
    ⟨htwins.inspect_decision hpolicies message,
      htwins.inspectServer_decision hpolicies message⟩⟩

/-- Both have forwarded the request for the list, and the answer comes. -/
theorem stricter_only_removes_example :
    ((init denyAll {}).run [.client listRequest]).pending.ids = [ascii "1"] ∧
      OnlyRemoves ((init denyAll {}).run [.client listRequest])
        ((init allowAll {}).run [.client listRequest]) twoTools := by
  have hstrict : Stricter denyAll allowAll := ⟨fun _ _ => rfl, fun _ _ => rfl⟩
  exact ⟨by decide +kernel,
    (stricter_only_removes hstrict {} [.client listRequest]).2 twoTools⟩

end ToolCallFilter

end NativeGuard.Protocol

import NativeGuard.Protocol.CallPolicy
import NativeGuard.Protocol.Correlation
import NativeGuard.Protocol.CutText

/-!
# What the classifier accepts, against the grammar

`classify` is meant to accept exactly the envelopes that are complete JSON
object texts within the nesting limit. It does, up to two kinds of text: an
object that the end of the input cuts off right behind a comma (`DanglingComma`),
because the member loop stops at the end of the input as it does at the brace,
and an object of scalars under a nesting limit of zero (`FlatAtZero`), because
only skipped values are measured. `accepts_grammar_iff` says that these are all.
-/

namespace NativeGuard.Protocol

open Json Proxy Process Security ToolCallFilter

/-! ## §1  The two exceptions -/

/-- An acceptable envelope with a comma in the place of its closing brace. -/
def DanglingComma (limits : RuntimeLimits) (m : Bytes) : Prop :=
  m.length ≤ limits.maxMessageBytes ∧ ∃ (body : Bytes) (ws gap : Gap)
    (ms : List (Member Value)), m = body ++ 0x2C :: ws.val ∧
      IsText (body ++ [0x7D]) (.obj gap ms) ∧ EnvelopeMembers ms ∧
      SkippedWithin limits.maxNestingDepth ms

/-- An envelope of nothing but scalars, where no nesting is allowed at all. -/
def FlatAtZero (limits : RuntimeLimits) (m : Bytes) : Prop :=
  limits.maxNestingDepth = 0 ∧ m.length ≤ limits.maxMessageBytes ∧
    ∃ gap ms, IsText m (.obj gap ms) ∧ EnvelopeMembers ms ∧
      ∀ x ∈ ms, x.key.val ∈ [ascii "jsonrpc", ascii "method", ascii "id"]

/-- `classify_accepts`, with its two kinds of text told apart. -/
theorem classify_accepts_cases (limits : RuntimeLimits) (m : Bytes) :
    (classify limits m).error = .none ↔
      DanglingComma limits m ∨ (m.length ≤ limits.maxMessageBytes ∧
        ∃ gap ms, IsText m (.obj gap ms) ∧ EnvelopeMembers ms ∧
          SkippedWithin limits.maxNestingDepth ms) := by
  have hnonempty : ∀ ms, EnvelopeMembers ms → ms ≠ [] := by
    rintro ms hms rfl
    obtain ⟨v, hv, -⟩ := hms.version
    cases hv
  rw [classify_accepts]
  constructor
  · rintro ⟨hsize, exit, ms, tail, hdoc, htrailing, hms, hskip⟩
    rcases (documentText_cases (hnonempty ms hms)).mp ⟨exit, tail, hdoc, htrailing⟩ with
      ⟨body, ws, gap, hm, htext⟩ | ⟨gap, htext⟩
    · exact Or.inl ⟨hsize, body, ws, gap, ms, hm, htext, hms, hskip⟩
    · exact Or.inr ⟨hsize, gap, ms, htext, hms, hskip⟩
  · rintro (⟨hsize, body, ws, gap, ms, hm, htext, hms, hskip⟩ |
      ⟨hsize, gap, ms, htext, hms, hskip⟩)
    · obtain ⟨exit, tail, hdoc, htrailing⟩ := (documentText_cases (hnonempty ms hms)).mpr
        (Or.inl ⟨body, ws, gap, hm, htext⟩)
      exact ⟨hsize, exit, ms, tail, hdoc, htrailing, hms, hskip⟩
    · obtain ⟨exit, tail, hdoc, htrailing⟩ := (documentText_cases (hnonempty ms hms)).mpr
        (Or.inr ⟨gap, htext⟩)
      exact ⟨hsize, exit, ms, tail, hdoc, htrailing, hms, hskip⟩

/-! ## §2  Nesting -/

/-- The envelope's own values are scalars. -/
theorem EnvelopeMembers.scalar {ms : List (Member Value)} (h : EnvelopeMembers ms)
    {x : Member Value} (hx : x ∈ ms)
    (hkey : x.key.val ∈ [ascii "jsonrpc", ascii "method", ascii "id"]) :
    x.value.nesting = 0 := by
  have hmem : ∀ key, x.key.val = key → x.value ∈ valuesAt key ms :=
    fun key hk => mem_valuesAt.mpr ⟨x, hx, hk, rfl⟩
  simp only [List.mem_cons, List.not_mem_nil, or_false] at hkey
  rcases hkey with hk | hk | hk
  · obtain ⟨v, hv, t, rfl, -⟩ := h.version
    have hvalue := hmem _ hk
    rw [hv, List.mem_singleton] at hvalue
    rw [hvalue]
    rfl
  · rcases h.shape with hcall | hreply
    · obtain ⟨t, ht, -⟩ := hcall.method
      have hvalue := hmem _ hk
      rw [ht, List.mem_singleton] at hvalue
      rw [hvalue]
      rfl
    · have hvalue := hmem _ hk
      rw [hreply.method] at hvalue
      cases hvalue
  · have hid := h.ids _ (hmem _ hk)
    cases hvalue : x.value with
    | str t => rfl
    | num t => rfl
    | lit w => rfl
    | obj gap ms =>
        rw [hvalue] at hid
        cases hid
    | arr gap es =>
        rw [hvalue] at hid
        cases hid

/-- With a positive limit, measuring the skipped values measures the object. -/
theorem nesting_iff_skipped {limits : RuntimeLimits} {gap : Gap}
    {ms : List (Member Value)} (hms : EnvelopeMembers ms)
    (hpos : 0 < limits.maxNestingDepth) :
    (Value.obj gap ms).nesting ≤ limits.maxNestingDepth ↔
      SkippedWithin limits.maxNestingDepth ms := by
  rw [nesting_obj_le]
  constructor
  · intro h x hx _
    have hle := h x hx
    omega
  · intro h x hx
    by_cases hkey : x.key.val ∈ [ascii "jsonrpc", ascii "method", ascii "id"]
    · rw [hms.scalar hx hkey]
      omega
    · have hle := h x hx hkey
      omega

/-! ## §3  The claim of the grammar -/

/-- `classify` accepts `m` exactly if the grammar does, reads it as the object
determines, and the filter passes nothing but complete objects. -/
def AcceptsGrammar (limits : RuntimeLimits) (m : Bytes) : Prop :=
  ((classify limits m).error = .none ↔
    m.length ≤ limits.maxMessageBytes ∧ ∃ gap ms, IsText m (.obj gap ms) ∧
      (Value.obj gap ms).nesting ≤ limits.maxNestingDepth ∧ EnvelopeMembers ms) ∧
  ((classify limits m).error = .none → ∀ gap ms, IsText m (.obj gap ms) →
    classify limits m = determinedEnvelope ms) ∧
  ∀ f : ToolCallFilter, f.config.runtime = limits →
    ((f.inspect m).decision.action = .forward → IsObjectText m) ∧
    ((f.inspectServer m).decision.action = .forward → IsObjectText m) ∧
    ((f.inspectServer m).decision.action = .replace →
      IsObjectText (f.inspectServer m).decision.replacement)

theorem inspectServer_accepted {f : ToolCallFilter} {m : Bytes}
    (h : (f.inspectServer m).decision.action ≠ .drop) :
    (classify f.config.runtime m).error = .none := by
  by_contra herror
  rw [inspectServer_of_rejected herror] at h
  exact h rfl

/-- A replacement is a complete object, whatever was replaced. -/
theorem replacement_isObjectText {f : ToolCallFilter} {m : Bytes}
    (h : (f.inspectServer m).decision.action = .replace) :
    IsObjectText (f.inspectServer m).decision.replacement := by
  have herror := inspectServer_accepted (f := f) (m := m) (by rw [h]; exact nofun)
  by_cases hpending : (classify f.config.runtime m).kind = .response ∧
      (classify f.config.runtime m).idJson ∈ f.pending.ids
  · have hdelivered : f.delivered m =
        some (f.inspectServer m).decision.replacement := by
      unfold delivered
      rw [h]
    exact (response_of_pending ⟨herror, hpending.1, rfl⟩ hpending.2 hdelivered).1
  · have heq := inspectServer_of_not_pending herror (by
      by_cases hkind : (classify f.config.runtime m).kind = .response
      · exact Or.inr fun hmem => hpending ⟨hkind, hmem⟩
      · exact Or.inl hkind)
    rw [heq] at h
    cases h

/-- The grammar is accepted exactly, but for the two exceptions. -/
theorem accepts_grammar_iff (limits : RuntimeLimits) (m : Bytes) :
    AcceptsGrammar limits m ↔ ¬ DanglingComma limits m ∧ ¬ FlatAtZero limits m := by
  constructor
  · rintro ⟨haccepts, -, -⟩
    constructor
    · intro hdangling
      obtain ⟨-, gap, ms, htext, -⟩ := haccepts.mp
        ((classify_accepts_cases limits m).mpr (Or.inl hdangling))
      obtain ⟨-, body, ws, -, -, rfl, -⟩ := hdangling
      exact not_isObjectText_of_comma ws ⟨gap, ms, htext⟩
    · rintro ⟨hzero, hsize, gap, ms, htext, hms, hflat⟩
      have hskip : SkippedWithin limits.maxNestingDepth ms :=
        fun x hx hkey => absurd (hflat x hx) hkey
      obtain ⟨-, gap', ms', -, hnesting, hms'⟩ := haccepts.mp
        ((classify_accepts_cases limits m).mpr
          (Or.inr ⟨hsize, gap, ms, htext, hms, hskip⟩))
      rw [hzero, nesting_obj_le] at hnesting
      cases ms' with
      | nil =>
          obtain ⟨v, hv, -⟩ := hms'.version
          cases hv
      | cons x ms' =>
          have hle := hnesting x List.mem_cons_self
          omega
  · rintro ⟨hdangling, hflat⟩
    have haccepts : (classify limits m).error = .none ↔
        m.length ≤ limits.maxMessageBytes ∧ ∃ gap ms, IsText m (.obj gap ms) ∧
          (Value.obj gap ms).nesting ≤ limits.maxNestingDepth ∧
          EnvelopeMembers ms := by
      rw [classify_accepts_cases]
      constructor
      · rintro (h | ⟨hsize, gap, ms, htext, hms, hskip⟩)
        · exact absurd h hdangling
        refine ⟨hsize, gap, ms, htext, ?_, hms⟩
        rcases Nat.eq_zero_or_pos limits.maxNestingDepth with hzero | hpos
        · -- a limit of zero lets only the envelope's scalars through
          apply absurd _ hflat
          refine ⟨hzero, hsize, gap, ms, htext, hms, fun x hx => ?_⟩
          by_contra hkey
          have hle := hskip x hx hkey
          omega
        · exact (nesting_iff_skipped hms hpos).mpr hskip
      · rintro ⟨hsize, gap, ms, htext, hnesting, hms⟩
        refine Or.inr ⟨hsize, gap, ms, htext, hms, fun x hx _ => ?_⟩
        have hle := nesting_obj_le.mp hnesting x hx
        omega
    refine ⟨haccepts, ?_, ?_⟩
    · intro herror gap ms htext
      obtain ⟨gap', ms', hobj, -, -, hdetermined, -⟩ := classified_members herror htext
      cases hobj
      exact hdetermined
    · intro f hconfig
      have hobject : (classify f.config.runtime m).error = .none → IsObjectText m := by
        intro herror
        rw [hconfig] at herror
        obtain ⟨-, gap, ms, htext, -⟩ := haccepts.mp herror
        exact ⟨gap, ms, htext⟩
      refine ⟨fun h => hobject (inspect_forward h).1, fun h => ?_,
        replacement_isObjectText⟩
      exact hobject (inspectServer_accepted (by rw [h]; exact nofun))

/-- The shortest notification, cut off behind a comma. -/
def cutNotification : Bytes := ascii "\x7b\"jsonrpc\":\"2.0\",\"method\":\"x\","

theorem cut_notification_accepted :
    (classify {} cutNotification).error = .none ∧ ¬ IsObjectText cutNotification ∧
      ¬ AcceptsGrammar {} cutNotification := by
  obtain ⟨herror, hcomma⟩ : (classify {} cutNotification).error = .none ∧
      cutNotification = cutNotification.dropLast ++ 0x2C :: noGap.val := by
    decide +kernel
  have hobject : ¬ IsObjectText cutNotification := by
    rw [hcomma]
    exact not_isObjectText_of_comma noGap
  refine ⟨herror, hobject, ?_⟩
  rintro ⟨haccepts, -, -⟩
  obtain ⟨-, gap, ms, htext, -⟩ := haccepts.mp herror
  exact hobject ⟨gap, ms, htext⟩

end NativeGuard.Protocol

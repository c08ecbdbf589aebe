import NativeGuard.Protocol.Filter

/-!
# Forwarded calls obey the policy

A receiver reads a forwarded message with its own decoder: it resolves escapes
in keys and strings and keeps whichever duplicate it likes. The guard's two
scanners leave it no choice. In what `classify` accepts, a key is its spelling
and the method occurs at most once; in what `extract` accepts, so do `params`
and its name. So the method and the name that any receiver reads are the ones
the guard decided on.
-/

namespace NativeGuard.Protocol

open Json Proxy Process Security

namespace ToolCallFilter

/-- The tree of a classified message has the members of an envelope. -/
theorem classified_members {limits : RuntimeLimits} {m : Bytes}
    (herror : (classify limits m).error = .none) {v : Value} (hv : IsText m v) :
    ∃ gap ms, v = .obj gap ms ∧ EnvelopeMembers ms ∧
      SkippedWithin limits.maxNestingDepth ms ∧
      classify limits m = determinedEnvelope ms ∧
      ∃ tail, DocumentText (exitOf ms) ms tail m := by
  obtain ⟨-, exit, ms₀, tail₀, hdoc₀, -⟩ := (classify_accepts _ _).mp herror
  obtain ⟨gap, ms, rfl⟩ := object_of_documentText hdoc₀ hv
  obtain ⟨tail, hdoc⟩ := documentText_of_isText hv
  obtain ⟨hms, hskip, hdetermined⟩ :=
    classify_determined herror hdoc (exitOf_ne_trailing ms)
  exact ⟨gap, ms, rfl, hms, hskip, hdetermined, tail, hdoc⟩

/-- Every method a receiver may read is the one the guard read. -/
theorem method_agrees {ms : List (Member Value)} (hms : EnvelopeMembers ms)
    {method : Value} (hmethod : Holds ms (ascii "method") method) :
    ∃ t : StringText, method = .str t ∧
      decodeString t.val = (determinedEnvelope ms).method := by
  rw [holds_iff_mem_valuesAt hms.keys] at hmethod
  rcases hms.shape with hcall | hreply
  · obtain ⟨t, ht, hesc, -⟩ := hcall.method
    rw [ht, List.mem_singleton] at hmethod
    refine ⟨t, hmethod, ?_⟩
    rw [decodeString_of_no_escape hesc, determinedEnvelope, ht]
    rfl
  · rw [hreply.method] at hmethod
    cases hmethod

/-- Every name a receiver may read is the one the guard extracted. -/
theorem name_agrees {maxDepth : Nat} {ms : List (Member Value)}
    (hms : ExtractMembers maxDepth ms) {gap : Gap} {ps : List (Member Value)}
    (hps : valuesAt (ascii "params") ms = [.obj gap ps]) :
    (∃ p, Holds ms (ascii "params") p) ∧
      ∀ p, Holds ms (ascii "params") p → ∃ gap ps', p = .obj gap ps' ∧
        (∃ name, Holds ps' (ascii "name") name) ∧
        ∀ name, Holds ps' (ascii "name") name → ∃ t : StringText, name = .str t ∧
          decodeString t.val = (determinedParams ps).name := by
  obtain ⟨gap', ps', hps', hmembers⟩ := hms.params
  obtain ⟨rfl, rfl⟩ : gap' = gap ∧ ps' = ps := by
    rw [hps] at hps'
    simpa [eq_comm] using hps'
  constructor
  · refine ⟨.obj gap' ps', ?_⟩
    rw [holds_iff_mem_valuesAt hms.keys, hps]
    exact List.mem_singleton.mpr rfl
  · intro p hp
    rw [holds_iff_mem_valuesAt hms.keys, hps, List.mem_singleton] at hp
    obtain ⟨t, ht, hesc⟩ := hmembers.name
    refine ⟨gap', ps', hp, ⟨.str t, ?_⟩, ?_⟩
    · rw [holds_iff_mem_valuesAt hmembers.keys, ht]
      exact List.mem_singleton.mpr rfl
    · intro name hname
      rw [holds_iff_mem_valuesAt hmembers.keys, ht, List.mem_singleton] at hname
      refine ⟨t, hname, ?_⟩
      rw [decodeString_of_no_escape hesc, determinedParams, ht]
      rfl

/-- Whichever members a receiver of `m` keeps, it reads the method the guard
read, and if that is a call, a tool that the policy allows. -/
def ReadAsDecided (f : ToolCallFilter) (m : Bytes) (v : Value) : Prop :=
  ∃ gap ms, v = .obj gap ms ∧
    (∀ method, Holds ms (ascii "method") method → ∃ t : StringText,
      method = .str t ∧ decodeString t.val = (classify f.config.runtime m).method) ∧
    ((∃ t : StringText, Holds ms (ascii "method") (.str t) ∧
        decodeString t.val = ascii "tools/call") →
      (∃ p, Holds ms (ascii "params") p) ∧
      ∀ p, Holds ms (ascii "params") p → ∃ gap ps, p = .obj gap ps ∧
        (∃ name, Holds ps (ascii "name") name) ∧
        ∀ name, Holds ps (ascii "name") name → ∃ t : StringText, name = .str t ∧
          f.core.policy.invocationFor (decodeString t.val) = .allow)

theorem forwarded_call_allowed (f : ToolCallFilter) {m : Bytes} {v : Value}
    (hforward : (f.inspect m).decision.action = .forward) (hv : IsText m v) :
    ReadAsDecided f m v := by
  obtain ⟨herror, hallowed⟩ := inspect_forward hforward
  obtain ⟨gap, ms, rfl, hms, -, hdetermined, tail, hdoc⟩ :=
    classified_members herror hv
  have hmethod : ∀ method, Holds ms (ascii "method") method → ∃ t : StringText,
      method = .str t ∧ decodeString t.val = (classify f.config.runtime m).method := by
    intro method hm
    rw [hdetermined]
    exact method_agrees hms hm
  refine ⟨gap, ms, rfl, hmethod, ?_⟩
  rintro ⟨t, hholds, hdecode⟩
  obtain ⟨t', ht', hcall⟩ := hmethod _ hholds
  cases ht'
  rw [hdecode] at hcall
  obtain ⟨params, hextract, hinvocation⟩ := hallowed hcall.symm
  have hsize := ((classify_accepts _ _).mp herror).1
  obtain ⟨hextracted, gap', ps, hps, rfl⟩ :=
    (extract_of_text hsize hdoc (exitOf_ne_trailing ms) params).mp hextract
  obtain ⟨hexists, hagrees⟩ := name_agrees hextracted hps
  refine ⟨hexists, fun p hp => ?_⟩
  obtain ⟨gap'', ps', hobj, hname, hnames⟩ := hagrees p hp
  refine ⟨gap'', ps', hobj, hname, fun name hn => ?_⟩
  obtain ⟨u, hu, hu'⟩ := hnames name hn
  exact ⟨u, hu, hu' ▸ hinvocation⟩

/-- A policy that allows everything. -/
def allowAll : PolicyTable := .ofDefaults ⟨.allow, .allow⟩

def callTree : Value := .obj noGap
  [Member.compact (plainString (ascii "jsonrpc") (.refl true))
      (.str (plainString (ascii "2.0") (.refl true))),
    Member.compact (plainString (ascii "method") (.refl true))
      (.str (plainString (ascii "tools/call") (.refl true))),
    Member.compact (plainString (ascii "params") (.refl true)) (.obj noGap
      [Member.compact (plainString (ascii "name") (.refl true))
        (.str (plainString (ascii "x") (.refl true)))])]

theorem forwarded_call_allowed_example :
    ReadAsDecided (init allowAll {}) callTree.render callTree :=
  forwarded_call_allowed (init allowAll {}) (by decide +kernel)
    ⟨noGap, noGap, by simp⟩

end ToolCallFilter

end NativeGuard.Protocol

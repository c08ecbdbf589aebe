import NativeGuard.Protocol.CallPolicy

/-!
# A forwarded message that is cut short

A pipe may break within a message. What the receiver has then is no other message: a
beginning of an accepted message that is a JSON text spells the same tree
(`isText_of_begins`), so its calls are allowed as well (`callsAllowed_of_forward`).
-/

namespace NativeGuard.Protocol

open Json Json.Scan Security

/-- The text behind the brace of an object is what the skipping of whitespace leaves. -/
theorem object_start {lead lead' : Gap} {s s' : Bytes}
    (h : lead.val ++ 0x7B :: s = lead'.val ++ 0x7B :: s') : s = s' := by
  have hskip : (skipWhitespace (lead.val ++ 0x7B :: s) : Except Unit Unit × Bytes) =
      (.ok (), 0x7B :: s) := skipWhitespace_gap lead (stops_cons.mpr (by decide))
  have hskip' : (skipWhitespace (lead'.val ++ 0x7B :: s') : Except Unit Unit × Bytes) =
      (.ok (), 0x7B :: s') := skipWhitespace_gap lead' (stops_cons.mpr (by decide))
  rw [h, hskip'] at hskip
  exact (List.cons.inj (Prod.mk.inj hskip).2).2.symm

/-- A beginning of a document that is an object text has all of the document but some
whitespace. -/
theorem ObjectReader.isText_of_begins {σ ε : Type} (R : ObjectReader σ ε) {st st' : σ}
    {exit : LoopExit} {ms : List (Member Value)} {tail m p : Bytes}
    (hdoc : DocumentText exit ms tail m) (hexit : exit ≠ .trailing)
    (hrun : R.members st ms = .ok st') (hbegins : p <+: m) {gap : Gap}
    {ps : List (Member Value)} (hp : IsText p (.obj gap ps)) : IsText m (.obj gap ps) := by
  obtain ⟨rest, rfl⟩ := hbegins
  obtain ⟨lead, trail, rfl⟩ := hp
  obtain ⟨lead', trail', s, hm, htext⟩ := hdoc
  obtain ⟨s', hs', htext'⟩ := loopText_obj gap ps (trail.val ++ rest)
  have hwhole : lead.val ++ ((Value.obj gap ps).render ++ trail.val) ++ rest =
      lead.val ++ 0x7B :: s' := by
    rw [← hs']
    simp
  obtain rfl : s' = s := object_start (hwhole.symm.trans hm)
  -- the loop reads both texts at once, and so both leave it at the same place
  have hparse := R.parse_agrees htext hexit st
  have hparse' := R.parse_agrees htext' (exitOf_ne_trailing ps) st
  rw [hrun] at hparse
  have hok : R.loop.parse st s' = (.ok (st', exit), trail'.val) := hparse
  have htrail : trail.val ++ rest = trail'.val := by
    cases hps : R.members st ps with
    | error e =>
        rw [hps] at hparse'
        have hfails : (R.loop.parse st s').1 = .error e := hparse'
        rw [hok] at hfails
        cases hfails
    | ok st'' =>
        rw [hps] at hparse'
        have hok' : R.loop.parse st s' = (.ok (st'', exitOf ps), trail.val ++ rest) := hparse'
        rw [hok] at hok'
        exact (Prod.mk.inj hok').2.symm
  refine ⟨lead, trail', ?_⟩
  rw [← htrail]
  simp

/-- Whichever members a receiver keeps, the tools that it calls are allowed. -/
def CallsAllowed (policy : PolicyTable) (v : Value) : Prop :=
  ∀ gap ms, v = .obj gap ms →
    (∃ t : StringText, Holds ms (ascii "method") (.str t) ∧
      decodeString t.val = ascii "tools/call") →
    ∀ p, Holds ms (ascii "params") p → ∃ gap ps, p = .obj gap ps ∧
      ∀ name, Holds ps (ascii "name") name → ∃ t : StringText, name = .str t ∧
        policy.invocationFor (decodeString t.val) = .allow

/-- A receiver may read the value as a call of the tool. -/
def Calls (v : Value) (toolName : Bytes) : Prop :=
  ∃ gap ms gap' ps, v = .obj gap ms ∧
    (∃ t : StringText, Holds ms (ascii "method") (.str t) ∧
      decodeString t.val = ascii "tools/call") ∧
    Holds ms (ascii "params") (.obj gap' ps) ∧
    ∃ t : StringText, Holds ps (ascii "name") (.str t) ∧ decodeString t.val = toolName

theorem CallsAllowed.of_calls {policy : PolicyTable} {v : Value} {toolName : Bytes}
    (h : CallsAllowed policy v) (hcalls : Calls v toolName) :
    policy.invocationFor toolName = .allow := by
  obtain ⟨gap, ms, gap', ps, rfl, hmethod, hparams, t, hname, rfl⟩ := hcalls
  obtain ⟨gap₂, ps₂, heq, hnames⟩ := h gap ms rfl hmethod _ hparams
  cases heq
  obtain ⟨u, hu, hallowed⟩ := hnames _ hname
  cases hu
  exact hallowed

namespace ToolCallFilter

variable {f : ToolCallFilter} {m p : Bytes}

/-- What is forwarded is accepted, and so is the object that any beginning of it spells. -/
theorem isText_of_forwarded (hforward : (f.inspect m).decision.action = .forward)
    (hbegins : p <+: m) {v : Value} (hv : IsText p v) : IsText m v := by
  obtain ⟨herror, -⟩ := inspect_forward hforward
  obtain ⟨-, exit, ms, tail, hdoc, hexit, hms⟩ := (classify_accepts _ _).mp herror
  obtain ⟨st, hrun, -⟩ := (members_accepted f.config.runtime ms).mpr hms
  -- an object, for the message starts as one
  obtain ⟨gap, ps, rfl⟩ : ∃ gap ps, v = .obj gap ps := by
    obtain ⟨rest, rfl⟩ := hbegins
    obtain ⟨lead, trail, rfl⟩ := hv
    obtain ⟨lead', trail', s, hm, -⟩ := hdoc
    have hskip : (skipWhitespace (lead.val ++ (v.render ++ trail.val) ++ rest) :
        Except Unit Unit × Bytes) = (.ok (), v.render ++ (trail.val ++ rest)) := by
      rw [List.append_assoc, List.append_assoc]
      exact skipWhitespace_gap lead (stops_render v _)
    have hskip' : (skipWhitespace (lead'.val ++ 0x7B :: s) : Except Unit Unit × Bytes) =
        (.ok (), 0x7B :: s) := skipWhitespace_gap lead' (stops_cons.mpr (by decide))
    rw [hm, hskip'] at hskip
    refine head_brace_iff.mp ?_
    rw [← render_head_append v (trail.val ++ rest), ← (Prod.mk.inj hskip).2]
    rfl
  exact (envelopeReader f.config.runtime).isText_of_begins hdoc hexit hrun hbegins hv

/-- No beginning of a forwarded message is a call that the policy does not allow. -/
theorem callsAllowed_of_forward (hforward : (f.inspect m).decision.action = .forward)
    (hbegins : p <+: m) {v : Value} (hv : IsText p v) : CallsAllowed f.core.policy v := by
  obtain ⟨herror, hallowed⟩ := inspect_forward hforward
  obtain ⟨gap, ms, rfl, hms, -, hdetermined, tail, hdoc⟩ :=
    classified_members herror (isText_of_forwarded hforward hbegins hv)
  rintro gap' ms' ⟨⟩ ⟨t, hmethod, hcall⟩ p' hp'
  -- the method that the receiver reads is the one that the filter went by
  have hread : (classify f.config.runtime m).method = ascii "tools/call" := by
    obtain ⟨t', ht', hsame⟩ := method_agrees hms hmethod
    cases ht'
    rw [hdetermined, ← hsame, hcall]
  obtain ⟨params, hextract, hinvocation⟩ := hallowed hread
  have hsize := ((classify_accepts _ _).mp herror).1
  obtain ⟨hextracted, gap', ps, hps, rfl⟩ :=
    (extract_of_text hsize hdoc (exitOf_ne_trailing ms) params).mp hextract
  obtain ⟨gap₂, ps₂, rfl, -, hnames⟩ := (name_agrees hextracted hps).2 p' hp'
  refine ⟨gap₂, ps₂, rfl, fun name hname => ?_⟩
  obtain ⟨u, rfl, hu⟩ := hnames name hname
  exact ⟨u, rfl, hu ▸ hinvocation⟩

end ToolCallFilter

end NativeGuard.Protocol

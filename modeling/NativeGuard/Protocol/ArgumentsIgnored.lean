import NativeGuard.Protocol.ExtractionAgrees

/-!
# Tool arguments influence nothing

Two accepted messages that differ only in the value of `params.arguments`, by
another JSON value of the same length, are inspected alike: the same decision, the
same events, the same pending ids. The two runs of `extract` agree but for the
arguments themselves (`extract_same`), and nothing behind them looks at these.
-/

namespace NativeGuard.Protocol

open Json Proxy Process Security

namespace ToolCallFilter

variable {f : ToolCallFilter}

/-- `inspect` looks at the envelope, at the length and at the name of the tool. -/
theorem inspect_same {m m' : Bytes}
    (henvelope : classify f.config.runtime m = classify f.config.runtime m')
    (hlength : m.length = m'.length)
    (hextract : SameOutcome (fun params params' => params.name = params'.name)
      (extract f.config.runtime m) (extract f.config.runtime m')) :
    f.inspect m = f.inspect m' := by
  have hcall : ∀ envelope, f.inspectToolsCall envelope m = f.inspectToolsCall envelope m' := by
    intro envelope
    unfold inspectToolsCall toolCallEvent
    generalize extract f.config.runtime m = x at hextract ⊢
    generalize extract f.config.runtime m' = y at hextract ⊢
    rw [hlength]
    cases hextract with
    | error e => rfl
    | ok hname => simp only [hname]
  have hlist : ∀ envelope, f.inspectToolsList envelope m = f.inspectToolsList envelope m' := by
    intro envelope
    unfold inspectToolsList correlationExhausted
    rw [hlength]
  have hreject : ∀ envelope, f.rejectMessage envelope m = f.rejectMessage envelope m' := by
    intro envelope
    unfold rejectMessage
    rw [hlength]
  unfold inspect
  simp only [henvelope, hcall, hlist, hreject]

end ToolCallFilter

/-! ## §1  The place of the arguments -/

/-- A message around the value of a member that a decoder reads as
`params.arguments`. -/
structure ArgumentsSite where
  lead : Gap
  gap : Gap
  before : List (Member Value)
  params : Member Value
  paramsGap : Gap
  paramsBefore : List (Member Value)
  arguments : Member Value
  paramsAfter : List (Member Value)
  after : List (Member Value)
  trail : Gap
  paramsKey : decodeString params.key.val = ascii "params"
  argumentsKey : decodeString arguments.key.val = ascii "arguments"

namespace ArgumentsSite

variable (site : ArgumentsSite)

def paramsMembers (a : Value) : List (Member Value) :=
  site.paramsBefore ++ { site.arguments with value := a } :: site.paramsAfter

def paramsMember (a : Value) : Member Value :=
  { site.params with value := .obj site.paramsGap (site.paramsMembers a) }

/-- The members of the message with `a` for its arguments. -/
def members (a : Value) : List (Member Value) :=
  site.before ++ site.paramsMember a :: site.after

/-- The message with `a` for its arguments. -/
def message (a : Value) : Bytes :=
  site.lead.val ++ ((Value.obj site.gap (site.members a)).render ++ site.trail.val)

/-- All such messages are identical but for the text of the arguments. -/
theorem message_slice : ∃ pre post : Bytes, ∀ a : Value,
    site.message a = pre ++ (a.render ++ post) := by
  obtain ⟨pre, post, hmessage⟩ :=
    render_obj_context site.gap site.before site.after site.params
  obtain ⟨pre', post', hparams⟩ :=
    render_obj_context site.paramsGap site.paramsBefore site.paramsAfter site.arguments
  refine ⟨site.lead.val ++ (pre ++ pre'), post' ++ (post ++ site.trail.val), fun a => ?_⟩
  unfold message members paramsMember paramsMembers
  rw [hmessage, hparams]
  simp only [List.append_assoc]

theorem message_isText (a : Value) :
    IsText (site.message a) (.obj site.gap (site.members a)) :=
  ⟨site.lead, site.trail, rfl⟩

theorem message_length {a b : Value} (h : a.render.length = b.render.length) :
    (site.message a).length = (site.message b).length := by
  obtain ⟨pre, post, hslice⟩ := site.message_slice
  rw [hslice a, hslice b]
  simp only [List.length_append, h]

/-! ## §2  Two messages of one site -/

/-- The members of two such messages differ in no more than a parameter. -/
theorem members_sameMember (a b : Value) :
    List.Forall₂ SameMember (site.members a) (site.members b) := by
  have hparams : List.Forall₂ SameParam (site.paramsMembers a) (site.paramsMembers b) := by
    refine List.rel_append (List.forall₂_same.mpr fun m _ => SameParam.refl m)
      (List.Forall₂.cons ⟨rfl, fun hname => ?_⟩
        (List.forall₂_same.mpr fun m _ => SameParam.refl m))
    -- no key is read as `arguments` and spelled `name`
    have hkey := site.argumentsKey
    have hspelled : site.arguments.key.val = ascii "name" := hname
    rw [hspelled] at hkey
    exact absurd hkey (by decide)
  refine List.rel_append (List.forall₂_same.mpr fun m _ => SameMember.refl m)
    (List.Forall₂.cons ⟨rfl, fun _ => Or.inr ?_⟩
      (List.forall₂_same.mpr fun m _ => SameMember.refl m))
  exact ⟨_, _, _, _, rfl, rfl, hparams⟩

theorem valuesAt_members (key : Bytes) (h : site.params.key.val ≠ key) (a b : Value) :
    valuesAt key (site.members a) = valuesAt key (site.members b) := by
  have hne : ∀ c, (site.paramsMember c).key.val ≠ key := fun _ => h
  unfold members
  rw [valuesAt_append, valuesAt_append, valuesAt_cons_of_ne (hne a),
    valuesAt_cons_of_ne (hne b)]

/-- The envelope is not in the parameters. -/
theorem determinedEnvelope_members (h : site.params.key.val = ascii "params")
    (a b : Value) :
    determinedEnvelope (site.members a) = determinedEnvelope (site.members b) := by
  unfold determinedEnvelope
  rw [site.valuesAt_members (ascii "method") (by rw [h]; decide) a b,
    site.valuesAt_members (ascii "id") (by rw [h]; decide) a b]

variable {site} {limits : RuntimeLimits} {a b : Value}

/-- What an accepted message of the site says about the site. -/
theorem accepted (h : (classify limits (site.message a)).error = .none) :
    site.params.key.val = ascii "params" ∧
      (site.message a).length ≤ limits.maxMessageBytes ∧
      classify limits (site.message a) = determinedEnvelope (site.members a) ∧
      (∀ x ∈ site.members a, 1 + x.value.nesting ≤ limits.maxNestingDepth) ∧
      ∃ tail, DocumentText (exitOf (site.members a)) (site.members a) tail
        (site.message a) := by
  obtain ⟨_, _, hobj, hms, hskip, hdetermined, tail, hdoc⟩ :=
    ToolCallFilter.classified_members h (site.message_isText a)
  cases hobj
  have hmem : site.paramsMember a ∈ site.members a :=
    List.mem_append_right _ List.mem_cons_self
  have hkey : site.params.key.val = ascii "params" := by
    rw [← site.paramsKey]
    exact (decodeString_of_no_escape (hms.keys _ hmem)).symm
  have hle := hskip _ hmem (by
    show site.params.key.val ∉ _
    rw [hkey]
    decide)
  refine ⟨hkey, ((classify_accepts _ _).mp h).1, hdetermined, ?_, tail, hdoc⟩
  exact fits_of_skipped hms hskip (by omega)

end ArgumentsSite

namespace ToolCallFilter

/-- Nothing that `inspect` returns, records or keeps depends on the arguments. -/
theorem arguments_influence_nothing (f : ToolCallFilter) (site : ArgumentsSite)
    {a b : Value} (hlength : a.render.length = b.render.length)
    (ha : (classify f.config.runtime (site.message a)).error = .none)
    (hb : (classify f.config.runtime (site.message b)).error = .none) :
    f.inspect (site.message a) = f.inspect (site.message b) := by
  obtain ⟨hkey, hsize, henvelope, hfit, tail, hdoc⟩ := ArgumentsSite.accepted ha
  obtain ⟨-, hsize', henvelope', hfit', tail', hdoc'⟩ := ArgumentsSite.accepted hb
  have hsame := site.members_sameMember a b
  have hexit : exitOf (site.members a) = exitOf (site.members b) := by
    have hiff : site.members a = [] ↔ site.members b = [] := by
      rw [← List.length_eq_zero_iff, ← List.length_eq_zero_iff, hsame.length_eq]
    unfold exitOf
    simp only [hiff]
  rw [← hexit] at hdoc'
  refine inspect_same ?_ (site.message_length hlength) ?_
  · rw [henvelope, henvelope']
    exact site.determinedEnvelope_members hkey a b
  · exact extract_same hsize hsize' hdoc hdoc' (exitOf_ne_trailing _) hsame hfit hfit'

/-- `{"name":"x","arguments":…}` in a request. -/
def callSite : ArgumentsSite where
  lead := noGap
  gap := noGap
  before :=
    [Member.compact (plainString (ascii "jsonrpc") (.refl true))
        (.str (plainString (ascii "2.0") (.refl true))),
      Member.compact (plainString (ascii "method") (.refl true))
        (.str (plainString (ascii "tools/call") (.refl true))),
      Member.compact (plainString (ascii "id") (.refl true))
        (.str (plainString (ascii "1") (.refl true)))]
  params := Member.compact (plainString (ascii "params") (.refl true)) (.lit .null)
  paramsGap := noGap
  paramsBefore :=
    [Member.compact (plainString (ascii "name") (.refl true))
      (.str (plainString (ascii "x") (.refl true)))]
  arguments := Member.compact (plainString (ascii "arguments") (.refl true)) (.lit .null)
  paramsAfter := []
  after := []
  trail := noGap
  paramsKey := by decide
  argumentsKey := by decide

/-- `{"name":""}`, the look-alike. -/
def lookAlike : Value := .obj noGap
  [Member.compact (plainString (ascii "name") (.refl true))
    (.str (plainString [] (.refl true)))]

/-- `"{{{{{{{{{"`. -/
def braces : Value := .str (plainString (List.replicate 9 0x7B) (.refl true))

theorem arguments_influence_nothing_example :
    (init allowAll {}).inspect (callSite.message lookAlike) =
      (init allowAll {}).inspect (callSite.message braces) := by
  obtain ⟨hlength, hlook, hbraces⟩ : lookAlike.render.length = braces.render.length ∧
      (classify (init allowAll {}).config.runtime (callSite.message lookAlike)).error =
        .none ∧
      (classify (init allowAll {}).config.runtime (callSite.message braces)).error =
        .none := by
    decide +kernel
  exact arguments_influence_nothing (init allowAll {}) callSite hlength hlook hbraces

end ToolCallFilter

end NativeGuard.Protocol

import NativeGuard.Protocol.Acceptance
import NativeGuard.Protocol.Outcomes

/-!
# Extraction agrees with classification

`extract` parses a message that `classify` has accepted once more, with its own
loops and its own depth offsets. On a JSON text it succeeds exactly if the tree
has the parameters of a call, and returns these (`CallParams`). It never fails for
the size of the message, nor, under a nesting limit of at least one, for its depth.

The last part compares two runs: within their limits both skip the same values, so
that the limits leave no trace (`extract_same`). The runs may also differ in
parameters that are not the name.
-/

namespace NativeGuard.Protocol

open Json Proxy Process Security ToolCallFilter

/-! ## §1  Two runs of `parse_params` -/

/-- Members of two `params` objects under one key; a name is the same name. -/
def SameParam (m m' : Member Value) : Prop :=
  m.key = m'.key ∧ (m.key.val = ascii "name" → m.value = m'.value)

/-- What two runs over such members share. The arguments may differ. -/
structure SameParamsState (st st' : ParamsState) : Prop where
  sawName : st.sawName = st'.sawName
  sawArguments : st.sawArguments = st'.sawArguments
  name : st.name = st'.name

section params

variable {maxDepth maxDepth' : Nat} {st st' : ParamsState}

theorem nameMember_same (hst : SameParamsState st st') {v : Value}
    (hle : 2 + v.nesting ≤ maxDepth) (hle' : 2 + v.nesting ≤ maxDepth') :
    SameOutcome SameParamsState ((st.nameMember maxDepth).read v)
      ((st'.nameMember maxDepth').read v) := by
  unfold ParamsState.nameMember
  rw [← hst.sawName]
  split
  · exact SameOutcome.error _
  refine onByte_same Iff.rfl (fun _ => ?_) fun _ => ?_
  · refine SameOutcome.bind (S := Eq) (SameOutcome.refl (fun _ => rfl) _) ?_
    rintro token _ rfl
    split
    · exact SameOutcome.error _
    · exact SameOutcome.ok ⟨rfl, hst.sawArguments, rfl⟩
  · obtain ⟨hskip, hskip'⟩ := skipValue_same (e := ExtractionError.malformedJson) hle hle'
    show SameOutcome _ ((skipValue 2 maxDepth _).read v >>= _)
      ((skipValue 2 maxDepth' _).read v >>= _)
    rw [hskip, hskip']
    exact SameOutcome.error _

theorem argumentsMember_same (hst : SameParamsState st st') {v v' : Value}
    (hle : 2 + v.nesting ≤ maxDepth) (hle' : 2 + v'.nesting ≤ maxDepth') :
    SameOutcome SameParamsState ((st.argumentsMember maxDepth).read v)
      ((st'.argumentsMember maxDepth').read v') := by
  unfold ParamsState.argumentsMember
  rw [← hst.sawArguments]
  split
  · exact SameOutcome.error _
  rw [skipValue_captured_ok.mpr ⟨hle, rfl⟩, skipValue_captured_ok.mpr ⟨hle', rfl⟩]
  exact SameOutcome.ok ⟨hst.sawName, rfl, hst.name⟩

theorem params_member_same (hst : SameParamsState st st') {m m' : Member Value}
    (hm : SameParam m m') (hle : 2 + m.value.nesting ≤ maxDepth)
    (hle' : 2 + m'.value.nesting ≤ maxDepth') :
    SameOutcome SameParamsState ((st.member maxDepth (tokenOf m.key.val)).read m.value)
      ((st'.member maxDepth' (tokenOf m'.key.val)).read m'.value) := by
  obtain ⟨hkey, hvalue⟩ := hm
  rw [← hkey]
  unfold ParamsState.member
  split
  · rename_i hname
    rw [← hvalue hname] at hle' ⊢
    exact nameMember_same hst hle hle'
  split
  · exact argumentsMember_same hst hle hle'
  · rw [skipValue_map_ok.mpr ⟨hle, rfl⟩, skipValue_map_ok.mpr ⟨hle', rfl⟩]
    exact SameOutcome.ok hst

theorem parseParams_same {gap gap' : Gap} {ps ps' : List (Member Value)}
    (hps : List.Forall₂ SameParam ps ps') (hfit : ∀ p ∈ ps, 2 + p.value.nesting ≤ maxDepth)
    (hfit' : ∀ p ∈ ps', 2 + p.value.nesting ≤ maxDepth') :
    SameOutcome (fun params params' => params.name = params'.name)
      ((parseParams maxDepth).read (.obj gap ps))
      ((parseParams maxDepth').read (.obj gap' ps')) := by
  have hexit : exitOf ps = exitOf ps' := by
    cases hps with
    | nil => rfl
    | cons => rfl
  have hrun : SameOutcome SameParamsState ((paramsReader maxDepth).members {} ps)
      ((paramsReader maxDepth').members {} ps') := by
    refine members_same hps ?_ ?_ ⟨rfl, rfl, rfl⟩
    · intro st st' m m' _ hm
      rw [← hm.1]
      exact SameOutcome.refl (fun _ => trivial) _
    · intro st st' m m' hmem hmem' hst hm
      exact params_member_same hst hm (hfit m hmem) (hfit' m' hmem')
  refine hrun.bind fun st st' hst => ?_
  show SameOutcome _ (if exitOf ps = .empty ∨ ¬ st.sawName = true then _ else _)
    (if exitOf ps' = .empty ∨ ¬ st'.sawName = true then _ else _)
  rw [← hst.sawName, ← hexit]
  split
  · exact SameOutcome.error _
  · exact SameOutcome.ok hst.name

end params

/-! ## §2  Two runs of `extract` -/

/-- Members of two messages under one key; `params` may differ in what `SameParam`
leaves open. -/
def SameMember (m m' : Member Value) : Prop :=
  m.key = m'.key ∧ (m.key.val = ascii "params" → m.value = m'.value ∨
    ∃ gap gap' ps ps', m.value = .obj gap ps ∧ m'.value = .obj gap' ps' ∧
      List.Forall₂ SameParam ps ps')

theorem SameMember.refl (m : Member Value) : SameMember m m :=
  ⟨rfl, fun _ => Or.inl rfl⟩

theorem SameParam.refl (m : Member Value) : SameParam m m := ⟨rfl, fun _ => rfl⟩

/-- What two runs of `extract` share. -/
structure SameExtractState (st st' : ExtractState) : Prop where
  sawParams : st.sawParams = st'.sawParams
  name : st.result.name = st'.result.name

section extract

variable {limits limits' : RuntimeLimits}

theorem fits_inside {gap : Gap} {ps : List (Member Value)} {maxDepth : Nat}
    (h : 1 + (Value.obj gap ps).nesting ≤ maxDepth) :
    ∀ p ∈ ps, 2 + p.value.nesting ≤ maxDepth := by
  intro p hp
  have hle := nesting_obj_le.mp (le_refl (Value.obj gap ps).nesting) p hp
  omega

theorem paramsMember_same {maxDepth maxDepth' : Nat} {st st' : ExtractState}
    (hst : SameExtractState st st') {v v' : Value}
    (hv : v = v' ∨ ∃ gap gap' ps ps', v = .obj gap ps ∧ v' = .obj gap' ps' ∧
      List.Forall₂ SameParam ps ps')
    (hle : 1 + v.nesting ≤ maxDepth) (hle' : 1 + v'.nesting ≤ maxDepth') :
    SameOutcome SameExtractState ((st.paramsMember maxDepth).read v)
      ((st'.paramsMember maxDepth').read v') := by
  have hhead : v.render.head? = some 0x7B ↔ v'.render.head? = some 0x7B := by
    rcases hv with rfl | ⟨gap, gap', ps, ps', rfl, rfl, -⟩
    · exact Iff.rfl
    · rw [head_obj, head_obj]
  unfold ExtractState.paramsMember
  rw [← hst.sawParams]
  split
  · exact SameOutcome.error _
  refine onByte_same hhead (fun hobj => ?_) fun _ => ?_
  · obtain ⟨gap, gap', ps, ps', rfl, rfl, hps⟩ : ∃ gap gap' ps ps', v = .obj gap ps ∧
        v' = .obj gap' ps' ∧ List.Forall₂ SameParam ps ps' := by
      rcases hv with rfl | h
      · obtain ⟨gap, ps, rfl⟩ := head_brace_iff.mp hobj
        exact ⟨gap, gap, ps, ps, rfl, rfl,
          List.forall₂_same.mpr fun p _ => SameParam.refl p⟩
      · exact h
    refine (parseParams_same hps (fits_inside hle) (fits_inside hle')).bind ?_
    exact fun params params' hname => SameOutcome.ok ⟨rfl, hname⟩
  · obtain ⟨hskip, hskip'⟩ := skipValue_same (e := ExtractionError.malformedJson) hle hle'
    show SameOutcome _ ((skipValue 1 maxDepth _).read v >>= _)
      ((skipValue 1 maxDepth' _).read v' >>= _)
    rw [hskip, hskip']
    exact SameOutcome.error _

theorem extract_member_same {maxDepth maxDepth' : Nat} {st st' : ExtractState}
    (hst : SameExtractState st st') {m m' : Member Value} (hm : SameMember m m')
    (hle : 1 + m.value.nesting ≤ maxDepth) (hle' : 1 + m'.value.nesting ≤ maxDepth') :
    SameOutcome SameExtractState ((st.member maxDepth (tokenOf m.key.val)).read m.value)
      ((st'.member maxDepth' (tokenOf m'.key.val)).read m'.value) := by
  obtain ⟨hkey, hvalue⟩ := hm
  rw [← hkey]
  unfold ExtractState.member
  split
  · rename_i hparams
    exact paramsMember_same hst (hvalue hparams) hle hle'
  · rw [skipValue_map_ok.mpr ⟨hle, rfl⟩, skipValue_map_ok.mpr ⟨hle', rfl⟩]
    exact SameOutcome.ok hst

/-- Two messages whose members agree, up to parameters that are not the name, under
limits that hold both: the same error, or the same name. -/
theorem extract_same {limits limits' : RuntimeLimits} {exit : LoopExit}
    {ms ms' : List (Member Value)} {tail tail' m m' : Bytes}
    (hsize : m.length ≤ limits.maxMessageBytes)
    (hsize' : m'.length ≤ limits'.maxMessageBytes)
    (htext : DocumentText exit ms tail m) (htext' : DocumentText exit ms' tail' m')
    (hexit : exit ≠ .trailing) (hms : List.Forall₂ SameMember ms ms')
    (hfit : ∀ x ∈ ms, 1 + x.value.nesting ≤ limits.maxNestingDepth)
    (hfit' : ∀ x ∈ ms', 1 + x.value.nesting ≤ limits'.maxNestingDepth) :
    SameOutcome (fun params params' => params.name = params'.name)
      (extract limits m) (extract limits' m') := by
  have hrun : SameOutcome SameExtractState
      ((extractReader limits.maxNestingDepth).members {} ms)
      ((extractReader limits'.maxNestingDepth).members {} ms') := by
    refine members_same hms ?_ ?_ ⟨rfl, rfl⟩
    · intro st st' x x' _ hx
      rw [← hx.1]
      exact SameOutcome.refl (fun _ => trivial) _
    · intro st st' x x' hmem hmem' hst hx
      exact extract_member_same hst hx (hfit x hmem) (hfit' x' hmem')
  unfold extract extractDocument
  rw [if_neg (by omega), if_neg (by omega), ObjectReader.document_agrees _ htext hexit,
    ObjectReader.document_agrees _ htext' hexit]
  generalize (extractReader limits.maxNestingDepth).members {} ms = x at hrun ⊢
  generalize (extractReader limits'.maxNestingDepth).members {} ms' = y at hrun ⊢
  cases hrun with
  | error e => exact SameOutcome.error e
  | @ok st st' hst =>
      show SameOutcome _ (if ¬ st.sawParams = true then _ else _)
        (if ¬ st'.sawParams = true then _ else _)
      rw [← hst.sawParams]
      split
      · exact SameOutcome.error _
      · exact SameOutcome.ok hst.name

/-! ## §3  The size of a message -/

theorem params_member_reports (maxDepth : Nat) (st : ParamsState) (key : StringToken) :
    (st.member maxDepth key).Reports (· ≠ .messageTooLarge) := by
  unfold ParamsState.member ParamsState.nameMember ParamsState.argumentsMember
  split
  · split
    · exact .fail nofun
    refine .onByte _ (.check (.string nofun) ?_) (.check (.skipValue _ _ nofun) ?_)
    · intro value e h
      split at h
      · cases h
        exact nofun
      · cases h
    · rintro _ e ⟨⟩
      exact nofun
  split
  · split
    · exact .fail nofun
    · exact .map _ (.captured (.skipValue _ _ nofun))
  · exact .map _ (.skipValue _ _ nofun)

theorem checkUnescaped_reports {σ : Type} (st : σ) (key : StringToken)
    (e : ExtractionError) (h : checkUnescaped st key = .error e) : e ≠ .messageTooLarge := by
  unfold checkUnescaped at h
  split at h
  · cases h
    exact nofun
  · cases h

theorem parseParams_reports (maxDepth : Nat) :
    (parseParams maxDepth).Reports (· ≠ .messageTooLarge) := by
  refine .object nofun checkUnescaped_reports (params_member_reports maxDepth) ?_
  intro st exit e h
  split at h
  · cases h
    exact nofun
  · cases h

theorem extract_member_reports (maxDepth : Nat) (st : ExtractState) (key : StringToken) :
    (st.member maxDepth key).Reports (· ≠ .messageTooLarge) := by
  unfold ExtractState.member ExtractState.paramsMember
  split
  · split
    · exact .fail nofun
    refine .onByte _ (.map _ (parseParams_reports maxDepth))
      (.check (.skipValue _ _ nofun) ?_)
    rintro _ e ⟨⟩
    exact nofun
  · exact .map _ (.skipValue _ _ nofun)

/-- Within the size limit the size is not reported. -/
theorem extract_size {exit : LoopExit} {ms : List (Member Value)} {tail m : Bytes}
    (hsize : m.length ≤ limits.maxMessageBytes) (htext : DocumentText exit ms tail m)
    (hexit : exit ≠ .trailing) : extract limits m ≠ .error .messageTooLarge := by
  unfold extract extractDocument
  rw [if_neg (by omega), ObjectReader.document_agrees _ htext hexit]
  cases hrun : (extractReader limits.maxNestingDepth).members {} ms with
  | error e =>
      have hne := members_reports checkUnescaped_reports
        (extract_member_reports limits.maxNestingDepth) hrun
      exact fun h => hne (Except.error.inj h)
  | ok st =>
      show (if ¬ st.sawParams = true then _ else _) ≠ _
      split <;> exact nofun

/-! ## §4  The parameters of a classified message -/

/-- The parameters that the tree of a message has: exactly one `params`, an object
of plain keys with exactly one plain name and at most one value of `arguments`. -/
def CallParams (v : Value) (params : ToolCallParams) : Prop :=
  ∃ gap ms gap' ps, v = .obj gap ms ∧
    valuesAt (ascii "params") ms = [.obj gap' ps] ∧ (∀ p ∈ ps, 0x5C ∉ p.key.val) ∧
    (∃ t : StringText, valuesAt (ascii "name") ps = [.str t] ∧ 0x5C ∉ t.val ∧
      params.name = t.val) ∧
    ((valuesAt (ascii "arguments") ps = [] ∧ params.argumentsJson = []) ∨
      ∃ a, valuesAt (ascii "arguments") ps = [a] ∧ params.argumentsJson = a.render)

/-- `extract` reads the parameters of the tree and nothing else, and neither the size
of the message nor its nesting is in the way. -/
structure ExtractsParams (limits : RuntimeLimits) (m : Bytes) (v : Value) : Prop where
  params : ∀ params, extract limits m = .ok params ↔ CallParams v params
  size : extract limits m ≠ .error .messageTooLarge
  depth : 0 < limits.maxNestingDepth → ∀ limits' : RuntimeLimits,
    m.length ≤ limits'.maxMessageBytes →
    limits.maxNestingDepth ≤ limits'.maxNestingDepth →
    extract limits' m = extract limits m

end extract

/-- In an accepted message with `params` the limit leaves room for every member. -/
theorem fits_of_skipped {maxDepth : Nat} {ms : List (Member Value)}
    (hms : EnvelopeMembers ms) (hskip : SkippedWithin maxDepth ms) (hpos : 0 < maxDepth) :
    ∀ x ∈ ms, 1 + x.value.nesting ≤ maxDepth := by
  intro x hx
  by_cases hkey : x.key.val ∈ [ascii "jsonrpc", ascii "method", ascii "id"]
  · rw [hms.scalar hx hkey]
    exact hpos
  · exact hskip x hx hkey

/-- The members that `extract` accepts in a classified message are `CallParams`. -/
theorem callParams_iff {maxDepth : Nat} (gap : Gap) {ms : List (Member Value)}
    (hms : EnvelopeMembers ms) (hskip : SkippedWithin maxDepth ms)
    (params : ToolCallParams) :
    (ExtractMembers maxDepth ms ∧ ∃ gap' ps,
        valuesAt (ascii "params") ms = [.obj gap' ps] ∧ params = determinedParams ps) ↔
      CallParams (.obj gap ms) params := by
  constructor
  · rintro ⟨hmembers, gap', ps, hps, rfl⟩
    obtain ⟨gap'', ps', hps', hparams⟩ := hmembers.params
    obtain ⟨rfl, rfl⟩ : gap'' = gap' ∧ ps' = ps := by
      rw [hps] at hps'
      simpa [eq_comm] using hps'
    obtain ⟨t, ht, hesc⟩ := hparams.name
    refine ⟨gap, ms, gap'', ps', rfl, hps, hparams.keys, ⟨t, ht, hesc, ?_⟩, ?_⟩
    · rw [determinedParams, ht]
      rfl
    · rw [determinedParams]
      rcases eq_nil_or_singleton hparams.arguments with harg | ⟨a, harg⟩
      · exact Or.inl ⟨harg, by rw [harg]⟩
      · exact Or.inr ⟨a, harg, by rw [harg]⟩
  · rintro ⟨_, _, gap', ps, hobj, hps, hkeys, ⟨t, ht, hesc, hname⟩, harg⟩
    cases hobj
    -- the parameters are a skipped value of the envelope
    obtain ⟨x, hx, hkey, hvalue⟩ : ∃ x ∈ ms, x.key.val = ascii "params" ∧
        x.value = .obj gap' ps := by
      have hmem : Value.obj gap' ps ∈ valuesAt (ascii "params") ms := by simp [hps]
      exact mem_valuesAt.mp hmem
    have hle : 1 + (Value.obj gap' ps).nesting ≤ maxDepth := by
      rw [← hvalue]
      exact hskip x hx (by rw [hkey]; decide)
    have hparams : ParamsMembers maxDepth ps := by
      refine ⟨hkeys, ⟨t, ht, hesc⟩, ?_, fun p hp _ => fits_inside hle p hp⟩
      rcases harg with ⟨harg, -⟩ | ⟨a, harg, -⟩
      · simp [harg]
      · simp [harg]
    refine ⟨⟨hms.keys, ⟨gap', ps, hps, hparams⟩, fun y hy _ => ?_⟩, gap', ps, hps, ?_⟩
    · exact fits_of_skipped hms hskip (by omega) y hy
    · cases params with
      | mk name argumentsJson =>
          rw [determinedParams, ht]
          rcases harg with ⟨harg, hjson⟩ | ⟨a, harg, hjson⟩
          · rw [harg]
            exact congrArg₂ ToolCallParams.mk hname hjson
          · rw [harg]
            exact congrArg₂ ToolCallParams.mk hname hjson

/-- Larger limits change nothing. -/
theorem extract_limits {limits limits' : RuntimeLimits} {m tail : Bytes}
    {ms : List (Member Value)} (hsize : m.length ≤ limits.maxMessageBytes)
    (hdoc : DocumentText (exitOf ms) ms tail m) (hms : EnvelopeMembers ms)
    (hskip : SkippedWithin limits.maxNestingDepth ms)
    (hpos : 0 < limits.maxNestingDepth) (hsize' : m.length ≤ limits'.maxMessageBytes)
    (hdepth : limits.maxNestingDepth ≤ limits'.maxNestingDepth) :
    extract limits' m = extract limits m := by
  have hfit := fits_of_skipped hms hskip hpos
  have hfit' : ∀ x ∈ ms, 1 + x.value.nesting ≤ limits'.maxNestingDepth :=
    fun x hx => le_trans (hfit x hx) hdepth
  have hskip' : SkippedWithin limits'.maxNestingDepth ms := fun x hx _ => hfit' x hx
  have hsame := extract_same hsize hsize' hdoc hdoc (exitOf_ne_trailing ms)
    (List.forall₂_same.mpr fun x _ => SameMember.refl x) hfit hfit'
  -- a success is the one that the tree determines, under either limit
  have hiff : ∀ params, extract limits m = .ok params ↔ extract limits' m = .ok params := by
    intro params
    rw [extract_of_text hsize hdoc (exitOf_ne_trailing ms),
      extract_of_text hsize' hdoc (exitOf_ne_trailing ms),
      callParams_iff noGap hms hskip, callParams_iff noGap hms hskip']
  generalize hx : extract limits m = x at hsame
  generalize hy : extract limits' m = y at hsame
  cases hsame with
  | error e => rfl
  | @ok params params' _ =>
      rw [← hy]
      exact (hiff params).mp hx

/-- Extraction agrees with classification. -/
theorem extraction_agrees {limits : RuntimeLimits} {m : Bytes} {v : Value}
    (herror : (classify limits m).error = .none) (hv : IsText m v) :
    ExtractsParams limits m v := by
  have hsize := ((classify_accepts _ _).mp herror).1
  obtain ⟨gap, ms, rfl, hms, hskip, -, tail, hdoc⟩ := classified_members herror hv
  refine ⟨fun params => ?_, ?_, ?_⟩
  · rw [extract_of_text hsize hdoc (exitOf_ne_trailing ms)]
    exact callParams_iff gap hms hskip params
  · exact extract_size hsize hdoc (exitOf_ne_trailing ms)
  · intro hpos limits' hsize' hdepth
    exact extract_limits hsize hdoc hms hskip hpos hsize' hdepth

/-- A call with arguments in front of its name. -/
def callWithArguments : Value := .obj noGap
  [Member.compact (plainString (ascii "params") (.refl true)) (.obj noGap
      [Member.compact (plainString (ascii "arguments") (.refl true)) (.arr noGap []),
        Member.compact (plainString (ascii "name") (.refl true))
          (.str (plainString (ascii "x") (.refl true)))]),
    Member.compact (plainString (ascii "method") (.refl true))
      (.str (plainString (ascii "tools/call") (.refl true))),
    Member.compact (plainString (ascii "jsonrpc") (.refl true))
      (.str (plainString (ascii "2.0") (.refl true)))]

theorem extraction_agrees_example :
    ExtractsParams {} callWithArguments.render callWithArguments :=
  extraction_agrees (by decide +kernel) ⟨noGap, noGap, by simp⟩

/-- A notification of scalars alone. -/
def flatNotification : Value := .obj noGap
  [Member.compact (plainString (ascii "jsonrpc") (.refl true))
      (.str (plainString (ascii "2.0") (.refl true))),
    Member.compact (plainString (ascii "method") (.refl true))
      (.str (plainString (ascii "x") (.refl true)))]

/-- Under a limit of zero `classify` skips nothing here, but `extract` does, and fails
where it would miss the parameters under any other limit. -/
theorem extraction_fails_at_zero :
    IsText flatNotification.render flatNotification ∧
      (classify { maxNestingDepth := 0 } flatNotification.render).error = .none ∧
      extract { maxNestingDepth := 0 } flatNotification.render = .error .malformedJson ∧
      extract {} flatNotification.render = .error .missingParams := by
  refine ⟨⟨noGap, noGap, by simp⟩, ?_⟩
  decide +kernel

end NativeGuard.Protocol

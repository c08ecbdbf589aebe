import NativeGuard.Protocol.Envelope

/-!
# The tools/call extractor (`src/tool_call_extractor.cpp`)

`parse_params` and `extract` on the object loop. A successful extraction is an
`ok`; the error enumeration has no `none`.
-/

namespace NativeGuard.Protocol

open Json Json.Scan

inductive ExtractionError where
  | messageTooLarge
  | malformedJson
  | missingParams
  | missingName
  | duplicateParams
  | duplicateName
  | nonStringName
  | escapedName
deriving DecidableEq, Repr

structure ToolCallParams where
  name : Bytes := []
  argumentsJson : Bytes := []
deriving DecidableEq, Repr

/-! ## §1  `parse_params` -/

structure ParamsState where
  sawName : Bool := false
  sawArguments : Bool := false
  name : Bytes := []
  argumentsJson : Bytes := []

namespace ParamsState

variable (maxDepth : Nat) (st : ParamsState)

/-- A value that is not a string is skipped, so that a legal one can be told
from malformed input. -/
def nameMember : Reader ExtractionError ParamsState :=
  if st.sawName then .fail .duplicateName
  else
    .onByte 0x22
      ((Reader.string .malformedJson).check fun value =>
        if value.hasEscape then .error .escapedName
        else .ok { st with sawName := true, name := value.contents })
      ((skipValue 2 maxDepth .malformedJson).check fun _ => .error .nonStringName)

def argumentsMember : Reader ExtractionError ParamsState :=
  if st.sawArguments then .fail .malformedJson
  else (skipValue 2 maxDepth .malformedJson).captured.map fun (_, json) =>
    { st with sawArguments := true, argumentsJson := json }

def member (key : StringToken) : Reader ExtractionError ParamsState :=
  if key.contents = ascii "name" then st.nameMember maxDepth
  else if key.contents = ascii "arguments" then st.argumentsMember maxDepth
  else (skipValue 2 maxDepth .malformedJson).map fun _ => st

end ParamsState

def checkUnescaped {σ : Type} (_ : σ) (key : StringToken) :
    Except ExtractionError Unit :=
  if key.hasEscape then .error .malformedJson else .ok ()

def paramsReader (maxDepth : Nat) : ObjectReader ParamsState ExtractionError where
  malformed _ := .malformedJson
  checkKey := checkUnescaped
  member st key := st.member maxDepth key

/-- At the end of the input the loop is left as if the object were closed. -/
def parseParams (maxDepth : Nat) : Reader ExtractionError ToolCallParams :=
  (paramsReader maxDepth).object .malformedJson {} fun st exit =>
    if exit = .empty ∨ ¬ st.sawName then .error .missingName
    else .ok ⟨st.name, st.argumentsJson⟩

/-! ## §2  `extract` -/

structure ExtractState where
  sawParams : Bool := false
  result : ToolCallParams := {}

namespace ExtractState

variable (maxDepth : Nat) (st : ExtractState)

def paramsMember : Reader ExtractionError ExtractState :=
  if st.sawParams then .fail .duplicateParams
  else
    .onByte 0x7B
      ((parseParams maxDepth).map fun params => ⟨true, params⟩)
      -- anything else is read to its end before it is refused
      ((skipValue 1 maxDepth .malformedJson).check fun _ => .error .malformedJson)

def member (key : StringToken) : Reader ExtractionError ExtractState :=
  if key.contents = ascii "params" then st.paramsMember maxDepth
  else (skipValue 1 maxDepth .malformedJson).map fun _ => st

end ExtractState

def extractReader (maxDepth : Nat) : ObjectReader ExtractState ExtractionError where
  malformed _ := .malformedJson
  checkKey := checkUnescaped
  member st key := st.member maxDepth key

def extractDocument (maxDepth : Nat) :
    Scan ExtractionError (ExtractState × LoopExit) :=
  (extractReader maxDepth).loop.document .malformedJson (fun _ _ => .ok ())
    (fun _ => .malformedJson) {}

def extract (limits : RuntimeLimits) (message : Bytes) :
    Except ExtractionError ToolCallParams :=
  if message.length > limits.maxMessageBytes then .error .messageTooLarge
  else
    match (extractDocument limits.maxNestingDepth message).1 with
    | .ok (st, _) => if ¬ st.sawParams then .error .missingParams else .ok st.result
    | .error e => .error e

/-! ## §3  The members of `params` -/

/-- One plain name, at most one `arguments`, everything else within the limit. -/
structure ParamsMembers (maxDepth : Nat) (ps : List (Member Value)) : Prop where
  keys : ∀ m ∈ ps, 0x5C ∉ m.key.val
  name : ∃ t : StringText, valuesAt (ascii "name") ps = [.str t] ∧ 0x5C ∉ t.val
  arguments : (valuesAt (ascii "arguments") ps).length ≤ 1
  nested : ∀ m ∈ ps, m.key.val ≠ ascii "name" → 2 + m.value.nesting ≤ maxDepth

def determinedParams (ps : List (Member Value)) : ToolCallParams where
  name := match valuesAt (ascii "name") ps with
    | v :: _ => plainText v
    | [] => []
  argumentsJson := match valuesAt (ascii "arguments") ps with
    | v :: _ => v.render
    | [] => []

def ParamsState.seen (st : ParamsState) (key : Bytes) : Bool :=
  if key = ascii "name" then st.sawName
  else if key = ascii "arguments" then st.sawArguments
  else false

def ParamsState.update (st : ParamsState) (key : Bytes) (v : Value) : ParamsState :=
  if key = ascii "name" then { st with sawName := true, name := plainText v }
  else if key = ascii "arguments" then
    { st with sawArguments := true, argumentsJson := v.render }
  else st

def paramsMemberOk (maxDepth : Nat) (key : Bytes) (v : Value) : Prop :=
  if key = ascii "name" then ∃ t : StringText, v = .str t ∧ 0x5C ∉ t.val
  else 2 + v.nesting ≤ maxDepth

theorem onByte_quote_check_ok {ε α β : Type} {e : ε} {k : StringToken → Except ε α}
    {r : Reader ε β} {e' : ε} {v : Value} {a : α} :
    (Reader.onByte 0x22 ((Reader.string e).check k)
      (r.check fun _ => .error e')).read v = .ok a ↔
      ∃ t : StringText, v = .str t ∧ k (tokenOf t.val) = .ok a := by
  show (if v.render.head? = some 0x22 then ((Reader.string e).check k).read v
    else (r.check fun _ => .error e').read v) = .ok a ↔ _
  by_cases hv : v.render.head? = some 0x22
  · rw [if_pos hv]
    exact Reader.string_check_ok
  · rw [if_neg hv]
    constructor
    · intro h
      have hread : (r.read v >>= fun _ => (.error e' : Except ε α)) = .ok a := h
      cases hr : r.read v with
      | ok b => rw [hr] at hread; cases hread
      | error e => rw [hr] at hread; cases hread
    · rintro ⟨t, rfl, -⟩
      exact absurd rfl hv

theorem skipValue_captured_ok {ε α : Type} {e : ε} {depth maxDepth : Nat} {v : Value}
    {f : Unit × Bytes → α} {a : α} :
    ((skipValue depth maxDepth e).captured.map f).read v = .ok a ↔
      depth + v.nesting ≤ maxDepth ∧ a = f ((), v.render) := by
  have h : ((skipValue depth maxDepth e).captured.map f).read v =
      (skipValue depth maxDepth e).read v >>= fun _ => .ok (f ((), v.render)) := by
    show (((skipValue depth maxDepth e).read v).map fun u => (u, v.render)) >>=
      (fun a => .ok (f a)) = _
    cases (skipValue depth maxDepth e).read v <;> rfl
  rw [h, skipValue_read]
  exact accept_then_ok

section handlers

variable {maxDepth : Nat} {st st' : ParamsState} {v : Value}

theorem nameMember_ok :
    (st.nameMember maxDepth).read v = .ok st' ↔
      st.sawName = false ∧ (∃ t : StringText, v = .str t ∧ 0x5C ∉ t.val) ∧
        st' = { st with sawName := true, name := plainText v } := by
  unfold ParamsState.nameMember
  by_cases hsaw : st.sawName = true
  · rw [if_pos hsaw]
    simp [Reader.fail, hsaw]
  · rw [if_neg hsaw, onByte_quote_check_ok]
    constructor
    · rintro ⟨t, rfl, h⟩
      split at h
      · cases h
      · rename_i hesc
        cases h
        exact ⟨by simpa using hsaw, ⟨t, rfl, by simpa [tokenOf] using hesc⟩, rfl⟩
    · rintro ⟨-, ⟨t, rfl, hesc⟩, rfl⟩
      refine ⟨t, rfl, ?_⟩
      rw [if_neg]
      · rfl
      · simpa [tokenOf] using hesc

theorem argumentsMember_ok :
    (st.argumentsMember maxDepth).read v = .ok st' ↔
      st.sawArguments = false ∧ 2 + v.nesting ≤ maxDepth ∧
        st' = { st with sawArguments := true, argumentsJson := v.render } := by
  unfold ParamsState.argumentsMember
  by_cases hsaw : st.sawArguments = true
  · rw [if_pos hsaw]
    simp [Reader.fail, hsaw]
  · rw [if_neg hsaw, skipValue_captured_ok]
    simp [hsaw]

end handlers

theorem params_oncePerKey (maxDepth : Nat) :
    OncePerKey (paramsReader maxDepth) [ascii "name", ascii "arguments"]
      ParamsState.seen (paramsMemberOk maxDepth) ParamsState.update where
  key st raw := by
    simp [paramsReader, checkUnescaped, tokenOf]
  member st raw v st' := by
    show (st.member maxDepth (tokenOf raw)).read v = .ok st' ↔ _
    unfold ParamsState.seen paramsMemberOk ParamsState.update
    by_cases h₁ : raw = ascii "name"
    · have hm : st.member maxDepth (tokenOf raw) = st.nameMember maxDepth :=
        if_pos h₁
      simp only [hm, if_pos h₁]
      exact nameMember_ok
    by_cases h₂ : raw = ascii "arguments"
    · have hm : st.member maxDepth (tokenOf raw) = st.argumentsMember maxDepth :=
        (if_neg h₁).trans (if_pos h₂)
      simp only [hm, if_neg h₁, if_pos h₂]
      exact argumentsMember_ok
    have hm : st.member maxDepth (tokenOf raw) =
        (skipValue 2 maxDepth .malformedJson).map fun _ => st :=
      (if_neg h₁).trans (if_neg h₂)
    simp only [hm, if_neg h₁, if_neg h₂, true_and]
    exact skipValue_map_ok
  marks st raw v key := by
    unfold ParamsState.update
    split_ifs with h₁ h₂
    · subst h₁
      by_cases h : key = ascii "name"
      · subst h; simp [ParamsState.seen]
      · simp [ParamsState.seen, h]
    · subst h₂
      by_cases h : key = ascii "arguments"
      · subst h; simp [ParamsState.seen, h₁]
      · simp [ParamsState.seen, h]
    · simp [h₁, h₂]
  unknown st key h := by
    simp only [List.mem_cons, List.not_mem_nil, or_false, not_or] at h
    simp [ParamsState.seen, h.1, h.2]

theorem params_init (key : Bytes) : ({} : ParamsState).seen key = false := by
  unfold ParamsState.seen
  split_ifs <;> rfl

theorem ParamsState.update_name (st : ParamsState) (raw : Bytes) (v : Value) :
    (st.update raw v).name = if raw = ascii "name" then plainText v else st.name := by
  unfold ParamsState.update
  split_ifs <;> rfl

theorem ParamsState.update_argumentsJson (st : ParamsState) (raw : Bytes) (v : Value) :
    (st.update raw v).argumentsJson =
      if raw = ascii "arguments" then v.render else st.argumentsJson := by
  have hne : ascii "name" ≠ ascii "arguments" := by decide
  unfold ParamsState.update
  grind

def ParamsState.params (st : ParamsState) : ToolCallParams := ⟨st.name, st.argumentsJson⟩

/-- The loop leaves the parameters that the members determine. -/
theorem params_final {maxDepth : Nat} {ps : List (Member Value)}
    (h : ParamsMembers maxDepth ps) :
    (updates ParamsState.update {} ps).params = determinedParams ps := by
  obtain ⟨t, ht, -⟩ := h.name
  have hname := updates_field ParamsState.name (ascii "name") plainText
    ParamsState.update_name {} ps
  have harguments := updates_field ParamsState.argumentsJson (ascii "arguments") Value.render
    ParamsState.update_argumentsJson {} ps
  unfold ParamsState.params determinedParams
  rw [hname, harguments, ht]
  rcases eq_nil_or_singleton h.arguments with harg | ⟨v, harg⟩
  · rw [harg]
    rfl
  · rw [harg]
    rfl

/-- The name is asked for, and an empty object has none. -/
theorem ParamsState.finish_ok (st : ParamsState) (exit : LoopExit)
    (hleft : exit = .empty ∧ st = {} ∨ exit = .closed) (params : ToolCallParams) :
    (if exit = .empty ∨ ¬ st.sawName then .error .missingName
      else .ok ⟨st.name, st.argumentsJson⟩ : Except ExtractionError ToolCallParams) =
        .ok params ↔
      (∀ key ∈ [ascii "name"], st.seen key = true) ∧ params = st.params := by
  have hseen : st.seen (ascii "name") = st.sawName := rfl
  rw [List.forall_mem_singleton, hseen]
  rcases hleft with ⟨rfl, rfl⟩ | rfl
  · simp
  · cases st.sawName
    · simp
    · simp [ParamsState.params, eq_comm]

theorem paramsMembers_iff {maxDepth : Nat} {ps : List (Member Value)} :
    OnceMembers [ascii "name", ascii "arguments"] [ascii "name"] (paramsMemberOk maxDepth) ps ↔
      ParamsMembers maxDepth ps := by
  have hname : ascii "name" ∈ [ascii "name", ascii "arguments"] := List.mem_cons_self
  constructor
  · intro h
    obtain ⟨v, hv, hok⟩ := h.single hname List.mem_cons_self
    obtain ⟨t, rfl, hesc⟩ :=
      (show ∃ t : StringText, v = .str t ∧ 0x5C ∉ t.val from hok)
    refine ⟨h.keys, ⟨t, hv, hesc⟩, h.once _ (List.mem_cons_of_mem _ List.mem_cons_self), ?_⟩
    intro m hm hkey
    have hfits := h.values m hm
    unfold paramsMemberOk at hfits
    rwa [if_neg hkey] at hfits
  · intro h
    obtain ⟨t, ht, hesc⟩ := h.name
    refine ⟨h.keys, ?_, ?_, fun m hm => ?_⟩
    · rw [List.forall_mem_cons, List.forall_mem_singleton, ht]
      exact ⟨le_refl 1, h.arguments⟩
    · rw [List.forall_mem_singleton, ht]
      exact List.cons_ne_nil _ _
    · unfold paramsMemberOk
      split_ifs with hkey
      · have hmem : m.value ∈ valuesAt (ascii "name") ps :=
          mem_valuesAt.mpr ⟨m, hm, hkey, rfl⟩
        rw [ht, List.mem_singleton] at hmem
        exact ⟨t, hmem, hesc⟩
      · exact h.nested m hm hkey

/-- `parse_params` reads exactly the objects of `ParamsMembers`. -/
theorem parseParams_ok {maxDepth : Nat} {v : Value} {params : ToolCallParams} :
    (parseParams maxDepth).read v = .ok params ↔
      ∃ gap ps, v = .obj gap ps ∧ ParamsMembers maxDepth ps ∧
        params = determinedParams ps := by
  unfold parseParams
  rw [(params_oncePerKey maxDepth).object_left_ok params_init (by simp) ParamsState.finish_ok]
  constructor
  · rintro ⟨gap, ps, rfl, hms, rfl⟩
    have hps := paramsMembers_iff.mp hms
    exact ⟨gap, ps, rfl, hps, params_final hps⟩
  · rintro ⟨gap, ps, rfl, hps, rfl⟩
    exact ⟨gap, ps, rfl, paramsMembers_iff.mpr hps, (params_final hps).symm⟩

/-! ## §4  The texts that `extract` accepts -/

/-- One `params` object, everything else within the limit. -/
structure ExtractMembers (maxDepth : Nat) (ms : List (Member Value)) : Prop where
  keys : ∀ m ∈ ms, 0x5C ∉ m.key.val
  params : ∃ gap ps, valuesAt (ascii "params") ms = [.obj gap ps] ∧
    ParamsMembers maxDepth ps
  nested : ∀ m ∈ ms, m.key.val ≠ ascii "params" → 1 + m.value.nesting ≤ maxDepth

def paramsOf : Value → ToolCallParams
  | .obj _ ps => determinedParams ps
  | _ => {}

def ExtractState.seen (st : ExtractState) (key : Bytes) : Bool :=
  if key = ascii "params" then st.sawParams else false

def ExtractState.update (st : ExtractState) (key : Bytes) (v : Value) :
    ExtractState :=
  if key = ascii "params" then ⟨true, paramsOf v⟩ else st

def extractMemberOk (maxDepth : Nat) (key : Bytes) (v : Value) : Prop :=
  if key = ascii "params" then
    ∃ gap ps, v = .obj gap ps ∧ ParamsMembers maxDepth ps
  else 1 + v.nesting ≤ maxDepth

theorem paramsMember_ok {maxDepth : Nat} {st st' : ExtractState} {v : Value} :
    (st.paramsMember maxDepth).read v = .ok st' ↔ st.sawParams = false ∧
      (∃ gap ps, v = .obj gap ps ∧ ParamsMembers maxDepth ps) ∧
      st' = ⟨true, paramsOf v⟩ := by
  unfold ExtractState.paramsMember
  by_cases hsaw : st.sawParams = true
  · rw [if_pos hsaw]
    simp [Reader.fail, hsaw]
  rw [if_neg hsaw]
  show (if v.render.head? = some 0x7B then
      (parseParams maxDepth).read v >>= fun params => .ok ⟨true, params⟩
    else (skipValue 1 maxDepth .malformedJson).read v >>= fun _ =>
      .error .malformedJson) = .ok st' ↔ _
  by_cases hv : v.render.head? = some 0x7B
  · rw [if_pos hv]
    constructor
    · intro h
      cases hread : (parseParams maxDepth).read v with
      | error e => rw [hread] at h; cases h
      | ok params =>
          rw [hread] at h
          cases h
          obtain ⟨gap, ps, rfl, hps, rfl⟩ := parseParams_ok.mp hread
          exact ⟨by simpa using hsaw, ⟨gap, ps, rfl, hps⟩, rfl⟩
    · rintro ⟨-, ⟨gap, ps, rfl, hps⟩, rfl⟩
      rw [parseParams_ok.mpr ⟨gap, ps, rfl, hps, rfl⟩]
      rfl
  · rw [if_neg hv]
    constructor
    · intro h
      cases hread : (skipValue 1 maxDepth ExtractionError.malformedJson).read v with
      | error e => rw [hread] at h; cases h
      | ok u => rw [hread] at h; cases h
    · rintro ⟨-, ⟨gap, ps, rfl, -⟩, -⟩
      exact absurd (head_obj gap ps) hv

theorem extract_oncePerKey (maxDepth : Nat) :
    OncePerKey (extractReader maxDepth) [ascii "params"] ExtractState.seen
      (extractMemberOk maxDepth) ExtractState.update where
  key st raw := by
    simp [extractReader, checkUnescaped, tokenOf]
  member st raw v st' := by
    show (st.member maxDepth (tokenOf raw)).read v = .ok st' ↔ _
    unfold ExtractState.seen extractMemberOk ExtractState.update
    by_cases h₁ : raw = ascii "params"
    · have hm : st.member maxDepth (tokenOf raw) = st.paramsMember maxDepth :=
        if_pos h₁
      simp only [hm, if_pos h₁]
      exact paramsMember_ok
    have hm : st.member maxDepth (tokenOf raw) =
        (skipValue 1 maxDepth .malformedJson).map fun _ => st := if_neg h₁
    simp only [hm, if_neg h₁, true_and]
    exact skipValue_map_ok
  marks st raw v key := by
    unfold ExtractState.update
    split_ifs with h₁
    · subst h₁
      by_cases h : key = ascii "params"
      · subst h; simp [ExtractState.seen]
      · simp [ExtractState.seen, h]
    · simp [h₁]
  unknown st key h := by
    have hne : key ≠ ascii "params" := by simpa using h
    simp [ExtractState.seen, hne]

theorem extract_init (key : Bytes) : ({} : ExtractState).seen key = false := by
  unfold ExtractState.seen
  split_ifs <;> rfl

theorem ExtractState.update_result (st : ExtractState) (raw : Bytes) (v : Value) :
    (st.update raw v).result = if raw = ascii "params" then paramsOf v else st.result := by
  unfold ExtractState.update
  split_ifs <;> rfl

theorem extract_final {ms : List (Member Value)} {gap : Gap} {ps : List (Member Value)}
    (h : valuesAt (ascii "params") ms = [.obj gap ps]) :
    (updates ExtractState.update {} ms).result = determinedParams ps := by
  rw [updates_field ExtractState.result _ paramsOf ExtractState.update_result {} ms, h]
  rfl

theorem extractMembers_iff {maxDepth : Nat} {ms : List (Member Value)} :
    OnceMembers [ascii "params"] [ascii "params"] (extractMemberOk maxDepth) ms ↔
      ExtractMembers maxDepth ms := by
  have hother : ∀ {key v}, key ≠ ascii "params" →
      extractMemberOk maxDepth key v = (1 + v.nesting ≤ maxDepth) := fun h => if_neg h
  rw [onceMembers_all_iff, List.forall_mem_singleton]
  constructor
  · rintro ⟨hkeys, ⟨v, hv, hok⟩, hskips⟩
    obtain ⟨gap, ps, rfl, hps⟩ :=
      (show ∃ gap ps, v = .obj gap ps ∧ ParamsMembers maxDepth ps from hok)
    refine ⟨hkeys, ⟨gap, ps, hv, hps⟩, fun m hm hkey => ?_⟩
    rw [← hother hkey]
    exact hskips m hm fun hmem => hkey (List.mem_singleton.mp hmem)
  · intro h
    obtain ⟨gap, ps, hp, hps⟩ := h.params
    refine ⟨h.keys, ⟨_, hp, gap, ps, rfl, hps⟩, fun m hm hmem => ?_⟩
    have hkey : m.key.val ≠ ascii "params" := fun heq => hmem (List.mem_singleton.mpr heq)
    rw [hother hkey]
    exact h.nested m hm hkey

/-- What `extract` makes of an object text: the parameters are those of its one
`params` member. -/
theorem extract_of_text {limits : RuntimeLimits} {exit : LoopExit}
    {ms : List (Member Value)} {tail m : Bytes}
    (hsize : m.length ≤ limits.maxMessageBytes)
    (htext : DocumentText exit ms tail m) (hexit : exit ≠ .trailing)
    (params : ToolCallParams) :
    extract limits m = .ok params ↔
      ExtractMembers limits.maxNestingDepth ms ∧
        ∃ gap ps, valuesAt (ascii "params") ms = [.obj gap ps] ∧
          params = determinedParams ps := by
  have hdoc : (extractDocument limits.maxNestingDepth m).1 =
      ((extractReader limits.maxNestingDepth).members {} ms >>= fun st =>
        .ok (st, exit)) := by
    unfold extractDocument
    rw [ObjectReader.document_agrees _ htext hexit]
    rfl
  have hrun : extract limits m = .ok params ↔
      ∃ st, (extractReader limits.maxNestingDepth).members {} ms = .ok st ∧
        (∀ key ∈ [ascii "params"], st.seen key = true) ∧ params = st.result := by
    unfold extract
    simp only [List.forall_mem_singleton]
    rw [if_neg (by omega), hdoc]
    cases (extractReader limits.maxNestingDepth).members {} ms with
    | error e => simp [bind, Except.bind]
    | ok st =>
        show (if ¬ st.sawParams = true then _ else _) = _ ↔ _
        by_cases hst : st.sawParams = true
        · rw [if_neg (not_not.mpr hst)]
          constructor
          · intro h
            cases h
            exact ⟨st, rfl, hst, rfl⟩
          · rintro ⟨st', h, -, rfl⟩
            cases h
            rfl
        · rw [if_pos hst]
          constructor
          · intro h
            cases h
          · rintro ⟨st', h, hseen, -⟩
            cases h
            exact absurd hseen hst
  rw [hrun, (extract_oncePerKey _).members_finish_ok extract_init (fun _ hkey => hkey),
    extractMembers_iff]
  refine and_congr_right fun hms => ?_
  obtain ⟨gap, ps, hp, -⟩ := hms.params
  rw [extract_final hp]
  constructor
  · intro h
    exact ⟨gap, ps, hp, h⟩
  · rintro ⟨gap', ps', hp', rfl⟩
    rw [hp] at hp'
    cases hp'
    rfl

/-- ... and on any bytes. -/
theorem extract_ok {limits : RuntimeLimits} {message : Bytes} {params : ToolCallParams} :
    extract limits message = .ok params ↔ message.length ≤ limits.maxMessageBytes ∧
      ∃ exit ms tail, DocumentText exit ms tail message ∧ exit ≠ .trailing ∧
        ExtractMembers limits.maxNestingDepth ms ∧
        ∃ gap ps, valuesAt (ascii "params") ms = [.obj gap ps] ∧
          params = determinedParams ps := by
  constructor
  · intro h
    obtain ⟨hsize, exit, ms, tail, htext, hexit⟩ :
        message.length ≤ limits.maxMessageBytes ∧
          ∃ exit ms tail, DocumentText exit ms tail message ∧ exit ≠ .trailing := by
      unfold extract at h
      split at h
      · cases h
      rename_i hsize
      split at h
      · rename_i st exit hdocument
        obtain ⟨ms, tail, htext, -, -, hexit⟩ := (ObjectReader.document_ok _).mp hdocument
        exact ⟨not_lt.mp hsize, exit, ms, tail, htext, hexit⟩
      · cases h
    exact ⟨hsize, exit, ms, tail, htext, hexit, (extract_of_text hsize htext hexit _).mp h⟩
  · rintro ⟨hsize, exit, ms, tail, htext, hexit, h⟩
    exact (extract_of_text hsize htext hexit _).mpr h

end NativeGuard.Protocol

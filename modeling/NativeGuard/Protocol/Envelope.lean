import NativeGuard.Json.Decode
import NativeGuard.Protocol.Readers

/-!
# The envelope classifier (`src/json_rpc_envelope.cpp`)

`classify` as the source has it, on the object loop, and what it accepts: the
members that `EnvelopeMembers` describes, in an object that may be left at its
brace or cut short after a comma.
-/

namespace NativeGuard.Protocol

open Json Json.Scan

/-! ## §1  Data (`runtime_limits.hpp`, `json_rpc_envelope.hpp`) -/

structure RuntimeLimits where
  maxMessageBytes : Nat := 1024 * 1024
  maxNestingDepth : Nat := 64
  maxPendingToolsList : Nat := 64

inductive EnvelopeKind where
  | invalid
  | request
  | notification
  | response
deriving DecidableEq, Repr

inductive IdKind where
  | absent
  | nullValue
  | string
  | number
deriving DecidableEq, Repr

inductive ClassificationError where
  | none
  | messageTooLarge
  | malformedJson
  | unsupportedJsonrpcVersion
  | duplicateMember
  | invalidEnvelope
deriving DecidableEq, Repr

/-- A rejected envelope keeps the fields scanned before the error. -/
structure Envelope where
  kind : EnvelopeKind := .invalid
  idKind : IdKind := .absent
  idJson : Bytes := []
  method : Bytes := []
  error : ClassificationError := .none
deriving DecidableEq, Repr

/-- An envelope with an error, which is what every early return of `classify`
hands back. -/
structure Rejected where
  toEnvelope : Envelope
  isError : toEnvelope.error ≠ .none

/-- The local variables of `classify`. -/
structure ClassifyState where
  sawJsonrpc : Bool := false
  sawMethod : Bool := false
  sawId : Bool := false
  sawResult : Bool := false
  sawError : Bool := false
  idKind : IdKind := .absent
  idJson : Bytes := []
  method : Bytes := []

/-! ## §2  `classify` -/

namespace ClassifyState

variable (limits : RuntimeLimits) (st : ClassifyState)

def fail (error : ClassificationError) (h : error ≠ .none) : Rejected :=
  ⟨⟨.invalid, st.idKind, st.idJson, st.method, error⟩, h⟩

def jsonrpcMember : Reader Rejected ClassifyState :=
  if st.sawJsonrpc then .fail (st.fail .duplicateMember nofun)
  else (Reader.string (st.fail .unsupportedJsonrpcVersion nofun)).check fun version =>
    if version.hasEscape ∨ version.contents ≠ ascii "2.0" then
      .error (st.fail .unsupportedJsonrpcVersion nofun)
    else .ok { st with sawJsonrpc := true }

def methodMember : Reader Rejected ClassifyState :=
  if st.sawMethod then .fail (st.fail .duplicateMember nofun)
  else (Reader.string (st.fail .invalidEnvelope nofun)).check fun value =>
    if value.hasEscape ∨ value.contents = [] then
      .error (st.fail .invalidEnvelope nofun)
    else .ok { st with sawMethod := true, method := value.contents }

/-- `null`, a string or a number. -/
def idValue : Reader Rejected IdKind :=
  .tryLiteral .null .nullValue <|
    .onByte 0x22 ((Reader.string (st.fail .malformedJson nofun)).map fun _ => .string)
      ((Reader.number (st.fail .invalidEnvelope nofun)).map fun _ => .number)

def idMember : Reader Rejected ClassifyState :=
  if st.sawId then .fail (st.fail .duplicateMember nofun)
  else st.idValue.captured.map fun (kind, json) =>
    { st with sawId := true, idKind := kind, idJson := json }

def resultMember : Reader Rejected ClassifyState :=
  if st.sawResult then .fail (st.fail .duplicateMember nofun)
  else (skipValue 1 limits.maxNestingDepth (st.fail .malformedJson nofun)).map fun _ =>
    { st with sawResult := true }

def errorMember : Reader Rejected ClassifyState :=
  if st.sawError then .fail (st.fail .duplicateMember nofun)
  else (skipValue 1 limits.maxNestingDepth (st.fail .malformedJson nofun)).map fun _ =>
    { st with sawError := true }

def otherMember : Reader Rejected ClassifyState :=
  (skipValue 1 limits.maxNestingDepth (st.fail .malformedJson nofun)).map fun _ => st

def member (key : StringToken) : Reader Rejected ClassifyState :=
  if key.contents = ascii "jsonrpc" then st.jsonrpcMember
  else if key.contents = ascii "method" then st.methodMember
  else if key.contents = ascii "id" then st.idMember
  else if key.contents = ascii "result" then st.resultMember limits
  else if key.contents = ascii "error" then st.errorMember limits
  else st.otherMember limits

/-- The checks behind the loop. -/
def envelope : Envelope :=
  let invalid := (st.fail .invalidEnvelope nofun).toEnvelope
  if ¬ st.sawJsonrpc then invalid
  else if st.sawMethod then
    if st.sawResult ∨ st.sawError then invalid
    else ⟨if st.sawId then .request else .notification, st.idKind, st.idJson,
      st.method, .none⟩
  -- a response has exactly one of the two
  else if st.sawId ∧ st.sawResult ≠ st.sawError then
    ⟨.response, st.idKind, st.idJson, [], .none⟩
  else invalid

end ClassifyState

def envelopeReader (limits : RuntimeLimits) : ObjectReader ClassifyState Rejected where
  malformed st := st.fail .malformedJson nofun
  checkKey st key :=
    if key.hasEscape then .error (st.fail .malformedJson nofun) else .ok ()
  member st key := st.member limits key

/-- At the end of the input the loop is left as if the object were closed. -/
def envelopeDocument (limits : RuntimeLimits) :
    Scan Rejected (ClassifyState × LoopExit) :=
  (envelopeReader limits).loop.document ⟨{ error := .malformedJson }, nofun⟩
    (fun _ _ => .ok ()) (fun st => st.fail .malformedJson nofun) {}

def classify (limits : RuntimeLimits) (message : Bytes) : Envelope :=
  if message.length > limits.maxMessageBytes then { error := .messageTooLarge }
  else
    match (envelopeDocument limits message).1 with
    | .ok (st, _) => st.envelope
    | .error rejected => rejected.toEnvelope

/-! ## §3  The members of an envelope -/

def envelopeKeys : List Bytes :=
  [ascii "jsonrpc", ascii "method", ascii "id", ascii "result", ascii "error"]

namespace ClassifyState

def seen (st : ClassifyState) (key : Bytes) : Bool :=
  if key = ascii "jsonrpc" then st.sawJsonrpc
  else if key = ascii "method" then st.sawMethod
  else if key = ascii "id" then st.sawId
  else if key = ascii "result" then st.sawResult
  else if key = ascii "error" then st.sawError
  else false

end ClassifyState

/-- What `idValue` makes of a tree. -/
def idKindOf : Value → Option IdKind
  | .lit .null => some .nullValue
  | .str _ => some .string
  | .num _ => some .number
  | _ => none

/-- A token of an id holds no control byte. -/
theorem idKindOf_printable {v : Value} {kind : IdKind} (h : idKindOf v = some kind) :
    ∀ b ∈ v.render, 0x20 ≤ b := by
  cases v with
  | str t =>
      have hquote : ∀ b ∈ [(0x22 : UInt8)], 0x20 ≤ b := printable_of_all (by decide)
      have hrender : (Value.str t).render = [0x22] ++ (t.val ++ [0x22]) := by
        simp [Value.render]
      rw [hrender]
      simp only [List.forall_mem_append]
      exact ⟨hquote, t.property.printable, hquote⟩
  | num t => exact t.property.printable
  | lit w =>
      cases w with
      | null => exact printable_of_all (by decide)
      | true => cases h
      | false => cases h
  | obj gap ms => cases h
  | arr gap es => cases h

def memberOk (limits : RuntimeLimits) (key : Bytes) (v : Value) : Prop :=
  if key = ascii "jsonrpc" then IsPlain (ascii "2.0") v
  else if key = ascii "method" then
    ∃ t : StringText, v = .str t ∧ 0x5C ∉ t.val ∧ t.val ≠ []
  else if key = ascii "id" then (idKindOf v).isSome = true
  else 1 + v.nesting ≤ limits.maxNestingDepth

def ClassifyState.update (st : ClassifyState) (key : Bytes) (v : Value) :
    ClassifyState :=
  if key = ascii "jsonrpc" then { st with sawJsonrpc := true }
  else if key = ascii "method" then
    { st with sawMethod := true, method := plainText v }
  else if key = ascii "id" then
    { st with sawId := true, idKind := (idKindOf v).getD .absent, idJson := v.render }
  else if key = ascii "result" then { st with sawResult := true }
  else if key = ascii "error" then { st with sawError := true }
  else st

section handlers

variable {limits : RuntimeLimits} {st st' : ClassifyState} {v : Value}

theorem jsonrpcMember_ok :
    st.jsonrpcMember.read v = .ok st' ↔
      st.sawJsonrpc = false ∧ IsPlain (ascii "2.0") v ∧
        st' = { st with sawJsonrpc := true } := by
  unfold ClassifyState.jsonrpcMember
  by_cases hsaw : st.sawJsonrpc = true
  · rw [if_pos hsaw]
    simp [Reader.fail, hsaw]
  · rw [if_neg hsaw, Reader.string_check_ok]
    constructor
    · rintro ⟨t, rfl, h⟩
      split at h
      · cases h
      · rename_i hok
        obtain ⟨-, hval⟩ := not_or.mp hok
        cases h
        exact ⟨by simpa using hsaw, ⟨t, rfl, not_not.mp hval⟩, rfl⟩
    · rintro ⟨-, ⟨t, rfl, hval⟩, rfl⟩
      refine ⟨t, rfl, ?_⟩
      rw [hval]
      rfl

theorem methodMember_ok :
    st.methodMember.read v = .ok st' ↔
      st.sawMethod = false ∧
        (∃ t : StringText, v = .str t ∧ 0x5C ∉ t.val ∧ t.val ≠ []) ∧
        st' = { st with sawMethod := true, method := plainText v } := by
  unfold ClassifyState.methodMember
  by_cases hsaw : st.sawMethod = true
  · rw [if_pos hsaw]
    simp [Reader.fail, hsaw]
  · rw [if_neg hsaw, Reader.string_check_ok]
    constructor
    · rintro ⟨t, rfl, h⟩
      split at h
      · cases h
      · rename_i hok
        obtain ⟨hesc, hval⟩ := not_or.mp hok
        cases h
        exact ⟨by simpa using hsaw, ⟨t, rfl, by simpa [tokenOf] using hesc, hval⟩,
          rfl⟩
    · rintro ⟨-, ⟨t, rfl, hesc, hval⟩, rfl⟩
      refine ⟨t, rfl, ?_⟩
      rw [if_neg]
      · rfl
      · simpa [tokenOf, hesc] using hval

theorem idValue_read :
    st.idValue.read v = match idKindOf v with
      | some kind => .ok kind
      | none => .error (st.fail .invalidEnvelope nofun) := by
  cases v with
  | str t => rfl
  | num t =>
      have h : ¬ (Value.num t).render.head? = some 0x22 :=
        head_num t (by decide) (by decide)
      simp [ClassifyState.idValue, Reader.tryLiteral, Reader.readLiteralOr, Reader.onByte,
        h, Reader.map, Reader.check, Reader.number, idKindOf, bind, Except.bind]
  | lit w => cases w <;> rfl
  | obj gap ms =>
      have h : ¬ (Value.obj gap ms).render.head? = some 0x22 := by
        rw [head_obj]
        decide
      simp [ClassifyState.idValue, Reader.tryLiteral, Reader.readLiteralOr, Reader.onByte,
        h, Reader.map, Reader.check, Reader.number, idKindOf, bind, Except.bind]
  | arr gap es =>
      have h : ¬ (Value.arr gap es).render.head? = some 0x22 := by
        rw [head_arr]
        decide
      simp [ClassifyState.idValue, Reader.tryLiteral, Reader.readLiteralOr, Reader.onByte,
        h, Reader.map, Reader.check, Reader.number, idKindOf, bind, Except.bind]

theorem idMember_ok :
    st.idMember.read v = .ok st' ↔
      st.sawId = false ∧ (idKindOf v).isSome ∧
        st' = { st with sawId := true, idKind := (idKindOf v).getD .absent,
                        idJson := v.render } := by
  unfold ClassifyState.idMember
  by_cases hsaw : st.sawId = true
  · rw [if_pos hsaw]
    simp [Reader.fail, hsaw]
  · rw [if_neg hsaw]
    have h : (st.idValue.captured.map fun a =>
        ({ st with sawId := true, idKind := a.1, idJson := a.2 } :
          ClassifyState)).read v =
        ((st.idValue.read v).map fun kind => (kind, v.render)) >>= fun a =>
          .ok { st with sawId := true, idKind := a.1, idJson := a.2 } := rfl
    have hread : (st.idValue.captured.map fun (kind, json) =>
        ({ st with sawId := true, idKind := kind, idJson := json } :
          ClassifyState)).read v = _ := h
    rw [hread, idValue_read]
    cases hkind : idKindOf v with
    | none =>
        constructor
        · rintro ⟨⟩
        · rintro ⟨-, hsome, -⟩
          cases hsome
    | some kind =>
        constructor
        · rintro ⟨⟩
          exact ⟨by simpa using hsaw, rfl, rfl⟩
        · rintro ⟨-, -, rfl⟩
          rfl

theorem resultMember_ok :
    (st.resultMember limits).read v = .ok st' ↔
      st.sawResult = false ∧ 1 + v.nesting ≤ limits.maxNestingDepth ∧
        st' = { st with sawResult := true } := by
  unfold ClassifyState.resultMember
  by_cases hsaw : st.sawResult = true
  · rw [if_pos hsaw]
    simp [Reader.fail, hsaw]
  · rw [if_neg hsaw, skipValue_map_ok]
    simp [hsaw]

theorem errorMember_ok :
    (st.errorMember limits).read v = .ok st' ↔
      st.sawError = false ∧ 1 + v.nesting ≤ limits.maxNestingDepth ∧
        st' = { st with sawError := true } := by
  unfold ClassifyState.errorMember
  by_cases hsaw : st.sawError = true
  · rw [if_pos hsaw]
    simp [Reader.fail, hsaw]
  · rw [if_neg hsaw, skipValue_map_ok]
    simp [hsaw]

end handlers

/-- The handlers of `classify` read each of the five known members once. -/
theorem envelope_oncePerKey (limits : RuntimeLimits) :
    OncePerKey (envelopeReader limits) envelopeKeys ClassifyState.seen
      (memberOk limits) ClassifyState.update where
  key st raw := by
    simp [envelopeReader, tokenOf]
  member st raw v st' := by
    show (st.member limits (tokenOf raw)).read v = .ok st' ↔ _
    unfold ClassifyState.seen memberOk ClassifyState.update
    by_cases h₁ : raw = ascii "jsonrpc"
    · have hm : st.member limits (tokenOf raw) = st.jsonrpcMember := if_pos h₁
      simp only [hm, if_pos h₁]
      exact jsonrpcMember_ok
    by_cases h₂ : raw = ascii "method"
    · have hm : st.member limits (tokenOf raw) = st.methodMember :=
        (if_neg h₁).trans (if_pos h₂)
      simp only [hm, if_neg h₁, if_pos h₂]
      exact methodMember_ok
    by_cases h₃ : raw = ascii "id"
    · have hm : st.member limits (tokenOf raw) = st.idMember :=
        (if_neg h₁).trans ((if_neg h₂).trans (if_pos h₃))
      simp only [hm, if_neg h₁, if_neg h₂, if_pos h₃]
      exact idMember_ok
    by_cases h₄ : raw = ascii "result"
    · have hm : st.member limits (tokenOf raw) = st.resultMember limits :=
        (if_neg h₁).trans ((if_neg h₂).trans ((if_neg h₃).trans (if_pos h₄)))
      simp only [hm, if_neg h₁, if_neg h₂, if_neg h₃, if_pos h₄]
      exact resultMember_ok
    by_cases h₅ : raw = ascii "error"
    · have hm : st.member limits (tokenOf raw) = st.errorMember limits :=
        (if_neg h₁).trans ((if_neg h₂).trans ((if_neg h₃).trans
          ((if_neg h₄).trans (if_pos h₅))))
      simp only [hm, if_neg h₁, if_neg h₂, if_neg h₃, if_neg h₄, if_pos h₅]
      exact errorMember_ok
    have hm : st.member limits (tokenOf raw) = st.otherMember limits :=
      (if_neg h₁).trans ((if_neg h₂).trans ((if_neg h₃).trans
        ((if_neg h₄).trans (if_neg h₅))))
    simp only [hm, if_neg h₁, if_neg h₂, if_neg h₃, if_neg h₄, if_neg h₅, true_and]
    exact skipValue_map_ok
  marks st raw v key := by
    -- the member read sets its own flag and no other
    unfold ClassifyState.update
    split_ifs with h₁ h₂ h₃ h₄ h₅
    · subst h₁
      by_cases h : key = ascii "jsonrpc"
      · subst h; simp [ClassifyState.seen, envelopeKeys]
      · simp [ClassifyState.seen, h]
    · subst h₂
      by_cases h : key = ascii "method"
      · subst h; simp [ClassifyState.seen, envelopeKeys, h₁]
      · simp [ClassifyState.seen, h]
    · subst h₃
      by_cases h : key = ascii "id"
      · subst h; simp [ClassifyState.seen, envelopeKeys, h₁, h₂]
      · simp [ClassifyState.seen, h]
    · subst h₄
      by_cases h : key = ascii "result"
      · subst h; simp [ClassifyState.seen, envelopeKeys, h₁, h₂, h₃]
      · simp [ClassifyState.seen, h]
    · subst h₅
      by_cases h : key = ascii "error"
      · subst h; simp [ClassifyState.seen, envelopeKeys, h₁, h₂, h₃, h₄]
      · simp [ClassifyState.seen, h]
    · simp [envelopeKeys, h₁, h₂, h₃, h₄, h₅]
  unknown st key h := by
    simp only [envelopeKeys, List.mem_cons, List.not_mem_nil, or_false, not_or] at h
    obtain ⟨h₁, h₂, h₃, h₄, h₅⟩ := h
    simp [ClassifyState.seen, h₁, h₂, h₃, h₄, h₅]

/-! ## §4  The texts that `classify` accepts -/

/-- The members of a request or notification: one plain method, at most one
id, neither result nor error. -/
structure IsCall (ms : List (Member Value)) : Prop where
  method : ∃ t : StringText, valuesAt (ascii "method") ms = [.str t] ∧
    0x5C ∉ t.val ∧ t.val ≠ []
  id : (valuesAt (ascii "id") ms).length ≤ 1
  result : valuesAt (ascii "result") ms = []
  error : valuesAt (ascii "error") ms = []

/-- The members of a response: no method, one id, one result or one error. -/
structure IsReply (ms : List (Member Value)) : Prop where
  method : valuesAt (ascii "method") ms = []
  id : (valuesAt (ascii "id") ms).length = 1
  outcome : (valuesAt (ascii "result") ms).length +
    (valuesAt (ascii "error") ms).length = 1

structure EnvelopeMembers (ms : List (Member Value)) : Prop where
  keys : ∀ m ∈ ms, 0x5C ∉ m.key.val
  version : ∃ v, valuesAt (ascii "jsonrpc") ms = [v] ∧ IsPlain (ascii "2.0") v
  ids : ∀ v ∈ valuesAt (ascii "id") ms, (idKindOf v).isSome = true
  shape : IsCall ms ∨ IsReply ms

/-- The values that `classify` skips, which are all but the envelope's own
scalars, stay within the nesting limit. -/
def SkippedWithin (maxDepth : Nat) (ms : List (Member Value)) : Prop :=
  ∀ m ∈ ms, m.key.val ∉ [ascii "jsonrpc", ascii "method", ascii "id"] →
    1 + m.value.nesting ≤ maxDepth

/-- The envelope that the members determine. -/
def determinedEnvelope (ms : List (Member Value)) : Envelope where
  kind :=
    if valuesAt (ascii "method") ms = [] then .response
    else if valuesAt (ascii "id") ms = [] then .notification
    else .request
  idKind := match valuesAt (ascii "id") ms with
    | v :: _ => (idKindOf v).getD .absent
    | [] => .absent
  idJson := match valuesAt (ascii "id") ms with
    | v :: _ => v.render
    | [] => []
  method := match valuesAt (ascii "method") ms with
    | v :: _ => plainText v
    | [] => []
  error := .none

theorem determinedEnvelope_idJson {ms : List (Member Value)} {v : Value}
    (h : valuesAt (ascii "id") ms = [v]) : (determinedEnvelope ms).idJson = v.render := by
  simp only [determinedEnvelope, h]

/-- What the loop knows of the members `ms` when it is left. -/
def finalState (ms : List (Member Value)) : ClassifyState :=
  updates ClassifyState.update {} ms

theorem seen_init (key : Bytes) : ({} : ClassifyState).seen key = false := by
  unfold ClassifyState.seen
  split_ifs <;> rfl

theorem finalState_saw (ms : List (Member Value)) (key : Bytes)
    (h : key ∈ envelopeKeys) :
    (finalState ms).seen key = decide (valuesAt key ms ≠ []) := by
  unfold finalState
  rw [updates_seen h (envelope_oncePerKey {}).marks]
  rw [seen_init, Bool.false_or]

theorem finalState_sawJsonrpc (ms : List (Member Value)) :
    (finalState ms).sawJsonrpc = decide (valuesAt (ascii "jsonrpc") ms ≠ []) :=
  finalState_saw ms (ascii "jsonrpc") (by decide)

theorem finalState_sawMethod (ms : List (Member Value)) :
    (finalState ms).sawMethod = decide (valuesAt (ascii "method") ms ≠ []) :=
  finalState_saw ms (ascii "method") (by decide)

theorem finalState_sawId (ms : List (Member Value)) :
    (finalState ms).sawId = decide (valuesAt (ascii "id") ms ≠ []) :=
  finalState_saw ms (ascii "id") (by decide)

theorem finalState_sawResult (ms : List (Member Value)) :
    (finalState ms).sawResult = decide (valuesAt (ascii "result") ms ≠ []) :=
  finalState_saw ms (ascii "result") (by decide)

theorem finalState_sawError (ms : List (Member Value)) :
    (finalState ms).sawError = decide (valuesAt (ascii "error") ms ≠ []) :=
  finalState_saw ms (ascii "error") (by decide)

theorem finalState_method (ms : List (Member Value)) :
    (finalState ms).method =
      (valuesAt (ascii "method") ms).foldl (fun _ v => plainText v) [] := by
  refine updates_field ClassifyState.method (ascii "method") plainText ?_ {} ms
  intro st raw v
  unfold ClassifyState.update
  by_cases h : raw = ascii "method"
  · subst h
    rfl
  · rw [if_neg h]
    split_ifs <;> rfl

theorem finalState_idJson (ms : List (Member Value)) :
    (finalState ms).idJson =
      (valuesAt (ascii "id") ms).foldl (fun _ v => v.render) [] := by
  refine updates_field ClassifyState.idJson (ascii "id") Value.render ?_ {} ms
  intro st raw v
  unfold ClassifyState.update
  by_cases h : raw = ascii "id"
  · subst h
    rfl
  · rw [if_neg h]
    split_ifs <;> rfl

theorem finalState_idKind (ms : List (Member Value)) :
    (finalState ms).idKind = (valuesAt (ascii "id") ms).foldl
      (fun _ v => (idKindOf v).getD .absent) .absent := by
  refine updates_field ClassifyState.idKind (ascii "id")
    (fun v => (idKindOf v).getD .absent) ?_ {} ms
  intro st raw v
  unfold ClassifyState.update
  by_cases h : raw = ascii "id"
  · subst h
    rfl
  · rw [if_neg h]
    split_ifs <;> rfl

/-- The final checks pass exactly if the flags are those of a call or a reply. -/
theorem envelope_error_none (st : ClassifyState) :
    st.envelope.error = .none ↔ st.sawJsonrpc = true ∧
      ((st.sawMethod = true ∧ st.sawResult = false ∧ st.sawError = false) ∨
        (st.sawMethod = false ∧ st.sawId = true ∧ st.sawResult ≠ st.sawError)) := by
  unfold ClassifyState.envelope ClassifyState.fail
  cases st.sawJsonrpc <;> cases st.sawMethod <;> cases st.sawId <;>
    cases st.sawResult <;> cases st.sawError <;> simp

theorem finalState_envelope {ms : List (Member Value)} (h : EnvelopeMembers ms) :
    (finalState ms).envelope = determinedEnvelope ms := by
  have hversion : (finalState ms).sawJsonrpc = true := by
    obtain ⟨v, hv, -⟩ := h.version
    rw [finalState_sawJsonrpc, hv]
    rfl
  unfold ClassifyState.envelope determinedEnvelope
  simp only [hversion, finalState_sawMethod, finalState_sawId,
    finalState_sawResult, finalState_sawError, finalState_idKind,
    finalState_idJson, finalState_method]
  rcases h.shape with hcall | hreply
  · obtain ⟨t, ht, -⟩ := hcall.method
    rcases eq_nil_or_singleton hcall.id with hid | ⟨v, hid⟩
    · simp [ht, hid, hcall.result, hcall.error]
    · simp [ht, hid, hcall.result, hcall.error]
  · obtain ⟨v, hid⟩ := List.length_eq_one_iff.mp hreply.id
    have hout := hreply.outcome
    cases hr : valuesAt (ascii "result") ms with
    | nil =>
        cases he : valuesAt (ascii "error") ms with
        | nil => simp [hr, he] at hout
        | cons e es => simp [hreply.method, hid]
    | cons r rs =>
        cases he : valuesAt (ascii "error") ms with
        | nil => simp [hreply.method, hid]
        | cons e es =>
            simp only [hr, he, List.length_cons] at hout
            omega

/-- One id, and one result or one error: what the flags of a reply stand for. -/
theorem IsReply.of_flags {ms : List (Member Value)}
    (hcount : ∀ key ∈ envelopeKeys, (valuesAt key ms).length ≤ 1)
    (hmethod : valuesAt (ascii "method") ms = []) (hid : valuesAt (ascii "id") ms ≠ [])
    (hout : decide (valuesAt (ascii "result") ms ≠ []) ≠
      decide (valuesAt (ascii "error") ms ≠ [])) : IsReply ms := by
  have hidOne := hcount (ascii "id") (by decide)
  have hresultOne := hcount (ascii "result") (by decide)
  have herrorOne := hcount (ascii "error") (by decide)
  rw [← List.length_pos_iff] at hid
  refine ⟨hmethod, by omega, ?_⟩
  rcases eq_nil_or_singleton hresultOne with hr | ⟨r, hr⟩
  · rcases eq_nil_or_singleton herrorOne with he | ⟨e, he⟩
    · exact absurd (by rw [hr, he]) hout
    · simp [hr, he]
  · rcases eq_nil_or_singleton herrorOne with he | ⟨e, he⟩
    · simp [hr, he]
    · exact absurd (by simp [hr, he]) hout

theorem EnvelopeMembers.of_once {limits : RuntimeLimits} {ms : List (Member Value)}
    (h : OnceMembers envelopeKeys [] (memberOk limits) ms)
    (herror : (finalState ms).envelope.error = .none) :
    EnvelopeMembers ms ∧ SkippedWithin limits.maxNestingDepth ms := by
  have hval := forall_mem_valuesAt h.values
  have hflags := (envelope_error_none (finalState ms)).mp herror
  simp only [finalState_sawJsonrpc, finalState_sawMethod, finalState_sawId,
    finalState_sawResult, finalState_sawError, decide_eq_true_eq,
    decide_eq_false_iff_not, not_not] at hflags
  obtain ⟨hversion, hshape⟩ := hflags
  refine ⟨⟨h.keys, ?_, fun v hv => hval (ascii "id") v hv, ?_⟩, fun m hm hkey => ?_⟩
  · obtain ⟨v, hv⟩ :=
      (eq_nil_or_singleton (h.once (ascii "jsonrpc") (by decide))).resolve_left hversion
    exact ⟨v, hv, hval (ascii "jsonrpc") v (by simp [hv])⟩
  · rcases hshape with ⟨hmethod, hresult, herror⟩ | ⟨hmethod, hid, hout⟩
    · obtain ⟨v, hv⟩ :=
        (eq_nil_or_singleton (h.once (ascii "method") (by decide))).resolve_left hmethod
      obtain ⟨t, rfl, ht⟩ := hval (ascii "method") v (by simp [hv])
      exact Or.inl ⟨⟨t, hv, ht⟩, h.once _ (by decide), hresult, herror⟩
    · exact Or.inr (IsReply.of_flags h.once hmethod hid hout)
  · simp only [List.mem_cons, List.not_mem_nil, or_false, not_or] at hkey
    have hok := h.values m hm
    unfold memberOk at hok
    rwa [if_neg hkey.1, if_neg hkey.2.1, if_neg hkey.2.2] at hok

theorem EnvelopeMembers.once {limits : RuntimeLimits} {ms : List (Member Value)}
    (hms : EnvelopeMembers ms) (hskip : SkippedWithin limits.maxNestingDepth ms) :
    OnceMembers envelopeKeys [] (memberOk limits) ms where
  keys := hms.keys
  once := by
    obtain ⟨v, hv, -⟩ := hms.version
    simp only [envelopeKeys, List.forall_mem_cons, List.not_mem_nil,
      false_implies, implies_true, and_true]
    rcases hms.shape with hcall | hreply
    · obtain ⟨t, ht, -⟩ := hcall.method
      simp [hv, ht, hcall.id, hcall.result, hcall.error]
    · have hout := hreply.outcome
      rw [hv, hreply.method, hreply.id]
      exact ⟨by simp, by simp, by simp, by omega, by omega⟩
  present := by simp
  values m hm := by
    have hmem : ∀ key, m.key.val = key → m.value ∈ valuesAt key ms :=
      fun key h => mem_valuesAt.mpr ⟨m, hm, h, rfl⟩
    unfold memberOk
    split_ifs with h₁ h₂ h₃
    · obtain ⟨v, hv, hplain⟩ := hms.version
      have h := hmem _ h₁
      rw [hv, List.mem_singleton] at h
      rw [h]
      exact hplain
    · rcases hms.shape with hcall | hreply
      · obtain ⟨t, ht, hval⟩ := hcall.method
        have h := hmem _ h₂
        rw [ht, List.mem_singleton] at h
        exact ⟨t, h, hval⟩
      · have h := hmem _ h₂
        rw [hreply.method] at h
        exact absurd h List.not_mem_nil
    · exact hms.ids _ (hmem _ h₃)
    · exact hskip m hm (by simp [h₁, h₂, h₃])

/-- The loop and the final checks accept exactly the envelope's members. -/
theorem members_accepted (limits : RuntimeLimits) (ms : List (Member Value)) :
    (∃ st, (envelopeReader limits).members {} ms = .ok st ∧
        st.envelope.error = .none) ↔
      EnvelopeMembers ms ∧ SkippedWithin limits.maxNestingDepth ms := by
  have hone := envelope_oncePerKey limits
  constructor
  · rintro ⟨st, hrun, herror⟩
    obtain ⟨hall, hcount, rfl⟩ := (hone.members_ok_init seen_init _ _).mp hrun
    exact EnvelopeMembers.of_once ⟨fun m hm => (hall m hm).1, hcount, by simp,
      fun m hm => (hall m hm).2⟩ herror
  · rintro ⟨hms, hskip⟩
    have honce := hms.once hskip
    refine ⟨finalState ms, (hone.members_ok_init seen_init _ _).mpr ⟨?_, honce.once, rfl⟩, ?_⟩
    · exact fun m hm => ⟨honce.keys m hm, honce.values m hm⟩
    · rw [finalState_envelope hms]
      rfl

/-- On an object text, closed or cut short, `classify` goes by the members. -/
theorem classify_of_text {limits : RuntimeLimits} {exit : LoopExit}
    {ms : List (Member Value)} {tail m : Bytes}
    (hsize : m.length ≤ limits.maxMessageBytes)
    (htext : DocumentText exit ms tail m) (hexit : exit ≠ .trailing) :
    classify limits m = match (envelopeReader limits).members {} ms with
      | .ok st => st.envelope
      | .error rejected => rejected.toEnvelope := by
  have hdoc : (envelopeDocument limits m).1 =
      ((envelopeReader limits).members {} ms >>= fun st => .ok (st, exit)) := by
    unfold envelopeDocument
    rw [ObjectReader.document_agrees _ htext hexit]
    rfl
  unfold classify
  rw [if_neg (by omega), hdoc]
  cases (envelopeReader limits).members {} ms <;> rfl

/-- What `classify` accepts: an envelope's members, in an object text that is
closed or cut short after a comma. -/
theorem classify_accepts (limits : RuntimeLimits) (m : Bytes) :
    (classify limits m).error = .none ↔
      m.length ≤ limits.maxMessageBytes ∧
        ∃ exit ms tail, DocumentText exit ms tail m ∧ exit ≠ .trailing ∧
          EnvelopeMembers ms ∧ SkippedWithin limits.maxNestingDepth ms := by
  constructor
  · intro h
    by_cases hsize : m.length ≤ limits.maxMessageBytes
    · refine ⟨hsize, ?_⟩
      unfold classify at h
      rw [if_neg (by omega)] at h
      split at h
      · rename_i st exit hdoc
        obtain ⟨ms, tail, htext, hrun, -, hexit⟩ :=
          (ObjectReader.document_ok _).mp hdoc
        exact ⟨exit, ms, tail, htext, hexit,
          (members_accepted limits ms).mp ⟨st, hrun, h⟩⟩
      · rename_i rejected _
        exact absurd h rejected.isError
    · unfold classify at h
      rw [if_pos (by omega)] at h
      exact absurd h (by decide)
  · rintro ⟨hsize, exit, ms, tail, htext, hexit, hms⟩
    obtain ⟨st, hrun, herror⟩ := (members_accepted limits ms).mpr hms
    rw [classify_of_text hsize htext hexit, hrun]
    exact herror

/-- An accepted text gets the envelope that its members determine. -/
theorem classify_determined {limits : RuntimeLimits} {exit : LoopExit}
    {ms : List (Member Value)} {tail m : Bytes}
    (hok : (classify limits m).error = .none)
    (htext : DocumentText exit ms tail m) (hexit : exit ≠ .trailing) :
    EnvelopeMembers ms ∧ SkippedWithin limits.maxNestingDepth ms ∧
      classify limits m = determinedEnvelope ms := by
  have hsize := ((classify_accepts limits m).mp hok).1
  rw [classify_of_text hsize htext hexit] at hok ⊢
  cases hrun : (envelopeReader limits).members {} ms with
  | error rejected =>
      rw [hrun] at hok
      exact absurd hok rejected.isError
  | ok st =>
      rw [hrun] at hok
      obtain ⟨hms, hskip⟩ := (members_accepted limits ms).mp ⟨st, hrun, hok⟩
      obtain ⟨-, -, rfl⟩ := ((envelope_oncePerKey limits).members_ok_init
        seen_init _ _).mp hrun
      exact ⟨hms, hskip, finalState_envelope hms⟩

end NativeGuard.Protocol

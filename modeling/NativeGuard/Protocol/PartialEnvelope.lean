import NativeGuard.Protocol.Envelope
import NativeGuard.Protocol.Invariants

/-!
# What a rejected envelope keeps

`classify` hands back the fields it has scanned when it gives up. Whatever the
message, its id is a complete token or absent, and id and method stand in the
message next to each other's keys (`classify_scanned`). The invariant
`ScannedState` says so of every turn of the loop.
-/

namespace NativeGuard.Protocol

open Json Json.Scan

/-! ## §1  The invariant -/

/-- The id is absent, or a complete token of its kind. -/
def ScannedId (kind : IdKind) (json : Bytes) : Prop :=
  (json = [] ∧ kind = .absent) ∨ ∃ v, idKindOf v = some kind ∧ json = v.render

/-- The bytes of an id member, with the brace in front of it. -/
def idCost (json : Bytes) : Nat := if json = [] then 0 else json.length + 6

/-- The bytes of a method member. -/
def methodCost (method : Bytes) : Nat :=
  if method = [] then 0 else method.length + 11

/-- What an envelope keeps of a message of `size` bytes. -/
structure ScannedEnvelope (size : Nat) (e : Envelope) : Prop where
  id : ScannedId e.idKind e.idJson
  cost : idCost e.idJson + methodCost e.method ≤ size

/-- The local variables of `classify` with `n` bytes left of `size`. -/
structure ScannedState (size : Nat) (st : ClassifyState) (n : Nat) : Prop where
  id : ScannedId st.idKind st.idJson
  unseenId : st.sawId = false → st.idJson = []
  unseenMethod : st.sawMethod = false → st.method = []
  cost : n + max 1 (idCost st.idJson) + methodCost st.method ≤ size

variable {size : Nat} {st st' : ClassifyState}

theorem ScannedState.mono {n n' : Nat} (h : ScannedState size st n) (hle : n' ≤ n) :
    ScannedState size st n' :=
  ⟨h.id, h.unseenId, h.unseenMethod, by have := h.cost; omega⟩

theorem ScannedState.fail {n : Nat} (h : ScannedState size st n)
    (error : ClassificationError) (herror : error ≠ .none) :
    ScannedEnvelope size (st.fail error herror).toEnvelope := by
  refine ⟨h.id, ?_⟩
  have hcost := h.cost
  show idCost st.idJson + methodCost st.method ≤ size
  omega

theorem ScannedState.init {n : Nat} (h : n + 1 ≤ size) :
    ScannedState size {} n := by
  refine ⟨Or.inl ⟨rfl, rfl⟩, fun _ => rfl, fun _ => rfl, ?_⟩
  simpa [idCost, methodCost] using h

/-! ## §2  The members -/

section members

variable (limits : RuntimeLimits) (n : Nat)

/-- The rejected envelopes of a message of `size` bytes. -/
abbrev KeepsScanned (size : Nat) (rejected : Rejected) : Prop :=
  ScannedEnvelope size rejected.toEnvelope

theorem fail_keeps (error : ClassificationError) (herror : error ≠ .none)
    {α : Type} {Q : α → Bytes → Prop} :
    Triple (fun s => ScannedState size st (n + s.length))
      (Scan.fail (st.fail error herror)) Q (KeepsScanned size) :=
  triple_fail fun _ hs => hs.fail error herror

/-- A member that is only marked as seen. -/
theorem skipped_keeps {depth maxDepth : Nat} {error : ClassificationError}
    {herror : error ≠ .none} (hmark : ∀ n, ScannedState size st n →
      ScannedState size st' n) :
    Triple (fun s => ScannedState size st (n + s.length))
      ((skipValue depth maxDepth (st.fail error herror)).map fun _ => st').scan
      (fun out s => ScannedState size out s.length) (KeepsScanned size) := by
  have hskip : Triple (fun s => ScannedState size st (n + s.length))
      (skipValue depth maxDepth (st.fail error herror)).scan
      (fun _ s => ScannedState size st s.length) (KeepsScanned size) := by
    apply triple_orFail
    · intro s hs
      exact hs.fail error herror
    · intro s u rest hs hscan
      have hle := (skipValueAt _).scan_le hscan
      exact hs.mono (by omega)
  apply hskip.bind
  intro _
  apply triple_ofExcept
  · rintro s _ hs ⟨⟩
    exact hmark _ hs
  · rintro s _ _ ⟨⟩

theorem jsonrpcMember_keeps :
    Triple (fun s => ScannedState size st (n + s.length)) st.jsonrpcMember.scan
      (fun out s => ScannedState size out s.length) (KeepsScanned size) := by
  unfold ClassifyState.jsonrpcMember
  split
  · exact fail_keeps n _ _
  · have hstring : Triple (fun s => ScannedState size st (n + s.length))
        (Reader.string (st.fail .unsupportedJsonrpcVersion (by simp))).scan
        (fun _ s => ScannedState size st s.length) (KeepsScanned size) := by
      apply triple_orFail
      · intro s hs
        exact hs.fail _ _
      · intro s token rest hs hscan
        obtain ⟨t, rfl, -⟩ := scanString_sound hscan
        exact hs.mono (by simp only [List.length_cons, List.length_append]; omega)
    apply hstring.bind
    intro version
    apply triple_ofExcept
    · intro s out hs hout
      dsimp only at hout
      split at hout
      · cases hout
      · cases hout
        exact ⟨hs.id, hs.unseenId, hs.unseenMethod, hs.cost⟩
    · intro s e hs hout
      dsimp only at hout
      split at hout
      · cases hout
        exact hs.fail _ _
      · cases hout

/-- The method is added, with the eleven bytes around it. -/
theorem methodMember_keeps :
    Triple (fun s => ScannedState size st ((ascii "method").length + 3 + s.length))
      st.methodMember.scan (fun out s => ScannedState size out s.length)
      (KeepsScanned size) := by
  unfold ClassifyState.methodMember
  split
  · exact fail_keeps _ _ _
  · rename_i hsaw
    have hstring : Triple
        (fun s => ScannedState size st ((ascii "method").length + 3 + s.length))
        (Reader.string (st.fail .invalidEnvelope (by simp))).scan
        (fun token s => ScannedState size st (token.contents.length + 11 + s.length))
        (KeepsScanned size) := by
      apply triple_orFail
      · intro s hs
        exact hs.fail _ _
      · intro s token rest hs hscan
        obtain ⟨t, rfl, rfl⟩ := scanString_sound hscan
        apply hs.mono
        have hkey : (ascii "method").length = 6 := rfl
        simp only [tokenOf, List.length_cons, List.length_append, hkey]
        omega
    apply hstring.bind
    intro value
    apply triple_ofExcept
    · intro s out hs hout
      dsimp only at hout
      split at hout
      · cases hout
      · cases hout
        refine ⟨hs.id, hs.unseenId, Bool.noConfusion, ?_⟩
        have hcost := hs.cost
        rw [hs.unseenMethod (by simpa using hsaw)] at hcost
        have hmethod : methodCost value.contents ≤ value.contents.length + 11 := by
          unfold methodCost
          split <;> omega
        have hnil : methodCost [] = 0 := rfl
        simp only [hnil] at hcost
        show s.length + max 1 (idCost st.idJson) + methodCost value.contents ≤ size
        omega
    · intro s e hs hout
      dsimp only at hout
      split at hout
      · cases hout
        exact hs.fail _ _
      · cases hout

/-- An id is read up to the end of its token, wherever the message ends. -/
theorem idValue_sound {s rest : Bytes} {kind : IdKind}
    (h : st.idValue.scan s = (.ok kind, rest)) :
    ∃ v, s = v.render ++ rest ∧ idKindOf v = some kind := by
  have hrun : st.idValue.scan s = (do
      let found ← attempt (scanLiteral Literal.null.bytes)
      if found then pure .nullValue
      else do
        let c ← peek
        if c = some 0x22 then do
          let _ ← scanString.orFail (st.fail .malformedJson (by simp))
          ofExcept (.ok .string)
        else do
          let _ ← scanNumber.orFail (st.fail .invalidEnvelope (by simp))
          ofExcept (.ok .number) : Scan Rejected IdKind) s := rfl
  rw [hrun, bind_apply] at h
  by_cases hnull : Literal.null.bytes <+: s
  · obtain ⟨tail, rfl⟩ := hnull
    unfold attempt at h
    rw [scanLiteral_append] at h
    obtain ⟨rfl, rfl⟩ := pure_eq_ok.mp h
    exact ⟨.lit .null, rfl, rfl⟩
  · unfold attempt at h
    rw [scanLiteral_error hnull] at h
    simp only [Bool.false_eq_true, if_false, peek_bind] at h
    split at h
    · obtain ⟨token, mid, hscan, h⟩ := bind_eq_ok.mp h
      obtain ⟨hkind, rfl⟩ := ofExcept_eq_ok.mp h
      cases hkind
      obtain ⟨t, rfl, -⟩ := scanString_sound (orFail_eq_ok.mp hscan)
      exact ⟨.str t, by simp [Value.render], rfl⟩
    · obtain ⟨u, mid, hscan, h⟩ := bind_eq_ok.mp h
      obtain ⟨hkind, rfl⟩ := ofExcept_eq_ok.mp h
      cases hkind
      obtain ⟨t, rfl⟩ := scanNumber_sound (orFail_eq_ok.mp hscan)
      exact ⟨.num t, by simp [Value.render], rfl⟩

theorem idValue_error {s : Bytes} {rejected : Rejected}
    (h : (st.idValue.scan s).1 = .error rejected) :
    ∃ error herror, rejected = st.fail error herror := by
  have htriple : Triple (fun _ => True) st.idValue.scan (fun _ _ => True)
      (fun rejected => ∃ error herror, rejected = st.fail error herror) := by
    have hattempt : Triple (fun _ => True)
        (attempt (scanLiteral Literal.null.bytes) : Scan Rejected Bool)
        (fun _ _ => True) (fun rejected => ∃ error herror, rejected = st.fail error herror) := by
      intro s _
      unfold attempt
      rcases scanLiteral Literal.null.bytes s with ⟨r, rest⟩
      cases r <;> exact trivial
    apply hattempt.bind
    intro found
    apply triple_of_ite
    · intro _
      exact triple_pure fun _ _ => trivial
    · intro _
      apply (triple_peek (Q := fun _ _ => True) fun _ _ => trivial).bind
      intro c
      apply triple_of_ite
      · intro _
        apply (triple_orFail (Q := fun _ _ => True) (fun _ _ => ⟨_, _, rfl⟩)
          fun _ _ _ _ _ => trivial).bind
        intro _
        exact triple_ofExcept (fun _ _ _ _ => trivial) (by rintro _ _ _ ⟨⟩)
      · intro _
        apply (triple_orFail (Q := fun _ _ => True) (fun _ _ => ⟨_, _, rfl⟩)
          fun _ _ _ _ _ => trivial).bind
        intro _
        exact triple_ofExcept (fun _ _ _ _ => trivial) (by rintro _ _ _ ⟨⟩)
  exact htriple.of_error trivial h

/-- The id is added, with the brace, its key and its colon. -/
theorem idMember_keeps :
    Triple (fun s => ScannedState size st ((ascii "id").length + 3 + s.length))
      st.idMember.scan (fun out s => ScannedState size out s.length)
      (KeepsScanned size) := by
  unfold ClassifyState.idMember
  split
  · exact fail_keeps _ _ _
  · rename_i hsaw
    have hcaptured : Triple
        (fun s => ScannedState size st ((ascii "id").length + 3 + s.length))
        st.idValue.captured.scan
        (fun out s => ScannedId out.1 out.2 ∧
          ScannedState size st (out.2.length + 5 + s.length)) (KeepsScanned size) := by
      apply triple_captured
      · intro s kind rest hs hscan
        obtain ⟨v, rfl, hkind⟩ := idValue_sound hscan
        rw [take_length_sub]
        refine ⟨Or.inr ⟨v, hkind, rfl⟩, hs.mono ?_⟩
        have hkey : (ascii "id").length = 2 := rfl
        simp only [List.length_append, hkey]
        omega
      · intro s e hs herror
        obtain ⟨error, hne, rfl⟩ := idValue_error herror
        exact hs.fail error hne
    apply hcaptured.bind
    rintro ⟨kind, json⟩
    apply triple_ofExcept
    · rintro s out ⟨hid, hs⟩ hout
      cases hout
      refine ⟨hid, Bool.noConfusion, hs.unseenMethod, ?_⟩
      have hcost := hs.cost
      rw [hs.unseenId (by simpa using hsaw)] at hcost
      have hnil : idCost [] = 0 := rfl
      have hjson : idCost json ≤ json.length + 6 := by
        unfold idCost
        split <;> omega
      simp only [hnil] at hcost
      show s.length + max 1 (idCost json) + methodCost st.method ≤ size
      omega
    · rintro s e - ⟨⟩

end members

/-! ## §3  The whole message -/

theorem envelope_keeps (limits : RuntimeLimits) (size : Nat) :
    (envelopeReader limits).loop.Keeps (ScannedState size) (KeepsScanned size) where
  mono h hle := h.mono hle
  malformed h := h.fail _ _
  checkKey h hcheck := by
    simp only [ObjectReader.loop, envelopeReader] at hcheck
    split at hcheck
    · cases hcheck
      exact h.fail _ _
    · cases hcheck
  member st t _ := by
    show Triple _ (st.member limits (tokenOf t.val)).scan _ _
    have hkey : (tokenOf t.val).contents = t.val := rfl
    unfold ClassifyState.member
    rw [hkey]
    by_cases h₁ : t.val = ascii "jsonrpc"
    · rw [if_pos h₁]
      exact jsonrpcMember_keeps _
    rw [if_neg h₁]
    by_cases h₂ : t.val = ascii "method"
    · rw [if_pos h₂, h₂]
      exact methodMember_keeps
    rw [if_neg h₂]
    by_cases h₃ : t.val = ascii "id"
    · rw [if_pos h₃, h₃]
      exact idMember_keeps
    rw [if_neg h₃]
    by_cases h₄ : t.val = ascii "result"
    · rw [if_pos h₄]
      unfold ClassifyState.resultMember
      split
      · exact fail_keeps _ _ _
      · exact skipped_keeps _ fun n hs => ⟨hs.id, hs.unseenId, hs.unseenMethod, hs.cost⟩
    rw [if_neg h₄]
    by_cases h₅ : t.val = ascii "error"
    · rw [if_pos h₅]
      unfold ClassifyState.errorMember
      split
      · exact fail_keeps _ _ _
      · exact skipped_keeps _ fun n hs => ⟨hs.id, hs.unseenId, hs.unseenMethod, hs.cost⟩
    rw [if_neg h₅]
    exact skipped_keeps _ fun n hs => hs

theorem envelope_scanned {n : Nat} (h : ScannedState size st n) :
    ScannedEnvelope size st.envelope := by
  have hinvalid := h.fail .invalidEnvelope (by simp)
  unfold ClassifyState.envelope
  split
  · exact hinvalid
  · split
    · split
      · exact hinvalid
      · exact ⟨hinvalid.id, hinvalid.cost⟩
    · split
      · refine ⟨hinvalid.id, ?_⟩
        have hcost : idCost st.idJson + methodCost st.method ≤ size := hinvalid.cost
        have hnil : methodCost [] = 0 := rfl
        simp only [hnil]
        omega
      · exact hinvalid

/-- On any message, accepted or not, the id is absent or a complete token. -/
theorem classify_scanned (limits : RuntimeLimits) (message : Bytes) :
    ScannedEnvelope message.length (classify limits message) := by
  have hempty : ∀ error, ScannedEnvelope message.length { error := error } :=
    fun _ => ⟨Or.inl ⟨rfl, rfl⟩, Nat.zero_le _⟩
  have hdocument : Triple (fun s => s.length ≤ message.length) (envelopeDocument limits)
      (fun out s => ScannedState message.length out.1 s.length)
      (KeepsScanned message.length) := by
    apply (envelope_keeps limits message.length).document
    · exact fun n hn => ScannedState.init hn
    · exact hempty _
    · rintro _ _ _ _ _ ⟨⟩
    · exact fun hs => hs.fail _ _
  unfold classify
  split
  · exact hempty _
  · cases hrun : (envelopeDocument limits message).1 with
    | ok out =>
        rcases hs : envelopeDocument limits message with ⟨r, rest⟩
        rw [hs] at hrun
        cases hrun
        exact envelope_scanned (hdocument.of_ok (le_refl _) hs)
    | error rejected => exact hdocument.of_error (le_refl _) hrun

/-! ## §4  The size -/

def NotTooLarge (rejected : Rejected) : Prop :=
  rejected.toEnvelope.error ≠ .messageTooLarge

section size

variable (limits : RuntimeLimits)

theorem fail_notTooLarge {error : ClassificationError} (herror : error ≠ .none)
    (hne : error ≠ .messageTooLarge) : NotTooLarge (st.fail error herror) := hne

/-- A token or a skipped value, with one error for all its failures. -/
theorem orFail_notTooLarge {α : Type} (p : Scan Unit α) (error : ClassificationError)
    {herror : error ≠ .none} (hne : error ≠ .messageTooLarge) :
    Triple (fun _ => True) (p.orFail (st.fail error herror)) (fun _ _ => True)
      NotTooLarge :=
  triple_orFail (fun _ _ => hne) fun _ _ _ _ _ => trivial

theorem ok_notTooLarge {α : Type} (a : α) :
    Triple (fun _ => True) (ofExcept (.ok a)) (fun _ _ => True) NotTooLarge :=
  triple_ofExcept (fun _ _ _ _ => trivial) nofun

theorem idValue_notTooLarge :
    Triple (fun _ => True) st.idValue.scan (fun _ _ => True) NotTooLarge := by
  have hattempt : Triple (fun _ => True) (attempt (scanLiteral Literal.null.bytes))
      (fun _ _ => True) NotTooLarge := by
    intro s _
    unfold attempt
    rcases scanLiteral Literal.null.bytes s with ⟨_ | _, rest⟩
    · exact trivial
    · exact trivial
  apply hattempt.bind
  intro found
  apply triple_of_ite
  · exact fun _ => triple_pure fun _ _ => trivial
  intro _
  apply (triple_peek fun _ _ => trivial : Triple _ _ (fun _ _ => True) NotTooLarge).bind
  intro c
  apply triple_of_ite
  · intro _
    exact (orFail_notTooLarge scanString .malformedJson (by simp)).bind fun _ => ok_notTooLarge _
  · intro _
    exact (orFail_notTooLarge scanNumber .invalidEnvelope (by simp)).bind fun _ => ok_notTooLarge _

theorem envelope_member_notTooLarge (key : StringToken) :
    Triple (fun _ => True) (st.member limits key).scan (fun _ _ => True) NotTooLarge := by
  have hfail : ∀ {error : ClassificationError} (herror : error ≠ .none),
      error ≠ .messageTooLarge → Triple (fun _ => True)
        (Scan.fail (st.fail error herror) : Scan Rejected ClassifyState)
        (fun _ _ => True) NotTooLarge :=
    fun herror hne => triple_fail fun _ _ => fail_notTooLarge herror hne
  have hskip : ∀ st' : ClassifyState, Triple (fun _ => True)
      ((skipValue 1 limits.maxNestingDepth (st.fail .malformedJson (by simp))).map
        fun _ => st').scan (fun _ _ => True) NotTooLarge :=
    fun st' => (orFail_notTooLarge _ .malformedJson (by simp)).bind fun _ => ok_notTooLarge _
  unfold ClassifyState.member
  split
  · unfold ClassifyState.jsonrpcMember
    split
    · exact hfail _ (by simp)
    refine (orFail_notTooLarge scanString .unsupportedJsonrpcVersion (by simp)).bind
      fun version => ?_
    dsimp only
    split
    · exact hfail _ (by simp)
    · exact ok_notTooLarge _
  split
  · unfold ClassifyState.methodMember
    split
    · exact hfail _ (by simp)
    refine (orFail_notTooLarge scanString .invalidEnvelope (by simp)).bind fun value => ?_
    dsimp only
    split
    · exact hfail _ (by simp)
    · exact ok_notTooLarge _
  split
  · unfold ClassifyState.idMember
    split
    · exact hfail _ (by simp)
    have hcaptured : Triple (fun _ => True) st.idValue.captured.scan (fun _ _ => True)
        NotTooLarge :=
      triple_captured (fun _ _ _ _ _ => trivial)
        fun _ _ hs herror => idValue_notTooLarge.of_error hs herror
    exact hcaptured.bind fun _ => ok_notTooLarge _
  split
  · unfold ClassifyState.resultMember
    split
    · exact hfail _ (by simp)
    · exact hskip _
  split
  · unfold ClassifyState.errorMember
    split
    · exact hfail _ (by simp)
    · exact hskip _
  · exact hskip _

theorem envelope_notTooLarge :
    (envelopeReader limits).loop.Keeps (fun _ _ => True) NotTooLarge where
  mono _ _ := trivial
  malformed _ := fail_notTooLarge _ (by simp)
  checkKey {st n key e} _ hcheck := by
    simp only [ObjectReader.loop, envelopeReader] at hcheck
    split at hcheck
    · cases hcheck
      exact fail_notTooLarge _ (by simp)
    · cases hcheck
  member _ _ _ := envelope_member_notTooLarge limits _

/-- The size is blamed only on a message that is too large. -/
theorem classify_messageTooLarge (message : Bytes) :
    (classify limits message).error = .messageTooLarge ↔
      limits.maxMessageBytes < message.length := by
  constructor
  · intro h
    by_contra hsize
    have hdocument : Triple (fun s => s.length ≤ message.length) (envelopeDocument limits)
        (fun _ _ => True) NotTooLarge := by
      apply (envelope_notTooLarge limits).document
      · exact fun _ _ => trivial
      · exact @fail_notTooLarge {} .malformedJson (by simp) (by simp)
      · rintro _ _ _ _ _ ⟨⟩
      · intro st _ _
        exact fail_notTooLarge _ (by simp)
    unfold classify at h
    rw [if_neg hsize] at h
    cases hrun : (envelopeDocument limits message).1 with
    | ok out =>
        rw [hrun] at h
        have henvelope : out.1.envelope.error ≠ .messageTooLarge := by
          unfold ClassifyState.envelope ClassifyState.fail
          cases out.1.sawJsonrpc <;> cases out.1.sawMethod <;> cases out.1.sawId <;>
            cases out.1.sawResult <;> cases out.1.sawError <;> simp
        exact henvelope h
    | error rejected =>
        rw [hrun] at h
        exact hdocument.of_error (le_refl _) hrun h
  · intro h
    unfold classify
    rw [if_pos h]

end size

end NativeGuard.Protocol

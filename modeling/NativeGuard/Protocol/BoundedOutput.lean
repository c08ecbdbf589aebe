import NativeGuard.Protocol.CanonicalText
import NativeGuard.Protocol.ScannerContract

/-!
# Outputs within the bound

No output of a run of `canonicalize_value`, the caller's, the shared ones of arrays and the
fresh ones of members, is ever larger than the limit (`canonicalizeValue_within`), whatever
the text is and however the run ends. So a value is accepted or not by the size of its whole
canonical text alone (`canonicalize_size_exact`).
-/

namespace NativeGuard.Protocol.Offsets

open Json Json.Scan Data Data.Cursor Inventory

variable {ε α β σ τ : Type}

/-! ## §1  The parts of a reader -/

theorem neverFails_startsWith (test : UInt8 → Bool) :
    NeverFails (startsWith test : Cursor UInt8 ε Bool) := by
  refine neverFails_inside.bind fun inside => ?_
  split
  · exact neverFails_current.bind fun value => neverFails_pure (test value)
  · exact neverFails_pure false

theorem neverFails_skipWhitespace : NeverFails (skipWhitespace : Cursor UInt8 ε Unit) := by
  unfold skipWhitespace skipWhile
  refine NeverFails.loop (fun _ => ?_) ()
  refine (neverFails_startsWith isWhitespace).bind fun here => ?_
  split
  · exact (neverFails_advance 1).bind fun _ => neverFails_pure _
  · exact neverFails_pure _

section

variable {P : σ → Prop} {E : ε → Prop} {e : σ → ε}

theorem always_separator {closer : UInt8} (st : σ) (hst : P st) (he : E (e st)) :
    Always (separator outside e closer st) (Sum.elim P P) E := by
  refine neverFails_skipWhitespace.then fun _ => neverFails_outside.then fun ended => ?_
  split
  · exact always_fail he
  refine neverFails_current.then fun value => ?_
  split
  · exact (neverFails_advance 1).then fun _ => always_pure hst
  refine neverFails_take.then fun value => ?_
  split
  · exact always_fail he
  · exact neverFails_skipWhitespace.then fun _ => always_pure hst

theorem always_restOfMember {st : σ} {value : Cursor UInt8 ε σ} (he : ∀ st, P st → E (e st))
    (hst : P st) (hvalue : Always value P E) :
    Always (restOfMember outside e st value) (Sum.elim P P) E := by
  refine neverFails_skipWhitespace.then fun _ => neverFails_outside.then fun ended => ?_
  split
  · exact always_fail (he st hst)
  refine neverFails_take.then fun value => ?_
  split
  · exact always_fail (he st hst)
  refine neverFails_skipWhitespace.then fun _ => hvalue.bind fun st' hst' => ?_
  exact always_separator st' hst' (he st' hst')

theorem always_container {closer : UInt8} {empty rest : Cursor UInt8 ε σ}
    (hempty : Always empty P E) (hrest : Always rest P E) :
    Always (container closer empty rest) P E := by
  refine neverFails_skipWhitespace.then fun _ => (neverFails_startsWith _).then fun here => ?_
  split
  · exact (neverFails_advance 1).then fun _ => hempty
  · exact hrest

end

/-! ## §2  Outputs -/

/-- The output as a call leaves it, whether it succeeds or fails. -/
def outputOf : Except Failed Output → Output
  | .ok output => output
  | .error failed => failed.output

variable {maxBytes : Nat}

/-- No output that this one stands for has been larger than the limit. -/
def Output.Within (maxBytes : Nat) (output : Output) : Prop := output.largest ≤ maxBytes

theorem within_empty : Output.empty.Within maxBytes := Nat.zero_le maxBytes

def Failed.Within (maxBytes : Nat) (failed : Failed) : Prop := failed.output.Within maxBytes

theorem within_beside {output : Output} {largest : Nat} (h : output.Within maxBytes)
    (hlargest : largest ≤ maxBytes) : (output.beside largest).Within maxBytes :=
  Nat.max_le.mpr ⟨h, hlargest⟩

/-- `f` leaves an output within the limit if it gets one. -/
def KeepsWithin (maxBytes : Nat) (f : Output → Except Failed Output) : Prop :=
  ∀ output, output.Within maxBytes → (outputOf (f output)).Within maxBytes

theorem keepsWithin_append (value : Bytes) :
    KeepsWithin maxBytes (appendLimited maxBytes value) := by
  intro output houtput
  unfold appendLimited
  split
  · exact houtput
  · next hfits =>
    refine Nat.max_le.mpr ⟨houtput, ?_⟩
    rw [List.length_append]
    omega

theorem KeepsWithin.bind {f g : Output → Except Failed Output} (hf : KeepsWithin maxBytes f)
    (hg : KeepsWithin maxBytes g) : KeepsWithin maxBytes (fun output => f output >>= g) := by
  intro output houtput
  have hfirst := hf output houtput
  show (outputOf (f output >>= g)).Within maxBytes
  rcases hr : f output with failed | output'
  · rw [hr] at hfirst
    exact hfirst
  · rw [hr] at hfirst
    exact hg output' hfirst

theorem keepsWithin_foldlM {f : ObjectMember → Output → Except Failed Output}
    (h : ∀ m, KeepsWithin maxBytes (f m)) (ms : List ObjectMember) :
    KeepsWithin maxBytes (fun output => ms.foldlM (fun output m => f m output) output) := by
  induction ms with
  | nil => exact fun _ houtput => houtput
  | cons m ms ih =>
      have hcons := (h m).bind ih
      simpa only [List.foldlM_cons] using hcons

theorem keepsWithin_appendMember (m : ObjectMember) :
    KeepsWithin maxBytes (appendMember maxBytes m) :=
  (keepsWithin_append m.keyJson).bind
    ((keepsWithin_append [0x3A]).bind (keepsWithin_append m.valueJson))

theorem keepsWithin_appendMembers (ms : List ObjectMember) :
    KeepsWithin maxBytes (appendMembers maxBytes ms) := by
  rcases ms with _ | ⟨m, ms⟩
  · exact fun _ houtput => houtput
  · exact (keepsWithin_appendMember m).bind (keepsWithin_foldlM
      (fun m => (keepsWithin_append [0x2C]).bind (keepsWithin_appendMember m)) ms)

theorem keepsWithin_appendObject (members : List ObjectMember) :
    KeepsWithin maxBytes (appendObject maxBytes members) :=
  (keepsWithin_append [0x7B]).bind
    ((keepsWithin_appendMembers _).bind (keepsWithin_append [0x7D]))

/-- The program leaves an output within the limit. -/
abbrev LeavesWithin (maxBytes : Nat) (p : Cursor UInt8 Failed Output) : Prop :=
  Always p (Output.Within maxBytes) (Failed.Within maxBytes)

theorem KeepsWithin.leaves {f : Output → Except Failed Output} (hf : KeepsWithin maxBytes f)
    {output : Output} (h : output.Within maxBytes) :
    LeavesWithin maxBytes (ofExcept (f output)) := by
  have hleft := hf output h
  refine always_ofExcept ?_
  rcases hr : f output with failed | output'
  · rw [hr] at hleft
    exact hleft
  · rw [hr] at hleft
    exact hleft

/-! ## §3  The writer -/

theorem canonicalizeMemberTurn_within {value : Cursor UInt8 Failed Output}
    (hvalue : LeavesWithin maxBytes value) {output : Output} (h : output.Within maxBytes)
    {st : MemberState} (hst : st.largest ≤ maxBytes) :
    Always (canonicalizeMemberTurn value output st)
      (Sum.elim (fun st => st.largest ≤ maxBytes) fun st => st.largest ≤ maxBytes)
      (Failed.Within maxBytes) := by
  have hmalformed : ∀ st : MemberState, st.largest ≤ maxBytes →
      Failed.Within maxBytes ⟨.malformedJson, output.beside st.largest⟩ :=
    fun _ hlargest => within_beside h hlargest
  refine neverFails_inside.then fun inside => ?_
  split
  swap
  · exact always_pure hst
  refine neverFails_outside.then fun ended => ?_
  split
  · exact always_fail (hmalformed st hst)
  refine neverFails_current.then fun first => ?_
  split
  · exact always_fail (hmalformed st hst)
  refine neverFails_offset.then fun keyBegin =>
    (always_orFail (hmalformed st hst)).bind fun key _ => ?_
  refine neverFails_offset.then fun keyEnd =>
    (neverFails_slice keyBegin keyEnd).then fun keyJson => ?_
  split
  · exact always_fail (within_beside h hst)
  · refine always_restOfMember hmalformed hst ?_
    refine (hvalue.mapError fun failed hfailed => ?_).bind fun valueJson hjson => ?_
    · exact within_beside h (Nat.max_le.mpr ⟨hst, hfailed⟩)
    · exact always_pure (Nat.max_le.mpr ⟨hst, hjson⟩)

theorem canonicalizeObject_within {value : Cursor UInt8 Failed Output}
    (hvalue : LeavesWithin maxBytes value) (depth maxDepth : UInt64) {output : Output}
    (h : output.Within maxBytes) :
    LeavesWithin maxBytes (canonicalizeObject depth maxDepth maxBytes value output) := by
  unfold canonicalizeObject
  split
  · exact always_fail h
  refine always_container ((keepsWithin_append _).leaves h) ?_
  refine (always_loop (I := fun st => st.largest ≤ maxBytes) (Nat.zero_le maxBytes)
    fun st hst => canonicalizeMemberTurn_within hvalue h hst).bind fun st hst => ?_
  exact (keepsWithin_appendObject st.members).leaves (within_beside h hst)

theorem canonicalizeElementTurn_within {value : Output → Cursor UInt8 Failed Output}
    (hvalue : ∀ output, output.Within maxBytes → LeavesWithin maxBytes (value output))
    {st : ElementState} (hst : st.output.Within maxBytes) :
    Always (canonicalizeElementTurn maxBytes value st)
      (Sum.elim (fun st => st.output.Within maxBytes) fun st => st.output.Within maxBytes)
      (Failed.Within maxBytes) := by
  have hcomma : LeavesWithin maxBytes (ofExcept (if st.first then .ok st.output
      else appendLimited maxBytes [0x2C] st.output)) := by
    split
    · exact always_ofExcept hst
    · exact (keepsWithin_append [0x2C]).leaves hst
  refine neverFails_inside.then fun inside => ?_
  split
  · refine hcomma.bind fun output houtput => (hvalue output houtput).bind fun output' hleft => ?_
    exact always_separator (⟨false, output'⟩ : ElementState) hleft hleft
  · exact always_fail hst

theorem canonicalizeArray_within {value : Output → Cursor UInt8 Failed Output}
    (hvalue : ∀ output, output.Within maxBytes → LeavesWithin maxBytes (value output))
    (depth maxDepth : UInt64) {output : Output} (h : output.Within maxBytes) :
    LeavesWithin maxBytes (canonicalizeArray depth maxDepth maxBytes value output) := by
  unfold canonicalizeArray
  split
  · exact always_fail h
  refine ((keepsWithin_append [0x5B]).leaves h).bind fun opened hopened => ?_
  refine always_container ((keepsWithin_append [0x5D]).leaves hopened) ?_
  refine (always_loop (I := fun st => st.output.Within maxBytes) hopened
    fun st hst => canonicalizeElementTurn_within hvalue hst).bind fun st hst => ?_
  exact (keepsWithin_append [0x5D]).leaves hst

theorem canonicalizeToken_within {token : Cursor UInt8 Unit α} {output : Output}
    (h : output.Within maxBytes) :
    LeavesWithin maxBytes (canonicalizeToken maxBytes token output) := by
  refine neverFails_offset.then fun first => ?_
  have hfailed : Failed.Within maxBytes ⟨.malformedJson, output⟩ := h
  refine (always_orFail hfailed).bind fun _ _ => ?_
  refine neverFails_offset.then fun last => (neverFails_slice first last).then fun text => ?_
  exact (keepsWithin_append text).leaves h

theorem canonicalizeLiteral_within (w : Literal) {output : Output} (h : output.Within maxBytes) :
    LeavesWithin maxBytes (canonicalizeLiteral maxBytes w output) := by
  have hfailed : Failed.Within maxBytes ⟨.malformedJson, output⟩ := h
  exact (always_orFail hfailed).bind fun _ _ => (keepsWithin_append w.bytes).leaves h

/-- From a fitting output no run leaves another, nor has used one. The induction is on the
fuel, so every activation is covered. -/
theorem canonicalizeValueFrom_within (fuel : Nat) (depth maxDepth : UInt64) {output : Output}
    (h : output.Within maxBytes) :
    LeavesWithin maxBytes (canonicalizeValueFrom maxBytes fuel depth maxDepth output) := by
  induction fuel generalizing depth output with
  | zero => exact fun _ _ _ hrun => by cases hrun
  | succ fuel ih =>
      refine Always.frame ?_
      split
      · exact always_fail h
      refine neverFails_outside.then fun ended => ?_
      split
      · exact always_fail h
      refine neverFails_current.then fun value => ?_
      split
      · exact canonicalizeToken_within h
      split
      · exact (neverFails_advance 1).then fun _ =>
          canonicalizeObject_within (ih (depth + 1) within_empty) depth maxDepth h
      split
      · exact (neverFails_advance 1).then fun _ =>
          canonicalizeArray_within (fun _ houtput => ih (depth + 1) houtput) depth maxDepth h
      split
      · exact canonicalizeLiteral_within .true h
      split
      · exact canonicalizeLiteral_within .false h
      split
      · exact canonicalizeLiteral_within .null h
      · exact canonicalizeToken_within h

theorem canonicalizeValue_within (depth maxDepth : UInt64) {output : Output}
    (h : output.Within maxBytes) :
    LeavesWithin maxBytes (canonicalizeValue depth maxDepth maxBytes output) :=
  fun s i => canonicalizeValueFrom_within (s.length - i + 1) depth maxDepth h s i

/-! ## §4  The size limit -/

/-- What the reader with these levels accepts, in the terms of `skip_value`. -/
theorem canonicalizeAt_levelsOf (depth maxDepth : UInt64) (maxBytes left : Nat) {v : Value}
    (hleft : v.nesting ≤ left) {out : Bytes} :
    (canonicalizeAt maxBytes (levelsOf depth maxDepth left) []).read v = .ok out ↔
      (WithinDepth depth maxDepth v.nesting ∧ DistinctKeys v ∧
        v.canonical.render.length ≤ maxBytes) ∧ out = v.canonical.render := by
  have hwrites := canonicalizeAt_ok maxBytes (levelsOf depth maxDepth left) [] v out
    (Nat.zero_le _)
  rw [hwrites, List.length_nil, Nat.zero_add, List.nil_append, Canonicalizable,
    lt_levelsOf_iff hleft, and_assoc, and_assoc, and_assoc]

/-- A value is written exactly if `skip_value` takes it at this depth, no object in it repeats
a key, and its canonical text fits. The writer then takes what `skip_value` takes; and
whether it succeeds or fails, no output on the way was larger than the limit. -/
theorem canonicalize_size_exact (depth maxDepth : UInt64) (maxBytes : Nat) (v : Value)
    (before : Bytes) {rest : Bytes} (hrest : Follow rest) :
    ∃ run, canonicalizeValue depth maxDepth maxBytes .empty (before ++ (v.render ++ rest))
        before.length = .ok run ∧
      ((∃ output, run.result = .ok output) ↔
        (∃ last, SkipsTo depth maxDepth (before ++ (v.render ++ rest)) before.length last) ∧
          DistinctKeys v ∧ v.canonical.render.length ≤ maxBytes) ∧
      (∀ output, run.result = .ok output →
        run.offset = before.length + v.render.length ∧
          SkipsTo depth maxDepth (before ++ (v.render ++ rest)) before.length run.offset ∧
          output.bytes = v.canonical.render) ∧
      (outputOf run.result).bytes.length ≤ maxBytes ∧
      (outputOf run.result).largest ≤ maxBytes := by
  have hi : before.length ≤ (before ++ (v.render ++ rest)).length := by
    rw [List.length_append]
    omega
  have hleft : (before ++ (v.render ++ rest)).length - before.length =
      v.render.length + rest.length := by
    rw [List.length_append, List.length_append, Nat.add_sub_cancel_left]
  have hnesting : v.nesting ≤ v.render.length + rest.length :=
    (nesting_le_length v).trans (Nat.le_add_right _ _)
  have hskips : (∃ last, SkipsTo depth maxDepth (before ++ (v.render ++ rest)) before.length
      last) ↔ WithinDepth depth maxDepth v.nesting := by
    simp only [skipsTo_value_iff depth maxDepth v before hrest, exists_eq_left]
  have haccepts := fun out => @canonicalizeAt_levelsOf depth maxDepth maxBytes
    (v.render.length + rest.length) v hnesting out
  obtain ⟨⟨r, last, frames⟩, hrun, -, hsize, -, hpost⟩ :=
    canonicalizeValue_runs depth maxDepth maxBytes .empty hi
  have hlargest : (outputOf r).largest ≤ maxBytes := by
    have hwithin := canonicalizeValue_within depth maxDepth within_empty _ _ _ hrun
    rcases r with failed | output
    · exact hwithin
    · exact hwithin
  -- a success is one of the reader over the bytes behind the offset
  have hwritten : ∀ output, r = .ok output → (WithinDepth depth maxDepth v.nesting ∧
      DistinctKeys v ∧ v.canonical.render.length ≤ maxBytes) ∧
      output.bytes = v.canonical.render ∧ last = before.length + v.render.length := by
    rintro output rfl
    have hscan : (canonicalizeAt maxBytes (levelsOf depth maxDepth _) []).scan (List.drop _ _) =
      (.ok output.bytes, List.drop last _) := hpost
    rw [List.drop_left, hleft] at hscan
    obtain ⟨hread, hdrop⟩ := (Reader.scan_ok _ hrest).mp hscan
    obtain ⟨hall, hbytes⟩ := (haccepts _).mp hread
    have hlength := congrArg List.length hdrop
    rw [List.length_drop] at hlength
    dsimp only at hsize
    exact ⟨hall, hbytes, by omega⟩
  refine ⟨_, hrun, ?_, ?_, (outputOf r).bounded.trans hlargest, hlargest⟩
  · rw [hskips]
    rcases r with failed | output
    · refine iff_of_false nofun fun hall => ?_
      have hscan := (Reader.scan_ok _ hrest).mpr ⟨(haccepts _).mpr ⟨hall, rfl⟩, rfl⟩
      have herror : ((canonicalizeAt maxBytes (levelsOf depth maxDepth _) []).scan
        (List.drop _ _)).1 = .error failed.error := hpost
      rw [List.drop_left, hleft, hscan] at herror
      cases herror
    · exact iff_of_true ⟨output, rfl⟩ (hwritten output rfl).1
  · intro output houtput
    obtain ⟨⟨hwithin, -⟩, hbytes, hlast⟩ := hwritten output houtput
    exact ⟨hlast, (skipsTo_value_iff depth maxDepth v before hrest).mpr ⟨hlast, hwithin⟩, hbytes⟩

/-- The text of the object has 19 bytes: a limit of 18 refuses it, of 19 takes it. -/
theorem canonicalize_size_exact_example :
    (∃ run, canonicalizeValue 1 64 18 .empty (ascii "[" ++ (swappedObject.render ++ ascii ","))
        1 = .ok run ∧ (¬ ∃ output, run.result = .ok output) ∧
        (outputOf run.result).largest ≤ 18) ∧
      ∃ run output, canonicalizeValue 1 64 19 .empty
          (ascii "[" ++ (swappedObject.render ++ ascii ",")) 1 = .ok run ∧
        run.result = .ok output ∧ run.offset = 20 ∧ output.bytes = orderedObject.render := by
  have hrest : Follow (ascii ",") := follow_cons.mpr (by decide)
  have hskips : SkipsTo 1 64 (ascii "[" ++ (swappedObject.render ++ ascii ",")) 1 20 := by
    refine ⟨2, ?_⟩
    decide +kernel
  obtain ⟨run, hrun, hiff, -, -, hlargest⟩ :=
    canonicalize_size_exact 1 64 18 swappedObject (ascii "[") hrest
  obtain ⟨run', hrun', hiff', hok, -, -⟩ :=
    canonicalize_size_exact 1 64 19 swappedObject (ascii "[") hrest
  have hdistinct : DistinctKeys swappedObject := by
    refine distinctKeys_obj.mpr ⟨by decide +kernel, ?_⟩
    rintro m (_ | ⟨_, _ | ⟨_, hnone⟩⟩)
    · exact .lit .null
    · exact .lit .true
    · cases hnone
  obtain ⟨output, houtput⟩ := hiff'.mpr ⟨⟨20, hskips⟩, hdistinct, by decide +kernel⟩
  obtain ⟨hoffset, -, hbytes⟩ := hok output houtput
  have hlength : ¬ swappedObject.canonical.render.length ≤ 18 := by decide +kernel
  have hordered : swappedObject.canonical.render = orderedObject.render := by decide +kernel
  refine ⟨⟨run, hrun, fun h => hlength (hiff.mp h).2.2, hlargest⟩,
    run', output, hrun', houtput, ?_, hbytes.trans hordered⟩
  rw [hoffset]
  decide +kernel

end NativeGuard.Protocol.Offsets

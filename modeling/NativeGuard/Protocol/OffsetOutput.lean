import NativeGuard.Protocol.Canonicalize
import NativeGuard.Protocol.OffsetValues

/-!
# Schemas over the offset (`src/tool_inventory.cpp`)

`canonicalize_value` as a program over the offset and the output it is given. The output is
kept when a call fails, as the caller's string is; it remembers how large it has been at its
largest, and so does every failure. The program runs as the reader of `Canonicalize` does
that has the levels left which the depth and its limit leave (`canonicalizeValueFrom_runs`).
-/

namespace NativeGuard.Protocol.Offsets

open Json Json.Scan Data Data.Cursor Inventory

variable {ε α β τ : Type}

/-! ## §1  Outputs -/

/-- `largest` bounds what the output has held, and the outputs of the members read for it. -/
structure Output where
  bytes : Bytes
  largest : Nat
  bounded : bytes.length ≤ largest

namespace Output

def empty : Output := ⟨[], 0, Nat.le_refl 0⟩

def append (value : Bytes) (output : Output) : Output where
  bytes := output.bytes ++ value
  largest := max output.largest (output.bytes ++ value).length
  bounded := Nat.le_max_right _ _

/-- The output, with other outputs of `largest` bytes at most. -/
def beside (output : Output) (largest : Nat) : Output where
  bytes := output.bytes
  largest := max output.largest largest
  bounded := output.bounded.trans (Nat.le_max_left _ _)

end Output

/-- What a call returns that fails, and its output as it leaves it. -/
structure Failed where
  error : InventoryError
  output : Output

def appendLimited (maxBytes : Nat) (value : Bytes) (output : Output) : Except Failed Output :=
  if output.bytes.length > maxBytes ∨ value.length > maxBytes - output.bytes.length then
    .error ⟨.oversizedSchema, output⟩
  else .ok (output.append value)

def appendMember (maxBytes : Nat) (m : ObjectMember) (output : Output) :
    Except Failed Output :=
  appendLimited maxBytes m.keyJson output >>= fun output =>
    appendLimited maxBytes [0x3A] output >>= appendLimited maxBytes m.valueJson

def appendMembers (maxBytes : Nat) : List ObjectMember → Output → Except Failed Output
  | [], output => .ok output
  | m :: ms, output => appendMember maxBytes m output >>= fun output =>
      ms.foldlM (fun output m => appendLimited maxBytes [0x2C] output >>=
        appendMember maxBytes m) output

def appendObject (maxBytes : Nat) (members : List ObjectMember) (output : Output) :
    Except Failed Output :=
  appendLimited maxBytes [0x7B] output >>= fun output =>
    appendMembers maxBytes (sortOn ObjectMember.keyContents members) output >>=
      appendLimited maxBytes [0x7D]

/-! ## §2  The program -/

/-- The members so far, and the largest that an output of their values has been. -/
structure MemberState where
  members : List ObjectMember
  largest : Nat

/-- A value has an output of its own, which a failure drops; to `output` nothing is
appended before the last member is read. -/
def canonicalizeMemberTurn (value : Cursor UInt8 Failed Output) (output : Output)
    (st : MemberState) : Cursor UInt8 Failed (MemberState ⊕ MemberState) := do
  let malformed (st : MemberState) : Failed := ⟨.malformedJson, output.beside st.largest⟩
  if ← inside then
    if ← outside then fail (malformed st)
    else if (← current) != 0x22 then fail (malformed st)
    else
      let keyBegin ← offset
      let key ← scanString.orFail (malformed st)
      let keyEnd ← offset
      let keyJson ← slice keyBegin keyEnd
      if key.contents ∈ st.members.map ObjectMember.keyContents then
        fail ⟨.duplicateMember, output.beside st.largest⟩
      else
        restOfMember outside malformed st do
          let valueJson ← value.mapError fun failed =>
            ⟨failed.error, output.beside (max st.largest failed.output.largest)⟩
          pure ⟨st.members ++ [⟨key.contents, keyJson, valueJson.bytes⟩],
            max st.largest valueJson.largest⟩
  else pure (.inr st)

/-- `canonicalize_object`, behind the brace. -/
def canonicalizeObject (depth maxDepth : UInt64) (maxBytes : Nat)
    (value : Cursor UInt8 Failed Output) (output : Output) : Cursor UInt8 Failed Output := do
  if depth > maxDepth then fail ⟨.excessiveNesting, output⟩
  else
    container 0x7D (ofExcept (appendLimited maxBytes [0x7B, 0x7D] output)) do
      let st ← loop (canonicalizeMemberTurn value output) ⟨[], 0⟩
      ofExcept (appendObject maxBytes st.members (output.beside st.largest))

structure ElementState where
  first : Bool
  output : Output

def canonicalizeElementTurn (maxBytes : Nat) (value : Output → Cursor UInt8 Failed Output)
    (st : ElementState) : Cursor UInt8 Failed (ElementState ⊕ ElementState) := do
  if ← inside then
    let output ← ofExcept (if st.first then .ok st.output
      else appendLimited maxBytes [0x2C] st.output)
    let output ← value output
    separator outside (fun st => ⟨.malformedJson, st.output⟩) 0x5D ⟨false, output⟩
  else fail ⟨.malformedJson, st.output⟩

/-- `canonicalize_array`, behind the bracket. -/
def canonicalizeArray (depth maxDepth : UInt64) (maxBytes : Nat)
    (value : Output → Cursor UInt8 Failed Output) (output : Output) :
    Cursor UInt8 Failed Output := do
  if depth > maxDepth then fail ⟨.excessiveNesting, output⟩
  else
    let output ← ofExcept (appendLimited maxBytes [0x5B] output)
    container 0x5D (ofExcept (appendLimited maxBytes [0x5D] output)) do
      let st ← loop (canonicalizeElementTurn maxBytes value) ⟨true, output⟩
      ofExcept (appendLimited maxBytes [0x5D] st.output)

/-- A token is written as it stands in the input. -/
def canonicalizeToken (maxBytes : Nat) (token : Cursor UInt8 Unit α) (output : Output) :
    Cursor UInt8 Failed Output := do
  let first ← offset
  let _ ← token.orFail ⟨.malformedJson, output⟩
  let last ← offset
  let text ← slice first last
  ofExcept (appendLimited maxBytes text output)

def canonicalizeLiteral (maxBytes : Nat) (w : Literal) (output : Output) :
    Cursor UInt8 Failed Output := do
  (scanLiteral w.bytes).orFail ⟨.malformedJson, output⟩
  ofExcept (appendLimited maxBytes w.bytes output)

/-- `canonicalize_value`; `depth + 1` is computed in `size_t`. -/
def canonicalizeValueFrom (maxBytes : Nat) :
    Nat → UInt64 → UInt64 → Output → Cursor UInt8 Failed Output
  | 0, _, _, _ => fun _ _ => .error .unfinished
  | fuel + 1, depth, maxDepth, output => frame do
      if depth > maxDepth then fail ⟨.excessiveNesting, output⟩
      else if ← outside then fail ⟨.excessiveNesting, output⟩
      else
        let value ← current
        if value == 0x22 then canonicalizeToken maxBytes scanString output
        else if value == 0x7B then
          advance 1
          canonicalizeObject depth maxDepth maxBytes
            (canonicalizeValueFrom maxBytes fuel (depth + 1) maxDepth .empty) output
        else if value == 0x5B then
          advance 1
          canonicalizeArray depth maxDepth maxBytes
            (canonicalizeValueFrom maxBytes fuel (depth + 1) maxDepth) output
        else if value == 0x74 then canonicalizeLiteral maxBytes .true output
        else if value == 0x66 then canonicalizeLiteral maxBytes .false output
        else if value == 0x6E then canonicalizeLiteral maxBytes .null output
        else canonicalizeToken maxBytes scanNumber output

def canonicalizeValue (depth maxDepth : UInt64) (maxBytes : Nat) (output : Output) :
    Cursor UInt8 Failed Output :=
  withFuel fun fuel => canonicalizeValueFrom maxBytes fuel depth maxDepth output

/-! ## §3  What is appended -/

/-- A result without its output's history, and without the output of a failure. -/
def plain (r : Except Failed Output) : Except InventoryError Bytes :=
  (r.map Output.bytes).mapError Failed.error

/-- `f` appends what `g` does. -/
def AppendsAs (f : Output → Except Failed Output) (g : Bytes → Option Bytes) : Prop :=
  ∀ output, plain (f output) = orOversized (g output.bytes)

/-- Both have appended, or both have refused for the size. -/
theorem plain_eq_orOversized {r : Except Failed Output} {written : Option Bytes}
    (h : plain r = orOversized written) :
    (∃ output, r = .ok output ∧ written = some output.bytes) ∨
      ∃ failed, r = .error failed ∧ written = none ∧ failed.error = .oversizedSchema := by
  rcases r with failed | output
  · rcases written with _ | bytes
    · exact .inr ⟨failed, rfl, rfl, Except.error.inj h⟩
    · cases h
  · rcases written with _ | bytes
    · cases h
    · exact .inl ⟨output, rfl, congrArg some (Except.ok.inj h).symm⟩

theorem appendsAs_append (maxBytes : Nat) (value : Bytes) :
    AppendsAs (appendLimited maxBytes value) (append maxBytes value) := by
  intro output
  unfold appendLimited append
  split
  · rfl
  · rfl

section

variable {f f' : Output → Except Failed Output} {g g' : Bytes → Option Bytes}

theorem AppendsAs.bind (hf : AppendsAs f g) (hf' : AppendsAs f' g') :
    AppendsAs (fun output => f output >>= f') (fun output => g output >>= g') := by
  intro output
  show plain (f output >>= f') = orOversized (g output.bytes >>= g')
  obtain ⟨output', hr, hwritten⟩ | ⟨failed, hr, hwritten, herror⟩ :=
    plain_eq_orOversized (hf output)
  · rw [hr, hwritten]
    exact hf' output'
  · rw [hr, hwritten]
    exact congrArg Except.error herror

theorem appendsAs_foldlM {f : ObjectMember → Output → Except Failed Output}
    {g : ObjectMember → Bytes → Option Bytes} (h : ∀ m, AppendsAs (f m) (g m))
    (ms : List ObjectMember) :
    AppendsAs (fun output => ms.foldlM (fun output m => f m output) output)
      (fun output => ms.foldlM (fun output m => g m output) output) := by
  induction ms with
  | nil => exact fun _ => rfl
  | cons m ms ih =>
      have hcons := (h m).bind ih
      simpa only [List.foldlM_cons] using hcons

end

theorem appendsAs_appendMember (maxBytes : Nat) (m : ObjectMember) :
    AppendsAs (appendMember maxBytes m) (Inventory.appendMember maxBytes m) :=
  (appendsAs_append maxBytes m.keyJson).bind
    ((appendsAs_append maxBytes [0x3A]).bind (appendsAs_append maxBytes m.valueJson))

theorem appendsAs_appendMembers (maxBytes : Nat) (ms : List ObjectMember) :
    AppendsAs (appendMembers maxBytes ms)
      (appendList maxBytes (Inventory.appendMember maxBytes) ms) := by
  rcases ms with _ | ⟨m, ms⟩
  · exact fun _ => rfl
  · exact (appendsAs_appendMember maxBytes m).bind (appendsAs_foldlM
      (fun m => (appendsAs_append maxBytes [0x2C]).bind (appendsAs_appendMember maxBytes m)) ms)

theorem appendsAs_appendObject (maxBytes : Nat) (members : List ObjectMember) :
    AppendsAs (appendObject maxBytes members) (Inventory.appendObject maxBytes members) :=
  (appendsAs_append maxBytes [0x7B]).bind
    ((appendsAs_appendMembers maxBytes _).bind (appendsAs_append maxBytes [0x7D]))

variable {s : Bytes} {i n : Nat}

/-- The program returns what `q` does. -/
abbrev FollowsPlain (q : Scan InventoryError Bytes) (s : Bytes) (i : Nat) :
    Except Failed Output → Nat → Prop :=
  FollowsAs Failed.error Output.bytes q s i

theorem AppendsAs.runs {f : Output → Except Failed Output} {g : Bytes → Option Bytes}
    (h : AppendsAs f g) (hi : i ≤ s.length) (output : Output) :
    Runs s i n (ofExcept (f output))
      (FollowsPlain (Scan.ofExcept (orOversized (g output.bytes))) s i) := by
  rw [← h output]
  refine runs_ofExcept hi ?_
  rcases f output with failed | next
  · rfl
  · rfl

/-! ## §4  The same writer -/

section more

variable {ε' : Type}

/-- Go on behind a program whose continuation over the bytes left is known. -/
theorem runs_more {p : Cursor UInt8 ε' α} {f : α → Cursor UInt8 ε' τ} {k : α → Scan ε β}
    {blame : ε' → ε} {res : Except ε β × Bytes} {K : τ → Nat → Except ε β × Bytes → Prop}
    (hp : Runs s i n p (Gives blame (fun a j res => res = k a (s.drop j)) res))
    (hf : ∀ a j, i ≤ j → j ≤ s.length → Runs s j n (f a) (Gives blame K (k a (s.drop j)))) :
    Runs s i n (p >>= f) (Gives blame K res) :=
  hp.bind (fun a j hle hj ha => runs_start ha (hf a j hle hj)) fun _ _ _ _ he => he

/-- The bytes between two offsets on one text. -/
theorem take_of_drop {w : Bytes} {j : Nat} (hle : i ≤ j) (hj : j ≤ s.length)
    (h : s.drop i = w ++ s.drop j) : (s.drop i).take (j - i) = w := by
  have hlength := congrArg List.length h
  rw [List.length_append, List.length_drop, List.length_drop] at hlength
  have hw : j - i = w.length := by omega
  rw [hw, h, List.take_left]

end more

theorem canonicalizeToken_runs {p : Cursor UInt8 Unit α} {q : Scan Unit α}
    (hp : Runs s i n p (Follows q s i)) (maxBytes : Nat) (output : Output) :
    Runs s i n (canonicalizeToken maxBytes p output)
      (FollowsPlain ((q.orFail InventoryError.malformedJson).captured >>= fun (_, text) =>
        Scan.ofExcept (orOversized (append maxBytes text output.bytes))) s i) := by
  unfold canonicalizeToken
  refine runs_offset ?_
  have hfirst : Runs s i n (p.orFail ⟨.malformedJson, output⟩)
      (FollowsAs Failed.error id (q.orFail InventoryError.malformedJson) s i) := runs_orFail hp
  refine hfirst.bind (fun a j hle hj ha => ?_) fun e j _ _ he => ?_
  · have hcaptured : (q.orFail InventoryError.malformedJson).captured (s.drop i) =
        (.ok (a, (s.drop i).take (j - i)), s.drop j) := by
      refine captured_eq_ok.mpr ⟨ha, ?_⟩
      rw [List.length_drop, List.length_drop]
      congr 1
      omega
    refine runs_offset (runs_slice hle hj ?_)
    exact runs_start (bind_apply_ok hcaptured) ((appendsAs_append maxBytes _).runs hj output)
  · refine bind_apply_error ?_
    unfold captured
    have he' : ((q.orFail InventoryError.malformedJson) (s.drop i)).1 = .error e.error := he
    rcases hq : (q.orFail InventoryError.malformedJson) (s.drop i) with ⟨r, rest⟩
    rw [hq] at he'
    cases he'
    rfl

theorem canonicalizeLiteral_runs (hi : i ≤ s.length) (w : Literal) (maxBytes : Nat)
    (output : Output) : Runs s i n (canonicalizeLiteral maxBytes w output)
      (FollowsPlain ((Reader.literal w .malformedJson).check fun _ =>
        orOversized (append maxBytes w.bytes output.bytes)).scan s i) := by
  show Runs _ _ _ _ (Gives _ _ (((Reader.literal w .malformedJson).scan >>= fun _ =>
    Scan.ofExcept (orOversized (append maxBytes w.bytes output.bytes))) (s.drop i)))
  rw [literal_scan]
  exact runs_then (runs_orFail (scanLiteral_runs hi w.bytes)) fun _ j _ hj _ =>
    (appendsAs_append maxBytes w.bytes).runs hj output

section containers

variable {value : Cursor UInt8 Failed Output} {r : Reader InventoryError Bytes}

/-- Without a quote there is no key. -/
theorem scanString_orFail_error {first : UInt8} {rest : Bytes} (h : first ≠ 0x22) (e : ε) :
    (Protocol.scanString.orFail e (first :: rest)).1 = .error e := by
  unfold Scan.orFail Protocol.scanString
  dsimp only
  rw [if_neg (mt beq_iff_eq.mp h)]

/-- The member's value is read on an output of its own, and put beside its key. -/
theorem memberValue_runs (hvalue : Runs s i n value (FollowsPlain r.scan s i))
    (output : Output) (st : MemberState) (t : StringText) :
    Runs s i n ((value.mapError fun failed =>
        ⟨failed.error, output.beside (max st.largest failed.output.largest)⟩) >>= fun valueJson =>
      pure (⟨st.members ++ [⟨t.val, 0x22 :: (t.val ++ [0x22]), valueJson.bytes⟩],
        max st.largest valueJson.largest⟩ : MemberState))
      (FollowsAs Failed.error MemberState.members ((objectReader r).loop.member st.members
        (tokenOf t.val)) s i) := by
  have hmember : (objectReader r).loop.member st.members (tokenOf t.val) =
      r.scan >>= fun valueJson => Scan.ofExcept (.ok
        (st.members ++ [⟨t.val, 0x22 :: (t.val ++ [0x22]), valueJson⟩])) := rfl
  have hnested : Runs s i n (value.mapError fun failed =>
      (⟨failed.error, output.beside (max st.largest failed.output.largest)⟩ : Failed))
        (FollowsPlain r.scan s i) :=
    hvalue.mapError (fun _ _ _ _ h => h) fun _ _ _ _ h => h
  rw [hmember]
  exact runs_then hnested fun _ l _ hl _ => runs_pure hl rfl

/-- One member. Both look for a quote, for another member of the key and, behind the colon,
for the value; the program also keeps the offsets between which the key stands. -/
theorem canonicalizeMemberTurn_runs (hi : i ≤ s.length)
    (hvalue : ∀ j, i < j → j ≤ s.length → Runs s j n value (FollowsPlain r.scan s j))
    (finish : List ObjectMember × LoopExit → Scan InventoryError Bytes)
    (hcut : ∀ members, finish (members, .cut) = finish (members, .closed))
    (again : List ObjectMember → Scan InventoryError (List ObjectMember × LoopExit))
    (output : Output) (st : MemberState) :
    Runs s i n (canonicalizeMemberTurn value output st)
      (Gives Failed.error (Turns (fun st => again st.members >>= finish)
          (fun st => finish (st.members, .closed)) s i)
        (((objectReader r).loop.turn again st.members >>= finish) (s.drop i))) := by
  refine runs_inside (fun hlt => ?_) fun hnot => ?_
  swap
  · -- behind a comma at the end the program leaves its loop as behind the brace
    rw [drop_eq_nil_of_not_lt hnot]
    refine runs_pure hi ?_
    show finish (st.members, .cut) [] = finish (st.members, .closed) (s.drop i)
    rw [drop_eq_nil_of_not_lt hnot, hcut]
  obtain ⟨first, hfirst, hdrop⟩ := drop_cons_of_lt hlt
  refine runs_start (objectTurn_eq (L := (objectReader r).loop) rfl (fun _ => rfl) again
    st.members finish (drop_ne_nil_of_lt hlt)) ?_
  refine runs_outside (fun hnot => absurd hlt hnot) fun _ => runs_current hfirst ?_
  by_cases hquote : first = 0x22
  swap
  · rw [if_pos (bne_iff_ne.mpr hquote)]
    refine runs_fail hi (bind_apply_error ?_)
    rw [hdrop]
    exact scanString_orFail_error hquote _
  rw [if_neg (by rw [hquote]; decide)]
  refine runs_offset ?_
  refine runs_then (runs_orFail (scanString_runs hi)) fun key j hle hj hkey => ?_
  obtain ⟨t, hsplit, rfl⟩ := scanString_sound (orFail_eq_ok.mp hkey)
  have hjson : (s.drop i).take (j - i) = 0x22 :: (t.val ++ [0x22]) := by
    refine take_of_drop hle hj ?_
    rw [hsplit]
    simp
  refine runs_offset (runs_slice hle hj ?_)
  rw [hjson]
  have hcheck : (objectReader r).loop.checkKey st.members (tokenOf t.val) =
      if t.val ∈ st.members.map ObjectMember.keyContents then .error .duplicateMember
      else .ok () := rfl
  rw [id_eq, hcheck, tokenOf_contents]
  by_cases hdup : t.val ∈ st.members.map ObjectMember.keyContents
  · rw [if_pos hdup, if_pos hdup]
    exact runs_fail hj rfl
  rw [if_neg hdup, if_neg hdup]
  have hok : (Scan.ofExcept (.ok ()) : Scan InventoryError Unit) (s.drop j) =
      (.ok (), s.drop j) := rfl
  refine runs_start (bind_apply_ok hok) ?_
  have hmalformed : ∀ st : MemberState,
      Failed.error ⟨.malformedJson, output.beside st.largest⟩ = InventoryError.malformedJson :=
    fun _ => rfl
  have hrest := restOfMember_runs testsEnd_outside hle hj hmalformed MemberState.members st
    (fun k hjk hk => memberValue_runs (hvalue k (by omega) hk) output st t)
    (fun members => again members >>= finish) (fun members => finish (members, .closed))
  exact hrest

theorem canonicalizeObject_runs {depth maxDepth : UInt64} (hdepth : ¬ depth > maxDepth)
    (maxBytes : Nat) (hi : i ≤ s.length)
    (hvalue : ∀ j, i ≤ j → j ≤ s.length → Runs s j n value (FollowsPlain r.scan s j))
    (output : Output) :
    Runs s i n (canonicalizeObject depth maxDepth maxBytes value output)
      (Gives Failed.error (fun a j res => res = (.ok a.bytes, s.drop j))
        ((Inventory.canonicalizeObject maxBytes r output.bytes).scan (0x7B :: s.drop i))) := by
  unfold canonicalizeObject Inventory.canonicalizeObject
  rw [if_neg hdepth, object_scan]
  refine container_runs hi (fun j _ hj => (appendsAs_append maxBytes _).runs hj output)
    fun j hle hj => ?_
  have hloop := runs_fuelled (n := n) (objectReader r).loop.run (fun _ _ => rfl)
    MemberState.members ⟨[], 0⟩ hj fun st k again hjk hk =>
      canonicalizeMemberTurn_runs hk (fun l hkl hl => hvalue l (by omega) hl)
        (fun (members, exit) => Scan.ofExcept
          (if exit = .empty then orOversized (append maxBytes [0x7B, 0x7D] output.bytes)
            else orOversized (Inventory.appendObject maxBytes members output.bytes)))
        (fun _ => rfl) again output st
  exact runs_more hloop fun st k _ hk =>
    (appendsAs_appendObject maxBytes st.members).runs hk (output.beside st.largest)

end containers

/-- The state of the reader's loop. -/
def ElementState.plain (st : ElementState) : ArrayState := ⟨st.first, st.output.bytes⟩

/-- The reader's element, where the comma in front of it fits. -/
theorem element_of_some {maxBytes : Nat} {r : Bytes → Reader InventoryError Bytes}
    {st : ArrayState} {output : Bytes}
    (h : (if st.first then some st.output else append maxBytes [0x2C] st.output) = some output) :
    (arrayReader maxBytes r).loop.element st = (r output).scan >>= fun output =>
      Scan.ofExcept (.ok ⟨false, output⟩) := by
  have helement : (arrayReader maxBytes r).element st =
      (r output).map fun output => ⟨false, output⟩ := by
    unfold arrayReader
    dsimp only
    rw [h]
  exact congrArg Reader.scan helement

theorem element_of_none {maxBytes : Nat} {r : Bytes → Reader InventoryError Bytes}
    {st : ArrayState}
    (h : (if st.first then some st.output else append maxBytes [0x2C] st.output) = none) :
    (arrayReader maxBytes r).loop.element st = Scan.fail .oversizedSchema := by
  have helement : (arrayReader maxBytes r).element st = .fail .oversizedSchema := by
    unfold arrayReader
    dsimp only
    rw [h]
  exact congrArg Reader.scan helement

theorem canonicalizeElementTurn_runs {maxBytes : Nat}
    {value : Output → Cursor UInt8 Failed Output}
    {r : Bytes → Reader InventoryError Bytes} (hi : i ≤ s.length)
    (hvalue : ∀ output, Runs s i n (value output) (FollowsPlain (r output.bytes).scan s i))
    (finish : ArrayState → Scan InventoryError Bytes)
    (again : ArrayState → Scan InventoryError ArrayState) (st : ElementState) :
    Runs s i n (canonicalizeElementTurn maxBytes value st)
      (Gives Failed.error (Turns (fun st => again st.plain >>= finish)
          (fun st => finish st.plain) s i)
        (((arrayReader maxBytes r).loop.turn again st.plain >>= finish) (s.drop i))) := by
  refine runs_inside (fun hlt => ?_) fun hnot => ?_
  swap
  · rw [drop_eq_nil_of_not_lt hnot]
    exact runs_fail hi rfl
  refine runs_start (arrayTurn_eq (L := (arrayReader maxBytes r).loop) rfl again st.plain finish
    (drop_ne_nil_of_lt hlt)) ?_
  have hcomma : plain (if st.first then .ok st.output
        else appendLimited maxBytes [0x2C] st.output) =
      orOversized (if st.first then some st.output.bytes
        else append maxBytes [0x2C] st.output.bytes) := by
    split
    · rfl
    · exact appendsAs_append maxBytes [0x2C] st.output
  -- the comma is written before the element is read, and may not have room
  obtain ⟨output, hr, hwritten⟩ | ⟨failed, hr, hwritten, herror⟩ := plain_eq_orOversized hcomma
  · have helement := @element_of_some maxBytes r st.plain _ hwritten
    rw [hr, helement, scan_bind_assoc]
    refine Runs.step rfl (Nat.le_refl i) (runs_then (hvalue output) fun output j hle hj _ => ?_)
    have hmalformed : ∀ st : ElementState,
        Failed.error ⟨.malformedJson, st.output⟩ = InventoryError.malformedJson := fun _ => rfl
    exact separator_runs testsEnd_outside hle hj hmalformed 0x5D (⟨false, output⟩ : ElementState)
      (fun st => again st.plain >>= finish) (fun st => finish st.plain)
  · have helement := @element_of_none maxBytes r st.plain hwritten
    rw [hr, helement]
    exact runs_failed hi (congrArg Except.error herror.symm)

theorem containerScan_bind (closer : UInt8) (empty rest : Scan ε α) (f : α → Scan ε β) :
    containerScan closer empty rest >>= f =
      containerScan closer (empty >>= f) (rest >>= f) := by
  unfold containerScan
  simp only [scan_bind_assoc, scan_ite_bind]

theorem canonicalizeArray_runs {depth maxDepth : UInt64} (hdepth : ¬ depth > maxDepth)
    (maxBytes : Nat) {value : Output → Cursor UInt8 Failed Output}
    {r : Bytes → Reader InventoryError Bytes} (hi : i ≤ s.length)
    (hvalue : ∀ output j, i ≤ j → j ≤ s.length →
      Runs s j n (value output) (FollowsPlain (r output.bytes).scan s j)) (output : Output) :
    Runs s i n (canonicalizeArray depth maxDepth maxBytes value output)
      (Gives Failed.error (fun a j res => res = (.ok a.bytes, s.drop j))
        ((Inventory.canonicalizeArray maxBytes r output.bytes).scan (0x5B :: s.drop i))) := by
  unfold canonicalizeArray Inventory.canonicalizeArray
  rw [if_neg hdepth]
  obtain ⟨opened, hr, hwritten⟩ | ⟨failed, hr, hwritten, herror⟩ :=
    plain_eq_orOversized (appendsAs_append maxBytes [0x5B] output)
  swap
  · rw [hr, hwritten]
    exact runs_failed hi (congrArg Except.error herror.symm)
  rw [hr, hwritten]
  dsimp only
  have hscan : (((arrayReader maxBytes r).array .malformedJson ⟨true, opened.bytes⟩).check
      fun st => orOversized (append maxBytes [0x5D] st.output)).scan (0x5B :: s.drop i) =
    containerScan 0x5D (Scan.ofExcept (orOversized (append maxBytes [0x5D] opened.bytes)))
      (fun rest => ((arrayReader maxBytes r).loop.run (rest.length + 1) ⟨true, opened.bytes⟩ >>=
        fun st => Scan.ofExcept (orOversized (append maxBytes [0x5D] st.output))) rest)
      (s.drop i) := by
    show (((arrayReader maxBytes r).array .malformedJson ⟨true, opened.bytes⟩).scan >>= fun st =>
      Scan.ofExcept (orOversized (append maxBytes [0x5D] st.output))) (0x5B :: s.drop i) = _
    rw [bind_apply, array_scan]
    exact congrFun (containerScan_bind 0x5D
      (pure (⟨true, opened.bytes⟩ : ArrayState)) _ _) (s.drop i)
  rw [hscan]
  refine Runs.step rfl (Nat.le_refl i) (container_runs hi
    (fun j _ hj => (appendsAs_append maxBytes [0x5D]).runs hj opened) fun j hle hj => ?_)
  have hloop := runs_fuelled (n := n) (arrayReader maxBytes r).loop.run (fun _ _ => rfl)
    ElementState.plain ⟨true, opened⟩ hj fun st k again hjk hk =>
      canonicalizeElementTurn_runs hk (fun output => hvalue output k (by omega) hk)
        (fun st => Scan.ofExcept (orOversized (append maxBytes [0x5D] st.output))) again st
  exact runs_more hloop fun st k _ hk => (appendsAs_append maxBytes [0x5D]).runs hk st.output

/-- `canonicalize_value` runs as the writer with the levels that are left to it. -/
theorem canonicalizeValueFrom_runs {maxBytes fuel levels : Nat} {depth maxDepth : UInt64}
    (output : Output) (hi : i ≤ s.length) (hfuel : s.length - i < fuel)
    (hlevels : Levels depth maxDepth levels (s.length - i)) :
    Runs s i (levels + 1) (canonicalizeValueFrom maxBytes fuel depth maxDepth output)
      (FollowsPlain (canonicalizeAt maxBytes levels output.bytes).scan s i) := by
  induction fuel generalizing i levels depth output with
  | zero => exact absurd hfuel (Nat.not_lt_zero _)
  | succ fuel ih =>
      refine Runs.frame ?_
      cases levels with
      | zero =>
          rw [if_pos hlevels.zero]
          exact runs_fail hi rfl
      | succ levels =>
          obtain ⟨hdepth, hdeeper⟩ := hlevels.succ
          rw [if_neg hdepth]
          refine runs_outside (fun hnot => ?_) fun hlt => ?_
          · refine runs_fail hi ?_
            show ((canonicalizeAt maxBytes (levels + 1) output.bytes).scan (s.drop i)).1 = _
            rw [drop_eq_nil_of_not_lt hnot]
            rfl
          obtain ⟨value, hvalue, hdrop⟩ := drop_cons_of_lt hlt
          -- behind a bracket there are fewer bytes, and so fuel and levels enough
          have hnested : ∀ output j, i + 1 ≤ j → j ≤ s.length → Runs s j (levels + 1)
              (canonicalizeValueFrom maxBytes fuel (depth + 1) maxDepth output)
              (FollowsPlain (canonicalizeAt maxBytes levels output.bytes).scan s j) :=
            fun output j hle hj => ih output hj (by omega) (hdeeper _ (by omega))
          have hobject := canonicalizeObject_runs hdepth maxBytes hlt (hnested .empty) output
          have harray := canonicalizeArray_runs hdepth maxBytes hlt hnested output
          refine runs_current hvalue ?_
          have hatEnd : ∀ q : Reader InventoryError Bytes,
              (orAtEnd .excessiveNesting q).scan (s.drop i) = q.scan (s.drop i) := by
            intro q
            show (peek >>= fun c => if c = none then Scan.fail _ else q.scan) (s.drop i) = _
            rw [peek_bind, hdrop]
            rfl
          refine runs_start (hatEnd _) ?_
          refine runs_onByte hdrop (fun _ => ?_) (runs_onByte hdrop (fun hbrace => ?_)
            (runs_onByte hdrop (fun hbracket => ?_) (runs_onByte hdrop (fun _ => ?_)
              (runs_onByte hdrop (fun _ => ?_) (runs_onByte hdrop (fun _ => ?_) ?_)))))
          · exact canonicalizeToken_runs (scanString_runs hi) maxBytes output
          · rw [hbrace]
            exact runs_advance hobject
          · rw [hbracket]
            exact runs_advance harray
          · exact canonicalizeLiteral_runs hi .true maxBytes output
          · exact canonicalizeLiteral_runs hi .false maxBytes output
          · exact canonicalizeLiteral_runs hi .null maxBytes output
          · exact canonicalizeToken_runs (scanNumber_runs hi) maxBytes output

end NativeGuard.Protocol.Offsets

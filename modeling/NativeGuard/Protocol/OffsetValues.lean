import NativeGuard.Protocol.OffsetScanner
import NativeGuard.Protocol.Readers

/-!
# Values over the offset (`src/json_scanner.hpp`, `src/policy_loader.cpp`)

`skip_value` and `exceeds_nesting` as programs over the offset, and the parts that every
reader of a value has. The depth is a `size_t`, so the caller's depth plus one may be zero;
the fuel of the recursion is the bytes left, since an activation takes the bracket in front
of the next one.
-/

namespace NativeGuard.Protocol.Offsets

open Json Json.Scan Data Data.Cursor

variable {ε ε' α β σ τ : Type}

/-! ## §1  The programs -/

/-- Behind a value: the loop is left at `closer`, or goes on behind a comma. What is
reported of a failure may show the state. -/
def separator (ended : Cursor UInt8 ε Bool) (e : σ → ε) (closer : UInt8) (st : σ) :
    Cursor UInt8 ε (σ ⊕ σ) := do
  skipWhitespace
  if ← ended then fail (e st)
  else if (← current) == closer then
    advance 1
    pure (.inr st)
  else if (← take) != 0x2C then fail (e st)
  else
    skipWhitespace
    pure (.inl st)

/-- A member behind its key. -/
def restOfMember (ended : Cursor UInt8 ε Bool) (e : σ → ε) (st : σ)
    (value : Cursor UInt8 ε σ) : Cursor UInt8 ε (σ ⊕ σ) := do
  skipWhitespace
  if ← ended then fail (e st)
  else if (← take) != 0x3A then fail (e st)
  else
    skipWhitespace
    let st ← value
    separator ended e 0x7D st

def skipMemberTurn (value : Cursor UInt8 Unit Unit) (st : Unit) :
    Cursor UInt8 Unit (Unit ⊕ Unit) := do
  if ← inside then
    let _ ← scanString
    restOfMember atEnd id st value
  else fail ()

def skipElementTurn (value : Cursor UInt8 Unit Unit) (_ : Unit) :
    Cursor UInt8 Unit (Unit ⊕ Unit) := do
  if ← inside then
    let st ← value
    separator atEnd id 0x5D st
  else fail ()

/-- Behind the opening byte: an empty container is closed at once. -/
def container (closer : UInt8) (empty rest : Cursor UInt8 ε α) : Cursor UInt8 ε α := do
  skipWhitespace
  if ← startsWith (· == closer) then
    advance 1
    empty
  else rest

/-- `skip_value`; `depth + 1` is computed in `size_t`. -/
def skipValueFrom : Nat → UInt64 → UInt64 → Cursor UInt8 Unit Unit
  | 0, _, _ => fun _ _ => .error .unfinished
  | fuel + 1, depth, maxDepth => frame do
      if depth > maxDepth then fail ()
      else if ← atEnd then fail ()
      else
        let value ← current
        if value == 0x22 then
          let _ ← scanString
          pure ()
        else if value == 0x7B then
          advance 1
          container 0x7D (pure ())
            (loop (skipMemberTurn (skipValueFrom fuel (depth + 1) maxDepth)) ())
        else if value == 0x5B then
          advance 1
          container 0x5D (pure ())
            (loop (skipElementTurn (skipValueFrom fuel (depth + 1) maxDepth)) ())
        else if value == 0x74 then scanLiteral Literal.true.bytes
        else if value == 0x66 then scanLiteral Literal.false.bytes
        else if value == 0x6E then scanLiteral Literal.null.bytes
        else scanNumber

def skipValue (depth maxDepth : UInt64) : Cursor UInt8 Unit Unit :=
  withFuel fun fuel => skipValueFrom fuel depth maxDepth

/-- One turn of the loop of `exceeds_nesting`, which keeps the depth. -/
def exceedsTurn (maxDepth depth : UInt64) : Cursor UInt8 ε (UInt64 ⊕ Bool) := do
  if ← inside then
    let value ← current
    if value == 0x22 then
      match ← attempt scanString with
      | some _ => pure (.inl depth)
      | none => pure (.inr false)
    else if value == 0x7B || value == 0x5B then
      if depth + 1 > maxDepth then pure (.inr true)
      else
        advance 1
        pure (.inl (depth + 1))
    else if (value == 0x7D || value == 0x5D) && depth > 0 then
      advance 1
      pure (.inl (depth - 1))
    else
      advance 1
      pure (.inl depth)
  else pure (.inr false)

def exceedsNesting (maxDepth : UInt64) : Cursor UInt8 ε Bool :=
  loop (exceedsTurn maxDepth) 0

/-! ## §2  Separators and members -/

variable {s : Bytes} {i n : Nat} {blame : ε' → ε}

/-- A turn ends as `res` does: it goes on, behind `start`, or leaves the loop. -/
def Turns (again : σ → Scan ε β) (after : τ → Scan ε β) (s : Bytes) (start : Nat) :
    σ ⊕ τ → Nat → Except ε β × Bytes → Prop
  | .inl st, j, res => start < j ∧ res = again st (s.drop j)
  | .inr a, j, res => res = after a (s.drop j)

/-- The test for the end of the input, in either spelling. -/
def TestsEnd (ended : Cursor UInt8 ε Bool) : Prop :=
  ∀ s i, i ≤ s.length → ended s i = .ok ⟨.ok (decide (¬ i < s.length)), i, 0⟩

theorem testsEnd_atEnd : TestsEnd (atEnd : Cursor UInt8 ε Bool) := by
  intro s i hi
  have hiff : i = s.length ↔ ¬ i < s.length := by omega
  unfold atEnd
  rw [decide_eq_decide.mpr hiff]

theorem testsEnd_outside : TestsEnd (outside : Cursor UInt8 ε Bool) := by
  intro s i _
  have hiff : i ≥ s.length ↔ ¬ i < s.length := Nat.not_lt.symm
  unfold outside
  rw [decide_eq_decide.mpr hiff]

/-- `separator` over the bytes left. -/
def separatorScan (closer : UInt8) (e : ε) (done again : Scan ε β) : Scan ε β := do
  Protocol.skipWhitespace
  let c ← next
  if c = some closer then done
  else if c = some 0x2C then
    Protocol.skipWhitespace
    again
  else Scan.fail e

theorem separator_runs {ended : Cursor UInt8 ε' Bool} (hended : TestsEnd ended) {start : Nat}
    (hstart : start ≤ i) (hi : i ≤ s.length) {e : σ → ε'} {e' : ε}
    (hblame : ∀ st, blame (e st) = e') (closer : UInt8) (st : σ) (again after : σ → Scan ε β) :
    Runs s i n (separator ended e closer st) (Gives blame (Turns again after s start)
      (separatorScan closer e' (after st) (again st) (s.drop i))) := by
  refine runs_then (skipWhitespace_runs hi) fun _ j hle hj _ => ?_
  have herror : Except.error e' = (.error (blame (e st)) : Except ε β) :=
    congrArg Except.error (hblame st).symm
  refine runs_if (hended s j hj) (fun hnot => ?_) fun hin => ?_
  · refine runs_fail hj ?_
    rw [drop_eq_nil_of_not_lt hnot]
    exact herror
  obtain ⟨value, hvalue, hdrop⟩ := drop_cons_of_lt (not_not.mp hin)
  have hlt := not_not.mp hin
  rw [hdrop]
  show Runs s j n _ (Gives _ _ ((if some value = some closer then after st
    else if some value = some 0x2C then Protocol.skipWhitespace >>= fun _ => again st
    else Scan.fail e') (s.drop (j + 1))))
  refine runs_current hvalue ?_
  by_cases hclose : value = closer
  · rw [if_pos (congrArg some hclose), if_pos (beq_iff_eq.mpr hclose)]
    exact runs_advance (runs_pure hlt rfl)
  rw [if_neg fun h => hclose (Option.some.inj h), if_neg (mt beq_iff_eq.mp hclose)]
  refine runs_take hvalue ?_
  by_cases hcomma : value = 0x2C
  · rw [if_pos (congrArg some hcomma), if_neg (by rw [hcomma]; decide)]
    refine runs_then (skipWhitespace_runs hlt) fun _ k hjk hk _ => ?_
    exact runs_pure hk ⟨by omega, rfl⟩
  · rw [if_neg fun h => hcomma (Option.some.inj h), if_pos (bne_iff_ne.mpr hcomma)]
    exact runs_fail hlt herror

/-- `restOfMember` over the bytes left. -/
def memberScan (e : ε) (value : Scan ε σ) (next : σ → Scan ε β) : Scan ε β := do
  Protocol.skipWhitespace
  expect 0x3A e
  Protocol.skipWhitespace
  let st ← value
  next st

theorem restOfMember_runs {ended : Cursor UInt8 ε' Bool} (hended : TestsEnd ended) {start : Nat}
    (hstart : start ≤ i) (hi : i ≤ s.length) {e : τ → ε'} {e' : ε}
    (hblame : ∀ st, blame (e st) = e') (state : τ → σ) (st : τ) {value : Cursor UInt8 ε' τ}
    {valueScan : Scan ε σ}
    (hvalue : ∀ j, i < j → j ≤ s.length → Runs s j n value (FollowsAs blame state valueScan s j))
    (again after : σ → Scan ε β) :
    Runs s i n (restOfMember ended e st value)
      (Gives blame (Turns (again ∘ state) (after ∘ state) s start)
        (memberScan e' valueScan (fun st => separatorScan 0x7D e' (after st) (again st))
          (s.drop i))) := by
  refine runs_then (skipWhitespace_runs hi) fun _ j hle hj _ => ?_
  have herror : Except.error e' = (.error (blame (e st)) : Except ε β) :=
    congrArg Except.error (hblame st).symm
  refine runs_if (hended s j hj) (fun hnot => ?_) fun hin => ?_
  · refine runs_fail hj ?_
    rw [drop_eq_nil_of_not_lt hnot]
    exact herror
  have hlt := not_not.mp hin
  obtain ⟨value', hvalue', hdrop⟩ := drop_cons_of_lt hlt
  refine runs_take hvalue' ?_
  by_cases hcolon : value' = 0x3A
  · rw [if_neg (by rw [hcolon]; decide), hdrop, hcolon]
    refine runs_start (bind_apply_ok (expect_run 0x3A e' _)) ?_
    refine runs_then (skipWhitespace_runs hlt) fun _ k hjk hk _ => ?_
    refine runs_then (hvalue k (by omega) hk) fun st l hkl hl _ => ?_
    exact separator_runs hended (by omega) hl hblame 0x7D st (again ∘ state) (after ∘ state)
  · rw [if_pos (bne_iff_ne.mpr hcolon), hdrop]
    refine runs_fail hlt (bind_apply_error ?_)
    rw [hblame st]
    show (expect 0x3A e' (value' :: _)).1 = _
    unfold expect
    rw [bind_apply]
    show ((if some value' = some 0x3A then pure () else Scan.fail e' : Scan ε Unit) _).1 = _
    rw [if_neg fun h => hcolon (Option.some.inj h)]
    rfl

/-! ## §3  The loops -/

theorem scan_bind_assoc (p : Scan ε α) (f : α → Scan ε τ) (g : τ → Scan ε β) :
    p >>= f >>= g = p >>= fun a => f a >>= g := by
  funext rest
  rw [bind_apply, bind_apply, bind_apply]
  rcases p rest with ⟨_ | a, rest'⟩
  · rfl
  · rfl

theorem scan_ite_bind {c : Prop} [Decidable c] (p q : Scan ε α) (f : α → Scan ε β) :
    (if c then p else q) >>= f = if c then p >>= f else q >>= f := by
  split
  · rfl
  · rfl

theorem objectSeparator_eq {L : ObjectLoop σ ε} (hL : L.trailing = .unchecked)
    (again : σ → Scan ε (σ × LoopExit)) (st : σ) (finish : σ × LoopExit → Scan ε β) :
    L.separator again st >>= finish = separatorScan 0x7D (L.malformed st)
      (finish (st, .closed)) (again st >>= finish) := by
  unfold ObjectLoop.separator separatorScan
  rw [hL]
  simp only [ite_self, scan_bind_assoc, scan_ite_bind]
  rfl

/-- A turn over the bytes left, up to `finish` behind the loop. -/
theorem objectTurn_eq {L : ObjectLoop σ ε} (hL : L.trailing = .unchecked) {e : ε}
    (he : ∀ st, L.malformed st = e) (again : σ → Scan ε (σ × LoopExit)) (st : σ)
    (finish : σ × LoopExit → Scan ε β) {rest : Bytes} (hrest : rest ≠ []) :
    (L.turn again st >>= finish) rest = (Protocol.scanString.orFail e >>= fun key =>
      Scan.ofExcept (L.checkKey st key) >>= fun _ => memberScan e (L.member st key) fun st' =>
        separatorScan 0x7D e (finish (st', .closed)) (again st' >>= finish)) rest := by
  have hsome : ¬ rest.head? = none := mt List.head?_eq_none_iff.mp hrest
  unfold ObjectLoop.turn memberScan
  rw [scan_bind_assoc, peek_bind, if_neg hsome]
  simp only [scan_bind_assoc, objectSeparator_eq hL, he]

theorem arraySeparator_eq {L : ArrayLoop σ ε} (hL : L.rejectsTrailing = false)
    (again : σ → Scan ε σ) (st : σ) (finish : σ → Scan ε β) :
    L.separator again st >>= finish = separatorScan 0x5D L.malformed
      (finish st) (again st >>= finish) := by
  unfold ArrayLoop.separator separatorScan
  rw [hL]
  simp only [Bool.false_eq_true, and_false, if_false, scan_bind_assoc, scan_ite_bind]
  rfl

theorem arrayTurn_eq {L : ArrayLoop σ ε} (hL : L.rejectsTrailing = false)
    (again : σ → Scan ε σ) (st : σ) (finish : σ → Scan ε β) {rest : Bytes} (hrest : rest ≠ []) :
    (L.turn again st >>= finish) rest = (L.element st >>= fun st' =>
      separatorScan 0x5D L.malformed (finish st') (again st' >>= finish)) rest := by
  have hsome : ¬ rest.head? = none := mt List.head?_eq_none_iff.mp hrest
  unfold ArrayLoop.turn
  rw [scan_bind_assoc, peek_bind, if_neg hsome]
  simp only [scan_bind_assoc, arraySeparator_eq hL]

/-- A loop over the offset runs as one that is fuelled by the bytes left, turn by turn. -/
theorem runs_fuelled {δ ρ : Type} (run : Nat → σ → Scan ε δ)
    {turn : (σ → Scan ε δ) → σ → Scan ε δ}
    (hrun : ∀ fuel st, run (fuel + 1) st = turn (run fuel) st)
    {finish : δ → Scan ε β} {after : τ → Scan ε β} (state : ρ → σ)
    {body : ρ → Cursor UInt8 ε' (ρ ⊕ τ)} (st : ρ) (hi : i ≤ s.length)
    (hbody : ∀ st j again, i ≤ j → j ≤ s.length → Runs s j n (body st)
      (Gives blame (Turns (fun st => again (state st) >>= finish) after s j)
        ((turn again (state st) >>= finish) (s.drop j)))) :
    Runs s i n (loop body st) (Gives blame (fun a j res => res = after a (s.drop j))
      ((run ((s.drop i).length + 1) (state st) >>= finish) (s.drop i))) := by
  refine runs_loop (fun st' j => ∃ fuel, s.length - j < fuel ∧
    (run ((s.drop i).length + 1) (state st) >>= finish) (s.drop i) =
      (run fuel (state st') >>= finish) (s.drop j)) hi ?_ fun st' j hle hj hinv => ?_
  · refine ⟨_, ?_, rfl⟩
    rw [List.length_drop]
    exact Nat.lt_succ_self _
  · obtain ⟨fuel, hfuel, hsame⟩ := hinv
    obtain ⟨fuel, rfl⟩ : ∃ fuel', fuel = fuel' + 1 := ⟨fuel - 1, by omega⟩
    rw [hrun fuel (state st')] at hsame
    refine (hbody st' j (run fuel) hle hj).post fun r k hjk hk hpost => ?_
    rcases r with e | next | a
    · exact (congrArg Prod.fst hsame).trans hpost
    · exact ⟨hpost.1, fuel, by have := hpost.1; omega, hsame.trans hpost.2⟩
    · exact hsame.trans hpost

/-- `container` over the bytes left. -/
def containerScan (closer : UInt8) (empty rest : Scan ε β) : Scan ε β := do
  Protocol.skipWhitespace
  let c ← peek
  if c = some closer then
    let _ ← next
    empty
  else rest

theorem container_runs {closer : UInt8} {empty rest : Cursor UInt8 ε' α}
    {emptyScan restScan : Scan ε β} {K : α → Nat → Except ε β × Bytes → Prop}
    (hi : i ≤ s.length)
    (hempty : ∀ j, i ≤ j → j ≤ s.length → Runs s j n empty (Gives blame K (emptyScan (s.drop j))))
    (hrest : ∀ j, i ≤ j → j ≤ s.length → Runs s j n rest (Gives blame K (restScan (s.drop j)))) :
    Runs s i n (container closer empty rest)
      (Gives blame K (containerScan closer emptyScan restScan (s.drop i))) := by
  refine runs_then (skipWhitespace_runs hi) fun _ j hle hj _ => ?_
  rw [peek_bind]
  refine runs_startsWith ?_
  by_cases hlt : j < s.length
  · obtain ⟨value, hvalue, hdrop⟩ := drop_cons_of_lt hlt
    rw [hdrop, List.head?_cons, Option.any_some]
    by_cases hclose : value = closer
    · rw [if_pos (congrArg some hclose), if_pos (beq_iff_eq.mpr hclose), next_bind, List.tail_cons]
      exact runs_advance (hempty (j + 1) (by omega) hlt)
    · rw [if_neg fun h => hclose (Option.some.inj h), if_neg (mt beq_iff_eq.mp hclose), ← hdrop]
      exact hrest j hle hj
  · have hgoal := hrest j hle hj
    rw [drop_eq_nil_of_not_lt hlt] at hgoal ⊢
    exact hgoal

/-! ## §4  Readers -/

theorem orFail_unit (q : Scan Unit α) : q.orFail () = q := by
  funext rest
  unfold Scan.orFail
  rcases q rest with ⟨_ | a, rest'⟩
  · rfl
  · rfl

theorem literal_scan (w : Literal) (e : ε) :
    (Reader.literal w e).scan = (Protocol.scanLiteral w.bytes).orFail e := by
  funext rest
  show (Scan.attempt (Protocol.scanLiteral w.bytes) >>= fun found =>
    if found then pure () else Scan.fail e) rest = _
  rw [bind_apply]
  unfold Scan.attempt Scan.orFail Protocol.scanLiteral
  by_cases h : w.bytes.isPrefixOf rest = true
  · rw [if_pos h]
    rfl
  · rw [if_neg h]
    rfl

theorem onByte_scan (b : UInt8) (r other : Reader ε α) (value : UInt8) (rest : Bytes) :
    (Reader.onByte b r other).scan (value :: rest) =
      if value == b then r.scan (value :: rest) else other.scan (value :: rest) := by
  show (if some value = some b then r.scan else other.scan) (value :: rest) = _
  by_cases h : value = b
  · rw [if_pos (congrArg some h), if_pos (beq_iff_eq.mpr h)]
  · rw [if_neg fun heq => h (Option.some.inj heq), if_neg (mt beq_iff_eq.mp h)]

theorem runs_onByte {b value : UInt8} {yes no : Cursor UInt8 ε' α} {r other : Reader ε β}
    {K : α → Nat → Except ε β × Bytes → Prop} (hdrop : s.drop i = value :: s.drop (i + 1))
    (hyes : s.drop i = b :: s.drop (i + 1) → Runs s i n yes (Gives blame K (r.scan (s.drop i))))
    (hno : Runs s i n no (Gives blame K (other.scan (s.drop i)))) :
    Runs s i n (if value == b then yes else no)
      (Gives blame K ((Reader.onByte b r other).scan (s.drop i))) := by
  have hscan := onByte_scan b r other value (s.drop (i + 1))
  rw [← hdrop] at hscan
  rw [hscan]
  by_cases h : value = b
  · rw [if_pos (beq_iff_eq.mpr h), if_pos (beq_iff_eq.mpr h)]
    exact hyes (h ▸ hdrop)
  · rw [if_neg (mt beq_iff_eq.mp h), if_neg (mt beq_iff_eq.mp h)]
    exact hno

theorem object_scan (R : ObjectReader σ ε) (notObject : ε) (st : σ)
    (finish : σ → LoopExit → Except ε α) (rest : Bytes) :
    (R.object notObject st finish).scan (0x7B :: rest) =
      containerScan 0x7D (Scan.ofExcept (finish st .empty)) (fun rest =>
        (R.loop.run (rest.length + 1) st >>= fun (st, exit) =>
          Scan.ofExcept (finish st exit)) rest) rest := by
  show (expect 0x7B notObject >>= fun _ => R.loop.parse st >>= fun (st, exit) =>
    Scan.ofExcept (finish st exit)) (0x7B :: rest) = _
  rw [bind_apply_ok (expect_run 0x7B notObject rest)]
  unfold ObjectLoop.parse containerScan
  rw [scan_bind_assoc]
  refine congrArg (fun f => (Protocol.skipWhitespace >>= f) rest) (funext fun _ => ?_)
  rw [scan_bind_assoc]
  refine congrArg (fun f => peek >>= f) (funext fun c => ?_)
  rw [scan_ite_bind]
  rfl

theorem array_scan (R : ArrayReader σ ε) (notArray : ε) (st : σ) (rest : Bytes) :
    (R.array notArray st).scan (0x5B :: rest) =
      containerScan 0x5D (pure st) (fun rest => R.loop.run (rest.length + 1) st rest) rest := by
  show (expect 0x5B notArray >>= fun _ => R.loop.parse st) (0x5B :: rest) = _
  rw [bind_apply_ok (expect_run 0x5B notArray rest)]
  rfl

/-! ## §5  `skip_value` -/

/-- With the largest limit the depth test never fires, and any number of levels will do
that the bytes left cannot open. -/
structure Levels (depth maxDepth : UInt64) (levels left : Nat) : Prop where
  bounded : maxDepth.toNat + 1 < 2 ^ 64 → levels = maxDepth.toNat + 1 - depth.toNat
  unbounded : maxDepth.toNat + 1 = 2 ^ 64 → left < levels

theorem Levels.zero {depth maxDepth : UInt64} {left : Nat} (h : Levels depth maxDepth 0 left) :
    depth > maxDepth := by
  have hlt := maxDepth.toNat_lt
  have hbounded := h.bounded
  have hunbounded := h.unbounded
  have hgt : maxDepth.toNat < depth.toNat := by omega
  exact hgt

theorem Levels.succ {depth maxDepth : UInt64} {levels left : Nat}
    (h : Levels depth maxDepth (levels + 1) left) :
    ¬ depth > maxDepth ∧ ∀ left' < left, Levels (depth + 1) maxDepth levels left' := by
  have hlt := maxDepth.toNat_lt
  have hlt' := depth.toNat_lt
  have hbounded := h.bounded
  have hunbounded := h.unbounded
  refine ⟨fun hgt => ?_, fun left' hleft => ⟨fun hmax => ?_, fun hmax => ?_⟩⟩
  · have hgt' : maxDepth.toNat < depth.toNat := hgt
    omega
  · rw [UInt64.toNat_add, Nat.mod_eq_of_lt]
    · have hone : (1 : UInt64).toNat = 1 := rfl
      have := hbounded hmax
      omega
    · have hone : (1 : UInt64).toNat = 1 := rfl
      have := hbounded hmax
      omega
  · have := hunbounded hmax
    omega

theorem skipMemberTurn_runs {value : Cursor UInt8 Unit Unit} {r : Reader Unit Unit}
    (hi : i ≤ s.length)
    (hvalue : ∀ j, i < j → j ≤ s.length → Runs s j n value (Follows r.scan s j))
    (again : Unit → Scan Unit (Unit × LoopExit)) (st : Unit) :
    Runs s i n (skipMemberTurn value st) (Gives id (Turns (fun st => again st >>= fun (_, exit) =>
        Scan.ofExcept (if exit = .cut then .error () else .ok ())) pure s i)
      (((skipMembers r).loop.turn again st >>= fun (_, exit) =>
        Scan.ofExcept (if exit = .cut then .error () else .ok ())) (s.drop i))) := by
  refine runs_inside (fun hlt => ?_) fun hnot => ?_
  · refine runs_start (objectTurn_eq (L := (skipMembers r).loop) rfl (fun _ => rfl) again st
      _ (drop_ne_nil_of_lt hlt)) ?_
    rw [orFail_unit]
    refine runs_then (scanString_runs hi) fun key j hle hj _ => ?_
    exact restOfMember_runs testsEnd_atEnd hle hj (fun _ => rfl) id st
      (fun k hjk hk => hvalue k (by omega) hk)
      (fun st => again st >>= fun (_, exit) =>
        Scan.ofExcept (if exit = .cut then .error () else .ok ())) pure
  · rw [drop_eq_nil_of_not_lt hnot]
    exact runs_fail hi rfl

theorem skipElementTurn_runs {value : Cursor UInt8 Unit Unit} {r : Reader Unit Unit}
    (hi : i ≤ s.length) (hvalue : Runs s i n value (Follows r.scan s i))
    (again : Unit → Scan Unit Unit) (st : Unit) :
    Runs s i n (skipElementTurn value st) (Gives id (Turns (fun st => again st >>= pure) pure s i)
      (((skipElements r).loop.turn again st >>= pure) (s.drop i))) := by
  refine runs_inside (fun hlt => ?_) fun hnot => ?_
  · refine runs_start (arrayTurn_eq (L := (skipElements r).loop) rfl again st pure
      (drop_ne_nil_of_lt hlt)) ?_
    refine runs_then hvalue fun st j hle hj _ => ?_
    exact separator_runs testsEnd_atEnd hle hj (fun _ => rfl) 0x5D st
      (fun st => again st >>= pure) pure
  · rw [drop_eq_nil_of_not_lt hnot]
    exact runs_fail hi rfl

theorem scan_bind_pure (p : Scan ε α) : p >>= pure = p := by
  funext rest
  rw [bind_apply]
  rcases p rest with ⟨_ | a, rest'⟩
  · rfl
  · rfl

/-- The two containers behind their opening byte. -/
theorem skipContainers_runs {value : Cursor UInt8 Unit Unit} {r : Reader Unit Unit}
    (hi : i ≤ s.length)
    (hvalue : ∀ j, i ≤ j → j ≤ s.length → Runs s j n value (Follows r.scan s j)) :
    Runs s i n (container 0x7D (pure ()) (loop (skipMemberTurn value) ()))
        (Gives id (fun a j res => res = (.ok a, s.drop j))
          (((skipMembers r).object () () fun _ exit =>
            if exit = .cut then .error () else .ok ()).scan (0x7B :: s.drop i))) ∧
      Runs s i n (container 0x5D (pure ()) (loop (skipElementTurn value) ()))
        (Gives id (fun a j res => res = (.ok a, s.drop j))
          (((skipElements r).array () ()).scan (0x5B :: s.drop i))) := by
  constructor
  · rw [object_scan]
    refine container_runs hi (fun j _ hj => runs_pure hj rfl) fun j hle hj => ?_
    exact runs_fuelled (skipMembers r).loop.run (fun _ _ => rfl) id () hj
      fun st k again hjk hk => skipMemberTurn_runs hk
        (fun l hkl hl => hvalue l (by omega) hl) again st
  · rw [array_scan]
    refine container_runs hi (fun j _ hj => runs_pure hj rfl) fun j hle hj => ?_
    have hloop := runs_fuelled (n := n) (skipElements r).loop.run (fun _ _ => rfl) id () hj
      fun st k again hjk hk => skipElementTurn_runs hk (hvalue k (by omega) hk) again st
    rw [scan_bind_pure] at hloop
    exact hloop

/-- `skip_value` runs as the reader with the levels that are left to it. The induction is
on the fuel; an activation that goes deeper has taken a bracket. -/
theorem skipValueFrom_runs {fuel levels : Nat} {depth maxDepth : UInt64} (hi : i ≤ s.length)
    (hfuel : s.length - i < fuel) (hlevels : Levels depth maxDepth levels (s.length - i)) :
    Runs s i (levels + 1) (skipValueFrom fuel depth maxDepth)
      (Follows (skipValueAt levels).scan s i) := by
  induction fuel generalizing i levels depth with
  | zero => exact absurd hfuel (Nat.not_lt_zero _)
  | succ fuel ih =>
      refine Runs.frame ?_
      cases levels with
      | zero =>
          rw [if_pos hlevels.zero]
          exact runs_fail hi rfl
      | succ levels =>
          obtain ⟨hdepth, hdeeper⟩ := hlevels.succ
          rw [if_neg hdepth]
          refine runs_atEnd hi (fun hnot => ?_) fun hlt => ?_
          · refine runs_fail hi ?_
            show ((skipValueAt (levels + 1)).scan (s.drop i)).1 = .error ()
            rw [drop_eq_nil_of_not_lt hnot]
            rfl
          obtain ⟨value, hvalue, hdrop⟩ := drop_cons_of_lt hlt
          -- behind a bracket there are fewer bytes, and so fuel and levels enough
          have hnested : ∀ j, i + 1 ≤ j → j ≤ s.length → Runs s j (levels + 1)
              (skipValueFrom fuel (depth + 1) maxDepth) (Follows (skipValueAt levels).scan s j) :=
            fun j hle hj => ih hj (by omega) (hdeeper _ (by omega))
          obtain ⟨hobject, harray⟩ := skipContainers_runs hlt hnested
          refine runs_current hvalue ?_
          have hliteral : ∀ w : Literal, Runs s i (levels + 1) (scanLiteral w.bytes)
              (Follows (Reader.literal w ()).scan s i) := by
            intro w
            rw [literal_scan, orFail_unit]
            exact scanLiteral_runs hi w.bytes
          have hnumber : Runs s i (levels + 1) scanNumber
              (Follows (Reader.number ()).scan s i) := by
            show Runs _ _ _ _ (Follows (Protocol.scanNumber.orFail ()) s i)
            rw [orFail_unit]
            exact scanNumber_runs hi
          have hstring : Runs s i (levels + 1) scanString
              (Follows (Reader.string ()).scan s i) := by
            show Runs _ _ _ _ (Follows (Protocol.scanString.orFail ()) s i)
            rw [orFail_unit]
            exact scanString_runs hi
          rw [skipValueAt]
          refine runs_onByte hdrop (fun _ => ?_) (runs_onByte hdrop (fun hbrace => ?_)
            (runs_onByte hdrop (fun hbracket => ?_) (runs_onByte hdrop (fun _ => hliteral .true)
              (runs_onByte hdrop (fun _ => hliteral .false)
                (runs_onByte hdrop (fun _ => hliteral .null) hnumber)))))
          · exact runs_then hstring fun _ j _ hj _ => runs_pure hj rfl
          · rw [hbrace]
            exact runs_advance hobject
          · rw [hbracket]
            exact runs_advance harray

/-! ## §6  `exceeds_nesting` -/

theorem lt_of_drop {j : Nat} {w : Bytes} (hi : i ≤ s.length) (hj : j ≤ s.length) (hw : w ≠ [])
    (h : s.drop i = w ++ s.drop j) : i < j := by
  have hlength := congrArg List.length h
  have hpos := List.length_pos_of_ne_nil hw
  rw [List.length_append, List.length_drop, List.length_drop] at hlength
  omega

theorem scanString_moves {j : Nat} {token : StringToken} (hi : i ≤ s.length) (hj : j ≤ s.length)
    (h : Protocol.scanString (s.drop i) = (.ok token, s.drop j)) : i < j := by
  obtain ⟨t, hsplit, -⟩ := scanString_sound h
  refine lt_of_drop (w := 0x22 :: (t.val ++ [0x22])) hi hj (List.cons_ne_nil _ _) ?_
  rw [hsplit]
  simp

/-- The loop of `exceeds_nesting` at `j` computes what it computes from the start; on an
input that a `size_t` can measure the depth is at most the bytes read. -/
def ScansOn (s : Bytes) (maxDepth depth : UInt64) (j : Nat) : Prop :=
  s.length < 2 ^ 64 → depth.toNat ≤ j ∧ ∃ fuel, s.length - j < fuel ∧
    Protocol.exceedsNesting s maxDepth.toNat =
      exceedsFrom maxDepth.toNat fuel depth.toNat (s.drop j)

/-- What a turn at `i` may leave: the depth further on, or the answer. -/
abbrev TurnScans (s : Bytes) (maxDepth : UInt64) (i : Nat) :
    Except ε (UInt64 ⊕ Bool) → Nat → Prop
  | .ok (.inl depth), j => i < j ∧ ScansOn s maxDepth depth j
  | .ok (.inr b), _ => s.length < 2 ^ 64 → b = Protocol.exceedsNesting s maxDepth.toNat
  | .error _, _ => False

/-- One step of the loop, with what is left of its fuel. -/
theorem ScansOn.step {maxDepth depth : UInt64} (h : ScansOn s maxDepth depth i)
    (hsize : s.length < 2 ^ 64) : depth.toNat ≤ i ∧ ∃ fuel, s.length - i < fuel + 1 ∧
      Protocol.exceedsNesting s maxDepth.toNat =
        exceedsFrom maxDepth.toNat (fuel + 1) depth.toNat (s.drop i) := by
  obtain ⟨hdepth, fuel, hfuel, hsame⟩ := h hsize
  obtain ⟨fuel, rfl⟩ : ∃ fuel', fuel = fuel' + 1 := ⟨fuel - 1, by omega⟩
  exact ⟨hdepth, fuel, hfuel, hsame⟩

theorem toNat_add_one {depth : UInt64} (hsize : s.length < 2 ^ 64) (hi : i < s.length)
    (hle : depth.toNat ≤ i) : (depth + 1).toNat = depth.toNat + 1 := by
  have hone : (1 : UInt64).toNat = 1 := rfl
  rw [UInt64.toNat_add, hone, Nat.mod_eq_of_lt]
  omega

/-- A string is passed whole, and a text that breaks off in one does not exceed. -/
theorem exceedsString_runs {maxDepth depth : UInt64} (hi : i ≤ s.length)
    (hstep : s.length < 2 ^ 64 → depth.toNat ≤ i ∧ ∃ fuel, s.length - i < fuel + 1 ∧
      Protocol.exceedsNesting s maxDepth.toNat =
        match Protocol.scanString (s.drop i) with
        | (.ok _, rest) => exceedsFrom maxDepth.toNat fuel depth.toNat rest
        | (.error _, _) => false) :
    Runs s i n (attempt scanString >>= fun
      | some _ => pure (.inl depth)
      | none => pure (.inr false) : Cursor UInt8 ε (UInt64 ⊕ Bool))
      (TurnScans s maxDepth i) := by
  refine (scanString_runs hi).attempt.bind (fun found j hle hj hpost => ?_)
    fun e j _ _ hpost => ?_
  · rcases hpost with ⟨token, hfound, hscan⟩ | ⟨e, hfound, hscan⟩
    · cases hfound
      have hscan' : Protocol.scanString (s.drop i) = (.ok token, s.drop j) := hscan
      have hmoved := scanString_moves hi hj hscan'
      refine runs_pure hj ⟨hmoved, fun hsize => ?_⟩
      obtain ⟨hdepth, fuel, hfuel, hsame⟩ := hstep hsize
      rw [hscan'] at hsame
      exact ⟨hdepth.trans hmoved.le, fuel, by omega, hsame⟩
    · cases hfound
      refine runs_pure hj fun hsize => ?_
      obtain ⟨-, fuel, hfuel, hsame⟩ := hstep hsize
      have hscan' : (Protocol.scanString (s.drop i)).1 = .error e := hscan
      rcases hq : Protocol.scanString (s.drop i) with ⟨r, rest⟩
      rw [hq] at hscan' hsame
      cases hscan'
      exact hsame.symm
  · rcases hpost with ⟨_, h, _⟩ | ⟨_, h, _⟩
    · cases h
    · cases h

/-- The offset moves on by one, with another depth. -/
theorem exceedsNext_runs {maxDepth depth : UInt64} (hlt : i < s.length)
    (h : s.length < 2 ^ 64 → depth.toNat ≤ i + 1 ∧ ∃ fuel, s.length - i < fuel + 1 ∧
      Protocol.exceedsNesting s maxDepth.toNat =
        exceedsFrom maxDepth.toNat fuel depth.toNat (s.drop (i + 1))) :
    Runs s i n (advance 1 >>= fun _ => pure (.inl depth) : Cursor UInt8 ε (UInt64 ⊕ Bool))
      (TurnScans s maxDepth i) := by
  refine runs_advance (runs_pure hlt ⟨Nat.lt_succ_self i, fun hsize => ?_⟩)
  obtain ⟨hle, fuel, hfuel, hsame⟩ := h hsize
  exact ⟨hle, fuel, by omega, hsame⟩

theorem exceedsTurn_runs {maxDepth depth : UInt64} (hi : i ≤ s.length)
    (h : ScansOn s maxDepth depth i) :
    Runs s i n (exceedsTurn maxDepth depth : Cursor UInt8 ε (UInt64 ⊕ Bool))
      (TurnScans s maxDepth i) := by
  refine runs_inside (fun hlt => ?_) fun hnot => ?_
  swap
  · refine runs_pure hi fun hsize => ?_
    obtain ⟨-, fuel, hfuel, hsame⟩ := h.step hsize
    rw [hsame, drop_eq_nil_of_not_lt hnot]
    rfl
  obtain ⟨value, hvalue, hdrop⟩ := drop_cons_of_lt hlt
  have hstep := fun hsize => h.step hsize
  rw [hdrop] at hstep
  simp only [exceedsFrom] at hstep
  refine runs_current hvalue ?_
  by_cases hquote : value = 0x22
  · rw [if_pos (beq_iff_eq.mpr hquote)]
    simp only [if_pos hquote] at hstep
    rw [← hdrop] at hstep
    exact exceedsString_runs hi hstep
  rw [if_neg (mt beq_iff_eq.mp hquote)]
  simp only [if_neg hquote] at hstep
  by_cases hopen : value = 0x7B ∨ value = 0x5B
  · -- the depth is at most the bytes read, so that one more does not wrap
    rw [if_pos (by simpa using hopen)]
    simp only [if_pos hopen] at hstep
    by_cases hdeep : depth + 1 > maxDepth
    · rw [if_pos hdeep]
      refine runs_pure hi fun hsize => ?_
      obtain ⟨hle, fuel, hfuel, hsame⟩ := hstep hsize
      have hgt : depth.toNat + 1 > maxDepth.toNat := by
        rw [← toNat_add_one hsize hlt hle]
        exact hdeep
      rw [if_pos hgt] at hsame
      exact hsame.symm
    · rw [if_neg hdeep]
      refine exceedsNext_runs hlt fun hsize => ?_
      obtain ⟨hle, fuel, hfuel, hsame⟩ := hstep hsize
      have hadd := toNat_add_one hsize hlt hle
      have hgt : ¬ depth.toNat + 1 > maxDepth.toNat := by
        rw [← hadd]
        exact hdeep
      rw [if_neg hgt] at hsame
      rw [hadd]
      exact ⟨by omega, fuel, hfuel, hsame⟩
  rw [if_neg (by simpa using hopen)]
  simp only [if_neg hopen] at hstep
  by_cases hclose : (value = 0x7D ∨ value = 0x5D) ∧ depth.toNat > 0
  · have hpos : depth > 0 := hclose.2
    rw [if_pos (by simpa [hpos] using hclose.1)]
    simp only [if_pos hclose] at hstep
    refine exceedsNext_runs hlt fun hsize => ?_
    obtain ⟨hle, fuel, hfuel, hsame⟩ := hstep hsize
    have hone : (1 : UInt64).toNat = 1 := rfl
    have hsub : (depth - 1).toNat = depth.toNat - 1 :=
      UInt64.toNat_sub_of_le _ _ (UInt64.le_iff_toNat_le.mpr hclose.2)
    rw [hsub]
    exact ⟨by omega, fuel, hfuel, hsame⟩
  · have hnot : ¬ ((value == 0x7D || value == 0x5D) && decide (depth > 0)) = true := by
      intro htrue
      rw [Bool.and_eq_true, Bool.or_eq_true, beq_iff_eq, beq_iff_eq, decide_eq_true_eq] at htrue
      exact hclose ⟨htrue.1, htrue.2⟩
    rw [if_neg hnot]
    simp only [if_neg hclose] at hstep
    refine exceedsNext_runs hlt fun hsize => ?_
    obtain ⟨hle, fuel, hfuel, hsame⟩ := hstep hsize
    exact ⟨by omega, fuel, hfuel, hsame⟩

/-- `exceeds_nesting` runs as the pre-scan over the bytes left. -/
theorem exceedsNesting_runs (maxDepth : UInt64) :
    Runs s 0 n (exceedsNesting maxDepth : Cursor UInt8 ε Bool) fun r _ =>
      ∃ b, r = .ok b ∧ (s.length < 2 ^ 64 → b = Protocol.exceedsNesting s maxDepth.toNat) := by
  refine runs_loop (ScansOn s maxDepth) (Nat.zero_le _) (fun _ => ?_) fun depth j _ hj hinv => ?_
  · exact ⟨Nat.le_refl 0, s.length + 1, by omega, rfl⟩
  · refine (exceedsTurn_runs hj hinv).post fun r k _ _ hpost => ?_
    rcases r with e | depth' | b
    · exact hpost.elim
    · exact hpost
    · exact ⟨b, rfl, hpost⟩

end NativeGuard.Protocol.Offsets

import NativeGuard.Data.Cursor
import NativeGuard.Protocol.Nesting

/-!
# The shared scanners over their offset (`src/json_scanner.hpp`)

The scanners of `Scanner` take the bytes left. Here each is the program of the header,
with the whole input and the offset into it, and each runs as the scanner over the bytes
left does: without a fault, and between the offset where it starts and the size.
-/

namespace NativeGuard.Protocol.Offsets

open Json Json.Scan Data Data.Cursor

variable {ε ε' α β σ τ : Type}

/-! ## §1  The scanners -/

/-- `offset < input.size() && test(input[offset])`. -/
def startsWith (test : UInt8 → Bool) : Cursor UInt8 ε Bool := do
  if ← inside then
    let value ← current
    pure (test value)
  else pure false

/-- `while (offset < input.size() && test(input[offset])) ++offset;`. -/
def skipWhile (test : UInt8 → Bool) : Cursor UInt8 ε Unit :=
  loop (fun _ => do
    if ← startsWith test then
      advance 1
      pure (.inl ())
    else pure (.inr ())) ()

/-- `if (offset < input.size() && test(input[offset])) ++offset;`. -/
def skipOne (test : UInt8 → Bool) : Cursor UInt8 ε Unit := do
  if ← startsWith test then advance 1 else pure ()

def skipWhitespace : Cursor UInt8 ε Unit := skipWhile isWhitespace

/-- The loop over the four digits of an escape, up to one that is not hexadecimal. -/
def hexDigitsAt (base : Nat) : List Nat → Cursor UInt8 ε Bool
  | [] => pure true
  | index :: indices => do
      let value ← entry (base + index)
      if isHexDigit value then hexDigitsAt base indices else pure false

/-- One turn of the loop of `scan_string`; `start` is the offset behind the quote. -/
def scanStringTurn (start : Nat) (hasEscape : Bool) :
    Cursor UInt8 Unit (Bool ⊕ StringToken) := do
  if ← inside then
    let value ← take
    if value == 0x22 then
      let last ← offset
      let contents ← slice start (last - 1)
      pure (.inr ⟨contents, hasEscape⟩)
    else if value < 0x20 then fail ()
    else if value != 0x5C then pure (.inl hasEscape)
    else if ← atEnd then fail ()
    else
      let escape ← take
      if escape == 0x75 then
        if (← left) < 4 then fail ()
        else
          let base ← offset
          if ← hexDigitsAt base [0, 1, 2, 3] then
            advance 4
            pure (.inl true)
          else fail ()
      else if isSimpleEscape escape then pure (.inl true)
      else fail ()
  else fail ()

def scanString : Cursor UInt8 Unit StringToken := do
  if ← outside then fail ()
  else if (← current) != 0x22 then fail ()
  else
    advance 1
    let start ← offset
    loop (scanStringTurn start) false

/-- A run of digits that must not be empty. -/
def scanDigits : Cursor UInt8 Unit Unit := do
  let first ← offset
  skipWhile isDigit
  let last ← offset
  if last == first then fail () else pure ()

def scanInteger : Cursor UInt8 Unit Unit := do
  if ← atEnd then fail ()
  else
    let value ← current
    if value == 0x30 then advance 1
    else if 0x31 ≤ value && value ≤ 0x39 then
      advance 1
      skipWhile isDigit
    else fail ()

def scanFraction : Cursor UInt8 Unit Unit := do
  if ← startsWith (· == 0x2E) then
    advance 1
    scanDigits
  else pure ()

def scanExponent : Cursor UInt8 Unit Unit := do
  if ← startsWith (fun value => value == 0x65 || value == 0x45) then
    advance 1
    skipOne fun value => value == 0x2B || value == 0x2D
    scanDigits
  else pure ()

def scanNumber : Cursor UInt8 Unit Unit := do
  let start ← offset
  skipOne (· == 0x2D)
  scanInteger
  scanFraction
  scanExponent
  let last ← offset
  if last != start then pure () else fail ()

def scanLiteral (literal : Bytes) : Cursor UInt8 Unit Unit := do
  if (← left) < literal.length then fail ()
  else
    let here ← offset
    let text ← slice here (here + literal.length)
    if text != literal then fail () else advance literal.length

/-! ## §2  Agreement with the scanners over the bytes left -/

variable {s : Bytes} {i n : Nat}

/-- The program ends as `res` does: with a failure that `blame` maps to its error, or with
a value and an offset that `K` relates to it. -/
def Gives (blame : ε' → ε) (K : α → Nat → Except ε β × Bytes → Prop)
    (res : Except ε β × Bytes) : Except ε' α → Nat → Prop
  | .ok a, j => K a j res
  | .error e, _ => res.1 = .error (blame e)

/-- The program returns what `q` does, up to `blame` and `value`, and leaves the same bytes
on success. -/
def FollowsAs (blame : ε' → ε) (value : τ → α) (q : Scan ε α) (s : Bytes) (i : Nat) :
    Except ε' τ → Nat → Prop :=
  Gives blame (fun a j res => res = (.ok (value a), s.drop j)) (q (s.drop i))

/-- The program and `q` return the same, and leave the same bytes on success. -/
abbrev Follows (q : Scan ε α) (s : Bytes) (i : Nat) : Except ε α → Nat → Prop :=
  FollowsAs id id q s i

variable {blame : ε' → ε}

/-- The scan is moved along with the program by a step that both take. -/
theorem runs_start {K : α → Nat → Except ε β × Bytes → Prop} {p : Cursor UInt8 ε' α}
    {res res' : Except ε β × Bytes} (h : res = res') (hp : Runs s i n p (Gives blame K res')) :
    Runs s i n p (Gives blame K res) :=
  h ▸ hp

theorem bind_apply_error {q : Scan ε α} {g : α → Scan ε β} {e : ε} {rest : Bytes}
    (h : (q rest).1 = .error e) : ((q >>= g) rest).1 = .error e := by
  rw [bind_apply]
  rcases hq : q rest with ⟨r, rest'⟩
  rw [hq] at h
  cases h
  rfl

theorem bind_apply_ok {q : Scan ε α} {g : α → Scan ε β} {a : α} {rest rest' : Bytes}
    (h : q rest = (.ok a, rest')) : (q >>= g) rest = g a rest' := by
  rw [bind_apply, h]

/-- A program and a scan that start alike go on. -/
theorem runs_then {α' : Type} {p : Cursor UInt8 ε' α'} {f : α' → Cursor UInt8 ε' τ}
    {value : α' → α} {q : Scan ε α} {g : α → Scan ε β}
    {K : τ → Nat → Except ε β × Bytes → Prop}
    (hp : Runs s i n p (FollowsAs blame value q s i))
    (hf : ∀ a j, i ≤ j → j ≤ s.length → q (s.drop i) = (.ok (value a), s.drop j) →
      Runs s j n (f a) (Gives blame K (g (value a) (s.drop j)))) :
    Runs s i n (p >>= f) (Gives blame K ((q >>= g) (s.drop i))) := by
  refine hp.bind (fun a j hle hj ha => ?_) fun e j _ _ he => ?_
  · exact runs_start (bind_apply_ok ha) (hf a j hle hj ha)
  · exact bind_apply_error he

theorem runs_orFail {p : Cursor UInt8 Unit α} {q : Scan Unit α} {e : ε'}
    (h : Runs s i n p (Follows q s i)) :
    Runs s i n (p.orFail e) (FollowsAs blame id (q.orFail (blame e)) s i) := by
  refine h.mapError (fun a j _ _ ha => ?_) fun e' j _ _ he => ?_
  · exact orFail_eq_ok.mpr ha
  · have he' : (q (s.drop i)).1 = .error e' := he
    show (q.orFail (blame e) (s.drop i)).1 = .error (blame e)
    unfold Scan.orFail
    rcases hq : q (s.drop i) with ⟨r, rest⟩
    rw [hq] at he'
    cases he'
    rfl

theorem startsWith_eq (test : UInt8 → Bool) :
    (startsWith test : Cursor UInt8 ε Bool) s i =
      .ok ⟨.ok ((s.drop i).head?.any test), i, 0⟩ := by
  let read : Cursor UInt8 ε Bool := current >>= fun value => pure (test value)
  let dispatch : Bool → Cursor UInt8 ε Bool := fun here => if here then read else pure false
  by_cases hlt : i < s.length
  · obtain ⟨value, hvalue, hdrop⟩ := drop_cons_of_lt hlt
    have hinside : (inside : Cursor UInt8 ε Bool) s i = .ok ⟨.ok true, i, 0⟩ := by
      unfold inside
      rw [decide_eq_true hlt]
    have hread : read s i = .ok ⟨.ok (test value), i, 0⟩ :=
      bind_ok (f := fun value => pure (test value)) (current_eq hvalue) rfl
    rw [hdrop]
    exact bind_ok (f := dispatch) hinside hread
  · have hinside : (inside : Cursor UInt8 ε Bool) s i = .ok ⟨.ok false, i, 0⟩ := by
      unfold inside
      rw [decide_eq_false hlt]
    rw [drop_eq_nil_of_not_lt hlt]
    exact bind_ok (f := dispatch) hinside rfl

theorem runs_startsWith {test : UInt8 → Bool} {f : Bool → Cursor UInt8 ε α}
    {Q : Except ε α → Nat → Prop} (h : Runs s i n (f ((s.drop i).head?.any test)) Q) :
    Runs s i n (startsWith test >>= f) Q :=
  Runs.step (startsWith_eq test) (Nat.le_refl i) h

/-! ## §3  Whitespace and digits -/

theorem skipWhile_runs (hi : i ≤ s.length) (test : UInt8 → Bool) :
    Runs s i n (skipWhile test : Cursor UInt8 ε Unit) fun r j =>
      r = .ok () ∧ s.drop j = (s.drop i).dropWhile test := by
  refine runs_loop (fun _ j => (s.drop i).dropWhile test = (s.drop j).dropWhile test) hi rfl
    fun _ j hle hj hinv => ?_
  refine runs_startsWith ?_
  by_cases hlt : j < s.length
  · obtain ⟨value, hvalue, hdrop⟩ := drop_cons_of_lt hlt
    rw [hdrop] at hinv ⊢
    rw [List.head?_cons, Option.any_some]
    by_cases htest : test value = true
    · rw [if_pos htest]
      rw [List.dropWhile_cons_of_pos htest] at hinv
      exact runs_advance (runs_pure hlt ⟨Nat.lt_succ_self j, hinv⟩)
    · rw [if_neg htest]
      rw [List.dropWhile_cons_of_neg htest] at hinv
      exact runs_pure hj ⟨rfl, hdrop.trans hinv.symm⟩
  · have hnil := drop_eq_nil_of_not_lt hlt
    rw [hnil] at hinv ⊢
    exact runs_pure hj ⟨rfl, hnil.trans hinv.symm⟩

theorem skipWhitespace_runs (hi : i ≤ s.length) :
    Runs s i n (skipWhitespace : Cursor UInt8 ε' Unit)
      (FollowsAs blame id Protocol.skipWhitespace s i) :=
  (skipWhile_runs hi isWhitespace).post fun r j _ _ h => by
    obtain ⟨rfl, hdrop⟩ := h
    exact congrArg (Prod.mk _) hdrop.symm

theorem skipOne_runs (hi : i ≤ s.length) (test : UInt8 → Bool) :
    Runs s i n (skipOne test : Cursor UInt8 ε Unit) fun r j => r = .ok () ∧
      s.drop j = if (s.drop i).head?.any test then (s.drop i).tail else s.drop i := by
  refine runs_startsWith ?_
  by_cases htest : (s.drop i).head?.any test = true
  · have hlt : i < s.length := by
      by_contra hnot
      rw [drop_eq_nil_of_not_lt hnot] at htest
      cases htest
    rw [if_pos htest]
    refine ⟨⟨.ok (), i + 1, 0⟩, rfl, Nat.le_succ i, hlt, Nat.zero_le n, rfl, ?_⟩
    rw [if_pos htest, List.tail_drop]
  · rw [if_neg htest]
    exact runs_pure hi ⟨rfl, (if_neg htest).symm⟩

theorem length_drop_eq_iff {j : Nat} (hi : i ≤ s.length) (hj : j ≤ s.length) :
    (s.drop j).length = (s.drop i).length ↔ j = i := by
  rw [List.length_drop, List.length_drop]
  omega

theorem scanDigits_runs (hi : i ≤ s.length) :
    Runs s i n scanDigits (Follows Protocol.scanDigits s i) := by
  refine runs_offset ((skipWhile_runs hi isDigit).bind (fun _ j _ hj h => ?_) fun e j _ _ h => ?_)
  · have hscan : Protocol.scanDigits (s.drop i) =
        if (s.drop j).length == (s.drop i).length then (.error (), s.drop j)
        else (.ok (), s.drop j) := by
      rw [h.2]
      rfl
    refine runs_offset ?_
    by_cases hsame : j = i
    · rw [if_pos (beq_iff_eq.mpr hsame)]
      rw [if_pos (beq_iff_eq.mpr ((length_drop_eq_iff hi hj).mpr hsame))] at hscan
      exact runs_fail hj (congrArg Prod.fst hscan)
    · rw [if_neg (mt beq_iff_eq.mp hsame)]
      rw [if_neg (mt beq_iff_eq.mp (mt (length_drop_eq_iff hi hj).mp hsame))] at hscan
      exact runs_pure hj hscan
  · cases h.1

/-! ## §4  Numbers and literals -/

theorem scanInteger_runs (hi : i ≤ s.length) :
    Runs s i n scanInteger fun r j =>
      Follows Protocol.scanInteger s i r j ∧ (r = .ok () → i < j) := by
  refine runs_atEnd hi (fun hnot => ?_) fun hlt => ?_
  · refine runs_fail hi ⟨?_, nofun⟩
    show (Protocol.scanInteger (s.drop i)).1 = .error ()
    rw [drop_eq_nil_of_not_lt hnot]
    rfl
  · obtain ⟨value, hvalue, hdrop⟩ := drop_cons_of_lt hlt
    have hscan : Protocol.scanInteger (s.drop i) =
        if value == 0x30 then (.ok (), s.drop (i + 1))
        else if 0x31 ≤ value && value ≤ 0x39 then (.ok (), (s.drop (i + 1)).dropWhile isDigit)
        else (.error (), s.drop i) := by
      conv_lhs => rw [hdrop]
      rw [Protocol.scanInteger, hdrop]
    refine runs_current hvalue ?_
    by_cases hzero : (value == 0x30) = true
    · rw [if_pos hzero] at hscan ⊢
      exact ⟨_, rfl, Nat.le_succ i, hlt, Nat.zero_le n, hscan, fun _ => Nat.lt_succ_self i⟩
    rw [if_neg hzero] at hscan ⊢
    by_cases hdigit : (decide (0x31 ≤ value) && decide (value ≤ 0x39)) = true
    · rw [if_pos hdigit] at hscan ⊢
      refine runs_advance ((skipWhile_runs hlt isDigit).post fun r j hle _ h => ?_)
      obtain ⟨rfl, hrest⟩ := h
      rw [← hrest] at hscan
      exact ⟨hscan, fun _ => hle⟩
    · rw [if_neg hdigit] at hscan ⊢
      exact runs_fail hi ⟨congrArg Prod.fst hscan, nofun⟩

theorem scanFraction_runs (hi : i ≤ s.length) :
    Runs s i n scanFraction (Follows Protocol.scanFraction s i) := by
  refine runs_startsWith ?_
  cases hdrop : s.drop i with
  | nil =>
      refine runs_pure hi ?_
      show Protocol.scanFraction (s.drop i) = (.ok (), s.drop i)
      rw [hdrop]
      rfl
  | cons value rest =>
      have hrest : rest = s.drop (i + 1) := by rw [← List.tail_drop, hdrop, List.tail_cons]
      have hlt : i < s.length := by
        by_contra hnot
        rw [drop_eq_nil_of_not_lt hnot] at hdrop
        cases hdrop
      have hscan : Protocol.scanFraction (s.drop i) =
          if value == 0x2E then Protocol.scanDigits (s.drop (i + 1))
          else (.ok (), s.drop i) := by
        rw [hdrop, ← hrest]
        rfl
      rw [List.head?_cons, Option.any_some]
      by_cases hdot : (value == 0x2E) = true
      · rw [if_pos hdot] at hscan ⊢
        exact runs_advance (runs_start hscan (scanDigits_runs hlt))
      · rw [if_neg hdot] at hscan ⊢
        exact runs_pure hi hscan

theorem scanExponent_runs (hi : i ≤ s.length) :
    Runs s i n scanExponent (Follows Protocol.scanExponent s i) := by
  refine runs_startsWith ?_
  cases hdrop : s.drop i with
  | nil =>
      refine runs_pure hi ?_
      show Protocol.scanExponent (s.drop i) = (.ok (), s.drop i)
      rw [hdrop]
      rfl
  | cons value rest =>
      have hrest : rest = s.drop (i + 1) := by rw [← List.tail_drop, hdrop, List.tail_cons]
      have hlt : i < s.length := by
        by_contra hnot
        rw [drop_eq_nil_of_not_lt hnot] at hdrop
        cases hdrop
      have hscan : Protocol.scanExponent (s.drop i) =
          if value == 0x65 || value == 0x45 then
            Protocol.scanDigits (if (s.drop (i + 1)).head?.any fun value =>
              value == 0x2B || value == 0x2D then (s.drop (i + 1)).tail else s.drop (i + 1))
          else (.ok (), s.drop i) := by
        rw [hdrop, ← hrest]
        unfold Protocol.scanExponent
        cases rest with
        | nil => rfl
        | cons sign tail =>
            dsimp only [List.head?_cons, List.tail_cons, Option.any_some]
            split
            · split
              · next hsign => exact congrArg Protocol.scanDigits (if_pos hsign).symm
              · next hsign => exact congrArg Protocol.scanDigits (if_neg hsign).symm
            · rfl
      rw [List.head?_cons, Option.any_some]
      by_cases hmark : (value == 0x65 || value == 0x45) = true
      · rw [if_pos hmark] at hscan ⊢
        refine runs_advance ((skipOne_runs hlt _).bind (fun _ j _ hj h => ?_)
          fun e j _ _ h => ?_)
        · rw [← h.2] at hscan
          exact runs_start hscan (scanDigits_runs hj)
        · cases h.1
      · rw [if_neg hmark] at hscan ⊢
        exact runs_pure hi hscan

theorem scanNumber_runs (hi : i ≤ s.length) :
    Runs s i n scanNumber (Follows Protocol.scanNumber s i) := by
  refine runs_offset ((skipOne_runs hi _).bind (fun _ j hle hj h => ?_) fun e j _ _ h => ?_)
  · -- the sign is behind both
    have hscan : Protocol.scanNumber (s.drop i) = (Protocol.scanInteger >>= fun _ =>
        Protocol.scanFraction >>= fun _ => Protocol.scanExponent) (s.drop j) := by
      rw [h.2]
      unfold Protocol.scanNumber
      rw [peek_bind]
      cases hdrop : s.drop i with
      | nil => rfl
      | cons value rest =>
          rw [List.head?_cons, Option.any_some]
          by_cases hminus : value = 0x2D
          · rw [if_pos (congrArg some hminus), if_pos (beq_iff_eq.mpr hminus)]
            rfl
          · rw [if_neg fun heq => hminus (Option.some.inj heq),
              if_neg (mt beq_iff_eq.mp hminus)]
    have hinteger := @scanInteger_runs s j n hj
    refine runs_start hscan (hinteger.bind (fun _ k hjk hk hpost => ?_) fun e k _ _ hpost => ?_)
    · obtain ⟨hint, hmoved⟩ := hpost
      refine runs_start (bind_apply_ok hint)
        (runs_then (scanFraction_runs hk) fun _ l hkl hl _ => ?_)
      refine (scanExponent_runs hl).bind (fun _ m hlm hm hexp => ?_) fun e m _ _ he => he
      have hne : ¬ m = i := by
        have := hmoved rfl
        omega
      refine runs_offset ?_
      rw [if_pos (bne_iff_ne.mpr hne)]
      exact runs_pure hm hexp
    · exact bind_apply_error hpost.1
  · cases h.1

theorem scanLiteral_runs (hi : i ≤ s.length) (literal : Bytes) :
    Runs s i n (scanLiteral literal) (Follows (Protocol.scanLiteral literal) s i) := by
  have hstarts : literal.isPrefixOf (s.drop i) = true ↔
      literal.length ≤ s.length - i ∧ (s.drop i).take literal.length = literal := by
    rw [List.isPrefixOf_iff_prefix, List.prefix_iff_eq_take, ← List.length_drop]
    constructor
    · intro h
      refine ⟨?_, h.symm⟩
      have hlength := congrArg List.length h
      rw [List.length_take] at hlength
      omega
    · rintro ⟨-, h⟩
      exact h.symm
  have hscan : Protocol.scanLiteral literal (s.drop i) =
      if literal.isPrefixOf (s.drop i) then (.ok (), s.drop (i + literal.length))
      else (.error (), s.drop i) := by
    unfold Protocol.scanLiteral
    rw [List.drop_drop]
  refine runs_left hi ?_
  by_cases hshort : s.length - i < literal.length
  · rw [if_pos hshort]
    rw [if_neg fun h => absurd (hstarts.mp h).1 (Nat.not_le.mpr hshort)] at hscan
    exact runs_fail hi (congrArg Prod.fst hscan)
  · rw [if_neg hshort]
    have hlast : i + literal.length ≤ s.length := by omega
    refine runs_offset (runs_slice (Nat.le_add_right _ _) hlast ?_)
    rw [Nat.add_sub_cancel_left]
    by_cases htext : (s.drop i).take literal.length = literal
    · rw [if_neg (by rw [htext]; simp)]
      rw [if_pos (hstarts.mpr ⟨Nat.not_lt.mp hshort, htext⟩)] at hscan
      exact ⟨_, rfl, Nat.le_add_right _ _, hlast, Nat.zero_le n, hscan⟩
    · rw [if_pos (bne_iff_ne.mpr htext)]
      rw [if_neg fun h => htext (hstarts.mp h).2] at hscan
      exact runs_fail hi (congrArg Prod.fst hscan)

/-! ## §5  Strings -/

theorem hexDigitsAt_runs (hi : i ≤ s.length) (base : Nat) (indices : List Nat)
    (h : ∀ index ∈ indices, base + index < s.length) :
    Runs s i n (hexDigitsAt base indices : Cursor UInt8 ε Bool) fun r j => j = i ∧
      r = .ok (indices.all fun index => s[base + index]?.any isHexDigit) := by
  induction indices with
  | nil => exact runs_pure hi ⟨rfl, rfl⟩
  | cons index indices ih =>
      obtain ⟨hindex, hrest⟩ := List.forall_mem_cons.mp h
      obtain ⟨value, hvalue, -⟩ := drop_cons_of_lt hindex
      refine runs_entry hvalue ?_
      rw [List.all_cons, hvalue, Option.any_some]
      by_cases hhex : isHexDigit value = true
      · rw [if_pos hhex, hhex, Bool.true_and]
        exact ih hrest
      · rw [if_neg hhex, eq_false_of_ne_true hhex, Bool.false_and]
        exact runs_pure hi ⟨rfl, rfl⟩

theorem prepend_prepend (passed passed' : Bytes) (escaped escaped' : Bool)
    (r : Except Unit StringToken × Bytes) :
    StringToken.prepend passed escaped (StringToken.prepend passed' escaped' r) =
      StringToken.prepend (passed ++ passed') (escaped || escaped') r := by
  rcases r with ⟨_ | token, rest⟩
  · rfl
  · simp only [StringToken.prepend, List.append_assoc, Bool.or_assoc]

/-- The bytes from `start` to before `j`. -/
def passed (s : Bytes) (start j : Nat) : Bytes := (s.drop start).take (j - start)

theorem passed_append {start j k : Nat} {w : Bytes} (hstart : start ≤ j)
    (hk : k = j + w.length) (hdrop : s.drop j = w ++ s.drop k) :
    passed s start k = passed s start j ++ w := by
  have hsub : k - start = (j - start) + w.length := by omega
  have hback : (s.drop start).drop (j - start) = s.drop j := by
    rw [List.drop_drop, Nat.add_sub_cancel' hstart]
  unfold passed
  rw [hsub, List.take_add, hback, hdrop, List.take_left]

/-- The loop of `scan_string` has passed the bytes in front of the offset. -/
def Passes (s : Bytes) (start : Nat) (hasEscape : Bool) (j : Nat) : Prop :=
  start ≤ j ∧ scanStringLoop (s.drop start) =
    StringToken.prepend (passed s start j) hasEscape (scanStringLoop (s.drop j))

/-- A turn passes the bytes `w`. -/
theorem Passes.go {start j k : Nat} {hasEscape escaped : Bool} {w : Bytes}
    (h : Passes s start hasEscape j) (hk : k = j + w.length) (hdrop : s.drop j = w ++ s.drop k)
    (hloop : scanStringLoop (s.drop j) =
      StringToken.prepend w escaped (scanStringLoop (s.drop k))) :
    Passes s start (hasEscape || escaped) k := by
  refine ⟨by have := h.1; omega, ?_⟩
  rw [h.2, hloop, prepend_prepend, passed_append h.1 hk hdrop]

theorem Passes.stop {start j : Nat} {hasEscape : Bool} {rest : Bytes}
    (h : Passes s start hasEscape j) (hloop : scanStringLoop (s.drop j) = (.error (), rest)) :
    (scanStringLoop (s.drop start)).1 = .error () := by
  rw [h.2, hloop]
  rfl

/-- What a turn at `j` may leave: an offset further on, the token, or the failure. -/
abbrev TurnPasses (s : Bytes) (start j : Nat) : Except Unit (Bool ⊕ StringToken) → Nat → Prop
  | .ok (.inl hasEscape), k => j < k ∧ Passes s start hasEscape k
  | .ok (.inr token), k => scanStringLoop (s.drop start) = (.ok token, s.drop k)
  | .error e, _ => (scanStringLoop (s.drop start)).1 = .error e

theorem scanStringLoop_unicode (a b c d : UInt8) (tail : Bytes) :
    scanStringLoop ([0x5C, 0x75] ++ a :: b :: c :: d :: tail) =
      if isHexDigit a && isHexDigit b && isHexDigit c && isHexDigit d then
        StringToken.prepend [0x5C, 0x75, a, b, c, d] true (scanStringLoop tail)
      else (.error (), a :: b :: c :: d :: tail) := by
  rw [scanStringLoop.eq_def]
  rfl

theorem scanStringLoop_unicode_short {rest : Bytes} (h : rest.length < 4) :
    scanStringLoop ([0x5C, 0x75] ++ rest) = (.error (), rest) := by
  rcases rest with _ | ⟨a, _ | ⟨b, _ | ⟨c, _ | ⟨d, tail⟩⟩⟩⟩
  · rfl
  · rfl
  · rfl
  · rfl
  · simp only [List.length_cons] at h
    omega

/-- The four digits behind `\u`. -/
theorem unicodeEscape_runs {start j : Nat} {hasEscape : Bool} (hj : j + 2 ≤ s.length)
    (h : Passes s start hasEscape j) (hdrop : s.drop j = [0x5C, 0x75] ++ s.drop (j + 2)) :
    Runs s (j + 2) n (do
      if (← left) < 4 then fail ()
      else
        let base ← offset
        if ← hexDigitsAt base [0, 1, 2, 3] then
          advance 4
          pure (.inl true)
        else fail () : Cursor UInt8 Unit (Bool ⊕ StringToken)) (TurnPasses s start j) := by
  refine runs_left hj ?_
  by_cases hshort : s.length - (j + 2) < 4
  · rw [if_pos hshort]
    have hlength : (s.drop (j + 2)).length < 4 := by
      rw [List.length_drop]
      exact hshort
    refine runs_fail hj (@Passes.stop s start j hasEscape (s.drop (j + 2)) h ?_)
    rw [hdrop, scanStringLoop_unicode_short hlength]
  rw [if_neg hshort]
  obtain ⟨a, ha, hdrop₀⟩ := @drop_cons_of_lt _ s (j + 2) (by omega)
  obtain ⟨b, hb, hdrop₁⟩ := @drop_cons_of_lt _ s (j + 2 + 1) (by omega)
  obtain ⟨c, hc, hdrop₂⟩ := @drop_cons_of_lt _ s (j + 2 + 2) (by omega)
  obtain ⟨d, hd, hdrop₃⟩ := @drop_cons_of_lt _ s (j + 2 + 3) (by omega)
  have hfour : s.drop (j + 2) = a :: b :: c :: d :: s.drop (j + 2 + 4) := by
    rw [hdrop₀, hdrop₁, hdrop₂, hdrop₃]
  have hloop := scanStringLoop_unicode a b c d (s.drop (j + 2 + 4))
  rw [← hfour, ← hdrop] at hloop
  refine runs_offset ((hexDigitsAt_runs hj _ _ ?_).bind (fun hex k _ _ hpost => ?_)
    fun e k _ _ hpost => by cases hpost.2)
  · intro index hindex
    have hbound : index ≤ 3 := by
      fin_cases hindex <;> omega
    omega
  · obtain ⟨rfl, hhex⟩ := hpost
    simp only [List.all_cons, List.all_nil, Nat.add_zero, ha, hb, hc, hd, Option.any_some,
      Bool.and_true, Except.ok.injEq] at hhex
    rw [← Bool.and_assoc, ← Bool.and_assoc] at hhex
    rw [← hhex] at hloop
    by_cases hall : hex = true
    · rw [if_pos hall] at hloop ⊢
      have hsix : s.drop j = [0x5C, 0x75, a, b, c, d] ++ s.drop (j + 2 + 4) := by
        rw [hdrop, hfour]
        rfl
      have hpasses := h.go rfl hsix hloop
      rw [Bool.or_true] at hpasses
      refine runs_advance (runs_pure (by omega) ⟨?_, hpasses⟩)
      omega
    · rw [if_neg hall] at hloop ⊢
      exact runs_fail hj (h.stop hloop)

theorem scanStringTurn_runs {start j : Nat} {hasEscape : Bool} (hj : j ≤ s.length)
    (h : Passes s start hasEscape j) :
    Runs s j n (scanStringTurn start hasEscape) (TurnPasses s start j) := by
  refine runs_inside (fun hlt => ?_) fun hnot => ?_
  swap
  · refine runs_fail hj (@Passes.stop s start j hasEscape [] h ?_)
    rw [drop_eq_nil_of_not_lt hnot]
    rfl
  obtain ⟨value, hvalue, hdrop⟩ := drop_cons_of_lt hlt
  have hloop := scanStringLoop.eq_def (s.drop j)
  rw [hdrop] at hloop
  dsimp only at hloop
  rw [← hdrop] at hloop
  refine runs_take hvalue ?_
  by_cases hquote : (value == 0x22) = true
  · rw [if_pos hquote] at hloop ⊢
    have hlast : j + 1 - 1 = j := Nat.add_sub_cancel j 1
    refine runs_offset (runs_slice (by rw [hlast]; exact h.1) (by rw [hlast]; exact hj) ?_)
    rw [hlast]
    refine runs_pure hlt ?_
    show scanStringLoop (s.drop start) = _
    rw [h.2, hloop]
    show (Except.ok (⟨passed s start j ++ [], hasEscape || false⟩ : StringToken), _) = _
    rw [List.append_nil, Bool.or_false]
    rfl
  rw [if_neg hquote] at hloop ⊢
  by_cases hlow : value < 0x20
  · rw [if_pos hlow] at hloop ⊢
    exact runs_fail hlt (h.stop hloop)
  rw [if_neg hlow] at hloop ⊢
  by_cases hplain : (value != 0x5C) = true
  · rw [if_pos hplain] at hloop ⊢
    have hpasses := h.go rfl hdrop hloop
    rw [Bool.or_false] at hpasses
    exact runs_pure hlt ⟨Nat.lt_succ_self j, hpasses⟩
  rw [if_neg hplain] at hloop ⊢
  refine runs_atEnd hlt (fun hnot => ?_) fun hlt' => ?_
  · rw [drop_eq_nil_of_not_lt hnot] at hloop
    exact runs_fail hlt (h.stop hloop)
  obtain ⟨escape, hescape, hdrop'⟩ := drop_cons_of_lt hlt'
  rw [hdrop'] at hloop
  dsimp only at hloop
  refine runs_take hescape ?_
  have htwo : s.drop j = [value, escape] ++ s.drop (j + 2) := by
    rw [hdrop, hdrop']
    rfl
  by_cases hunicode : (escape == 0x75) = true
  · rw [if_pos hunicode]
    obtain rfl : value = 0x5C := by simpa using hplain
    obtain rfl : escape = 0x75 := by simpa using hunicode
    exact unicodeEscape_runs hlt' h htwo
  rw [if_neg hunicode] at hloop ⊢
  by_cases hsimple : isSimpleEscape escape = true
  · rw [if_pos hsimple] at hloop ⊢
    have hpasses := h.go rfl htwo hloop
    rw [Bool.or_true] at hpasses
    exact runs_pure hlt' ⟨Nat.lt_trans (Nat.lt_succ_self j) (Nat.lt_succ_self _), hpasses⟩
  · rw [if_neg hsimple] at hloop ⊢
    exact runs_fail hlt' (h.stop hloop)

theorem scanString_runs (hi : i ≤ s.length) :
    Runs s i n scanString (Follows Protocol.scanString s i) := by
  refine runs_outside (fun hnot => ?_) fun hlt => ?_
  · refine runs_fail hi ?_
    show (Protocol.scanString (s.drop i)).1 = .error ()
    rw [drop_eq_nil_of_not_lt hnot]
    rfl
  obtain ⟨value, hvalue, hdrop⟩ := drop_cons_of_lt hlt
  have hscan : Protocol.scanString (s.drop i) =
      if value == 0x22 then scanStringLoop (s.drop (i + 1)) else (.error (), s.drop i) := by
    conv_lhs => rw [hdrop]
    rw [Protocol.scanString, hdrop]
  refine runs_current hvalue ?_
  by_cases hquote : (value == 0x22) = true
  · rw [if_pos hquote] at hscan
    rw [if_neg (by rw [bne, hquote]; exact Bool.false_ne_true)]
    refine runs_advance (runs_offset ?_)
    have hstart : Passes s (i + 1) false (i + 1) := by
      refine ⟨Nat.le_refl _, ?_⟩
      unfold passed
      rw [Nat.sub_self, List.take_zero]
      rcases scanStringLoop (s.drop (i + 1)) with ⟨_ | token, rest⟩
      · rfl
      · simp only [StringToken.prepend, List.nil_append, Bool.false_or]
    refine runs_loop (Passes s (i + 1)) hlt hstart fun hasEscape j _ hj h =>
      (scanStringTurn_runs hj h).post fun r k _ _ hpost => ?_
    rcases r with e | hasEscape' | token
    · exact (congrArg Prod.fst hscan).trans hpost
    · exact hpost
    · exact hscan.trans hpost
  · rw [if_neg hquote] at hscan
    rw [if_pos (by rw [bne, eq_false_of_ne_true hquote]; rfl)]
    exact runs_fail hi (congrArg Prod.fst hscan)

end NativeGuard.Protocol.Offsets

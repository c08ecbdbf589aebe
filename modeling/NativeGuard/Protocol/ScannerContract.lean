import NativeGuard.Protocol.MemberSizes
import NativeGuard.Protocol.OffsetOutput

/-!
# What callers rely on of the scanners

`skip_value` takes exactly the values within the nesting limit (`skip_value_takes_values`),
and every scanner stops without leaving the buffer (`scanners_stay_inside`). Both rest on
the runs of `OffsetScanner`, `OffsetValues` and `OffsetOutput`. With the largest limit the
depth wraps and the nesting is not bounded.
-/

namespace NativeGuard.Protocol

open Json Json.Scan

/-! ## §1  What `skip_value` takes -/

theorem accept_ok {ε : Type} {p : Prop} [Decidable p] {e : ε} {u : Unit}
    (h : accept p e = .ok u) : p := by
  unfold accept at h
  split at h
  · next hp => exact hp
  · cases h

/-- A text that is skipped is a value within the levels, whatever stands behind it. -/
theorem skipValueAt_takes {levels : Nat} {s rest : Bytes}
    (h : (skipValueAt levels).scan s = (.ok (), rest)) :
    ∃ v : Value, s = v.render ++ rest ∧ v.nesting < levels := by
  cases levels with
  | zero => cases h
  | succ levels =>
      cases s with
      | nil => cases h
      | cons b tail =>
          have hread := skipValueAt_read levels
          rw [skipValueAt] at h
          simp only [Offsets.onByte_scan] at h
          split at h
          · obtain ⟨token, mid, hscan, hmid⟩ := bind_eq_ok.mp h
            obtain ⟨-, rfl⟩ := ofExcept_eq_ok.mp hmid
            obtain ⟨t, hs, -⟩ := scanString_sound (orFail_eq_ok.mp hscan)
            exact ⟨.str t, by rw [hs]; simp [Value.render], Nat.succ_pos levels⟩
          split at h
          · obtain ⟨inner, hs, h⟩ := expect_bind_ok h
            obtain ⟨⟨st, exit⟩, mid, hparse, hmid⟩ := bind_eq_ok.mp h
            obtain ⟨hfinish, rfl⟩ := ofExcept_eq_ok.mp hmid
            obtain ⟨ms, t, htext, hms, htrail⟩ := ObjectReader.parse_sound _ hparse
            -- a text that ends behind a comma is no object, and fails here
            have hcut : exit ≠ .cut := by
              rintro rfl
              cases hfinish
            obtain ⟨-, gap, hobj⟩ := obj_of_loopText htext (LoopExit.whole_iff.mpr ⟨htrail, hcut⟩)
            refine ⟨.obj gap ms, hs.trans hobj, ?_⟩
            rw [skipMembers_members hread] at hms
            rw [Nat.lt_succ_iff, nesting_obj_le]
            exact accept_ok hms
          split at h
          · obtain ⟨inner, hs, hparse⟩ := expect_bind_ok h
            obtain ⟨gap, es, htext, hes⟩ := ArrayLoop.parse_sound (ArrayReader.reads _) hparse
            rw [ArrayReader.fold_eq, skipElements_elements hread] at hes
            refine ⟨.arr gap es, hs.trans htext, ?_⟩
            rw [Nat.lt_succ_iff, nesting_arr_le]
            exact accept_ok hes
          have hliteral : ∀ w : Literal, (Reader.literal w ()).scan (b :: tail) = (.ok (), rest) →
              ∃ v : Value, b :: tail = v.render ++ rest ∧ v.nesting < levels + 1 := by
            intro w hscan
            rw [Offsets.literal_scan] at hscan
            exact ⟨.lit w, scanLiteral_sound (orFail_eq_ok.mp hscan), Nat.succ_pos levels⟩
          split at h
          · exact hliteral .true h
          split at h
          · exact hliteral .false h
          split at h
          · exact hliteral .null h
          · obtain ⟨t, hs⟩ := scanNumber_sound (orFail_eq_ok.mp h)
            exact ⟨.num t, hs, Nat.succ_pos levels⟩

/-! ## §2  `skip_value` over its offset -/

namespace Offsets

open Data Data.Cursor Inventory

/-- Started at `i`, `skip_value` succeeds and stops at `j`. -/
def SkipsTo (depth maxDepth : UInt64) (s : Bytes) (i j : Nat) : Prop :=
  ∃ frames, skipValue depth maxDepth s i = .ok ⟨.ok (), j, frames⟩

/-- The nesting test passes at every level of a value, or there is none: behind the largest
limit no depth is beyond it. -/
def WithinDepth (depth maxDepth : UInt64) (nesting : Nat) : Prop :=
  maxDepth.toNat + 1 = 2 ^ 64 ∨ depth.toNat + nesting ≤ maxDepth.toNat

/-- The levels that stand for a depth and its limit. -/
def levelsOf (depth maxDepth : UInt64) (left : Nat) : Nat :=
  if maxDepth.toNat + 1 = 2 ^ 64 then left + 1 else maxDepth.toNat + 1 - depth.toNat

theorem levels_levelsOf (depth maxDepth : UInt64) (left : Nat) :
    Levels depth maxDepth (levelsOf depth maxDepth left) left := by
  unfold levelsOf
  constructor
  · intro hmax
    rw [if_neg (Nat.ne_of_lt hmax)]
  · intro hmax
    rw [if_pos hmax]
    exact Nat.lt_succ_self left

/-- A level takes a byte of the text. -/
theorem nesting_le_length (v : Value) : v.nesting ≤ v.render.length := by
  induction v using Value.inductionOn with
  | str t => exact Nat.zero_le _
  | num t => exact Nat.zero_le _
  | lit w => exact Nat.zero_le _
  | obj gap ms ih =>
      rw [nesting_obj_le]
      intro m hm
      have hsize := membersSize_obj gap ms
      have hmember : m.key.val.length + m.value.render.length + 4 ≤ membersSize ms :=
        List.le_sum_of_mem (List.mem_map_of_mem hm)
      have hnested := ih m hm
      omega
  | arr gap es ih =>
      rw [nesting_arr_le]
      intro e he
      have hsize : (openElements es).length + 1 ≤ (Value.arr gap es).render.length := by
        cases es with
        | nil => cases he
        | cons e es => exact (render_arr_length gap e es).ge
      have helement : (renderElement e).length + 1 ≤ (openElements es).length := by
        rw [openElements_length]
        exact List.le_sum_of_mem (List.mem_map_of_mem he)
      have hvalue : e.value.render.length ≤ (renderElement e).length := by
        rw [renderElement_eq, List.length_append, List.length_append]
        omega
      have hnested := ih e he
      omega

theorem lt_levelsOf_iff {depth maxDepth : UInt64} {left nesting : Nat} (h : nesting ≤ left) :
    nesting < levelsOf depth maxDepth left ↔ WithinDepth depth maxDepth nesting := by
  unfold levelsOf WithinDepth
  split
  · next hmax => exact iff_of_true (Nat.lt_succ_of_le h) (Or.inl hmax)
  · next hmax =>
    rw [or_iff_right hmax]
    omega

variable {s : Bytes} {i : Nat}

theorem skipValue_runs (depth maxDepth : UInt64) (hi : i ≤ s.length) :
    Runs s i (levelsOf depth maxDepth (s.length - i) + 1) (skipValue depth maxDepth)
      (Follows (skipValueAt (levelsOf depth maxDepth (s.length - i))).scan s i) :=
  skipValueFrom_runs hi (Nat.lt_succ_self _) (levels_levelsOf _ _ _)

/-- Where `skip_value` stops, read off the scan over the bytes left. -/
theorem skipsTo_iff {depth maxDepth : UInt64} (hi : i ≤ s.length) {j : Nat} :
    SkipsTo depth maxDepth s i j ↔ j ≤ s.length ∧ i ≤ j ∧
      (skipValueAt (levelsOf depth maxDepth (s.length - i))).scan (s.drop i) =
        (.ok (), s.drop j) := by
  obtain ⟨⟨r, k, m⟩, hrun, hle, hsize, -, hpost⟩ := skipValue_runs depth maxDepth hi
  constructor
  · rintro ⟨frames, hskip⟩
    cases hskip.symm.trans hrun
    exact ⟨hsize, hle, hpost⟩
  · rintro ⟨hj, hij, hscan⟩
    cases r with
    | error e =>
        have herror : ((skipValueAt (levelsOf depth maxDepth (s.length - i))).scan
            (s.drop i)).1 = .error e := hpost
        rw [hscan] at herror
        cases herror
    | ok u =>
        have hok : (skipValueAt (levelsOf depth maxDepth (s.length - i))).scan (s.drop i) =
            (.ok u, s.drop k) := hpost
        have hrest : s.drop j = s.drop k := congrArg Prod.snd (hscan.symm.trans hok)
        have hlength := congrArg List.length hrest
        rw [List.length_drop, List.length_drop] at hlength
        obtain rfl : j = k := by
          dsimp only at hsize
          omega
        exact ⟨m, hrun⟩

/-- Behind the end of the input the first byte is read outside, or the depth test fails. -/
theorem not_skipsTo_outside {depth maxDepth : UInt64} (hi : s.length < i) {j : Nat} :
    ¬ SkipsTo depth maxDepth s i j := by
  rintro ⟨frames, hskip⟩
  obtain ⟨_, hbody⟩ := frame_inv hskip
  split at hbody
  · cases hbody
  obtain ⟨atEnd', k, _, _, hend, hbody⟩ := bind_inv hbody
  have hfalse : decide (i = s.length) = false := decide_eq_false (Nat.ne_of_gt hi)
  unfold atEnd at hend
  rw [hfalse] at hend
  cases hend
  obtain ⟨value, _, _, _, hvalue, -⟩ := bind_inv hbody
  obtain ⟨_, _, _, _, hoffset, hentry⟩ := bind_inv hvalue
  cases hoffset
  have hnone : s[i]? = none := List.getElem?_eq_none hi.le
  unfold entry at hentry
  rw [hnone] at hentry
  cases hentry

/-- `skip_value` takes a value whose nesting is within the limit, to its end. -/
theorem skipsTo_value_iff (depth maxDepth : UInt64) (v : Value) (before : Bytes) {rest : Bytes}
    (hrest : Follow rest) {j : Nat} :
    SkipsTo depth maxDepth (before ++ (v.render ++ rest)) before.length j ↔
      j = before.length + v.render.length ∧ WithinDepth depth maxDepth v.nesting := by
  have hi : before.length ≤ (before ++ (v.render ++ rest)).length := by
    rw [List.length_append]
    omega
  have hleft : (before ++ (v.render ++ rest)).length - before.length =
      v.render.length + rest.length := by
    rw [List.length_append, List.length_append, Nat.add_sub_cancel_left]
  have hnesting : v.nesting ≤ v.render.length + rest.length :=
    (nesting_le_length v).trans (Nat.le_add_right _ _)
  have hagrees := (skipValueAt (levelsOf depth maxDepth
    (v.render.length + rest.length))).agrees v rest hrest
  rw [skipsTo_iff hi, List.drop_left, hleft, ← lt_levelsOf_iff hnesting]
  rw [skipValueAt_read] at hagrees
  by_cases hwithin : v.nesting < levelsOf depth maxDepth (v.render.length + rest.length)
  · have hok : (skipValueAt (levelsOf depth maxDepth (v.render.length + rest.length))).scan
        (v.render ++ rest) = (.ok (), rest) := by
      rw [accept, if_pos hwithin] at hagrees
      exact hagrees
    rw [hok, and_iff_left hwithin, Prod.mk.injEq, eq_self_iff_true, true_and]
    have hsize : (before ++ (v.render ++ rest)).length =
        before.length + v.render.length + rest.length := by
      rw [← List.append_assoc, List.length_append, List.length_append]
    constructor
    · rintro ⟨hj, -, hdrop⟩
      have hlength := congrArg List.length hdrop
      rw [List.length_drop] at hlength
      omega
    · rintro rfl
      refine ⟨by omega, Nat.le_add_right _ _, ?_⟩
      rw [← List.append_assoc, ← List.length_append, List.drop_left]
  · have herror : ((skipValueAt (levelsOf depth maxDepth (v.render.length +
        rest.length))).scan (v.render ++ rest)).1 = .error () := by
      rw [accept, if_neg hwithin] at hagrees
      exact hagrees
    refine iff_of_false (fun h => ?_) fun h => hwithin h.2
    rw [h.2.2] at herror
    cases herror

/-- What `skip_value` takes is a value whose nesting is within the limit, and it takes
each of them, to its end. -/
theorem skip_value_takes_values (depth maxDepth : UInt64) :
    (∀ (v : Value) (before rest : Bytes), Follow rest → ∀ j,
      SkipsTo depth maxDepth (before ++ (v.render ++ rest)) before.length j ↔
        j = before.length + v.render.length ∧ WithinDepth depth maxDepth v.nesting) ∧
      ∀ (s : Bytes) (i j : Nat), SkipsTo depth maxDepth s i j → i ≤ j ∧ j ≤ s.length ∧
        ∃ v : Value, (s.drop i).take (j - i) = v.render ∧
          WithinDepth depth maxDepth v.nesting := by
  refine ⟨fun v before rest hrest j => skipsTo_value_iff depth maxDepth v before hrest, ?_⟩
  intro s i j h
  have hi : i ≤ s.length := by
    by_contra hnot
    exact not_skipsTo_outside (Nat.not_le.mp hnot) h
  obtain ⟨hj, hij, hscan⟩ := (skipsTo_iff hi).mp h
  obtain ⟨v, hsplit, hlevels⟩ := skipValueAt_takes hscan
  have htake := take_of_drop hij hj hsplit
  refine ⟨hij, hj, v, htake, (lt_levelsOf_iff ?_).mp hlevels⟩
  have hlength := congrArg List.length hsplit
  rw [List.length_append, List.length_drop] at hlength
  have hnesting := nesting_le_length v
  omega

def nestedOne : Value := .arr noGap [.compact (.lit .true)]

def nestedThree : Bytes := ascii "[[[true]]]"

def largestSize : UInt64 := 0xFFFFFFFFFFFFFFFF

/-- At the largest depth the next one is zero, so the array is skipped. -/
theorem skip_value_depth_wraps :
    SkipsTo largestSize largestSize nestedOne.render 0 6 ∧
      ¬ (∀ (depth maxDepth : UInt64) (v : Value) (before rest : Bytes), Follow rest → ∀ j,
        SkipsTo depth maxDepth (before ++ (v.render ++ rest)) before.length j ↔
          j = before.length + v.render.length ∧
            depth.toNat + v.nesting ≤ maxDepth.toNat) := by
  have hskips : SkipsTo largestSize largestSize nestedOne.render 0 6 := by
    refine ⟨2, ?_⟩
    decide +kernel
  refine ⟨hskips, fun hevery => ?_⟩
  have hiff := hevery largestSize largestSize nestedOne [] [] follow_nil 6
  rw [List.append_nil, List.nil_append] at hiff
  exact absurd (hiff.mp hskips).2 (by decide)

/-! ## §3  All scanners -/

theorem reader_moves {ε α : Type} {r : Reader ε α} {a : α} {j : Nat}
    (hnil : ∀ a rest, r.scan [] ≠ (.ok a, rest)) (hle : i ≤ j)
    (h : r.scan (s.drop i) = (.ok a, s.drop j)) : i < j := by
  refine Nat.lt_of_le_of_ne hle ?_
  rintro rfl
  by_cases hne : s.drop i = []
  · rw [hne] at h
    exact hnil _ _ h
  · obtain ⟨v, hv⟩ := r.takes _ _ _ h hne
    exact render_ne_nil v (List.self_eq_append_left.mp hv)

theorem skipValueAt_nil (levels : Nat) (u : Unit) (rest : Bytes) :
    (skipValueAt levels).scan [] ≠ (.ok u, rest) := by
  cases levels with
  | zero => exact nofun
  | succ levels => exact nofun

theorem canonicalizeAt_nil (maxBytes levels : Nat) (output out rest : Bytes) :
    (canonicalizeAt maxBytes levels output).scan [] ≠ (.ok out, rest) := by
  cases levels with
  | zero => exact nofun
  | succ levels => exact nofun

theorem canonicalizeValue_runs (depth maxDepth : UInt64) (maxBytes : Nat) (output : Output)
    (hi : i ≤ s.length) :
    Runs s i (levelsOf depth maxDepth (s.length - i) + 1)
      (canonicalizeValue depth maxDepth maxBytes output)
      (FollowsPlain (canonicalizeAt maxBytes (levelsOf depth maxDepth (s.length - i))
        output.bytes).scan s i) :=
  canonicalizeValueFrom_runs output hi (Nat.lt_succ_self _) (levels_levelsOf _ _ _)

theorem scanNumber_moves {j : Nat} {u : Unit} (hi : i ≤ s.length) (hj : j ≤ s.length)
    (h : Protocol.scanNumber (s.drop i) = (.ok u, s.drop j)) : i < j := by
  obtain ⟨t, hsplit⟩ := scanNumber_sound h
  refine lt_of_drop hi hj ?_ hsplit
  obtain ⟨b, rest, ht, -⟩ := t.property.head
  rw [ht]
  exact List.cons_ne_nil b rest

/-- From every offset of every input each scanner ends without a fault and inside the
input, and the ones that read a token have moved on if they succeed. Below the largest
limit the activations that nest are the levels that are left, and the one that fails. -/
theorem scanners_stay_inside (hi : i ≤ s.length) (literal : Bytes)
    (depth maxDepth : UInt64) (maxBytes : Nat) (output : Output) :
    Stays (skipWhitespace : Cursor UInt8 Unit Unit) s i ∧
      Advances scanString s i ∧ Advances scanNumber s i ∧ Stays (scanLiteral literal) s i ∧
      Advances (skipValue depth maxDepth) s i ∧
      Advances (canonicalizeValue depth maxDepth maxBytes output) s i ∧
      Stays (exceedsNesting maxDepth : Cursor UInt8 Unit Bool) s 0 ∧
      (depth ≤ maxDepth → maxDepth.toNat + 1 < 2 ^ 64 →
        NestsAtMost (skipValue depth maxDepth) s i (maxDepth.toNat - depth.toNat + 2) ∧
        NestsAtMost (canonicalizeValue depth maxDepth maxBytes output) s i
          (maxDepth.toNat - depth.toNat + 2)) ∧
      (maxDepth.toNat + 1 = 2 ^ 64 →
        NestsAtMost (skipValue depth maxDepth) s i (s.length - i + 2) ∧
        NestsAtMost (canonicalizeValue depth maxDepth maxBytes output) s i
          (s.length - i + 2)) := by
  have hskip := skipValue_runs depth maxDepth hi
  have hcanonical := canonicalizeValue_runs depth maxDepth maxBytes output hi
  refine ⟨(skipWhile_runs (n := 0) hi isWhitespace).stays, ?_, ?_,
    (scanLiteral_runs (n := 0) hi literal).stays, ?_, ?_,
    (exceedsNesting_runs (n := 0) maxDepth).stays, fun hdepth hmax => ?_, fun hmax => ?_⟩
  · exact (scanString_runs (n := 0) hi).advances fun _ j _ hj h => scanString_moves hi hj h
  · exact (scanNumber_runs (n := 0) hi).advances fun _ j _ hj h => scanNumber_moves hi hj h
  · exact hskip.advances fun _ j hle _ h => reader_moves (skipValueAt_nil _) hle h
  · exact hcanonical.advances fun _ j hle _ h =>
      reader_moves (canonicalizeAt_nil maxBytes _ output.bytes) hle h
  · have hlevels : levelsOf depth maxDepth (s.length - i) + 1 =
        maxDepth.toNat - depth.toNat + 2 := by
      have hle : depth.toNat ≤ maxDepth.toNat := hdepth
      unfold levelsOf
      rw [if_neg (Nat.ne_of_lt hmax)]
      omega
    rw [← hlevels]
    exact ⟨hskip.nests, hcanonical.nests⟩
  · have hlevels : levelsOf depth maxDepth (s.length - i) + 1 = s.length - i + 2 := by
      unfold levelsOf
      rw [if_pos hmax]
    rw [← hlevels]
    exact ⟨hskip.nests, hcanonical.nests⟩

theorem scanners_stay_inside_example :
    Advances (skipValue 0 1) nestedThree 1 ∧ NestsAtMost (skipValue 0 1) nestedThree 1 3 := by
  have hinside := @scanners_stay_inside nestedThree 1 (by decide) [] 0 1 0 .empty
  obtain ⟨-, -, -, -, hadvances, -, -, hnests, -⟩ := hinside
  exact ⟨hadvances, (hnests (by decide) (by decide)).1⟩

/-- At the largest depth three arrays are skipped with four activations. -/
theorem skip_value_nesting_wraps :
    ¬ (∀ (s : Bytes) (i : Nat) (depth maxDepth : UInt64), i ≤ s.length → depth ≤ maxDepth →
      NestsAtMost (skipValue depth maxDepth) s i (maxDepth.toNat - depth.toNat + 2)) := by
  intro hevery
  have hrun : skipValue largestSize largestSize nestedThree 0 = .ok ⟨.ok (), 10, 4⟩ := by
    decide +kernel
  obtain ⟨run, hrun', hframes⟩ := hevery nestedThree 0 largestSize largestSize (Nat.zero_le _)
    (by decide)
  cases hrun'.symm.trans hrun
  exact absurd hframes (by decide)

end Offsets

end NativeGuard.Protocol

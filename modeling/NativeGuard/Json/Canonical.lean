import NativeGuard.Data.Rearranged
import NativeGuard.Json.Write

/-!
# Canonical trees

The canonical form of a value has the members of every object in the order of
their keys and no whitespace. Two values that differ in the order of members and
in whitespace only (`Reordered`) have the same canonical form, as long as no
object repeats a key (`Reordered.canonical_eq`).
-/

namespace NativeGuard.Json

open Data

/-! ## §1  The canonical form -/

/-- The key of a member as it is spelled. -/
def keyOf (m : Member Value) : Bytes := m.key.val

mutual
def Value.canonical : Value → Value
  | .str t => .str t
  | .num t => .num t
  | .lit w => .lit w
  | .obj _ ms => .obj noGap (sortOn keyOf (canonicalMembers ms))
  | .arr _ es => .arr noGap (canonicalElements es)
termination_by structural v => v

def canonicalMember : Member Value → Member Value
  | ⟨_, key, _, _, value, _⟩ => .compact key value.canonical
termination_by structural m => m

def canonicalMembers : List (Member Value) → List (Member Value)
  | [] => []
  | m :: ms => canonicalMember m :: canonicalMembers ms
termination_by structural ms => ms

def canonicalElement : Element Value → Element Value
  | ⟨_, value, _⟩ => .compact value.canonical
termination_by structural e => e

def canonicalElements : List (Element Value) → List (Element Value)
  | [] => []
  | e :: es => canonicalElement e :: canonicalElements es
termination_by structural es => es
end

theorem canonicalMember_eq (m : Member Value) :
    canonicalMember m = .compact m.key m.value.canonical := by
  cases m; rfl

theorem canonicalElement_eq (e : Element Value) :
    canonicalElement e = .compact e.value.canonical := by
  cases e; rfl

theorem canonicalMembers_eq (ms : List (Member Value)) :
    canonicalMembers ms = ms.map canonicalMember := by
  induction ms with
  | nil => rfl
  | cons m ms ih => rw [canonicalMembers, ih, List.map_cons]

theorem canonicalElements_eq (es : List (Element Value)) :
    canonicalElements es = es.map canonicalElement := by
  induction es with
  | nil => rfl
  | cons e es ih => rw [canonicalElements, ih, List.map_cons]

@[simp] theorem keyOf_canonicalMember (m : Member Value) :
    keyOf (canonicalMember m) = keyOf m := by
  rw [canonicalMember_eq]
  rfl

theorem canonical_obj (gap : Gap) (ms : List (Member Value)) :
    (Value.obj gap ms).canonical = .obj noGap ((sortOn keyOf ms).map canonicalMember) := by
  rw [Value.canonical, canonicalMembers_eq, sortOn_map]
  simp only [keyOf_canonicalMember]

theorem canonical_arr (gap : Gap) (es : List (Element Value)) :
    (Value.arr gap es).canonical = .arr noGap (es.map canonicalElement) := by
  rw [Value.canonical, canonicalElements_eq]

/-- A canonical tree is its own canonical form. -/
theorem canonical_canonical (v : Value) : v.canonical.canonical = v.canonical := by
  induction v using Value.inductionOn with
  | str t => rfl
  | num t => rfl
  | lit w => rfl
  | obj gap ms ih =>
      rw [canonical_obj, canonical_obj, sortOn_map, List.map_map]
      simp only [keyOf_canonicalMember, sortOn_sortOn]
      congr 1
      refine List.map_congr_left fun m hm => ?_
      rw [Function.comp_apply, canonicalMember_eq, canonicalMember_eq]
      exact congrArg (Member.compact m.key) (ih m ((mem_sortOn keyOf).mp hm))
  | arr gap es ih =>
      rw [canonical_arr, canonical_arr, List.map_map]
      congr 1
      refine List.map_congr_left fun e he => ?_
      rw [Function.comp_apply, canonicalElement_eq, canonicalElement_eq]
      exact congrArg Element.compact (ih e he)

/-- Sorting and spelling the members again makes nothing deeper. -/
theorem nesting_canonical_le (v : Value) : v.canonical.nesting ≤ v.nesting := by
  induction v using Value.inductionOn with
  | str t => exact Nat.zero_le _
  | num t => exact Nat.zero_le _
  | lit w => exact Nat.zero_le _
  | obj gap ms ih =>
      rw [Value.canonical, nesting_obj_le, canonicalMembers_eq]
      intro m hm
      rcases List.mem_map.mp ((mem_sortOn keyOf).mp hm) with ⟨m₀, hm₀, rfl⟩
      have hnesting := nesting_obj_le.mp (le_refl (Value.obj gap ms).nesting) m₀ hm₀
      rw [canonicalMember_eq]
      exact le_trans (Nat.succ_le_succ (ih m₀ hm₀)) hnesting
  | arr gap es ih =>
      rw [Value.canonical, nesting_arr_le, canonicalElements_eq]
      intro e he
      rcases List.mem_map.mp he with ⟨e₀, he₀, rfl⟩
      have hnesting := nesting_arr_le.mp (le_refl (Value.arr gap es).nesting) e₀ he₀
      rw [canonicalElement_eq]
      exact le_trans (Nat.succ_le_succ (ih e₀ he₀)) hnesting

/-- Empty containers are all that the depth counts and the nesting does not. -/
theorem depth_le_nesting (v : Value) : v.depth ≤ v.nesting + 1 := by
  induction v using Value.inductionOn with
  | str t => exact Nat.zero_le _
  | num t => exact Nat.zero_le _
  | lit w => exact Nat.zero_le _
  | obj gap ms ih =>
      rw [depth_obj_le]
      intro m hm
      have hnesting := nesting_obj_le.mp (le_refl (Value.obj gap ms).nesting) m hm
      exact le_trans (ih m hm) hnesting
  | arr gap es ih =>
      rw [depth_arr_le]
      intro e he
      have hnesting := nesting_arr_le.mp (le_refl (Value.arr gap es).nesting) e he
      exact le_trans (ih e he) hnesting

/-! ## §2  Keys that are not repeated -/

/-- No object of the value repeats a key, as spelled. -/
inductive DistinctKeys : Value → Prop where
  | str (t : StringText) : DistinctKeys (.str t)
  | num (t : NumberText) : DistinctKeys (.num t)
  | lit (w : Literal) : DistinctKeys (.lit w)
  | obj {gap : Gap} {ms : List (Member Value)} (hkeys : (ms.map keyOf).Nodup)
      (hvalues : ∀ m ∈ ms, DistinctKeys m.value) : DistinctKeys (.obj gap ms)
  | arr {gap : Gap} {es : List (Element Value)}
      (hvalues : ∀ e ∈ es, DistinctKeys e.value) : DistinctKeys (.arr gap es)

theorem distinctKeys_obj {gap : Gap} {ms : List (Member Value)} :
    DistinctKeys (.obj gap ms) ↔ (ms.map keyOf).Nodup ∧ ∀ m ∈ ms, DistinctKeys m.value := by
  constructor
  · rintro (_ | _ | _ | ⟨hkeys, hvalues⟩)
    exact ⟨hkeys, hvalues⟩
  · rintro ⟨hkeys, hvalues⟩
    exact .obj hkeys hvalues

theorem distinctKeys_arr {gap : Gap} {es : List (Element Value)} :
    DistinctKeys (.arr gap es) ↔ ∀ e ∈ es, DistinctKeys e.value := by
  constructor
  · rintro (_ | _ | _ | _ | hvalues)
    exact hvalues
  · exact .arr

/-! ## §3  Values up to the order of members -/

/-- Members in another order, with values that `R` relates at their key. -/
def MembersReordered (R : Bytes → Value → Value → Prop) (ms ms' : List (Member Value)) :
    Prop :=
  Rearranged (fun m m' => m.key = m'.key ∧ R (keyOf m) m.value m'.value) ms ms'

/-- The same value with the members of every object in some other order, and with
other whitespace. The pairs are those of a `zip`, which the recursion goes through. -/
inductive Reordered : Value → Value → Prop where
  | str (t : StringText) : Reordered (.str t) (.str t)
  | num (t : NumberText) : Reordered (.num t) (.num t)
  | lit (w : Literal) : Reordered (.lit w) (.lit w)
  | obj {gap gap' : Gap} {ms ns ms' : List (Member Value)} (hperm : ms.Perm ns)
      (hkeys : ns.map Member.key = ms'.map Member.key)
      (hvalues : ∀ p ∈ ns.zip ms', Reordered p.1.value p.2.value) :
      Reordered (.obj gap ms) (.obj gap' ms')
  | arr {gap gap' : Gap} {es es' : List (Element Value)} (hlength : es.length = es'.length)
      (hvalues : ∀ p ∈ es.zip es', Reordered p.1.value p.2.value) :
      Reordered (.arr gap es) (.arr gap' es')

theorem forall₂_keys {ns ms' : List (Member Value)} :
    ns.map Member.key = ms'.map Member.key ↔
      List.Forall₂ (fun n m' => n.key = m'.key) ns ms' := by
  rw [← List.forall₂_eq_eq_eq, List.forall₂_map_left_iff, List.forall₂_map_right_iff]

theorem membersReordered_of {R : Value → Value → Prop} {ms ns ms' : List (Member Value)}
    (hperm : ms.Perm ns) (hkeys : ns.map Member.key = ms'.map Member.key)
    (hvalues : ∀ p ∈ ns.zip ms', R p.1.value p.2.value) :
    MembersReordered (fun _ => R) ms ms' := by
  have hpairs := List.forall₂_iff_zip.mp (forall₂_keys.mp hkeys)
  refine ⟨ns, hperm, List.forall₂_iff_zip.mpr ⟨hpairs.1, fun h => ?_⟩⟩
  exact ⟨hpairs.2 h, hvalues _ h⟩

/-- Reordered objects have reordered members. -/
theorem reordered_obj {gap gap' : Gap} {ms ms' : List (Member Value)} :
    Reordered (.obj gap ms) (.obj gap' ms') ↔
      MembersReordered (fun _ => Reordered) ms ms' := by
  constructor
  · intro h
    cases h with
    | obj hperm hkeys hvalues => exact membersReordered_of hperm hkeys hvalues
  · rintro ⟨ns, hperm, hpairs⟩
    have hkeys := forall₂_keys.mpr (hpairs.imp fun _ _ h => h.1)
    exact .obj hperm hkeys fun p hp => ((List.forall₂_iff_zip.mp hpairs).2 hp).2

theorem reordered_arr {gap gap' : Gap} {es es' : List (Element Value)} :
    Reordered (.arr gap es) (.arr gap' es') ↔
      List.Forall₂ (fun e e' => Reordered e.value e'.value) es es' := by
  rw [List.forall₂_iff_zip]
  constructor
  · intro h
    cases h with
    | arr hlength hvalues => exact ⟨hlength, fun hp => hvalues _ hp⟩
  · rintro ⟨hlength, hvalues⟩
    exact .arr hlength fun p hp => hvalues hp

theorem Reordered.refl (v : Value) : Reordered v v := by
  induction v using Value.inductionOn with
  | str t => exact .str t
  | num t => exact .num t
  | lit w => exact .lit w
  | obj gap ms ih =>
      exact reordered_obj.mpr (.of_forall₂ (List.forall₂_same.mpr fun m hm => ⟨rfl, ih m hm⟩))
  | arr gap es ih => exact reordered_arr.mpr (List.forall₂_same.mpr ih)

section members

variable {R : Bytes → Value → Value → Prop} {ms ms' : List (Member Value)}

theorem MembersReordered.keys (h : MembersReordered R ms ms') :
    (ms.map keyOf).Perm (ms'.map keyOf) :=
  h.map_perm fun _ _ hm => congrArg Subtype.val hm.1

theorem valuesAt_eq_filterMap (key : Bytes) (ms : List (Member Value)) :
    valuesAt key ms = ms.filterMap fun m => if m.key.val = key then some m.value else none := by
  induction ms with
  | nil => rfl
  | cons m ms ih =>
      by_cases hm : m.key.val = key
      · simp [valuesAt_cons_of_eq hm, ih, hm]
      · simp [valuesAt_cons_of_ne hm, ih, hm]

/-- The values at a key are rearranged with the members. -/
theorem MembersReordered.valuesAt (h : MembersReordered R ms ms') (key : Bytes) :
    Rearranged (R key) (valuesAt key ms) (valuesAt key ms') := by
  rw [valuesAt_eq_filterMap, valuesAt_eq_filterMap]
  refine Rearranged.filterMap h ?_
  rintro m m' ⟨hkey, hvalue⟩
  by_cases hm : m.key.val = key
  · rw [if_pos hm, if_pos (hkey ▸ hm)]
    exact .some (hm ▸ hvalue)
  · rw [if_neg hm, if_neg (hkey ▸ hm)]
    exact .none

/-- What is said of every member by its key and value carries over. -/
theorem MembersReordered.forall_mem (h : MembersReordered R ms ms')
    {p : Bytes → Value → Prop} (hp : ∀ key v w, R key v w → (p key v ↔ p key w)) :
    (∀ m ∈ ms, p m.key.val m.value) ↔ ∀ m ∈ ms', p m.key.val m.value := by
  refine Rearranged.forall_mem h ?_
  rintro m m' ⟨hkey, hvalue⟩
  rw [← hkey]
  exact hp _ _ _ hvalue

end members

/-! ## §4  What does not depend on the order -/

theorem Reordered.nesting_le {v w : Value} (h : Reordered v w) :
    ∀ n, v.nesting ≤ n ↔ w.nesting ≤ n := by
  have hstep : ∀ {a b : Nat}, (∀ n, a ≤ n ↔ b ≤ n) → ∀ n, a + 1 ≤ n ↔ b + 1 ≤ n := by
    intro a b hab n
    have hle := hab a
    have hge := hab b
    omega
  induction h with
  | str t => exact fun n => Iff.rfl
  | num t => exact fun n => Iff.rfl
  | lit w => exact fun n => Iff.rfl
  | obj hperm hkeys hvalues ih =>
      intro n
      have hmembers := @membersReordered_of (fun v w => ∀ n, v.nesting ≤ n ↔ w.nesting ≤ n)
        _ _ _ hperm hkeys ih
      rw [nesting_obj_le, nesting_obj_le]
      exact hmembers.forall_mem fun _ v w hvw => hstep hvw n
  | @arr gap gap' es es' hlength hvalues ih =>
      intro n
      have helements : Rearranged (fun e e' => ∀ n, e.value.nesting ≤ n ↔
          e'.value.nesting ≤ n) es es' :=
        .of_forall₂ (List.forall₂_iff_zip.mpr ⟨hlength, fun hp => ih _ hp⟩)
      rw [nesting_arr_le, nesting_arr_le]
      exact helements.forall_mem fun e e' hee => hstep hee n

theorem Reordered.nesting_eq {v w : Value} (h : Reordered v w) : v.nesting = w.nesting :=
  le_antisymm ((h.nesting_le _).mpr le_rfl) ((h.nesting_le _).mp le_rfl)

theorem Reordered.distinctKeys_iff {v w : Value} (h : Reordered v w) :
    DistinctKeys v ↔ DistinctKeys w := by
  induction h with
  | str t => exact Iff.rfl
  | num t => exact Iff.rfl
  | lit w => exact Iff.rfl
  | obj hperm hkeys hvalues ih =>
      have hmembers := @membersReordered_of (fun v w => DistinctKeys v ↔ DistinctKeys w)
        _ _ _ hperm hkeys ih
      rw [distinctKeys_obj, distinctKeys_obj, hmembers.keys.nodup_iff]
      exact and_congr_right fun _ => hmembers.forall_mem fun _ _ _ hvw => hvw
  | arr hlength hvalues ih =>
      have helements := Rearranged.of_forall₂ (R := fun e e' : Element Value =>
        DistinctKeys e.value ↔ DistinctKeys e'.value)
        (List.forall₂_iff_zip.mpr ⟨hlength, fun hp => ih _ hp⟩)
      rw [distinctKeys_arr, distinctKeys_arr]
      exact helements.forall_mem fun _ _ hee => hee

/-- Values that differ in the order of members only have one canonical form. -/
theorem Reordered.canonical_eq {v w : Value} (h : Reordered v w) (hkeys : DistinctKeys v) :
    v.canonical = w.canonical := by
  induction h with
  | str t => rfl
  | num t => rfl
  | lit w => rfl
  | @obj gap gap' ms ns ms' hperm hsame hvalues ih =>
      rcases distinctKeys_obj.mp hkeys with ⟨hnodup, hdistinct⟩
      have hpairs := List.forall₂_iff_zip.mp (forall₂_keys.mp hsame)
      have hmembers : Rearranged (fun m m' => canonicalMember m = canonicalMember m') ms ms' := by
        refine ⟨ns, hperm, List.forall₂_iff_zip.mpr ⟨hpairs.1, fun {m m'} hp => ?_⟩⟩
        have hm : m ∈ ms := hperm.mem_iff.mpr (List.of_mem_zip hp).1
        rw [canonicalMember_eq, canonicalMember_eq, hpairs.2 hp, ih _ hp (hdistinct m hm)]
      rw [Value.canonical, Value.canonical, canonicalMembers_eq, canonicalMembers_eq]
      congr 1
      refine hmembers.sortOn_eq (fun _ _ hm => hm) ?_
      rw [List.map_map]
      simpa [Function.comp_def] using hnodup
  | @arr gap gap' es es' hlength hvalues ih =>
      have hdistinct := distinctKeys_arr.mp hkeys
      have helements : es.map canonicalElement = es'.map canonicalElement := by
        rw [← List.forall₂_eq_eq_eq, List.forall₂_map_left_iff, List.forall₂_map_right_iff,
          List.forall₂_iff_zip]
        refine ⟨hlength, fun {e e'} hp => ?_⟩
        rw [canonicalElement_eq, canonicalElement_eq,
          ih _ hp (hdistinct e (List.of_mem_zip hp).1)]
      rw [Value.canonical, Value.canonical, canonicalElements_eq, canonicalElements_eq,
        helements]

/-- Values of one canonical form differ in the order of members only. -/
theorem Reordered.of_canonical_eq {v w : Value} (h : v.canonical = w.canonical) :
    Reordered v w := by
  induction v using Value.inductionOn generalizing w with
  | str t =>
      cases w <;> cases h
      exact .str t
  | num t =>
      cases w <;> cases h
      exact .num t
  | lit u =>
      cases w <;> cases h
      exact .lit u
  | obj gap ms ih =>
      rcases w with _ | _ | _ | ⟨gap', ms'⟩ | _
      case obj =>
        rw [canonical_obj, canonical_obj, Value.obj.injEq, ← List.forall₂_eq_eq_eq,
          List.forall₂_map_left_iff, List.forall₂_map_right_iff] at h
        -- the sorted members agree one by one, and sorting only rearranges them
        have hpairs : Rearranged (fun m m' => m.key = m'.key ∧ Reordered m.value m'.value)
            ms (sortOn keyOf ms') := by
          refine ⟨sortOn keyOf ms, (sortOn_perm keyOf ms).symm, ?_⟩
          rw [List.forall₂_iff_zip] at h ⊢
          refine ⟨h.2.1, fun {m m'} hp => ?_⟩
          have heq := h.2.2 hp
          rw [canonicalMember_eq, canonicalMember_eq] at heq
          rcases Member.mk.inj heq with ⟨-, hkey, -, -, hvalue, -⟩
          exact ⟨hkey, ih m ((mem_sortOn keyOf).mp (List.of_mem_zip hp).1) hvalue⟩
        exact reordered_obj.mpr (hpairs.trans_perm (sortOn_perm keyOf ms'))
      all_goals cases h
  | arr gap es ih =>
      rcases w with _ | _ | _ | _ | ⟨gap', es'⟩
      case arr =>
        rw [canonical_arr, canonical_arr, Value.arr.injEq, ← List.forall₂_eq_eq_eq,
          List.forall₂_map_left_iff, List.forall₂_map_right_iff] at h
        rw [reordered_arr]
        rw [List.forall₂_iff_zip] at h ⊢
        refine ⟨h.2.1, fun {e e'} hp => ?_⟩
        have heq := h.2.2 hp
        rw [canonicalElement_eq, canonicalElement_eq] at heq
        rcases Element.mk.inj heq with ⟨-, hvalue, -⟩
        exact ih e (List.of_mem_zip hp).1 hvalue
      all_goals cases h

end NativeGuard.Json

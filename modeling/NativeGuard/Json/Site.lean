import NativeGuard.Json.Grammar

/-!
# Places in a tree

A `MemberSite` is an object around the value of one member, an `ElementSite` an
array around one element. Filling a place changes that value and nothing else, so
what is known of the tree with one value in it is known with another, up to what it
says of the value itself.
-/

namespace NativeGuard.Json

/-! ## §1  Members -/

structure MemberSite where
  gap : Gap
  pre : List (Member Value)
  member : Member Value
  post : List (Member Value)

namespace MemberSite

variable (site : MemberSite)

def memberWith (w : Value) : Member Value := { site.member with value := w }

/-- The members with `w` in the place. -/
def members (w : Value) : List (Member Value) :=
  site.pre ++ site.memberWith w :: site.post

def fill (w : Value) : Value := .obj site.gap (site.members w)

variable {site} {key : Bytes} {v w : Value}

theorem forall_members {p : Member Value → Prop} :
    (∀ m ∈ site.members w, p m) ↔
      (∀ m ∈ site.pre ++ site.post, p m) ∧ p (site.memberWith w) := by
  unfold members
  simp only [List.forall_mem_append, List.forall_mem_cons]
  constructor
  · rintro ⟨hpre, hmember, hpost⟩
    exact ⟨⟨hpre, hpost⟩, hmember⟩
  · rintro ⟨⟨hpre, hpost⟩, hmember⟩
    exact ⟨hpre, hmember, hpost⟩

theorem forall_mem_of_forall {p : Member Value → Prop} (h : ∀ m ∈ site.members v, p m)
    (hw : p (site.memberWith v) → p (site.memberWith w)) : ∀ m ∈ site.members w, p m := by
  obtain ⟨hothers, hv⟩ := forall_members.mp h
  exact forall_members.mpr ⟨hothers, hw hv⟩

/-- The other keys keep their values. -/
theorem valuesAt_of_ne (h : site.member.key.val ≠ key) (v w : Value) :
    valuesAt key (site.members v) = valuesAt key (site.members w) := by
  have hne : ∀ u, (site.memberWith u).key.val ≠ key := fun _ => h
  unfold members
  rw [valuesAt_append, valuesAt_append, valuesAt_cons_of_ne (hne v),
    valuesAt_cons_of_ne (hne w)]

theorem valuesAt_split (h : site.member.key.val = key) (w : Value) :
    valuesAt key (site.members w) =
      valuesAt key site.pre ++ w :: valuesAt key site.post := by
  have hkey : ∀ u, (site.memberWith u).key.val = key := fun _ => h
  unfold members
  rw [valuesAt_append, valuesAt_cons_of_eq (hkey w)]
  rfl

theorem valuesAt_length (key : Bytes) (v w : Value) :
    (valuesAt key (site.members v)).length = (valuesAt key (site.members w)).length := by
  by_cases h : site.member.key.val = key
  · rw [valuesAt_split h, valuesAt_split h]
    simp
  · rw [valuesAt_of_ne h v w]

/-- Where the key stands once, it stands at the place. -/
theorem valuesAt_of_singleton (h : site.member.key.val = key)
    (hone : (valuesAt key (site.members v)).length ≤ 1) (w : Value) :
    valuesAt key (site.members w) = [w] := by
  rw [valuesAt_split h, List.length_append, List.length_cons] at hone
  have hpre : valuesAt key site.pre = [] := List.eq_nil_of_length_eq_zero (by omega)
  have hpost : valuesAt key site.post = [] := List.eq_nil_of_length_eq_zero (by omega)
  rw [valuesAt_split h, hpre, hpost]
  rfl

end MemberSite

/-! ## §2  Elements -/

structure ElementSite where
  gap : Gap
  pre : List (Element Value)
  element : Element Value
  post : List (Element Value)

namespace ElementSite

variable (site : ElementSite)

def elementWith (w : Value) : Element Value := { site.element with value := w }

def elements (w : Value) : List (Element Value) :=
  site.pre ++ site.elementWith w :: site.post

def fill (w : Value) : Value := .arr site.gap (site.elements w)

variable {site} {v w : Value}

theorem forall_elements {p : Element Value → Prop} :
    (∀ e ∈ site.elements w, p e) ↔
      (∀ e ∈ site.pre ++ site.post, p e) ∧ p (site.elementWith w) := by
  unfold elements
  simp only [List.forall_mem_append, List.forall_mem_cons]
  constructor
  · rintro ⟨hpre, helement, hpost⟩
    exact ⟨⟨hpre, hpost⟩, helement⟩
  · rintro ⟨⟨hpre, hpost⟩, helement⟩
    exact ⟨hpre, helement, hpost⟩

theorem elements_length (v w : Value) :
    (site.elements v).length = (site.elements w).length := by
  simp [elements]

theorem elementWith_mem (w : Value) : site.elementWith w ∈ site.elements w :=
  List.mem_append_right _ List.mem_cons_self

/-- What is distinct of the elements stays so if the new one is none of the others. -/
theorem nodup_map {β : Type} {f : Element Value → β}
    (h : ((site.elements v).map f).Nodup)
    (hnew : ∀ e ∈ site.pre ++ site.post, f e ≠ f (site.elementWith w)) :
    ((site.elements w).map f).Nodup := by
  unfold elements at h ⊢
  rw [List.map_append, List.map_cons, List.nodup_middle, List.nodup_cons] at h ⊢
  refine ⟨fun hmem => ?_, h.2⟩
  rw [← List.map_append] at hmem
  obtain ⟨e, he, heq⟩ := List.mem_map.mp hmem
  exact hnew e he heq

end ElementSite

/-! ## §3  Depth -/

/-- The depth of a tree depends on the depth of what fills the place. -/
theorem MemberSite.fill_depth {site : MemberSite} {v w : Value} (h : v.depth = w.depth) :
    (site.fill v).depth = (site.fill w).depth := by
  have hle : ∀ {v w : Value} {n : Nat}, v.depth = w.depth →
      membersDepth (site.members v) ≤ n → membersDepth (site.members w) ≤ n := by
    intro v w n h hv
    rw [membersDepth_le] at hv ⊢
    refine forall_mem_of_forall hv fun hmember => ?_
    exact h ▸ hmember
  unfold fill
  rw [Value.depth, Value.depth,
    le_antisymm (hle h.symm (le_refl _)) (hle h (le_refl _))]

theorem ElementSite.fill_depth {site : ElementSite} {v w : Value} (h : v.depth = w.depth) :
    (site.fill v).depth = (site.fill w).depth := by
  have hle : ∀ {v w : Value} {n : Nat}, v.depth = w.depth →
      elementsDepth (site.elements v) ≤ n → elementsDepth (site.elements w) ≤ n := by
    intro v w n h hv
    rw [elementsDepth_le] at hv ⊢
    obtain ⟨hothers, helement⟩ := forall_elements.mp hv
    exact forall_elements.mpr ⟨hothers, h ▸ helement⟩
  unfold fill
  rw [Value.depth, Value.depth,
    le_antisymm (hle h.symm (le_refl _)) (hle h (le_refl _))]

end NativeGuard.Json

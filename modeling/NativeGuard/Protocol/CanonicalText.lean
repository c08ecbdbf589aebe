import NativeGuard.Protocol.Canonicalize
import NativeGuard.Protocol.OneTree

/-!
# Canonical texts

The text of a canonical tree tells the tree (`canonical_of_render`), and the
canonical tree tells the value up to the order of members and whitespace. So the
texts that `canonicalize_value` writes are equal exactly for such values
(`canonicalize_canonical_form`).
-/

namespace NativeGuard.Protocol.Inventory

open Json Json.Scan Data

/-! ## §1  Texts of canonical trees -/

theorem tidy_canonical (v : Value) : Tidy v.canonical := by
  induction v using Value.inductionOn with
  | str t => exact .str t
  | num t => exact .num t
  | lit w => exact .lit w
  | obj gap ms ih =>
      rw [canonical_obj]
      have htidy : ∀ m ∈ (sortOn keyOf ms).map canonicalMember, Tidy m.value := by
        intro m hm
        obtain ⟨x, hx, rfl⟩ := List.mem_map.mp hm
        rw [canonicalMember_eq]
        exact ih x ((mem_sortOn keyOf).mp hx)
      cases hms : (sortOn keyOf ms).map canonicalMember with
      | nil => exact .emptyObj noGap
      | cons m rest => exact .obj (hms ▸ htidy)
  | arr gap es ih =>
      rw [canonical_arr]
      have htidy : ∀ e ∈ es.map canonicalElement, Tidy e.value := by
        intro e he
        obtain ⟨x, hx, rfl⟩ := List.mem_map.mp he
        rw [canonicalElement_eq]
        exact ih x hx
      cases hes : es.map canonicalElement with
      | nil => exact .emptyArr noGap
      | cons e rest => exact .arr (hes ▸ htidy)

theorem canonical_of_render {v w : Value} (h : v.canonical.render = w.canonical.render) :
    v.canonical = w.canonical :=
  (tidy_canonical v).render_injective (tidy_canonical w) h

/-! ## §2  `canonicalize_value` -/

/-- `canonicalize_value` into an empty output, for a limit below the largest size. The
program over the offset, in `OffsetOutput`, has the depths as they are. -/
def canonicalizeValue (depth maxDepth maxBytes : Nat) : Reader InventoryError Bytes :=
  canonicalizeAt maxBytes (maxDepth + 1 - depth) []

variable {depth maxDepth maxBytes : Nat}

theorem canonicalizeValue_read {v : Value} {out : Bytes} :
    (canonicalizeValue depth maxDepth maxBytes).read v = .ok out ↔
      (depth + v.nesting ≤ maxDepth ∧ DistinctKeys v ∧
        v.canonical.render.length ≤ maxBytes) ∧ out = v.canonical.render := by
  have hwrites := canonicalizeAt_ok maxBytes (maxDepth + 1 - depth) [] v out (Nat.zero_le _)
  have hlevels : v.nesting < maxDepth + 1 - depth ↔ depth + v.nesting ≤ maxDepth := by
    omega
  unfold canonicalizeValue
  rw [hwrites, List.length_nil, Nat.zero_add, List.nil_append, Canonicalizable, hlevels,
    and_assoc, and_assoc, and_assoc]

/-- In front of a delimiter the scan and the tree agree. -/
theorem Reader.scan_ok {ε α : Type} (r : Reader ε α) {v : Value} {rest : Bytes}
    (hrest : Follow rest) {a : α} {s : Bytes} :
    r.scan (v.render ++ rest) = (.ok a, s) ↔ r.read v = .ok a ∧ s = rest := by
  have hagrees := r.agrees v rest hrest
  rcases hread : r.read v with e | b
  · rw [hread, agrees_error] at hagrees
    constructor
    · intro h
      rw [h] at hagrees
      cases hagrees
    · rintro ⟨h, -⟩
      cases h
  · rw [hread, agrees_ok] at hagrees
    rw [hagrees, Prod.mk.injEq]
    exact and_congr_right fun _ => eq_comm

/-- What is written determines the value up to the order of members and whitespace,
and is written again for itself. -/
theorem canonicalize_canonical_form
    {depth₁ maxDepth₁ maxBytes₁ depth₂ maxDepth₂ maxBytes₂ : Nat} {v₁ v₂ : Value}
    {rest₁ rest₂ out₁ out₂ s₁ s₂ : Bytes} (hrest₁ : Follow rest₁) (hrest₂ : Follow rest₂)
    (h₁ : (canonicalizeValue depth₁ maxDepth₁ maxBytes₁).scan (v₁.render ++ rest₁) =
      (.ok out₁, s₁))
    (h₂ : (canonicalizeValue depth₂ maxDepth₂ maxBytes₂).scan (v₂.render ++ rest₂) =
      (.ok out₂, s₂)) :
    (out₁ = out₂ ↔ Reordered v₁ v₂) ∧
      ∃ w : Value, out₁ = w.render ∧ Reordered v₁ w ∧
        ∀ rest, Follow rest →
          (canonicalizeValue depth₁ maxDepth₁ maxBytes₁).scan (out₁ ++ rest) =
            (.ok out₁, rest) := by
  rcases (Reader.scan_ok _ hrest₁).mp h₁ with ⟨hread₁, -⟩
  rcases (Reader.scan_ok _ hrest₂).mp h₂ with ⟨hread₂, -⟩
  rcases canonicalizeValue_read.mp hread₁ with ⟨⟨hnesting, hdistinct, hfits⟩, rfl⟩
  rcases canonicalizeValue_read.mp hread₂ with ⟨-, rfl⟩
  have hreordered : Reordered v₁ v₁.canonical :=
    Reordered.of_canonical_eq (canonical_canonical v₁).symm
  refine ⟨⟨fun h => Reordered.of_canonical_eq (canonical_of_render h),
    fun h => by rw [h.canonical_eq hdistinct]⟩, v₁.canonical, rfl, hreordered, ?_⟩
  intro rest hrest
  refine (Reader.scan_ok _ hrest).mpr ⟨canonicalizeValue_read.mpr ⟨⟨?_, ?_, ?_⟩, ?_⟩, rfl⟩
  · exact (Nat.add_le_add_left (nesting_canonical_le v₁) depth₁).trans hnesting
  · exact hreordered.distinctKeys_iff.mp hdistinct
  · rw [canonical_canonical]
    exact hfits
  · rw [canonical_canonical]

/-- Two members in both orders, in front of a comma and of the end. -/
def orderedObject : Value :=
  .obj noGap [.compact (plainString (ascii "a") (.refl true)) (.lit .true),
    .compact (plainString (ascii "b") (.refl true)) (.lit .null)]

def swappedObject : Value :=
  .obj noGap [.compact (plainString (ascii "b") (.refl true)) (.lit .null),
    .compact (plainString (ascii "a") (.refl true)) (.lit .true)]

theorem canonicalize_canonical_form_example :
    (orderedObject.render = orderedObject.render ↔ Reordered orderedObject swappedObject) ∧
      ∃ w : Value, orderedObject.render = w.render ∧ Reordered orderedObject w ∧
        ∀ rest, Follow rest →
          (canonicalizeValue 0 64 100).scan (orderedObject.render ++ rest) =
            (.ok orderedObject.render, rest) := by
  obtain ⟨hordered, hswapped⟩ :
      (canonicalizeValue 0 64 100).scan (orderedObject.render ++ [0x2C]) =
          (.ok orderedObject.render, [0x2C]) ∧
        (canonicalizeValue 1 8 20).scan (swappedObject.render ++ []) =
          (.ok orderedObject.render, []) := by
    decide +kernel
  exact canonicalize_canonical_form (follow_cons.mpr (by decide)) follow_nil hordered hswapped

end NativeGuard.Protocol.Inventory

import Mathlib.Data.Finset.Dedup
import Mathlib.Data.List.GetD
import NativeGuard.Data.Slots
import NativeGuard.Protocol.Envelope

/-!
# Pending tools/list requests (`src/tool_call_filter.cpp`)

`add_pending` and `remove_pending` on the slots of the pending array and the
hand-kept byte counter, which is a 64-bit word. `Valid` is what the two keep:
the ids in use form a bounded set (`idSet`), and the counter is exactly the sum
of their lengths, so none of the subtractions wraps.
-/

namespace NativeGuard.Protocol

open Json Data

/-- `ToolCallFilter::Config`. -/
structure FilterConfig where
  runtime : RuntimeLimits := {}
  maxPendingIdBytes : UInt64 := 4096
  maxPendingTotalIdBytes : UInt64 := 16 * 1024

inductive PendingStatus where
  | added
  | duplicate
  | capacityExhausted
deriving DecidableEq, Repr

structure PendingTable where
  slots : Slots Bytes
  idBytes : UInt64 := 0

namespace PendingTable

def empty (config : FilterConfig) : PendingTable where
  slots := Slots.empty [] config.runtime.maxPendingToolsList

/-- The ids in use. -/
def ids (t : PendingTable) : List Bytes := t.slots.live

/-- `add_pending`. -/
def add (config : FilterConfig) (t : PendingTable) (idJson : Bytes) :
    PendingStatus × PendingTable :=
  if idJson ∈ t.ids then (.duplicate, t)
  else if h : idJson = [] ∨ idJson.length > config.maxPendingIdBytes.toNat ∨
      t.slots.count ≥ t.slots.slots.length ∨
      t.idBytes > config.maxPendingTotalIdBytes ∨
      idJson.length > (config.maxPendingTotalIdBytes - t.idBytes).toNat then
    (.capacityExhausted, t)
  else
    (.added,
      { slots := t.slots.push idJson (by simp only [not_or] at h; omega)
        idBytes := t.idBytes + UInt64.ofNat idJson.length })

/-- `remove_pending`. -/
def remove (t : PendingTable) (idJson : Bytes) : Bool × PendingTable :=
  match t.ids.idxOf? idJson with
  | none => (false, t)
  | some index =>
      (true,
        { slots := t.slots.swapRemove [] index
          idBytes := t.idBytes - UInt64.ofNat (t.ids.getD index []).length })

/-- `connection_closed`. -/
def clear (t : PendingTable) : PendingTable where
  slots := t.slots.clear []

/-! ## §1  What the operations do to the ids -/

theorem add_status_cases (config : FilterConfig) (t : PendingTable)
    (idJson : Bytes) :
    (t.add config idJson = (.duplicate, t) ∧ idJson ∈ t.ids) ∨
      t.add config idJson = (.capacityExhausted, t) ∨
      ∃ t', t.add config idJson = (.added, t') ∧ idJson ∉ t.ids ∧ idJson ≠ [] ∧
        idJson.length ≤ config.maxPendingIdBytes.toNat ∧
        t.slots.count < t.slots.capacity ∧
        t.idBytes ≤ config.maxPendingTotalIdBytes ∧
        idJson.length ≤ (config.maxPendingTotalIdBytes - t.idBytes).toNat ∧
        t'.ids = t.ids ++ [idJson] ∧ t'.slots.capacity = t.slots.capacity ∧
        t'.idBytes = t.idBytes + UInt64.ofNat idJson.length := by
  unfold add
  by_cases hdup : idJson ∈ t.ids
  · rw [if_pos hdup]
    exact Or.inl ⟨rfl, hdup⟩
  rw [if_neg hdup]
  split
  · exact Or.inr (Or.inl rfl)
  · rename_i hroom
    simp only [not_or, not_lt, ge_iff_le, not_le, gt_iff_lt] at hroom
    obtain ⟨hne, hid, hcount, hbytes, htotal⟩ := hroom
    exact Or.inr (Or.inr ⟨_, rfl, hdup, hne, hid, hcount, UInt64.not_lt.mp hbytes, htotal,
      t.slots.live_push idJson hcount, t.slots.capacity_push idJson hcount, rfl⟩)

theorem mem_of_duplicate {config : FilterConfig} {t : PendingTable} {idJson : Bytes}
    (h : (t.add config idJson).1 = .duplicate) : idJson ∈ t.ids := by
  rcases t.add_status_cases config idJson with ⟨-, hmem⟩ | heq | ⟨t', heq, -⟩
  · exact hmem
  · rw [heq] at h
    cases h
  · rw [heq] at h
    cases h

theorem remove_of_not_mem {t : PendingTable} {idJson : Bytes}
    (h : idJson ∉ t.ids) : t.remove idJson = (false, t) := by
  unfold remove
  rw [List.idxOf?_eq_none_iff.mpr h]

theorem remove_of_mem {t : PendingTable} {idJson : Bytes} (h : idJson ∈ t.ids) :
    ∃ t', t.remove idJson = (true, t') ∧ t.ids.Perm (idJson :: t'.ids) ∧
      t'.slots.capacity = t.slots.capacity ∧
      t'.idBytes = t.idBytes - UInt64.ofNat idJson.length := by
  cases hindex : t.ids.idxOf? idJson with
  | none => exact absurd h (List.idxOf?_eq_none_iff.mp hindex)
  | some index =>
      obtain ⟨hlt, hget, -⟩ := List.findIdx?_eq_some_iff_getElem.mp hindex
      have hid : t.ids[index] = idJson := by simpa using hget
      have hgetD : t.ids.getD index [] = idJson := by
        rw [List.getD_eq_getElem _ _ hlt, hid]
      unfold remove
      rw [hindex]
      refine ⟨_, rfl, ?_, t.slots.capacity_swapRemove [] index, by rw [hgetD]⟩
      have hperm := t.slots.live_swapRemove [] hlt
      change t.ids.Perm (t.ids[index] :: _) at hperm
      rw [hid] at hperm
      exact hperm

/-! ## §2  The invariant -/

def totalLength (ids : List Bytes) : Nat := (ids.map List.length).sum

/-- The table is a bounded set of ids with an exact byte count. -/
structure Valid (config : FilterConfig) (t : PendingTable) : Prop where
  capacity : t.slots.capacity = config.runtime.maxPendingToolsList
  nodup : t.ids.Nodup
  nonempty : ∀ idJson ∈ t.ids, idJson ≠ []
  idLength : ∀ idJson ∈ t.ids, idJson.length ≤ config.maxPendingIdBytes.toNat
  bytes : t.idBytes.toNat = totalLength t.ids
  total : t.idBytes ≤ config.maxPendingTotalIdBytes

namespace Valid

variable {config : FilterConfig} {t : PendingTable}

theorem count_le (h : t.Valid config) :
    t.slots.count ≤ config.runtime.maxPendingToolsList := by
  rw [← h.capacity]
  exact t.slots.fits

/-- Every id is covered by the counter, so removing it cannot wrap. -/
theorem length_le_bytes (h : t.Valid config) {idJson : Bytes}
    (hid : idJson ∈ t.ids) : idJson.length ≤ t.idBytes.toNat := by
  rw [h.bytes]
  exact List.le_sum_of_mem (List.mem_map_of_mem hid)

theorem empty (config : FilterConfig) : (PendingTable.empty config).Valid config := by
  have hids : (PendingTable.empty config).ids = [] := Slots.live_empty _ _
  refine ⟨Slots.capacity_empty _ _, ?_, ?_, ?_, ?_, ?_⟩
  · rw [hids]
    exact List.nodup_nil
  · simp [hids]
  · simp [hids]
  · rw [hids]
    rfl
  · exact UInt64.le_iff_toNat_le.mpr (Nat.zero_le _)

theorem add (h : t.Valid config) (idJson : Bytes) :
    (t.add config idJson).2.Valid config := by
  rcases t.add_status_cases config idJson with
    ⟨heq, -⟩ | heq | ⟨t', heq, hnew, hne, hid, -, -, htotal, hids, hcap, hbytes⟩
  · rw [heq]
    exact h
  · rw [heq]
    exact h
  rw [heq]
  have hle : t.idBytes.toNat ≤ config.maxPendingTotalIdBytes.toNat :=
    UInt64.le_iff_toNat_le.mp h.total
  rw [UInt64.toNat_sub_of_le _ _ h.total] at htotal
  have hlimit := config.maxPendingTotalIdBytes.toNat_lt
  -- the guard keeps the sum below the limit, so the addition does not wrap
  have hsum : t'.idBytes.toNat = t.idBytes.toNat + idJson.length := by
    have hlen : (UInt64.ofNat idJson.length).toNat = idJson.length :=
      UInt64.toNat_ofNat_of_lt' (show _ < 2 ^ 64 by omega)
    rw [hbytes, UInt64.toNat_add, hlen]
    omega
  refine ⟨hcap.trans h.capacity, ?_, ?_, ?_, ?_, ?_⟩
  · rw [hids]
    exact List.nodup_append.mpr ⟨h.nodup, List.nodup_singleton _, by
      intro a ha b hb hab
      rw [List.mem_singleton] at hb
      exact hnew (hb ▸ hab ▸ ha)⟩
  · intro x hx
    rw [hids, List.mem_append, List.mem_singleton] at hx
    rcases hx with hx | rfl
    · exact h.nonempty x hx
    · exact hne
  · intro x hx
    rw [hids, List.mem_append, List.mem_singleton] at hx
    rcases hx with hx | rfl
    · exact h.idLength x hx
    · exact hid
  · rw [hsum, h.bytes, hids]
    simp [totalLength]
  · rw [UInt64.le_iff_toNat_le, hsum]
    omega

theorem remove (h : t.Valid config) (idJson : Bytes) :
    (t.remove idJson).2.Valid config := by
  by_cases hmem : idJson ∈ t.ids
  · obtain ⟨t', heq, hperm, hcap, hbytes⟩ := remove_of_mem hmem
    rw [heq]
    show t'.Valid config
    have hcover := h.length_le_bytes hmem
    have hlt := t.idBytes.toNat_lt
    have hlen : (UInt64.ofNat idJson.length).toNat = idJson.length :=
      UInt64.toNat_ofNat_of_lt' (show _ < 2 ^ 64 by omega)
    have hle : UInt64.ofNat idJson.length ≤ t.idBytes := by
      rw [UInt64.le_iff_toNat_le, hlen]
      exact hcover
    have hsub : t'.idBytes.toNat = t.idBytes.toNat - idJson.length := by
      rw [hbytes, UInt64.toNat_sub_of_le _ _ hle, hlen]
    have hsub' : ∀ x ∈ t'.ids, x ∈ t.ids := by
      intro x hx
      exact hperm.mem_iff.mpr (List.mem_cons_of_mem _ hx)
    refine ⟨hcap.trans h.capacity, ?_, ?_, ?_, ?_, ?_⟩
    · exact (List.nodup_cons.mp (hperm.nodup_iff.mp h.nodup)).2
    · exact fun x hx => h.nonempty x (hsub' x hx)
    · exact fun x hx => h.idLength x (hsub' x hx)
    · have hsum := (hperm.map List.length).sum_eq
      rw [List.map_cons, List.sum_cons] at hsum
      have hbytes' := h.bytes
      unfold totalLength at hbytes' ⊢
      omega
    · have htotal := UInt64.le_iff_toNat_le.mp h.total
      rw [UInt64.le_iff_toNat_le]
      omega
  · rw [remove_of_not_mem hmem]
    exact h

theorem clear (h : t.Valid config) : t.clear.Valid config := by
  have hids : t.clear.ids = [] := Slots.live_clear _ _
  refine ⟨(Slots.capacity_clear _ _).trans h.capacity, ?_, ?_, ?_, ?_, ?_⟩
  · rw [hids]
    exact List.nodup_nil
  · simp [hids]
  · simp [hids]
  · rw [hids]
    rfl
  · exact UInt64.le_iff_toNat_le.mpr (Nat.zero_le _)

end Valid

/-! ## §3  The set of ids -/

/-- The set that the table stands for. -/
def idSet (t : PendingTable) : Finset Bytes := t.ids.toFinset

@[simp] theorem mem_idSet {t : PendingTable} {idJson : Bytes} :
    idJson ∈ t.idSet ↔ idJson ∈ t.ids := List.mem_toFinset

theorem idSet_empty (config : FilterConfig) : (empty config).idSet = ∅ := by
  unfold idSet ids empty
  rw [Slots.live_empty]
  rfl

theorem idSet_clear (t : PendingTable) : t.clear.idSet = ∅ := by
  unfold idSet ids clear
  rw [Slots.live_clear]
  rfl

theorem idSet_add {config : FilterConfig} {t : PendingTable} {idJson : Bytes} :
    (t.add config idJson).2.idSet =
      if (t.add config idJson).1 = .added then insert idJson t.idSet else t.idSet := by
  rcases t.add_status_cases config idJson with
    ⟨heq, -⟩ | heq | ⟨t', heq, -, -, -, -, -, -, hids, -⟩
  · rw [heq]
    rfl
  · rw [heq]
    rfl
  · rw [heq, if_pos rfl]
    ext x
    simp [hids, or_comm]

theorem idSet_remove {config : FilterConfig} {t : PendingTable}
    (h : t.Valid config) (idJson : Bytes) :
    (t.remove idJson).2.idSet = t.idSet.erase idJson := by
  by_cases hmem : idJson ∈ t.ids
  · obtain ⟨t', heq, hperm, -⟩ := remove_of_mem hmem
    have hnodup := List.nodup_cons.mp (hperm.nodup_iff.mp h.nodup)
    rw [heq]
    ext x
    rw [mem_idSet, Finset.mem_erase, mem_idSet, hperm.mem_iff, List.mem_cons]
    constructor
    · intro hx
      refine ⟨?_, Or.inr hx⟩
      rintro rfl
      exact hnodup.1 hx
    · rintro ⟨hne, hx⟩
      exact hx.resolve_left hne
  · rw [remove_of_not_mem hmem, Finset.erase_eq_of_notMem]
    simpa using hmem

theorem remove_fst {t : PendingTable} {idJson : Bytes} :
    (t.remove idJson).1 = true ↔ idJson ∈ t.ids := by
  by_cases hmem : idJson ∈ t.ids
  · obtain ⟨t', heq, -⟩ := remove_of_mem hmem
    simp [heq, hmem]
  · simp [remove_of_not_mem hmem, hmem]

end PendingTable

end NativeGuard.Protocol

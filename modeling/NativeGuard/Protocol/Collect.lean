import NativeGuard.Protocol.Readers

/-!
# Loops that collect

Several loops put what they read behind what they have, as long as there is room
and the key of the new item is not there yet. `Collects` says this of one turn,
and `Collects.foldlM_ok` of a whole run.
-/

namespace NativeGuard.Protocol

open Json Json.Scan

variable {σ ε α β κ : Type}

/-- One turn: `x` passes its check, there is room, and its item is new. -/
def Collects (room : Nat → Prop) (ok : α → Prop) (item : α → β) (key : β → κ)
    (step : List β → α → Except ε (List β)) : Prop :=
  ∀ items x items', step items x = .ok items' ↔
    room items.length ∧ ok x ∧ key (item x) ∉ items.map key ∧ items' = items ++ [item x]

namespace Collects

variable {room : Nat → Prop} {ok : α → Prop} {item : α → β} {key : β → κ}
  {step : List β → α → Except ε (List β)}

theorem foldlM_ok (h : Collects room ok item key step) {xs : List α} {items items' : List β}
    (hitems : (items.map key).Nodup) :
    xs.foldlM step items = .ok items' ↔
      (∀ n < xs.length, room (items.length + n)) ∧ (∀ x ∈ xs, ok x) ∧
        ((items ++ xs.map item).map key).Nodup ∧ items' = items ++ xs.map item := by
  induction xs generalizing items with
  | nil => simp [hitems, pure, Except.pure, eq_comm]
  | cons x xs ih =>
      have hassoc : items ++ [item x] ++ xs.map item = items ++ (x :: xs).map item := by
        simp
      have hroom : (∀ n < (x :: xs).length, room (items.length + n)) ↔
          room items.length ∧ ∀ n < xs.length, room ((items ++ [item x]).length + n) := by
        rw [List.length_append, List.length_singleton, List.length_cons]
        constructor
        · intro hall
          refine ⟨hall 0 (Nat.zero_lt_succ _), fun n hn => ?_⟩
          rw [Nat.add_assoc, Nat.add_comm 1 n]
          exact hall (n + 1) (Nat.succ_lt_succ hn)
        · rintro ⟨hhead, hrest⟩ n hn
          rcases n with _ | n
          · exact hhead
          · have hn' := hrest n (Nat.lt_of_succ_lt_succ hn)
            rwa [Nat.add_assoc, Nat.add_comm 1 n] at hn'
      have hnew : ∀ {b : β}, key b ∉ items.map key → ((items ++ [b]).map key).Nodup := by
        intro b hb
        rw [List.map_append, List.map_singleton, List.nodup_append]
        refine ⟨hitems, List.nodup_singleton _, ?_⟩
        rintro k hk k' hk' rfl
        rw [List.mem_singleton.mp hk'] at hk
        exact hb hk
      rw [List.foldlM_cons, except_bind_ok, hroom, List.forall_mem_cons]
      constructor
      · rintro ⟨next, hnext, hrun⟩
        rcases (h _ _ _).mp hnext with ⟨hhead, hok, hkey, rfl⟩
        rcases (ih (hnew hkey)).mp hrun with ⟨hrest, hall, hnodup, rfl⟩
        rw [hassoc] at hnodup ⊢
        exact ⟨⟨hhead, hrest⟩, ⟨hok, hall⟩, hnodup, rfl⟩
      · rintro ⟨⟨hhead, hrest⟩, ⟨hok, hall⟩, hnodup, rfl⟩
        have hkey : key (item x) ∉ items.map key := by
          intro hmem
          rw [List.map_append] at hnodup
          exact List.disjoint_of_nodup_append hnodup hmem List.mem_cons_self
        refine ⟨_, (h _ _ _).mpr ⟨hhead, hok, hkey, rfl⟩, (ih (hnew hkey)).mpr ?_⟩
        rw [hassoc]
        exact ⟨hrest, hall, hnodup, rfl⟩

/-- A run from the empty list. -/
theorem foldlM_nil_ok (h : Collects room ok item key step) {xs : List α} {items : List β} :
    xs.foldlM step [] = .ok items ↔
      (∀ n < xs.length, room n) ∧ (∀ x ∈ xs, ok x) ∧ ((xs.map item).map key).Nodup ∧
        items = xs.map item := by
  have hrun := @foldlM_ok ε α β κ room ok item key step h xs [] items List.nodup_nil
  simp only [List.length_nil, Nat.zero_add, List.nil_append] at hrun
  exact hrun

end Collects

/-- Room for `count` items. -/
theorem forall_lt_iff_le {length count : Nat} :
    (∀ n < length, n < count) ↔ length ≤ count := by
  constructor
  · intro h
    by_contra hlt
    exact absurd (h count (Nat.lt_of_not_le hlt)) (Nat.lt_irrefl count)
  · intro h n hn
    exact Nat.lt_of_lt_of_le hn h

/-- The turn of a loop over an array that has a limit and wants new items. -/
theorem collects_capped {r : Reader ε β} {full duplicate : ε} {count : Nat}
    {ok : Value → Prop} {item : Value → β} {key : β → κ}
    {known : List β → β → Prop} [∀ items b, Decidable (known items b)]
    (hr : ∀ v b, r.read v = .ok b ↔ ok v ∧ b = item v)
    (hknown : ∀ items b, known items b ↔ key b ∈ items.map key) :
    Collects (fun n => n < count) (fun e : Element Value => ok e.value)
      (fun e => item e.value) key fun items e =>
        (if items.length ≥ count then Reader.fail full
          else r.check fun b => if known items b then .error duplicate
            else .ok (items ++ [b])).read e.value := by
  intro items e items'
  dsimp only
  by_cases hfull : items.length ≥ count
  · rw [if_pos hfull]
    exact iff_of_false nofun fun h => absurd h.1 (not_lt.mpr hfull)
  rw [if_neg hfull]
  have hcheck : (r.check fun b => if known items b then .error duplicate
      else .ok (items ++ [b])).read e.value = r.read e.value >>= fun b =>
        if known items b then .error duplicate else .ok (items ++ [b]) := rfl
  rw [hcheck, except_bind_ok]
  constructor
  · rintro ⟨b, hb, h⟩
    obtain ⟨hok, rfl⟩ := (hr _ _).mp hb
    split at h
    · cases h
    · rename_i hnew
      cases h
      exact ⟨not_le.mp hfull, hok, fun hmem => hnew ((hknown _ _).mpr hmem), rfl⟩
  · rintro ⟨-, hok, hnew, rfl⟩
    exact ⟨_, (hr _ _).mpr ⟨hok, rfl⟩, if_neg fun hmem => hnew ((hknown _ _).mp hmem)⟩

theorem ObjectReader.members_eq (R : ObjectReader σ ε) (st : σ) (ms : List (Member Value)) :
    R.members st ms = ms.foldlM (fun st m => do
      R.checkKey st (tokenOf m.key.val)
      (R.member st (tokenOf m.key.val)).read m.value) st := by
  induction ms generalizing st with
  | nil => rfl
  | cons m ms ih =>
      rw [ObjectReader.members, List.foldlM_cons, bind_assoc]
      simp only [ih]

theorem ArrayReader.elements_eq (R : ArrayReader σ ε) (st : σ) (es : List (Element Value)) :
    R.elements st es = es.foldlM (fun st e => (R.element st).read e.value) st := by
  induction es generalizing st with
  | nil => rfl
  | cons e es ih =>
      rw [ArrayReader.elements, List.foldlM_cons]
      simp only [ih]

end NativeGuard.Protocol

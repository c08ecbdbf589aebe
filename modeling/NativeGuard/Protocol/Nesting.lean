import NativeGuard.Protocol.Loops

/-!
# The nesting pre-scan (`exceeds_nesting`)

The policy loader and the policy generator first scan the whole text for
brackets outside strings, each with its own copy of the loop. On a well-formed
text the scan measures the depth of the tree (`exceedsNesting_text`).
-/

namespace NativeGuard.Protocol

open Json Json.Scan

variable (maxDepth : Nat)

/-- The loop, fuelled by the bytes left. A string that does not scan ends it. -/
def exceedsFrom : Nat → Nat → Bytes → Bool
  | 0, _, _ => false
  | _ + 1, _, [] => false
  | fuel + 1, depth, b :: s =>
      if b = 0x22 then
        match scanString (b :: s) with
        | (.ok _, rest) => exceedsFrom fuel depth rest
        | (.error _, _) => false
      else if b = 0x7B ∨ b = 0x5B then
        if depth + 1 > maxDepth then true else exceedsFrom fuel (depth + 1) s
      else if (b = 0x7D ∨ b = 0x5D) ∧ depth > 0 then exceedsFrom fuel (depth - 1) s
      else exceedsFrom fuel depth s

def exceedsNesting (json : Bytes) (maxDepth : Nat) : Bool :=
  exceedsFrom maxDepth (json.length + 1) 0 json

/-! ## §1  One step at a time -/

/-- Fuel above the length of the text does not matter. -/
theorem exceedsFrom_fuel : ∀ (fuel fuel' depth : Nat) (s : Bytes),
    s.length < fuel → s.length < fuel' →
      exceedsFrom maxDepth fuel depth s = exceedsFrom maxDepth fuel' depth s := by
  intro fuel
  induction fuel with
  | zero =>
      intro fuel' depth s h
      omega
  | succ fuel ih =>
      intro fuel' depth s h h'
      obtain ⟨fuel', rfl⟩ : ∃ n, fuel' = n + 1 := ⟨fuel' - 1, by omega⟩
      cases s with
      | nil => rfl
      | cons b s =>
          simp only [List.length_cons] at h h'
          have hrec : ∀ depth, exceedsFrom maxDepth fuel depth s =
              exceedsFrom maxDepth fuel' depth s :=
            fun depth => ih fuel' depth s (by omega) (by omega)
          unfold exceedsFrom
          split
          · cases hscan : scanString (b :: s) with
            | mk r rest =>
                cases r with
                | error e => rfl
                | ok token =>
                    obtain ⟨t, ht, -⟩ := scanString_sound hscan
                    have hlen : rest.length < s.length := by
                      have hs := congrArg List.length ht
                      simp only [List.length_cons, List.length_append] at hs
                      omega
                    exact ih fuel' depth rest (by omega) (by omega)
          · simp only [hrec]

/-- The scan from a text that is left at some depth. -/
def exceedsAt (depth : Nat) (s : Bytes) : Bool :=
  exceedsFrom maxDepth (s.length + 1) depth s

theorem exceedsAt_nil (depth : Nat) : exceedsAt maxDepth depth [] = false := rfl

theorem exceedsAt_string (depth : Nat) (t : StringText) (rest : Bytes) :
    exceedsAt maxDepth depth (0x22 :: (t.val ++ 0x22 :: rest)) =
      exceedsAt maxDepth depth rest := by
  unfold exceedsAt
  rw [exceedsFrom, if_pos rfl, scanString_text]
  apply exceedsFrom_fuel
  · simp only [List.length_append, List.length_cons]
    omega
  · omega

theorem exceedsAt_open (depth : Nat) {b : UInt8} (hb : b = 0x7B ∨ b = 0x5B)
    (s : Bytes) : exceedsAt maxDepth depth (b :: s) =
      (decide (maxDepth < depth + 1) || exceedsAt maxDepth (depth + 1) s) := by
  have hquote : b ≠ 0x22 := by
    rintro rfl
    exact absurd hb (by decide)
  unfold exceedsAt
  rw [exceedsFrom, if_neg hquote, if_pos hb]
  by_cases hdepth : depth + 1 > maxDepth
  · rw [if_pos hdepth]
    simp [hdepth]
  · rw [if_neg hdepth]
    simp [hdepth]

theorem exceedsAt_close (depth : Nat) {b : UInt8} (hb : b = 0x7D ∨ b = 0x5D)
    (s : Bytes) : exceedsAt maxDepth (depth + 1) (b :: s) = exceedsAt maxDepth depth s := by
  have hother : b ≠ 0x22 ∧ ¬ (b = 0x7B ∨ b = 0x5B) := by
    rcases hb with rfl | rfl <;> decide
  unfold exceedsAt
  rw [exceedsFrom, if_neg hother.1, if_neg hother.2, if_pos ⟨hb, by omega⟩]
  rfl

theorem exceedsAt_neutral (depth : Nat) {w : Bytes} (hw : ∀ b ∈ w, isNeutral b = true)
    (s : Bytes) : exceedsAt maxDepth depth (w ++ s) = exceedsAt maxDepth depth s := by
  induction w with
  | nil => rfl
  | cons b w ih =>
      have hb := hw b List.mem_cons_self
      simp only [isNeutral, Bool.and_eq_true, decide_eq_true_eq] at hb
      obtain ⟨⟨⟨⟨hquote, hbrace⟩, hbracket⟩, hclose⟩, hclose'⟩ := hb
      rw [← ih fun c hc => hw c (List.mem_cons_of_mem b hc)]
      unfold exceedsAt
      rw [List.cons_append, exceedsFrom, if_neg hquote, if_neg (by tauto),
        if_neg (by tauto)]
      rfl

/-! ## §2  The scan over a tree -/

theorem or_decide_max (n a b : Nat) (p : Bool) :
    (decide (n < a) || (decide (n < b) || p)) = (decide (n < max a b) || p) := by
  have hiff : n < max a b ↔ n < a ∨ n < b := lt_max_iff
  rw [← Bool.or_assoc, Bool.decide_congr hiff, Bool.decide_or]

variable {maxDepth}

theorem exceedsAt_member {depth : Nat} {m : Member Value}
    (ih : ∀ rest, exceedsAt maxDepth depth (m.value.render ++ rest) =
      (decide (maxDepth < depth + m.value.depth) || exceedsAt maxDepth depth rest))
    (rest : Bytes) :
    exceedsAt maxDepth depth (renderMember m ++ rest) =
      (decide (maxDepth < depth + m.value.depth) || exceedsAt maxDepth depth rest) := by
  have hbytes : renderMember m ++ rest = m.lead.val ++ (0x22 :: (m.key.val ++ 0x22 ::
      (m.preColon.val ++ ([0x3A] ++ (m.postColon.val ++ (m.value.render ++
        (m.trail.val ++ rest))))))) := by
    simp [renderMember_eq]
  rw [hbytes, exceedsAt_neutral maxDepth depth (neutral_gap m.lead),
    exceedsAt_string, exceedsAt_neutral maxDepth depth (neutral_gap m.preColon),
    exceedsAt_neutral maxDepth depth (List.forall_mem_singleton.mpr rfl),
    exceedsAt_neutral maxDepth depth (neutral_gap m.postColon), ih,
    exceedsAt_neutral maxDepth depth (neutral_gap m.trail)]

theorem exceedsAt_openMembers {depth : Nat} {ms : List (Member Value)}
    (ih : ∀ m ∈ ms, ∀ rest, exceedsAt maxDepth depth (m.value.render ++ rest) =
      (decide (maxDepth < depth + m.value.depth) || exceedsAt maxDepth depth rest))
    (hdepth : depth ≤ maxDepth) (rest : Bytes) :
    exceedsAt maxDepth depth (openMembers ms ++ rest) =
      (decide (maxDepth < depth + membersDepth ms) || exceedsAt maxDepth depth rest) := by
  induction ms with
  | nil =>
      rw [openMembers, membersDepth]
      simp [hdepth]
  | cons m ms ihs =>
      have hbytes : openMembers (m :: ms) ++ rest =
          [0x2C] ++ (renderMember m ++ (openMembers ms ++ rest)) := by
        simp [openMembers]
      rw [hbytes, exceedsAt_neutral maxDepth _ (List.forall_mem_singleton.mpr rfl),
        exceedsAt_member (ih m List.mem_cons_self),
        ihs fun x hx => ih x (List.mem_cons_of_mem m hx), or_decide_max,
        membersDepth, memberDepth_eq, Nat.add_max_add_left]

theorem exceedsAt_members {depth : Nat} {ms : List (Member Value)}
    (ih : ∀ m ∈ ms, ∀ rest, exceedsAt maxDepth (depth + 1) (m.value.render ++ rest) =
      (decide (maxDepth < depth + 1 + m.value.depth) ||
        exceedsAt maxDepth (depth + 1) rest)) (hdepth : depth + 1 ≤ maxDepth)
    (rest : Bytes) :
    exceedsAt maxDepth (depth + 1) (renderMembers ms ++ rest) =
      (decide (maxDepth < depth + 1 + membersDepth ms) ||
        exceedsAt maxDepth depth rest) := by
  have hbytes : renderMembers ms ++ rest = openMembers ms ++ (0x7D :: rest) := by
    rw [renderMembers_open, List.append_assoc, List.singleton_append]
  rw [hbytes, exceedsAt_openMembers ih hdepth, exceedsAt_close _ _ (Or.inl rfl)]

theorem exceedsAt_element {depth : Nat} {e : Element Value}
    (ih : ∀ rest, exceedsAt maxDepth depth (e.value.render ++ rest) =
      (decide (maxDepth < depth + e.value.depth) || exceedsAt maxDepth depth rest))
    (rest : Bytes) :
    exceedsAt maxDepth depth (renderElement e ++ rest) =
      (decide (maxDepth < depth + e.value.depth) || exceedsAt maxDepth depth rest) := by
  have hbytes : renderElement e ++ rest =
      e.lead.val ++ (e.value.render ++ (e.trail.val ++ rest)) := by
    simp [renderElement_eq]
  rw [hbytes, exceedsAt_neutral maxDepth depth (neutral_gap e.lead), ih,
    exceedsAt_neutral maxDepth depth (neutral_gap e.trail)]

theorem exceedsAt_elements {depth : Nat} {es : List (Element Value)}
    (ih : ∀ e ∈ es, ∀ rest, exceedsAt maxDepth (depth + 1) (e.value.render ++ rest) =
      (decide (maxDepth < depth + 1 + e.value.depth) ||
        exceedsAt maxDepth (depth + 1) rest)) (hdepth : depth + 1 ≤ maxDepth)
    (rest : Bytes) :
    exceedsAt maxDepth (depth + 1) (renderElements es ++ rest) =
      (decide (maxDepth < depth + 1 + elementsDepth es) ||
        exceedsAt maxDepth depth rest) := by
  induction es with
  | nil =>
      have hle : ¬ maxDepth < depth + 1 + 0 := by omega
      rw [renderElements, List.singleton_append, exceedsAt_close _ _ (Or.inr rfl),
        elementsDepth]
      simp [hle]
  | cons e es ihs =>
      have hbytes : renderElements (e :: es) ++ rest =
          [0x2C] ++ (renderElement e ++ (renderElements es ++ rest)) := by
        simp [renderElements]
      rw [hbytes, exceedsAt_neutral maxDepth _ (List.forall_mem_singleton.mpr rfl),
        exceedsAt_element (ih e List.mem_cons_self),
        ihs fun x hx => ih x (List.mem_cons_of_mem e hx), or_decide_max,
        elementsDepth, elementDepth_eq, Nat.add_max_add_left]

/-- Over an object the scan exceeds the limit exactly if the brace or a member does. -/
theorem exceedsAt_object {depth : Nat} {ms : List (Member Value)} (gap : Gap)
    (ih : depth + 1 ≤ maxDepth → ∀ m ∈ ms, ∀ rest,
      exceedsAt maxDepth (depth + 1) (m.value.render ++ rest) =
        (decide (maxDepth < depth + 1 + m.value.depth) ||
          exceedsAt maxDepth (depth + 1) rest)) (rest : Bytes) :
    exceedsAt maxDepth depth ((Value.obj gap ms).render ++ rest) =
      (decide (maxDepth < depth + (Value.obj gap ms).depth) ||
        exceedsAt maxDepth depth rest) := by
  have hsum : depth + (Value.obj gap ms).depth = depth + 1 + membersDepth ms := by
    rw [Value.depth]
    omega
  rw [hsum]
  by_cases hopen : maxDepth < depth + 1
  · have hover : maxDepth < depth + 1 + membersDepth ms := by omega
    obtain ⟨s, hs⟩ : ∃ s, (Value.obj gap ms).render ++ rest = 0x7B :: s := by
      cases ms <;> exact ⟨_, rfl⟩
    rw [hs, exceedsAt_open _ _ (Or.inl rfl)]
    simp [hopen, hover]
  · have hmembers := ih (by omega)
    cases ms with
    | nil =>
        have hbytes : (Value.obj gap []).render ++ rest =
            0x7B :: (gap.val ++ 0x7D :: rest) := by
          simp [Value.render]
        rw [hbytes, exceedsAt_open _ _ (Or.inl rfl), exceedsAt_neutral _ _ (neutral_gap gap),
          exceedsAt_close _ _ (Or.inl rfl)]
        simp [hopen, membersDepth]
    | cons m ms =>
        have hbytes : (Value.obj gap (m :: ms)).render ++ rest =
            0x7B :: (renderMember m ++ (renderMembers ms ++ rest)) := by
          simp [Value.render]
        rw [hbytes, exceedsAt_open _ _ (Or.inl rfl), decide_eq_false hopen,
          Bool.false_or, exceedsAt_member (hmembers m List.mem_cons_self),
          exceedsAt_members (fun x hx => hmembers x (List.mem_cons_of_mem m hx))
            (by omega), or_decide_max, membersDepth, memberDepth_eq,
          Nat.add_max_add_left]

/-- Over an array the scan exceeds the limit exactly if the bracket or an element does. -/
theorem exceedsAt_array {depth : Nat} {es : List (Element Value)} (gap : Gap)
    (ih : depth + 1 ≤ maxDepth → ∀ e ∈ es, ∀ rest,
      exceedsAt maxDepth (depth + 1) (e.value.render ++ rest) =
        (decide (maxDepth < depth + 1 + e.value.depth) ||
          exceedsAt maxDepth (depth + 1) rest)) (rest : Bytes) :
    exceedsAt maxDepth depth ((Value.arr gap es).render ++ rest) =
      (decide (maxDepth < depth + (Value.arr gap es).depth) ||
        exceedsAt maxDepth depth rest) := by
  have hsum : depth + (Value.arr gap es).depth = depth + 1 + elementsDepth es := by
    rw [Value.depth]
    omega
  rw [hsum]
  by_cases hopen : maxDepth < depth + 1
  · have hover : maxDepth < depth + 1 + elementsDepth es := by omega
    obtain ⟨s, hs⟩ : ∃ s, (Value.arr gap es).render ++ rest = 0x5B :: s := by
      cases es <;> exact ⟨_, rfl⟩
    rw [hs, exceedsAt_open _ _ (Or.inr rfl)]
    simp [hopen, hover]
  · have helements := ih (by omega)
    cases es with
    | nil =>
        have hbytes : (Value.arr gap []).render ++ rest =
            0x5B :: (gap.val ++ 0x5D :: rest) := by
          simp [Value.render]
        rw [hbytes, exceedsAt_open _ _ (Or.inr rfl), exceedsAt_neutral _ _ (neutral_gap gap),
          exceedsAt_close _ _ (Or.inr rfl)]
        simp [hopen, elementsDepth]
    | cons e es =>
        have hbytes : (Value.arr gap (e :: es)).render ++ rest =
            0x5B :: (renderElement e ++ (renderElements es ++ rest)) := by
          simp [Value.render]
        rw [hbytes, exceedsAt_open _ _ (Or.inr rfl), decide_eq_false hopen,
          Bool.false_or, exceedsAt_element (helements e List.mem_cons_self),
          exceedsAt_elements (fun x hx => helements x (List.mem_cons_of_mem e hx))
            (by omega), or_decide_max, elementsDepth, elementDepth_eq,
          Nat.add_max_add_left]

/-- Over a value the scan exceeds the limit exactly if the value's depth does. -/
theorem exceedsAt_render (v : Value) : ∀ (depth : Nat) (rest : Bytes),
    depth ≤ maxDepth → exceedsAt maxDepth depth (v.render ++ rest) =
      (decide (maxDepth < depth + v.depth) || exceedsAt maxDepth depth rest) := by
  induction v using Value.inductionOn with
  | str t =>
      intro depth rest hdepth
      have hbytes : (Value.str t).render ++ rest = 0x22 :: (t.val ++ 0x22 :: rest) := by
        simp [Value.render]
      rw [hbytes, exceedsAt_string]
      simp [Value.depth, hdepth]
  | num t =>
      intro depth rest hdepth
      rw [Value.render, exceedsAt_neutral _ _ (neutral_number t)]
      simp [Value.depth, hdepth]
  | lit w =>
      intro depth rest hdepth
      rw [Value.render, exceedsAt_neutral _ _ (neutral_literal w)]
      simp [Value.depth, hdepth]
  | obj gap ms ih =>
      intro depth rest _
      exact exceedsAt_object gap
        (fun hopen m hm rest => ih m hm (depth + 1) rest hopen) rest
  | arr gap es ih =>
      intro depth rest _
      exact exceedsAt_array gap
        (fun hopen e he rest => ih e he (depth + 1) rest hopen) rest

theorem exceedsAt_gap (depth : Nat) (gap : Gap) :
    exceedsAt maxDepth depth gap.val = false := by
  have hneutral := exceedsAt_neutral maxDepth depth (neutral_gap gap) []
  rw [List.append_nil] at hneutral
  rw [hneutral, exceedsAt_nil]

/-- On a well-formed text the pre-scan measures the depth. -/
theorem exceedsNesting_text {json : Bytes} {v : Value} (h : IsText json v)
    (maxDepth : Nat) : exceedsNesting json maxDepth = decide (maxDepth < v.depth) := by
  obtain ⟨lead, trail, rfl⟩ := h
  show exceedsAt maxDepth 0 (lead.val ++ (v.render ++ trail.val)) = _
  rw [exceedsAt_neutral _ _ (neutral_gap lead), exceedsAt_render v 0 _ (Nat.zero_le _),
    exceedsAt_gap]
  simp

/-! ## §3  The scan over a document -/

/-- What ends the loop does not open a container. -/
theorem exceedsAt_ending {exit : LoopExit} {tail : Bytes} {trail : Gap}
    (h : Ending exit tail trail.val) : exceedsAt maxDepth 1 tail = false := by
  generalize hrest : trail.val = rest at h
  cases h with
  | closed rest =>
      rw [exceedsAt_close _ _ (Or.inl rfl), ← hrest, exceedsAt_gap]
  | trailing gap rest =>
      have hbytes : 0x2C :: (gap.val ++ 0x7D :: rest) =
          [0x2C] ++ (gap.val ++ 0x7D :: rest) := rfl
      rw [hbytes, exceedsAt_neutral _ _ (List.forall_mem_singleton.mpr rfl),
        exceedsAt_neutral _ _ (neutral_gap gap), exceedsAt_close _ _ (Or.inl rfl), ← hrest,
        exceedsAt_gap]
  | cut gap =>
      have hbytes : 0x2C :: gap.val = [0x2C] ++ gap.val := rfl
      rw [hbytes, exceedsAt_neutral _ _ (List.forall_mem_singleton.mpr rfl), exceedsAt_gap]

/-- An object's text is measured by its members, however it ends. -/
theorem exceedsNesting_document {exit : LoopExit} {ms : List (Member Value)}
    {tail json : Bytes} (h : DocumentText exit ms tail json) (maxDepth : Nat) :
    exceedsNesting json maxDepth = decide (maxDepth < 1 + membersDepth ms) := by
  obtain ⟨lead, trail, s, rfl, htext⟩ := h
  show exceedsAt maxDepth 0 (lead.val ++ 0x7B :: s) = _
  rw [exceedsAt_neutral _ _ (neutral_gap lead), exceedsAt_open _ _ (Or.inl rfl)]
  by_cases hopen : maxDepth < 1
  · have hover : maxDepth < 1 + membersDepth ms := by omega
    simp [hopen, hover]
  have hinside : exceedsAt maxDepth 1 s = decide (maxDepth < 1 + membersDepth ms) := by
    have hnone : ¬ maxDepth < 1 + membersDepth [] := hopen
    generalize hrest : trail.val = rest at htext
    cases htext with
    | empty gap rest =>
        rw [exceedsAt_neutral _ _ (neutral_gap gap), exceedsAt_close _ _ (Or.inl rfl),
          ← hrest, exceedsAt_gap, decide_eq_false hnone]
    | bare gap => rw [exceedsAt_gap, decide_eq_false hnone]
    | members m ms hend =>
        have hvalue : ∀ x ∈ m :: ms, ∀ rest,
            exceedsAt maxDepth 1 (x.value.render ++ rest) =
              (decide (maxDepth < 1 + x.value.depth) || exceedsAt maxDepth 1 rest) :=
          fun x _ rest => exceedsAt_render x.value 1 rest (by omega)
        rw [exceedsAt_member (hvalue m List.mem_cons_self), exceedsAt_openMembers
          (fun x hx => hvalue x (List.mem_cons_of_mem m hx)) (by omega), or_decide_max,
          membersDepth, memberDepth_eq, Nat.add_max_add_left]
        rw [← hrest] at hend
        rw [exceedsAt_ending hend, Bool.or_false]
  rw [hinside]
  simp [hopen]

end NativeGuard.Protocol

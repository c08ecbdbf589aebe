import NativeGuard.Protocol.Readers

/-!
# Documents that are not closed

Some of the object loops are left at the end of the input as they are at the
closing brace, so a text that breaks off behind a comma passes for a document.
Such a text is a complete object with a comma in the place of its brace
(`cut_iff`), and never a complete object itself (`not_isObjectText_of_comma`).
-/

namespace NativeGuard.Protocol

open Json

/-! ## §1  Complete objects -/

/-- The last byte before trailing whitespace is determined by the text. -/
theorem last_byte_unique {front back : Bytes} {a b : UInt8} {gap gap' : Gap}
    (ha : a ∉ whitespaceBytes) (hb : b ∉ whitespaceBytes)
    (h : front ++ a :: gap.val = back ++ b :: gap'.val) : a = b := by
  have hdrop : ∀ (x : Bytes) (c : UInt8) (g : Gap), c ∉ whitespaceBytes →
      (x ++ c :: g.val).reverse.dropWhile isWhitespace = c :: x.reverse := by
    intro x c g hc
    have hrev : (x ++ c :: g.val).reverse = g.val.reverse ++ c :: x.reverse := by
      simp
    rw [hrev]
    apply dropWhile_gap
    · intro y hy
      exact g.property y (List.mem_reverse.mp hy)
    · exact stops_cons.mpr hc
  have hfront := hdrop front a gap ha
  rw [h, hdrop back b gap' hb] at hfront
  exact (List.cons_eq_cons.mp hfront).1.symm

theorem obj_ends (gap : Gap) (ms : List (Member Value)) :
    ∃ inner, (Value.obj gap ms).render = inner ++ [0x7D] := by
  cases ms with
  | nil => exact ⟨0x7B :: gap.val, by simp [Value.render]⟩
  | cons m ms =>
      exact ⟨0x7B :: (renderMember m ++ openMembers ms), by
        simp [Value.render, renderMembers_open]⟩

/-- A text that ends in a comma is no complete object. -/
theorem not_isObjectText_of_comma {body : Bytes} (gap : Gap) :
    ¬ IsObjectText (body ++ 0x2C :: gap.val) := by
  rintro ⟨gap', ms, lead, trail, h⟩
  obtain ⟨inner, hinner⟩ := obj_ends gap' ms
  rw [hinner] at h
  have hsplit : body ++ 0x2C :: gap.val = (lead.val ++ inner) ++ 0x7D :: trail.val := by
    rw [h]
    simp
  have hbyte := last_byte_unique (by decide) (by decide) hsplit
  exact absurd hbyte (by decide)

/-! ## §2  Commas in the place of the brace -/

/-- A complete object whose text ends in its brace, without the brace. -/
theorem body_of_isText {body : Bytes} {gap : Gap} {x : Member Value}
    {ms : List (Member Value)} (h : IsText (body ++ [0x7D]) (.obj gap (x :: ms))) :
    ∃ lead : Gap, body = lead.val ++ 0x7B :: (renderMember x ++ openMembers ms) := by
  obtain ⟨lead, trail, htext⟩ := h
  -- the brace is the last byte, so nothing trails it
  have htrail : trail.val = [] := by
    by_contra htrail
    have hlast : (body ++ [0x7D]).getLast (by simp) ∈ whitespaceBytes := by
      have hw : trail.val.getLast htrail ∈ whitespaceBytes :=
        trail.property _ (List.getLast_mem htrail)
      simp only [htext]
      rw [List.getLast_append_of_ne_nil _ (by simp [htrail]),
        List.getLast_append_of_ne_nil _ htrail]
      exact hw
    rw [List.getLast_append_of_ne_nil _ (by simp)] at hlast
    exact absurd hlast (by decide)
  rw [htrail, List.append_nil, Value.render, renderMembers_open] at htext
  have hsplit : body ++ [0x7D] =
      (lead.val ++ 0x7B :: (renderMember x ++ openMembers ms)) ++ [0x7D] := by
    rw [htext]
    simp
  exact ⟨lead, List.append_cancel_right hsplit⟩

theorem isText_of_body (lead : Gap) (x : Member Value) (ms : List (Member Value)) :
    IsText ((lead.val ++ 0x7B :: (renderMember x ++ openMembers ms)) ++ [0x7D])
      (.obj noGap (x :: ms)) := by
  refine ⟨lead, noGap, ?_⟩
  simp [Value.render, renderMembers_open]

/-- A document cut off behind a comma is a complete one with the comma in the
place of the brace. -/
theorem cut_iff {ms : List (Member Value)} (hne : ms ≠ []) {m : Bytes} :
    (∃ tail, DocumentText .cut ms tail m) ↔ ∃ (body : Bytes) (ws gap : Gap),
      m = body ++ 0x2C :: ws.val ∧ IsText (body ++ [0x7D]) (.obj gap ms) := by
  constructor
  · rintro ⟨tail, lead, trail, s, rfl, htext⟩
    generalize htrail : trail.val = rest at htext
    cases htext with
    | bare => exact absurd rfl hne
    | members x ms hend =>
        cases hend with
        | cut gap => exact ⟨_, gap, noGap, by simp, isText_of_body lead x ms⟩
  · rintro ⟨body, ws, gap, rfl, htext⟩
    cases ms with
    | nil => exact absurd rfl hne
    | cons x ms =>
        obtain ⟨lead, rfl⟩ := body_of_isText htext
        refine ⟨0x2C :: ws.val, lead, noGap, _, ?_,
          LoopText.members x ms (Ending.cut ws)⟩
        simp

/-- A document with a comma in front of its brace is a complete one with the
comma put in. -/
theorem trailing_iff {ms : List (Member Value)} {m : Bytes} :
    (∃ tail, DocumentText .trailing ms tail m) ↔ ms ≠ [] ∧
      ∃ (body : Bytes) (ws trail gap : Gap),
        m = body ++ 0x2C :: (ws.val ++ 0x7D :: trail.val) ∧
          IsText (body ++ [0x7D]) (.obj gap ms) := by
  constructor
  · rintro ⟨tail, lead, trail, s, rfl, htext⟩
    generalize htrail : trail.val = rest at htext
    cases htext with
    | members x ms hend =>
        cases hend with
        | trailing gap =>
            refine ⟨List.cons_ne_nil x ms, _, gap, trail, noGap, ?_,
              isText_of_body lead x ms⟩
            simp [htrail]
  · rintro ⟨hne, body, ws, trail, gap, rfl, htext⟩
    cases ms with
    | nil => exact absurd rfl hne
    | cons x ms =>
        obtain ⟨lead, rfl⟩ := body_of_isText htext
        refine ⟨_, lead, trail, _, ?_,
          LoopText.members x ms (Ending.trailing ws trail.val)⟩
        simp

/-- `m` spells the members `ms` and a comma in the place of the brace. -/
def DanglingText (ms : List (Member Value)) (m : Bytes) : Prop :=
  ∃ (body : Bytes) (ws gap : Gap),
    m = body ++ 0x2C :: ws.val ∧ IsText (body ++ [0x7D]) (.obj gap ms)

theorem DanglingText.not_isObjectText {ms : List (Member Value)} {m : Bytes}
    (h : DanglingText ms m) : ¬ IsObjectText m := by
  obtain ⟨body, ws, -, rfl, -⟩ := h
  exact not_isObjectText_of_comma ws

/-- Only an object without members is left at its first brace. -/
theorem DocumentText.eq_nil {ms : List (Member Value)} {tail m : Bytes}
    (h : DocumentText .empty ms tail m) : ms = [] := by
  rcases h with ⟨lead, trail, s, -, htext⟩
  generalize trail.val = rest at htext
  cases htext with
  | empty => rfl
  | members _ _ hend => cases hend

/-- A loop that does not look for the end of the input takes both kinds of text. -/
theorem documentText_cases {ms : List (Member Value)} (hne : ms ≠ []) {m : Bytes} :
    (∃ exit tail, DocumentText exit ms tail m ∧ exit ≠ .trailing) ↔
      DanglingText ms m ∨ ∃ gap, IsText m (.obj gap ms) := by
  constructor
  · rintro ⟨exit, tail, hdoc, htrailing⟩
    cases exit with
    | empty => exact Or.inr (isText_of_documentText hdoc (Or.inl rfl))
    | closed => exact Or.inr (isText_of_documentText hdoc (Or.inr rfl))
    | trailing => exact absurd rfl htrailing
    | cut => exact Or.inl ((cut_iff hne).mp ⟨tail, hdoc⟩)
  · rintro (hdangling | ⟨gap, htext⟩)
    · obtain ⟨tail, hdoc⟩ := (cut_iff hne).mpr hdangling
      exact ⟨.cut, tail, hdoc, nofun⟩
    · obtain ⟨tail, hdoc⟩ := documentText_of_isText htext
      exact ⟨exitOf ms, tail, hdoc, exitOf_ne_trailing ms⟩

end NativeGuard.Protocol

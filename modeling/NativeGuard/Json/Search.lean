import Mathlib.Data.List.Infix
import NativeGuard.Json.Grammar

/-!
# Searching in a text

What a search for `"key":start` finds in the text of a tree: the members, at any
depth, of which the key ends the search key's way, without whitespace around the
colon, and the value begins with `start` (`Needle.infix_text`). Nothing inside a
string is found, since a quote stands behind a backslash there.
-/

namespace NativeGuard.Json

/-! ## §1  Members at any depth -/

inductive Inside (m : Member Value) : Value → Prop
  | here {gap : Gap} {ms : List (Member Value)} (h : m ∈ ms) : Inside m (.obj gap ms)
  | member {gap : Gap} {ms : List (Member Value)} {x : Member Value} (hx : x ∈ ms)
      (h : Inside m x.value) : Inside m (.obj gap ms)
  | element {gap : Gap} {es : List (Element Value)} {x : Element Value} (hx : x ∈ es)
      (h : Inside m x.value) : Inside m (.arr gap es)

variable {m : Member Value}

theorem inside_obj_iff {gap : Gap} {ms : List (Member Value)} :
    Inside m (.obj gap ms) ↔ ∃ x ∈ ms, m = x ∨ Inside m x.value := by
  constructor
  · intro h
    cases h with
    | here hm => exact ⟨m, hm, Or.inl rfl⟩
    | member hx hm => exact ⟨_, hx, Or.inr hm⟩
  · rintro ⟨x, hx, rfl | hm⟩
    · exact .here hx
    · exact .member hx hm

theorem inside_arr_iff {gap : Gap} {es : List (Element Value)} :
    Inside m (.arr gap es) ↔ ∃ x ∈ es, Inside m x.value := by
  constructor
  · intro h
    cases h with
    | element hx hm => exact ⟨_, hx, hm⟩
  · rintro ⟨x, hx, hm⟩
    exact .element hx hm

/-! ## §2  Strings -/

/-- What may stand behind a string. -/
def BehindString (b : UInt8) : Prop :=
  b ∈ whitespaceBytes ∨ b = 0x2C ∨ b = 0x3A ∨ b = 0x7D ∨ b = 0x5D

instance (b : UInt8) : Decidable (BehindString b) := by
  unfold BehindString; infer_instance

/-- A quoted key without escapes, a colon, and how the value begins. The first byte of
the key is none that stands between tokens. -/
structure Needle where
  key : Bytes
  start : Bytes
  begins : Value → Prop
  plain : ∀ b ∈ key, b ≠ 0x22 ∧ b ≠ 0x5C
  inner : ∃ b tail, key = b :: tail ∧ ¬ BehindString b
  starts : ∃ b tail, start = b :: tail ∧ b ∉ whitespaceBytes
  begins_iff : ∀ v rest, start <+: v.render ++ rest ↔ begins v

namespace Needle

variable (needle : Needle)

def text : Bytes := 0x22 :: (needle.key ++ 0x22 :: 0x3A :: needle.start)

/-- The key of such a member is the search key, or ends with it behind an escaped
quote. -/
def Spells (m : Member Value) : Prop :=
  0x22 :: needle.key <:+ 0x22 :: m.key.val ∧ m.preColon.val = [] ∧ m.postColon.val = [] ∧
    needle.begins m.value

variable {needle}

theorem infix_cons {b : UInt8} (h : b ≠ 0x22) (s : Bytes) :
    needle.text <:+: b :: s ↔ needle.text <:+: s := by
  rw [List.infix_cons_iff, or_iff_right]
  intro hprefix
  exact h (List.cons_prefix_cons.mp hprefix).1.symm

theorem infix_append {u : Bytes} (h : ∀ b ∈ u, b ≠ 0x22) (s : Bytes) :
    needle.text <:+: u ++ s ↔ needle.text <:+: s := by
  induction u with
  | nil => rfl
  | cons b u ih =>
      obtain ⟨hb, hu⟩ := List.forall_mem_cons.mp h
      rw [List.cons_append, infix_cons hb, ih hu]

/-- A key without escapes ends at the first quote. -/
theorem prefix_string {key t q s : Bytes} (hkey : ∀ b ∈ key, b ≠ 0x22 ∧ b ≠ 0x5C)
    (ht : StringBody t) : key ++ 0x22 :: q <+: t ++ 0x22 :: s ↔ t = key ∧ q <+: s := by
  induction key generalizing t with
  | nil =>
      cases ht with
      | nil => simp
      | plain _ hquote _ _ => simp [Ne.symm hquote]
      | escape _ _ => simp
      | unicode _ _ _ _ _ => simp
  | cons b key ih =>
      obtain ⟨hb, hlater⟩ := List.forall_mem_cons.mp hkey
      cases ht with
      | nil => simp [hb.1]
      | plain _ _ _ hrest =>
          rw [List.cons_append, List.cons_append, List.cons_prefix_cons, ih hlater hrest,
            List.cons.injEq, and_assoc, eq_comm]
      | escape _ _ => simp [hb.2, Ne.symm hb.2]
      | unicode _ _ _ _ _ => simp [hb.2, Ne.symm hb.2]

theorem not_prefix_close {s : Bytes} (hs : ∀ b ∈ s.head?, BehindString b) :
    ¬ needle.text <+: 0x22 :: s := by
  intro h
  have hkey := (List.cons_prefix_cons.mp h).2
  obtain ⟨b, key, hcons, hinner⟩ := needle.inner
  rw [hcons] at hkey
  cases s with
  | nil => exact absurd hkey (by simp)
  | cons c s =>
      obtain rfl : b = c := (List.cons_prefix_cons.mp hkey).1
      exact hinner (hs b rfl)

/-- Behind an opening or an escaped quote the needle is found where the string ends
with the key. -/
theorem prefix_quote {t s : Bytes} (ht : StringBody t) :
    needle.text <+: 0x22 :: (t ++ 0x22 :: s) ↔
      0x22 :: needle.key = 0x22 :: t ∧ 0x3A :: needle.start <+: s := by
  rw [text, List.cons_prefix_cons, prefix_string needle.plain ht]
  simp [eq_comm]

theorem infix_body {t s : Bytes} (ht : StringBody t)
    (hs : ∀ b ∈ s.head?, BehindString b) :
    needle.text <:+: t ++ 0x22 :: s ↔
      0x22 :: needle.key <:+ t ∧ 0x3A :: needle.start <+: s ∨ needle.text <:+: s := by
  have hhex : ∀ {b : UInt8}, IsHex b → b ≠ 0x22 := by
    rintro b hb rfl
    exact absurd hb (by decide)
  induction ht with
  | nil =>
      rw [List.nil_append, List.infix_cons_iff, or_iff_right (not_prefix_close hs)]
      simp
  | plain _ hquote _ _ ih =>
      rw [List.cons_append, infix_cons hquote, List.suffix_cons_iff]
      refine ih.trans ?_
      simp [Ne.symm hquote]
  | @escape e rest _ hrest ih =>
      rw [List.cons_append, infix_cons (by decide), List.cons_append, List.suffix_cons_iff,
        List.suffix_cons_iff]
      by_cases he : e = 0x22
      · have hslash : 0x22 :: needle.key ≠ 0x5C :: 0x22 :: rest := by simp
        rw [he, List.infix_cons_iff, prefix_quote hrest]
        refine (or_congr_right ih).trans ?_
        rw [or_iff_right hslash, or_and_right, or_assoc]
      · rw [infix_cons he]
        refine ih.trans ?_
        simp [Ne.symm he]
  | unicode ha hb hc hd _ ih =>
      simp only [List.cons_append, List.suffix_cons_iff]
      rw [infix_cons (by decide), infix_cons (by decide), infix_cons (hhex ha),
        infix_cons (hhex hb), infix_cons (hhex hc), infix_cons (hhex hd)]
      refine ih.trans ?_
      simp [Ne.symm (hhex ha), Ne.symm (hhex hb), Ne.symm (hhex hc), Ne.symm (hhex hd)]

/-- A string is found if it ends the needle's way and the needle goes on behind it. -/
theorem infix_string (t : StringText) {s : Bytes}
    (hs : ∀ b ∈ s.head?, BehindString b) :
    needle.text <:+: 0x22 :: (t.val ++ 0x22 :: s) ↔
      0x22 :: needle.key <:+ 0x22 :: t.val ∧ 0x3A :: needle.start <+: s ∨
        needle.text <:+: s := by
  rw [List.infix_cons_iff, prefix_quote t.property, infix_body t.property hs,
    List.suffix_cons_iff]
  tauto

/-! ## §3  Trees -/

/-- Some member in `v` is spelled as the needle. -/
def FoundIn (needle : Needle) (v : Value) : Prop := ∃ m, Inside m v ∧ needle.Spells m

theorem not_prefix_gap {b : UInt8} (hb : b ∉ whitespaceBytes) {gap : Gap}
    (hgap : gap.val ≠ []) (p s : Bytes) : ¬ b :: p <+: gap.val ++ s := by
  obtain ⟨w, hw⟩ := gap
  intro h
  cases w with
  | nil => exact hgap rfl
  | cons c w =>
      obtain rfl : b = c := (List.cons_prefix_cons.mp h).1
      exact hb (hw b List.mem_cons_self)

theorem colon_prefix (m : Member Value) (rest : Bytes) :
    0x3A :: needle.start <+: m.preColon.val ++ 0x3A :: (m.postColon.val ++
        (m.value.render ++ rest)) ↔
      m.preColon.val = [] ∧ m.postColon.val = [] ∧ needle.begins m.value := by
  by_cases hpre : m.preColon.val = []
  · rw [hpre, List.nil_append, List.cons_prefix_cons]
    by_cases hpost : m.postColon.val = []
    · rw [hpost, List.nil_append, needle.begins_iff]
      simp
    · obtain ⟨b, tail, hstart, hb⟩ := needle.starts
      have hno := not_prefix_gap hb hpost tail (m.value.render ++ rest)
      rw [← hstart] at hno
      simp [hno, hpost]
  · have hno := @not_prefix_gap 0x3A (by decide) _ hpre needle.start
    simp [hno, hpre]

theorem not_quote_gap (gap : Gap) : ∀ b ∈ gap.val, b ≠ 0x22 := by
  rintro b hb rfl
  exact absurd (gap.property 0x22 hb) (by decide)

theorem behind_colon (gap : Gap) (s : Bytes) :
    ∀ b ∈ (gap.val ++ 0x3A :: s).head?, BehindString b := by
  obtain ⟨w, hw⟩ := gap
  intro b hb
  cases w with
  | nil =>
      cases hb
      exact Or.inr (Or.inr (Or.inl rfl))
  | cons c w =>
      cases hb
      exact Or.inl (hw b List.mem_cons_self)

theorem behind_follow {rest : Bytes} (h : Follow rest) : ∀ b ∈ rest.head?, BehindString b := by
  intro b hb
  rcases h b hb with hws | hcomma | hbrace | hbracket
  · exact Or.inl hws
  · exact Or.inr (Or.inl hcomma)
  · exact Or.inr (Or.inr (Or.inr (Or.inl hbrace)))
  · exact Or.inr (Or.inr (Or.inr (Or.inr hbracket)))

/-- The value `v` hides nothing that the search could find, whatever follows. -/
def FindsIn (needle : Needle) (v : Value) : Prop :=
  ∀ rest, Follow rest →
    (needle.text <:+: v.render ++ rest ↔ needle.FoundIn v ∨ needle.text <:+: rest)

theorem infix_member {m : Member Value} (hm : needle.FindsIn m.value) {rest : Bytes}
    (hrest : Follow rest) :
    needle.text <:+: renderMember m ++ rest ↔
      (needle.Spells m ∨ needle.FoundIn m.value) ∨ needle.text <:+: rest := by
  have htext : renderMember m ++ rest = m.lead.val ++ 0x22 :: (m.key.val ++ 0x22 ::
      (m.preColon.val ++ 0x3A :: (m.postColon.val ++
        (m.value.render ++ (m.trail.val ++ rest))))) := by
    rw [renderMember_eq]
    simp
  rw [htext, infix_append (not_quote_gap _), infix_string _ (behind_colon _ _),
    colon_prefix, infix_append (not_quote_gap _), infix_cons (by decide),
    infix_append (not_quote_gap _), hm _ (follow_gap_append hrest),
    infix_append (not_quote_gap _), Spells, or_assoc]

theorem infix_members {ms : List (Member Value)} (hms : ∀ m ∈ ms, needle.FindsIn m.value)
    (rest : Bytes) :
    needle.text <:+: renderMembers ms ++ rest ↔
      (∃ m ∈ ms, needle.Spells m ∨ needle.FoundIn m.value) ∨ needle.text <:+: rest := by
  induction ms with
  | nil =>
      rw [renderMembers, List.singleton_append, infix_cons (by decide)]
      simp
  | cons m ms ih =>
      obtain ⟨hm, hlater⟩ := List.forall_mem_cons.mp hms
      rw [renderMembers, List.cons_append, infix_cons (by decide), List.append_assoc,
        infix_member hm (follow_renderMembers _ _), ih hlater, List.exists_mem_cons_iff]
      exact or_assoc.symm

theorem infix_elements {es : List (Element Value)} (hes : ∀ e ∈ es, needle.FindsIn e.value)
    (rest : Bytes) :
    needle.text <:+: renderElements es ++ rest ↔
      (∃ e ∈ es, needle.FoundIn e.value) ∨ needle.text <:+: rest := by
  induction es with
  | nil =>
      rw [renderElements, List.singleton_append, infix_cons (by decide)]
      simp
  | cons e es ih =>
      obtain ⟨he, hlater⟩ := List.forall_mem_cons.mp hes
      have htext : renderElements (e :: es) ++ rest = 0x2C :: (e.lead.val ++
          (e.value.render ++ (e.trail.val ++ (renderElements es ++ rest)))) := by
        rw [renderElements, renderElement_eq]
        simp
      rw [htext, infix_cons (by decide), infix_append (not_quote_gap _),
        he _ (follow_gap_append (follow_renderElements _ _)), infix_append (not_quote_gap _),
        ih hlater, List.exists_mem_cons_iff, or_assoc]

theorem foundIn_obj_iff {gap : Gap} {ms : List (Member Value)} :
    needle.FoundIn (.obj gap ms) ↔ ∃ m ∈ ms, needle.Spells m ∨ needle.FoundIn m.value := by
  constructor
  · rintro ⟨m, hm, hspells⟩
    rcases inside_obj_iff.mp hm with ⟨x, hx, rfl | hinner⟩
    · exact ⟨m, hx, Or.inl hspells⟩
    · exact ⟨x, hx, Or.inr ⟨m, hinner, hspells⟩⟩
  · rintro ⟨x, hx, hspells | ⟨m, hm, hspells⟩⟩
    · exact ⟨x, .here hx, hspells⟩
    · exact ⟨m, .member hx hm, hspells⟩

theorem foundIn_arr_iff {gap : Gap} {es : List (Element Value)} :
    needle.FoundIn (.arr gap es) ↔ ∃ e ∈ es, needle.FoundIn e.value := by
  constructor
  · rintro ⟨m, hm, hspells⟩
    rcases inside_arr_iff.mp hm with ⟨x, hx, hinner⟩
    exact ⟨x, hx, m, hinner, hspells⟩
  · rintro ⟨x, hx, m, hm, hspells⟩
    exact ⟨m, .element hx hm, hspells⟩

theorem not_quote_neutral {b : UInt8} (h : isNeutral b = true) : b ≠ 0x22 := by
  rintro rfl
  exact absurd h (by decide)

theorem findsIn (needle : Needle) (v : Value) : needle.FindsIn v := by
  have hscalar : ∀ {v : Value} {rest : Bytes}, (∀ m, ¬ Inside m v) →
      (needle.text <:+: v.render ++ rest ↔ needle.text <:+: rest) →
      (needle.text <:+: v.render ++ rest ↔ needle.FoundIn v ∨ needle.text <:+: rest) := by
    intro v rest hnone h
    rw [h, or_iff_right]
    rintro ⟨m, hm, -⟩
    exact hnone m hm
  induction v using Value.inductionOn with
  | str t =>
      intro rest hrest
      refine hscalar (fun m hm => by cases hm) ?_
      have htext : (Value.str t).render ++ rest = 0x22 :: (t.val ++ 0x22 :: rest) := by
        simp [Value.render]
      rw [htext, infix_string t (behind_follow hrest), or_iff_right]
      -- a colon does not follow a value
      rintro ⟨-, tail, rfl⟩
      rcases hrest 0x3A rfl with h | h | h | h <;> exact absurd h (by decide)
  | num t =>
      intro rest _
      exact hscalar (fun m hm => by cases hm)
        (infix_append (fun b hb => not_quote_neutral (neutral_number t b hb)) rest)
  | lit w =>
      intro rest _
      exact hscalar (fun m hm => by cases hm)
        (infix_append (fun b hb => not_quote_neutral (neutral_literal w b hb)) rest)
  | obj gap ms ih =>
      intro rest _
      rw [foundIn_obj_iff]
      cases ms with
      | nil =>
          rw [Value.render, List.cons_append, infix_cons (by decide), List.append_assoc,
            infix_append (not_quote_gap _), List.singleton_append, infix_cons (by decide)]
          simp
      | cons m ms =>
          rw [← infix_members ih, Value.render, renderMembers, List.cons_append,
            infix_cons (by decide), List.cons_append, infix_cons (by decide)]
  | arr gap es ih =>
      intro rest _
      rw [foundIn_arr_iff]
      cases es with
      | nil =>
          rw [Value.render, List.cons_append, infix_cons (by decide), List.append_assoc,
            infix_append (not_quote_gap _), List.singleton_append, infix_cons (by decide)]
          simp
      | cons e es =>
          rw [← infix_elements ih, Value.render, renderElements, List.cons_append,
            infix_cons (by decide), List.cons_append, infix_cons (by decide)]

/-- In a whole text the search finds the members that are spelled as the needle. -/
theorem infix_text {text : Bytes} {v : Value} (h : IsText text v) :
    needle.text <:+: text ↔ needle.FoundIn v := by
  obtain ⟨lead, trail, rfl⟩ := h
  have htail := @infix_append needle trail.val (not_quote_gap trail) []
  rw [List.append_nil] at htail
  rw [infix_append (not_quote_gap lead), needle.findsIn v _ (follow_gap trail), htail,
    or_iff_left]
  intro hnil
  have hempty := List.infix_nil.mp hnil
  cases hempty

end Needle

end NativeGuard.Json

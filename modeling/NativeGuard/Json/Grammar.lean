import Mathlib.Data.List.TakeWhile
import Mathlib.Tactic

/-!
# JSON texts as trees

The byte-level JSON grammar (RFC 8259), independent of any parser. A value is
a tree that keeps every spelling choice of its text: the raw contents of each
string, the token of each number, and the whitespace between tokens. Strings,
numbers and gaps are subtypes, so a tree is well formed by construction and
`Value.render` is its one text. A text is well formed when it is the rendering
of some tree, up to the whitespace around it (`IsText`).

Strings are bytes: nothing below `0x20` unescaped, only the legal escapes;
whether the bytes above `0x7F` are UTF-8 is not part of the grammar.
-/

namespace NativeGuard.Json

abbrev Bytes : Type := List UInt8

instance : LawfulBEq Bytes := inferInstanceAs (LawfulBEq (List UInt8))

/-- The bytes of an ASCII literal. -/
def ascii (text : String) : Bytes := text.toList.map fun c => c.toUInt8

/-! ## Tokens -/

def whitespaceBytes : Bytes := [0x20, 0x0A, 0x0D, 0x09]

def IsDigit (b : UInt8) : Prop := 0x30 ≤ b ∧ b ≤ 0x39

instance (b : UInt8) : Decidable (IsDigit b) := by
  unfold IsDigit; infer_instance

def IsHex (b : UInt8) : Prop :=
  IsDigit b ∨ (0x61 ≤ b ∧ b ≤ 0x66) ∨ (0x41 ≤ b ∧ b ≤ 0x46)

instance (b : UInt8) : Decidable (IsHex b) := by
  unfold IsHex; infer_instance

/-- The bytes that may follow a backslash, other than `u`: `"\/bfnrt`. -/
def escapeBytes : Bytes := [0x22, 0x5C, 0x2F, 0x62, 0x66, 0x6E, 0x72, 0x74]

/-- The contents of a string token, between its quotes. -/
inductive StringBody : Bytes → Prop where
  | nil : StringBody []
  | plain {b : UInt8} {rest : Bytes} (hlow : 0x20 ≤ b) (hquote : b ≠ 0x22)
      (hslash : b ≠ 0x5C) (hrest : StringBody rest) : StringBody (b :: rest)
  | escape {e : UInt8} {rest : Bytes} (he : e ∈ escapeBytes)
      (hrest : StringBody rest) : StringBody (0x5C :: e :: rest)
  | unicode {a b c d : UInt8} {rest : Bytes}
      (ha : IsHex a) (hb : IsHex b) (hc : IsHex c) (hd : IsHex d)
      (hrest : StringBody rest) :
      StringBody (0x5C :: 0x75 :: a :: b :: c :: d :: rest)

def IntPart (i : Bytes) : Prop :=
  i = [0x30] ∨
    ∃ d ds, i = d :: ds ∧ 0x31 ≤ d ∧ d ≤ 0x39 ∧ ∀ b ∈ ds, IsDigit b

def FracPart (f : Bytes) : Prop :=
  f = [] ∨ ∃ ds, f = 0x2E :: ds ∧ ds ≠ [] ∧ ∀ b ∈ ds, IsDigit b

def ExpPart (e : Bytes) : Prop :=
  e = [] ∨ ∃ mark sign ds, e = mark :: (sign ++ ds) ∧
    (mark = 0x65 ∨ mark = 0x45) ∧
    (sign = [] ∨ sign = [0x2B] ∨ sign = [0x2D]) ∧
    ds ≠ [] ∧ ∀ b ∈ ds, IsDigit b

/-- A number token: optional minus, integer part, fraction, exponent. -/
def NumberToken (t : Bytes) : Prop :=
  ∃ sign i f e, t = sign ++ i ++ f ++ e ∧
    (sign = [] ∨ sign = [0x2D]) ∧ IntPart i ∧ FracPart f ∧ ExpPart e

inductive Literal where
  | null
  | true
  | false
deriving DecidableEq, Repr

def Literal.bytes : Literal → Bytes
  | .null => [0x6E, 0x75, 0x6C, 0x6C]
  | .true => [0x74, 0x72, 0x75, 0x65]
  | .false => [0x66, 0x61, 0x6C, 0x73, 0x65]

abbrev Gap : Type := {w : Bytes // ∀ b ∈ w, b ∈ whitespaceBytes}

def noGap : Gap := ⟨[], by simp⟩

@[simp] theorem noGap_val : noGap.val = [] := rfl

abbrev StringText : Type := {raw : Bytes // StringBody raw}

/-- A byte that stands for itself in a string. -/
def isPlainByte (b : UInt8) : Bool := 0x20 ≤ b && b ≠ 0x22 && b ≠ 0x5C

theorem stringBody_plain {raw : Bytes} (h : raw.all isPlainByte = true) :
    StringBody raw := by
  induction raw with
  | nil => exact StringBody.nil
  | cons b raw ih =>
      rw [List.all_cons, Bool.and_eq_true] at h
      obtain ⟨hb, hraw⟩ := h
      simp only [isPlainByte, Bool.and_eq_true, decide_eq_true_eq] at hb
      exact StringBody.plain hb.1.1 hb.1.2 hb.2 (ih hraw)

/-- A string that needs no escapes. -/
def plainString (raw : Bytes) (h : raw.all isPlainByte = true) : StringText :=
  ⟨raw, stringBody_plain h⟩

theorem plainString_unescaped (raw : Bytes) (h : raw.all isPlainByte = true) :
    0x5C ∉ (plainString raw h).val := by
  intro hmem
  exact absurd (List.all_eq_true.mp h _ hmem) (by decide)

abbrev NumberText : Type := {t : Bytes // NumberToken t}

/-! A token holds no control byte, and so no newline. -/

theorem IsDigit.printable {b : UInt8} (h : IsDigit b) : 0x20 ≤ b :=
  UInt8.le_trans (by decide) h.1

theorem forall_mem_of_all {p : UInt8 → Prop} [DecidablePred p] {bytes : Bytes}
    (h : bytes.all (fun b => decide (p b)) = true) : ∀ b ∈ bytes, p b := by
  intro b hb
  exact of_decide_eq_true (List.all_eq_true.mp h b hb)

theorem printable_of_all {bytes : Bytes}
    (h : bytes.all (fun b => decide (0x20 ≤ b)) = true) : ∀ b ∈ bytes, 0x20 ≤ b :=
  forall_mem_of_all h

theorem StringBody.printable {raw : Bytes} (h : StringBody raw) :
    ∀ b ∈ raw, 0x20 ≤ b := by
  have hhex : ∀ {b : UInt8}, IsHex b → 0x20 ≤ b := by
    rintro b (hb | ⟨hb, -⟩ | ⟨hb, -⟩)
    · exact hb.printable
    · exact UInt8.le_trans (by decide) hb
    · exact UInt8.le_trans (by decide) hb
  have hescape : ∀ e ∈ escapeBytes, 0x20 ≤ e := printable_of_all (by decide)
  induction h with
  | nil => exact fun _ hb => absurd hb List.not_mem_nil
  | plain hlow _ _ _ ih => exact List.forall_mem_cons.mpr ⟨hlow, ih⟩
  | escape he _ ih =>
      exact List.forall_mem_cons.mpr ⟨by decide, List.forall_mem_cons.mpr ⟨hescape _ he, ih⟩⟩
  | unicode ha hb hc hd _ ih =>
      simp only [List.forall_mem_cons]
      exact ⟨by decide, by decide, hhex ha, hhex hb, hhex hc, hhex hd, ih⟩

/-- A number is digits, signs, a point and the mark of an exponent. -/
theorem NumberToken.forall_mem {p : UInt8 → Prop} (hdigit : ∀ b, IsDigit b → p b)
    (hminus : p 0x2D) (hplus : p 0x2B) (hpoint : p 0x2E) (hexponent : p 0x65 ∧ p 0x45)
    {t : Bytes} (h : NumberToken t) : ∀ b ∈ t, p b := by
  obtain ⟨sign, i, f, e, rfl, hsign, hi, hf, he⟩ := h
  have hdigits : ∀ {ds : Bytes}, (∀ b ∈ ds, IsDigit b) → ∀ b ∈ ds, p b :=
    fun hds b hb => hdigit b (hds b hb)
  have hsign' : ∀ b ∈ sign, p b := by
    rcases hsign with rfl | rfl <;> simp [hminus]
  have hint : ∀ b ∈ i, p b := by
    rcases hi with rfl | ⟨d, ds, rfl, hlow, hhigh, hds⟩
    · exact List.forall_mem_singleton.mpr (hdigit _ (by decide))
    · exact List.forall_mem_cons.mpr
        ⟨hdigit d ⟨UInt8.le_trans (by decide) hlow, hhigh⟩, hdigits hds⟩
  have hfrac : ∀ b ∈ f, p b := by
    rcases hf with rfl | ⟨ds, rfl, -, hds⟩
    · simp
    · exact List.forall_mem_cons.mpr ⟨hpoint, hdigits hds⟩
  have hexp : ∀ b ∈ e, p b := by
    rcases he with rfl | ⟨mark, sign, ds, rfl, hmark, hs, -, hds⟩
    · simp
    · have hmark' : p mark := by
        rcases hmark with rfl | rfl
        · exact hexponent.1
        · exact hexponent.2
      have hs' : ∀ b ∈ sign, p b := by
        rcases hs with rfl | rfl | rfl <;> simp [hminus, hplus]
      exact List.forall_mem_cons.mpr ⟨hmark', List.forall_mem_append.mpr ⟨hs', hdigits hds⟩⟩
  simp only [List.forall_mem_append]
  exact ⟨⟨⟨hsign', hint⟩, hfrac⟩, hexp⟩

theorem NumberToken.printable {t : Bytes} (h : NumberToken t) : ∀ b ∈ t, 0x20 ≤ b :=
  h.forall_mem (fun _ hb => hb.printable) (by decide) (by decide) (by decide) (by decide)

theorem NumberToken.sevenBit {t : Bytes} (h : NumberToken t) : ∀ b ∈ t, b < 0x80 :=
  h.forall_mem (fun _ hb => UInt8.lt_of_le_of_lt hb.2 (by decide)) (by decide) (by decide)
    (by decide) (by decide)

/-! Outside strings a token holds no quote and no bracket. -/

/-- A byte that neither opens nor closes a string or a container. -/
def isNeutral (b : UInt8) : Bool :=
  b ≠ 0x22 && b ≠ 0x7B && b ≠ 0x5B && b ≠ 0x7D && b ≠ 0x5D

theorem neutral_gap (gap : Gap) : ∀ b ∈ gap.val, isNeutral b = true := by
  intro b hb
  have hw := gap.property b hb
  simp only [whitespaceBytes, List.mem_cons, List.not_mem_nil, or_false] at hw
  rcases hw with rfl | rfl | rfl | rfl <;> decide

theorem neutral_digit {b : UInt8} (h : IsDigit b) : isNeutral b = true := by
  have hne : ∀ c : UInt8, c < 0x30 ∨ 0x39 < c → b ≠ c := by
    rintro c hc rfl
    rcases hc with hc | hc
    · exact absurd h.1 (UInt8.not_le.mpr hc)
    · exact absurd h.2 (UInt8.not_le.mpr hc)
  simp only [isNeutral, Bool.and_eq_true, decide_eq_true_eq]
  exact ⟨⟨⟨⟨hne _ (by decide), hne _ (by decide)⟩, hne _ (by decide)⟩,
    hne _ (by decide)⟩, hne _ (by decide)⟩

theorem neutral_number (t : NumberText) : ∀ b ∈ t.val, isNeutral b = true :=
  t.property.forall_mem (fun _ => neutral_digit) (by decide) (by decide) (by decide) (by decide)

theorem neutral_literal (w : Literal) : ∀ b ∈ w.bytes, isNeutral b = true := by
  apply List.all_eq_true.mp
  cases w <;> rfl

/-! ## Trees and their texts -/

/-- One member of an object, with the whitespace around its four tokens. -/
structure Member (α : Type) where
  lead : Gap
  key : StringText
  preColon : Gap
  postColon : Gap
  value : α
  trail : Gap

structure Element (α : Type) where
  lead : Gap
  value : α
  trail : Gap

/-- A JSON value as spelled. `gap` is the whitespace inside an empty container;
a container with members keeps its whitespace in them. -/
inductive Value where
  | str (text : StringText)
  | num (token : NumberText)
  | lit (word : Literal)
  | obj (gap : Gap) (members : List (Member Value))
  | arr (gap : Gap) (elements : List (Element Value))

/-- A member without whitespace. -/
def Member.compact {α : Type} (key : StringText) (value : α) : Member α :=
  ⟨noGap, key, noGap, noGap, value, noGap⟩

def Element.compact {α : Type} (value : α) : Element α := ⟨noGap, value, noGap⟩

/-- Induction over trees: members and elements are reached by membership. -/
@[elab_as_elim]
theorem Value.inductionOn {P : Value → Prop} (v : Value)
    (str : ∀ t, P (.str t)) (num : ∀ t, P (.num t)) (lit : ∀ w, P (.lit w))
    (obj : ∀ gap ms, (∀ m ∈ ms, P m.value) → P (.obj gap ms))
    (arr : ∀ gap es, (∀ e ∈ es, P e.value) → P (.arr gap es)) : P v := by
  refine @Value.rec P (fun ms => ∀ m ∈ ms, P m.value)
    (fun es => ∀ e ∈ es, P e.value) (fun m => P m.value) (fun e => P e.value)
    str num lit obj arr ?_ ?_ ?_ ?_ ?_ ?_ v
  · intro m hm
    exact absurd hm List.not_mem_nil
  · intro m ms hm hms x hx
    rcases List.mem_cons.mp hx with rfl | hx
    · exact hm
    · exact hms x hx
  · intro e he
    exact absurd he List.not_mem_nil
  · intro e es he hes x hx
    rcases List.mem_cons.mp hx with rfl | hx
    · exact he
    · exact hes x hx
  · intro _ _ _ _ _ _ h
    exact h
  · intro _ _ _ h
    exact h

mutual
/-- The text of a tree. -/
def Value.render : Value → Bytes
  | .str t => 0x22 :: (t.val ++ [0x22])
  | .num t => t.val
  | .lit w => w.bytes
  | .obj gap [] => 0x7B :: (gap.val ++ [0x7D])
  | .obj _ (m :: ms) => 0x7B :: (renderMember m ++ renderMembers ms)
  | .arr gap [] => 0x5B :: (gap.val ++ [0x5D])
  | .arr _ (e :: es) => 0x5B :: (renderElement e ++ renderElements es)
termination_by structural v => v

def renderMember : Member Value → Bytes
  | ⟨lead, key, preColon, postColon, value, trail⟩ =>
      lead.val ++ 0x22 :: (key.val ++ 0x22 :: (preColon.val ++
        0x3A :: (postColon.val ++ (value.render ++ trail.val))))
termination_by structural m => m

/-- The members after the first, each behind its comma, and the brace. -/
def renderMembers : List (Member Value) → Bytes
  | [] => [0x7D]
  | m :: ms => 0x2C :: (renderMember m ++ renderMembers ms)
termination_by structural ms => ms

def renderElement : Element Value → Bytes
  | ⟨lead, value, trail⟩ => lead.val ++ (value.render ++ trail.val)
termination_by structural e => e

def renderElements : List (Element Value) → Bytes
  | [] => [0x5D]
  | e :: es => 0x2C :: (renderElement e ++ renderElements es)
termination_by structural es => es
end

theorem renderMember_eq (m : Member Value) :
    renderMember m = m.lead.val ++ 0x22 :: (m.key.val ++ 0x22 ::
      (m.preColon.val ++ 0x3A :: (m.postColon.val ++
        (m.value.render ++ m.trail.val)))) := by
  cases m; rfl

theorem renderElement_eq (e : Element Value) :
    renderElement e = e.lead.val ++ (e.value.render ++ e.trail.val) := by
  cases e; rfl

@[simp] theorem renderMember_compact (key : StringText) (v : Value) :
    renderMember (Member.compact key v) =
      0x22 :: (key.val ++ 0x22 :: 0x3A :: v.render) := by
  simp [renderMember_eq, Member.compact]

@[simp] theorem renderElement_compact (v : Value) :
    renderElement (Element.compact v) = v.render := by
  simp [renderElement_eq, Element.compact]

@[simp] theorem Element.compact_value (v : Value) : (Element.compact v).value = v := rfl

/-- `text` spells the tree `v`, with whitespace around it. -/
def IsText (text : Bytes) (v : Value) : Prop :=
  ∃ lead trail : Gap, text = lead.val ++ (v.render ++ trail.val)

/-- `text` is one complete well-formed JSON text. -/
def WellFormed (text : Bytes) : Prop := ∃ v, IsText text v

/-- ... and an object. -/
def IsObjectText (text : Bytes) : Prop := ∃ gap ms, IsText text (.obj gap ms)

/-! ## The parts of a value -/

/-- The string `text`, spelled without escapes. -/
def IsPlain (text : Bytes) (v : Value) : Prop :=
  ∃ t : StringText, v = .str t ∧ t.val = text

def plainText : Value → Bytes
  | .str t => t.val
  | _ => []

def membersOf : Value → List (Member Value)
  | .obj _ ms => ms
  | _ => []

def elementsOf : Value → List (Element Value)
  | .arr _ es => es
  | _ => []

/-! ## Members by key -/

/-- The values of the members whose key is spelled `key`. -/
def valuesAt (key : Bytes) : List (Member Value) → List Value
  | [] => []
  | m :: ms => if m.key.val = key then m.value :: valuesAt key ms else valuesAt key ms

theorem valuesAt_cons_of_eq {key : Bytes} {m : Member Value}
    (h : m.key.val = key) (ms : List (Member Value)) :
    valuesAt key (m :: ms) = m.value :: valuesAt key ms := if_pos h

theorem valuesAt_cons_of_ne {key : Bytes} {m : Member Value}
    (h : m.key.val ≠ key) (ms : List (Member Value)) :
    valuesAt key (m :: ms) = valuesAt key ms := if_neg h

theorem valuesAt_append (key : Bytes) (ms ms' : List (Member Value)) :
    valuesAt key (ms ++ ms') = valuesAt key ms ++ valuesAt key ms' := by
  induction ms with
  | nil => rfl
  | cons m ms ih =>
      by_cases h : m.key.val = key
      · rw [List.cons_append, valuesAt_cons_of_eq h, valuesAt_cons_of_eq h, ih,
          List.cons_append]
      · rw [List.cons_append, valuesAt_cons_of_ne h, valuesAt_cons_of_ne h, ih]

theorem mem_valuesAt {key : Bytes} {ms : List (Member Value)} {v : Value} :
    v ∈ valuesAt key ms ↔ ∃ m ∈ ms, m.key.val = key ∧ m.value = v := by
  induction ms with
  | nil => simp [valuesAt]
  | cons m ms ih =>
      by_cases h : m.key.val = key
      · rw [valuesAt_cons_of_eq h, List.mem_cons, ih]
        simp [h, eq_comm]
      · rw [valuesAt_cons_of_ne h, ih]
        simp [h]

theorem eq_nil_or_singleton {α : Type} {l : List α} (h : l.length ≤ 1) :
    l = [] ∨ ∃ a, l = [a] := by
  cases l with
  | nil => exact Or.inl rfl
  | cons a l =>
      have hl : l = [] := by
        simp only [List.length_cons] at h
        exact List.eq_nil_of_length_eq_zero (by omega)
      exact Or.inr ⟨a, by rw [hl]⟩

/-- Where a key is spelled once, it splits the members. -/
theorem valuesAt_eq_singleton {key : Bytes} {ms : List (Member Value)} {v : Value}
    (h : valuesAt key ms = [v]) :
    ∃ pre m post, ms = pre ++ m :: post ∧ valuesAt key pre = [] ∧
      m.key.val = key ∧ m.value = v ∧ valuesAt key post = [] := by
  induction ms with
  | nil => cases h
  | cons m ms ih =>
      by_cases hm : m.key.val = key
      · rw [valuesAt_cons_of_eq hm] at h
        obtain ⟨rfl, hnil⟩ := List.cons_eq_cons.mp h
        exact ⟨[], m, ms, rfl, rfl, hm, rfl, hnil⟩
      · rw [valuesAt_cons_of_ne hm] at h
        obtain ⟨pre, m', post, rfl, hpre, hkey, hv, hpost⟩ := ih h
        refine ⟨m :: pre, m', post, rfl, ?_, hkey, hv, hpost⟩
        rw [valuesAt_cons_of_ne hm]
        exact hpre

theorem valuesAt_split {key : Bytes} {pre post : List (Member Value)}
    {m : Member Value} (hpre : valuesAt key pre = []) (hm : m.key.val = key)
    (hpost : valuesAt key post = []) :
    valuesAt key (pre ++ m :: post) = [m.value] := by
  induction pre with
  | nil => rw [List.nil_append, valuesAt_cons_of_eq hm, hpost]
  | cons m' pre ih =>
      by_cases hm' : m'.key.val = key
      · rw [valuesAt_cons_of_eq hm'] at hpre
        cases hpre
      · rw [valuesAt_cons_of_ne hm'] at hpre
        rw [List.cons_append, valuesAt_cons_of_ne hm', ih hpre]

/-- Change the values of the members whose key is spelled `key`. -/
def mapAt (key : Bytes) (f : Value → Value) (ms : List (Member Value)) :
    List (Member Value) :=
  ms.map fun m => if m.key.val = key then { m with value := f m.value } else m

theorem valuesAt_mapAt (key : Bytes) (f : Value → Value) (ms : List (Member Value)) :
    valuesAt key (mapAt key f ms) = (valuesAt key ms).map f := by
  induction ms with
  | nil => rfl
  | cons m ms ih =>
      unfold mapAt at ih ⊢
      rw [List.map_cons]
      by_cases h : m.key.val = key
      · rw [if_pos h, valuesAt_cons_of_eq h, List.map_cons, ← ih]
        exact valuesAt_cons_of_eq (m := { m with value := f m.value }) h _
      · rw [if_neg h, valuesAt_cons_of_ne h, valuesAt_cons_of_ne h, ih]

theorem valuesAt_mapAt_of_ne {key key' : Bytes} (h : key' ≠ key) (f : Value → Value)
    (ms : List (Member Value)) :
    valuesAt key' (mapAt key f ms) = valuesAt key' ms := by
  induction ms with
  | nil => rfl
  | cons m ms ih =>
      unfold mapAt at ih ⊢
      rw [List.map_cons]
      by_cases hm : m.key.val = key
      · have hne : m.key.val ≠ key' := fun h' => h (h'.symm.trans hm)
        rw [if_pos hm, valuesAt_cons_of_ne hne, ← ih]
        exact valuesAt_cons_of_ne (m := { m with value := f m.value }) hne _
      · rw [if_neg hm]
        by_cases hm' : m.key.val = key'
        · rw [valuesAt_cons_of_eq hm', valuesAt_cons_of_eq hm', ih]
        · rw [valuesAt_cons_of_ne hm', valuesAt_cons_of_ne hm', ih]

theorem mapAt_eq_self {key : Bytes} {f : Value → Value} {ms : List (Member Value)}
    (h : valuesAt key ms = []) : mapAt key f ms = ms := by
  induction ms with
  | nil => rfl
  | cons m ms ih =>
      by_cases hm : m.key.val = key
      · rw [valuesAt_cons_of_eq hm] at h
        cases h
      · rw [valuesAt_cons_of_ne hm] at h
        have hms : mapAt key f (m :: ms) = m :: mapAt key f ms := by
          simp [mapAt, hm]
        rw [hms, ih h]

/-- Where a key is spelled once, only that member changes. -/
theorem mapAt_split {key : Bytes} (f : Value → Value) {pre post : List (Member Value)}
    {m : Member Value} (hpre : valuesAt key pre = []) (hm : m.key.val = key)
    (hpost : valuesAt key post = []) :
    mapAt key f (pre ++ m :: post) = pre ++ { m with value := f m.value } :: post := by
  have happ : mapAt key f (pre ++ m :: post) =
      mapAt key f pre ++ { m with value := f m.value } :: mapAt key f post := by
    simp [mapAt, hm]
  rw [happ, mapAt_eq_self hpre, mapAt_eq_self hpost]

theorem forall_mem_mapAt {key : Bytes} {f : Value → Value} {ms : List (Member Value)}
    {p : Bytes → Value → Prop} (h : ∀ m ∈ ms, p m.key.val m.value)
    (hf : ∀ v, p key v → p key (f v)) :
    ∀ m ∈ mapAt key f ms, p m.key.val m.value := by
  intro m hm
  obtain ⟨m₀, hm₀, rfl⟩ := List.mem_map.mp hm
  have h₀ := h m₀ hm₀
  split
  · rename_i hkey
    show p m₀.key.val (f m₀.value)
    rw [hkey] at h₀ ⊢
    exact hf _ h₀
  · exact h₀

/-! ## Nesting

An empty container adds nothing, any other is one deeper than its deepest
member. -/

mutual
def Value.nesting : Value → Nat
  | .str _ => 0
  | .num _ => 0
  | .lit _ => 0
  | .obj _ [] => 0
  | .obj _ (m :: ms) => 1 + max (memberNesting m) (membersNesting ms)
  | .arr _ [] => 0
  | .arr _ (e :: es) => 1 + max (elementNesting e) (elementsNesting es)
termination_by structural v => v

def memberNesting : Member Value → Nat
  | ⟨_, _, _, _, value, _⟩ => value.nesting
termination_by structural m => m

def membersNesting : List (Member Value) → Nat
  | [] => 0
  | m :: ms => max (memberNesting m) (membersNesting ms)
termination_by structural ms => ms

def elementNesting : Element Value → Nat
  | ⟨_, value, _⟩ => value.nesting
termination_by structural e => e

def elementsNesting : List (Element Value) → Nat
  | [] => 0
  | e :: es => max (elementNesting e) (elementsNesting es)
termination_by structural es => es
end

@[simp] theorem memberNesting_eq (m : Member Value) :
    memberNesting m = m.value.nesting := by
  cases m; rfl

@[simp] theorem elementNesting_eq (e : Element Value) :
    elementNesting e = e.value.nesting := by
  cases e; rfl

theorem membersNesting_le {ms : List (Member Value)} {n : Nat} :
    membersNesting ms ≤ n ↔ ∀ m ∈ ms, m.value.nesting ≤ n := by
  induction ms with
  | nil => simp [membersNesting]
  | cons m ms ih => simp [membersNesting, ih]

theorem elementsNesting_le {es : List (Element Value)} {n : Nat} :
    elementsNesting es ≤ n ↔ ∀ e ∈ es, e.value.nesting ≤ n := by
  induction es with
  | nil => simp [elementsNesting]
  | cons e es ih => simp [elementsNesting, ih]

/-- The nesting of an object, read off its members. -/
theorem nesting_obj_le {gap : Gap} {ms : List (Member Value)} {n : Nat} :
    (Value.obj gap ms).nesting ≤ n ↔ ∀ m ∈ ms, m.value.nesting + 1 ≤ n := by
  cases ms with
  | nil => simp [Value.nesting]
  | cons m ms =>
      simp only [Value.nesting, memberNesting_eq, List.forall_mem_cons]
      cases n with
      | zero => simp
      | succ n =>
          rw [Nat.add_comm, Nat.add_le_add_iff_right, Nat.max_le,
            membersNesting_le]
          simp

theorem nesting_arr_le {gap : Gap} {es : List (Element Value)} {n : Nat} :
    (Value.arr gap es).nesting ≤ n ↔ ∀ e ∈ es, e.value.nesting + 1 ≤ n := by
  cases es with
  | nil => simp [Value.nesting]
  | cons e es =>
      simp only [Value.nesting, elementNesting_eq, List.forall_mem_cons]
      cases n with
      | zero => simp
      | succ n =>
          rw [Nat.add_comm, Nat.add_le_add_iff_right, Nat.max_le,
            elementsNesting_le]
          simp

/-! ## Depth

Here every container counts, the empty ones too. -/

mutual
def Value.depth : Value → Nat
  | .str _ => 0
  | .num _ => 0
  | .lit _ => 0
  | .obj _ ms => 1 + membersDepth ms
  | .arr _ es => 1 + elementsDepth es
termination_by structural v => v

def memberDepth : Member Value → Nat
  | ⟨_, _, _, _, value, _⟩ => value.depth
termination_by structural m => m

def membersDepth : List (Member Value) → Nat
  | [] => 0
  | m :: ms => max (memberDepth m) (membersDepth ms)
termination_by structural ms => ms

def elementDepth : Element Value → Nat
  | ⟨_, value, _⟩ => value.depth
termination_by structural e => e

def elementsDepth : List (Element Value) → Nat
  | [] => 0
  | e :: es => max (elementDepth e) (elementsDepth es)
termination_by structural es => es
end

@[simp] theorem memberDepth_eq (m : Member Value) : memberDepth m = m.value.depth := by
  cases m; rfl

@[simp] theorem elementDepth_eq (e : Element Value) :
    elementDepth e = e.value.depth := by
  cases e; rfl

theorem membersDepth_le {ms : List (Member Value)} {n : Nat} :
    membersDepth ms ≤ n ↔ ∀ m ∈ ms, m.value.depth ≤ n := by
  induction ms with
  | nil => simp [membersDepth]
  | cons m ms ih => simp [membersDepth, ih]

theorem elementsDepth_le {es : List (Element Value)} {n : Nat} :
    elementsDepth es ≤ n ↔ ∀ e ∈ es, e.value.depth ≤ n := by
  induction es with
  | nil => simp [elementsDepth]
  | cons e es ih => simp [elementsDepth, ih]

theorem depth_obj_le {gap : Gap} {ms : List (Member Value)} {n : Nat} :
    (Value.obj gap ms).depth ≤ n + 1 ↔ ∀ m ∈ ms, m.value.depth ≤ n := by
  rw [Value.depth, Nat.add_comm, Nat.add_le_add_iff_right, membersDepth_le]

theorem depth_arr_le {gap : Gap} {es : List (Element Value)} {n : Nat} :
    (Value.arr gap es).depth ≤ n + 1 ↔ ∀ e ∈ es, e.value.depth ≤ n := by
  rw [Value.depth, Nat.add_comm, Nat.add_le_add_iff_right, elementsDepth_le]

theorem nesting_le_depth (v : Value) : v.nesting ≤ v.depth := by
  induction v using Value.inductionOn with
  | str t => exact le_refl 0
  | num t => exact le_refl 0
  | lit w => exact le_refl 0
  | obj gap ms ih =>
      rw [nesting_obj_le]
      intro m hm
      have hdepth := membersDepth_le.mp (le_refl (membersDepth ms)) m hm
      have hm' := ih m hm
      rw [Value.depth]
      omega
  | arr gap es ih =>
      rw [nesting_arr_le]
      intro e he
      have hdepth := elementsDepth_le.mp (le_refl (elementsDepth es)) e he
      have he' := ih e he
      rw [Value.depth]
      omega

/-! ## What may stand next to a value -/

/-- What may follow a value inside a text: nothing, whitespace, or one of the
separators `,`, `}` and `]`. -/
def Follow (rest : Bytes) : Prop :=
  ∀ b ∈ rest.head?, b ∈ whitespaceBytes ∨ b = 0x2C ∨ b = 0x7D ∨ b = 0x5D

theorem follow_nil : Follow [] := by simp [Follow]

theorem follow_cons {b : UInt8} {rest : Bytes} :
    Follow (b :: rest) ↔
      b ∈ whitespaceBytes ∨ b = 0x2C ∨ b = 0x7D ∨ b = 0x5D := by
  simp [Follow]

theorem follow_gap_append {gap : Gap} {rest : Bytes} (h : Follow rest) :
    Follow (gap.val ++ rest) := by
  obtain ⟨w, hw⟩ := gap
  cases w with
  | nil => exact h
  | cons b w => exact follow_cons.mpr (Or.inl (hw b List.mem_cons_self))

theorem follow_gap (gap : Gap) : Follow gap.val := by
  have h := @follow_gap_append gap [] follow_nil
  rwa [List.append_nil] at h

theorem follow_renderMembers (ms : List (Member Value)) (rest : Bytes) :
    Follow (renderMembers ms ++ rest) := by
  cases ms <;> simp [renderMembers, follow_cons]

theorem follow_renderElements (es : List (Element Value)) (rest : Bytes) :
    Follow (renderElements es ++ rest) := by
  cases es <;> simp [renderElements, follow_cons]

/-- A number starts with a minus or a digit. -/
theorem NumberToken.head {t : Bytes} (h : NumberToken t) :
    ∃ b rest, t = b :: rest ∧ (b = 0x2D ∨ IsDigit b) := by
  obtain ⟨sign, i, f, e, rfl, hs, hi, -, -⟩ := h
  rcases hs with rfl | rfl
  · rcases hi with rfl | ⟨d, ds, rfl, h1, h9, -⟩
    · exact ⟨_, _, rfl, Or.inr (by decide)⟩
    · refine ⟨d, ds ++ f ++ e, by simp, Or.inr ⟨?_, h9⟩⟩
      exact UInt8.le_trans (by decide) h1
  · exact ⟨_, _, rfl, Or.inl rfl⟩

end NativeGuard.Json

import NativeGuard.Json.Decode

/-!
# Written texts

The guard's writers (the audit sink, the policy generator) escape a string byte
by byte, with the same table in each copy, put commas between what they list, and
append piece by piece under a bound, giving up at the first piece that does not
fit. What is written is a text of the grammar (`jsonString_render`,
`render_arr_joined`), and a run of appends is one append of the whole text
(`Appends.bind`, `appends_list`).
-/

namespace NativeGuard.Json

/-! ## §1  Strings -/

def hexByte (digit : UInt8) : UInt8 :=
  if digit < 10 then 0x30 + digit else 0x57 + digit

/-- What the writers append for a byte of a string. -/
def escapeByte (byte : UInt8) : Bytes :=
  if byte = 0x22 ∨ byte = 0x5C then [0x5C, byte]
  else if byte = 0x08 then [0x5C, 0x62]
  else if byte = 0x0C then [0x5C, 0x66]
  else if byte = 0x0A then [0x5C, 0x6E]
  else if byte = 0x0D then [0x5C, 0x72]
  else if byte = 0x09 then [0x5C, 0x74]
  else if byte < 0x20 then
    [0x5C, 0x75, 0x30, 0x30, hexByte (byte >>> 4), hexByte (byte &&& 0x0F)]
  else [byte]

def jsonString (value : Bytes) : Bytes := 0x22 :: (value.flatMap escapeByte ++ [0x22])

theorem plain_of_unescaped {raw : Bytes} (h : StringBody raw) (hesc : 0x5C ∉ raw) :
    ∀ b ∈ raw, 0x20 ≤ b ∧ b ≠ 0x22 ∧ b ≠ 0x5C := by
  induction h with
  | nil => exact fun _ hb => absurd hb List.not_mem_nil
  | plain hlow hquote hslash _ ih =>
      exact List.forall_mem_cons.mpr
        ⟨⟨hlow, hquote, hslash⟩, ih fun hmem => hesc (List.mem_cons_of_mem _ hmem)⟩
  | escape _ _ _ => exact absurd List.mem_cons_self hesc
  | unicode _ _ _ _ _ _ => exact absurd List.mem_cons_self hesc

theorem escapeByte_plain {b : UInt8} (h : 0x20 ≤ b ∧ b ≠ 0x22 ∧ b ≠ 0x5C) :
    escapeByte b = [b] := by
  obtain ⟨hlow, hquote, hslash⟩ := h
  have hne : ∀ c : UInt8, c < 0x20 → b ≠ c := by
    rintro c hc rfl
    exact absurd hlow (UInt8.not_le.mpr hc)
  unfold escapeByte
  rw [if_neg (by simp [hquote, hslash]), if_neg (hne _ (by decide)),
    if_neg (hne _ (by decide)), if_neg (hne _ (by decide)), if_neg (hne _ (by decide)),
    if_neg (hne _ (by decide)), if_neg (UInt8.not_lt.mpr hlow)]

/-- A string without escapes is written as it is. -/
theorem jsonString_plain {t : StringText} (h : 0x5C ∉ t.val) :
    jsonString t.val = (Value.str t).render := by
  have hplain : t.val.flatMap escapeByte = t.val := by
    have hbytes : ∀ b ∈ t.val, escapeByte b = [b] := fun b hb =>
      escapeByte_plain (plain_of_unescaped t.property h b hb)
    rw [List.flatMap_congr hbytes]
    exact List.flatMap_singleton' _
  rw [jsonString, hplain, Value.render]

theorem jsonString_length {t : StringText} (h : 0x5C ∉ t.val) :
    (jsonString t.val).length = t.val.length + 2 := by
  rw [jsonString_plain h, Value.render, List.length_cons, List.length_append,
    List.length_singleton]

theorem nibbles_lt (byte : UInt8) :
    (byte >>> 4).toNat < 16 ∧ (byte &&& 0x0F).toNat < 16 ∧
      (byte >>> 4).toNat * 16 + (byte &&& 0x0F).toNat = byte.toNat := by
  have hlt := byte.toNat_lt
  have hhigh : (byte >>> 4).toNat = byte.toNat / 16 := by
    rw [UInt8.toNat_shiftRight, Nat.shiftRight_eq_div_pow]
    rfl
  have hlow : (byte &&& 0x0F).toNat = byte.toNat % 16 := by
    rw [UInt8.toNat_and]
    exact Nat.and_two_pow_sub_one_eq_mod byte.toNat 4
  omega

theorem isHex_hexByte {digit : UInt8} (h : digit.toNat < 16) : IsHex (hexByte digit) := by
  have hcases : ∀ d : Fin 16, IsHex (hexByte (UInt8.ofNat d)) := by decide
  have hdigit := hcases ⟨digit.toNat, h⟩
  rwa [UInt8.ofNat_toNat] at hdigit

theorem escapeByte_body (byte : UInt8) {rest : Bytes} (hrest : StringBody rest) :
    StringBody (escapeByte byte ++ rest) := by
  unfold escapeByte
  split_ifs with hquote h₁ h₂ h₃ h₄ h₅ hcontrol
  · apply StringBody.escape _ hrest
    rcases hquote with rfl | rfl <;> decide
  · exact StringBody.escape (by decide) hrest
  · exact StringBody.escape (by decide) hrest
  · exact StringBody.escape (by decide) hrest
  · exact StringBody.escape (by decide) hrest
  · exact StringBody.escape (by decide) hrest
  · obtain ⟨hhigh, hlow, -⟩ := nibbles_lt byte
    exact StringBody.unicode (by decide) (by decide) (isHex_hexByte hhigh)
      (isHex_hexByte hlow) hrest
  · obtain ⟨hq, hs⟩ := not_or.mp hquote
    exact StringBody.plain (UInt8.not_lt.mp hcontrol) hq hs hrest

theorem stringBody_escaped (value : Bytes) : StringBody (value.flatMap escapeByte) := by
  induction value with
  | nil => exact StringBody.nil
  | cons byte value ih => exact escapeByte_body byte ih

/-- A written string is a string of the grammar. -/
def writtenString (value : Bytes) : StringText :=
  ⟨value.flatMap escapeByte, stringBody_escaped value⟩

theorem jsonString_render (value : Bytes) :
    jsonString value = (Value.str (writtenString value)).render := by
  rw [jsonString, Value.render]
  rfl

/-- The two hexadecimal digits of a byte denote it. -/
theorem hexValue_hexByte {digit : UInt8} (h : digit.toNat < 16) :
    hexValue (hexByte digit) = digit.toNat := by
  have hcases : ∀ d : Fin 16, hexValue (hexByte (UInt8.ofNat d)) = d := by decide
  have hdigit := hcases ⟨digit.toNat, h⟩
  rwa [UInt8.ofNat_toNat] at hdigit

/-- What is written for a byte is one piece, which stands for it. -/
theorem pieces_escapeByte (byte : UInt8) (rest : Bytes) :
    pieces (escapeByte byte ++ rest) = .byte byte :: pieces rest ∨
      byte < 0x20 ∧ pieces (escapeByte byte ++ rest) = .unit byte.toNat :: pieces rest := by
  unfold escapeByte
  split_ifs with hquote h₁ h₂ h₃ h₄ h₅ hcontrol
  · left
    rcases hquote with rfl | rfl <;> rfl
  · exact Or.inl (h₁ ▸ rfl)
  · exact Or.inl (h₂ ▸ rfl)
  · exact Or.inl (h₃ ▸ rfl)
  · exact Or.inl (h₄ ▸ rfl)
  · exact Or.inl (h₅ ▸ rfl)
  · obtain ⟨hhigh, hlow, hsum⟩ := nibbles_lt byte
    refine Or.inr ⟨hcontrol, ?_⟩
    show Piece.unit (hexValue 0x30 * 4096 + hexValue 0x30 * 256 +
      hexValue (hexByte (byte >>> 4)) * 16 + hexValue (hexByte (byte &&& 0x0F))) ::
        pieces rest = _
    have hzero : hexValue 0x30 = 0 := by decide
    rw [hexValue_hexByte hhigh, hexValue_hexByte hlow, hzero, Nat.zero_mul, Nat.zero_add,
      hsum]
  · obtain ⟨-, hslash⟩ := not_or.mp hquote
    left
    rw [List.singleton_append, pieces.eq_4 byte rest
      (fun _ _ _ _ _ hb => absurd hb hslash) (fun _ _ hb => absurd hb hslash)]

theorem encodeUtf8_control {byte : UInt8} (h : byte < 0x20) :
    encodeUtf8 byte.toNat = [byte] := by
  have hlt : byte.toNat < 0x20 := UInt8.lt_iff_toNat_lt.mp h
  rw [encodeUtf8, if_pos (by omega)]
  exact congrArg (fun b => [b]) (UInt8.ofNat_toNat)

/-- A receiver decodes a written string to the bytes it was written from. -/
theorem decodeString_escaped (value : Bytes) :
    decodeString (value.flatMap escapeByte) = value := by
  unfold decodeString
  induction value with
  | nil => rfl
  | cons byte value ih =>
      rw [List.flatMap_cons]
      rcases pieces_escapeByte byte (value.flatMap escapeByte) with hpiece | ⟨hlow, hpiece⟩
      · rw [hpiece, assemble, ih]
      · have hlt : byte.toNat < 0x20 := UInt8.lt_iff_toNat_lt.mp hlow
        have hplain : ¬ IsHighSurrogate byte.toNat := by
          unfold IsHighSurrogate
          omega
        rw [hpiece, assemble, if_neg hplain, encodeUtf8_control hlow, ih]
        rfl

theorem decodeString_writtenString (value : Bytes) :
    decodeString (writtenString value).val = value :=
  decodeString_escaped value

theorem escapeByte_length_le (byte : UInt8) : (escapeByte byte).length ≤ 6 := by
  unfold escapeByte
  split_ifs <;> simp

theorem jsonString_length_le (value : Bytes) :
    (jsonString value).length ≤ 6 * value.length + 2 := by
  have hbody : (value.flatMap escapeByte).length ≤ 6 * value.length := by
    induction value with
    | nil => exact Nat.zero_le _
    | cons byte value ih =>
        have hbyte := escapeByte_length_le byte
        rw [List.flatMap_cons, List.length_append, List.length_cons]
        omega
  rw [jsonString, List.length_cons, List.length_append, List.length_singleton]
  omega

/-! ## §2  Lists -/

theorem intercalate_cons (sep x : Bytes) (xs : List Bytes) :
    List.intercalate sep (x :: xs) = x ++ xs.flatMap fun y => sep ++ y := by
  induction xs generalizing x with
  | nil => simp [List.intercalate]
  | cons y xs ih =>
      have hstep : List.intercalate sep (x :: y :: xs) =
          x ++ (sep ++ List.intercalate sep (y :: xs)) := by
        simp [List.intercalate]
      rw [hstep, ih, List.flatMap_cons, List.append_assoc]

/-- Elements with commas between them, in brackets. -/
theorem render_arr_joined (es : List (Element Value)) :
    (Value.arr noGap es).render =
      0x5B :: (List.intercalate [0x2C] (es.map renderElement) ++ [0x5D]) := by
  have hrest : ∀ es, renderElements es =
      ((es.map renderElement).flatMap fun text => [0x2C] ++ text) ++ [0x5D] := by
    intro es
    induction es with
    | nil => rfl
    | cons e es ih => simp [renderElements, ih]
  cases es with
  | nil => simp [Value.render, List.intercalate, noGap]
  | cons e es =>
      rw [List.map_cons, intercalate_cons, Value.render, hrest, List.append_assoc]

theorem render_arr_compact (vs : List Value) :
    (Value.arr noGap (vs.map .compact)).render =
      0x5B :: (List.intercalate [0x2C] (vs.map Value.render) ++ [0x5D]) := by
  have helements := List.map_congr_left fun v (_ : v ∈ vs) => renderElement_compact v
  rw [render_arr_joined, List.map_map]
  exact congrArg (fun texts => 0x5B :: (List.intercalate [0x2C] texts ++ [0x5D])) helements

/-- Members with commas between them, in braces. -/
theorem render_obj_joined (ms : List (Member Value)) :
    (Value.obj noGap ms).render =
      0x7B :: (List.intercalate [0x2C] (ms.map renderMember) ++ [0x7D]) := by
  have hrest : ∀ ms, renderMembers ms =
      ((ms.map renderMember).flatMap fun text => [0x2C] ++ text) ++ [0x7D] := by
    intro ms
    induction ms with
    | nil => rfl
    | cons m ms ih => simp [renderMembers, ih]
  cases ms with
  | nil => simp [Value.render, List.intercalate, noGap]
  | cons m ms =>
      rw [List.map_cons, intercalate_cons, Value.render, hrest, List.append_assoc]

theorem intercalate_length_le {xs : List Bytes} {n : Nat} (h : ∀ x ∈ xs, x.length ≤ n) :
    (List.intercalate [0x2C] xs).length ≤ xs.length * (n + 1) := by
  cases xs with
  | nil => simp [List.intercalate]
  | cons x xs =>
      have hrest : (xs.flatMap fun y => [0x2C] ++ y).length ≤ xs.length * (n + 1) := by
        have hxs := fun y hy => h y (List.mem_cons_of_mem x hy)
        clear h
        induction xs with
        | nil => simp
        | cons y xs ih =>
            have hy := hxs y List.mem_cons_self
            have hrec := ih fun z hz => hxs z (List.mem_cons_of_mem y hz)
            simp only [List.flatMap_cons, List.length_append, List.length_cons,
              List.length_nil, Nat.add_one_mul]
            omega
      have hx := h x List.mem_cons_self
      rw [intercalate_cons, List.length_append, List.length_cons, Nat.add_one_mul]
      omega

/-! ## §3  Appending under a bound -/

def append (limit : Nat) (value output : Bytes) : Option Bytes :=
  if output.length > limit ∨ value.length > limit - output.length then none
  else some (output ++ value)

def appendJsonString (limit : Nat) (value output : Bytes) : Option Bytes := do
  let output ← append limit [0x22] output
  let output ← value.foldlM (fun output byte => append limit (escapeByte byte) output)
    output
  append limit [0x22] output

/-- A part that stands there only if `c` holds. -/
def appendIf (c : Prop) [Decidable c] (f : Bytes → Option Bytes) (output : Bytes) :
    Option Bytes :=
  if c then f output else some output

/-- Items appended by `f`, with commas between them. -/
def appendList {α : Type} (limit : Nat) (f : α → Bytes → Option Bytes) :
    List α → Bytes → Option Bytes
  | [], output => some output
  | x :: xs, output => f x output >>= fun output =>
      xs.foldlM (fun output y => append limit [0x2C] output >>= f y) output

/-- `f` appends `text` if it fits, and else gives up. -/
def Appends (limit : Nat) (f : Bytes → Option Bytes) (text : Bytes) : Prop :=
  ∀ output : Bytes, output.length ≤ limit → f output =
    if output.length + text.length ≤ limit then some (output ++ text) else none

section appends

variable {limit : Nat} {f g : Bytes → Option Bytes} {text text' : Bytes}

theorem appends_append (value : Bytes) : Appends limit (append limit value) value := by
  intro output houtput
  unfold append
  by_cases h : output.length + value.length ≤ limit
  · rw [if_neg (by omega), if_pos h]
  · rw [if_pos (by omega), if_neg h]

theorem Appends.bind (hf : Appends limit f text) (hg : Appends limit g text') :
    Appends limit (fun output => f output >>= g) (text ++ text') := by
  intro output houtput
  show (f output >>= g) = _
  rw [hf output houtput, List.length_append]
  by_cases h : output.length + text.length ≤ limit
  · have hlength : (output ++ text).length ≤ limit := by
      rw [List.length_append]
      exact h
    rw [if_pos h]
    show g (output ++ text) = _
    rw [hg _ hlength, List.length_append, List.append_assoc, Nat.add_assoc]
  · rw [if_neg h, if_neg (by omega)]
    rfl

theorem Appends.ite (c : Prop) [Decidable c] (hf : Appends limit f text) :
    Appends limit (appendIf c f) (if c then text else []) := by
  intro output houtput
  unfold appendIf
  by_cases h : c
  · simp only [if_pos h]
    exact hf output houtput
  · simp only [if_neg h, List.append_nil, List.length_nil]
    rw [if_pos (by omega)]

theorem appends_foldlM {α : Type} {f : α → Bytes → Option Bytes} {text : α → Bytes}
    (xs : List α) (h : ∀ x ∈ xs, Appends limit (f x) (text x)) :
    Appends limit (fun output => xs.foldlM (fun output x => f x output) output)
      (xs.flatMap text) := by
  induction xs with
  | nil =>
      intro output houtput
      simp [houtput]
  | cons x xs ih =>
      have hcons := (h x List.mem_cons_self).bind
        (ih fun y hy => h y (List.mem_cons_of_mem x hy))
      simpa only [List.foldlM_cons, List.flatMap_cons] using hcons

/-- Items with commas between them. -/
theorem appends_list {α : Type} {f : α → Bytes → Option Bytes} {text : α → Bytes}
    (xs : List α) (h : ∀ x ∈ xs, Appends limit (f x) (text x)) :
    Appends limit (appendList limit f xs) (List.intercalate [0x2C] (xs.map text)) := by
  cases xs with
  | nil =>
      intro output houtput
      simp [appendList, List.intercalate, houtput]
  | cons x xs =>
      have hrest := @appends_foldlM limit _
        (fun y output => append limit [0x2C] output >>= f y) (fun y => [0x2C] ++ text y) xs
        fun y hy => (appends_append [0x2C]).bind (h y (List.mem_cons_of_mem x hy))
      have hlist := (h x List.mem_cons_self).bind hrest
      rw [List.map_cons, intercalate_cons, List.flatMap_map]
      exact hlist

theorem appends_appendJsonString (value : Bytes) :
    Appends limit (appendJsonString limit value) (jsonString value) := by
  have happends := (@appends_append limit [0x22]).bind
    ((appends_foldlM value fun byte _ => appends_append (escapeByte byte)).bind
      (appends_append [0x22]))
  exact happends

end appends

end NativeGuard.Json

import NativeGuard.Json.Write
import NativeGuard.Protocol.Scanner

/-!
# The three string escapers (`src/audit_sink.cpp`, `src/tool_inventory.cpp`,
`src/policy_generator.cpp`)

The audit sink and the tool inventory append a string under a limit, each with its
own copy of the loop, the policy generator without one. Every copy is written out
here as its source has it. They produce one text, `jsonString` of the value, which
the scanner reads back (`escapers_agree`); the bounded copies never leave the limit,
on failure too.
-/

namespace NativeGuard.Protocol.Escapers

open Json Json.Scan

/-! ## §1  Appends by reference -/

/-- An append by reference: whether it fitted, and the output it leaves. -/
abbrev Append : Type := Bytes → Bool × Bytes

/-- `f && g`: `g` runs if `f` fitted. -/
def Append.andThen (f g : Append) : Append := fun output =>
  match f output with
  | (true, output) => g output
  | (false, output) => (false, output)

/-- Append for each byte of the value, up to the first failure. -/
def Append.forEach (f : UInt8 → Append) : Bytes → Append
  | [] => fun output => (true, output)
  | byte :: value => (f byte).andThen (forEach f value)

/-- `f` appends `text` if it fits under the limit, and else a part of it that fits. -/
structure Fits (limit : Nat) (f : Append) (text : Bytes) : Prop where
  ok : ∀ output : Bytes, output.length + text.length ≤ limit →
    f output = (true, output ++ text)
  failed : ∀ output : Bytes, output.length ≤ limit → limit < output.length + text.length →
    ∃ part, part <+: text ∧ output.length + part.length ≤ limit ∧
      f output = (false, output ++ part)

section fits

variable {limit : Nat} {f g : Append} {text text' : Bytes}

theorem Fits.andThen (hf : Fits limit f text) (hg : Fits limit g text') :
    Fits limit (f.andThen g) (text ++ text') where
  ok output h := by
    rw [List.length_append] at h
    have hrest : (output ++ text).length + text'.length ≤ limit := by
      rw [List.length_append]
      omega
    unfold Append.andThen
    rw [hf.ok output (by omega)]
    show g (output ++ text) = _
    rw [hg.ok _ hrest, List.append_assoc]
  failed output houtput h := by
    rw [List.length_append] at h
    unfold Append.andThen
    by_cases hfirst : output.length + text.length ≤ limit
    · -- the second append fails
      have hlength : (output ++ text).length ≤ limit := by
        rw [List.length_append]
        exact hfirst
      have hover : limit < (output ++ text).length + text'.length := by
        rw [List.length_append]
        omega
      obtain ⟨part, hpart, hbound, heq⟩ := hg.failed _ hlength hover
      refine ⟨text ++ part, List.prefix_append_right_inj _ |>.mpr hpart, ?_, ?_⟩
      · rw [List.length_append] at hbound ⊢
        omega
      · rw [hf.ok output hfirst]
        show g (output ++ text) = _
        rw [heq, List.append_assoc]
    · obtain ⟨part, hpart, hbound, heq⟩ := hf.failed output houtput (Nat.lt_of_not_le hfirst)
      refine ⟨part, hpart.trans (List.prefix_append _ _), hbound, ?_⟩
      rw [heq]

theorem Fits.forEach {f : UInt8 → Append} {text : UInt8 → Bytes}
    (h : ∀ byte, Fits limit (f byte) (text byte)) (value : Bytes) :
    Fits limit (Append.forEach f value) (value.flatMap text) := by
  induction value with
  | nil =>
      constructor
      · intro output _
        rw [Append.forEach, List.flatMap_nil, List.append_nil]
      · intro output houtput hover
        exact absurd hover (Nat.not_lt.mpr houtput)
  | cons byte value ih => exact (h byte).andThen ih

/-- The answer, for an output within the limit. -/
theorem Fits.fst_iff (hf : Fits limit f text) {output : Bytes} (h : output.length ≤ limit) :
    (f output).1 = true ↔ output.length + text.length ≤ limit := by
  by_cases hfit : output.length + text.length ≤ limit
  · rw [hf.ok output hfit]
    exact ⟨fun _ => hfit, fun _ => rfl⟩
  · obtain ⟨part, -, -, heq⟩ := hf.failed output h (Nat.lt_of_not_le hfit)
    rw [heq]
    exact ⟨fun h => absurd h Bool.false_ne_true, fun h => absurd h hfit⟩

theorem Fits.within (hf : Fits limit f text) {output : Bytes} (h : output.length ≤ limit) :
    (f output).2.length ≤ limit := by
  by_cases hfit : output.length + text.length ≤ limit
  · rw [hf.ok output hfit, List.length_append]
    exact hfit
  · obtain ⟨part, -, hbound, heq⟩ := hf.failed output h (Nat.lt_of_not_le hfit)
    rw [heq, List.length_append]
    exact hbound

end fits

/-! ## §2  The copies -/

namespace AuditSink

def hex : Bytes := ascii "0123456789abcdef"

def append (value : Bytes) (limit : Nat) : Append := fun output =>
  if output.length > limit ∨ value.length > limit - output.length then (false, output)
  else (true, output ++ value)

def appendEscaped (limit : Nat) (byte : UInt8) : Append :=
  if byte = 0x22 ∨ byte = 0x5C then append [0x5C, byte] limit
  else if byte = 0x08 ∨ byte = 0x0C ∨ byte = 0x0A ∨ byte = 0x0D ∨ byte = 0x09 then
    let escape : UInt8 :=
      if byte = 0x0C then 0x66
      else if byte = 0x0A then 0x6E
      else if byte = 0x0D then 0x72
      else if byte = 0x09 then 0x74
      else 0x62
    append [0x5C, escape] limit
  else if byte < 0x20 then
    append [0x5C, 0x75, 0x30, 0x30, hex.getD (byte >>> 4).toNat 0,
      hex.getD (byte &&& 0x0F).toNat 0] limit
  else append [byte] limit

def appendJsonString (value : Bytes) (limit : Nat) : Append :=
  (append [0x22] limit).andThen
    ((Append.forEach (appendEscaped limit) value).andThen (append [0x22] limit))

end AuditSink

namespace ToolInventory

def hex : Bytes := ascii "0123456789abcdef"

def appendBytes (value : Bytes) (limit : Nat) : Append := fun output =>
  if output.length > limit ∨ value.length > limit - output.length then (false, output)
  else (true, output ++ value)

def appendEscaped (limit : Nat) (byte : UInt8) : Append :=
  if byte = 0x22 ∨ byte = 0x5C then appendBytes [0x5C, byte] limit
  else if byte = 0x08 ∨ byte = 0x0C ∨ byte = 0x0A ∨ byte = 0x0D ∨ byte = 0x09 then
    let escape : UInt8 :=
      if byte = 0x0C then 0x66
      else if byte = 0x0A then 0x6E
      else if byte = 0x0D then 0x72
      else if byte = 0x09 then 0x74
      else 0x62
    appendBytes [0x5C, escape] limit
  else if byte < 0x20 then
    appendBytes [0x5C, 0x75, 0x30, 0x30, hex.getD (byte >>> 4).toNat 0,
      hex.getD (byte &&& 0x0F).toNat 0] limit
  else appendBytes [byte] limit

def appendJsonString (value : Bytes) (limit : Nat) : Append :=
  (appendBytes [0x22] limit).andThen
    ((Append.forEach (appendEscaped limit) value).andThen (appendBytes [0x22] limit))

end ToolInventory

namespace PolicyGenerator

def hex : Bytes := ascii "0123456789abcdef"

def pushBack (output : Bytes) (byte : UInt8) : Bytes := output ++ [byte]

/-- The bytes pushed for one byte of the value. -/
def pushEscaped (output : Bytes) (byte : UInt8) : Bytes :=
  if byte = 0x22 ∨ byte = 0x5C then pushBack (pushBack output 0x5C) byte
  else if byte = 0x08 ∨ byte = 0x0C ∨ byte = 0x0A ∨ byte = 0x0D ∨ byte = 0x09 then
    let escape : UInt8 :=
      if byte = 0x0C then 0x66
      else if byte = 0x0A then 0x6E
      else if byte = 0x0D then 0x72
      else if byte = 0x09 then 0x74
      else 0x62
    pushBack (pushBack output 0x5C) escape
  else if byte < 0x20 then
    let output := pushBack (pushBack (pushBack (pushBack output 0x5C) 0x75) 0x30) 0x30
    pushBack (pushBack output (hex.getD (byte >>> 4).toNat 0))
      (hex.getD (byte &&& 0x0F).toNat 0)
  else pushBack output byte

def appendJsonEscapedString (output value : Bytes) : Bytes :=
  pushBack (value.foldl pushEscaped (pushBack output 0x22)) 0x22

end PolicyGenerator

/-! ## §3  One text -/

/-- The table of the hexadecimal digits. -/
theorem hex_getD {digit : UInt8} (h : digit.toNat < 16) :
    (ascii "0123456789abcdef").getD digit.toNat 0 = hexByte digit := by
  have hcases : ∀ d : Fin 16, (ascii "0123456789abcdef").getD d 0 =
      hexByte (UInt8.ofNat d) := by decide
  have hdigit := hcases ⟨digit.toNat, h⟩
  rwa [UInt8.ofNat_toNat] at hdigit

/-- The branches of the copies, in the order of the source, give the bytes of
`escapeByte`. -/
theorem escape_branches {α : Type} (f : Bytes → α) (byte : UInt8) :
    (if byte = 0x22 ∨ byte = 0x5C then f [0x5C, byte]
    else if byte = 0x08 ∨ byte = 0x0C ∨ byte = 0x0A ∨ byte = 0x0D ∨ byte = 0x09 then
      f [0x5C, if byte = 0x0C then 0x66 else if byte = 0x0A then 0x6E
        else if byte = 0x0D then 0x72 else if byte = 0x09 then 0x74 else 0x62]
    else if byte < 0x20 then
      f [0x5C, 0x75, 0x30, 0x30, (ascii "0123456789abcdef").getD (byte >>> 4).toNat 0,
        (ascii "0123456789abcdef").getD (byte &&& 0x0F).toNat 0]
    else f [byte]) = f (escapeByte byte) := by
  obtain ⟨hhigh, hlow, -⟩ := nibbles_lt byte
  rw [hex_getD hhigh, hex_getD hlow]
  by_cases hquote : byte = 0x22 ∨ byte = 0x5C
  · rw [if_pos hquote, escapeByte, if_pos hquote]
  · rw [if_neg hquote]
    by_cases hletter : byte = 0x08 ∨ byte = 0x0C ∨ byte = 0x0A ∨ byte = 0x0D ∨ byte = 0x09
    · rw [if_pos hletter]
      rcases hletter with rfl | rfl | rfl | rfl | rfl <;> rfl
    · rw [if_neg hletter]
      simp only [not_or] at hletter
      obtain ⟨h₁, h₂, h₃, h₄, h₅⟩ := hletter
      unfold escapeByte
      rw [if_neg hquote, if_neg h₁, if_neg h₂, if_neg h₃, if_neg h₄, if_neg h₅]
      split <;> rfl

section

variable {limit : Nat}

theorem fits_append (value : Bytes) : Fits limit (AuditSink.append value limit) value where
  ok output h := by rw [AuditSink.append, if_neg (by omega)]
  failed output houtput h := by
    refine ⟨[], List.nil_prefix, by simpa using houtput, ?_⟩
    rw [AuditSink.append, if_pos (by omega), List.append_nil]

theorem fits_appendBytes (value : Bytes) :
    Fits limit (ToolInventory.appendBytes value limit) value :=
  fits_append value

theorem AuditSink.appendEscaped_eq (byte : UInt8) :
    AuditSink.appendEscaped limit byte = AuditSink.append (escapeByte byte) limit :=
  escape_branches (fun text => AuditSink.append text limit) byte

theorem ToolInventory.appendEscaped_eq (byte : UInt8) :
    ToolInventory.appendEscaped limit byte =
      ToolInventory.appendBytes (escapeByte byte) limit :=
  escape_branches (fun text => ToolInventory.appendBytes text limit) byte

theorem PolicyGenerator.pushEscaped_eq (output : Bytes) (byte : UInt8) :
    PolicyGenerator.pushEscaped output byte = output ++ escapeByte byte := by
  rw [← escape_branches (fun text => output ++ text) byte]
  unfold PolicyGenerator.pushEscaped
  simp only [PolicyGenerator.pushBack, List.append_assoc, List.cons_append, List.nil_append]
  rfl

theorem AuditSink.fits_jsonString (value : Bytes) :
    Fits limit (AuditSink.appendJsonString value limit) (jsonString value) := by
  have hbyte : ∀ byte, Fits limit (AuditSink.appendEscaped limit byte) (escapeByte byte) := by
    intro byte
    rw [AuditSink.appendEscaped_eq]
    exact fits_append _
  exact (fits_append [0x22]).andThen ((Fits.forEach hbyte value).andThen (fits_append [0x22]))

theorem ToolInventory.fits_jsonString (value : Bytes) :
    Fits limit (ToolInventory.appendJsonString value limit) (jsonString value) := by
  have hbyte : ∀ byte,
      Fits limit (ToolInventory.appendEscaped limit byte) (escapeByte byte) := by
    intro byte
    rw [ToolInventory.appendEscaped_eq]
    exact fits_appendBytes _
  exact (fits_appendBytes [0x22]).andThen
    ((Fits.forEach hbyte value).andThen (fits_appendBytes [0x22]))

theorem PolicyGenerator.appendJsonEscapedString_eq (output value : Bytes) :
    PolicyGenerator.appendJsonEscapedString output value = output ++ jsonString value := by
  have hloop : ∀ output : Bytes, value.foldl PolicyGenerator.pushEscaped output =
      output ++ value.flatMap escapeByte := by
    induction value with
    | nil => exact fun output => (List.append_nil output).symm
    | cons byte value ih =>
        intro output
        rw [List.foldl_cons, PolicyGenerator.pushEscaped_eq, ih, List.flatMap_cons,
          List.append_assoc]
  rw [PolicyGenerator.appendJsonEscapedString, hloop, jsonString]
  simp only [PolicyGenerator.pushBack, List.append_assoc, List.cons_append, List.nil_append]

/-- An output beyond the limit is left as it is. -/
theorem AuditSink.appendJsonString_over {value output : Bytes} (h : limit < output.length) :
    AuditSink.appendJsonString value limit output = (false, output) := by
  unfold AuditSink.appendJsonString Append.andThen AuditSink.append
  rw [if_pos (Or.inl h)]

theorem ToolInventory.appendJsonString_over {value output : Bytes}
    (h : limit < output.length) :
    ToolInventory.appendJsonString value limit output = (false, output) := by
  unfold ToolInventory.appendJsonString Append.andThen ToolInventory.appendBytes
  rw [if_pos (Or.inl h)]

end

/-- The bytes of a written string are at least `0x20`. -/
theorem jsonString_printable (value : Bytes) : ∀ b ∈ jsonString value, 0x20 ≤ b := by
  have hquote : (0x20 : UInt8) ≤ 0x22 := by decide
  have hbody := (stringBody_escaped value).printable
  rw [jsonString]
  refine List.forall_mem_cons.mpr ⟨hquote, fun b hb => ?_⟩
  rcases List.mem_append.mp hb with hb | hb
  · exact hbody b hb
  · rwa [List.mem_singleton.mp hb]

/-- The three copies agree on every value: with room enough, the bounded ones append
what the generator does, a string that the scanner accepts whole and a receiver
decodes to the value; they succeed exactly if it fits. -/
theorem escapers_agree (value : Bytes) :
    let text := PolicyGenerator.appendJsonEscapedString [] value
    (∀ output, PolicyGenerator.appendJsonEscapedString output value = output ++ text) ∧
    (∀ limit output, output.length + text.length ≤ limit →
      AuditSink.appendJsonString value limit output = (true, output ++ text) ∧
      ToolInventory.appendJsonString value limit output = (true, output ++ text)) ∧
    (∀ rest, ∃ token, scanString (text ++ rest) = (.ok token, rest) ∧
      text = 0x22 :: (token.contents ++ [0x22]) ∧ decodeString token.contents = value) ∧
    (∀ b ∈ text, 0x20 ≤ b) ∧
    text.length ≤ 6 * value.length + 2 ∧
    (∀ limit output,
      ((AuditSink.appendJsonString value limit output).1 = true ↔
        output.length + text.length ≤ limit) ∧
      ((ToolInventory.appendJsonString value limit output).1 = true ↔
        output.length + text.length ≤ limit)) ∧
    (∀ limit output,
      (AuditSink.appendJsonString value limit output).2.length ≤
        max limit output.length ∧
      (ToolInventory.appendJsonString value limit output).2.length ≤
        max limit output.length) := by
  have htext : PolicyGenerator.appendJsonEscapedString [] value = jsonString value :=
    PolicyGenerator.appendJsonEscapedString_eq [] value
  intro text
  have ht : text = jsonString value := htext
  clear_value text
  subst ht
  refine ⟨fun output => PolicyGenerator.appendJsonEscapedString_eq output value,
    fun limit output h => ⟨(AuditSink.fits_jsonString value).ok output h,
      (ToolInventory.fits_jsonString value).ok output h⟩, fun rest => ?_,
    jsonString_printable value, jsonString_length_le value, fun limit output => ?_,
    fun limit output => ?_⟩
  · refine ⟨tokenOf (value.flatMap escapeByte), ?_, rfl, decodeString_escaped value⟩
    have hscan := scanString_text (writtenString value) rest
    rw [jsonString, List.cons_append, List.append_assoc]
    exact hscan
  · rcases Nat.lt_or_ge limit output.length with hover | houtput
    · rw [AuditSink.appendJsonString_over hover, ToolInventory.appendJsonString_over hover]
      have hnot : ¬ output.length + (jsonString value).length ≤ limit := by omega
      exact ⟨iff_of_false Bool.false_ne_true hnot, iff_of_false Bool.false_ne_true hnot⟩
    · exact ⟨(AuditSink.fits_jsonString value).fst_iff houtput,
        (ToolInventory.fits_jsonString value).fst_iff houtput⟩
  · rcases Nat.lt_or_ge limit output.length with hover | houtput
    · rw [AuditSink.appendJsonString_over hover, ToolInventory.appendJsonString_over hover]
      exact ⟨Nat.le_max_right _ _, Nat.le_max_right _ _⟩
    · exact ⟨le_max_of_le_left ((AuditSink.fits_jsonString value).within houtput),
        le_max_of_le_left ((ToolInventory.fits_jsonString value).within houtput)⟩

end NativeGuard.Protocol.Escapers

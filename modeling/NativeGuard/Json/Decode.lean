import NativeGuard.Json.Grammar

/-!
# What a receiver reads

A reference decoder for the trees of `Grammar`: the bytes a string denotes once
its escapes are decoded, the rational a number denotes, and the members of an
object under decoded keys. Where an object repeats a key a receiver may keep
any of the duplicates, so `Holds` is a relation.
-/

namespace NativeGuard.Json

/-! ## Strings -/

def hexValue (b : UInt8) : Nat :=
  if IsDigit b then b.toNat - 0x30
  else if 0x61 ≤ b then b.toNat - 0x61 + 10
  else b.toNat - 0x41 + 10

/-- The byte that a one-letter escape stands for. -/
def unescape (e : UInt8) : UInt8 :=
  if e = 0x62 then 0x08
  else if e = 0x66 then 0x0C
  else if e = 0x6E then 0x0A
  else if e = 0x72 then 0x0D
  else if e = 0x74 then 0x09
  else e

/-- A piece of a string: a plain byte or the code unit of a `\u` escape. -/
inductive Piece where
  | byte (b : UInt8)
  | unit (u : Nat)
deriving DecidableEq

def pieces : Bytes → List Piece
  | [] => []
  | 0x5C :: 0x75 :: a :: b :: c :: d :: rest =>
      .unit (hexValue a * 4096 + hexValue b * 256 + hexValue c * 16 + hexValue d) ::
        pieces rest
  | 0x5C :: e :: rest => .byte (unescape e) :: pieces rest
  | b :: rest => .byte b :: pieces rest

def encodeUtf8 (code : Nat) : Bytes :=
  if code < 0x80 then [code.toUInt8]
  else if code < 0x800 then [(0xC0 + code / 64).toUInt8, (0x80 + code % 64).toUInt8]
  else if code < 0x10000 then
    [(0xE0 + code / 4096).toUInt8, (0x80 + code / 64 % 64).toUInt8,
      (0x80 + code % 64).toUInt8]
  else
    [(0xF0 + code / 262144).toUInt8, (0x80 + code / 4096 % 64).toUInt8,
      (0x80 + code / 64 % 64).toUInt8, (0x80 + code % 64).toUInt8]

def IsHighSurrogate (u : Nat) : Prop := 0xD800 ≤ u ∧ u < 0xDC00

instance (u : Nat) : Decidable (IsHighSurrogate u) := by
  unfold IsHighSurrogate; infer_instance

/-- Join the pieces behind a high surrogate that waits for its low half. A
surrogate pair is one code point, a lone surrogate is encoded by itself. -/
def assemble : Option Nat → List Piece → Bytes
  | none, [] => []
  | some h, [] => encodeUtf8 h
  | none, .byte b :: rest => b :: assemble none rest
  | some h, .byte b :: rest => encodeUtf8 h ++ b :: assemble none rest
  | none, .unit u :: rest =>
      if IsHighSurrogate u then assemble (some u) rest
      else encodeUtf8 u ++ assemble none rest
  | some h, .unit u :: rest =>
      if 0xDC00 ≤ u ∧ u < 0xE000 then
        encodeUtf8 (0x10000 + (h - 0xD800) * 1024 + (u - 0xDC00)) ++
          assemble none rest
      else if IsHighSurrogate u then encodeUtf8 h ++ assemble (some u) rest
      else encodeUtf8 h ++ (encodeUtf8 u ++ assemble none rest)

def decodeString (raw : Bytes) : Bytes := assemble none (pieces raw)

theorem pieces_of_no_escape {raw : Bytes} (h : 0x5C ∉ raw) :
    pieces raw = raw.map Piece.byte := by
  induction raw with
  | nil => rfl
  | cons b raw ih =>
      obtain ⟨hb, hraw⟩ := not_or.mp (List.mem_cons.not.mp h)
      rw [pieces.eq_4 b raw (fun _ _ _ _ _ hb' => absurd hb'.symm hb)
        (fun _ _ hb' => absurd hb'.symm hb), ih hraw]
      rfl

theorem assemble_bytes (raw : Bytes) :
    assemble none (raw.map Piece.byte) = raw := by
  induction raw with
  | nil => rfl
  | cons b raw ih => rw [List.map_cons, assemble, ih]

/-- A string without escapes denotes its own bytes. -/
theorem decodeString_of_no_escape {raw : Bytes} (h : 0x5C ∉ raw) :
    decodeString raw = raw := by
  rw [decodeString, pieces_of_no_escape h, assemble_bytes]

example : decodeString (ascii "tools\\/c\\u0061ll") = ascii "tools/call" := by
  decide

/-! ## Numbers -/

def digitsValue (ds : Bytes) : Nat :=
  ds.foldl (fun n d => n * 10 + (d.toNat - 0x30)) 0

def exponentValue : Bytes → Int
  | [] => 0
  | _ :: 0x2D :: ds => -(digitsValue ds : Int)
  | _ :: 0x2B :: ds => digitsValue ds
  | _ :: ds => digitsValue ds

def magnitude (t : Bytes) : ℚ :=
  let int := t.takeWhile fun b => decide (IsDigit b)
  let afterInt := t.dropWhile fun b => decide (IsDigit b)
  let frac := if afterInt.head? = some 0x2E then
      afterInt.tail.takeWhile fun b => decide (IsDigit b) else []
  let afterFrac := if afterInt.head? = some 0x2E then
      afterInt.tail.dropWhile fun b => decide (IsDigit b) else afterInt
  (digitsValue (int ++ frac) : ℚ) *
    (10 : ℚ) ^ (exponentValue afterFrac - (frac.length : Int))

/-- The rational that a number token denotes. -/
def numberValue (t : Bytes) : ℚ :=
  if t.head? = some 0x2D then -magnitude t.tail else magnitude t

/-! ## Values -/

/-- Two scalars denote the same JSON value. -/
inductive SameScalar : Value → Value → Prop where
  | str (s t : StringText) (h : decodeString s.val = decodeString t.val) :
      SameScalar (.str s) (.str t)
  | num (s t : NumberText) (h : numberValue s.val = numberValue t.val) :
      SameScalar (.num s) (.num t)
  | lit (w : Literal) : SameScalar (.lit w) (.lit w)

/-- A receiver of the object `ms` may read `v` as its member `key`. -/
def Holds (ms : List (Member Value)) (key : Bytes) (v : Value) : Prop :=
  ∃ m ∈ ms, decodeString m.key.val = key ∧ m.value = v

/-- Where no key has an escape, the receiver goes by the spelling. -/
theorem holds_iff_mem_valuesAt {ms : List (Member Value)}
    (h : ∀ m ∈ ms, 0x5C ∉ m.key.val) {key : Bytes} {v : Value} :
    Holds ms key v ↔ v ∈ valuesAt key ms := by
  rw [mem_valuesAt]
  constructor
  · rintro ⟨m, hm, hkey, hv⟩
    rw [decodeString_of_no_escape (h m hm)] at hkey
    exact ⟨m, hm, hkey, hv⟩
  · rintro ⟨m, hm, hkey, hv⟩
    refine ⟨m, hm, ?_, hv⟩
    rw [decodeString_of_no_escape (h m hm), hkey]

end NativeGuard.Json

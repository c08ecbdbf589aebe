import NativeGuard.Json.Scan

/-!
# The shared scanners (`src/json_scanner.hpp`): tokens

`scanString`, `scanNumber` and `scanLiteral` as the header has them, over the
bytes left instead of an offset, and what each does on the text of a tree and
on any text it accepts. `skipValue` needs the object and array loops and
follows in `Readers`.
-/

namespace NativeGuard.Protocol

open Json Json.Scan

variable {ε : Type}

/-! ## §1  The scanners -/

structure StringToken where
  contents : Bytes := []
  hasEscape : Bool := false
deriving DecidableEq, Repr

def isWhitespace (value : UInt8) : Bool :=
  value == 0x20 || value == 0x0A || value == 0x0D || value == 0x09

def skipWhitespace : Scan ε Unit := fun s => (.ok (), s.dropWhile isWhitespace)

def isHexDigit (value : UInt8) : Bool :=
  (0x30 ≤ value && value ≤ 0x39) || (0x61 ≤ value && value ≤ 0x66) ||
    (0x41 ≤ value && value ≤ 0x46)

/-- The escapes of one byte after the backslash: `"\/bfnrt`. -/
def isSimpleEscape (escape : UInt8) : Bool :=
  escape == 0x22 || escape == 0x5C || escape == 0x2F || escape == 0x62 ||
    escape == 0x66 || escape == 0x6E || escape == 0x72 || escape == 0x74

/-- Put bytes the loop has passed in front of the token it goes on to find. -/
def StringToken.prepend (passed : Bytes) (escaped : Bool) :
    Except Unit StringToken × Bytes → Except Unit StringToken × Bytes
  | (.ok token, rest) =>
      (.ok ⟨passed ++ token.contents, escaped || token.hasEscape⟩, rest)
  | (.error _, rest) => (.error (), rest)

/-- The loop of `scan_string`, after the opening quote. -/
def scanStringLoop : Bytes → Except Unit StringToken × Bytes
  | [] => (.error (), [])
  | value :: rest =>
      if value == 0x22 then (.ok {}, rest)
      else if value < 0x20 then (.error (), rest)
      else if value != 0x5C then
        StringToken.prepend [value] false (scanStringLoop rest)
      else
        match rest with
        | [] => (.error (), [])
        | escape :: rest =>
            if escape == 0x75 then
              match rest with
              | a :: b :: c :: d :: tail =>
                  if isHexDigit a && isHexDigit b && isHexDigit c && isHexDigit d
                  then StringToken.prepend [value, escape, a, b, c, d] true
                    (scanStringLoop tail)
                  else (.error (), rest)
              | _ => (.error (), rest)
            else if isSimpleEscape escape then
              StringToken.prepend [value, escape] true (scanStringLoop rest)
            else (.error (), rest)

def scanString : Scan Unit StringToken := fun s =>
  match s with
  | [] => (.error (), [])
  | c :: rest => if c == 0x22 then scanStringLoop rest else (.error (), s)

def isDigit (value : UInt8) : Bool := 0x30 ≤ value && value ≤ 0x39

/-- A run of digits that must not be empty (fraction and exponent). -/
def scanDigits : Scan Unit Unit := fun s =>
  let rest := s.dropWhile isDigit
  if rest.length == s.length then (.error (), rest) else (.ok (), rest)

def scanExponent : Scan Unit Unit := fun s =>
  match s with
  | [] => (.ok (), [])
  | c :: rest =>
      if c == 0x65 || c == 0x45 then
        match rest with
        | [] => scanDigits []
        | sign :: tail =>
            if sign == 0x2B || sign == 0x2D then scanDigits tail
            else scanDigits rest
      else (.ok (), s)

def scanFraction : Scan Unit Unit := fun s =>
  match s with
  | [] => (.ok (), [])
  | c :: rest => if c == 0x2E then scanDigits rest else (.ok (), s)

def scanInteger : Scan Unit Unit := fun s =>
  match s with
  | [] => (.error (), [])
  | c :: rest =>
      if c == 0x30 then (.ok (), rest)
      else if 0x31 ≤ c && c ≤ 0x39 then (.ok (), rest.dropWhile isDigit)
      else (.error (), s)

def scanNumber : Scan Unit Unit := do
  let c ← peek
  if c = some 0x2D then
    let _ ← next
    scanInteger
    scanFraction
    scanExponent
  else
    scanInteger
    scanFraction
    scanExponent

def scanLiteral (literal : Bytes) : Scan Unit Unit := fun s =>
  if literal.isPrefixOf s then (.ok (), s.drop literal.length)
  else (.error (), s)

/-! ## §2  Whitespace -/

theorem isWhitespace_iff {b : UInt8} :
    isWhitespace b = true ↔ b ∈ whitespaceBytes := by
  simp [isWhitespace, whitespaceBytes, or_assoc]

/-- `rest` does not start with whitespace: the skip stops in front of it. -/
def Stops (rest : Bytes) : Prop := ∀ b ∈ rest.head?, b ∉ whitespaceBytes

theorem stops_nil : Stops [] := by simp [Stops]

theorem stops_cons {b : UInt8} {rest : Bytes} :
    Stops (b :: rest) ↔ b ∉ whitespaceBytes := by
  simp [Stops]

theorem dropWhile_gap {w : Bytes} (hw : ∀ b ∈ w, b ∈ whitespaceBytes)
    {rest : Bytes} (h : Stops rest) :
    (w ++ rest).dropWhile isWhitespace = rest := by
  induction w with
  | nil =>
      cases rest with
      | nil => rfl
      | cons b rest =>
          have hb : ¬ isWhitespace b = true := by
            rw [isWhitespace_iff]
            exact stops_cons.mp h
          simp [hb]
  | cons b w ih =>
      have hb : isWhitespace b = true :=
        isWhitespace_iff.mpr (hw b List.mem_cons_self)
      rw [List.cons_append, List.dropWhile_cons_of_pos hb]
      exact ih fun x hx => hw x (List.mem_cons_of_mem _ hx)

theorem skipWhitespace_gap (gap : Gap) {rest : Bytes} (h : Stops rest) :
    (skipWhitespace : Scan ε Unit) (gap.val ++ rest) = (.ok (), rest) := by
  unfold skipWhitespace
  rw [dropWhile_gap gap.property h]

theorem skipWhitespace_stops {rest : Bytes} (h : Stops rest) :
    (skipWhitespace : Scan ε Unit) rest = (.ok (), rest) :=
  skipWhitespace_gap ⟨[], by simp⟩ h

theorem skipWhitespace_all (gap : Gap) :
    (skipWhitespace : Scan ε Unit) gap.val = (.ok (), []) := by
  have h := @skipWhitespace_gap ε gap [] stops_nil
  rwa [List.append_nil] at h

/-- What the skip passes is a gap, and it stops in front of a token. -/
theorem skipWhitespace_split {s rest : Bytes} {u : Unit}
    (h : (skipWhitespace : Scan ε Unit) s = (.ok u, rest)) :
    ∃ gap : Gap, s = gap.val ++ rest ∧ Stops rest := by
  have hrest : s.dropWhile isWhitespace = rest := (Prod.mk.injEq .. ▸ h).2
  subst hrest
  refine ⟨⟨s.takeWhile isWhitespace, ?_⟩, ?_, ?_⟩
  · intro b hb
    exact isWhitespace_iff.mp (List.mem_takeWhile_imp hb)
  · exact List.takeWhile_append_dropWhile.symm
  · intro b hb hmem
    have hno := List.head?_dropWhile_not isWhitespace s
    rw [Option.mem_def.mp hb] at hno
    have hyes := isWhitespace_iff.mpr hmem
    simp [hyes] at hno

theorem skipWhitespace_bind {α : Type} {f : Unit → Scan ε α} {s : Bytes}
    {r : Except ε α × Bytes} (h : (skipWhitespace >>= f) s = r) :
    ∃ (gap : Gap) (tail : Bytes), s = gap.val ++ tail ∧ Stops tail ∧
      f () tail = r := by
  obtain ⟨gap, hs, hstop⟩ := @skipWhitespace_split ε s
    (s.dropWhile isWhitespace) () rfl
  exact ⟨gap, _, hs, hstop, h⟩

/-! ## §3  Strings -/

theorem isHexDigit_iff {b : UInt8} : isHexDigit b = true ↔ IsHex b := by
  simp [isHexDigit, IsHex, IsDigit, or_assoc]

theorem isSimpleEscape_iff {b : UInt8} :
    isSimpleEscape b = true ↔ b ∈ escapeBytes := by
  simp [isSimpleEscape, escapeBytes, or_assoc]

/-- The token of a string text. -/
def tokenOf (raw : Bytes) : StringToken := ⟨raw, decide (0x5C ∈ raw)⟩

@[simp] theorem tokenOf_contents (raw : Bytes) :
    (tokenOf raw).contents = raw := rfl

theorem prepend_tokenOf (passed : Bytes) (escaped : Bool) (raw rest : Bytes)
    (h : escaped = decide (0x5C ∈ passed)) :
    StringToken.prepend passed escaped (.ok (tokenOf raw), rest) =
      (.ok (tokenOf (passed ++ raw)), rest) := by
  subst h
  simp [StringToken.prepend, tokenOf]

theorem scanStringLoop_body {raw : Bytes} (h : StringBody raw) (rest : Bytes) :
    scanStringLoop (raw ++ 0x22 :: rest) = (.ok (tokenOf raw), rest) := by
  induction h with
  | nil =>
      rw [List.nil_append, scanStringLoop.eq_def]
      simp [tokenOf]
  | @plain b tail hlow hquote hslash _ ih =>
      have hlow' : ¬ b < 0x20 := UInt8.not_lt.mpr hlow
      rw [List.cons_append, scanStringLoop.eq_def]
      simp only [beq_iff_eq, if_neg hquote, if_neg hlow', bne_iff_ne, ne_eq,
        hslash, not_false_eq_true, if_true, ih]
      exact prepend_tokenOf [b] false tail rest (by simp [Ne.symm hslash])
  | @escape e tail he _ ih =>
      have hu : ¬ e = 0x75 := by
        rintro rfl
        exact absurd he (by decide)
      have hs : isSimpleEscape e = true := isSimpleEscape_iff.mpr he
      rw [List.cons_append, List.cons_append, scanStringLoop.eq_def]
      simp only [beq_iff_eq, if_neg hu, hs, if_true, ih]
      exact prepend_tokenOf [0x5C, e] true tail rest (by simp)
  | @unicode a b c d tail ha hb hc hd _ ih =>
      simp only [List.cons_append]
      rw [scanStringLoop.eq_def]
      simp only [isHexDigit_iff.mpr ha, isHexDigit_iff.mpr hb,
        isHexDigit_iff.mpr hc, isHexDigit_iff.mpr hd, ih]
      exact prepend_tokenOf [0x5C, 0x75, a, b, c, d] true tail rest (by simp)

theorem prepend_eq_ok {passed : Bytes} {escaped : Bool}
    {r : Except Unit StringToken × Bytes} {t : StringToken} {rest : Bytes}
    (h : StringToken.prepend passed escaped r = (.ok t, rest)) :
    ∃ u, r = (.ok u, rest) ∧
      t = ⟨passed ++ u.contents, escaped || u.hasEscape⟩ := by
  rcases r with ⟨r, mid⟩
  cases r with
  | error e => simp [StringToken.prepend] at h
  | ok u =>
      simp only [StringToken.prepend, Prod.mk.injEq, Except.ok.injEq] at h
      obtain ⟨rfl, rfl⟩ := h
      exact ⟨u, rfl, rfl⟩

/-- The loop returns exactly the contents up to the closing quote, which are a
string body, and has seen an escape exactly if they hold a backslash. -/
theorem scanStringLoop_sound {s rest : Bytes} {t : StringToken}
    (h : scanStringLoop s = (.ok t, rest)) :
    s = t.contents ++ 0x22 :: rest ∧ StringBody t.contents ∧
      t = tokenOf t.contents := by
  fun_induction scanStringLoop s generalizing t with
  | case1 => simp at h
  | case2 value tail hq =>
      simp only [Prod.mk.injEq, Except.ok.injEq] at h
      obtain ⟨rfl, rfl⟩ := h
      have hq' : value = 0x22 := by simpa using hq
      subst hq'
      exact ⟨rfl, StringBody.nil, rfl⟩
  | case3 => simp at h
  | case4 value tail hq hlow hslash ih =>
      obtain ⟨u, hu, rfl⟩ := prepend_eq_ok h
      obtain ⟨htail, hbody, htok⟩ := ih hu
      have hq' : value ≠ 0x22 := by simpa using hq
      have hs' : value ≠ 0x5C := by simpa using hslash
      refine ⟨by simp [htail], ?_, ?_⟩
      · exact StringBody.plain (UInt8.not_lt.mp hlow) hq' hs' hbody
      · rw [htok]
        simp [tokenOf, Ne.symm hs']
  | case5 => simp at h
  | case6 value hq hlow hslash escape hu a b c d tail hhex ih =>
      obtain ⟨u, hu', rfl⟩ := prepend_eq_ok h
      obtain ⟨htail, hbody, htok⟩ := ih hu'
      have hs' : value = 0x5C := by simpa using hslash
      have he' : escape = 0x75 := by simpa using hu
      subst hs' he'
      simp only [Bool.and_eq_true, isHexDigit_iff] at hhex
      obtain ⟨⟨⟨ha, hb⟩, hc⟩, hd⟩ := hhex
      refine ⟨by simp [htail], StringBody.unicode ha hb hc hd hbody, ?_⟩
      simp [tokenOf]
  | case7 => simp at h
  | case8 => simp at h
  | case9 value hq hlow hslash escape tail hu hsimple ih =>
      obtain ⟨u, hu', rfl⟩ := prepend_eq_ok h
      obtain ⟨htail, hbody, htok⟩ := ih hu'
      have hs' : value = 0x5C := by simpa using hslash
      subst hs'
      refine ⟨by simp [htail],
        StringBody.escape (isSimpleEscape_iff.mp hsimple) hbody, ?_⟩
      simp [tokenOf]
  | case10 => simp at h

theorem scanString_text (t : StringText) (rest : Bytes) :
    scanString (0x22 :: (t.val ++ 0x22 :: rest)) =
      (.ok (tokenOf t.val), rest) := by
  unfold scanString
  simpa using scanStringLoop_body t.property rest

/-- Whatever `scanString` accepts is a string text. -/
theorem scanString_sound {s rest : Bytes} {token : StringToken}
    (h : scanString s = (.ok token, rest)) :
    ∃ t : StringText, s = 0x22 :: (t.val ++ 0x22 :: rest) ∧
      token = tokenOf t.val := by
  unfold scanString at h
  cases s with
  | nil => simp at h
  | cons c tail =>
      by_cases hc : c = 0x22
      · subst hc
        simp only [beq_self_eq_true, if_true] at h
        obtain ⟨htail, hbody, htok⟩ := scanStringLoop_sound h
        exact ⟨⟨token.contents, hbody⟩, by rw [htail], htok⟩
      · simp [hc] at h

theorem scanString_bind {α : Type} {e : ε} {f : StringToken → Scan ε α}
    {s rest : Bytes} {r : α}
    (h : (scanString.orFail e >>= f) s = (.ok r, rest)) :
    ∃ (t : StringText) (tail : Bytes), s = 0x22 :: (t.val ++ 0x22 :: tail) ∧
      f (tokenOf t.val) tail = (.ok r, rest) := by
  obtain ⟨token, tail, htoken, h⟩ := bind_eq_ok.mp h
  obtain ⟨t, hs, rfl⟩ := scanString_sound (orFail_eq_ok.mp htoken)
  exact ⟨t, tail, hs, h⟩

/-! ## §4  Numbers

Maximal munch: a number is scanned whole when what follows it cannot continue
it, which every `Follow` text guarantees. -/

theorem isDigit_iff {b : UInt8} : isDigit b = true ↔ IsDigit b := by
  simp [isDigit, IsDigit]

/-- The first byte of `rest`, if any, is not a digit. -/
def NoDigit (rest : Bytes) : Prop := ∀ b ∈ rest.head?, ¬ IsDigit b

theorem noDigit_cons {b : UInt8} {rest : Bytes} :
    NoDigit (b :: rest) ↔ ¬ IsDigit b := by
  simp [NoDigit]

theorem dropWhile_digits {ds rest : Bytes} (hds : ∀ b ∈ ds, IsDigit b)
    (h : NoDigit rest) : (ds ++ rest).dropWhile isDigit = rest := by
  induction ds with
  | nil =>
      cases rest with
      | nil => rfl
      | cons b rest =>
          have hb : ¬ isDigit b = true := by
            rw [isDigit_iff]
            exact noDigit_cons.mp h
          simp [hb]
  | cons b ds ih =>
      have hb : isDigit b = true := isDigit_iff.mpr (hds b List.mem_cons_self)
      rw [List.cons_append, List.dropWhile_cons_of_pos hb]
      exact ih fun x hx => hds x (List.mem_cons_of_mem _ hx)

theorem takeWhile_digits (s : Bytes) : ∀ b ∈ s.takeWhile isDigit, IsDigit b := by
  intro b hb
  exact isDigit_iff.mp (List.mem_takeWhile_imp hb)

theorem scanDigits_run {ds rest : Bytes} (hne : ds ≠ [])
    (hds : ∀ b ∈ ds, IsDigit b) (h : NoDigit rest) :
    scanDigits (ds ++ rest) = (.ok (), rest) := by
  have hlen : ds.length ≠ 0 := by simpa using hne
  unfold scanDigits
  simp [dropWhile_digits hds h, hlen]

theorem scanDigits_sound {s rest : Bytes} {u : Unit}
    (h : scanDigits s = (.ok u, rest)) :
    ∃ ds, s = ds ++ rest ∧ ds ≠ [] ∧ ∀ b ∈ ds, IsDigit b := by
  unfold scanDigits at h
  simp only at h
  split at h
  · simp at h
  · rename_i hne
    have hrest : s.dropWhile isDigit = rest := (Prod.mk.injEq .. ▸ h).2
    have hsplit := @List.takeWhile_append_dropWhile _ isDigit s
    rw [hrest] at hsplit hne
    refine ⟨s.takeWhile isDigit, hsplit.symm, ?_, takeWhile_digits s⟩
    intro hnil
    rw [hnil, List.nil_append] at hsplit
    exact hne (by simp [hsplit])

theorem scanInteger_run {i rest : Bytes} (hi : IntPart i) (h : NoDigit rest) :
    scanInteger (i ++ rest) = (.ok (), rest) := by
  unfold scanInteger
  rcases hi with rfl | ⟨d, ds, rfl, h1, h9, hds⟩
  · simp
  · have h0 : ¬ d = 0x30 := by
      rintro rfl
      exact absurd h1 (by decide)
    simp [h0, h1, h9, dropWhile_digits hds h]

theorem scanInteger_sound {s rest : Bytes} {u : Unit}
    (h : scanInteger s = (.ok u, rest)) : ∃ i, s = i ++ rest ∧ IntPart i := by
  unfold scanInteger at h
  cases s with
  | nil => simp at h
  | cons c tail =>
      simp only at h
      split at h
      · rename_i hc
        have hrest : tail = rest := (Prod.mk.injEq .. ▸ h).2
        have hc' : c = 0x30 := by simpa using hc
        exact ⟨[0x30], by simp [hc', hrest], Or.inl rfl⟩
      · split at h
        · rename_i hrange
          have hrest : tail.dropWhile isDigit = rest := (Prod.mk.injEq .. ▸ h).2
          simp only [Bool.and_eq_true, decide_eq_true_eq] at hrange
          refine ⟨c :: tail.takeWhile isDigit, ?_, Or.inr ⟨c, _, rfl, hrange.1,
            hrange.2, takeWhile_digits tail⟩⟩
          rw [← hrest, List.cons_append, List.takeWhile_append_dropWhile]
        · simp at h

theorem scanFraction_run {f rest : Bytes} (hf : FracPart f)
    (hdig : NoDigit rest) (hdot : ∀ b ∈ rest.head?, b ≠ 0x2E) :
    scanFraction (f ++ rest) = (.ok (), rest) := by
  unfold scanFraction
  rcases hf with rfl | ⟨ds, rfl, hne, hds⟩
  · cases rest with
    | nil => rfl
    | cons b rest =>
        have hb : b ≠ 0x2E := hdot b (by simp)
        simp [hb]
  · simpa using scanDigits_run hne hds hdig

theorem scanFraction_sound {s rest : Bytes} {u : Unit}
    (h : scanFraction s = (.ok u, rest)) : ∃ f, s = f ++ rest ∧ FracPart f := by
  unfold scanFraction at h
  cases s with
  | nil =>
      have hrest : [] = rest := (Prod.mk.injEq .. ▸ h).2
      exact ⟨[], by simp [← hrest], Or.inl rfl⟩
  | cons c tail =>
      by_cases hc : c = 0x2E
      · simp only [hc, beq_self_eq_true, if_true] at h
        obtain ⟨ds, rfl, hne, hds⟩ := scanDigits_sound h
        exact ⟨0x2E :: ds, by simp [hc], Or.inr ⟨ds, rfl, hne, hds⟩⟩
      · simp only [beq_iff_eq, if_neg hc, Prod.mk.injEq] at h
        exact ⟨[], by simp [h.2], Or.inl rfl⟩

theorem scanExponent_run {e rest : Bytes} (he : ExpPart e)
    (hdig : NoDigit rest) (hmark : ∀ b ∈ rest.head?, b ≠ 0x65 ∧ b ≠ 0x45) :
    scanExponent (e ++ rest) = (.ok (), rest) := by
  unfold scanExponent
  rcases he with rfl | ⟨mark, sign, ds, rfl, hm, hs, hne, hds⟩
  · cases rest with
    | nil => rfl
    | cons b rest =>
        obtain ⟨h1, h2⟩ := hmark b (by simp)
        simp [h1, h2]
  · have hscan := scanDigits_run hne hds hdig
    obtain ⟨d, ds, rfl⟩ := List.exists_cons_of_ne_nil hne
    have hd : IsDigit d := hds d List.mem_cons_self
    have hplus : ¬ d = 0x2B := by rintro rfl; exact absurd hd (by decide)
    have hminus : ¬ d = 0x2D := by rintro rfl; exact absurd hd (by decide)
    simp only [List.cons_append] at hscan
    rcases hm with rfl | rfl <;> rcases hs with rfl | rfl | rfl <;>
      simp [hplus, hminus, hscan]

theorem scanExponent_sound {s rest : Bytes} {u : Unit}
    (h : scanExponent s = (.ok u, rest)) : ∃ e, s = e ++ rest ∧ ExpPart e := by
  unfold scanExponent at h
  cases s with
  | nil =>
      have hrest : [] = rest := (Prod.mk.injEq .. ▸ h).2
      exact ⟨[], by simp [← hrest], Or.inl rfl⟩
  | cons c tail =>
      by_cases hc : c = 0x65 ∨ c = 0x45
      · have hc' : (c == 0x65 || c == 0x45) = true := by simpa using hc
        simp only [hc', if_true] at h
        cases tail with
        | nil =>
            obtain ⟨ds, hds, hne, -⟩ := scanDigits_sound h
            have hnil : ds = [] := (List.append_eq_nil_iff.mp hds.symm).1
            exact absurd hnil hne
        | cons x tail =>
            by_cases hx : x = 0x2B ∨ x = 0x2D
            · have hx' : (x == 0x2B || x == 0x2D) = true := by simpa using hx
              simp only [hx', if_true] at h
              obtain ⟨ds, rfl, hne, hds⟩ := scanDigits_sound h
              refine ⟨c :: ([x] ++ ds), by simp,
                Or.inr ⟨c, [x], ds, rfl, hc, Or.inr ?_, hne, hds⟩⟩
              simpa using hx
            · have hx' : (x == 0x2B || x == 0x2D) = false := by
                simpa [not_or] using hx
              simp only [hx', Bool.false_eq_true, if_false] at h
              obtain ⟨ds, hds, hne, hall⟩ := scanDigits_sound h
              exact ⟨c :: ([] ++ ds), by simp [hds],
                Or.inr ⟨c, [], ds, rfl, hc, Or.inl rfl, hne, hall⟩⟩
      · have hc' : (c == 0x65 || c == 0x45) = false := by
          simpa [not_or] using hc
        simp only [hc', Bool.false_eq_true, if_false, Prod.mk.injEq] at h
        exact ⟨[], by simp [h.2], Or.inl rfl⟩

/-- A separator cannot continue a number. -/
theorem noNumber_of_follow {rest : Bytes} (h : Follow rest) :
    ∀ b ∈ rest.head?, ¬ IsDigit b ∧ b ≠ 0x2E ∧ b ≠ 0x65 ∧ b ≠ 0x45 := by
  intro b hb
  have hsep := h b hb
  simp only [whitespaceBytes, List.mem_cons, List.not_mem_nil, or_false] at hsep
  rcases hsep with (rfl | rfl | rfl | rfl) | rfl | rfl | rfl <;> decide

/-- The three parts of a number, scanned in front of a separator. -/
theorem scanParts_run {i f e rest : Bytes} (hi : IntPart i) (hf : FracPart f)
    (he : ExpPart e) (h : Follow rest) :
    (do scanInteger; scanFraction; scanExponent : Scan Unit Unit)
      (i ++ (f ++ (e ++ rest))) = (.ok (), rest) := by
  have hno := noNumber_of_follow h
  have hdig : NoDigit rest := fun b hb => (hno b hb).1
  have hexp : ∀ b ∈ (e ++ rest).head?, ¬ IsDigit b ∧ b ≠ 0x2E := by
    rcases he with rfl | ⟨mark, sign, ds, rfl, hm, -⟩
    · intro b hb
      exact ⟨(hno b hb).1, (hno b hb).2.1⟩
    · intro b hb
      have hb' : b = mark := by simpa [eq_comm] using hb
      subst hb'
      rcases hm with rfl | rfl <;> decide
  have hfrac : NoDigit (f ++ (e ++ rest)) := by
    rcases hf with rfl | ⟨ds, rfl, -⟩
    · exact fun b hb => (hexp b hb).1
    · intro b hb
      have hb' : b = 0x2E := by simpa [eq_comm] using hb
      subst hb'
      decide
  have h1 := scanInteger_run hi hfrac
  have h2 := scanFraction_run hf (fun b hb => (hexp b hb).1)
    (fun b hb => (hexp b hb).2)
  have h3 := scanExponent_run he hdig (fun b hb => (hno b hb).2.2)
  simp [bind_apply, h1, h2, h3]

theorem scanParts_sound {s rest : Bytes} {u : Unit}
    (h : (do scanInteger; scanFraction; scanExponent : Scan Unit Unit) s =
      (.ok u, rest)) :
    ∃ i f e, s = i ++ f ++ e ++ rest ∧ IntPart i ∧ FracPart f ∧ ExpPart e := by
  obtain ⟨_, s₁, hi, h⟩ := bind_eq_ok.mp h
  obtain ⟨_, s₂, hf, he⟩ := bind_eq_ok.mp h
  obtain ⟨i, rfl, hint⟩ := scanInteger_sound hi
  obtain ⟨f, rfl, hfrac⟩ := scanFraction_sound hf
  obtain ⟨e, rfl, hexp⟩ := scanExponent_sound he
  exact ⟨i, f, e, by simp, hint, hfrac, hexp⟩

theorem scanNumber_token (t : NumberText) {rest : Bytes} (h : Follow rest) :
    scanNumber (t.val ++ rest) = (.ok (), rest) := by
  obtain ⟨t, sign, i, f, e, rfl, hs, hi, hf, he⟩ := t
  have hparts := scanParts_run hi hf he h
  unfold scanNumber
  rcases hs with rfl | rfl
  · have hhead : (i ++ (f ++ (e ++ rest))).head? ≠ some 0x2D := by
      rcases hi with rfl | ⟨d, ds, rfl, h1, -⟩
      · simp
      · simp only [List.cons_append, List.head?_cons, ne_eq, Option.some.injEq]
        rintro rfl
        exact absurd h1 (by decide)
    simp only [List.nil_append, List.append_assoc, bind_apply, peek, hhead,
      if_false]
    exact hparts
  · simp only [List.append_assoc, bind_apply, peek, List.cons_append,
      List.nil_append, List.head?_cons, if_true, next, List.tail_cons]
    exact hparts

/-- Whatever `scanNumber` accepts is a number token. -/
theorem scanNumber_sound {s rest : Bytes} {u : Unit}
    (h : scanNumber s = (.ok u, rest)) :
    ∃ t : NumberText, s = t.val ++ rest := by
  unfold scanNumber at h
  obtain ⟨c, mid, hc, h⟩ := bind_eq_ok.mp h
  obtain ⟨rfl, rfl⟩ := peek_eq_ok.mp hc
  split at h
  · rename_i hminus
    obtain ⟨c, mid, hc, h⟩ := bind_eq_ok.mp h
    obtain ⟨rfl, rfl⟩ := next_eq_ok.mp hc
    obtain ⟨i, f, e, hs, hi, hf, he⟩ := scanParts_sound h
    refine ⟨⟨[0x2D] ++ i ++ f ++ e, [0x2D], i, f, e, rfl, Or.inr rfl, hi, hf,
      he⟩, ?_⟩
    cases s with
    | nil => simp at hminus
    | cons b s =>
        simp only [List.head?_cons, Option.some.injEq] at hminus
        simp only [List.tail_cons] at hs
        simp [hminus, hs]
  · obtain ⟨i, f, e, hs, hi, hf, he⟩ := scanParts_sound h
    exact ⟨⟨[] ++ i ++ f ++ e, [], i, f, e, rfl, Or.inl rfl, hi, hf, he⟩,
      by simp [hs]⟩

theorem scanInteger_error {s : Bytes} (h : ∀ b ∈ s.head?, ¬ IsDigit b) :
    (scanInteger s).1 = .error () := by
  unfold scanInteger
  cases s with
  | nil => rfl
  | cons c tail =>
      have hc : ¬ IsDigit c := h c (by simp)
      have h0 : ¬ c = 0x30 := by
        rintro rfl
        exact hc (by decide)
      have h1 : ¬ (0x31 ≤ c ∧ c ≤ 0x39) := by
        rintro ⟨hlo, hhi⟩
        exact hc ⟨UInt8.le_trans (by decide) hlo, hhi⟩
      simp [h0, h1]

/-- Without a minus or a digit at the cursor there is no number. -/
theorem scanNumber_error {s : Bytes}
    (h : ∀ b ∈ s.head?, b ≠ 0x2D ∧ ¬ IsDigit b) :
    (scanNumber s).1 = .error () := by
  have hminus : ¬ s.head? = some 0x2D := fun hs => (h 0x2D hs).1 rfl
  have hint := scanInteger_error fun b hb => (h b hb).2
  unfold scanNumber
  rw [peek_bind, if_neg hminus, bind_apply]
  rcases hs : scanInteger s with ⟨r, rest⟩
  rw [hs] at hint
  cases hint
  rfl

/-! ## §5  Literals -/

theorem scanLiteral_append (literal rest : Bytes) :
    scanLiteral literal (literal ++ rest) = (.ok (), rest) := by
  simp [scanLiteral]

theorem scanLiteral_sound {literal s rest : Bytes} {u : Unit}
    (h : scanLiteral literal s = (.ok u, rest)) : s = literal ++ rest := by
  unfold scanLiteral at h
  split at h
  · rename_i hpre
    obtain ⟨tail, rfl⟩ := List.isPrefixOf_iff_prefix.mp hpre
    have hrest : (literal ++ tail).drop literal.length = rest :=
      (Prod.mk.injEq .. ▸ h).2
    rw [← hrest, List.drop_left]
  · simp at h

/-- A failed literal leaves the cursor alone. -/
theorem scanLiteral_error {literal s : Bytes} (h : ¬ literal <+: s) :
    scanLiteral literal s = (.error (), s) := by
  unfold scanLiteral
  rw [if_neg]
  rwa [List.isPrefixOf_iff_prefix]

end NativeGuard.Protocol

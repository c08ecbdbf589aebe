import NativeGuard.Protocol.Loops

/-!
# Readers of one value

A `Reader` is a scan that reads exactly one JSON value, together with what it
computes on the tree of that value and the proof that the two agree. The
parsers' member handlers are readers, put together from the token scanners, so
that what a parser does with a tree needs no separate proof. `ObjectReader` and
`ArrayReader` are the loops over readers.

`skipValue` is the first reader: it accepts a value exactly when its nesting is
within the levels left (`skipValueAt_read`).
-/

namespace NativeGuard.Protocol

open Json Json.Scan

variable {σ ε α β : Type}

/-! ## §1  Readers -/

structure Reader (ε α : Type) where
  scan : Scan ε α
  read : Value → Except ε α
  agrees : ∀ v rest, Follow rest →
    Agrees scan (v.render ++ rest) (read v) rest
  /-- Where the text goes on behind it, the scan has taken exactly a value. -/
  takes : ∀ s a rest, scan s = (.ok a, rest) → rest ≠ [] →
    ∃ v : Value, s = v.render ++ rest

theorem render_head_append (v : Value) (rest : Bytes) :
    (v.render ++ rest).head? = v.render.head? := by
  obtain ⟨b, t, h, -⟩ := render_head v []
  rw [List.append_nil] at h
  rw [h]
  rfl

theorem head_str (t : StringText) : (Value.str t).render.head? = some 0x22 := rfl

theorem head_obj (gap : Gap) (ms : List (Member Value)) :
    (Value.obj gap ms).render.head? = some 0x7B := by
  cases ms <;> rfl

theorem head_arr (gap : Gap) (es : List (Element Value)) :
    (Value.arr gap es).render.head? = some 0x5B := by
  cases es <;> rfl

theorem head_num (t : NumberText) {b : UInt8} (hminus : b ≠ 0x2D)
    (hdigit : ¬ IsDigit b) : (Value.num t).render.head? ≠ some b := by
  obtain ⟨c, tail, ht, hc⟩ := t.property.head
  intro h
  have hbc : c = b := by simpa [Value.render, ht] using h
  subst hbc
  exact hc.elim hminus hdigit

/-- Only strings start with a quote. -/
theorem head_quote_iff {v : Value} :
    v.render.head? = some 0x22 ↔ ∃ t, v = .str t := by
  constructor
  · intro h
    cases v with
    | str t => exact ⟨t, rfl⟩
    | num t => exact absurd h (head_num t (by decide) (by decide))
    | lit w => cases w <;> exact absurd h (by decide)
    | obj gap ms => rw [head_obj] at h; exact absurd h (by decide)
    | arr gap es => rw [head_arr] at h; exact absurd h (by decide)
  · rintro ⟨t, rfl⟩
    rfl

/-- Only objects start with a brace. -/
theorem head_brace_iff {v : Value} :
    v.render.head? = some 0x7B ↔ ∃ gap ms, v = .obj gap ms := by
  constructor
  · intro h
    cases v with
    | str t => exact absurd h (by rw [head_str]; decide)
    | num t => exact absurd h (head_num t (by decide) (by decide))
    | lit w => cases w <;> exact absurd h (by decide)
    | obj gap ms => exact ⟨gap, ms, rfl⟩
    | arr gap es => rw [head_arr] at h; exact absurd h (by decide)
  · rintro ⟨gap, ms, rfl⟩
    exact head_obj gap ms

/-- Only arrays start with a bracket. -/
theorem head_bracket_iff {v : Value} :
    v.render.head? = some 0x5B ↔ ∃ gap es, v = .arr gap es := by
  constructor
  · intro h
    cases v with
    | str t => exact absurd h (by rw [head_str]; decide)
    | num t => exact absurd h (head_num t (by decide) (by decide))
    | lit w => cases w <;> exact absurd h (by decide)
    | obj gap ms => rw [head_obj] at h; exact absurd h (by decide)
    | arr gap es => exact ⟨gap, es, rfl⟩
  · rintro ⟨gap, es, rfl⟩
    exact head_arr gap es

theorem agrees_not_object {ε α : Type} {v : Value} (h : ∀ gap ms, v ≠ .obj gap ms)
    (notObject : ε) (next : Unit → Scan ε α) (rest : Bytes) :
    Agrees (expect 0x7B notObject >>= next) (v.render ++ rest) (.error notObject) rest := by
  refine agrees_expect_ne ?_ rest
  rw [render_head_append]
  intro hhead
  obtain ⟨gap, ms, hobj⟩ := head_brace_iff.mp hhead
  exact h gap ms hobj

theorem agrees_not_array {ε α : Type} {v : Value} (h : ∀ gap es, v ≠ .arr gap es)
    (notArray : ε) (next : Unit → Scan ε α) (rest : Bytes) :
    Agrees (expect 0x5B notArray >>= next) (v.render ++ rest) (.error notArray) rest := by
  refine agrees_expect_ne ?_ rest
  rw [render_head_append]
  intro hhead
  obtain ⟨gap, es, harr⟩ := head_bracket_iff.mp hhead
  exact h gap es harr

/-- Every tree of a document's text is an object. -/
theorem object_of_documentText {exit : LoopExit} {ms : List (Member Value)}
    {tail m : Bytes} (h : DocumentText exit ms tail m) {v : Value} (hv : IsText m v) :
    ∃ gap ms, v = .obj gap ms := by
  obtain ⟨lead, trail, s, hm, -⟩ := h
  obtain ⟨lead', trail', hm'⟩ := hv
  have hskip : (skipWhitespace m : Except Unit Unit × Bytes) = (.ok (), 0x7B :: s) := by
    rw [hm]
    exact skipWhitespace_gap lead (stops_cons.mpr (by decide))
  have hskip' : (skipWhitespace m : Except Unit Unit × Bytes) =
      (.ok (), v.render ++ trail'.val) := by
    rw [hm']
    exact skipWhitespace_gap lead' (stops_render v _)
  rw [hskip] at hskip'
  have hhead : v.render.head? = some 0x7B := by
    rw [← render_head_append v trail'.val, ← (Prod.mk.inj hskip').2]
    rfl
  exact head_brace_iff.mp hhead

namespace Reader

def fail (e : ε) : Reader ε α where
  scan := Scan.fail e
  read _ := .error e
  agrees _ _ _ := agrees_fail _ _ _
  takes _ _ _ h := by simp at h

/-- Compute on, or reject, what `r` has read. -/
def check (r : Reader ε α) (k : α → Except ε β) : Reader ε β where
  scan := do
    let a ← r.scan
    ofExcept (k a)
  read v := r.read v >>= k
  agrees v rest h := Agrees.bind (r.agrees v rest h) fun a _ =>
    agrees_ofExcept (k a) rest
  takes s b rest h hne := by
    obtain ⟨a, mid, ha, h⟩ := bind_eq_ok.mp h
    obtain ⟨_, rfl⟩ := ofExcept_eq_ok.mp h
    exact r.takes s a mid ha hne

def map (r : Reader ε α) (f : α → β) : Reader ε β := r.check fun a => .ok (f a)

/-- Read a member that must not have been `seen`. -/
def once (seen : Bool) (e : ε) (r : Reader ε α) : Reader ε α :=
  if seen then .fail e else r

theorem once_ok {seen : Bool} {e : ε} {r : Reader ε α} {v : Value} {a : α} :
    (once seen e r).read v = .ok a ↔ seen = false ∧ r.read v = .ok a := by
  cases seen with
  | true => simp [once, Reader.fail]
  | false => simp [once]

theorem map_ok {r : Reader ε α} {f : α → β} {v : Value} {b : β} :
    (r.map f).read v = .ok b ↔ ∃ a, r.read v = .ok a ∧ b = f a := by
  have hread : (r.map f).read v = (r.read v >>= fun a => .ok (f a)) := rfl
  rw [hread, except_bind_ok]
  simp [eq_comm]

/-- A member read once by a reader that accepts `ok` and computes `a`. -/
theorem once_map_ok {seen : Bool} {e : ε} {r : Reader ε α} {ok : Prop} {a : α}
    {set : α → σ} {v : Value} (h : ∀ b, r.read v = .ok b ↔ ok ∧ b = a) {st : σ} :
    (once seen e (r.map set)).read v = .ok st ↔ seen = false ∧ ok ∧ st = set a := by
  rw [once_ok, map_ok]
  constructor
  · rintro ⟨hseen, b, hread, rfl⟩
    obtain ⟨hok, rfl⟩ := (h b).mp hread
    exact ⟨hseen, hok, rfl⟩
  · rintro ⟨hseen, hok, rfl⟩
    exact ⟨hseen, a, (h a).mpr ⟨hok, rfl⟩, rfl⟩

/-- Report any failure of `r` as `e`. -/
def orFail (r : Reader Unit α) (e : ε) : Reader ε α where
  scan := r.scan.orFail e
  read v := failWith e (r.read v)
  agrees v rest h := (r.agrees v rest h).orFail e
  takes s a rest h := r.takes s a rest (orFail_eq_ok.mp h)

/-- Keep the bytes of the value. -/
def captured (r : Reader ε α) : Reader ε (α × Bytes) where
  scan := r.scan.captured
  read v := (r.read v).map fun a => (a, v.render)
  agrees v rest h := (r.agrees v rest h).captured
  takes s a rest h := r.takes s a.1 rest (captured_eq_ok.mp h).1

/-- Dispatch on the byte at the cursor. -/
def onByte (b : UInt8) (r other : Reader ε α) : Reader ε α where
  scan := do
    let c ← peek
    if c = some b then r.scan else other.scan
  read v := if v.render.head? = some b then r.read v else other.read v
  agrees v rest h := by
    refine Agrees.bind_ok (peek_run _) ?_
    rw [render_head_append]
    split
    · exact r.agrees v rest h
    · exact other.agrees v rest h
  takes s a rest h hne := by
    rw [peek_bind] at h
    split at h
    · exact r.takes s a rest h hne
    · exact other.takes s a rest h hne

def string (e : ε) : Reader ε StringToken where
  scan := scanString.orFail e
  read
    | .str t => .ok (tokenOf t.val)
    | _ => .error e
  agrees v rest _ := by
    by_cases hv : ∃ t, v = .str t
    · obtain ⟨t, rfl⟩ := hv
      have htext : (Value.str t).render ++ rest =
          0x22 :: (t.val ++ 0x22 :: rest) := by simp [Value.render]
      rw [htext]
      exact orFail_eq_ok.mpr (scanString_text t rest)
    · have hread : Agrees scanString (v.render ++ rest) (.error ()) rest := by
        have hhead : (v.render ++ rest).head? ≠ some 0x22 := by
          rw [render_head_append]
          exact fun h => hv (head_quote_iff.mp h)
        show (scanString (v.render ++ rest)).1 = .error ()
        unfold scanString
        cases hs : v.render ++ rest with
        | nil => rfl
        | cons c tail =>
            rw [hs] at hhead
            have hc : ¬ c = 0x22 := by simpa using hhead
            simp [hc]
      cases v with
      | str t => exact absurd ⟨t, rfl⟩ hv
      | num t => exact hread.orFail e
      | lit w => exact hread.orFail e
      | obj gap ms => exact hread.orFail e
      | arr gap es => exact hread.orFail e
  takes s token rest h _ := by
    obtain ⟨t, rfl, _⟩ := scanString_sound (orFail_eq_ok.mp h)
    exact ⟨.str t, by simp [Value.render]⟩

theorem string_check_ok {e : ε} {k : StringToken → Except ε α}
    {v : Value} {a : α} :
    ((string e).check k).read v = .ok a ↔
      ∃ t : StringText, v = .str t ∧ k (tokenOf t.val) = .ok a := by
  constructor
  · intro h
    cases v with
    | str t => exact ⟨t, rfl, h⟩
    | num t => cases h
    | lit w => cases h
    | obj gap ms => cases h
    | arr gap es => cases h
  · rintro ⟨t, rfl, h⟩
    exact h

/-- A string of plain bytes, not empty and of a bounded length, is read as it stands;
every other value is refused. -/
theorem shortName_ok {e escaped empty long other : ε} {n : Nat} {v : Value} {a : Bytes} :
    (onByte 0x22 ((string e).check fun value =>
        if value.hasEscape then .error escaped
        else if value.contents = [] then .error empty
        else if value.contents.length > n then .error long
        else .ok value.contents) (fail other)).read v = .ok a ↔
      ∃ t : StringText, v = .str t ∧ (0x5C ∉ t.val ∧ t.val ≠ [] ∧ t.val.length ≤ n) ∧
        a = t.val := by
  simp only [onByte]
  by_cases hquote : v.render.head? = some 0x22
  · rw [if_pos hquote, string_check_ok]
    refine exists_congr fun t => and_congr_right fun _ => ?_
    have htoken : (tokenOf t.val).hasEscape = true ↔ 0x5C ∈ t.val := decide_eq_true_iff
    by_cases hescape : 0x5C ∈ t.val
    · rw [if_pos (htoken.mpr hescape)]
      exact iff_of_false nofun fun h => h.1.1 hescape
    rw [if_neg fun h => hescape (htoken.mp h), tokenOf_contents]
    by_cases hempty : t.val = []
    · rw [if_pos hempty]
      exact iff_of_false nofun fun h => h.1.2.1 hempty
    rw [if_neg hempty]
    by_cases hlong : t.val.length > n
    · rw [if_pos hlong]
      exact iff_of_false nofun fun h => not_lt.mpr h.1.2.2 hlong
    rw [if_neg hlong]
    constructor
    · rintro ⟨⟩
      exact ⟨⟨hescape, hempty, not_lt.mp hlong⟩, rfl⟩
    · rintro ⟨-, rfl⟩
      rfl
  · rw [if_neg hquote]
    refine iff_of_false nofun ?_
    rintro ⟨t, rfl, -⟩
    exact hquote (head_str t)

def number (e : ε) : Reader ε Unit where
  scan := scanNumber.orFail e
  read
    | .num _ => .ok ()
    | _ => .error e
  agrees v rest hrest := by
    have hother : (∀ t, v ≠ .num t) →
        Agrees (scanNumber.orFail e) (v.render ++ rest) (.error e) rest := by
      intro hv
      have hscan : Agrees scanNumber (v.render ++ rest) (.error ()) rest := by
        refine scanNumber_error ?_
        rw [render_head_append]
        intro b hb
        cases v with
        | num t => exact absurd rfl (hv t)
        | str t => cases hb; decide
        | lit w => cases w <;> (cases hb; decide)
        | obj gap ms => rw [head_obj] at hb; cases hb; decide
        | arr gap es => rw [head_arr] at hb; cases hb; decide
      exact hscan.orFail e
    cases v with
    | num t => exact orFail_eq_ok.mpr (scanNumber_token t hrest)
    | str t => exact hother fun _ => by simp
    | lit w => exact hother fun _ => by simp
    | obj gap ms => exact hother fun _ => by simp
    | arr gap es => exact hother fun _ => by simp
  takes s u rest h _ := by
    obtain ⟨t, rfl⟩ := scanNumber_sound (orFail_eq_ok.mp h)
    exact ⟨.num t, by simp [Value.render]⟩

theorem lit_of_startsWith {w : Literal} {v : Value} {rest : Bytes}
    (h : w.bytes <+: v.render ++ rest) : v = .lit w := by
  obtain ⟨tail, htail⟩ := h
  have hhead : v.render.head? = w.bytes.head? := by
    rw [← render_head_append v rest, ← htail]
    cases w <;> rfl
  cases v with
  | str t => rw [head_str] at hhead; cases w <;> exact absurd hhead (by decide)
  | num t =>
      cases w <;> exact absurd hhead (head_num t (by decide) (by decide))
  | lit w' => cases w <;> cases w' <;> first | rfl | exact absurd hhead (by decide)
  | obj gap ms => rw [head_obj] at hhead; cases w <;> exact absurd hhead (by decide)
  | arr gap es => rw [head_arr] at hhead; cases w <;> exact absurd hhead (by decide)

def readLiteralOr (w : Literal) (here : β) (other : Value → β) : Value → β
  | .lit w' => if w' = w then here else other (.lit w')
  | v => other v

theorem readLiteralOr_self (w : Literal) (here : β) (other : Value → β) :
    readLiteralOr w here other (.lit w) = here := if_pos rfl

theorem readLiteralOr_ne {w : Literal} {v : Value} (h : v ≠ .lit w) (here : β)
    (other : Value → β) : readLiteralOr w here other v = other v := by
  cases v with
  | lit w' => exact if_neg fun hw => h (by rw [hw])
  | str t => rfl
  | num t => rfl
  | obj gap ms => rfl
  | arr gap es => rfl

/-- If the literal `w` is next, take it; otherwise read with `other`. -/
def tryLiteral (w : Literal) (a : α) (other : Reader ε α) : Reader ε α where
  scan := do
    let found ← attempt (scanLiteral w.bytes)
    if found then pure a else other.scan
  read := readLiteralOr w (.ok a) other.read
  agrees v rest hrest := by
    by_cases hv : v = .lit w
    · subst hv
      have hscan : (attempt (scanLiteral w.bytes) : Scan ε Bool)
          ((Value.lit w).render ++ rest) = (.ok true, rest) := by
        unfold attempt
        rw [Value.render, scanLiteral_append]
      refine Agrees.bind_ok hscan ?_
      rw [readLiteralOr_self]
      exact agrees_pure a rest
    · have hscan : (attempt (scanLiteral w.bytes) : Scan ε Bool)
          (v.render ++ rest) = (.ok false, v.render ++ rest) := by
        unfold attempt
        rw [scanLiteral_error fun hpre => hv (lit_of_startsWith hpre)]
      refine Agrees.bind_ok hscan ?_
      rw [readLiteralOr_ne hv]
      exact other.agrees v rest hrest
  takes s b rest h hne := by
    rw [bind_apply] at h
    by_cases hpre : w.bytes <+: s
    · obtain ⟨tail, rfl⟩ := hpre
      unfold attempt at h
      rw [scanLiteral_append] at h
      obtain ⟨rfl, rfl⟩ := pure_eq_ok.mp h
      exact ⟨.lit w, rfl⟩
    · unfold attempt at h
      rw [scanLiteral_error hpre] at h
      exact other.takes _ _ _ h hne

/-- Read the literal `w` and nothing else. -/
def literal (w : Literal) (e : ε) : Reader ε Unit := tryLiteral w () (fail e)

/-- A number whose token is checked is the number of that token. -/
theorem number_token_ok {e : ε} {token : Bytes} {v : Value} {u : Unit} :
    ((number e).captured.check fun (_, t) =>
        if t = token then .ok () else .error e).read v = .ok u ↔
      (∃ t : NumberText, v = .num t ∧ t.val = token) ∧ u = () := by
  have hread : ((number e).captured.check fun (_, t) =>
      if t = token then .ok () else .error e).read v =
        (((number e).read v).map fun a => (a, v.render)) >>= fun a =>
          if a.2 = token then .ok () else .error e := rfl
  rw [hread, except_bind_ok]
  constructor
  · rintro ⟨⟨a, t⟩, hnumber, h⟩
    cases v with
    | num text =>
        cases hnumber
        split at h
        · rename_i htoken
          exact ⟨⟨text, rfl, htoken⟩, rfl⟩
        · cases h
    | str text => cases hnumber
    | lit w => cases hnumber
    | obj gap ms => cases hnumber
    | arr gap es => cases hnumber
  · rintro ⟨⟨t, rfl, ht⟩, -⟩
    exact ⟨((), t.val), rfl, if_pos ht⟩

end Reader

/-! ## §2  Containers of readers -/

/-- An object loop whose member handler reads one value. -/
structure ObjectReader (σ ε : Type) where
  malformed : σ → ε
  checkKey : σ → StringToken → Except ε Unit
  member : σ → StringToken → Reader ε σ
  rejectsTrailing : Bool := false

namespace ObjectReader

variable (R : ObjectReader σ ε)

def loop : ObjectLoop σ ε where
  malformed := R.malformed
  checkKey := R.checkKey
  member st key := (R.member st key).scan
  trailing := if R.rejectsTrailing then .rejected else .unchecked

/-- What the loop computes from the members of a tree. -/
def members : σ → List (Member Value) → Except ε σ
  | st, [] => .ok st
  | st, m :: ms => do
      R.checkKey st (tokenOf m.key.val)
      let st ← (R.member st (tokenOf m.key.val)).read m.value
      members st ms

theorem reads :
    R.loop.Reads fun st key v _ => (R.member st key).read v where
  agrees st key v rest h := (R.member st key).agrees v rest h
  takes st key s st' rest h hne := (R.member st key).takes s st' rest h hne

theorem fold_eq (tail : Bytes) (st : σ) (ms : List (Member Value)) :
    R.loop.fold (fun st key v _ => (R.member st key).read v) tail st ms =
      R.members st ms := by
  induction ms generalizing st with
  | nil => rfl
  | cons m ms ih =>
      rw [ObjectLoop.fold, ObjectLoop.step, members, bind_assoc]
      simp only [ih]
      rfl

theorem trailing_ne_closes : R.loop.trailing ≠ .closes := by
  show (if R.rejectsTrailing then Trailing.rejected else .unchecked) ≠ .closes
  split <;> simp

theorem parse_agrees {exit : LoopExit} {ms : List (Member Value)}
    {s tail rest : Bytes} (h : LoopText exit ms s tail rest)
    (hexit : exit ≠ .trailing) (st : σ) :
    Agrees (R.loop.parse st) s
      (R.members st ms >>= fun st' => .ok (st', exit)) rest := by
  rw [← R.fold_eq tail]
  exact ObjectLoop.parse_agrees R.reads h (fun he => absurd he hexit) st

theorem parse_sound {st st' : σ} {exit : LoopExit} {s rest : Bytes}
    (h : R.loop.parse st s = (.ok (st', exit), rest)) :
    ∃ ms tail, LoopText exit ms s tail rest ∧ R.members st ms = .ok st' ∧
      exit ≠ .trailing := by
  obtain ⟨ms, tail, htext, hfold, htrail⟩ := ObjectLoop.parse_sound R.reads h
  rw [R.fold_eq] at hfold
  exact ⟨ms, tail, htext, hfold, fun he => R.trailing_ne_closes (htrail he)⟩

theorem document_agrees {notObject : ε} {leave : σ → LoopExit → Except ε Unit}
    {extra : σ → ε} {exit : LoopExit} {ms : List (Member Value)}
    {tail m : Bytes} (h : DocumentText exit ms tail m) (hexit : exit ≠ .trailing)
    (st : σ) :
    (R.loop.document notObject leave extra st m).1 =
      (R.members st ms >>= fun st' =>
        leave st' exit >>= fun _ => .ok (st', exit)) := by
  rw [← R.fold_eq tail]
  exact ObjectLoop.document_agrees R.reads h (fun he => absurd he hexit) st

/-- `ObjectLoop.document_ok` over readers. -/
theorem document_ok {notObject : ε} {leave : σ → LoopExit → Except ε Unit}
    {extra : σ → ε} {st st' : σ} {exit : LoopExit} {m : Bytes} :
    (R.loop.document notObject leave extra st m).1 = .ok (st', exit) ↔
      ∃ ms tail, DocumentText exit ms tail m ∧ R.members st ms = .ok st' ∧
        leave st' exit = .ok () ∧ exit ≠ .trailing := by
  rw [ObjectLoop.document_ok R.reads]
  simp only [R.fold_eq]
  constructor
  · rintro ⟨ms, tail, htext, hms, hleave, htrail⟩
    exact ⟨ms, tail, htext, hms, hleave,
      fun he => R.trailing_ne_closes (htrail he)⟩
  · rintro ⟨ms, tail, htext, hms, hleave, htrail⟩
    exact ⟨ms, tail, htext, hms, hleave, fun he => absurd he htrail⟩

theorem document_broken {notObject : ε} {leave : σ → LoopExit → Except ε Unit}
    {extra : σ → ε} {m : Member Value} {ms : List (Member Value)} {st st' : σ}
    (hmembers : R.members st (m :: ms) = .ok st') :
    (R.loop.document notObject leave extra st
      (0x7B :: (memberBody m ++ openMembers ms))).1 = .error (R.malformed st') := by
  rw [← R.fold_eq []] at hmembers
  exact ObjectLoop.document_broken R.reads hmembers

/-- The value reader for an object: `finish` sees how the loop was left. -/
def object (notObject : ε) (st : σ) (finish : σ → LoopExit → Except ε α) :
    Reader ε α where
  scan := do
    expect 0x7B notObject
    let (st, exit) ← R.loop.parse st
    ofExcept (finish st exit)
  read
    | .obj _ ms => do
        let st ← R.members st ms
        finish st (exitOf ms)
    | _ => .error notObject
  agrees v rest _ := by
    cases v with
    | obj gap ms =>
        obtain ⟨s, hs, htext⟩ := loopText_obj gap ms rest
        rw [hs]
        refine Agrees.bind_ok (expect_run _ _ _) ?_
        have hparse := R.parse_agrees htext (exitOf_ne_trailing ms) st
        have h := Agrees.bind hparse fun a _ =>
          agrees_ofExcept (finish a.1 a.2) rest
        rw [bind_assoc] at h
        exact h
    | str t => exact agrees_not_object (by simp) notObject _ rest
    | num t => exact agrees_not_object (by simp) notObject _ rest
    | lit w => exact agrees_not_object (by simp) notObject _ rest
    | arr gap es => exact agrees_not_object (by simp) notObject _ rest
  takes s a rest h hne := by
    obtain ⟨tail, hs, h⟩ := expect_bind_ok h
    obtain ⟨⟨st', exit⟩, mid, hparse, h⟩ := bind_eq_ok.mp h
    obtain ⟨_, rfl⟩ := ofExcept_eq_ok.mp h
    obtain ⟨ms, t, htext, _, htrail⟩ := R.parse_sound hparse
    have hexit : exit = .empty ∨ exit = .closed := by
      cases htext with
      | empty => exact Or.inl rfl
      | bare => exact absurd rfl hne
      | members m ms hend =>
          cases hend with
          | closed => exact Or.inr rfl
          | trailing => exact absurd rfl htrail
          | cut => exact absurd rfl hne
    obtain ⟨_, gap, hobj⟩ := obj_of_loopText htext hexit
    exact ⟨.obj gap ms, hs.trans hobj⟩

theorem object_ok {notObject : ε} {st : σ} {finish : σ → LoopExit → Except ε α}
    {v : Value} {a : α} :
    (R.object notObject st finish).read v = .ok a ↔
      ∃ gap ms st', v = .obj gap ms ∧ R.members st ms = .ok st' ∧
        finish st' (exitOf ms) = .ok a := by
  constructor
  · intro h
    cases v with
    | obj gap ms =>
        obtain ⟨st', hrun, hfinish⟩ := except_bind_ok.mp h
        exact ⟨gap, ms, st', rfl, hrun, hfinish⟩
    | str t => cases h
    | num t => cases h
    | lit w => cases h
    | arr gap es => cases h
  · rintro ⟨gap, ms, st', rfl, hrun, hfinish⟩
    exact except_bind_ok.mpr ⟨st', hrun, hfinish⟩

end ObjectReader

structure ArrayReader (σ ε : Type) where
  malformed : ε
  element : σ → Reader ε σ
  rejectsTrailing : Bool := false

namespace ArrayReader

variable (R : ArrayReader σ ε)

def loop : ArrayLoop σ ε where
  malformed := R.malformed
  element st := (R.element st).scan
  rejectsTrailing := R.rejectsTrailing

def elements : σ → List (Element Value) → Except ε σ
  | st, [] => .ok st
  | st, e :: es => do
      let st ← (R.element st).read e.value
      elements st es

theorem reads : R.loop.Reads fun st v => (R.element st).read v where
  agrees st v rest h := (R.element st).agrees v rest h
  takes st s st' rest h hne := (R.element st).takes s st' rest h hne

theorem fold_eq (st : σ) (es : List (Element Value)) :
    ArrayLoop.fold (fun st v => (R.element st).read v) st es =
      R.elements st es := by
  induction es generalizing st with
  | nil => rfl
  | cons e es ih =>
      rw [ArrayLoop.fold, elements]
      simp only [ih]

/-- The value reader for an array. -/
def array (notArray : ε) (st : σ) : Reader ε σ where
  scan := do
    expect 0x5B notArray
    R.loop.parse st
  read
    | .arr _ es => R.elements st es
    | _ => .error notArray
  agrees v rest _ := by
    cases v with
    | arr gap es =>
        obtain ⟨s, hs⟩ : ∃ s, (Value.arr gap es).render ++ rest = 0x5B :: s := by
          cases es <;> exact ⟨_, rfl⟩
        rw [hs]
        refine Agrees.bind_ok (expect_run _ _ _) ?_
        show Agrees _ _ (R.elements st es) rest
        rw [← R.fold_eq]
        exact ArrayLoop.parse_agrees R.reads hs.symm st
    | str t => exact agrees_not_array (by simp) notArray _ rest
    | num t => exact agrees_not_array (by simp) notArray _ rest
    | lit w => exact agrees_not_array (by simp) notArray _ rest
    | obj gap ms => exact agrees_not_array (by simp) notArray _ rest
  takes s a rest h _ := by
    obtain ⟨tail, hs, h⟩ := expect_bind_ok h
    obtain ⟨gap, es, hes, _⟩ := ArrayLoop.parse_sound R.reads h
    exact ⟨.arr gap es, hs.trans hes⟩

theorem array_ok {notArray : ε} {st st' : σ} {v : Value} :
    (R.array notArray st).read v = .ok st' ↔
      ∃ gap es, v = .arr gap es ∧ R.elements st es = .ok st' := by
  constructor
  · intro h
    cases v with
    | arr gap es => exact ⟨gap, es, rfl, h⟩
    | str t => cases h
    | num t => cases h
    | lit w => cases h
    | obj gap ms => cases h
  · rintro ⟨gap, es, rfl, h⟩
    exact h

end ArrayReader

/-! ## §3  `skip_value` -/

def skipMembers (value : Reader Unit Unit) : ObjectReader Unit Unit where
  malformed _ := ()
  checkKey _ _ := .ok ()
  member _ _ := value

def skipElements (value : Reader Unit Unit) : ArrayReader Unit Unit where
  malformed := ()
  element _ := value

/-- `skip_value` with the levels left, `max_depth + 1 - depth`, as its
recursion. An object that the end of the input cuts short is not a value. -/
def skipValueAt : Nat → Reader Unit Unit
  | 0 => .fail ()
  | levels + 1 =>
      .onByte 0x22 ((Reader.string ()).map fun _ => ()) <|
      .onByte 0x7B ((skipMembers (skipValueAt levels)).object () ()
        fun _ exit => if exit = .cut then .error () else .ok ()) <|
      .onByte 0x5B ((skipElements (skipValueAt levels)).array () ()) <|
      .onByte 0x74 (.literal .true ()) <|
      .onByte 0x66 (.literal .false ()) <|
      .onByte 0x6E (.literal .null ()) <|
      .number ()

def skipValue (depth maxDepth : Nat) (e : ε) : Reader ε Unit :=
  (skipValueAt (maxDepth + 1 - depth)).orFail e

/-- Accept or reject without a result. -/
def accept (p : Prop) [Decidable p] (e : ε) : Except ε Unit :=
  if p then .ok () else .error e

theorem accept_bind {p q : Prop} [Decidable p] [Decidable q] (e : ε) :
    (accept p e >>= fun _ => accept q e) = accept (p ∧ q) e := by
  by_cases hp : p
  · by_cases hq : q
    · simp only [accept, hp, hq]
      rfl
    · simp only [accept, hp, hq]
      rfl
  · simp only [accept, hp]
    rfl

theorem accept_then_ok {p : Prop} [Decidable p] {e : ε} {a b : α} :
    (accept p e >>= fun _ => .ok a) = .ok b ↔ p ∧ b = a := by
  by_cases hp : p
  · simp only [accept, hp, if_true]
    constructor
    · rintro ⟨⟩
      exact ⟨trivial, rfl⟩
    · rintro ⟨-, rfl⟩
      rfl
  · simp only [accept, hp, if_false]
    constructor
    · rintro ⟨⟩
    · rintro ⟨hfalse, -⟩
      exact hfalse.elim

theorem accept_congr {p q : Prop} [Decidable p] [Decidable q] (h : p ↔ q)
    (e : ε) : accept p e = accept q e := by
  by_cases hp : p
  · simp [accept, hp, h.mp hp]
  · have hq : ¬ q := fun hq => hp (h.mpr hq)
    simp [accept, hp, hq]

theorem skipMembers_members {r : Reader Unit Unit} {p : Value → Prop}
    [DecidablePred p] (h : ∀ v, r.read v = accept (p v) ())
    (ms : List (Member Value)) :
    (skipMembers r).members () ms = accept (∀ m ∈ ms, p m.value) () := by
  induction ms with
  | nil => simp [ObjectReader.members, accept]
  | cons m ms ih =>
      rw [accept_congr (List.forall_mem_cons), ← accept_bind, ← h m.value, ← ih]
      rfl

theorem skipElements_elements {r : Reader Unit Unit} {p : Value → Prop}
    [DecidablePred p] (h : ∀ v, r.read v = accept (p v) ())
    (es : List (Element Value)) :
    (skipElements r).elements () es = accept (∀ e ∈ es, p e.value) () := by
  induction es with
  | nil => simp [ArrayReader.elements, accept]
  | cons e es ih =>
      rw [accept_congr (List.forall_mem_cons), ← accept_bind, ← h e.value, ← ih]
      rfl

/-- A value is skipped exactly if its nesting is below the levels left. -/
theorem skipValueAt_read (levels : Nat) (v : Value) :
    (skipValueAt levels).read v = accept (v.nesting < levels) () := by
  induction levels generalizing v with
  | zero => simp [skipValueAt, Reader.fail, accept]
  | succ levels ih =>
      cases v with
      | str t => simp [skipValueAt, Reader.onByte, head_str, Reader.map,
          Reader.check, Reader.string, Value.nesting, accept, bind, Except.bind]
      | num t =>
          have h : ∀ b : UInt8, b ≠ 0x2D → ¬ IsDigit b →
              ¬ (Value.num t).render.head? = some b := fun b => head_num t
          simp [skipValueAt, Reader.onByte, h 0x22 (by decide) (by decide),
            h 0x7B (by decide) (by decide), h 0x5B (by decide) (by decide),
            h 0x74 (by decide) (by decide), h 0x66 (by decide) (by decide),
            h 0x6E (by decide) (by decide), Reader.number, Value.nesting, accept]
      | lit w =>
          have h : (Value.lit w).nesting < levels + 1 := by simp [Value.nesting]
          simp only [accept, h, if_true]
          cases w <;> rfl
      | obj gap ms =>
          have h : (skipValueAt (levels + 1)).read (.obj gap ms) =
              ((skipMembers (skipValueAt levels)).members () ms >>= fun _ =>
                if exitOf ms = .cut then .error () else .ok ()) := by
            simp only [skipValueAt, Reader.onByte, head_obj]
            rfl
          rw [h, skipMembers_members ih]
          have hiff : (∀ m ∈ ms, m.value.nesting < levels) ↔
              (Value.obj gap ms).nesting < levels + 1 := by
            rw [Nat.lt_succ_iff, nesting_obj_le]
            rfl
          rw [accept_congr hiff, if_neg (exitOf_ne_cut ms)]
          simp only [accept]
          split <;> rfl
      | arr gap es =>
          have h : (skipValueAt (levels + 1)).read (.arr gap es) =
              (skipElements (skipValueAt levels)).elements () es := by
            simp only [skipValueAt, Reader.onByte, head_arr]
            rfl
          rw [h, skipElements_elements ih]
          refine accept_congr ?_ ()
          rw [Nat.lt_succ_iff, nesting_arr_le]
          rfl

/-- `skip_value` at `depth` accepts a value that reaches at most `max_depth`. -/
theorem skipValue_read (depth maxDepth : Nat) (e : ε) (v : Value) :
    (skipValue depth maxDepth e).read v =
      accept (depth + v.nesting ≤ maxDepth) e := by
  have hiff : v.nesting < maxDepth + 1 - depth ↔ depth + v.nesting ≤ maxDepth := by
    omega
  show failWith e ((skipValueAt (maxDepth + 1 - depth)).read v) = _
  rw [skipValueAt_read, accept_congr hiff]
  unfold accept
  split <;> rfl

theorem skipValue_map_ok {e : ε} {depth maxDepth : Nat} {a b : α}
    {v : Value} :
    ((skipValue depth maxDepth e).map fun _ => a).read v = .ok b ↔
      depth + v.nesting ≤ maxDepth ∧ b = a := by
  have h : ((skipValue depth maxDepth e).map fun _ => a).read v =
      ((skipValue depth maxDepth e).read v >>= fun _ => .ok a) := rfl
  rw [h, skipValue_read]
  exact accept_then_ok

/-! ## §4  Members that may occur once -/

/-- `ObjectLoop.OncePerKey` for readers, whose steps do not depend on the text
behind a value. -/
structure OncePerKey (R : ObjectReader σ ε) (known : List Bytes)
    (seen : σ → Bytes → Bool) (ok : Bytes → Value → Prop)
    (update : σ → Bytes → Value → σ) : Prop where
  key : ∀ st raw, R.checkKey st (tokenOf raw) = .ok () ↔ 0x5C ∉ raw
  member : ∀ st raw v st', (R.member st (tokenOf raw)).read v = .ok st' ↔
    seen st raw = false ∧ ok raw v ∧ st' = update st raw v
  marks : ∀ st raw v key, seen (update st raw v) key =
    (seen st key || (decide (key = raw) && decide (raw ∈ known)))
  unknown : ∀ st key, key ∉ known → seen st key = false

def updates (update : σ → Bytes → Value → σ) (st : σ)
    (ms : List (Member Value)) : σ :=
  ms.foldl (fun st m => update st m.key.val m.value) st

theorem updatesAt_eq_updates (update : σ → Bytes → Value → σ) (tail : Bytes)
    (st : σ) (ms : List (Member Value)) :
    updatesAt (fun st key v _ => update st key v) tail st ms =
      updates update st ms := by
  induction ms generalizing st with
  | nil => rfl
  | cons m ms ih => exact ih _

namespace OncePerKey

variable {R : ObjectReader σ ε} {known : List Bytes}
  {seen : σ → Bytes → Bool} {ok : Bytes → Value → Prop}
  {update : σ → Bytes → Value → σ}

theorem toLoop (h : OncePerKey R known seen ok update) :
    R.loop.OncePerKey (fun st key v _ => (R.member st key).read v) known seen ok
      (fun st key v _ => update st key v) where
  key := h.key
  member st raw v _ st' := h.member st raw v st'
  marks st raw v _ key := h.marks st raw v key
  unknown := h.unknown

/-- From a state that has seen nothing, the loop accepts `ms` exactly if every
key is free of escapes, every value passes its check, and no known key is
repeated. -/
theorem members_ok_init (h : OncePerKey R known seen ok update) {st₀ : σ}
    (h₀ : ∀ key, seen st₀ key = false) (st : σ) (ms : List (Member Value)) :
    R.members st₀ ms = .ok st ↔
      (∀ m ∈ ms, 0x5C ∉ m.key.val ∧ ok m.key.val m.value) ∧
        (∀ key ∈ known, (valuesAt key ms).length ≤ 1) ∧
        st = updates update st₀ ms := by
  rw [← R.fold_eq [], h.toLoop.fold_ok_init h₀, updatesAt_eq_updates]

end OncePerKey

/-- A field that only the key `key` sets is set by the members spelled `key`. -/
theorem updates_field {γ : Type} {update : σ → Bytes → Value → σ} (field : σ → γ)
    (key : Bytes) (set : Value → γ)
    (h : ∀ st raw v, field (update st raw v) =
      if raw = key then set v else field st)
    (st : σ) (ms : List (Member Value)) :
    field (updates update st ms) =
      (valuesAt key ms).foldl (fun _ v => set v) (field st) := by
  induction ms generalizing st with
  | nil => rfl
  | cons m ms ih =>
      show field (updates update (update st m.key.val m.value) ms) = _
      rw [ih, h]
      by_cases hkey : m.key.val = key
      · rw [if_pos hkey, valuesAt_cons_of_eq hkey]
        rfl
      · rw [if_neg hkey, valuesAt_cons_of_ne hkey]

/-- The flags after a run are those before it and the known keys met. -/
theorem updates_seen {known : List Bytes} {seen : σ → Bytes → Bool}
    {update : σ → Bytes → Value → σ} {key : Bytes} (hkey : key ∈ known)
    (h : ∀ st raw v key, seen (update st raw v) key =
      (seen st key || (decide (key = raw) && decide (raw ∈ known))))
    (st : σ) (ms : List (Member Value)) :
    seen (updates update st ms) key =
      (seen st key || decide (valuesAt key ms ≠ [])) := by
  rw [← updatesAt_eq_updates update []]
  exact updatesAt_seen hkey (fun st raw v _ key => h st raw v key) [] st ms

/-- After the loop a flag says that its member was there, once and checked. -/
theorem OncePerKey.seen_iff {R : ObjectReader σ ε} {known : List Bytes}
    {seen : σ → Bytes → Bool} {ok : Bytes → Value → Prop}
    {update : σ → Bytes → Value → σ} (h : OncePerKey R known seen ok update)
    {st₀ st : σ} (h₀ : ∀ key, seen st₀ key = false) {ms : List (Member Value)}
    (hrun : R.members st₀ ms = .ok st) {key : Bytes} (hkey : key ∈ known) :
    seen st key = true ↔ ∃ v, valuesAt key ms = [v] ∧ ok key v := by
  obtain ⟨hall, hcount, rfl⟩ := (h.members_ok_init h₀ st ms).mp hrun
  have hok := forall_mem_valuesAt (fun m hm => (hall m hm).2) key
  rw [updates_seen hkey h.marks, h₀, Bool.false_or, decide_eq_true_eq]
  constructor
  · intro hne
    obtain ⟨v, hv⟩ := (eq_nil_or_singleton (hcount key hkey)).resolve_left hne
    rw [hv] at hok
    exact ⟨v, hv, hok v (List.mem_singleton.mpr rfl)⟩
  · rintro ⟨v, hv, -⟩
    rw [hv]
    exact List.cons_ne_nil v []

/-- The loop accepts members whose known keys are not repeated and whose values
pass their checks. -/
theorem OncePerKey.members_of {R : ObjectReader σ ε} {known : List Bytes}
    {seen : σ → Bytes → Bool} {ok : Bytes → Value → Prop}
    {update : σ → Bytes → Value → σ} (h : OncePerKey R known seen ok update)
    {st₀ : σ} (h₀ : ∀ key, seen st₀ key = false) {ms : List (Member Value)}
    (hkeys : ∀ m ∈ ms, 0x5C ∉ m.key.val)
    (hknown : ∀ key ∈ known, (valuesAt key ms).length ≤ 1 ∧
      ∀ v ∈ valuesAt key ms, ok key v)
    (hother : ∀ m ∈ ms, m.key.val ∉ known → ok m.key.val m.value) :
    R.members st₀ ms = .ok (updates update st₀ ms) := by
  apply (h.members_ok_init h₀ _ ms).mpr
  refine ⟨fun m hm => ⟨hkeys m hm, ?_⟩, fun key hkey => (hknown key hkey).1, rfl⟩
  by_cases hmem : m.key.val ∈ known
  · exact (hknown _ hmem).2 _ (mem_valuesAt.mpr ⟨m, hm, rfl, rfl⟩)
  · exact hother m hm hmem

/-- Members that a loop accepts which knows the keys `known` and asks for those in
`required`. -/
structure OnceMembers (known required : List Bytes) (ok : Bytes → Value → Prop)
    (ms : List (Member Value)) : Prop where
  keys : ∀ m ∈ ms, 0x5C ∉ m.key.val
  once : ∀ key ∈ known, (valuesAt key ms).length ≤ 1
  present : ∀ key ∈ required, valuesAt key ms ≠ []
  values : ∀ m ∈ ms, ok m.key.val m.value

theorem OnceMembers.single {known required : List Bytes} {ok : Bytes → Value → Prop}
    {ms : List (Member Value)} (h : OnceMembers known required ok ms) {key : Bytes}
    (hknown : key ∈ known) (hrequired : key ∈ required) :
    ∃ v, valuesAt key ms = [v] ∧ ok key v := by
  obtain ⟨v, hv⟩ :=
    (eq_nil_or_singleton (h.once key hknown)).resolve_left (h.present key hrequired)
  exact ⟨v, hv, forall_mem_valuesAt h.values key v (by simp [hv])⟩

theorem OnceMembers.imp {known required : List Bytes} {ok ok' : Bytes → Value → Prop}
    {ms : List (Member Value)} (h : OnceMembers known required ok ms)
    (himp : ∀ key v, ok key v → ok' key v) : OnceMembers known required ok' ms :=
  { h with values := fun m hm => himp _ _ (h.values m hm) }

/-- Members of which the values at one key are changed into others that are good there. -/
theorem onceMembers_mapAt {known required : List Bytes} {ok : Bytes → Value → Prop}
    {ms : List (Member Value)} (h : OnceMembers known required ok ms) {key : Bytes}
    {f : Value → Value} (hf : ∀ v, ok key v → ok key (f v)) :
    OnceMembers known required ok (mapAt key f ms) := by
  have hlength : ∀ key', (valuesAt key' (mapAt key f ms)).length =
      (valuesAt key' ms).length := by
    intro key'
    by_cases hkey : key' = key
    · rw [hkey, valuesAt_mapAt, List.length_map]
    · rw [valuesAt_mapAt_of_ne hkey]
  constructor
  · exact forall_mem_mapAt (p := fun key _ => 0x5C ∉ key) h.keys fun _ hv => hv
  · intro key' hknown
    rw [hlength]
    exact h.once key' hknown
  · intro key' hrequired hnil
    apply h.present key' hrequired
    rw [← List.length_eq_zero_iff, ← hlength, hnil]
    rfl
  · exact forall_mem_mapAt h.values hf

/-- A loop that asks for every key it knows. -/
theorem onceMembers_all_iff {known : List Bytes} {ok : Bytes → Value → Prop}
    {ms : List (Member Value)} :
    OnceMembers known known ok ms ↔ (∀ m ∈ ms, 0x5C ∉ m.key.val) ∧
      (∀ key ∈ known, ∃ v, valuesAt key ms = [v] ∧ ok key v) ∧
        ∀ m ∈ ms, m.key.val ∉ known → ok m.key.val m.value := by
  constructor
  · intro h
    exact ⟨h.keys, fun key hkey => h.single hkey hkey, fun m hm _ => h.values m hm⟩
  · rintro ⟨hkeys, hknown, hother⟩
    refine ⟨hkeys, fun key hkey => ?_, fun key hkey => ?_, fun m hm => ?_⟩
    · obtain ⟨v, hv, -⟩ := hknown key hkey
      rw [hv]
      exact le_refl 1
    · obtain ⟨v, hv, -⟩ := hknown key hkey
      rw [hv]
      exact List.cons_ne_nil v []
    · by_cases hmem : m.key.val ∈ known
      · obtain ⟨v, hv, hok⟩ := hknown _ hmem
        have hvalue : m.value ∈ valuesAt m.key.val ms := mem_valuesAt.mpr ⟨m, hm, rfl, rfl⟩
        rw [hv, List.mem_singleton] at hvalue
        rw [hvalue]
        exact hok
      · exact hother m hm hmem

/-- A loop, and behind it the flags of the keys in `required`. -/
theorem OncePerKey.members_finish_ok {R : ObjectReader σ ε} {known required : List Bytes}
    {seen : σ → Bytes → Bool} {ok : Bytes → Value → Prop}
    {update : σ → Bytes → Value → σ} (h : OncePerKey R known seen ok update)
    {st₀ : σ} (h₀ : ∀ key, seen st₀ key = false) (hrequired : ∀ key ∈ required, key ∈ known)
    {out : σ → α} {ms : List (Member Value)} {a : α} :
    (∃ st, R.members st₀ ms = .ok st ∧ (∀ key ∈ required, seen st key = true) ∧
        a = out st) ↔
      OnceMembers known required ok ms ∧ a = out (updates update st₀ ms) := by
  have hseen : (∀ key ∈ required, seen (updates update st₀ ms) key = true) ↔
      ∀ key ∈ required, valuesAt key ms ≠ [] := by
    refine forall₂_congr fun key hkey => ?_
    rw [updates_seen (hrequired key hkey) h.marks, h₀, Bool.false_or, decide_eq_true_eq]
  constructor
  · rintro ⟨st, hrun, hpresent, rfl⟩
    obtain ⟨hall, honce, rfl⟩ := (h.members_ok_init h₀ _ _).mp hrun
    exact ⟨⟨fun m hm => (hall m hm).1, honce, hseen.mp hpresent,
      fun m hm => (hall m hm).2⟩, rfl⟩
  · rintro ⟨hms, rfl⟩
    have hall : ∀ m ∈ ms, 0x5C ∉ m.key.val ∧ ok m.key.val m.value :=
      fun m hm => ⟨hms.keys m hm, hms.values m hm⟩
    exact ⟨_, (h.members_ok_init h₀ _ _).mpr ⟨hall, hms.once, rfl⟩,
      hseen.mpr hms.present, rfl⟩

/-- An object is left empty in the state it was entered with, or closed. -/
theorem ObjectReader.members_left {R : ObjectReader σ ε} {st₀ st : σ} {ms : List (Member Value)}
    (h : R.members st₀ ms = .ok st) : exitOf ms = .empty ∧ st = st₀ ∨ exitOf ms = .closed := by
  cases ms with
  | nil =>
      cases h
      exact Or.inl ⟨rfl, rfl⟩
  | cons m ms => exact Or.inr (exitOf_eq_closed.mpr (List.cons_ne_nil m ms))

/-- The value reader of a loop whose `finish` asks for the keys in `required`. -/
theorem OncePerKey.object_left_ok {R : ObjectReader σ ε} {known required : List Bytes}
    {seen : σ → Bytes → Bool} {ok : Bytes → Value → Prop}
    {update : σ → Bytes → Value → σ} (h : OncePerKey R known seen ok update)
    {st₀ : σ} (h₀ : ∀ key, seen st₀ key = false) (hrequired : ∀ key ∈ required, key ∈ known)
    {finish : σ → LoopExit → Except ε α} {out : σ → α}
    (hfinish : ∀ st exit, exit = .empty ∧ st = st₀ ∨ exit = .closed → ∀ a,
      finish st exit = .ok a ↔ (∀ key ∈ required, seen st key = true) ∧ a = out st)
    {notObject : ε} {v : Value} {a : α} :
    (R.object notObject st₀ finish).read v = .ok a ↔
      ∃ gap ms, v = .obj gap ms ∧ OnceMembers known required ok ms ∧
        a = out (updates update st₀ ms) := by
  rw [ObjectReader.object_ok]
  constructor
  · rintro ⟨gap, ms, st, rfl, hrun, hout⟩
    have hflags := (hfinish _ _ (ObjectReader.members_left hrun) _).mp hout
    exact ⟨gap, ms, rfl, (h.members_finish_ok h₀ hrequired).mp ⟨st, hrun, hflags⟩⟩
  · rintro ⟨gap, ms, rfl, hms⟩
    obtain ⟨st, hrun, hflags⟩ := (h.members_finish_ok h₀ hrequired).mpr hms
    exact ⟨gap, ms, st, rfl, hrun,
      (hfinish _ _ (ObjectReader.members_left hrun) _).mpr hflags⟩

/-- ... and treats an empty object as a closed one. -/
theorem OncePerKey.object_ok {R : ObjectReader σ ε} {known required : List Bytes}
    {seen : σ → Bytes → Bool} {ok : Bytes → Value → Prop}
    {update : σ → Bytes → Value → σ} (h : OncePerKey R known seen ok update)
    {st₀ : σ} (h₀ : ∀ key, seen st₀ key = false) (hrequired : ∀ key ∈ required, key ∈ known)
    {finish : σ → LoopExit → Except ε α} {out : σ → α}
    (hfinish : ∀ st exit, exit ≠ .cut → ∀ a, finish st exit = .ok a ↔
      (∀ key ∈ required, seen st key = true) ∧ a = out st)
    {notObject : ε} {v : Value} {a : α} :
    (R.object notObject st₀ finish).read v = .ok a ↔
      ∃ gap ms, v = .obj gap ms ∧ OnceMembers known required ok ms ∧
        a = out (updates update st₀ ms) := by
  refine h.object_left_ok h₀ hrequired fun st exit hleft => hfinish st exit ?_
  rcases hleft with ⟨rfl, -⟩ | rfl
  · exact LoopExit.noConfusion
  · exact LoopExit.noConfusion

theorem single_valuesAt {key : Bytes} {ms : List (Member Value)} {p : Value → Prop}
    (h : ∃ v, valuesAt key ms = [v] ∧ p v) :
    (valuesAt key ms).length ≤ 1 ∧ ∀ v ∈ valuesAt key ms, p v := by
  obtain ⟨v, hv, hp⟩ := h
  rw [hv]
  exact ⟨le_refl 1, List.forall_mem_singleton.mpr hp⟩

end NativeGuard.Protocol

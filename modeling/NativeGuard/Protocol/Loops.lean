import NativeGuard.Protocol.Scanner

/-!
# The object and array loops

Every parser of the guard walks an object (or array) with the same loop: a
scanned key, a colon, a value that the parser dispatches on, then a brace or a
comma. The copies differ in what they do with a member, in whether a brace
after a comma is looked for, and in what happens when the input ends at the
head of the loop, right after a comma. `ObjectLoop` is that loop with these
differences as parameters; each parser's loop is an instance.

The loop is fuelled by the bytes left when it starts, and every turn consumes
at least one, so the fuel never runs out: `parse_agrees` runs it on any text
it can accept, and `parse_sound` shows that it accepts no others. Both reduce
the loop to a fold of the member handler over the members of a tree.
-/

namespace NativeGuard.Protocol

open Json Json.Scan

variable {σ ε : Type}

/-! ## §1  The loops -/

/-- What the loop does with a closing brace right after a comma: most copies
leave it to the next turn, some look for it and fail, one takes it. -/
inductive Trailing where
  | unchecked
  | rejected
  | closes
deriving DecidableEq

/-- How a loop was left: at an empty container's brace, at the brace after a
member, at a brace after a comma, or at the end of the input. -/
inductive LoopExit where
  | empty
  | closed
  | trailing
  | cut
deriving DecidableEq

structure ObjectLoop (σ ε : Type) where
  malformed : σ → ε
  checkKey : σ → StringToken → Except ε Unit
  member : σ → StringToken → Scan ε σ
  trailing : Trailing := .unchecked

namespace ObjectLoop

variable (L : ObjectLoop σ ε)

/-- After a member's value: the brace, or the comma and the next turn. -/
def separator (again : σ → Scan ε (σ × LoopExit)) (st : σ) :
    Scan ε (σ × LoopExit) := do
  skipWhitespace
  let c ← next
  if c = some 0x7D then pure (st, .closed)
  else if c = some 0x2C then
    skipWhitespace
    let d ← peek
    if d = some 0x7D then
      match L.trailing with
      | .unchecked => again st
      | .rejected => fail (L.malformed st)
      | .closes =>
          let _ ← next
          pure (st, .trailing)
    else again st
  else fail (L.malformed st)

/-- One turn. The loop condition is `offset < size`, so at the end of the
input the loop is left as if it had been closed. -/
def turn (again : σ → Scan ε (σ × LoopExit)) (st : σ) :
    Scan ε (σ × LoopExit) := do
  let c ← peek
  if c = none then pure (st, .cut)
  else
    let key ← scanString.orFail (L.malformed st)
    ofExcept (L.checkKey st key)
    skipWhitespace
    expect 0x3A (L.malformed st)
    skipWhitespace
    let st ← L.member st key
    L.separator again st

def run : Nat → σ → Scan ε (σ × LoopExit)
  | 0, st => fail (L.malformed st)
  | fuel + 1, st => L.turn (run fuel) st

/-- The object after its opening brace. -/
def parse (st : σ) : Scan ε (σ × LoopExit) := do
  skipWhitespace
  let c ← peek
  if c = some 0x7D then
    let _ ← next
    pure (st, .empty)
  else
    let s ← remaining
    L.run (s.length + 1) st

end ObjectLoop

structure ArrayLoop (σ ε : Type) where
  malformed : ε
  element : σ → Scan ε σ
  rejectsTrailing : Bool := false

namespace ArrayLoop

variable (L : ArrayLoop σ ε)

def separator (again : σ → Scan ε σ) (st : σ) : Scan ε σ := do
  skipWhitespace
  let c ← next
  if c = some 0x5D then pure st
  else if c = some 0x2C then
    skipWhitespace
    let d ← peek
    if d = some 0x5D ∧ L.rejectsTrailing = true then fail L.malformed
    else again st
  else fail L.malformed

def turn (again : σ → Scan ε σ) (st : σ) : Scan ε σ := do
  let c ← peek
  if c = none then fail L.malformed
  else
    let st ← L.element st
    L.separator again st

def run : Nat → σ → Scan ε σ
  | 0, _ => fail L.malformed
  | fuel + 1, st => L.turn (run fuel) st

/-- The array after its opening bracket. -/
def parse (st : σ) : Scan ε σ := do
  skipWhitespace
  let c ← peek
  if c = some 0x5D then
    let _ ← next
    pure st
  else
    let s ← remaining
    L.run (s.length + 1) st

end ArrayLoop

/-! ## §2  First bytes -/

/-- A value starts with neither whitespace nor a separator. -/
theorem render_head (v : Value) (rest : Bytes) :
    ∃ b t, v.render ++ rest = b :: t ∧ b ∉ whitespaceBytes ∧ b ≠ 0x2C ∧
      b ≠ 0x7D ∧ b ≠ 0x5D := by
  cases v with
  | str t => exact ⟨_, _, rfl, by decide⟩
  | num t =>
      obtain ⟨b, tail, ht, hb⟩ := t.property.head
      refine ⟨b, tail ++ rest, by simp [Value.render, ht], ?_⟩
      rcases hb with rfl | ⟨hlo, hhi⟩
      · decide
      · have hne : ∀ c : UInt8, c < 0x30 ∨ 0x39 < c → b ≠ c := by
          rintro c hc rfl
          rcases hc with hc | hc
          · exact absurd hlo (UInt8.not_le.mpr hc)
          · exact absurd hhi (UInt8.not_le.mpr hc)
        simp only [whitespaceBytes, List.mem_cons, List.not_mem_nil, or_false,
          not_or]
        exact ⟨⟨hne _ (by decide), hne _ (by decide), hne _ (by decide),
          hne _ (by decide)⟩, hne _ (by decide), hne _ (by decide),
          hne _ (by decide)⟩
  | lit w =>
      cases w <;> exact ⟨_, _, rfl, by decide⟩
  | obj gap ms =>
      cases ms <;> exact ⟨_, _, rfl, by decide⟩
  | arr gap es =>
      cases es <;> exact ⟨_, _, rfl, by decide⟩

theorem render_ne_nil (v : Value) : v.render ≠ [] := by
  intro h
  obtain ⟨b, t, hb, -⟩ := render_head v []
  rw [h] at hb
  cases hb

theorem stops_render (v : Value) (rest : Bytes) : Stops (v.render ++ rest) := by
  obtain ⟨b, t, h, hb, -⟩ := render_head v rest
  rw [h]
  exact stops_cons.mpr hb

/-- A member after the whitespace in front of it. -/
def memberBody (m : Member Value) : Bytes :=
  0x22 :: (m.key.val ++ 0x22 :: (m.preColon.val ++ 0x3A :: (m.postColon.val ++
    (m.value.render ++ m.trail.val))))

theorem renderMember_body (m : Member Value) :
    renderMember m = m.lead.val ++ memberBody m := by
  rw [renderMember_eq, memberBody]

/-- Members after the first, without the closing brace. -/
def openMembers : List (Member Value) → Bytes
  | [] => []
  | m :: ms => 0x2C :: (renderMember m ++ openMembers ms)

theorem renderMembers_open (ms : List (Member Value)) :
    renderMembers ms = openMembers ms ++ [0x7D] := by
  induction ms with
  | nil => rfl
  | cons m ms ih => simp [renderMembers, openMembers, ih]

def openElements : List (Element Value) → Bytes
  | [] => []
  | e :: es => 0x2C :: (renderElement e ++ openElements es)

theorem renderElements_open (es : List (Element Value)) :
    renderElements es = openElements es ++ [0x5D] := by
  induction es with
  | nil => rfl
  | cons e es ih => simp [renderElements, openElements, ih]

theorem length_le_openMembers (ms : List (Member Value)) :
    ms.length ≤ (openMembers ms).length := by
  induction ms with
  | nil => simp
  | cons m ms ih =>
      simp only [openMembers, List.length_cons, List.length_append]
      omega

theorem length_le_openElements (es : List (Element Value)) :
    es.length ≤ (openElements es).length := by
  induction es with
  | nil => simp
  | cons e es ih =>
      simp only [openElements, List.length_cons, List.length_append]
      omega

/-! ## §3  The texts of an object loop -/

/-- What stands behind the last member when the loop is left by `exit`. -/
inductive Ending : LoopExit → Bytes → Bytes → Prop where
  | closed (rest : Bytes) : Ending .closed (0x7D :: rest) rest
  | trailing (gap : Gap) (rest : Bytes) :
      Ending .trailing (0x2C :: (gap.val ++ 0x7D :: rest)) rest
  | cut (gap : Gap) : Ending .cut (0x2C :: gap.val) []

theorem Ending.follow {exit : LoopExit} {tail rest : Bytes}
    (h : Ending exit tail rest) : Follow tail := by
  cases h <;> exact follow_cons.mpr (by decide)

theorem Ending.stops {exit : LoopExit} {tail rest : Bytes}
    (h : Ending exit tail rest) : Stops tail := by
  cases h <;> exact stops_cons.mpr (by decide)

/-- `LoopText exit ms s tail rest`: the text `s` after an opening brace spells
the members `ms`, goes on with `tail`, ends the loop by `exit` and leaves
`rest`. -/
inductive LoopText :
    LoopExit → List (Member Value) → Bytes → Bytes → Bytes → Prop where
  | empty (gap : Gap) (rest : Bytes) :
      LoopText .empty [] (gap.val ++ 0x7D :: rest) (0x7D :: rest) rest
  | bare (gap : Gap) : LoopText .cut [] gap.val [] []
  | members {exit : LoopExit} {tail rest : Bytes} (m : Member Value)
      (ms : List (Member Value)) (hend : Ending exit tail rest) :
      LoopText exit (m :: ms) (renderMember m ++ (openMembers ms ++ tail))
        tail rest

/-- The exit of a well-formed object. -/
def exitOf (ms : List (Member Value)) : LoopExit :=
  if ms = [] then .empty else .closed

theorem exitOf_ne_trailing (ms : List (Member Value)) :
    exitOf ms ≠ .trailing := by
  unfold exitOf
  split <;> simp

theorem exitOf_ne_cut (ms : List (Member Value)) : exitOf ms ≠ .cut := by
  unfold exitOf
  split <;> simp

/-- The two ways to leave a loop at a brace that closes it. -/
theorem LoopExit.whole_iff {exit : LoopExit} :
    exit = .empty ∨ exit = .closed ↔ exit ≠ .trailing ∧ exit ≠ .cut := by
  cases exit <;> simp

theorem exitOf_whole (ms : List (Member Value)) :
    exitOf ms = .empty ∨ exitOf ms = .closed :=
  LoopExit.whole_iff.mpr ⟨exitOf_ne_trailing ms, exitOf_ne_cut ms⟩

theorem exitOf_eq_closed {ms : List (Member Value)} :
    exitOf ms = .closed ↔ ms ≠ [] := by
  unfold exitOf
  split
  · simp_all
  · simp_all

/-- The interior of a well-formed object is a loop text. -/
theorem loopText_obj (gap : Gap) (ms : List (Member Value)) (rest : Bytes) :
    ∃ s, (Value.obj gap ms).render ++ rest = 0x7B :: s ∧
      LoopText (exitOf ms) ms s (0x7D :: rest) rest := by
  cases ms with
  | nil =>
      exact ⟨gap.val ++ 0x7D :: rest, by simp [Value.render],
        LoopText.empty gap rest⟩
  | cons m ms =>
      refine ⟨renderMember m ++ (openMembers ms ++ 0x7D :: rest), ?_,
        LoopText.members m ms (Ending.closed rest)⟩
      simp [Value.render, renderMembers_open]

/-- A loop left at a brace that closes it has read a well-formed object. -/
theorem obj_of_loopText {exit : LoopExit} {ms : List (Member Value)}
    {s tail rest : Bytes} (h : LoopText exit ms s tail rest)
    (hexit : exit = .empty ∨ exit = .closed) :
    tail = 0x7D :: rest ∧
      ∃ gap, 0x7B :: s = (Value.obj gap ms).render ++ rest := by
  cases h with
  | empty gap rest => exact ⟨rfl, gap, by simp [Value.render]⟩
  | bare => rcases hexit with h | h <;> cases h
  | members m ms hend =>
      cases hend with
      | closed rest =>
          exact ⟨rfl, ⟨[], by simp⟩, by simp [Value.render, renderMembers_open]⟩
      | trailing => rcases hexit with h | h <;> cases h
      | cut => rcases hexit with h | h <;> cases h

theorem openMembers_append (ms ms' : List (Member Value)) :
    openMembers (ms ++ ms') = openMembers ms ++ openMembers ms' := by
  induction ms with
  | nil => rfl
  | cons m ms ih => simp [openMembers, ih]

/-- A member up to its value. -/
def memberHead (m : Member Value) : Bytes :=
  m.lead.val ++ 0x22 :: (m.key.val ++ 0x22 :: (m.preColon.val ++
    0x3A :: m.postColon.val))

theorem renderMember_head (m : Member Value) (w : Value) :
    renderMember { m with value := w } =
      memberHead m ++ (w.render ++ m.trail.val) := by
  simp [renderMember_eq, memberHead]

/-- The text of an object around the value of one member. -/
theorem render_obj_context (gap : Gap) (pre post : List (Member Value))
    (m : Member Value) : ∃ before after, ∀ w : Value,
      (Value.obj gap (pre ++ { m with value := w } :: post)).render =
        before ++ (w.render ++ after) := by
  cases pre with
  | nil =>
      refine ⟨0x7B :: memberHead m, m.trail.val ++ renderMembers post, fun w => ?_⟩
      simp [Value.render, renderMember_head]
  | cons m₀ pre =>
      refine ⟨0x7B :: (renderMember m₀ ++ (openMembers pre ++ 0x2C :: memberHead m)),
        m.trail.val ++ (openMembers post ++ [0x7D]), fun w => ?_⟩
      simp [Value.render, renderMembers_open, openMembers_append, openMembers,
        renderMember_head]

theorem openElements_length (es : List (Element Value)) :
    (openElements es).length = (es.map fun e => (renderElement e).length + 1).sum := by
  induction es with
  | nil => rfl
  | cons e es ih =>
      simp only [openElements, List.length_cons, List.length_append, List.map_cons,
        List.sum_cons, ih]
      omega

theorem render_arr_length (gap : Gap) (e : Element Value) (es : List (Element Value)) :
    (Value.arr gap (e :: es)).render.length = (openElements (e :: es)).length + 1 := by
  simp only [Value.render, renderElements_open, openElements, List.length_cons,
    List.length_append, List.length_nil]
  omega

/-- The length of an array's text does not depend on the order of its elements. -/
theorem render_arr_length_of_perm {es es' : List (Element Value)} (h : es.Perm es')
    (gap : Gap) : (Value.arr gap es).render.length = (Value.arr gap es').render.length := by
  have hopen : (openElements es).length = (openElements es').length := by
    rw [openElements_length, openElements_length]
    exact (h.map _).sum_eq
  cases es with
  | nil => rw [List.nil_perm.mp h]
  | cons e es =>
      cases es' with
      | nil => exact absurd h.symm (List.not_perm_nil_cons e es)
      | cons e' es' => rw [render_arr_length, render_arr_length, hopen]

/-- The text around one value: any other value in its place gives the text of
the same members with that value. -/
theorem LoopText.context {exit : LoopExit} {pre post : List (Member Value)}
    {m : Member Value} {s tail rest : Bytes}
    (h : LoopText exit (pre ++ m :: post) s tail rest) :
    ∃ before, s = before ++ (m.value.render ++
        (m.trail.val ++ (openMembers post ++ tail))) ∧
      ∀ w, LoopText exit (pre ++ { m with value := w } :: post)
        (before ++ (w.render ++ (m.trail.val ++ (openMembers post ++ tail))))
        tail rest := by
  cases pre with
  | nil =>
      cases h with
      | members _ _ hend =>
          refine ⟨memberHead m, ?_, fun w => ?_⟩
          · have hm := renderMember_head m m.value
            simp [hm]
          · have htext := LoopText.members { m with value := w } post hend
            rw [renderMember_head] at htext
            simpa using htext
  | cons m₀ pre =>
      cases h with
      | members _ _ hend =>
          refine ⟨renderMember m₀ ++ (openMembers pre ++ 0x2C :: memberHead m),
            ?_, fun w => ?_⟩
          · have hm := renderMember_head m m.value
            simp [openMembers_append, openMembers, hm]
          · have htext := LoopText.members m₀
              (pre ++ { m with value := w } :: post) hend
            rw [openMembers_append, openMembers, renderMember_head m w] at htext
            simpa using htext

/-! ## §4  The object loop over a tree -/

namespace ObjectLoop

variable (L : ObjectLoop σ ε)

/-- `value st key v rest` is what the member handler computes from the tree
`v` in front of `rest`. Where the loop can go on behind it the handler has taken
exactly a value; some handlers also accept one that the end of the input cuts
short. -/
structure Reads (value : σ → StringToken → Value → Bytes → Except ε σ) :
    Prop where
  agrees : ∀ st key v rest, Follow rest →
    Agrees (L.member st key) (v.render ++ rest) (value st key v rest) rest
  takes : ∀ st key s st' rest, L.member st key s = (.ok st', rest) →
    rest ≠ [] → ∃ v : Value, s = v.render ++ rest

def step (value : σ → StringToken → Value → Bytes → Except ε σ) (st : σ)
    (m : Member Value) (rest : Bytes) : Except ε σ := do
  L.checkKey st (tokenOf m.key.val)
  value st (tokenOf m.key.val) m.value (m.trail.val ++ rest)

/-- The loop as a fold over the members in front of `tail`. -/
def fold (value : σ → StringToken → Value → Bytes → Except ε σ) (tail : Bytes) :
    σ → List (Member Value) → Except ε σ
  | st, [] => .ok st
  | st, m :: ms => do
      let st ← L.step value st m (openMembers ms ++ tail)
      fold value tail st ms

variable {L}
variable {value : σ → StringToken → Value → Bytes → Except ε σ}

/-- One turn on a member, up to the separator behind its value. -/
theorem turn_agrees (hL : L.Reads value)
    {again : σ → Scan ε (σ × LoopExit)} {st : σ} {m : Member Value}
    {tail rest : Bytes} {k : σ → Except ε (σ × LoopExit)} (htail : Follow tail)
    (hk : ∀ st', Agrees (L.separator again st') (m.trail.val ++ tail)
      (k st') rest) :
    Agrees (L.turn again st) (memberBody m ++ tail)
      (L.step value st m tail >>= k) rest := by
  have hfollow : Follow (m.trail.val ++ tail) := follow_gap_append htail
  have hcolon : Stops (0x3A :: (m.postColon.val ++
      (m.value.render ++ (m.trail.val ++ tail)))) :=
    stops_cons.mpr (by decide)
  have hkey := scanString_text m.key (m.preColon.val ++ 0x3A ::
    (m.postColon.val ++ (m.value.render ++ (m.trail.val ++ tail))))
  have hbody : memberBody m ++ tail = 0x22 :: (m.key.val ++ 0x22 ::
      (m.preColon.val ++ 0x3A :: (m.postColon.val ++
        (m.value.render ++ (m.trail.val ++ tail))))) := by
    simp [memberBody]
  rw [hbody]
  unfold turn
  refine Agrees.bind_ok (peek_run _) ?_
  rw [if_neg (by simp)]
  refine Agrees.bind_ok (orFail_eq_ok.mpr hkey) ?_
  unfold step
  rw [bind_assoc]
  refine Agrees.bind (agrees_ofExcept _ _) fun _ _ => ?_
  refine Agrees.bind_ok (skipWhitespace_gap m.preColon hcolon) ?_
  refine Agrees.bind_ok (expect_run _ _ _) ?_
  refine Agrees.bind_ok
    (skipWhitespace_gap m.postColon (stops_render m.value _)) ?_
  exact Agrees.bind (hL.agrees _ _ _ _ hfollow) fun st' _ => hk st'

/-- The separator does not see the whitespace in front of it. -/
theorem separator_gap (again : σ → Scan ε (σ × LoopExit)) (st : σ) (gap : Gap)
    {tail : Bytes} (h : Stops tail) :
    L.separator again st (gap.val ++ tail) = L.separator again st tail := by
  unfold separator
  rw [bind_apply, skipWhitespace_gap gap h, bind_apply,
    skipWhitespace_stops h]

/-- A whole run over members, up to the text `tail` that ends it. -/
theorem run_agrees (hL : L.Reads value) {tail rest : Bytes}
    {k : σ → Except ε (σ × LoopExit)} (hstop : Stops tail)
    (hfollow : Follow tail)
    (hk : ∀ fuel st', Agrees (L.separator (L.run (fuel + 1)) st') tail
      (k st') rest) :
    ∀ (ms : List (Member Value)) (m : Member Value) (fuel : Nat) (st : σ),
      ms.length + 1 < fuel →
      Agrees (L.run fuel st) (memberBody m ++ (openMembers ms ++ tail))
        (L.fold value tail st (m :: ms) >>= k) rest := by
  intro ms
  induction ms with
  | nil =>
      intro m fuel st hfuel
      obtain ⟨n, rfl⟩ : ∃ n, fuel = n + 2 :=
        ⟨fuel - 2, by simp only [List.length_nil] at hfuel; omega⟩
      rw [fold, bind_assoc]
      simp only [openMembers, List.nil_append, fold]
      refine turn_agrees hL hfollow fun st' => ?_
      have hsep := hk n st'
      unfold Agrees at hsep ⊢
      rw [separator_gap _ _ _ hstop]
      exact hsep
  | cons m' ms ih =>
      intro m fuel st hfuel
      obtain ⟨n, rfl⟩ : ∃ n, fuel = n + 1 := ⟨fuel - 1, by omega⟩
      rw [fold, bind_assoc]
      have hcomma : Stops (openMembers (m' :: ms) ++ tail) :=
        stops_cons.mpr (by decide)
      refine turn_agrees hL (follow_cons.mpr (Or.inr (Or.inl rfl))) fun st' => ?_
      have hrec := ih m' n st' (by simp only [List.length_cons] at hfuel; omega)
      have hbody : Stops (memberBody m' ++ (openMembers ms ++ tail)) :=
        stops_cons.mpr (by decide)
      unfold Agrees
      rw [separator_gap _ _ _ hcomma]
      change Agrees (L.separator _ st') (openMembers (m' :: ms) ++ tail) _ _
      unfold separator
      refine Agrees.bind_ok (skipWhitespace_stops hcomma) ?_
      refine Agrees.bind_ok (next_run _) ?_
      rw [if_neg (by simp [openMembers]), if_pos (by simp [openMembers])]
      have htail : (openMembers (m' :: ms) ++ tail).tail =
          m'.lead.val ++ (memberBody m' ++ (openMembers ms ++ tail)) := by
        simp [openMembers, renderMember_body]
      rw [htail]
      refine Agrees.bind_ok (skipWhitespace_gap m'.lead hbody) ?_
      refine Agrees.bind_ok (peek_run _) ?_
      rw [if_neg (by simp [memberBody])]
      exact hrec

/-- The loop on any text it can be left behind. -/
theorem parse_agrees (hL : L.Reads value) {exit : LoopExit}
    {ms : List (Member Value)} {s tail rest : Bytes}
    (h : LoopText exit ms s tail rest)
    (hexit : exit = .trailing → L.trailing = .closes) (st : σ) :
    Agrees (L.parse st) s
      (L.fold value tail st ms >>= fun st' => .ok (st', exit)) rest := by
  unfold parse
  cases h with
  | empty gap rest =>
      refine Agrees.bind_ok
        (skipWhitespace_gap gap (stops_cons.mpr (by decide))) ?_
      refine Agrees.bind_ok (peek_run _) ?_
      rw [if_pos (by simp)]
      exact Agrees.bind_ok (next_run _) (agrees_pure _ _)
  | bare gap =>
      refine Agrees.bind_ok (skipWhitespace_all gap) ?_
      exact agrees_pure _ _
  | members m ms hend =>
      have hbody : Stops (memberBody m ++ (openMembers ms ++ tail)) :=
        stops_cons.mpr (by decide)
      rw [renderMember_body, List.append_assoc]
      refine Agrees.bind_ok (skipWhitespace_gap m.lead hbody) ?_
      refine Agrees.bind_ok (peek_run _) ?_
      rw [if_neg (by simp [memberBody])]
      refine Agrees.bind_ok (remaining_run _) ?_
      have hlen := length_le_openMembers ms
      refine run_agrees hL hend.stops hend.follow ?_ ms m _ st ?_
      · intro fuel st'
        unfold separator
        refine Agrees.bind_ok (skipWhitespace_stops hend.stops) ?_
        refine Agrees.bind_ok (next_run _) ?_
        cases hend with
        | closed rest => exact agrees_pure _ _
        | trailing gap rest =>
            rw [if_neg (by simp), if_pos (by simp)]
            refine Agrees.bind_ok
              (skipWhitespace_gap gap (stops_cons.mpr (by decide))) ?_
            refine Agrees.bind_ok (peek_run _) ?_
            rw [if_pos (by simp), hexit rfl]
            exact Agrees.bind_ok (next_run _) (agrees_pure _ _)
        | cut gap =>
            rw [if_neg (by simp), if_pos (by simp)]
            refine Agrees.bind_ok (skipWhitespace_all gap) ?_
            exact agrees_pure _ _
      · simp only [memberBody, List.length_append, List.length_cons]
        omega

/-! ## §5  The object loop accepts nothing else -/

/-- What a separator that lets the parser go on has read: the end of the loop,
or a comma, behind which the next turn ran. -/
theorem separator_sound {again : σ → Scan ε (σ × LoopExit)} {st st' : σ}
    {exit : LoopExit} {s rest : Bytes}
    (h : L.separator again st s = (.ok (st', exit), rest)) :
    ∃ (gap : Gap) (tail : Bytes), s = gap.val ++ tail ∧
      ((Ending exit tail rest ∧ st' = st ∧
          (exit = .trailing → L.trailing = .closes)) ∨
        ∃ (lead : Gap) (s' : Bytes), tail = 0x2C :: (lead.val ++ s') ∧
          again st s' = (.ok (st', exit), rest)) := by
  unfold separator at h
  obtain ⟨gap, s₁, rfl, _, h⟩ := skipWhitespace_bind h
  refine ⟨gap, s₁, rfl, ?_⟩
  rw [next_bind] at h
  cases s₁ with
  | nil => simp at h
  | cons b s₁ =>
      by_cases hbrace : b = 0x7D
      · subst hbrace
        simp at h
        obtain ⟨⟨rfl, rfl⟩, rfl⟩ := h
        exact Or.inl ⟨Ending.closed _, rfl, by simp⟩
      by_cases hcomma : b = 0x2C
      · subst hcomma
        rw [if_neg (by simp), if_pos (by simp)] at h
        obtain ⟨lead, s₂, hlead, _, h⟩ := skipWhitespace_bind h
        have hs₁ : s₁ = lead.val ++ s₂ := hlead
        rw [peek_bind] at h
        by_cases hclose : s₂.head? = some 0x7D
        · rw [if_pos hclose] at h
          cases htrail : L.trailing with
          | unchecked =>
              rw [htrail] at h
              exact Or.inr ⟨lead, s₂, by rw [hs₁], h⟩
          | rejected =>
              rw [htrail] at h
              simp at h
          | closes =>
              rw [htrail] at h
              simp only [next_bind] at h
              simp only [pure_eq_ok, Prod.mk.injEq] at h
              obtain ⟨⟨rfl, rfl⟩, rfl⟩ := h
              have hs₂ : s₂ = 0x7D :: s₂.tail := by
                cases s₂ with
                | nil => simp at hclose
                | cons x s₂ => simpa using hclose
              refine Or.inl ⟨?_, rfl, fun _ => rfl⟩
              have hend := Ending.trailing lead s₂.tail
              rw [← hs₂, ← hs₁] at hend
              exact hend
        · rw [if_neg hclose] at h
          exact Or.inr ⟨lead, s₂, by rw [hs₁], h⟩
      · rw [if_neg (by simpa using hbrace), if_neg (by simpa using hcomma)] at h
        simp at h

/-- One turn that goes on has read a member, up to its separator. -/
theorem turn_sound (hL : L.Reads value)
    {again : σ → Scan ε (σ × LoopExit)} {st st' : σ} {exit : LoopExit}
    {s rest : Bytes} (h : L.turn again st s = (.ok (st', exit), rest)) :
    (s = [] ∧ rest = [] ∧ st' = st ∧ exit = .cut) ∨
      ∃ (m : Member Value) (tail : Bytes) (st₁ : σ),
        s = memberBody m ++ tail ∧ L.step value st m tail = .ok st₁ ∧
        ((Ending exit tail rest ∧ st' = st₁ ∧
            (exit = .trailing → L.trailing = .closes)) ∨
          ∃ (lead : Gap) (s' : Bytes), tail = 0x2C :: (lead.val ++ s') ∧
            again st₁ s' = (.ok (st', exit), rest)) := by
  unfold turn at h
  rw [peek_bind] at h
  by_cases hnil : s.head? = none
  · rw [if_pos hnil] at h
    simp only [pure_eq_ok, Prod.mk.injEq] at h
    obtain ⟨⟨rfl, rfl⟩, rfl⟩ := h
    have hs : s = [] := by simpa using hnil
    exact Or.inl ⟨hs, hs, rfl, rfl⟩
  rw [if_neg hnil] at h
  obtain ⟨key, s₁, hs, h⟩ := scanString_bind h
  obtain ⟨_, hcheck, h⟩ := ofExcept_bind_ok h
  obtain ⟨preColon, s₂, hs₁, _, h⟩ := skipWhitespace_bind h
  obtain ⟨s₃, hs₂, h⟩ := expect_bind_ok h
  obtain ⟨postColon, s₄, hs₃, _, h⟩ := skipWhitespace_bind h
  obtain ⟨st₁, s₅, hmember, h⟩ := bind_eq_ok.mp h
  obtain ⟨gap, tail, rfl, hsep⟩ := separator_sound h
  -- the separator found its comma or brace, so the value is not cut short
  have htail : Follow tail ∧ tail ≠ [] := by
    rcases hsep with ⟨hend, _⟩ | ⟨lead, s', rfl, _⟩
    · refine ⟨hend.follow, ?_⟩
      rintro rfl
      cases hend
    · exact ⟨follow_cons.mpr (by decide), by simp⟩
  have hne : gap.val ++ tail ≠ [] := by simp [htail.2]
  obtain ⟨v, hs₄⟩ := hL.takes _ _ _ _ _ hmember hne
  rw [hs₄] at hmember
  have hvalue := (hL.agrees st (tokenOf key.val) v _
    (@follow_gap_append gap tail htail.1)).result
  rw [hmember] at hvalue
  refine Or.inr ⟨⟨⟨[], by simp⟩, key, preColon, postColon, v, gap⟩, tail, st₁,
    ?_, ?_, ?_⟩
  · simp [memberBody, hs, hs₁, hs₂, hs₃, hs₄]
  · show (L.checkKey st (tokenOf key.val) >>= fun _ =>
      value st (tokenOf key.val) v (gap.val ++ tail)) = .ok st₁
    rw [hcheck]
    exact hvalue.symm
  · exact hsep

/-- A whole run has read members up to an ending, or the end of the input. -/
theorem run_sound (hL : L.Reads value) :
    ∀ (fuel : Nat) (st st' : σ) (exit : LoopExit) (s rest : Bytes),
      L.run fuel st s = (.ok (st', exit), rest) →
      (s = [] ∧ rest = [] ∧ st' = st ∧ exit = .cut) ∨
        ∃ (m : Member Value) (ms : List (Member Value)) (tail : Bytes),
          s = memberBody m ++ (openMembers ms ++ tail) ∧
          Ending exit tail rest ∧ L.fold value tail st (m :: ms) = .ok st' ∧
          (exit = .trailing → L.trailing = .closes) := by
  intro fuel
  induction fuel with
  | zero =>
      intro st st' exit s rest h
      simp [run] at h
  | succ fuel ih =>
      intro st st' exit s rest h
      rcases turn_sound hL h with hcut | ⟨m, tail, st₁, rfl, hstep, hrest⟩
      · exact Or.inl hcut
      refine Or.inr ?_
      rcases hrest with ⟨hend, rfl, htrail⟩ | ⟨lead, s', rfl, hagain⟩
      · refine ⟨m, [], tail, by simp [openMembers], hend, ?_, htrail⟩
        rw [fold, openMembers, List.nil_append, hstep]
        rfl
      rcases ih _ _ _ _ _ hagain with
        ⟨rfl, rfl, rfl, rfl⟩ | ⟨m', ms, tail', rfl, hend, hms, htrail⟩
      · rw [List.append_nil] at hstep
        refine ⟨m, [], 0x2C :: lead.val, by simp [openMembers],
          Ending.cut lead, ?_, by simp⟩
        rw [fold, openMembers, List.nil_append, hstep]
        rfl
      · have hopen : openMembers ({ m' with lead := lead } :: ms) ++ tail' =
            0x2C :: (lead.val ++ (memberBody m' ++ (openMembers ms ++ tail'))) := by
          simp [openMembers, renderMember_body, memberBody]
        refine ⟨m, { m' with lead := lead } :: ms, tail', by rw [hopen], hend, ?_,
          htrail⟩
        rw [fold, hopen, hstep]
        exact hms

/-- The loop accepts only loop texts, with the state its fold gives. -/
theorem parse_sound (hL : L.Reads value) {st st' : σ}
    {exit : LoopExit} {s rest : Bytes}
    (h : L.parse st s = (.ok (st', exit), rest)) :
    ∃ ms tail, LoopText exit ms s tail rest ∧
      L.fold value tail st ms = .ok st' ∧
      (exit = .trailing → L.trailing = .closes) := by
  unfold parse at h
  obtain ⟨gap, s₁, rfl, _, h⟩ := skipWhitespace_bind h
  rw [peek_bind] at h
  by_cases hclose : s₁.head? = some 0x7D
  · rw [if_pos hclose, next_bind] at h
    simp only [pure_eq_ok, Prod.mk.injEq] at h
    obtain ⟨⟨rfl, rfl⟩, rfl⟩ := h
    obtain ⟨x, s₁, rfl⟩ : ∃ x s, s₁ = x :: s := by
      cases s₁ with
      | nil => simp at hclose
      | cons x s => exact ⟨x, s, rfl⟩
    have hx : x = 0x7D := by simpa using hclose
    subst hx
    exact ⟨[], _, LoopText.empty gap s₁, rfl, by simp⟩
  · rw [if_neg hclose, remaining_bind] at h
    rcases run_sound hL _ _ _ _ _ _ h with
      ⟨rfl, rfl, rfl, rfl⟩ | ⟨m, ms, tail, rfl, hend, hms, htrail⟩
    · refine ⟨[], [], ?_, rfl, by simp⟩
      rw [List.append_nil]
      exact LoopText.bare gap
    · refine ⟨{ m with lead := gap } :: ms, tail, ?_, hms, htrail⟩
      have htext := LoopText.members { m with lead := gap } ms hend
      rw [renderMember_body] at htext
      simpa [memberBody] using htext

end ObjectLoop

/-! ## §6  Documents

A whole message is whitespace, one object, whitespace. -/

/-- `DocumentText exit ms tail m`: the message `m` is one object text with the
members `ms`, left by `exit`; `tail` is what follows the last member. -/
def DocumentText (exit : LoopExit) (ms : List (Member Value)) (tail m : Bytes) :
    Prop :=
  ∃ (lead trail : Gap) (s : Bytes), m = lead.val ++ 0x7B :: s ∧
    LoopText exit ms s tail trail.val

theorem documentText_of_isText {gap : Gap} {ms : List (Member Value)} {m : Bytes}
    (h : IsText m (.obj gap ms)) : ∃ tail, DocumentText (exitOf ms) ms tail m := by
  obtain ⟨lead, trail, rfl⟩ := h
  obtain ⟨s, hs, htext⟩ := loopText_obj gap ms trail.val
  exact ⟨_, lead, trail, s, by rw [hs], htext⟩

theorem isText_of_documentText {exit : LoopExit} {ms : List (Member Value)}
    {tail m : Bytes} (h : DocumentText exit ms tail m)
    (hexit : exit = .empty ∨ exit = .closed) :
    ∃ gap, IsText m (.obj gap ms) := by
  obtain ⟨lead, trail, s, rfl, htext⟩ := h
  obtain ⟨-, gap, hs⟩ := obj_of_loopText htext hexit
  exact ⟨gap, lead, trail, by rw [hs]⟩

namespace ObjectLoop

variable (L : ObjectLoop σ ε)

/-- The parser of a message: `leave` may reject how the loop was left, and
`extra` is the error for bytes behind the object. -/
def document (notObject : ε) (leave : σ → LoopExit → Except ε Unit)
    (extra : σ → ε) (st : σ) : Scan ε (σ × LoopExit) := do
  skipWhitespace
  expect 0x7B notObject
  let (st, exit) ← L.parse st
  ofExcept (leave st exit)
  skipWhitespace
  let s ← remaining
  if s = [] then pure (st, exit) else fail (extra st)

variable {L}
variable {value : σ → StringToken → Value → Bytes → Except ε σ}

theorem document_agrees (hL : L.Reads value) {notObject : ε}
    {leave : σ → LoopExit → Except ε Unit} {extra : σ → ε} {exit : LoopExit}
    {ms : List (Member Value)} {tail m : Bytes} (h : DocumentText exit ms tail m)
    (hexit : exit = .trailing → L.trailing = .closes) (st : σ) :
    (L.document notObject leave extra st m).1 =
      (L.fold value tail st ms >>= fun st' =>
        leave st' exit >>= fun _ => .ok (st', exit)) := by
  obtain ⟨lead, trail, s, rfl, htext⟩ := h
  have hparse := parse_agrees hL htext hexit st
  have hafter : ∀ a : σ × LoopExit, Agrees (do
      ofExcept (leave a.1 a.2)
      skipWhitespace
      let s ← remaining
      if s = [] then pure (a.1, a.2) else fail (extra a.1)) trail.val
      (leave a.1 a.2 >>= fun _ => .ok (a.1, a.2)) [] := by
    intro a
    refine Agrees.bind (agrees_ofExcept _ _) fun _ _ => ?_
    exact Agrees.bind_ok (skipWhitespace_all trail) (agrees_pure _ _)
  have hloop := Agrees.bind hparse fun a _ => hafter a
  rw [bind_assoc] at hloop
  have hrun : Agrees (L.document notObject leave extra st)
      (lead.val ++ 0x7B :: s)
      (L.fold value tail st ms >>= fun st' =>
        leave st' exit >>= fun _ => .ok (st', exit)) [] := by
    refine Agrees.bind_ok
      (skipWhitespace_gap lead (stops_cons.mpr (by decide))) ?_
    exact Agrees.bind_ok (expect_run _ _ _) hloop
  exact hrun.result

/-- A message is parsed exactly if it is an object text whose members and exit
the parser accepts. -/
theorem document_ok (hL : L.Reads value) {notObject : ε}
    {leave : σ → LoopExit → Except ε Unit} {extra : σ → ε} {st st' : σ}
    {exit : LoopExit} {m : Bytes} :
    (L.document notObject leave extra st m).1 = .ok (st', exit) ↔
      ∃ ms tail, DocumentText exit ms tail m ∧
        L.fold value tail st ms = .ok st' ∧ leave st' exit = .ok () ∧
        (exit = .trailing → L.trailing = .closes) := by
  constructor
  · intro h
    obtain ⟨r, rest, hrun⟩ : ∃ r rest,
        L.document notObject leave extra st m = (r, rest) := ⟨_, _, rfl⟩
    rw [hrun] at h
    have hrun' : L.document notObject leave extra st m =
        (.ok (st', exit), rest) := by rw [hrun, show r = _ from h]
    unfold document at hrun'
    obtain ⟨lead, s₁, hm, _, hrun'⟩ := skipWhitespace_bind hrun'
    obtain ⟨s₂, hs₁, hrun'⟩ := expect_bind_ok hrun'
    obtain ⟨⟨st₁, exit₁⟩, s₃, hparse, hrun'⟩ := bind_eq_ok.mp hrun'
    obtain ⟨u, hleave, hrun'⟩ := ofExcept_bind_ok hrun'
    obtain ⟨trail, s₄, hs₃, _, hrun'⟩ := skipWhitespace_bind hrun'
    rw [remaining_bind] at hrun'
    by_cases hs₄ : s₄ = []
    · rw [if_pos hs₄] at hrun'
      simp only [pure_eq_ok, Prod.mk.injEq] at hrun'
      obtain ⟨⟨rfl, rfl⟩, -⟩ := hrun'
      obtain ⟨ms, tail, htext, hfold, htrail⟩ := parse_sound hL hparse
      rw [hs₄, List.append_nil] at hs₃
      rw [hs₃] at htext
      exact ⟨ms, tail, ⟨lead, trail, s₂, by rw [hm, hs₁], htext⟩, hfold, hleave,
        htrail⟩
    · rw [if_neg hs₄] at hrun'
      simp at hrun'
  · rintro ⟨ms, tail, htext, hfold, hleave, htrail⟩
    rw [document_agrees hL htext htrail, hfold]
    show (leave st' exit >>= fun _ => Except.ok (st', exit)) = _
    rw [hleave]
    rfl

/-- A message that breaks off behind a value is malformed, if nothing in it was
wrong before. -/
theorem document_broken (hL : L.Reads value) {notObject : ε}
    {leave : σ → LoopExit → Except ε Unit} {extra : σ → ε} {m : Member Value}
    {ms : List (Member Value)} {st st' : σ}
    (hfold : L.fold value [] st (m :: ms) = .ok st') :
    (L.document notObject leave extra st
      (0x7B :: (memberBody m ++ openMembers ms))).1 = .error (L.malformed st') := by
  have hbody : Stops (memberBody m ++ openMembers ms) := stops_cons.mpr (by decide)
  have hseparator : ∀ fuel st', Agrees (L.separator (L.run (fuel + 1)) st') []
      (.error (L.malformed st')) [] := by
    intro fuel st'
    unfold separator
    refine Agrees.bind_ok (skipWhitespace_stops stops_nil) ?_
    exact Agrees.bind_ok (next_run _) (agrees_fail _ _ _)
  have hlength := length_le_openMembers ms
  have hloop := run_agrees hL stops_nil follow_nil hseparator ms m
    ((memberBody m ++ openMembers ms).length + 1) st (by
      simp only [memberBody, List.length_append, List.length_cons]
      omega)
  rw [List.append_nil, hfold] at hloop
  have hparse : Agrees (L.parse st) (memberBody m ++ openMembers ms)
      (.error (L.malformed st')) [] := by
    unfold parse
    refine Agrees.bind_ok (skipWhitespace_stops hbody) ?_
    refine Agrees.bind_ok (peek_run _) ?_
    rw [if_neg (by simp [memberBody])]
    exact Agrees.bind_ok (remaining_run _) hloop
  have hrun : Agrees (L.document notObject leave extra st)
      (0x7B :: (memberBody m ++ openMembers ms)) (.error (L.malformed st')) [] := by
    unfold document
    refine Agrees.bind_ok (skipWhitespace_stops (stops_cons.mpr (by decide))) ?_
    refine Agrees.bind_ok (expect_run _ _ _) ?_
    exact Agrees.bind hparse (g := fun _ => .error (L.malformed st')) nofun
  exact hrun.result

end ObjectLoop

/-! ## §7  Members that may occur once

The parsers keep a flag for each member they know. `OncePerKey` is what their
handlers have in common: a known key is read once, its value is checked, and
the state is updated. -/

namespace ObjectLoop

/-- The handler accepts a member exactly if its key was not `seen` and its value
passes `ok`, and then makes the step `update`, which may look at the text behind
the value. `known` are the keys with a flag. -/
structure OncePerKey (L : ObjectLoop σ ε)
    (value : σ → StringToken → Value → Bytes → Except ε σ) (known : List Bytes)
    (seen : σ → Bytes → Bool) (ok : Bytes → Value → Prop)
    (update : σ → Bytes → Value → Bytes → σ) : Prop where
  key : ∀ st raw, L.checkKey st (tokenOf raw) = .ok () ↔ 0x5C ∉ raw
  member : ∀ st raw v rest st', value st (tokenOf raw) v rest = .ok st' ↔
    seen st raw = false ∧ ok raw v ∧ st' = update st raw v rest
  marks : ∀ st raw v rest key, seen (update st raw v rest) key =
    (seen st key || (decide (key = raw) && decide (raw ∈ known)))
  unknown : ∀ st key, key ∉ known → seen st key = false

end ObjectLoop

/-- The members `ms` repeat no known key and none that `st` has seen. -/
def Fresh (known : List Bytes) (seen : σ → Bytes → Bool) (st : σ)
    (ms : List (Member Value)) : Prop :=
  ∀ key ∈ known, (valuesAt key ms).length + (seen st key).toNat ≤ 1

/-- All updates of the members in front of `tail`. -/
def updatesAt (update : σ → Bytes → Value → Bytes → σ) (tail : Bytes) :
    σ → List (Member Value) → σ
  | st, [] => st
  | st, m :: ms => updatesAt update tail
      (update st m.key.val m.value (m.trail.val ++ (openMembers ms ++ tail))) ms

namespace ObjectLoop.OncePerKey

variable {L : ObjectLoop σ ε}
  {value : σ → StringToken → Value → Bytes → Except ε σ} {known : List Bytes}
  {seen : σ → Bytes → Bool} {ok : Bytes → Value → Prop}
  {update : σ → Bytes → Value → Bytes → σ}

theorem fresh_cons (h : L.OncePerKey value known seen ok update) (st : σ)
    (m : Member Value) (rest : Bytes) (ms : List (Member Value)) :
    Fresh known seen st (m :: ms) ↔ seen st m.key.val = false ∧
      Fresh known seen (update st m.key.val m.value rest) ms := by
  constructor
  · intro hfresh
    refine ⟨?_, fun key hkey => ?_⟩
    · by_cases hm : m.key.val ∈ known
      · have hcount := hfresh _ hm
        rw [valuesAt_cons_of_eq rfl, List.length_cons] at hcount
        cases hseen : seen st m.key.val with
        | false => rfl
        | true => rw [hseen] at hcount; simp at hcount
      · exact h.unknown st _ hm
    · have hcount := hfresh key hkey
      rw [h.marks]
      by_cases hkm : m.key.val = key
      · rw [valuesAt_cons_of_eq hkm, List.length_cons] at hcount
        have hseen : seen st key = false := by
          cases hs : seen st key with
          | false => rfl
          | true => rw [hs] at hcount; simp at hcount
        rw [hseen] at hcount ⊢
        simp only [hkm, hkey, decide_true, Bool.and_self, Bool.or_true,
          Bool.toNat_true]
        simp only [Bool.toNat_false] at hcount
        omega
      · rw [valuesAt_cons_of_ne hkm] at hcount
        have hne : decide (key = m.key.val) = false := by simp [Ne.symm hkm]
        rw [hne, Bool.false_and, Bool.or_false]
        exact hcount
  · rintro ⟨hseen, hfresh⟩ key hkey
    have hcount := hfresh key hkey
    rw [h.marks] at hcount
    by_cases hkm : m.key.val = key
    · subst hkm
      rw [valuesAt_cons_of_eq rfl, List.length_cons, hseen]
      simp only [hseen, hkey, decide_true, Bool.and_self, Bool.or_true,
        Bool.toNat_true] at hcount
      simp only [Bool.toNat_false]
      omega
    · rw [valuesAt_cons_of_ne hkm]
      have hne : decide (key = m.key.val) = false := by simp [Ne.symm hkm]
      rw [hne, Bool.false_and, Bool.or_false] at hcount
      exact hcount

/-- The loop accepts `ms` exactly if every key is free of escapes, every value
passes its check, and no known key is repeated. -/
theorem fold_ok (h : L.OncePerKey value known seen ok update) (tail : Bytes)
    (st st' : σ) (ms : List (Member Value)) :
    L.fold value tail st ms = .ok st' ↔
      (∀ m ∈ ms, 0x5C ∉ m.key.val ∧ ok m.key.val m.value) ∧
        Fresh known seen st ms ∧ st' = updatesAt update tail st ms := by
  induction ms generalizing st with
  | nil =>
      have hfresh : Fresh known seen st [] := by
        intro key _
        cases hs : seen st key <;> simp [valuesAt]
      simp [fold, hfresh, updatesAt, eq_comm]
  | cons m ms ih =>
      rw [h.fresh_cons st m (m.trail.val ++ (openMembers ms ++ tail)),
        List.forall_mem_cons, fold, step]
      constructor
      · intro hrun
        cases hkey : L.checkKey st (tokenOf m.key.val) with
        | error e => rw [hkey] at hrun; cases hrun
        | ok u =>
            rw [hkey] at hrun
            have hrun : value st (tokenOf m.key.val) m.value
              (m.trail.val ++ (openMembers ms ++ tail)) >>=
                (fun st => L.fold value tail st ms) = .ok st' := hrun
            cases hread : value st (tokenOf m.key.val) m.value
                (m.trail.val ++ (openMembers ms ++ tail)) with
            | error e => rw [hread] at hrun; cases hrun
            | ok st₁ =>
                rw [hread] at hrun
                obtain ⟨hseen, hok, rfl⟩ := (h.member _ _ _ _ _).mp hread
                obtain ⟨hall, hfresh, rfl⟩ := (ih _).mp hrun
                exact ⟨⟨⟨(h.key st _).mp hkey, hok⟩, hall⟩, ⟨hseen, hfresh⟩, rfl⟩
      · rintro ⟨⟨⟨hkey, hok⟩, hall⟩, ⟨hseen, hfresh⟩, rfl⟩
        have hread := (h.member st m.key.val m.value
          (m.trail.val ++ (openMembers ms ++ tail)) _).mpr ⟨hseen, hok, rfl⟩
        rw [(h.key st _).mpr hkey]
        show value st (tokenOf m.key.val) m.value
          (m.trail.val ++ (openMembers ms ++ tail)) >>=
            (fun st => L.fold value tail st ms) = _
        rw [hread]
        exact (ih _).mpr ⟨hall, hfresh, rfl⟩

/-- `fold_ok` from a state that has seen nothing. -/
theorem fold_ok_init (h : L.OncePerKey value known seen ok update) {st₀ : σ}
    (h₀ : ∀ key, seen st₀ key = false) (tail : Bytes) (st : σ)
    (ms : List (Member Value)) :
    L.fold value tail st₀ ms = .ok st ↔
      (∀ m ∈ ms, 0x5C ∉ m.key.val ∧ ok m.key.val m.value) ∧
        (∀ key ∈ known, (valuesAt key ms).length ≤ 1) ∧
        st = updatesAt update tail st₀ ms := by
  have hfresh : Fresh known seen st₀ ms ↔
      ∀ key ∈ known, (valuesAt key ms).length ≤ 1 := by
    unfold Fresh
    simp only [h₀, Bool.toNat_false, Nat.add_zero]
  rw [h.fold_ok, hfresh]

end ObjectLoop.OncePerKey

theorem forall_mem_valuesAt {ok : Bytes → Value → Prop} {ms : List (Member Value)}
    (h : ∀ m ∈ ms, ok m.key.val m.value) (key : Bytes) :
    ∀ v ∈ valuesAt key ms, ok key v := by
  intro v hv
  obtain ⟨m, hm, rfl, rfl⟩ := mem_valuesAt.mp hv
  exact h m hm

/-- The flags after a run are those before it and the known keys met. -/
theorem updatesAt_seen {known : List Bytes} {seen : σ → Bytes → Bool}
    {update : σ → Bytes → Value → Bytes → σ} {key : Bytes} (hkey : key ∈ known)
    (h : ∀ st raw v rest key, seen (update st raw v rest) key =
      (seen st key || (decide (key = raw) && decide (raw ∈ known))))
    (tail : Bytes) (st : σ) (ms : List (Member Value)) :
    seen (updatesAt update tail st ms) key =
      (seen st key || decide (valuesAt key ms ≠ [])) := by
  induction ms generalizing st with
  | nil => simp [updatesAt, valuesAt]
  | cons m ms ih =>
      rw [updatesAt, ih, h]
      by_cases hm : m.key.val = key
      · rw [valuesAt_cons_of_eq hm]
        simp [hm, hkey]
      · rw [valuesAt_cons_of_ne hm]
        simp [Ne.symm hm]

/-- A field that only the key `key` sets keeps its value where no member is
spelled `key`. -/
theorem updatesAt_field_nil {γ : Type} {update : σ → Bytes → Value → Bytes → σ}
    (field : σ → γ) {key : Bytes}
    (h : ∀ st raw v rest, raw ≠ key → field (update st raw v rest) = field st)
    (tail : Bytes) {ms : List (Member Value)} (hnil : valuesAt key ms = [])
    (st : σ) : field (updatesAt update tail st ms) = field st := by
  induction ms generalizing st with
  | nil => rfl
  | cons m ms ih =>
      by_cases hm : m.key.val = key
      · rw [valuesAt_cons_of_eq hm] at hnil
        cases hnil
      · rw [valuesAt_cons_of_ne hm] at hnil
        rw [updatesAt, ih hnil, h _ _ _ _ hm]

/-- ... and takes the value that the one member spelled `key` gives it. -/
theorem updatesAt_field {γ : Type} {update : σ → Bytes → Value → Bytes → σ}
    (field : σ → γ) {key : Bytes} (set : Value → Bytes → γ)
    (h : ∀ st raw v rest, raw ≠ key → field (update st raw v rest) = field st)
    (hset : ∀ st v rest, field (update st key v rest) = set v rest)
    (tail : Bytes) {pre : List (Member Value)} {m : Member Value}
    {post : List (Member Value)} (hm : m.key.val = key)
    (hpost : valuesAt key post = []) (st : σ) :
    field (updatesAt update tail st (pre ++ m :: post)) =
      set m.value (m.trail.val ++ (openMembers post ++ tail)) := by
  induction pre generalizing st with
  | nil =>
      rw [List.nil_append, updatesAt, updatesAt_field_nil field h tail hpost, hm,
        hset]
  | cons m' pre ih => exact ih _

/-! ## §8  The array loop

Arrays are never left by the end of the input, so their texts are exactly those
of array trees. -/

namespace ArrayLoop

variable (L : ArrayLoop σ ε)

/-- `ObjectLoop.Reads` for the element handler. -/
structure Reads (value : σ → Value → Except ε σ) : Prop where
  agrees : ∀ st v rest, Follow rest →
    Agrees (L.element st) (v.render ++ rest) (value st v) rest
  takes : ∀ st s st' rest, L.element st s = (.ok st', rest) → rest ≠ [] →
    ∃ v : Value, s = v.render ++ rest

/-- The loop as a fold over elements. -/
def fold (value : σ → Value → Except ε σ) : σ → List (Element Value) → Except ε σ
  | st, [] => .ok st
  | st, e :: es => do
      let st ← value st e.value
      fold value st es

variable {L}
variable {value : σ → Value → Except ε σ}

theorem run_agrees (hL : L.Reads value) (rest : Bytes) :
    ∀ (es : List (Element Value)) (v : Value) (trail : Gap) (fuel : Nat) (st : σ),
      es.length < fuel →
      Agrees (L.run fuel st)
        (v.render ++ (trail.val ++ (openElements es ++ 0x5D :: rest)))
        (value st v >>= fun st => fold value st es) rest := by
  intro es
  induction es with
  | nil =>
      intro v trail fuel st hfuel
      obtain ⟨n, rfl⟩ : ∃ n, fuel = n + 1 := ⟨fuel - 1, by omega⟩
      obtain ⟨b, t, hhead, -⟩ := render_head v (trail.val ++ 0x5D :: rest)
      have hclose : Stops (0x5D :: rest) := stops_cons.mpr (by decide)
      simp only [openElements, List.nil_append]
      refine Agrees.bind_ok (peek_run _) ?_
      rw [hhead, if_neg (by simp), ← hhead]
      refine Agrees.bind (hL.agrees _ _ _
        (follow_gap_append (follow_cons.mpr (by decide)))) fun st' _ => ?_
      refine Agrees.bind_ok (skipWhitespace_gap trail hclose) ?_
      refine Agrees.bind_ok (next_run _) ?_
      exact agrees_pure _ _
  | cons e es ih =>
      intro v trail fuel st hfuel
      obtain ⟨n, rfl⟩ : ∃ n, fuel = n + 1 := ⟨fuel - 1, by omega⟩
      have hbody : openElements (e :: es) ++ 0x5D :: rest =
          0x2C :: (e.lead.val ++ (e.value.render ++ (e.trail.val ++
            (openElements es ++ 0x5D :: rest)))) := by
        simp [openElements, renderElement_eq]
      rw [hbody]
      obtain ⟨b, t, hhead, -⟩ := render_head v (trail.val ++ 0x2C ::
        (e.lead.val ++ (e.value.render ++ (e.trail.val ++
          (openElements es ++ 0x5D :: rest)))))
      refine Agrees.bind_ok (peek_run _) ?_
      rw [hhead, if_neg (by simp), ← hhead]
      refine Agrees.bind (hL.agrees _ _ _
        (follow_gap_append (follow_cons.mpr (by decide)))) fun st' _ => ?_
      refine Agrees.bind_ok
        (skipWhitespace_gap trail (stops_cons.mpr (by decide))) ?_
      refine Agrees.bind_ok (next_run _) ?_
      rw [if_neg (by simp), if_pos (by simp)]
      refine Agrees.bind_ok
        (skipWhitespace_gap e.lead (stops_render e.value _)) ?_
      refine Agrees.bind_ok (peek_run _) ?_
      -- no value starts with the bracket that some copies look for here
      obtain ⟨b', t', hnext, _, _, _, hb'⟩ := render_head e.value
        (e.trail.val ++ (openElements es ++ 0x5D :: rest))
      rw [hnext, if_neg (by simp [hb']), ← hnext]
      simp only [List.length_cons] at hfuel
      exact ih e.value e.trail n st' (by omega)

theorem parse_agrees (hL : L.Reads value) {gap : Gap} {es : List (Element Value)}
    {s rest : Bytes} (h : 0x5B :: s = (Value.arr gap es).render ++ rest)
    (st : σ) : Agrees (L.parse st) s (fold value st es) rest := by
  unfold parse
  cases es with
  | nil =>
      have hs : s = gap.val ++ 0x5D :: rest := by
        simpa [Value.render] using h
      subst hs
      refine Agrees.bind_ok
        (skipWhitespace_gap gap (stops_cons.mpr (by decide))) ?_
      exact Agrees.bind_ok (peek_run _)
        (Agrees.bind_ok (next_run _) (agrees_pure _ _))
  | cons e es =>
      have hs : s = e.lead.val ++ (e.value.render ++ (e.trail.val ++
          (openElements es ++ 0x5D :: rest))) := by
        simpa [Value.render, renderElement_eq, renderElements_open] using h
      subst hs
      refine Agrees.bind_ok
        (skipWhitespace_gap e.lead (stops_render e.value _)) ?_
      obtain ⟨b, t, hhead, _, _, _, hb⟩ := render_head e.value
        (e.trail.val ++ (openElements es ++ 0x5D :: rest))
      refine Agrees.bind_ok (peek_run _) ?_
      rw [hhead, if_neg (by simp [hb]), ← hhead]
      refine Agrees.bind_ok (remaining_run _) ?_
      have hlen := length_le_openElements es
      refine run_agrees hL rest es e.value e.trail _ st ?_
      simp only [List.length_append, List.length_cons]
      omega

theorem separator_sound {again : σ → Scan ε σ} {st st' : σ} {s rest : Bytes}
    (h : L.separator again st s = (.ok st', rest)) :
    ∃ (gap : Gap) (tail : Bytes), s = gap.val ++ tail ∧
      ((tail = 0x5D :: rest ∧ st' = st) ∨
        ∃ (lead : Gap) (s' : Bytes), tail = 0x2C :: (lead.val ++ s') ∧
          again st s' = (.ok st', rest)) := by
  unfold separator at h
  obtain ⟨gap, s₁, rfl, _, h⟩ := skipWhitespace_bind h
  refine ⟨gap, s₁, rfl, ?_⟩
  rw [next_bind] at h
  cases s₁ with
  | nil => simp at h
  | cons b s₁ =>
      by_cases hbracket : b = 0x5D
      · subst hbracket
        simp at h
        obtain ⟨rfl, rfl⟩ := h
        exact Or.inl ⟨rfl, rfl⟩
      by_cases hcomma : b = 0x2C
      · subst hcomma
        rw [if_neg (by simp), if_pos (by simp)] at h
        obtain ⟨lead, s₂, hlead, _, h⟩ := skipWhitespace_bind h
        have hs₁ : s₁ = lead.val ++ s₂ := hlead
        rw [peek_bind] at h
        split at h
        · simp at h
        · exact Or.inr ⟨lead, s₂, by rw [hs₁], h⟩
      · rw [if_neg (by simpa using hbracket), if_neg (by simpa using hcomma)] at h
        simp at h

theorem run_sound (hL : L.Reads value) :
    ∀ (fuel : Nat) (st st' : σ) (s rest : Bytes),
      L.run fuel st s = (.ok st', rest) →
      ∃ (v : Value) (trail : Gap) (es : List (Element Value)),
        s = v.render ++ (trail.val ++ (openElements es ++ 0x5D :: rest)) ∧
        (value st v >>= fun st => fold value st es) = .ok st' := by
  intro fuel
  induction fuel with
  | zero =>
      intro st st' s rest h
      simp [run] at h
  | succ fuel ih =>
      intro st st' s rest h
      unfold run turn at h
      rw [peek_bind] at h
      by_cases hnil : s.head? = none
      · rw [if_pos hnil] at h
        simp at h
      rw [if_neg hnil] at h
      obtain ⟨st₁, s₁, helement, h⟩ := bind_eq_ok.mp h
      obtain ⟨gap, tail, rfl, hsep⟩ := separator_sound h
      have htail : Follow tail ∧ tail ≠ [] := by
        rcases hsep with ⟨rfl, _⟩ | ⟨lead, s', rfl, _⟩
        · exact ⟨follow_cons.mpr (by decide), by simp⟩
        · exact ⟨follow_cons.mpr (by decide), by simp⟩
      have hne : gap.val ++ tail ≠ [] := by simp [htail.2]
      obtain ⟨v, rfl⟩ := hL.takes _ _ _ _ helement hne
      have hread := (hL.agrees st v _ (@follow_gap_append gap tail htail.1)).result
      rw [helement] at hread
      have hvalue : value st v = .ok st₁ := hread.symm
      clear hread
      rcases hsep with ⟨rfl, rfl⟩ | ⟨lead, s', rfl, hagain⟩
      · refine ⟨v, gap, [], by simp [openElements], ?_⟩
        rw [hvalue]
        rfl
      · obtain ⟨v', trail, es, rfl, hes⟩ := ih _ _ _ _ hagain
        refine ⟨v, gap, ⟨lead, v', trail⟩ :: es, ?_, ?_⟩
        · simp [openElements, renderElement_eq]
        · rw [hvalue]
          exact hes

theorem parse_sound (hL : L.Reads value) {st st' : σ} {s rest : Bytes}
    (h : L.parse st s = (.ok st', rest)) :
    ∃ gap es, 0x5B :: s = (Value.arr gap es).render ++ rest ∧
      fold value st es = .ok st' := by
  unfold parse at h
  obtain ⟨gap, s₁, rfl, _, h⟩ := skipWhitespace_bind h
  rw [peek_bind] at h
  by_cases hclose : s₁.head? = some 0x5D
  · rw [if_pos hclose, next_bind] at h
    obtain ⟨rfl, rfl⟩ := pure_eq_ok.mp h
    obtain ⟨x, s₁, rfl⟩ : ∃ x s, s₁ = x :: s := by
      cases s₁ with
      | nil => simp at hclose
      | cons x s => exact ⟨x, s, rfl⟩
    have hx : x = 0x5D := by simpa using hclose
    subst hx
    exact ⟨gap, [], by simp [Value.render], rfl⟩
  · rw [if_neg hclose, remaining_bind] at h
    obtain ⟨v, trail, es, rfl, hes⟩ := run_sound hL _ _ _ _ _ h
    refine ⟨⟨[], by simp⟩, ⟨gap, v, trail⟩ :: es, ?_, hes⟩
    simp [Value.render, renderElement_eq, renderElements_open]

end ArrayLoop

end NativeGuard.Protocol

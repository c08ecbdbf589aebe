import NativeGuard.Json.Decode
import NativeGuard.Json.Search
import NativeGuard.Protocol.Envelope

/-!
# The checks of `doctor` (`src/doctor.cpp`)

`run_doctor` looks for two spellings in the text of the `tools/list` response, and
takes them for a `tools` array and for a denied tool in it. It is right about exactly
the messages in which those spellings, at whatever place, say what the decoded
message says (`tools_list_check_iff`).
-/

namespace NativeGuard.Process.Doctor

open Json Protocol

/-! ## §1  The check -/

def listIdJson : Bytes := ascii "\"doctor-list\""

/-- A line that `receive_response` hands back; it passes over any other. -/
def isExpected (expectedId line : Bytes) : Prop :=
  (classify {} line).error = .none ∧ (classify {} line).kind = .response ∧
    (classify {} line).idJson = expectedId

def escapeName (denied : Bytes) : Bytes :=
  denied.flatMap fun b => if b = 0x22 ∨ b = 0x5C then [0x5C, b] else [b]

def nameText (denied : Bytes) : Bytes := ascii "\"name\":\"" ++ (escapeName denied ++ [0x22])

/-- What `run_doctor` makes of the response: the stage that fails, if one does. -/
def checkToolsList (response : Bytes) (denied : List Bytes) : Except String Unit :=
  if ¬ ascii "\"tools\":[" <:+: response then .error "tools/list"
  else if ∃ name ∈ denied, nameText name <:+: response then .error "denied tools hidden"
  else .ok ()

theorem checkToolsList_ok {response : Bytes} {denied : List Bytes} :
    checkToolsList response denied = .ok () ↔ ascii "\"tools\":[" <:+: response ∧
      ∀ name ∈ denied, ¬ nameText name <:+: response := by
  unfold checkToolsList
  by_cases htools : ascii "\"tools\":[" <:+: response
  · simp [htools]
  · simp [htools]

/-! ## §2  What the check means -/

/-- The result of the message has a `tools` array with these elements. -/
def ListsTools (v : Value) (es : List (Element Value)) : Prop :=
  ∃ gap ms gap' rs gap'', v = .obj gap ms ∧ Holds ms (ascii "result") (.obj gap' rs) ∧
    Holds rs (ascii "tools") (.arr gap'' es)

/-- An object whose name decodes to `name`. -/
def IsNamed (name : Bytes) (v : Value) : Prop :=
  ∃ gap ms t, v = .obj gap ms ∧ Holds ms (ascii "name") (.str t) ∧ decodeString t.val = name

/-- The result lists tools, none of them denied. -/
def HidesDenied (v : Value) (denied : List Bytes) : Prop :=
  (∃ es, ListsTools v es) ∧
    ∀ es, ListsTools v es → ∀ e ∈ es, ∀ name ∈ denied, ¬ IsNamed name e.value

/-- One of the listed tools has this name. -/
def ListsName (v : Value) (name : Bytes) : Prop :=
  ∃ es, ListsTools v es ∧ ∃ e ∈ es, IsNamed name e.value

theorem hidesDenied_iff {v : Value} {denied : List Bytes} :
    HidesDenied v denied ↔ (∃ es, ListsTools v es) ∧ ∀ name ∈ denied, ¬ ListsName v name := by
  refine and_congr_right fun _ => ⟨?_, ?_⟩
  · rintro h name hname ⟨es, hes, e, he, hnamed⟩
    exact h es hes e he name hname hnamed
  · intro h es hes e he name hname hnamed
    exact h name hname ⟨es, hes, e, he, hnamed⟩

/-! ## §3  What the search finds -/

theorem start_bracket (v : Value) (rest : Bytes) :
    [0x5B] <+: v.render ++ rest ↔ ∃ gap es, v = .arr gap es := by
  rw [← head_bracket_iff, ← render_head_append v rest]
  cases v.render ++ rest with
  | nil => simp
  | cons b s => simp [eq_comm]

theorem escapeName_cons (b : UInt8) (name : Bytes) : escapeName (b :: name) =
    (if b = 0x22 ∨ b = 0x5C then [0x5C, b] else [b]) ++ escapeName name := List.flatMap_cons

/-- An escaped name ends at the first quote that ends a string. -/
theorem prefix_escaped {name t s : Bytes} (ht : StringBody t) :
    escapeName name ++ [0x22] <+: t ++ 0x22 :: s ↔ t = escapeName name := by
  induction name generalizing t with
  | nil =>
      cases ht with
      | nil => simp [escapeName]
      | plain _ hquote _ _ => simp [escapeName, Ne.symm hquote]
      | escape _ _ => simp [escapeName]
      | unicode _ _ _ _ _ => simp [escapeName]
  | cons b name ih =>
      rw [escapeName_cons]
      by_cases hb : b = 0x22 ∨ b = 0x5C
      · rw [if_pos hb]
        have hne : b ≠ 0x75 := by
          rintro rfl
          exact absurd hb (by decide)
        cases ht with
        | nil => simp
        | plain _ _ hslash _ => simp [hslash, Ne.symm hslash]
        | escape _ hrest => simpa [eq_comm] using fun _ => ih hrest
        | unicode _ _ _ _ _ => simp [hne, Ne.symm hne]
      · rw [if_neg hb]
        obtain ⟨hquote, hslash⟩ := not_or.mp hb
        cases ht with
        | nil => simp [hquote]
        | plain _ _ _ hrest => simpa [eq_comm] using fun _ => ih hrest
        | escape _ _ => simp [hslash, Ne.symm hslash]
        | unicode _ _ _ _ _ => simp [hslash, Ne.symm hslash]

theorem start_name (name : Bytes) (v : Value) (rest : Bytes) :
    0x22 :: (escapeName name ++ [0x22]) <+: v.render ++ rest ↔
      ∃ t, v = .str t ∧ t.val = escapeName name := by
  constructor
  · intro h
    have hhead : v.render.head? = some 0x22 := by
      rw [← render_head_append v rest]
      obtain ⟨tail, htail⟩ := h
      rw [← htail]
      rfl
    obtain ⟨t, rfl⟩ := head_quote_iff.mp hhead
    have htext : (Value.str t).render ++ rest = 0x22 :: (t.val ++ 0x22 :: rest) := by
      simp [Value.render]
    rw [htext, List.cons_prefix_cons, prefix_escaped t.property] at h
    exact ⟨t, rfl, h.2⟩
  · rintro ⟨t, rfl, ht⟩
    have htext : (Value.str t).render ++ rest = 0x22 :: (t.val ++ 0x22 :: rest) := by
      simp [Value.render]
    rw [htext, List.cons_prefix_cons, prefix_escaped t.property]
    exact ⟨rfl, ht⟩

/-- An array behind `"tools":`. -/
def toolsNeedle : Needle where
  key := ascii "tools"
  start := [0x5B]
  begins v := ∃ gap es, v = .arr gap es
  plain := forall_mem_of_all (by decide)
  inner := ⟨0x74, ascii "ools", by decide, by decide⟩
  starts := ⟨0x5B, [], rfl, by decide⟩
  begins_iff := start_bracket

/-- A string behind `"name":` that is spelled as the denied name is escaped. -/
def nameNeedle (name : Bytes) : Needle where
  key := ascii "name"
  start := 0x22 :: (escapeName name ++ [0x22])
  begins v := ∃ t, v = .str t ∧ t.val = escapeName name
  plain := forall_mem_of_all (by decide)
  inner := ⟨0x6E, ascii "ame", by decide, by decide⟩
  starts := ⟨0x22, _, rfl, by decide⟩
  begins_iff := start_name name

/-- The check passes if members at any depth are spelled so. -/
theorem checkToolsList_found {line : Bytes} {v : Value} (h : IsText line v)
    (denied : List Bytes) :
    checkToolsList line denied = .ok () ↔
      toolsNeedle.FoundIn v ∧ ∀ name ∈ denied, ¬ (nameNeedle name).FoundIn v := by
  have htools := @Needle.infix_text toolsNeedle _ _ h
  have hname := fun name => @Needle.infix_text (nameNeedle name) _ _ h
  have htext : ascii "\"tools\":[" = toolsNeedle.text := by decide
  have hnameText : ∀ name, nameText name = (nameNeedle name).text := by
    intro name
    have hliteral : ascii "\"name\":\"" = 0x22 :: (ascii "name" ++ [0x22, 0x3A, 0x22]) := by
      decide
    rw [nameText, hliteral]
    simp [Needle.text, nameNeedle]
  rw [checkToolsList_ok, htext, htools]
  simp only [hnameText, hname]

/-! ## §4  When the check is right -/

/-- `m` is read as the `tools` of the result. -/
def ToolsMember (v : Value) (m : Member Value) : Prop :=
  ∃ gap ms gap' rs, v = .obj gap ms ∧ Holds ms (ascii "result") (.obj gap' rs) ∧ m ∈ rs ∧
    decodeString m.key.val = ascii "tools"

/-- `m` is read as the name of a listed tool. -/
def NameMember (v : Value) (m : Member Value) : Prop :=
  ∃ es, ListsTools v es ∧ ∃ e ∈ es, ∃ gap ms, e.value = .obj gap ms ∧ m ∈ ms ∧
    decodeString m.key.val = ascii "name"

/-- `"tools":[` and, for each of these names, `"name":"` and the escaped name stand in the
text only where the message says so somewhere, and somewhere where it says so. -/
structure SpelledAsSearched (v : Value) (names : List Bytes) : Prop where
  /-- A list of tools is spelled so, be it at another place. -/
  toolsStand : ∀ m gap es, ToolsMember v m → m.value = .arr gap es → toolsNeedle.FoundIn v
  /-- Nothing is spelled as a list of tools in a message without one. -/
  toolsOnly : ∀ m, Inside m v → toolsNeedle.Spells m →
    ∃ m' gap es, ToolsMember v m' ∧ m'.value = .arr gap es
  /-- The name of a listed tool is spelled so, be it at another place. -/
  namesStand : ∀ m t, NameMember v m → m.value = .str t → decodeString t.val ∈ names →
    (nameNeedle (decodeString t.val)).FoundIn v
  /-- Beside a list of tools nothing is spelled as a name that no listed tool has. -/
  namesOnly : (∃ m gap es, ToolsMember v m ∧ m.value = .arr gap es) → ∀ name ∈ names, ∀ m,
    Inside m v → (nameNeedle name).Spells m →
      ∃ m' t, NameMember v m' ∧ m'.value = .str t ∧ decodeString t.val = name

theorem listsTools_iff {v : Value} {es : List (Element Value)} :
    ListsTools v es ↔ ∃ m gap, ToolsMember v m ∧ m.value = .arr gap es := by
  constructor
  · rintro ⟨gap, ms, gap', rs, gap'', hv, hresult, m, hm, hkey, hvalue⟩
    exact ⟨m, gap'', ⟨gap, ms, gap', rs, hv, hresult, hm, hkey⟩, hvalue⟩
  · rintro ⟨m, gap'', ⟨gap, ms, gap', rs, hv, hresult, hm, hkey⟩, hvalue⟩
    exact ⟨gap, ms, gap', rs, gap'', hv, hresult, m, hm, hkey, hvalue⟩

theorem listsName_iff {v : Value} {name : Bytes} :
    ListsName v name ↔ ∃ m t, NameMember v m ∧ m.value = .str t ∧ decodeString t.val = name := by
  constructor
  · rintro ⟨es, hes, e, he, gap, ms, t, hvalue, ⟨m, hm, hkey, ht⟩, hname⟩
    exact ⟨m, t, ⟨es, hes, e, he, gap, ms, hvalue, hm, hkey⟩, ht, hname⟩
  · rintro ⟨m, t, ⟨es, hes, e, he, gap, ms, hvalue, hm, hkey⟩, ht, hname⟩
    exact ⟨es, hes, e, he, gap, ms, t, hvalue, ⟨m, hm, hkey, ht⟩, hname⟩

/-- The two parts of the check, each for itself. -/
theorem spelledAsSearched_iff {v : Value} {names : List Bytes} :
    SpelledAsSearched v names ↔ (toolsNeedle.FoundIn v ↔ ∃ es, ListsTools v es) ∧
      ((∃ es, ListsTools v es) →
        ∀ name ∈ names, (nameNeedle name).FoundIn v ↔ ListsName v name) := by
  have hlists : (∃ es, ListsTools v es) ↔ ∃ m gap es, ToolsMember v m ∧ m.value = .arr gap es := by
    simp only [listsTools_iff]
    exact ⟨fun ⟨es, m, gap, h⟩ => ⟨m, gap, es, h⟩, fun ⟨m, gap, es, h⟩ => ⟨es, m, gap, h⟩⟩
  rw [hlists]
  simp only [listsName_iff]
  constructor
  · intro h
    refine ⟨⟨fun ⟨m, hm, hspells⟩ => h.toolsOnly m hm hspells,
      fun ⟨m, gap, es, hm, hvalue⟩ => h.toolsStand m gap es hm hvalue⟩,
      fun hlisted name hname => ⟨fun ⟨m, hm, hspells⟩ =>
        h.namesOnly hlisted name hname m hm hspells, ?_⟩⟩
    rintro ⟨m, t, hm, hvalue, rfl⟩
    exact h.namesStand m t hm hvalue hname
  · rintro ⟨htools, hnames⟩
    exact
      { toolsStand := fun m gap es hm hvalue => htools.mpr ⟨m, gap, es, hm, hvalue⟩
        toolsOnly := fun m hm hspells => htools.mp ⟨m, hm, hspells⟩
        namesStand := fun m t hm hvalue hname =>
          (hnames (hlists.mp (hm.imp fun _ h => h.1)) _ hname).mpr ⟨m, t, hm, hvalue, rfl⟩
        namesOnly := fun hlisted name hname m hm hspells =>
          (hnames hlisted name hname).mp ⟨m, hm, hspells⟩ }

/-- The check is right about every selection of `names` exactly if the text spells them as
searched. The selections that tell are the empty one and those of one name. -/
theorem right_iff_spelled {line : Bytes} {v : Value} (h : IsText line v) (names : List Bytes) :
    (∀ denied ⊆ names, checkToolsList line denied = .ok () ↔ HidesDenied v denied) ↔
      SpelledAsSearched v names := by
  rw [spelledAsSearched_iff]
  simp only [checkToolsList_found h, hidesDenied_iff]
  constructor
  · intro hright
    have htools : toolsNeedle.FoundIn v ↔ ∃ es, ListsTools v es := by
      have hnone := hright [] (List.nil_subset names)
      simpa only [List.not_mem_nil, false_imp_iff, implies_true, and_true] using hnone
    refine ⟨htools, fun hlists name hname => ?_⟩
    have hone := hright [name] (List.cons_subset.mpr ⟨hname, List.nil_subset names⟩)
    rw [and_iff_right (htools.mpr hlists), and_iff_right hlists] at hone
    simp only [List.mem_singleton, forall_eq] at hone
    exact not_iff_not.mp hone
  · rintro ⟨htools, hnamed⟩ denied hdenied
    rw [htools]
    refine and_congr_right fun hlists => ?_
    exact forall₂_congr fun name hname => not_congr (hnamed hlists name (hdenied hname))

/-! ## §5  Texts that spell as searched -/

/-- A member whose key ends the search key's way. -/
def EndsWith (key : Bytes) (m : Member Value) : Prop := 0x22 :: key <:+ 0x22 :: m.key.val

instance (key : Bytes) (m : Member Value) : Decidable (EndsWith key m) := by
  unfold EndsWith; infer_instance

/-- The key stands as it is, without whitespace around the colon. -/
structure Plain (key : Bytes) (m : Member Value) : Prop where
  key : m.key.val = key
  preColon : m.preColon.val = []
  postColon : m.postColon.val = []

/-- Keys that end in `tools` or `name` stand nowhere but at the result's tools and at their
names; there they are plain, and the names are escaped as `doctor` escapes them. -/
structure InPlace (v : Value) : Prop where
  tools : ∀ m, Inside m v → EndsWith (ascii "tools") m → ToolsMember v m
  toolsPlain : ∀ m, ToolsMember v m → Plain (ascii "tools") m
  names : ∀ m, Inside m v → EndsWith (ascii "name") m → NameMember v m
  namesPlain : ∀ m, NameMember v m → Plain (ascii "name") m
  escaped : ∀ m, NameMember v m → ∀ t, m.value = .str t → t.val = escapeName (decodeString t.val)

theorem ToolsMember.inside {v : Value} {m : Member Value} (h : ToolsMember v m) :
    Inside m v := by
  obtain ⟨gap, ms, gap', rs, rfl, ⟨x, hx, -, hvalue⟩, hm, -⟩ := h
  refine .member hx ?_
  rw [hvalue]
  exact .here hm

theorem NameMember.inside {v : Value} {m : Member Value} (h : NameMember v m) :
    Inside m v := by
  obtain ⟨es, hes, e, he, gap, ms, hvalue, hm, -⟩ := h
  obtain ⟨gap', ms', gap'', rs, gap₃, rfl, ⟨x, hx, -, hresult⟩, y, hy, -, hlist⟩ := hes
  refine .member hx ?_
  rw [hresult]
  refine .member hy ?_
  rw [hlist]
  refine .element he ?_
  rw [hvalue]
  exact .here hm

theorem Plain.endsWith {key : Bytes} {m : Member Value} (h : Plain key m) : EndsWith key m := by
  unfold EndsWith
  rw [h.key]

/-- An escaped name is read as the name. -/
theorem decodeString_escapeName (name : Bytes) : decodeString (escapeName name) = name := by
  have hpieces : pieces (escapeName name) = name.map Piece.byte := by
    induction name with
    | nil => rfl
    | cons b name ih =>
        rw [escapeName_cons, List.map_cons]
        by_cases hquote : b = 0x22
        · rw [hquote, ← ih]
          rfl
        by_cases hslash : b = 0x5C
        · rw [hslash, ← ih]
          rfl
        rw [if_neg (not_or.mpr ⟨hquote, hslash⟩), List.singleton_append, ← ih]
        exact pieces.eq_4 b _ (fun _ _ _ _ _ hb => absurd hb hslash)
          fun _ _ hb => absurd hb hslash
  rw [decodeString, hpieces, assemble_bytes]

/-- Such a text is spelled as searched, whatever the names. -/
theorem InPlace.spelled {v : Value} (h : InPlace v) (names : List Bytes) :
    SpelledAsSearched v names := by
  rw [spelledAsSearched_iff]
  constructor
  · constructor
    · rintro ⟨m, hm, hends, -, -, gap, es, hvalue⟩
      exact ⟨es, listsTools_iff.mpr ⟨m, gap, h.tools m hm hends, hvalue⟩⟩
    · rintro ⟨es, hes⟩
      obtain ⟨m, gap, hm, hvalue⟩ := listsTools_iff.mp hes
      have hplain := h.toolsPlain m hm
      exact ⟨m, hm.inside, hplain.endsWith, hplain.preColon, hplain.postColon, gap, es, hvalue⟩
  · intro _ name _
    rw [listsName_iff]
    constructor
    · rintro ⟨m, hm, hends, -, -, t, hvalue, ht⟩
      refine ⟨m, t, h.names m hm hends, hvalue, ?_⟩
      rw [ht, decodeString_escapeName]
    · rintro ⟨m, t, hm, hvalue, rfl⟩
      have hplain := h.namesPlain m hm
      exact ⟨m, hm.inside, hplain.endsWith, hplain.preColon, hplain.postColon, t, hvalue,
        h.escaped m hm t hvalue⟩

theorem InPlace.right {line : Bytes} {v : Value} (h : IsText line v) (hplace : InPlace v)
    (denied : List Bytes) : checkToolsList line denied = .ok () ↔ HidesDenied v denied :=
  (right_iff_spelled h denied).mpr (hplace.spelled denied) denied (List.Subset.refl denied)

/-- On a message the check tells, for every selection of the names, whether the result
lists tools and none of the selected, exactly if the text spells them as searched. So it
does where the keys stand in place. -/
theorem tools_list_check_iff {line : Bytes} {v : Value} (h : IsText line v)
    (names : List Bytes) :
    ((∀ denied ⊆ names, checkToolsList line denied = .ok () ↔ HidesDenied v denied) ↔
        SpelledAsSearched v names) ∧
      (InPlace v → ∀ denied, checkToolsList line denied = .ok () ↔ HidesDenied v denied) :=
  ⟨right_iff_spelled h names, fun hplace => hplace.right h⟩

/-- A response with an empty list of tools, and a space in front of it. -/
def spacedLine : Bytes :=
  ascii "\x7b\"jsonrpc\":\"2.0\",\"id\":\"doctor-list\",\"result\":\x7b\"tools\": []\x7d\x7d"

def spacedResult : List (Member Value) :=
  [⟨noGap, plainString (ascii "tools") (.refl true), noGap, ⟨[0x20], List.forall_mem_singleton.mpr (by decide)⟩,
    .arr noGap [], noGap⟩]

def spacedMembers : List (Member Value) :=
  [.compact (plainString (ascii "jsonrpc") (.refl true))
      (.str (plainString (ascii "2.0") (.refl true))),
    .compact (plainString (ascii "id") (.refl true))
      (.str (plainString (ascii "doctor-list") (.refl true))),
    .compact (plainString (ascii "result") (.refl true)) (.obj noGap spacedResult)]

/-- `doctor` takes the list for none. -/
theorem spaced_list_fails :
    IsText spacedLine (.obj noGap spacedMembers) ∧ isExpected listIdJson spacedLine ∧
      ¬ (checkToolsList spacedLine [] = .ok () ↔ HidesDenied (.obj noGap spacedMembers) []) := by
  obtain ⟨hrender, hexpected, hcheck⟩ :
      spacedLine = (Value.obj noGap spacedMembers).render ∧
        ((classify {} spacedLine).error = .none ∧ (classify {} spacedLine).kind = .response ∧
          (classify {} spacedLine).idJson = listIdJson) ∧
        checkToolsList spacedLine [] ≠ .ok () := by
    decide +kernel
  have hresult : Holds spacedMembers (ascii "result") (.obj noGap spacedResult) :=
    ⟨_, List.mem_cons_of_mem _ (List.mem_cons_of_mem _ List.mem_cons_self), by decide, rfl⟩
  have htools : Holds spacedResult (ascii "tools") (.arr noGap []) :=
    ⟨_, List.mem_cons_self, by decide, rfl⟩
  refine ⟨⟨noGap, noGap, hrender.trans (List.append_nil _).symm⟩, hexpected, fun hiff => ?_⟩
  exact hcheck (hiff.mpr ⟨⟨[], noGap, spacedMembers, noGap, spacedResult, noGap, rfl,
    hresult, htools⟩, fun _ _ _ _ _ hname => absurd hname List.not_mem_nil⟩)

/-- A response with one tool, as a compact text. -/
def plainLine : Bytes :=
  ascii "\x7b\"jsonrpc\":\"2.0\",\"id\":\"doctor-list\",\"result\":\x7b\"tools\":[\x7b\"name\":\"x\"\x7d]\x7d\x7d"

def plainName : Member Value :=
  .compact (plainString (ascii "name") (.refl true)) (.str (plainString (ascii "x") (.refl true)))

def plainTools : Member Value :=
  .compact (plainString (ascii "tools") (.refl true))
    (.arr noGap [.compact (.obj noGap [plainName])])

def plainMembers : List (Member Value) :=
  [.compact (plainString (ascii "jsonrpc") (.refl true))
      (.str (plainString (ascii "2.0") (.refl true))),
    .compact (plainString (ascii "id") (.refl true))
      (.str (plainString (ascii "doctor-list") (.refl true))),
    .compact (plainString (ascii "result") (.refl true)) (.obj noGap [plainTools])]

theorem plain_inside {m : Member Value} (h : Inside m (.obj noGap plainMembers)) :
    m ∈ plainMembers ∨ m = plainTools ∨ m = plainName := by
  obtain ⟨x, hx, rfl | hm⟩ := inside_obj_iff.mp h
  · exact Or.inl hx
  simp only [plainMembers, List.mem_cons, List.not_mem_nil, or_false] at hx
  rcases hx with rfl | rfl | rfl
  · cases hm
  · cases hm
  obtain ⟨x, hx, rfl | hm⟩ := inside_obj_iff.mp hm
  · exact Or.inr (Or.inl (List.mem_singleton.mp hx))
  rw [List.mem_singleton.mp hx] at hm
  obtain ⟨e, he, hm⟩ := inside_arr_iff.mp hm
  rw [List.mem_singleton.mp he] at hm
  obtain ⟨x, hx, rfl | hm⟩ := inside_obj_iff.mp hm
  · exact Or.inr (Or.inr (List.mem_singleton.mp hx))
  · rw [List.mem_singleton.mp hx] at hm
    cases hm

theorem plain_toolsMember {m : Member Value} :
    ToolsMember (.obj noGap plainMembers) m ↔ m = plainTools := by
  constructor
  · rintro ⟨gap, ms, gap', rs, hv, ⟨x, hx, hkey, hresult⟩, hm, -⟩
    cases hv
    simp only [plainMembers, List.mem_cons, List.not_mem_nil, or_false] at hx
    rcases hx with rfl | rfl | rfl
    · cases hresult
    · cases hresult
    · cases hresult
      exact List.mem_singleton.mp hm
  · rintro rfl
    exact ⟨_, _, _, [plainTools], rfl, ⟨_, List.mem_cons_of_mem _ (List.mem_cons_of_mem _
      List.mem_cons_self), by decide, rfl⟩, List.mem_singleton.mpr rfl, by decide⟩

theorem plain_nameMember {m : Member Value} :
    NameMember (.obj noGap plainMembers) m ↔ m = plainName := by
  have hlists : ∀ es, ListsTools (.obj noGap plainMembers) es ↔
      es = [.compact (.obj noGap [plainName])] := by
    intro es
    rw [listsTools_iff]
    constructor
    · rintro ⟨x, gap, hx, hvalue⟩
      rw [plain_toolsMember.mp hx] at hvalue
      cases hvalue
      rfl
    · rintro rfl
      exact ⟨plainTools, noGap, plain_toolsMember.mpr rfl, rfl⟩
  constructor
  · rintro ⟨es, hes, e, he, gap, ms, hvalue, hm, -⟩
    rw [(hlists es).mp hes, List.mem_singleton] at he
    subst he
    cases hvalue
    exact List.mem_singleton.mp hm
  · rintro rfl
    exact ⟨_, (hlists _).mpr rfl, _, List.mem_singleton.mpr rfl, noGap, [plainName], rfl,
      List.mem_singleton.mpr rfl, by decide⟩

theorem inPlace_plain : InPlace (.obj noGap plainMembers) where
  tools m hm hends := by
    rcases plain_inside hm with hmem | rfl | rfl
    · simp only [plainMembers, List.mem_cons, List.not_mem_nil, or_false] at hmem
      rcases hmem with rfl | rfl | rfl <;> exact absurd hends (by decide)
    · exact plain_toolsMember.mpr rfl
    · exact absurd hends (by decide)
  toolsPlain m hm := by
    rw [plain_toolsMember.mp hm]
    exact ⟨by decide, rfl, rfl⟩
  names m hm hends := by
    rcases plain_inside hm with hmem | rfl | rfl
    · simp only [plainMembers, List.mem_cons, List.not_mem_nil, or_false] at hmem
      rcases hmem with rfl | rfl | rfl <;> exact absurd hends (by decide)
    · exact absurd hends (by decide)
    · exact plain_nameMember.mpr rfl
  namesPlain m hm := by
    rw [plain_nameMember.mp hm]
    exact ⟨by decide, rfl, rfl⟩
  escaped m hm t hvalue := by
    rw [plain_nameMember.mp hm] at hvalue
    cases hvalue
    decide

/-- The check is right about the plain line, and not about the spaced one. -/
theorem tools_list_check_iff_example :
    (∀ denied, checkToolsList plainLine denied = .ok () ↔
        HidesDenied (.obj noGap plainMembers) denied) ∧
      ¬ SpelledAsSearched (.obj noGap spacedMembers) [ascii "x"] := by
  refine ⟨(tools_list_check_iff ⟨noGap, noGap, by decide +kernel⟩ []).2 inPlace_plain, ?_⟩
  obtain ⟨htext, -, hwrong⟩ := spaced_list_fails
  exact fun hspelled => hwrong ((tools_list_check_iff htext [ascii "x"]).1.mpr hspelled []
    (List.nil_subset _))

end NativeGuard.Process.Doctor

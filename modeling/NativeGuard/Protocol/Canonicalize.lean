import NativeGuard.Json.Canonical
import NativeGuard.Protocol.Collect

/-!
# Canonical schemas (`src/tool_inventory.cpp`)

`canonicalize_value` and its two loops. They read a value and write it again
without whitespace and with the members of every object sorted; nesting, repeated
keys and the size are checked on the way. `canonicalizeAt_ok` says that what is
written is the text of the canonical tree.
-/

namespace NativeGuard.Protocol

open Json Json.Scan Data

inductive InventoryError where
  | messageTooLarge
  | malformedJson
  | invalidEnvelope
  | unsupportedJsonrpcVersion
  | duplicateMember
  | wrongResponseId
  | missingResult
  | errorResult
  | missingTools
  | toolsNotArray
  | missingToolName
  | nonStringToolName
  | escapedToolName
  | emptyToolName
  | oversizedToolName
  | oversizedDescription
  | oversizedSchema
  | duplicateToolName
  | excessiveToolCount
  | excessiveNesting
deriving DecidableEq, Repr

namespace Inventory

/-! ## §1  The loops -/

def orOversized : Option Bytes → Except InventoryError Bytes
  | some output => .ok output
  | none => .error .oversizedSchema

/-- Report the end of the input as `e`. -/
def orAtEnd {ε α : Type} (e : ε) (r : Reader ε α) : Reader ε α where
  scan := do
    let c ← peek
    if c = none then Scan.fail e else r.scan
  read := r.read
  agrees v rest h := by
    obtain ⟨b, t, hhead, -⟩ := render_head v rest
    refine Agrees.bind_ok (peek_run _) ?_
    rw [if_neg (by rw [hhead]; exact Option.some_ne_none b)]
    exact r.agrees v rest h
  takes s a rest h hne := by
    rw [peek_bind] at h
    split at h
    · simp at h
    · exact r.takes s a rest h hne

/-- The local `Member` of `canonicalize_object`. -/
structure ObjectMember where
  keyContents : Bytes
  keyJson : Bytes
  valueJson : Bytes

def objectReader (value : Reader InventoryError Bytes) :
    ObjectReader (List ObjectMember) InventoryError where
  malformed _ := .malformedJson
  checkKey members key :=
    if key.contents ∈ members.map ObjectMember.keyContents then .error .duplicateMember
    else .ok ()
  member members key := value.map fun valueJson =>
    members ++ [⟨key.contents, 0x22 :: (key.contents ++ [0x22]), valueJson⟩]

def appendMember (maxBytes : Nat) (m : ObjectMember) (output : Bytes) : Option Bytes :=
  append maxBytes m.keyJson output >>= fun output =>
    append maxBytes [0x3A] output >>= append maxBytes m.valueJson

def appendObject (maxBytes : Nat) (members : List ObjectMember) (output : Bytes) :
    Option Bytes :=
  append maxBytes [0x7B] output >>= fun output =>
    appendList maxBytes (appendMember maxBytes) (sortOn ObjectMember.keyContents members)
      output >>= append maxBytes [0x7D]

/-- The loop is left at the end of the input as it is at the closing brace. Every
value has an output of its own. -/
def canonicalizeObject (maxBytes : Nat) (value : Reader InventoryError Bytes)
    (output : Bytes) : Reader InventoryError Bytes :=
  (objectReader value).object .malformedJson [] fun members exit =>
    if exit = .empty then orOversized (append maxBytes [0x7B, 0x7D] output)
    else orOversized (appendObject maxBytes members output)

structure ArrayState where
  first : Bool
  output : Bytes

/-- The elements go to the one output, each but the first behind a comma. -/
def arrayReader (maxBytes : Nat) (value : Bytes → Reader InventoryError Bytes) :
    ArrayReader ArrayState InventoryError where
  malformed := .malformedJson
  element st :=
    match (if st.first then some st.output else append maxBytes [0x2C] st.output) with
    | none => .fail .oversizedSchema
    | some output => (value output).map fun output => ⟨false, output⟩

def canonicalizeArray (maxBytes : Nat) (value : Bytes → Reader InventoryError Bytes)
    (output : Bytes) : Reader InventoryError Bytes :=
  match append maxBytes [0x5B] output with
  | none => .fail .oversizedSchema
  | some output => ((arrayReader maxBytes value).array .malformedJson ⟨true, output⟩).check
      fun st => orOversized (append maxBytes [0x5D] st.output)

/-- `canonicalize_value` with the levels left, `max_depth + 1 - depth`, as its
recursion, and only the output of a success. -/
def canonicalizeAt (maxBytes : Nat) : Nat → Bytes → Reader InventoryError Bytes
  | 0, _ => .fail .excessiveNesting
  | levels + 1, output => orAtEnd .excessiveNesting <|
      .onByte 0x22 ((Reader.string .malformedJson).captured.check fun (_, text) =>
        orOversized (append maxBytes text output)) <|
      .onByte 0x7B (canonicalizeObject maxBytes (canonicalizeAt maxBytes levels []) output) <|
      .onByte 0x5B (canonicalizeArray maxBytes (canonicalizeAt maxBytes levels) output) <|
      .onByte 0x74 ((Reader.literal .true .malformedJson).check fun _ =>
        orOversized (append maxBytes Literal.true.bytes output)) <|
      .onByte 0x66 ((Reader.literal .false .malformedJson).check fun _ =>
        orOversized (append maxBytes Literal.false.bytes output)) <|
      .onByte 0x6E ((Reader.literal .null .malformedJson).check fun _ =>
        orOversized (append maxBytes Literal.null.bytes output)) <|
      (Reader.number .malformedJson).captured.check fun (_, text) =>
        orOversized (append maxBytes text output)

/-- The whitespace in front of the value is skipped before the member is read. -/
def captureCanonicalValue (depth maxDepth maxBytes : Nat) : Reader InventoryError Bytes :=
  (canonicalizeAt maxBytes (maxDepth + 1 - depth) []).check fun stored =>
    if stored.length > maxBytes then .error .oversizedSchema else .ok stored

/-! ## §2  Appending -/

variable {maxBytes : Nat}

theorem orOversized_ok {f : Bytes → Option Bytes} {text output out : Bytes}
    (h : Appends maxBytes f text) (houtput : output.length ≤ maxBytes) :
    orOversized (f output) = .ok out ↔
      output.length + text.length ≤ maxBytes ∧ out = output ++ text := by
  rw [h output houtput]
  by_cases hfits : output.length + text.length ≤ maxBytes
  · rw [if_pos hfits]
    constructor
    · intro hok
      cases hok
      exact ⟨hfits, rfl⟩
    · rintro ⟨-, rfl⟩
      rfl
  · rw [if_neg hfits]
    constructor
    · intro hok
      cases hok
    · rintro ⟨hle, -⟩
      exact absurd hle hfits

/-- `r` writes the canonical texts of the values in `ok`, within the bound. -/
def Writes (maxBytes : Nat) (ok : Value → Prop) (r : Bytes → Reader InventoryError Bytes) :
    Prop :=
  ∀ output v out, output.length ≤ maxBytes → ((r output).read v = .ok out ↔
    ok v ∧ output.length + v.canonical.render.length ≤ maxBytes ∧
      out = output ++ v.canonical.render)

/-! ## §3  `canonicalize_object` -/

def memberText (m : ObjectMember) : Bytes := m.keyJson ++ ([0x3A] ++ m.valueJson)

theorem appends_appendMember (m : ObjectMember) :
    Appends maxBytes (appendMember maxBytes m) (memberText m) :=
  (appends_append m.keyJson).bind ((appends_append [0x3A]).bind (appends_append m.valueJson))

theorem appends_appendObject (members : List ObjectMember) :
    Appends maxBytes (appendObject maxBytes members) ([0x7B] ++
      (List.intercalate [0x2C] ((sortOn ObjectMember.keyContents members).map memberText) ++
        [0x7D])) :=
  (appends_append [0x7B]).bind
    ((appends_list _ fun m _ => appends_appendMember m).bind (appends_append [0x7D]))

/-- What the loop keeps of a member. -/
def objectMember (m : Member Value) : ObjectMember :=
  ⟨m.key.val, 0x22 :: (m.key.val ++ [0x22]), m.value.canonical.render⟩

/-- The text that is put together is that of the canonical object. -/
theorem objectText_canonical (gap : Gap) (ms : List (Member Value)) :
    (Value.obj gap ms).canonical.render = [0x7B] ++ (List.intercalate [0x2C]
      ((sortOn ObjectMember.keyContents (ms.map objectMember)).map memberText) ++ [0x7D]) := by
  have hmember : ∀ m, renderMember (canonicalMember m) = memberText (objectMember m) := by
    intro m
    rw [canonicalMember_eq, renderMember_compact]
    simp [memberText, objectMember]
  rw [Value.canonical, canonicalMembers_eq, render_obj_joined, sortOn_map, sortOn_map,
    List.map_map, List.map_map]
  simp only [Function.comp_def, keyOf_canonicalMember, hmember]
  rfl

theorem length_le_intercalate {x : Bytes} {xs : List Bytes} (h : x ∈ xs) :
    x.length ≤ (List.intercalate [0x2C] xs).length := by
  rcases xs with _ | ⟨y, xs⟩
  · cases h
  · rw [intercalate_cons, List.length_append]
    rcases List.mem_cons.mp h with rfl | h
    · exact Nat.le_add_right _ _
    · obtain ⟨pre, post, rfl⟩ := List.append_of_mem h
      simp only [List.flatMap_append, List.flatMap_cons, List.length_append]
      omega

theorem member_length_le {gap : Gap} {ms : List (Member Value)} {m : Member Value}
    (hm : m ∈ ms) :
    m.value.canonical.render.length ≤ (Value.obj gap ms).canonical.render.length := by
  have hmem : memberText (objectMember m) ∈
      (sortOn ObjectMember.keyContents (ms.map objectMember)).map memberText :=
    List.mem_map_of_mem ((mem_sortOn _).mpr (List.mem_map_of_mem hm))
  have hlength := length_le_intercalate hmem
  rw [objectText_canonical]
  simp only [memberText, objectMember, List.length_append] at hlength ⊢
  omega

theorem collects_members {ok : Value → Prop} {value : Reader InventoryError Bytes}
    (hvalue : ∀ v out, value.read v = .ok out ↔
      ok v ∧ v.canonical.render.length ≤ maxBytes ∧ out = v.canonical.render) :
    Collects (fun _ => True)
      (fun m : Member Value => ok m.value ∧ m.value.canonical.render.length ≤ maxBytes)
      objectMember ObjectMember.keyContents fun members m =>
        (objectReader value).checkKey members (tokenOf m.key.val) >>= fun _ =>
          ((objectReader value).member members (tokenOf m.key.val)).read m.value := by
  intro members m members'
  rw [except_bind_ok]
  constructor
  · rintro ⟨u, hkey, hread⟩
    obtain ⟨out, hout, rfl⟩ := Reader.map_ok.mp hread
    rcases (hvalue _ _).mp hout with ⟨hok, hlength, rfl⟩
    refine ⟨trivial, ⟨hok, hlength⟩, fun hmem => ?_, rfl⟩
    have hdup : (objectReader value).checkKey members (tokenOf m.key.val) = _ := if_pos hmem
    rw [hdup] at hkey
    cases hkey
  · rintro ⟨-, ⟨hok, hlength⟩, hnew, rfl⟩
    exact ⟨(), if_neg hnew,
      Reader.map_ok.mpr ⟨_, (hvalue _ _).mpr ⟨hok, hlength, rfl⟩, rfl⟩⟩

theorem canonicalizeObject_ok {ok : Value → Prop} {value : Reader InventoryError Bytes}
    (hvalue : ∀ v out, value.read v = .ok out ↔
      ok v ∧ v.canonical.render.length ≤ maxBytes ∧ out = v.canonical.render)
    {gap : Gap} {ms : List (Member Value)} {output out : Bytes}
    (houtput : output.length ≤ maxBytes) :
    (canonicalizeObject maxBytes value output).read (.obj gap ms) = .ok out ↔
      ((∀ m ∈ ms, ok m.value) ∧ (ms.map keyOf).Nodup) ∧
        output.length + (Value.obj gap ms).canonical.render.length ≤ maxBytes ∧
        out = output ++ (Value.obj gap ms).canonical.render := by
  have hrun : ∀ members, (objectReader value).members [] ms = .ok members ↔
      (∀ m ∈ ms, ok m.value ∧ m.value.canonical.render.length ≤ maxBytes) ∧
        (ms.map keyOf).Nodup ∧ members = ms.map objectMember := by
    intro members
    rw [ObjectReader.members_eq, (collects_members hvalue).foldlM_nil_ok, List.map_map]
    exact ⟨fun h => h.2, fun h => ⟨fun _ _ => trivial, h⟩⟩
  have hfinish : (if exitOf ms = .empty then orOversized (append maxBytes [0x7B, 0x7D] output)
      else orOversized (appendObject maxBytes (ms.map objectMember) output)) = .ok out ↔
        output.length + (Value.obj gap ms).canonical.render.length ≤ maxBytes ∧
          out = output ++ (Value.obj gap ms).canonical.render := by
    rcases ms with _ | ⟨m, ms⟩
    · exact orOversized_ok (appends_append [0x7B, 0x7D]) houtput
    · rw [if_neg (by simp [exitOf]), objectText_canonical]
      exact orOversized_ok (appends_appendObject _) houtput
  unfold canonicalizeObject
  rw [ObjectReader.object_ok]
  constructor
  · rintro ⟨gap', ms', members, heq, hmembers, hout⟩
    cases heq
    rcases (hrun _).mp hmembers with ⟨hall, hkeys, rfl⟩
    exact ⟨⟨fun m hm => (hall m hm).1, hkeys⟩, hfinish.mp hout⟩
  · rintro ⟨⟨hall, hkeys⟩, hfits, rfl⟩
    refine ⟨gap, ms, _, rfl, (hrun _).mpr ⟨fun m hm => ⟨hall m hm, ?_⟩, hkeys, rfl⟩,
      hfinish.mpr ⟨hfits, rfl⟩⟩
    have hle := @member_length_le gap ms m hm
    omega

/-! ## §4  `canonicalize_array` -/

section elements

variable {ok : Value → Prop} {value : Bytes → Reader InventoryError Bytes}

def elementSeparator (first : Bool) : Bytes := if first then [] else [0x2C]

theorem element_ok (hvalue : Writes maxBytes ok value) {first : Bool} {output : Bytes}
    (houtput : output.length ≤ maxBytes) {v : Value} {st : ArrayState} :
    ((arrayReader maxBytes value).element ⟨first, output⟩).read v = .ok st ↔
      ok v ∧ output.length + (elementSeparator first ++ v.canonical.render).length ≤ maxBytes ∧
        st = ⟨false, output ++ (elementSeparator first ++ v.canonical.render)⟩ := by
  have hseparator : (if first = true then some output else append maxBytes [0x2C] output) =
      if output.length + (elementSeparator first).length ≤ maxBytes then
        some (output ++ elementSeparator first) else none := by
    unfold elementSeparator
    rcases first with _ | _
    · exact appends_append [0x2C] output houtput
    · simp [houtput]
  unfold arrayReader
  dsimp only
  rw [hseparator, List.length_append, ← Nat.add_assoc, ← List.append_assoc]
  by_cases hfits : output.length + (elementSeparator first).length ≤ maxBytes
  · have hlength : (output ++ elementSeparator first).length ≤ maxBytes := by
      rw [List.length_append]
      exact hfits
    rw [if_pos hfits]
    dsimp only
    rw [Reader.map_ok, ← List.length_append]
    constructor
    · rintro ⟨out, hout, rfl⟩
      rcases (hvalue _ _ _ hlength).mp hout with ⟨hok, hle, rfl⟩
      exact ⟨hok, hle, rfl⟩
    · rintro ⟨hok, hle, rfl⟩
      exact ⟨_, (hvalue _ _ _ hlength).mpr ⟨hok, hle, rfl⟩, rfl⟩
  · rw [if_neg hfits]
    constructor
    · intro h
      cases h
    · rintro ⟨-, hle, -⟩
      omega

/-- The elements behind the first. -/
def restText (es : List (Element Value)) : Bytes :=
  es.flatMap fun e => [0x2C] ++ e.value.canonical.render

theorem rest_elements (hvalue : Writes maxBytes ok value) {es : List (Element Value)}
    {output : Bytes} (houtput : output.length ≤ maxBytes) {st : ArrayState} :
    (arrayReader maxBytes value).elements ⟨false, output⟩ es = .ok st ↔
      (∀ e ∈ es, ok e.value) ∧ output.length + (restText es).length ≤ maxBytes ∧
        st = ⟨false, output ++ restText es⟩ := by
  induction es generalizing output with
  | nil => simp [ArrayReader.elements, restText, houtput, eq_comm]
  | cons e es ih =>
      have htext : restText (e :: es) =
          elementSeparator false ++ e.value.canonical.render ++ restText es := rfl
      rw [ArrayReader.elements, except_bind_ok, List.forall_mem_cons, htext,
        List.length_append, ← Nat.add_assoc, ← List.append_assoc]
      constructor
      · rintro ⟨next, hnext, hrun⟩
        rcases (element_ok hvalue houtput).mp hnext with ⟨hok, hle, rfl⟩
        rw [← List.length_append] at hle
        rcases (ih hle).mp hrun with ⟨hall, hfits, rfl⟩
        rw [List.length_append] at hfits
        exact ⟨⟨hok, hall⟩, hfits, rfl⟩
      · rintro ⟨⟨hok, hall⟩, hfits, rfl⟩
        have hle : output.length +
            (elementSeparator false ++ e.value.canonical.render).length ≤ maxBytes := by
          omega
        refine ⟨_, (element_ok hvalue houtput).mpr ⟨hok, hle, rfl⟩, ?_⟩
        rw [← List.length_append] at hle
        refine (ih hle).mpr ⟨hall, ?_, rfl⟩
        rw [List.length_append]
        exact hfits

/-- The text that is put together is that of the canonical array. -/
theorem arrayText_canonical (gap : Gap) (es : List (Element Value)) :
    (Value.arr gap es).canonical.render = [0x5B] ++ (List.intercalate [0x2C]
      (es.map fun e => e.value.canonical.render) ++ [0x5D]) := by
  rw [Value.canonical, canonicalElements_eq, render_arr_joined, List.map_map]
  have helement : ∀ e, renderElement (canonicalElement e) = e.value.canonical.render := by
    intro e
    rw [canonicalElement_eq, renderElement_compact]
  simp only [Function.comp_def, helement]
  rfl

theorem all_elements (hvalue : Writes maxBytes ok value) {es : List (Element Value)}
    {output out : Bytes} (houtput : output.length ≤ maxBytes) :
    (∃ first, (arrayReader maxBytes value).elements ⟨true, output⟩ es = .ok ⟨first, out⟩) ↔
      (∀ e ∈ es, ok e.value) ∧
        output.length + (List.intercalate [0x2C]
          (es.map fun e => e.value.canonical.render)).length ≤ maxBytes ∧
        out = output ++ List.intercalate [0x2C] (es.map fun e => e.value.canonical.render) := by
  rcases es with _ | ⟨e, es⟩
  · simp [ArrayReader.elements, List.intercalate, houtput, eq_comm]
  · have htext : List.intercalate [0x2C] ((e :: es).map fun e => e.value.canonical.render) =
        elementSeparator true ++ e.value.canonical.render ++ restText es := by
      rw [List.map_cons, intercalate_cons, List.flatMap_map]
      rfl
    rw [htext, List.length_append, ← Nat.add_assoc, ← List.append_assoc, List.forall_mem_cons]
    simp only [ArrayReader.elements, except_bind_ok]
    constructor
    · rintro ⟨first, next, hnext, hrun⟩
      rcases (element_ok hvalue houtput).mp hnext with ⟨hok, hle, rfl⟩
      rw [← List.length_append] at hle
      rcases (rest_elements hvalue hle).mp hrun with ⟨hall, hfits, heq⟩
      cases heq
      rw [List.length_append] at hfits
      exact ⟨⟨hok, hall⟩, hfits, rfl⟩
    · rintro ⟨⟨hok, hall⟩, hfits, rfl⟩
      have hle : output.length +
          (elementSeparator true ++ e.value.canonical.render).length ≤ maxBytes := by
        omega
      refine ⟨false, _, (element_ok hvalue houtput).mpr ⟨hok, hle, rfl⟩, ?_⟩
      rw [← List.length_append] at hle
      refine (rest_elements hvalue hle).mpr ⟨hall, ?_, rfl⟩
      rw [List.length_append]
      exact hfits

theorem canonicalizeArray_ok (hvalue : Writes maxBytes ok value) {gap : Gap}
    {es : List (Element Value)} {output out : Bytes} (houtput : output.length ≤ maxBytes) :
    (canonicalizeArray maxBytes value output).read (.arr gap es) = .ok out ↔
      (∀ e ∈ es, ok e.value) ∧
        output.length + (Value.arr gap es).canonical.render.length ≤ maxBytes ∧
        out = output ++ (Value.arr gap es).canonical.render := by
  rw [arrayText_canonical, List.length_append, ← Nat.add_assoc, ← List.append_assoc]
  unfold canonicalizeArray
  rw [appends_append [0x5B] output houtput]
  by_cases hopen : output.length + [(0x5B : UInt8)].length ≤ maxBytes
  · rw [if_pos hopen]
    dsimp only
    rw [← List.length_append] at hopen ⊢
    generalize output ++ [0x5B] = start at hopen ⊢
    have hread : ∀ st, (((arrayReader maxBytes value).array .malformedJson st).check
        fun st => orOversized (append maxBytes [0x5D] st.output)).read (.arr gap es) =
          ((arrayReader maxBytes value).elements st es >>= fun st =>
            orOversized (append maxBytes [0x5D] st.output)) := fun _ => rfl
    rw [hread, except_bind_ok, List.length_append, ← Nat.add_assoc, ← List.append_assoc]
    constructor
    · rintro ⟨⟨first, inner⟩, hrun, hclose⟩
      rcases (all_elements hvalue hopen).mp ⟨first, hrun⟩ with ⟨hall, hle, rfl⟩
      rw [← List.length_append] at hle
      have hout := (orOversized_ok (appends_append [0x5D]) hle).mp hclose
      rw [List.length_append] at hout
      exact ⟨hall, hout⟩
    · rintro ⟨hall, hfits, rfl⟩
      obtain ⟨first, hrun⟩ := (all_elements hvalue hopen).mpr ⟨hall, by omega, rfl⟩
      refine ⟨_, hrun, (orOversized_ok (appends_append [0x5D]) ?_).mpr ⟨?_, rfl⟩⟩
      · dsimp only
        rw [List.length_append]
        omega
      · rw [List.length_append]
        exact hfits
  · rw [if_neg hopen]
    constructor
    · intro h
      cases h
    · rintro ⟨-, hle, -⟩
      omega

end elements

/-! ## §5  `canonicalize_value` -/

theorem onByte_of_ne {ε α : Type} {b : UInt8} {r other : Reader ε α} {v : Value}
    (h : ¬ v.render.head? = some b) : (Reader.onByte b r other).read v = other.read v :=
  if_neg h

/-- What the writer checks with `levels` levels left. -/
def Canonicalizable (levels : Nat) (v : Value) : Prop := v.nesting < levels ∧ DistinctKeys v

theorem canonicalizable_obj {levels : Nat} {gap : Gap} {ms : List (Member Value)} :
    Canonicalizable (levels + 1) (.obj gap ms) ↔
      (∀ m ∈ ms, Canonicalizable levels m.value) ∧ (ms.map keyOf).Nodup := by
  unfold Canonicalizable
  rw [Nat.lt_succ_iff, nesting_obj_le, distinctKeys_obj]
  constructor
  · rintro ⟨hnesting, hkeys, hdistinct⟩
    exact ⟨fun m hm => ⟨hnesting m hm, hdistinct m hm⟩, hkeys⟩
  · rintro ⟨hall, hkeys⟩
    exact ⟨fun m hm => (hall m hm).1, hkeys, fun m hm => (hall m hm).2⟩

theorem canonicalizable_arr {levels : Nat} {gap : Gap} {es : List (Element Value)} :
    Canonicalizable (levels + 1) (.arr gap es) ↔
      ∀ e ∈ es, Canonicalizable levels e.value := by
  unfold Canonicalizable
  rw [Nat.lt_succ_iff, nesting_arr_le, distinctKeys_arr, ← forall₂_and]
  rfl

section dispatch

variable (levels : Nat) (output : Bytes)

/-- A number starts with none of the bytes that the other values start with. -/
theorem canonicalizeAt_num (t : NumberText) :
    (canonicalizeAt maxBytes (levels + 1) output).read (.num t) =
      orOversized (append maxBytes t.val output) := by
  have hne : ∀ b : UInt8, b ≠ 0x2D → ¬ IsDigit b →
      ¬ (Value.num t).render.head? = some b := fun b => head_num t
  dsimp only [canonicalizeAt, orAtEnd]
  rw [onByte_of_ne (hne 0x22 (by decide) (by decide)),
    onByte_of_ne (hne 0x7B (by decide) (by decide)),
    onByte_of_ne (hne 0x5B (by decide) (by decide)),
    onByte_of_ne (hne 0x74 (by decide) (by decide)),
    onByte_of_ne (hne 0x66 (by decide) (by decide)),
    onByte_of_ne (hne 0x6E (by decide) (by decide))]
  rfl

theorem canonicalizeAt_lit (w : Literal) :
    (canonicalizeAt maxBytes (levels + 1) output).read (.lit w) =
      orOversized (append maxBytes w.bytes output) := by
  rcases w with _ | _ | _ <;> rfl

theorem canonicalizeAt_obj (gap : Gap) (ms : List (Member Value)) :
    (canonicalizeAt maxBytes (levels + 1) output).read (.obj gap ms) =
      (canonicalizeObject maxBytes (canonicalizeAt maxBytes levels []) output).read
        (.obj gap ms) := by
  simp only [canonicalizeAt, orAtEnd, Reader.onByte, head_obj]
  rfl

theorem canonicalizeAt_arr (gap : Gap) (es : List (Element Value)) :
    (canonicalizeAt maxBytes (levels + 1) output).read (.arr gap es) =
      (canonicalizeArray maxBytes (canonicalizeAt maxBytes levels) output).read
        (.arr gap es) := by
  simp only [canonicalizeAt, orAtEnd, Reader.onByte, head_arr]
  rfl

end dispatch

/-- The writer writes the canonical text of a value that is nested within the levels
and repeats no key, if it fits. -/
theorem canonicalizeAt_ok (maxBytes levels : Nat) :
    Writes maxBytes (Canonicalizable levels) (canonicalizeAt maxBytes levels) := by
  induction levels with
  | zero =>
      intro output v out _
      constructor
      · intro h
        cases h
      · rintro ⟨⟨hlt, -⟩, -⟩
        exact absurd hlt (Nat.not_lt_zero _)
  | succ levels ih =>
      intro output v out houtput
      have hleaf : ∀ {text}, orOversized (append maxBytes text output) = .ok out ↔
          output.length + text.length ≤ maxBytes ∧ out = output ++ text :=
        orOversized_ok (appends_append _) houtput
      rcases v with t | t | w | ⟨gap, ms⟩ | ⟨gap, es⟩
      · have hok : Canonicalizable (levels + 1) (.str t) :=
          ⟨Nat.zero_lt_succ _, .str t⟩
        exact hleaf.trans ⟨fun h => ⟨hok, h⟩, fun h => h.2⟩
      · have hok : Canonicalizable (levels + 1) (.num t) :=
          ⟨Nat.zero_lt_succ _, .num t⟩
        rw [canonicalizeAt_num]
        exact hleaf.trans ⟨fun h => ⟨hok, h⟩, fun h => h.2⟩
      · have hok : Canonicalizable (levels + 1) (.lit w) :=
          ⟨Nat.zero_lt_succ _, .lit w⟩
        rw [canonicalizeAt_lit]
        exact hleaf.trans ⟨fun h => ⟨hok, h⟩, fun h => h.2⟩
      · -- each value of a member is written to a text of its own, which starts empty
        have hvalue : ∀ v out, (canonicalizeAt maxBytes levels []).read v = .ok out ↔
            Canonicalizable levels v ∧ v.canonical.render.length ≤ maxBytes ∧
              out = v.canonical.render := by
          intro v out
          have h := ih [] v out (Nat.zero_le _)
          rwa [List.length_nil, Nat.zero_add, List.nil_append] at h
        rw [canonicalizeAt_obj, canonicalizeObject_ok hvalue houtput, canonicalizable_obj]
      · rw [canonicalizeAt_arr, canonicalizeArray_ok ih houtput, canonicalizable_arr]

/-- `capture_canonical_value` keeps the canonical text. -/
theorem captureCanonicalValue_ok {depth maxDepth : Nat} {v : Value} {stored : Bytes} :
    (captureCanonicalValue depth maxDepth maxBytes).read v = .ok stored ↔
      (depth + v.nesting ≤ maxDepth ∧ DistinctKeys v ∧
        v.canonical.render.length ≤ maxBytes) ∧ stored = v.canonical.render := by
  have hwrites := canonicalizeAt_ok maxBytes (maxDepth + 1 - depth) [] v
  have hread : (captureCanonicalValue depth maxDepth maxBytes).read v =
      ((canonicalizeAt maxBytes (maxDepth + 1 - depth) []).read v >>= fun stored =>
        if stored.length > maxBytes then .error .oversizedSchema else .ok stored) := rfl
  have hlevels : v.nesting < maxDepth + 1 - depth ↔ depth + v.nesting ≤ maxDepth := by
    omega
  simp only [List.length_nil, Nat.zero_le, Nat.zero_add, List.nil_append, forall_const,
    Canonicalizable, hlevels] at hwrites
  rw [hread, except_bind_ok]
  constructor
  · rintro ⟨out, hout, h⟩
    rcases (hwrites out).mp hout with ⟨⟨hdepth, hdistinct⟩, hfits, rfl⟩
    rw [if_neg (not_lt.mpr hfits)] at h
    cases h
    exact ⟨⟨hdepth, hdistinct, hfits⟩, rfl⟩
  · rintro ⟨⟨hdepth, hdistinct, hfits⟩, rfl⟩
    exact ⟨_, (hwrites _).mpr ⟨⟨hdepth, hdistinct⟩, hfits, rfl⟩, if_neg (not_lt.mpr hfits)⟩

end Inventory

end NativeGuard.Protocol

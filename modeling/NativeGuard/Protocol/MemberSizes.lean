import NativeGuard.Protocol.Loops

/-!
# How much of a text its parts take

The members of an object stand side by side, so that two of them never share a
byte. The bounds here count a member's key, its value and the four bytes that
every member has around them: two quotes, a colon, and a brace or a comma.
-/

namespace NativeGuard.Protocol

open Json

/-- The bytes that the members take at least, with one separator each. -/
def membersSize (ms : List (Member Value)) : Nat :=
  (ms.map fun m => m.key.val.length + m.value.render.length + 4).sum

theorem renderMember_length (m : Member Value) :
    m.key.val.length + m.value.render.length + 3 ≤ (renderMember m).length := by
  rw [renderMember_eq]
  simp only [List.length_append, List.length_cons]
  omega

theorem openMembers_length_ge (ms : List (Member Value)) :
    membersSize ms ≤ (openMembers ms).length := by
  induction ms with
  | nil => exact Nat.zero_le _
  | cons m ms ih =>
      have hmember := renderMember_length m
      simp only [membersSize, List.map_cons, List.sum_cons] at ih ⊢
      simp only [openMembers, List.length_cons, List.length_append]
      omega

/-- The members of a message are no longer than the message. -/
theorem membersSize_le {exit : LoopExit} {ms : List (Member Value)} {tail m : Bytes}
    (h : DocumentText exit ms tail m) : membersSize ms ≤ m.length := by
  obtain ⟨lead, trail, s, rfl, htext⟩ := h
  rw [List.length_append, List.length_cons]
  generalize trail.val = rest at htext
  cases htext with
  | empty => exact Nat.zero_le _
  | bare => exact Nat.zero_le _
  | members x ms hend =>
      have hmember := renderMember_length x
      have hmembers := openMembers_length_ge ms
      simp only [membersSize, List.map_cons, List.sum_cons] at hmembers ⊢
      simp only [List.length_append]
      omega

/-- ... and those of an object leave room for its closing brace. -/
theorem membersSize_obj (gap : Gap) (ms : List (Member Value)) :
    membersSize ms + 1 ≤ (Value.obj gap ms).render.length := by
  cases ms with
  | nil => simp [membersSize, Value.render]
  | cons x ms =>
      have hmember := renderMember_length x
      have hmembers := openMembers_length_ge ms
      simp only [membersSize, List.map_cons, List.sum_cons] at hmembers ⊢
      simp only [Value.render, renderMembers_open, List.length_cons, List.length_append,
        List.length_nil]
      omega

theorem element_length {gap : Gap} {es : List (Element Value)} {e : Element Value}
    (h : e ∈ es) : e.value.render.length + 2 ≤ (Value.arr gap es).render.length := by
  have helement : ∀ e : Element Value, e.value.render.length ≤ (renderElement e).length := by
    intro e
    rw [renderElement_eq]
    simp only [List.length_append]
    omega
  have hrest : ∀ {es : List (Element Value)}, e ∈ es →
      e.value.render.length + 1 ≤ (openElements es).length := by
    intro es
    induction es with
    | nil => exact fun h => absurd h List.not_mem_nil
    | cons e' es ih =>
        intro h
        simp only [openElements, List.length_cons, List.length_append]
        rcases List.mem_cons.mp h with rfl | h
        · have := helement e
          omega
        · have := ih h
          omega
  cases es with
  | nil => exact absurd h List.not_mem_nil
  | cons e' es =>
      simp only [Value.render, renderElements_open, List.length_cons, List.length_append,
        List.length_nil]
      rcases List.mem_cons.mp h with rfl | h
      · have := helement e
        omega
      · have := hrest h
        omega

/-- What a value takes with its key. -/
theorem value_length {key : Bytes} {ms : List (Member Value)} {v : Value}
    (h : v ∈ valuesAt key ms) : key.length + v.render.length + 4 ≤ membersSize ms := by
  induction ms with
  | nil => exact absurd h List.not_mem_nil
  | cons m ms ih =>
      simp only [membersSize, List.map_cons, List.sum_cons] at ih ⊢
      by_cases hkey : m.key.val = key
      · rw [valuesAt_cons_of_eq hkey] at h
        rcases List.mem_cons.mp h with rfl | h
        · rw [← hkey]
          omega
        · have := ih h
          omega
      · rw [valuesAt, if_neg hkey] at h
        have := ih h
        omega

/-- The values of two keys stand side by side. -/
theorem value_length_add {key key' : Bytes} (hne : key ≠ key') {ms : List (Member Value)}
    {v v' : Value} (h : v ∈ valuesAt key ms) (h' : v' ∈ valuesAt key' ms) :
    key.length + v.render.length + 4 + (key'.length + v'.render.length + 4) ≤
      membersSize ms := by
  induction ms with
  | nil => exact absurd h List.not_mem_nil
  | cons m ms ih =>
      simp only [membersSize, List.map_cons, List.sum_cons] at ih ⊢
      by_cases hkey : m.key.val = key
      · have hkey' : m.key.val ≠ key' := by
          rw [hkey]
          exact hne
        rw [valuesAt_cons_of_eq hkey] at h
        rw [valuesAt, if_neg hkey'] at h'
        rcases List.mem_cons.mp h with rfl | h
        · have := value_length h'
          rw [← hkey]
          simp only [membersSize] at this
          omega
        · have := ih h h'
          omega
      · rw [valuesAt, if_neg hkey] at h
        by_cases hkey' : m.key.val = key'
        · rw [valuesAt_cons_of_eq hkey'] at h'
          rcases List.mem_cons.mp h' with rfl | h'
          · have := value_length h
            rw [← hkey']
            simp only [membersSize] at this
            omega
          · have := ih h h'
            omega
        · rw [valuesAt, if_neg hkey'] at h'
          have := ih h h'
          omega

end NativeGuard.Protocol

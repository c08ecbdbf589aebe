import NativeGuard.Protocol.Readers

/-!
# One tree per text

A text is spelled by one tree only, once the gaps that a container with members does
not use are empty: the scanner finds where each token ends, the whitespace in front of
a token is all there is, and the first byte of a value tells its kind (`Tidy.oneTree`).
-/

namespace NativeGuard.Protocol

open Json Json.Scan

/-- The gap of a container with members, which no text shows, is empty. -/
inductive Tidy : Value → Prop
  | str (t : StringText) : Tidy (.str t)
  | num (t : NumberText) : Tidy (.num t)
  | lit (w : Literal) : Tidy (.lit w)
  | emptyObj (gap : Gap) : Tidy (.obj gap [])
  | obj {m : Member Value} {ms : List (Member Value)}
      (h : ∀ x ∈ m :: ms, Tidy x.value) : Tidy (.obj noGap (m :: ms))
  | emptyArr (gap : Gap) : Tidy (.arr gap [])
  | arr {e : Element Value} {es : List (Element Value)}
      (h : ∀ x ∈ e :: es, Tidy x.value) : Tidy (.arr noGap (e :: es))

/-- The text of `v` can be told from that of any other tidy tree, whatever follows
the two. -/
def OneTree (v : Value) : Prop :=
  ∀ (w : Value) (rest rest' : Bytes), Tidy w → Follow rest → Follow rest' →
    v.render ++ rest = w.render ++ rest' → v = w ∧ rest = rest'

/-! ## §1  Tokens and gaps -/

theorem gap_unique {gap gap' : Gap} {rest rest' : Bytes} (hrest : Stops rest)
    (hrest' : Stops rest') (h : gap.val ++ rest = gap'.val ++ rest') :
    gap = gap' ∧ rest = rest' := by
  have hskip := dropWhile_gap gap.property hrest
  rw [h, dropWhile_gap gap'.property hrest'] at hskip
  subst hskip
  exact ⟨Subtype.ext (List.append_cancel_right h), rfl⟩

theorem string_unique {t t' : StringText} {rest rest' : Bytes}
    (h : (0x22 :: (t.val ++ 0x22 :: rest) : Bytes) = 0x22 :: (t'.val ++ 0x22 :: rest')) :
    t = t' ∧ rest = rest' := by
  have hscan := scanString_text t rest
  rw [h, scanString_text t' rest', Prod.mk.injEq, Except.ok.injEq] at hscan
  have hcontents := congrArg StringToken.contents hscan.1
  rw [tokenOf_contents, tokenOf_contents] at hcontents
  exact ⟨Subtype.ext hcontents.symm, hscan.2.symm⟩

theorem number_unique {t t' : NumberText} {rest rest' : Bytes} (hrest : Follow rest)
    (hrest' : Follow rest') (h : t.val ++ rest = t'.val ++ rest') : t = t' ∧ rest = rest' := by
  have hscan := scanNumber_token t hrest
  rw [h, scanNumber_token t' hrest', Prod.mk.injEq] at hscan
  have heq := hscan.2.symm
  rw [heq] at h
  exact ⟨Subtype.ext (List.append_cancel_right h), heq⟩

theorem stops_quote (rest : Bytes) : Stops (0x22 :: rest) := stops_cons.mpr (by decide)

theorem stops_colon (rest : Bytes) : Stops (0x3A :: rest) := stops_cons.mpr (by decide)

theorem stops_renderMembers (ms : List (Member Value)) (rest : Bytes) :
    Stops (renderMembers ms ++ rest) := by
  cases ms <;> exact stops_cons.mpr (by decide)

theorem stops_renderElements (es : List (Element Value)) (rest : Bytes) :
    Stops (renderElements es ++ rest) := by
  cases es <;> exact stops_cons.mpr (by decide)

/-! ## §2  Members and elements -/

theorem renderMember_append (m : Member Value) (rest : Bytes) :
    renderMember m ++ rest = m.lead.val ++ 0x22 :: (m.key.val ++ 0x22 ::
      (m.preColon.val ++ 0x3A :: (m.postColon.val ++
        (m.value.render ++ (m.trail.val ++ rest))))) := by
  rw [renderMember_eq]
  simp

theorem renderElement_append (e : Element Value) (rest : Bytes) :
    renderElement e ++ rest = e.lead.val ++ (e.value.render ++ (e.trail.val ++ rest)) := by
  rw [renderElement_eq]
  simp

/-- Token by token: key, colon, value, and the whitespace between them. -/
theorem member_unique {m m' : Member Value} {rest rest' : Bytes} (hm : OneTree m.value)
    (hm' : Tidy m'.value) (hstop : Stops rest) (hstop' : Stops rest') (hrest : Follow rest)
    (hrest' : Follow rest') (h : renderMember m ++ rest = renderMember m' ++ rest') :
    m = m' ∧ rest = rest' := by
  rw [renderMember_append, renderMember_append] at h
  obtain ⟨hlead, hquote⟩ := gap_unique (stops_quote _) (stops_quote _) h
  obtain ⟨hkey, hcolon⟩ := string_unique hquote
  obtain ⟨hpre, hpost⟩ := gap_unique (stops_colon _) (stops_colon _) hcolon
  obtain ⟨hpost, hvalue⟩ := gap_unique (stops_render _ _) (stops_render _ _)
    (List.cons.inj hpost).2
  obtain ⟨hvalue, htrail⟩ := hm _ _ _ hm' (follow_gap_append hrest)
    (follow_gap_append hrest') hvalue
  obtain ⟨htrail, heq⟩ := gap_unique hstop hstop' htrail
  rcases m with ⟨lead, key, pre, post, value, trail⟩
  rcases m' with ⟨lead', key', pre', post', value', trail'⟩
  dsimp only at hlead hkey hpre hpost hvalue htrail
  rw [hlead, hkey, hpre, hpost, hvalue, htrail]
  exact ⟨rfl, heq⟩

theorem element_unique {e e' : Element Value} {rest rest' : Bytes} (he : OneTree e.value)
    (he' : Tidy e'.value) (hstop : Stops rest) (hstop' : Stops rest') (hrest : Follow rest)
    (hrest' : Follow rest') (h : renderElement e ++ rest = renderElement e' ++ rest') :
    e = e' ∧ rest = rest' := by
  rw [renderElement_append, renderElement_append] at h
  obtain ⟨hlead, hvalue⟩ := gap_unique (stops_render _ _) (stops_render _ _) h
  obtain ⟨hvalue, htrail⟩ := he _ _ _ he' (follow_gap_append hrest)
    (follow_gap_append hrest') hvalue
  obtain ⟨htrail, heq⟩ := gap_unique hstop hstop' htrail
  rcases e with ⟨lead, value, trail⟩
  rcases e' with ⟨lead', value', trail'⟩
  dsimp only at hlead hvalue htrail
  rw [hlead, hvalue, htrail]
  exact ⟨rfl, heq⟩

/-- The members behind the first, up to the brace. -/
theorem members_unique {ms ms' : List (Member Value)} {rest rest' : Bytes}
    (hms : ∀ m ∈ ms, OneTree m.value) (hms' : ∀ m ∈ ms', Tidy m.value)
    (h : renderMembers ms ++ rest = renderMembers ms' ++ rest') : ms = ms' ∧ rest = rest' := by
  induction ms generalizing ms' with
  | nil =>
      cases ms' with
      | nil => exact ⟨rfl, (List.cons.inj h).2⟩
      | cons m' ms' => exact absurd (List.cons.inj h).1 (by decide)
  | cons m ms ih =>
      cases ms' with
      | nil => exact absurd (List.cons.inj h).1 (by decide)
      | cons m' ms' =>
          obtain ⟨hm, hlater⟩ := List.forall_mem_cons.mp hms
          obtain ⟨hm', hlater'⟩ := List.forall_mem_cons.mp hms'
          have htail : renderMember m ++ (renderMembers ms ++ rest) =
              renderMember m' ++ (renderMembers ms' ++ rest') := by
            rw [← List.append_assoc, ← List.append_assoc]
            exact (List.cons.inj h).2
          obtain ⟨hfirst, hnext⟩ := member_unique hm hm' (stops_renderMembers _ _)
            (stops_renderMembers _ _) (follow_renderMembers _ _) (follow_renderMembers _ _) htail
          obtain ⟨hmembers, heq⟩ := ih hlater hlater' hnext
          exact ⟨by rw [hfirst, hmembers], heq⟩

theorem elements_unique {es es' : List (Element Value)} {rest rest' : Bytes}
    (hes : ∀ e ∈ es, OneTree e.value) (hes' : ∀ e ∈ es', Tidy e.value)
    (h : renderElements es ++ rest = renderElements es' ++ rest') :
    es = es' ∧ rest = rest' := by
  induction es generalizing es' with
  | nil =>
      cases es' with
      | nil => exact ⟨rfl, (List.cons.inj h).2⟩
      | cons e' es' => exact absurd (List.cons.inj h).1 (by decide)
  | cons e es ih =>
      cases es' with
      | nil => exact absurd (List.cons.inj h).1 (by decide)
      | cons e' es' =>
          obtain ⟨he, hlater⟩ := List.forall_mem_cons.mp hes
          obtain ⟨he', hlater'⟩ := List.forall_mem_cons.mp hes'
          have htail : renderElement e ++ (renderElements es ++ rest) =
              renderElement e' ++ (renderElements es' ++ rest') := by
            rw [← List.append_assoc, ← List.append_assoc]
            exact (List.cons.inj h).2
          obtain ⟨hfirst, hnext⟩ := element_unique he he' (stops_renderElements _ _)
            (stops_renderElements _ _) (follow_renderElements _ _) (follow_renderElements _ _)
            htail
          obtain ⟨helements, heq⟩ := ih hlater hlater' hnext
          exact ⟨by rw [hfirst, helements], heq⟩

/-! ## §3  Trees -/

/-- Behind the brace and its whitespace there is a key or the other brace. -/
theorem obj_unique {gap gap' : Gap} {ms ms' : List (Member Value)} {rest rest' : Bytes}
    (hv : Tidy (.obj gap ms)) (hms : ∀ m ∈ ms, OneTree m.value) (hw : Tidy (.obj gap' ms'))
    (h : (Value.obj gap ms).render ++ rest = (Value.obj gap' ms').render ++ rest') :
    Value.obj gap ms = Value.obj gap' ms' ∧ rest = rest' := by
  have hbrace : ∀ (gap : Gap) (rest : Bytes) (m : Member Value) (tail : Bytes),
      gap.val ++ 0x7D :: rest ≠ renderMember m ++ tail := by
    intro gap rest m tail heq
    rw [renderMember_append] at heq
    have hquote := (gap_unique (stops_cons.mpr (by decide)) (stops_quote _) heq).2
    exact absurd (List.cons.inj hquote).1 (by decide)
  cases hv with
  | emptyObj =>
      cases hw with
      | emptyObj =>
          have hgaps : gap.val ++ 0x7D :: rest = gap'.val ++ 0x7D :: rest' := by
            simpa [Value.render] using h
          obtain ⟨hgap, hclose⟩ := gap_unique (stops_cons.mpr (by decide))
            (stops_cons.mpr (by decide)) hgaps
          exact ⟨by rw [hgap], (List.cons.inj hclose).2⟩
      | @obj m' ms' _ =>
          refine absurd ?_ (hbrace gap rest m' (renderMembers ms' ++ rest'))
          simpa [Value.render] using h
  | @obj m ms _ =>
      cases hw with
      | emptyObj =>
          refine absurd ?_ (hbrace gap' rest' m (renderMembers ms ++ rest))
          simpa [Value.render] using h.symm
      | @obj m' ms' htidy =>
          obtain ⟨hmembers, heq⟩ := members_unique hms htidy
            (congrArg (List.cons 0x2C) (List.cons.inj h).2)
          exact ⟨by rw [hmembers], heq⟩

theorem arr_unique {gap gap' : Gap} {es es' : List (Element Value)} {rest rest' : Bytes}
    (hv : Tidy (.arr gap es)) (hes : ∀ e ∈ es, OneTree e.value) (hw : Tidy (.arr gap' es'))
    (h : (Value.arr gap es).render ++ rest = (Value.arr gap' es').render ++ rest') :
    Value.arr gap es = Value.arr gap' es' ∧ rest = rest' := by
  have hbracket : ∀ (gap : Gap) (rest : Bytes) (e : Element Value) (tail : Bytes),
      gap.val ++ 0x5D :: rest ≠ renderElement e ++ tail := by
    intro gap rest e tail heq
    rw [renderElement_append] at heq
    have hvalue := (gap_unique (stops_cons.mpr (by decide)) (stops_render _ _) heq).2
    obtain ⟨b, t, hhead, -, -, -, hb⟩ := render_head e.value (e.trail.val ++ tail)
    rw [hhead] at hvalue
    exact hb (List.cons.inj hvalue).1.symm
  cases hv with
  | emptyArr =>
      cases hw with
      | emptyArr =>
          have hgaps : gap.val ++ 0x5D :: rest = gap'.val ++ 0x5D :: rest' := by
            simpa [Value.render] using h
          obtain ⟨hgap, hclose⟩ := gap_unique (stops_cons.mpr (by decide))
            (stops_cons.mpr (by decide)) hgaps
          exact ⟨by rw [hgap], (List.cons.inj hclose).2⟩
      | @arr e' es' _ =>
          refine absurd ?_ (hbracket gap rest e' (renderElements es' ++ rest'))
          simpa [Value.render] using h
  | @arr e es _ =>
      cases hw with
      | emptyArr =>
          refine absurd ?_ (hbracket gap' rest' e (renderElements es ++ rest))
          simpa [Value.render] using h.symm
      | @arr e' es' htidy =>
          obtain ⟨helements, heq⟩ := elements_unique hes htidy
            (congrArg (List.cons 0x2C) (List.cons.inj h).2)
          exact ⟨by rw [helements], heq⟩

/-- The text of a tidy tree tells the tree and where it ends. -/
theorem Tidy.oneTree {v : Value} (hv : Tidy v) : OneTree v := by
  have hsame : ∀ {v w : Value} {rest rest' : Bytes},
      v.render ++ rest = w.render ++ rest' → v.render.head? = w.render.head? := by
    intro v w rest rest' h
    rw [← render_head_append v rest, h, render_head_append]
  induction v using Value.inductionOn with
  | str t =>
      intro w rest rest' _ _ _ h
      obtain ⟨t', rfl⟩ := head_quote_iff.mp (hsame h).symm
      have htexts : (0x22 :: (t.val ++ 0x22 :: rest) : Bytes) =
          0x22 :: (t'.val ++ 0x22 :: rest') := by
        simpa [Value.render] using h
      obtain ⟨rfl, heq⟩ := string_unique htexts
      exact ⟨rfl, heq⟩
  | num t =>
      intro w rest rest' _ hrest hrest' h
      have hne : ∀ b : UInt8, b ≠ 0x2D → ¬ IsDigit b → ¬ w.render.head? = some b :=
        fun b hminus hdigit hb => head_num t hminus hdigit ((hsame h).trans hb)
      cases w with
      | str t' => exact absurd rfl (hne 0x22 (by decide) (by decide))
      | num t' =>
          obtain ⟨rfl, heq⟩ := number_unique hrest hrest' h
          exact ⟨rfl, heq⟩
      | lit u =>
          cases u with
          | null => exact absurd rfl (hne 0x6E (by decide) (by decide))
          | true => exact absurd rfl (hne 0x74 (by decide) (by decide))
          | false => exact absurd rfl (hne 0x66 (by decide) (by decide))
      | obj gap ms => exact absurd (head_obj _ _) (hne 0x7B (by decide) (by decide))
      | arr gap es => exact absurd (head_arr _ _) (hne 0x5B (by decide) (by decide))
  | lit u =>
      intro w rest rest' _ _ _ h
      obtain rfl : w = .lit u := Reader.lit_of_startsWith ⟨rest, h⟩
      exact ⟨rfl, List.append_cancel_left h⟩
  | obj gap ms ih =>
      intro w rest rest' hw _ _ h
      obtain ⟨gap', ms', rfl⟩ := head_brace_iff.mp ((hsame h).symm.trans (head_obj _ _))
      have htidy : ∀ m ∈ ms, Tidy m.value := by
        cases hv with
        | emptyObj => exact fun m hm => absurd hm List.not_mem_nil
        | obj hall => exact hall
      exact obj_unique hv (fun m hm => ih m hm (htidy m hm)) hw h
  | arr gap es ih =>
      intro w rest rest' hw _ _ h
      obtain ⟨gap', es', rfl⟩ := head_bracket_iff.mp ((hsame h).symm.trans (head_arr _ _))
      have htidy : ∀ e ∈ es, Tidy e.value := by
        cases hv with
        | emptyArr => exact fun e he => absurd he List.not_mem_nil
        | arr hall => exact hall
      exact arr_unique hv (fun e he => ih e he (htidy e he)) hw h

theorem Tidy.render_injective {v w : Value} (hv : Tidy v) (hw : Tidy w)
    (h : v.render = w.render) : v = w :=
  (hv.oneTree w [] [] hw follow_nil follow_nil (by rw [h])).1

/-- A text has one tidy tree. -/
theorem Tidy.text_unique {v w : Value} (hv : Tidy v) (hw : Tidy w) {text : Bytes}
    (h : IsText text v) (h' : IsText text w) : v = w := by
  obtain ⟨lead, trail, rfl⟩ := h
  obtain ⟨lead', trail', heq⟩ := h'
  obtain ⟨-, hrest⟩ := gap_unique (stops_render v _) (stops_render w _) heq
  exact (hv.oneTree w _ _ hw (follow_gap trail) (follow_gap trail') hrest).1

end NativeGuard.Protocol

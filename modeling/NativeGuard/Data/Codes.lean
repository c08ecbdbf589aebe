import Mathlib.Logic.Function.Basic
import Mathlib.Data.List.Basic

/-!
# Codes and hashes of a text

A code is self-delimiting if its text can be split off the front of any longer
one: then a concatenation of coded items is read back in one way only, whatever
bytes the items hold. A fold whose steps lose nothing of the state keeps two
states apart through any suffix. Everything is for arbitrary items, symbols and
states.
-/

namespace NativeGuard.Data

open Function

/-! ## §1  Self-delimiting codes -/

section codes

variable {α τ β : Type} {code : α → List β}

/-- The code of an item ends where the item says, whatever follows. -/
def SelfDelimiting (code : α → List β) : Prop :=
  ∀ ⦃a b : α⦄ ⦃s t : List β⦄, code a ++ s = code b ++ t → a = b ∧ s = t

/-- A mark that no code contains ends each of them. -/
theorem selfDelimiting_of_stop {stop : β} (hinj : Injective code)
    (hstop : ∀ a, stop ∉ code a) : SelfDelimiting fun a => code a ++ [stop] := by
  intro a b s t h
  have hsplit : ∀ (xs ys : List β), stop ∉ xs → stop ∉ ys →
      xs ++ [stop] ++ s = ys ++ [stop] ++ t → xs = ys ∧ s = t := by
    intro xs
    induction xs with
    | nil =>
        intro ys _ hys heq
        cases ys with
        | nil => exact ⟨rfl, by simpa using heq⟩
        | cons y ys =>
            have hy : stop = y := by simpa using congrArg List.head? heq
            exact absurd (hy ▸ List.mem_cons_self) hys
    | cons x xs ih =>
        intro ys hxs hys heq
        cases ys with
        | nil =>
            have hx : x = stop := by simpa using congrArg List.head? heq
            exact absurd (hx ▸ List.mem_cons_self) hxs
        | cons y ys =>
            simp only [List.cons_append, List.cons.injEq] at heq
            obtain ⟨rfl, hrest⟩ := ih ys (List.not_mem_of_not_mem_cons hxs)
              (List.not_mem_of_not_mem_cons hys) heq.2
            exact ⟨congrArg (· :: xs) heq.1, hrest⟩
  obtain ⟨hcode, hrest⟩ := hsplit _ _ (hstop a) (hstop b) h
  exact ⟨hinj hcode, hrest⟩

/-- A self-delimiting header makes the code of what it announces readable: the
body has to be read only among the items with one header. -/
theorem SelfDelimiting.announced {header : τ → List β} (hheader : SelfDelimiting header)
    {tag : α → τ} {body : α → List β}
    (hbody : ∀ ⦃a b⦄, tag a = tag b → ∀ ⦃s t⦄, body a ++ s = body b ++ t → a = b ∧ s = t) :
    SelfDelimiting fun a => header (tag a) ++ body a := by
  intro a b s t h
  rw [List.append_assoc, List.append_assoc] at h
  obtain ⟨htag, hrest⟩ := hheader h
  exact hbody htag hrest

/-- Coded items one after another are read back in one way only. -/
theorem SelfDelimiting.flatMap_injective (h : SelfDelimiting code)
    (hne : ∀ a, code a ≠ []) : Injective fun items : List α => items.flatMap code := by
  intro xs
  induction xs with
  | nil =>
      intro ys heq
      cases ys with
      | nil => rfl
      | cons y ys =>
          have hempty : code y ++ ys.flatMap code = [] := by simpa using heq.symm
          exact absurd (List.append_eq_nil_iff.mp hempty).1 (hne y)
  | cons x xs ih =>
      intro ys heq
      cases ys with
      | nil =>
          have hempty : code x ++ xs.flatMap code = [] := by simpa using heq
          exact absurd (List.append_eq_nil_iff.mp hempty).1 (hne x)
      | cons y ys =>
          simp only [List.flatMap_cons] at heq
          obtain ⟨rfl, hrest⟩ := h heq
          exact congrArg (x :: ·) (ih hrest)

end codes

/-! ## §2  Folds -/

section folds

variable {σ β : Type} {step : σ → β → σ}

/-- Steps that lose nothing of the state keep two states apart. -/
theorem foldl_injective (hstep : ∀ b, Injective fun s => step s b) (bs : List β) :
    Injective fun s => bs.foldl step s := by
  induction bs with
  | nil => exact fun _ _ h => h
  | cons b bs ih => exact fun _ _ h => hstep b (ih h)

/-- One symbol exchanged anywhere changes the result. -/
theorem foldl_exchange_ne (hstep : ∀ b, Injective fun s => step s b)
    (hsymbol : ∀ s, Injective (step s)) {a b : β} (hne : a ≠ b) (before after : List β)
    (s : σ) : (before ++ a :: after).foldl step s ≠ (before ++ b :: after).foldl step s := by
  intro heq
  simp only [List.foldl_append, List.foldl_cons] at heq
  exact hne (hsymbol _ (foldl_injective hstep after heq))

end folds

end NativeGuard.Data

import Mathlib.Data.Nat.Digits.Lemmas
import NativeGuard.Json.Decode

/-!
# Decimal numerals

What `std::to_chars` writes for an integer, as bytes: a JSON number of the
grammar, whose length is bounded by the number of digits.
-/

namespace NativeGuard.Data

open Json

def digitByte (d : Nat) : UInt8 := UInt8.ofNat (0x30 + d)

def decimal (n : Nat) : Bytes :=
  if n = 0 then [0x30] else (Nat.digits 10 n).reverse.map digitByte

/-- `std::to_chars` in base ten. -/
def toChars : Int → Bytes
  | .ofNat n => decimal n
  | .negSucc n => 0x2D :: decimal (n + 1)

theorem digitByte_range {d : Nat} (h : d < 10) :
    IsDigit (digitByte d) ∧ (d ≠ 0 → 0x31 ≤ digitByte d) := by
  interval_cases d <;> decide

theorem decimal_intPart (n : Nat) : IntPart (decimal n) := by
  unfold decimal
  by_cases hn : n = 0
  · rw [if_pos hn]
    exact Or.inl rfl
  · rw [if_neg hn]
    right
    have hlast := Nat.getLast_digit_ne_zero 10 hn
    have hne : Nat.digits 10 n ≠ [] := Nat.digits_ne_nil_iff_ne_zero.mpr hn
    have hdigit : ∀ d ∈ Nat.digits 10 n, d < 10 := fun d hd =>
      Nat.digits_lt_base (by omega) hd
    -- the most significant digit comes first
    obtain ⟨ds, d, hsplit⟩ : ∃ ds d, Nat.digits 10 n = ds ++ [d] :=
      ⟨_, _, (List.dropLast_append_getLast hne).symm⟩
    simp only [hsplit, List.getLast_append_singleton] at hlast
    rw [hsplit] at hdigit ⊢
    obtain ⟨hd, hnonzero⟩ := digitByte_range (hdigit d (by simp))
    refine ⟨digitByte d, ds.reverse.map digitByte, by simp, hnonzero hlast, hd.2, ?_⟩
    intro b hb
    obtain ⟨e, he, rfl⟩ := List.mem_map.mp hb
    exact (digitByte_range (hdigit e (by simp [List.mem_reverse.mp he]))).1

theorem decimal_length_le {n k : Nat} (hk : 0 < k) (h : n < 10 ^ k) :
    (decimal n).length ≤ k := by
  unfold decimal
  split
  · exact hk
  · rw [List.length_map, List.length_reverse]
    exact (Nat.digits_length_le_iff (by omega) n).mpr h

/-- An integer as a JSON number. -/
def numberText (i : Int) : NumberText :=
  ⟨toChars i, by
    cases i with
    | ofNat n =>
        exact ⟨[], decimal n, [], [], by simp [toChars], Or.inl rfl, decimal_intPart n,
          Or.inl rfl, Or.inl rfl⟩
    | negSucc n =>
        exact ⟨[0x2D], decimal (n + 1), [], [], by simp [toChars], Or.inr rfl,
          decimal_intPart _, Or.inl rfl, Or.inl rfl⟩⟩

/-- The digits denote the number they are written for. -/
theorem digitsValue_decimal (n : Nat) : digitsValue (decimal n) = n := by
  have hdigit : ∀ d < 10, (digitByte d).toNat - 0x30 = d := by decide
  have hfold : ∀ ds : List Nat, (∀ d ∈ ds, d < 10) →
      digitsValue (ds.reverse.map digitByte) = Nat.ofDigits 10 ds := by
    intro ds hds
    induction ds with
    | nil => rfl
    | cons d ds ih =>
        obtain ⟨hd, hrest⟩ := List.forall_mem_cons.mp hds
        have htail := ih hrest
        unfold digitsValue at htail ⊢
        rw [List.reverse_cons, List.map_append, List.foldl_append, htail, List.map_singleton,
          List.foldl_cons, List.foldl_nil, hdigit d hd, Nat.ofDigits_cons]
        omega
  unfold decimal
  by_cases hn : n = 0
  · rw [if_pos hn, hn]
    rfl
  · rw [if_neg hn, hfold _ fun d hd => Nat.digits_lt_base (by omega) hd,
      Nat.ofDigits_digits]

theorem isDigit_of_mem_decimal {n : Nat} : ∀ b ∈ decimal n, IsDigit b := by
  rcases decimal_intPart n with hzero | ⟨d, ds, hsplit, hlow, hhigh, hds⟩
  · rw [hzero]
    exact List.forall_mem_singleton.mpr (by decide)
  · rw [hsplit]
    exact List.forall_mem_cons.mpr ⟨⟨UInt8.le_trans (by decide) hlow, hhigh⟩, hds⟩

/-- A receiver reads a numeral as the number it is written for. -/
theorem numberValue_decimal (n : Nat) : numberValue (decimal n) = n := by
  have htake : (decimal n).takeWhile (fun b => decide (IsDigit b)) = decimal n :=
    List.takeWhile_eq_self_iff.mpr fun b hb => by simpa using isDigit_of_mem_decimal b hb
  have hdrop : (decimal n).dropWhile (fun b => decide (IsDigit b)) = [] :=
    List.dropWhile_eq_nil_iff.mpr fun b hb => by simpa using isDigit_of_mem_decimal b hb
  have hhead : ¬ (decimal n).head? = some 0x2D := by
    intro h
    exact absurd (isDigit_of_mem_decimal _ (List.mem_of_mem_head? h)) (by decide)
  rw [numberValue, if_neg hhead, magnitude, htake, hdrop]
  simp [exponentValue, digitsValue_decimal]

example : toChars (-32001) = ascii "-32001" := by decide

end NativeGuard.Data

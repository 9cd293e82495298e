import Mathlib

/-!
# Decimal numerals

Numerals of equal length are ordered as strings the way their numbers are.
The proof isolates the first digit in which two numerals differ, which also
orders any two texts that share what stands before the numerals.
-/

namespace Rkv.Foundation

def decimal (n : Nat) : List Char := Nat.toDigits 10 n

theorem decimal_injective : Function.Injective decimal := by
  intro n m h
  rw [← Nat.ofDigitChars_ten_toDigits (n := n),
    ← Nat.ofDigitChars_ten_toDigits (n := m)]
  exact congrArg (Nat.ofDigitChars 10 · 0) h

theorem isDigit_of_mem_decimal {n : Nat} {ch : Char} (h : ch ∈ decimal n) :
    ch.isDigit = true :=
  Nat.isDigit_of_mem_toDigits (by decide) (by decide) h

/-- What stands before the last separator and the numeral behind it are both
determined by the text. -/
theorem append_cons_decimal_inj {front back : List Char} {separator : Char}
    (hseparator : separator.isDigit = false) {n m : Nat}
    (h : front ++ separator :: decimal n = back ++ separator :: decimal m) :
    front = back ∧ n = m := by
  -- a longer front would put a separator into a numeral
  have hnone : ∀ {middle : List Char} {k l : Nat},
      separator :: decimal k = middle ++ separator :: decimal l →
        middle = [] ∧ k = l := by
    intro middle k l hsplit
    cases middle with
    | nil =>
        rw [List.nil_append, List.cons.injEq] at hsplit
        exact ⟨rfl, decimal_injective hsplit.2⟩
    | cons ch middle =>
        rw [List.cons_append, List.cons.injEq] at hsplit
        have hmem : separator ∈ decimal k := by simp [hsplit.2]
        rw [isDigit_of_mem_decimal hmem] at hseparator
        contradiction
  rcases List.append_eq_append_iff.mp h with
    ⟨middle, rfl, hsplit⟩ | ⟨middle, rfl, hsplit⟩
  · obtain ⟨rfl, rfl⟩ := hnone hsplit
    simp
  · obtain ⟨rfl, rfl⟩ := hnone hsplit
    simp

theorem decimal_of_lt {n : Nat} (h : n < 10) : decimal n = [n.digitChar] :=
  Nat.toDigits_of_lt_base h

theorem decimal_of_le {n : Nat} (h : 10 ≤ n) :
    decimal n = decimal (n / 10) ++ [(n % 10).digitChar] :=
  Nat.toDigits_of_base_le (by decide) h

private theorem digitChar_lt {n m : Nat} (h : n < m) (hm : m < 10) :
    n.digitChar < m.digitChar := by
  interval_cases m <;> interval_cases n <;> decide

theorem exists_first_difference {n m : Nat} (hlt : n < m)
    (hlen : (decimal n).length = (decimal m).length) :
    ∃ common a b x y, decimal n = common ++ a :: x ∧
      decimal m = common ++ b :: y ∧ a < b := by
  induction n using Nat.strong_induction_on generalizing m with
  | _ n ih =>
      by_cases hn : n < 10
      · by_cases hm : m < 10
        · exact ⟨[], _, _, [], [], decimal_of_lt hn, decimal_of_lt hm,
            digitChar_lt hlt hm⟩
        · have hpos : (decimal (m / 10)) ≠ [] := Nat.toDigits_ne_nil
          have := List.length_pos_iff.mpr hpos
          rw [decimal_of_lt hn, decimal_of_le (by omega)] at hlen
          simp only [List.length_append, List.length_singleton] at hlen
          omega
      · have hn' : 10 ≤ n := by omega
        have hm' : 10 ≤ m := by omega
        rw [decimal_of_le hn', decimal_of_le hm'] at hlen ⊢
        simp only [List.length_append, List.length_singleton,
          Nat.add_right_cancel_iff] at hlen
        rcases (Nat.div_le_div_right hlt.le : n / 10 ≤ m / 10).lt_or_eq with
          hquot | hquot
        · obtain ⟨common, a, b, x, y, hx, hy, hab⟩ :=
            ih (n / 10) (by omega) hquot hlen
          exact ⟨common, a, b, x ++ [(n % 10).digitChar],
            y ++ [(m % 10).digitChar], by simp [hx], by simp [hy], hab⟩
        · refine ⟨decimal (n / 10), _, _, [], [], rfl, by rw [hquot], ?_⟩
          exact digitChar_lt (by omega) (by omega)

/-- Texts around numerals of equal length are ordered as the numbers. -/
theorem append_decimal_le {n m : Nat} (hle : n ≤ m)
    (hlen : (decimal n).length = (decimal m).length) (front back : List Char) :
    front ++ decimal n ++ back ≤ front ++ decimal m ++ back := by
  rcases hle.lt_or_eq with hlt | rfl
  · obtain ⟨common, a, b, x, y, hn, hm, hab⟩ :=
      exists_first_difference hlt hlen
    apply le_of_lt
    rw [hn, hm]
    simp only [List.append_assoc]
    exact List.Lex.append_left _ (List.Lex.append_left _
      (List.Lex.rel hab) common) front
  · exact le_refl _

end Rkv.Foundation

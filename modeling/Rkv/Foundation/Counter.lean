import Mathlib

/-!
# Counters of 64 bits

A counter that goes up by one is greater than before unless it wraps, and while
there is room it counts as a natural number does.
-/

namespace Rkv.Foundation

variable {n : UInt64}

theorem counter_toNat_succ (h : n.toNat + 1 < 2 ^ 64) :
    (n + 1).toNat = n.toNat + 1 := by
  rw [UInt64.toNat_add, UInt64.toNat_one, Nat.mod_eq_of_lt h]

theorem counter_le_succ_iff : n ≤ n + 1 ↔ n.toNat + 1 < 2 ^ 64 := by
  have hbound := n.toNat_lt
  rw [UInt64.le_iff_toNat_le, UInt64.toNat_add, UInt64.toNat_one]
  omega

theorem counter_lt_succ_iff : n < n + 1 ↔ n.toNat + 1 < 2 ^ 64 := by
  have hbound := n.toNat_lt
  rw [UInt64.lt_iff_toNat_lt, UInt64.toNat_add, UInt64.toNat_one]
  omega

theorem counter_succ_eq_zero (h : 18446744073709551615 ≤ n) : n + 1 = 0 := by
  have hlt := n.toNat_lt
  have hlast : (18446744073709551615 : UInt64).toNat = 2 ^ 64 - 1 := by decide
  rw [UInt64.le_iff_toNat_le, hlast] at h
  apply UInt64.toNat_inj.mp
  rw [UInt64.toNat_add, UInt64.toNat_one, UInt64.toNat_zero]
  omega

/-! ## The greater of two counters -/

theorem counter_max_le_iff {m n bound : UInt64} :
    max m n ≤ bound ↔ m ≤ bound ∧ n ≤ bound := by
  change (if m ≤ n then n else m) ≤ bound ↔ _
  simp only [UInt64.le_iff_toNat_le]
  split <;> omega

theorem counter_max_lt_iff {m n bound : UInt64} :
    max m n < bound ↔ m < bound ∧ n < bound := by
  change (if m ≤ n then n else m) < bound ↔ _
  simp only [UInt64.le_iff_toNat_le, UInt64.lt_iff_toNat_lt]
  split <;> omega

theorem counter_max_eq_or (m n : UInt64) : max m n = m ∨ max m n = n := by
  change (if m ≤ n then n else m) = m ∨ (if m ≤ n then n else m) = n
  split
  · exact .inr rfl
  · exact .inl rfl

theorem counter_eq_of_forall_le_iff {m n : UInt64}
    (h : ∀ bound, m ≤ bound ↔ n ≤ bound) : m = n := by
  apply UInt64.le_antisymm
  · exact (h n).mpr (UInt64.le_refl n)
  · exact (h m).mp (UInt64.le_refl m)

end Rkv.Foundation

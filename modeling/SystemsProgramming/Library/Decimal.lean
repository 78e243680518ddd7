import Mathlib.Data.Nat.Digits.Lemmas
import Mathlib.Data.UInt

/-!
# Decimal texts

The texts that `printf` makes of numbers, as bytes: `decimal` for numbers from `0` on, `signed` for
those with a sign.
-/

namespace Decimal

/-- `%lu` -/
def decimal (n : ℕ) : List UInt8 :=
  if n = 0 then [48] else (Nat.digits 10 n).reverse.map fun d => 48 + UInt8.ofNat d

/-- `%ld` -/
def signed (z : ℤ) : List UInt8 := if z < 0 then 45 :: decimal z.natAbs else decimal z.toNat

variable {n k : ℕ} {z : ℤ} {b : UInt8}

@[simp] theorem signed_natCast (n : ℕ) : signed n = decimal n := by
  unfold signed
  rw [if_neg (Int.not_lt.2 (Int.natCast_nonneg n)), Int.toNat_natCast]

theorem signed_of_neg (h : z < 0) : signed z = 45 :: decimal z.natAbs := if_pos h

theorem decimal_ne_nil (n : ℕ) : decimal n ≠ [] := by
  unfold decimal
  by_cases hn : n = 0
  · rw [if_pos hn]
    exact List.cons_ne_nil _ _
  · rw [if_neg hn, ne_eq, List.map_eq_nil_iff, List.reverse_eq_nil_iff]
    exact Nat.digits_ne_nil_iff_ne_zero.2 hn

theorem signed_ne_nil (z : ℤ) : signed z ≠ [] := by
  unfold signed
  split
  · exact List.cons_ne_nil _ _
  · exact decimal_ne_nil _

/-- The bytes of a decimal text are digits. -/
theorem le_of_mem_decimal (h : b ∈ decimal n) : 48 ≤ b.toNat := by
  unfold decimal at h
  by_cases hn : n = 0
  · rw [if_pos hn] at h
    obtain rfl := List.mem_singleton.1 h
    decide
  · rw [if_neg hn, List.mem_map] at h
    obtain ⟨d, hd, rfl⟩ := h
    have hlt : d < 10 := Nat.digits_lt_base (by decide) (List.mem_reverse.1 hd)
    interval_cases d <;> decide

theorem notMem_decimal (hb : b.toNat < 48) (n : ℕ) : b ∉ decimal n := by
  intro h
  have := le_of_mem_decimal h
  omega

theorem zero_notMem_signed (z : ℤ) : 0 ∉ signed z := by
  unfold signed
  split
  · rw [List.mem_cons, not_or]
    exact ⟨by decide, notMem_decimal (by decide) _⟩
  · exact notMem_decimal (by decide) _

/-- A number below `10 ^ k` has `k` digits at most. -/
theorem length_decimal_le (hk : 0 < k) (h : n < 10 ^ k) : (decimal n).length ≤ k := by
  unfold decimal
  by_cases hn : n = 0
  · rw [if_pos hn]
    exact hk
  · rw [if_neg hn, List.length_map, List.length_reverse]
    exact (Nat.digits_length_le_iff (by decide) n).2 h

theorem length_signed_le (hk : 0 < k) (h : z.natAbs < 10 ^ k) : (signed z).length ≤ k + 1 := by
  unfold signed
  split
  · exact Nat.succ_le_succ (length_decimal_le hk h)
  · exact (length_decimal_le hk (by omega)).trans (Nat.le_succ k)

end Decimal

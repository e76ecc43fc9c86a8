import Mathlib.Data.Nat.Basic

/-!
# Decimal numerals
-/

namespace Chessrepeat.Lib

/-- `String(n)` of an integer. -/
def decimal (n : Int) : List Char :=
  if n < 0 then '-' :: Nat.toDigits 10 n.natAbs else Nat.toDigits 10 n.toNat

theorem decimal_natCast (n : Nat) : decimal n = Nat.toDigits 10 n := if_neg (Int.not_lt.mpr (Int.natCast_nonneg n))

theorem minus_not_mem_toDigits (n : Nat) : '-' ∉ Nat.toDigits 10 n := fun h =>
  absurd (Nat.isDigit_of_mem_toDigits (by decide) (by decide) h) (by decide)

theorem toDigits_injective {m n : Nat} (h : Nat.toDigits 10 m = Nat.toDigits 10 n) : m = n := by
  rw [← @Nat.ofDigitChars_ten_toDigits m, h, Nat.ofDigitChars_ten_toDigits]

theorem decimal_injective {m n : Int} (h : decimal m = decimal n) : m = n := by
  rw [decimal, decimal] at h
  split at h
  · split at h
    · have := toDigits_injective (List.cons.inj h).2
      omega
    · exact absurd (h ▸ List.mem_cons_self) (minus_not_mem_toDigits _)
  · split at h
    · exact absurd (h ▸ List.mem_cons_self) (minus_not_mem_toDigits _)
    · have := toDigits_injective h
      omega

theorem length_pad {n : Int} (h0 : 0 ≤ n) (h : n < 100) : ((decimal n).leftpad 2 '0').length = 2 := by
  obtain ⟨k, rfl⟩ := Int.eq_ofNat_of_zero_le h0
  rw [List.length_leftpad, decimal_natCast]
  exact Nat.max_eq_left ((Nat.length_toDigits_le_iff (by decide) (by decide)).mpr (Int.ofNat_lt.mp h))

theorem pad_injective {m n : Int} (hm : 0 ≤ m) (hn : 0 ≤ n)
    (h : (decimal m).leftpad 2 '0' = (decimal n).leftpad 2 '0') : m = n := by
  have hread : ∀ k : Nat, Nat.ofDigitChars 10 ((decimal k).leftpad 2 '0') 0 = k := fun k => by
    rw [List.leftpad, Nat.ofDigitChars_append, Nat.ofDigitChars_replicate_zero, Nat.mul_zero, decimal_natCast,
      Nat.ofDigitChars_ten_toDigits]
  obtain ⟨i, rfl⟩ := Int.eq_ofNat_of_zero_le hm
  obtain ⟨j, rfl⟩ := Int.eq_ofNat_of_zero_le hn
  rw [← hread i, h, hread]

end Chessrepeat.Lib

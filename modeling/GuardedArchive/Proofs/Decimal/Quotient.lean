import GuardedArchive.Limits
import Mathlib.Tactic.SplitIfs

/-!
# Proofs/Decimal/Quotient — the ratio of a size to itself is one

A quotient of equal numbers is exactly one (`Binary64.quotient_self`).  So an entry that takes its
own size in the archive keeps every bound on the ratio that is not below one
(`Limits.checkCompressionRatio_self`).
-/

namespace GuardedArchive

namespace Binary64

/-- The number one. -/
def one : Binary64 := ⟨0x3ff0000000000000⟩

theorem roundHalfEven_mul (q : Nat) {den : Nat} (hden : 0 < den) :
    roundHalfEven (q * den) den = q := by
  rw [roundHalfEven, Nat.mul_div_cancel q hden, Nat.mul_mod_left]
  exact if_pos hden

theorem div_le_roundHalfEven (num den : Nat) : num / den ≤ roundHalfEven num den := by
  rw [roundHalfEven]
  split_ifs <;> omega

theorem nearestNat_pos {n : Nat} (h : 0 < n) : 0 < nearestNat n := by
  rw [nearestNat]
  split
  · exact h
  · have hplace : 2 ^ (n.log2 - 52) ≤ n :=
      Nat.le_trans (Nat.pow_le_pow_right (by decide) (Nat.sub_le _ _))
        (Nat.log2_self_le (Nat.pos_iff_ne_zero.mp h))
    have hdiv : 0 < n / 2 ^ (n.log2 - 52) := Nat.div_pos hplace (Nat.pow_pos (by decide))
    dsimp only
    rw [Nat.shiftLeft_eq, Nat.shiftLeft_eq, Nat.one_mul]
    exact Nat.mul_pos (Nat.lt_of_lt_of_le hdiv (div_le_roundHalfEven _ _))
      (Nat.pow_pos (by decide))

theorem placeOf_self (n : Nat) : placeOf n n = -52 := by
  have hguess : (n.log2 : Int) - n.log2 - 52 = -52 := by omega
  have hfits : exponentWeight * n ≤ n <<< 52 := by
    rw [Nat.shiftLeft_eq, Nat.mul_comm]
    exact Nat.le_refl (n * 2 ^ 52)
  rw [placeOf, hguess]
  simp only [show ¬(0 : Int) ≤ -52 by decide, if_false, Int.neg_neg]
  rw [show (52 : Int).toNat = 52 from rfl, if_pos hfits]
  decide

/-- **A quotient of equal numbers is one.** -/
theorem quotient_self {n : Nat} (h : 0 < n) : quotient n n = one := by
  have hm := nearestNat_pos h
  rw [quotient]
  generalize nearestNat n = m at hm ⊢
  have hsignificand : roundHalfEven (m <<< 52) m = exponentWeight := by
    rw [Nat.shiftLeft_eq, Nat.mul_comm]
    exact roundHalfEven_mul _ hm
  rw [ofRatio, if_neg (Nat.pos_iff_ne_zero.mp hm), placeOf_self]
  simp only [show ¬(0 : Int) ≤ -52 by decide, if_false, Int.neg_neg]
  rw [show (52 : Int).toNat = 52 from rfl, hsignificand]
  decide

end Binary64

/-- **A size keeps every bound on its ratio to itself** that is not below one. -/
theorem Limits.checkCompressionRatio_self {limits : Limits}
    (h : limits.maxCompressionRatio.lt Binary64.one = false) (name : String) (size : Nat) :
    limits.checkCompressionRatio name size size = .ok () := by
  rw [checkCompressionRatio]
  split
  · rfl
  next hsize =>
    rw [Binary64.quotient_self (Nat.pos_of_ne_zero hsize)]
    exact if_neg (Bool.eq_false_iff.mp h)

end GuardedArchive

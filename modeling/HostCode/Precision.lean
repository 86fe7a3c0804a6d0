/-! # Precision

Numbers are kept exactly, or to 53 significant bits. A number between two that can be kept
goes to the nearer one, and halfway to the even one.
-/

namespace HostCode

inductive Precision
  /-- Whole numbers of any size. -/
  | exact
  /-- Numbers of 53 significant bits, and counts modulo 2 ^ 64. -/
  | double
  deriving DecidableEq, Repr

namespace Precision

def significantBits : Nat := 53

/-- The multiple of `unit` that is nearest to a number, and the even one of two. -/
def nearestMultiple (unit n : Nat) : Nat :=
  let quotient := n / unit
  let twice := 2 * (n % unit)
  if unit < twice ∨ (twice = unit ∧ quotient % 2 = 1) then (quotient + 1) * unit
  else quotient * unit

def nearestNat (n : Nat) : Nat := nearestMultiple (1 <<< (n.log2 + 1 - significantBits)) n

/-- The nearest number of 53 significant bits. -/
def nearest : Int → Int
  | .ofNat n => nearestNat n
  | .negSucc n => -nearestNat (n + 1)

/-- Numbers of 53 significant bits. -/
def Represents (i : Int) : Prop :=
  ∃ significand exponent, significand < 1 <<< significantBits ∧
    i.natAbs = significand <<< exponent

theorem nearestMultiple_eq_self_iff {unit : Nat} (hunit : 0 < unit) (n : Nat) :
    nearestMultiple unit n = n ↔ unit ∣ n := by
  simp only [nearestMultiple]
  constructor
  · intro h
    rw [← h]
    split
    · exact Nat.dvd_mul_left ..
    · exact Nat.dvd_mul_left ..
  · intro h
    rw [Nat.mod_eq_zero_of_dvd h, if_neg (by omega), Nat.div_mul_cancel h]

theorem nearestNat_eq_self_iff (n : Nat) : nearestNat n = n ↔ Represents n := by
  rw [nearestNat, nearestMultiple_eq_self_iff (Nat.shiftLeft_pos_iff.mpr Nat.one_pos),
    Represents, Int.natAbs_natCast]
  constructor
  · intro h
    refine ⟨n / 1 <<< (n.log2 + 1 - significantBits), n.log2 + 1 - significantBits, ?_, ?_⟩
    · refine Nat.div_lt_of_lt_mul (Nat.lt_of_lt_of_le Nat.lt_log2_self ?_)
      rw [Nat.one_shiftLeft, Nat.one_shiftLeft, ← Nat.pow_add]
      exact Nat.pow_le_pow_right (by omega) (by omega)
    · rw [Nat.shiftLeft_eq, ← Nat.one_shiftLeft, Nat.div_mul_cancel h]
  · rintro ⟨significand, exponent, hlt, rfl⟩
    by_cases hzero : significand = 0
    · simp [hzero]
    -- All bits above the exponent are significant, so the unit is no larger than it.
    · have hlog : (significand <<< exponent).log2 < significantBits + exponent := by
        refine (Nat.log2_lt (Nat.ne_of_gt (Nat.shiftLeft_pos_iff.mpr (by omega)))).mpr ?_
        rw [Nat.shiftLeft_eq, Nat.pow_add]
        rw [Nat.one_shiftLeft] at hlt
        exact Nat.mul_lt_mul_of_pos_right hlt (Nat.two_pow_pos exponent)
      rw [Nat.one_shiftLeft, Nat.shiftLeft_eq significand]
      rw [Nat.shiftLeft_eq] at hlog
      exact Nat.dvd_trans (Nat.pow_dvd_pow 2 (by omega)) (Nat.dvd_mul_left ..)

/-- Exactly the numbers of 53 significant bits are kept as they are. -/
theorem nearest_eq_self_iff (i : Int) : nearest i = i ↔ Represents i := by
  cases i with
  | ofNat n => exact Int.natCast_inj.trans (nearestNat_eq_self_iff n)
  | negSucc n =>
    rw [nearest, Int.negSucc_eq, Int.neg_inj, ← Int.natCast_add_one, Int.natCast_inj,
      nearestNat_eq_self_iff, Represents, Represents, Int.natAbs_neg]

instance : DecidablePred Represents := fun i => decidable_of_iff _ (nearest_eq_self_iff i)

theorem represents_of_natAbs_le {i : Int} (h : i.natAbs ≤ 0x20000000000000) : Represents i := by
  rcases Nat.lt_or_eq_of_le h with hlt | heq
  · exact ⟨i.natAbs, 0, hlt, rfl⟩
  · exact ⟨1, significantBits, by decide, heq⟩

theorem nearest_nonneg {i : Int} (h : 0 ≤ i) : 0 ≤ nearest i := by
  obtain ⟨n, rfl⟩ := Int.eq_ofNat_of_zero_le h
  exact Int.natCast_nonneg _

end Precision

end HostCode

import Vash.Core.Decimal

/-!
# Integers as floating-point numbers

`i64 as f64` rounds to the nearest number with 53 significant bits, and to the even one
of two nearest. The conversion keeps the order of numbers it keeps apart
(`F64.ofInt_lt_iff`).
-/

namespace Vash

/-- A quotient rounded to the nearest integer, to the even one of two. -/
def roundHalfEven (m d : Nat) : Nat :=
  if 2 * (m % d) > d ∨ 2 * (m % d) = d ∧ m / d % 2 = 1 then m / d + 1 else m / d

/-- The significand of a positive number, with its 53 bits. -/
def significand (m : Nat) : Nat :=
  if m.log2 ≤ 52 then m * 2 ^ (52 - m.log2) else roundHalfEven m (2 ^ (m.log2 - 52))

/-- The bits of the magnitude of a double. A significand that is rounded up to `2 ^ 53`
carries into the exponent. -/
def magnitudeBits (m : Nat) : Nat :=
  if m = 0 then 0 else (1022 + m.log2) * 2 ^ 52 + significand m

/-- `i64 as f64`. -/
def F64.ofInt (n : Int) : F64 :=
  ⟨(magnitudeBits n.natAbs + if n < 0 then 2 ^ 63 else 0).toUInt64⟩

/-! ### Rounding -/

theorem le_roundHalfEven (m d : Nat) : m / d ≤ roundHalfEven m d := by
  unfold roundHalfEven
  split <;> omega

theorem roundHalfEven_le (m d : Nat) : roundHalfEven m d ≤ m / d + 1 := by
  unfold roundHalfEven
  split <;> omega

theorem roundHalfEven_mono {m n : Nat} (d : Nat) (le : m ≤ n) :
    roundHalfEven m d ≤ roundHalfEven n d := by
  rcases (Nat.div_le_div_right (c := d) le).lt_or_eq with below | same
  · exact (roundHalfEven_le m d).trans (Nat.le_trans below (le_roundHalfEven n d))
  · have rest : m % d ≤ n % d := by
      have := Nat.div_add_mod m d
      have := Nat.div_add_mod n d
      rw [same] at *
      omega
    unfold roundHalfEven
    rw [same]
    split <;> split <;> omega

/-! ### Significands -/

theorem significand_bounds {m : Nat} (positive : m ≠ 0) :
    2 ^ 52 ≤ significand m ∧ significand m ≤ 2 ^ 53 := by
  have low := Nat.log2_self_le positive
  have high := Nat.lt_log2_self (n := m)
  unfold significand
  split
  · rename_i few
    have down := Nat.mul_le_mul_right (2 ^ (52 - m.log2)) low
    have up := Nat.mul_le_mul_right (2 ^ (52 - m.log2)) high.le
    rw [← pow_add] at down up
    rw [show m.log2 + (52 - m.log2) = 52 by omega] at down
    rw [show m.log2 + 1 + (52 - m.log2) = 53 by omega] at up
    exact ⟨down, up⟩
  · rename_i many
    have scale : 0 < 2 ^ (m.log2 - 52) := Nat.two_pow_pos _
    have down : 2 ^ 52 ≤ m / 2 ^ (m.log2 - 52) := by
      rw [Nat.le_div_iff_mul_le scale, ← pow_add, show 52 + (m.log2 - 52) = m.log2 by omega]
      exact low
    have up : m / 2 ^ (m.log2 - 52) < 2 ^ 53 := by
      rw [Nat.div_lt_iff_lt_mul scale, ← pow_add,
        show 53 + (m.log2 - 52) = m.log2 + 1 by omega]
      exact high
    exact ⟨down.trans (le_roundHalfEven _ _), (roundHalfEven_le _ _).trans up⟩

theorem significand_mono {m n : Nat} (le : m ≤ n) (same : m.log2 = n.log2) :
    significand m ≤ significand n := by
  unfold significand
  rw [same]
  split
  · exact Nat.mul_le_mul_right _ le
  · exact roundHalfEven_mono _ le

/-! ### The conversion -/

theorem magnitudeBits_mono {m n : Nat} (le : m ≤ n) : magnitudeBits m ≤ magnitudeBits n := by
  rcases Nat.eq_zero_or_pos m with rfl | positive
  · exact Nat.zero_le _
  have exponents : m.log2 ≤ n.log2 :=
    (Nat.le_log2 (by omega)).mpr ((Nat.log2_self_le positive.ne').trans le)
  rw [magnitudeBits, if_neg positive.ne', magnitudeBits, if_neg (by omega)]
  rcases exponents.lt_or_eq with smaller | same
  · have := (significand_bounds positive.ne').2
    have := (significand_bounds (m := n) (by omega)).1
    have := Nat.mul_le_mul_right (2 ^ 52) (show 1022 + m.log2 + 1 ≤ 1022 + n.log2 by omega)
    omega
  · have := significand_mono le same
    rw [same]
    omega

theorem magnitudeBits_pos {m : Nat} (positive : m ≠ 0) : 0 < magnitudeBits m := by
  have := (significand_bounds positive).1
  rw [magnitudeBits, if_neg positive]
  omega

/-- The magnitude of an `i64` is a finite double. -/
theorem magnitudeBits_lt {m : Nat} (fits : m ≤ 2 ^ 63) : magnitudeBits m < F64.infinityBits :=
  calc magnitudeBits m ≤ magnitudeBits (2 ^ 63) := magnitudeBits_mono fits
    _ < F64.infinityBits := by decide

namespace F64

theorem magnitudeBits_natAbs_lt {n : Int} (fits : IsI64 n) :
    magnitudeBits n.natAbs < infinityBits := by
  unfold IsI64 i64Min i64Max at fits
  exact magnitudeBits_lt (by omega)

theorem ofInt_toNat {n : Int} (fits : IsI64 n) : (ofInt n).bits.toNat =
    magnitudeBits n.natAbs + if n < 0 then 2 ^ 63 else 0 := by
  have small := magnitudeBits_natAbs_lt fits
  unfold infinityBits at small
  simp only [ofInt, Nat.toUInt64_eq, UInt64.toNat_ofNat']
  split <;> omega

theorem magnitude_ofInt {n : Int} (fits : IsI64 n) :
    (ofInt n).magnitude = magnitudeBits n.natAbs := by
  have small := magnitudeBits_natAbs_lt fits
  unfold infinityBits at small
  rw [magnitude, ofInt_toNat fits]
  split <;> omega

theorem isNan_ofInt {n : Int} (fits : IsI64 n) : (ofInt n).isNan = false := by
  rw [isNan, magnitude_ofInt fits]
  exact decide_eq_false (magnitudeBits_natAbs_lt fits).le.not_gt

/-- The rank of a converted number has its sign. -/
theorem rank_ofInt {n : Int} (fits : IsI64 n) : (ofInt n).rank =
    if n < 0 then -(magnitudeBits n.natAbs : Int) else magnitudeBits n.natAbs := by
  have small := magnitudeBits_natAbs_lt fits
  unfold infinityBits at small
  have sign : (ofInt n).isNegative = decide (n < 0) := by
    rw [isNegative, ofInt_toNat fits]
    split <;> simp <;> omega
  rw [rank, magnitude_ofInt fits, sign]
  simp only [decide_eq_true_eq]

/-- The conversion keeps the order, though not strictly. -/
theorem rank_ofInt_mono {a b : Int} (fitsA : IsI64 a) (fitsB : IsI64 b) (le : a ≤ b) :
    (ofInt a).rank ≤ (ofInt b).rank := by
  rw [rank_ofInt fitsA, rank_ofInt fitsB]
  split <;> split
  · have := magnitudeBits_mono (show b.natAbs ≤ a.natAbs by omega)
    omega
  · omega
  · omega
  · have := magnitudeBits_mono (show a.natAbs ≤ b.natAbs by omega)
    omega

theorem ofInt_eq_of_rank {a b : Int} (fitsA : IsI64 a) (fitsB : IsI64 b)
    (same : (ofInt a).rank = (ofInt b).rank) : ofInt a = ofInt b := by
  have positive : ∀ n : Int, n < 0 → 0 < magnitudeBits n.natAbs := fun n negative =>
    magnitudeBits_pos (by omega)
  rw [rank_ofInt fitsA, rank_ofInt fitsB] at same
  have bits : (magnitudeBits a.natAbs + if a < 0 then 2 ^ 63 else 0) =
      magnitudeBits b.natAbs + if b < 0 then 2 ^ 63 else 0 := by
    have := positive a
    have := positive b
    split_ifs at same ⊢ <;> omega
  rw [ofInt, ofInt, bits]

/-- Two integers compare as doubles as they do themselves, unless they are one double. -/
theorem ofInt_lt_iff {a b : Int} (fitsA : IsI64 a) (fitsB : IsI64 b) :
    (ofInt a).lt (ofInt b) = true ↔ a < b ∧ ofInt a ≠ ofInt b := by
  simp only [lt, isNan_ofInt fitsA, isNan_ofInt fitsB, Bool.not_false, Bool.true_and,
    decide_eq_true_eq]
  constructor
  · intro below
    refine ⟨?_, fun same => ?_⟩
    · by_contra above
      exact absurd (rank_ofInt_mono fitsB fitsA (not_lt.mp above)) (not_le.mpr below)
    · rw [same] at below
      exact lt_irrefl _ below
  · rintro ⟨below, other⟩
    exact (rank_ofInt_mono fitsA fitsB below.le).lt_of_ne
      fun same => other (ofInt_eq_of_rank fitsA fitsB same)

end F64

end Vash

import GoldenRecord.Proofs.Binary64.Rational
import GoldenRecord.Proofs.Coordinate

namespace GoldenRecord

namespace Coordinate

open Binary64

/-- The multiple of 1/10000 nearest to a number, by its count; an even one if there are two. -/
def IsNearestMultiple (k : ℤ) (q : ℚ) : Prop :=
  IsNearest (fun k : ℤ => (k / 10000 : ℚ)) Even q k

theorem scale_eq : (scale : ℚ) = 10000 := by norm_num [scale, decimals]

theorem tenThousandths_isNearest (x : Finite) :
    IsNearestMultiple (withSign x.negative (tenThousandths x)) x.toRat := by
  have hscale : (0 : ℚ) < (unitsPerOne * scale : Nat) :=
    Nat.cast_pos.mpr (Nat.mul_pos unitsPerOne_pos scale_pos)
  have hpoint : ∀ (negative : Bool) (k : Nat), ((withSign negative k : ℤ) / 10000 : ℚ) =
      withSign negative (k * unitsPerOne) / (unitsPerOne * scale : Nat) := by
    intro negative k
    rw [← scale_eq, withSign_div negative k unitsPerOne_pos, Nat.mul_comm unitsPerOne]
  have hnear := fun k : ℤ => divNearest_nearest (n := x.units * scale) unitsPerOne_pos k.natAbs
  unfold IsNearestMultiple
  rw [toRat_eq, withSign_div x.negative x.units scale_pos]
  refine isNearest_of_magnitude (fun k : ℤ => k.natAbs * unitsPerOne) hscale (fun k => ?_) ?_
    ⟨0, Nat.zero_mul _⟩ (fun k => ?_) fun k hne heq => ?_
  · refine ⟨decide (k < 0), ?_⟩
    rw [← hpoint, withSign_natAbs]
  · rw [natAbs_withSign]
    exact hpoint x.negative (tenThousandths x)
  · rw [natAbs_withSign]
    exact (hnear k).1
  · rw [natAbs_withSign] at hne heq
    have heven := (hnear k).2 (fun hsame => hne (congrArg (· * unitsPerOne) hsame)) heq
    rw [← Int.natAbs_even, natAbs_withSign, Nat.even_iff]
    exact heven

theorem isNearestMultiple_unique {q : ℚ} {j k : ℤ} (hj : IsNearestMultiple j q)
    (hk : IsNearestMultiple k q) : j = k := by
  have hbetween : ∀ j k : ℤ, Even j → Even k → (j / 10000 : ℚ) < k / 10000 →
      ∃ m : ℤ, (j / 10000 : ℚ) < m / 10000 ∧ (m / 10000 : ℚ) < k / 10000 := by
    intro j k hj hk hlt
    have hpos : (0 : ℚ) < 10000 := by norm_num
    simp only [div_lt_div_iff_of_pos_right hpos, Int.cast_lt] at hlt ⊢
    rw [Int.even_iff] at hj hk
    exact ⟨j + 1, by omega, by omega⟩
  have hvalue := IsNearest.unique hbetween hj hk
  exact_mod_cast (div_left_inj' (by norm_num : (10000 : ℚ) ≠ 0)).mp hvalue

/-- A rounded number is the double nearest to the nearest multiple. -/
theorem rounded_isNearest (x : Finite) :
    (rounded x).IsNearest ((withSign x.negative (tenThousandths x) : ℤ) / 10000) := by
  have hratio : ofRatio x.negative (tenThousandths x) scale =
      .finite ⟨x.negative, roundedRank x, roundedRank_lt x⟩ := dif_pos (roundedRank_lt x)
  have hnear := ofRatio_isNearest scale_pos hratio
  rw [scale_eq] at hnear
  exact isNearest_unsignedZero hnear

theorem roundValue_finite (x : Finite) : roundValue (.finite x) = some (.finite (rounded x)) :=
  congrArg some (roundFinite_eq x)

theorem rounded_negative {x : Finite} (h : (rounded x).toRat = 0) : (rounded x).negative = false :=
  unsignedZero_negative (toRat_eq_zero_iff.mp h)

/-- Rounding is exact decimal rounding: a finite number goes to the double nearest to the multiple of
1/10000 nearest to it, both ties going to even, and a zero among the results has no sign. That double
is the only one. A NaN or an infinity is not rounded. -/
theorem roundValue_nearest :
    (∀ x r : Finite, roundValue (.finite x) = some (.finite r) ↔
      (∃ k : ℤ, IsNearestMultiple k x.toRat ∧ r.IsNearest (k / 10000)) ∧
        (r.toRat = 0 → r.negative = false)) ∧
    (∀ x : Finite, ∃ r : Finite, roundValue (.finite x) = some (.finite r)) ∧
    (∀ negative, roundValue (.infinite negative) = none) ∧ roundValue .nan = none := by
  refine ⟨fun x r => ⟨?_, ?_⟩, fun x => ⟨_, roundValue_finite x⟩, fun _ => rfl, rfl⟩
  · intro h
    rw [roundValue_finite] at h
    cases h
    exact ⟨⟨_, tenThousandths_isNearest x, rounded_isNearest x⟩, rounded_negative⟩
  · rintro ⟨⟨k, hk, hr⟩, hzero⟩
    obtain rfl := isNearestMultiple_unique hk (tenThousandths_isNearest x)
    have hvalue := isNearest_unique hr (rounded_isNearest x)
    rw [roundValue_finite, eq_of_toRat hvalue fun h => (hzero h).trans (rounded_negative (hvalue ▸ h)).symm]

/-- The number 1/32 is half a ten-thousandth away from 0.0312 and from 0.0313. -/
theorem roundValue_of_tie :
    let x : Finite := ⟨false, 4584664420663164928, by decide⟩
    let r : Finite := ⟨false, 4584650009144357342, by decide⟩
    roundValue (.finite x) = some (.finite r) ∧
      (∃ k : ℤ, IsNearestMultiple k x.toRat ∧ r.IsNearest (k / 10000)) ∧ r.negative = false := by
  intro x r
  have hround : roundValue (.finite x) = some (.finite r) := by decide +kernel
  exact ⟨hround, ((roundValue_nearest.1 x r).mp hround).1, rfl⟩

/-- The rounded negative is the negative of the rounded number; a zero stays without sign. -/
theorem rounded_neg (x : Finite) : rounded x.neg = (rounded x).neg.unsignedZero :=
  (neg_unsignedZero (Finite.mk x.negative (roundedRank x) (roundedRank_lt x))).symm

/-- Rounding preserves order and, up to the sign of zero, negation. -/
theorem roundValue_mono :
    (∀ x y : Finite, x.toRat ≤ y.toRat → ∃ a b : Finite,
      roundValue (.finite x) = some (.finite a) ∧ roundValue (.finite y) = some (.finite b) ∧
        a.toRat ≤ b.toRat) ∧
    ∀ x : Finite, ∃ a : Finite, roundValue (.finite x) = some (.finite a) ∧
      roundValue (.finite x.neg) = some (.finite a.neg.unsignedZero) ∧
        a.neg.unsignedZero.toRat = -a.toRat := by
  constructor
  · intro x y h
    exact ⟨_, _, roundValue_finite x, roundValue_finite y,
      toRat_le_iff.mpr (rounded_mono (toRat_le_iff.mp h))⟩
  · intro x
    refine ⟨_, roundValue_finite x, ?_, ?_⟩
    · rw [roundValue_finite, rounded_neg]
    · rw [toRat_unsignedZero, toRat_neg]

/-- Between 0.30005 and the next double lies a tie. -/
theorem roundValue_mono_at_tie :
    let x : Finite := ⟨false, 4599076840190675989, by decide⟩
    let y : Finite := ⟨false, 4599076840190675990, by decide⟩
    x.toRat ≤ y.toRat ∧ ∃ a b : Finite,
      roundValue (.finite x) = some (.finite a) ∧ roundValue (.finite y) = some (.finite b) ∧
        a.toRat ≤ b.toRat := by
  intro x y
  have hle : x.toRat ≤ y.toRat := toRat_le_iff.mpr (by decide +kernel)
  exact ⟨hle, roundValue_mono.1 x y hle⟩

end Coordinate

end GoldenRecord

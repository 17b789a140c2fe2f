import GoldenRecord.Proofs.Binary64.Rational
import GoldenRecord.Proofs.Binary64.Shortest
import Mathlib.Algebra.Order.Field.Power

namespace GoldenRecord

namespace Binary64

variable {n d : Nat}

/-- Magnitudes from here on are read as infinite: half a step beyond the largest double. -/
def overflow : ℚ :=
  (Finite.unitsOf (rankBound - 1) + Finite.unitsOf rankBound : Nat) / (2 * unitsPerOne : Nat)

theorem nearestRank_lt_rankBound_iff (hd : 0 < d) : nearestRank n d < rankBound ↔
    2 * n < (Finite.unitsOf (rankBound - 1) + Finite.unitsOf rankBound) * d := by
  obtain ⟨b, hb⟩ : ∃ b, b = 2045 := ⟨_, rfl⟩
  obtain ⟨m, hm⟩ : ∃ m, m = 9007199254740991 := ⟨_, rfl⟩
  have hsize : binadeSize = 4503599627370496 := by decide
  have hbound : rankBound = b * binadeSize + (m + 1) := by rw [hb, hm]; decide
  have hlast : rankBound - 1 = b * binadeSize + m := by omega
  have hunits : Finite.unitsOf (b * binadeSize + m) = m * 2 ^ b :=
    unitsOf_binade (by omega) (by omega)
  have hnext : Finite.unitsOf (b * binadeSize + (m + 1)) = (m + 1) * 2 ^ b :=
    unitsOf_binade (by omega) (by omega)
  have hend : (m * 2 ^ b + (m + 1) * 2 ^ b) * d = 2 * (m * (d * 2 ^ b)) + d * 2 ^ b := by ring
  have hreach : Finite.unitsOf (b * binadeSize + m) * d = m * (d * 2 ^ b) := by
    rw [hunits]
    ring
  rw [hlast, hbound, hunits, hnext, hend]
  constructor
  · intro h
    by_contra hbeyond
    have hge : b * binadeSize + m ≤ nearestRank n d := le_nearestRank hd (by omega)
    have hrank : nearestRank n d = b * binadeSize + m := by omega
    obtain ⟨hup, -, htie⟩ := half_step_of_nearestRank hd (by omega) (by omega) hrank
    -- the largest significand is odd, so a tie behind it is rounded up and out of range
    have heven := htie (by omega)
    omega
  · intro h
    by_cases hle : n ≤ m * (d * 2 ^ b)
    · have hrank : nearestRank n d ≤ b * binadeSize + m := nearestRank_le hd (by omega)
      omega
    · have hrank : nearestRank n d = b * binadeSize + m :=
        nearestRank_of_half_step hd (by omega) (by omega) (by omega) (by omega) (by omega) (by omega)
      omega

end Binary64

namespace Finite

open Binary64

/-- What a correctly rounded reader takes a number for. -/
structure IsReadFrom (x : Finite) (q : ℚ) : Prop where
  nearest : x.IsNearest q
  inRange : |q| < overflow

end Finite

namespace Binary64

variable {n d : Nat} {negative : Bool} {x : Finite}

theorem abs_withSign_div (negative : Bool) (n d : Nat) : |(withSign negative n / d : ℚ)| = n / d := by
  rw [abs_div, ← Int.cast_abs, Int.abs_eq_natAbs, natAbs_withSign, Nat.abs_cast, Int.cast_natCast]

theorem abs_lt_overflow_iff (hd : 0 < d) :
    |(withSign negative n / d : ℚ)| < overflow ↔ nearestRank (n * unitsPerOne) d < rankBound := by
  have hden : (0 : ℚ) < d := Nat.cast_pos.mpr hd
  have hunit : (0 : ℚ) < (2 * unitsPerOne : Nat) :=
    Nat.cast_pos.mpr (Nat.mul_pos Nat.two_pos unitsPerOne_pos)
  rw [nearestRank_lt_rankBound_iff hd, abs_withSign_div]
  unfold overflow
  rw [div_lt_div_iff₀ hden hunit, Nat.mul_left_comm]
  norm_cast

theorem ofRank_eq_finite_iff {r : Nat} : ofRank x.negative r = .finite x ↔ r = x.rank := by
  constructor
  · intro h
    unfold ofRank at h
    split at h
    next => exact congrArg Finite.rank (Binary64.finite.inj h)
    next => cases h
  · intro h
    rw [h, ofRank_rank]

theorem ofRatio_of_inRange (hd : 0 < d) (h : |(withSign negative n / d : ℚ)| < overflow) :
    ∃ y, ofRatio negative n d = .finite y := by
  have hrank := (abs_lt_overflow_iff hd).mp h
  exact ⟨⟨negative, nearestRank (n * unitsPerOne) d, hrank⟩, dif_pos hrank⟩

theorem nearestRank_of_isReadFrom (hd : 0 < d) (h : x.IsReadFrom (withSign negative n / d)) :
    nearestRank (n * unitsPerOne) d = x.rank := by
  obtain ⟨y, hy⟩ := ofRatio_of_inRange hd h.inRange
  have hsame := isNearest_unique (ofRatio_isNearest hd hy) h.nearest
  rw [← rank_eq_of_toRat hsame, (ofRatio_eq_finite hy).2]

theorem ofRatio_eq_finite_iff (hd : 0 < d) : ofRatio negative n d = .finite x ↔
    x.negative = negative ∧ x.IsReadFrom (withSign negative n / d) := by
  constructor
  · intro h
    obtain ⟨hnegative, hrank⟩ := ofRatio_eq_finite h
    have hlt : nearestRank (n * unitsPerOne) d < rankBound := hrank ▸ x.rank_lt
    exact ⟨hnegative, ofRatio_isNearest hd h, (abs_lt_overflow_iff hd).mpr hlt⟩
  · rintro ⟨rfl, h⟩
    unfold ofRatio
    rw [nearestRank_of_isReadFrom hd h, ofRank_rank]

end Binary64

namespace Decimal

open Binary64

variable {d d' : Decimal} {x : Finite}

def toRat (d : Decimal) : ℚ := d.coefficient * 10 ^ d.exponent

def rank (d : Decimal) : Nat :=
  nearestRank (d.coefficient * 10 ^ d.exponent.toNat * unitsPerOne) (10 ^ (-d.exponent).toNat)

theorem ofDecimal_eq_ofRank (negative : Bool) (d : Decimal) :
    ofDecimal negative d.coefficient d.exponent = ofRank negative d.rank :=
  ofDecimal_eq negative d.coefficient d.exponent

theorem toRat_eq (d : Decimal) :
    d.toRat = (d.coefficient * 10 ^ d.exponent.toNat : Nat) / (10 ^ (-d.exponent).toNat : Nat) := by
  obtain ⟨c, e⟩ := d
  unfold toRat
  rcases Int.le_total 0 e with he | he
  · obtain ⟨k, rfl⟩ := Int.eq_ofNat_of_zero_le he
    simp
  · obtain ⟨k, rfl⟩ : ∃ k : Nat, e = -k := ⟨(-e).toNat, by omega⟩
    simp [div_eq_mul_inv]

theorem rank_mono (h : d.toRat ≤ d'.toRat) : d.rank ≤ d'.rank := by
  have hden (d : Decimal) : 0 < 10 ^ (-d.exponent).toNat := Nat.pow_pos (by decide)
  rw [toRat_eq, toRat_eq, div_le_div_iff₀ (Nat.cast_pos.mpr (hden d)) (Nat.cast_pos.mpr (hden d'))]
    at h
  have hcross : d.coefficient * 10 ^ d.exponent.toNat * 10 ^ (-d'.exponent).toNat ≤
      d'.coefficient * 10 ^ d'.exponent.toNat * 10 ^ (-d.exponent).toNat := by exact_mod_cast h
  refine nearestRank_mono (hden d) (hden d') ?_
  rw [Nat.mul_right_comm, Nat.mul_right_comm _ unitsPerOne]
  exact Nat.mul_le_mul_right _ hcross

/-- With the sign of the double, the decimal is read to it. -/
def IsReadTo (d : Decimal) (x : Finite) : Prop :=
  ofDecimal x.negative d.coefficient d.exponent = .finite x

theorem isReadTo_iff : d.IsReadTo x ↔ d.rank = x.rank := by
  unfold IsReadTo
  rw [ofDecimal_eq_ofRank, ofRank_eq_finite_iff]

/-- What lies between two decimals that are read to a double is read to it as well. -/
theorem IsReadTo.between {low up : Decimal} (hlow : low.IsReadTo x) (hup : up.IsReadTo x)
    (hle : low.toRat ≤ d.toRat) (hge : d.toRat ≤ up.toRat) : d.IsReadTo x := by
  rw [isReadTo_iff] at hlow hup ⊢
  have := rank_mono hle
  have := rank_mono hge
  omega

theorem withSign_mul_zpow (negative : Bool) (d : Decimal) :
    (withSign negative d.coefficient * 10 ^ d.exponent : ℚ) =
      withSign negative (d.coefficient * 10 ^ d.exponent.toNat) /
        (10 ^ (-d.exponent).toNat : Nat) := by
  have hmagnitude := toRat_eq d
  unfold toRat at hmagnitude
  unfold withSign
  cases negative
  · simpa using hmagnitude
  · simpa [neg_div] using hmagnitude

/-- Decimals are read with correct rounding. -/
theorem isReadTo_iff_isReadFrom :
    d.IsReadTo x ↔ x.IsReadFrom (withSign x.negative d.coefficient * 10 ^ d.exponent) := by
  have hden : 0 < 10 ^ (-d.exponent).toNat := Nat.pow_pos (by decide)
  have hratio : ofRatio x.negative (d.coefficient * 10 ^ d.exponent.toNat)
      (10 ^ (-d.exponent).toNat) = .finite x ↔ _ := ofRatio_eq_finite_iff hden
  rw [withSign_mul_zpow]
  unfold IsReadTo
  rw [ofDecimal_eq]
  exact hratio.trans (and_iff_right rfl)

end Decimal

end GoldenRecord

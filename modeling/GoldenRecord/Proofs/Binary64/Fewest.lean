import GoldenRecord.Binary64.Text
import GoldenRecord.Proofs.Binary64.Reading

namespace GoldenRecord

namespace Finite

open Binary64

variable {rank n : Nat}

/-- The power `10^-323` is a little more than twice the smallest double. -/
theorem decimalUnitsPerUnit_bounds {p : Nat} (hp : p = 751) :
    2 * decimalUnitsPerUnit < 10 ^ p ∧ 40 * 10 ^ p < 81 * decimalUnitsPerUnit := by
  obtain ⟨k, hk⟩ : ∃ k, k = 1074 := ⟨_, rfl⟩
  rw [decimalUnitsPerUnit_eq hk, hp, hk]
  decide +kernel

/-- A power of ten that is read back to a double below it is near. From a significand of ten on, half a
step is little enough. Below that, `10^-323` is the only such power. -/
theorem power_near_of_readsBack (hrank : rank ≠ 0) (h : readsBack rank n 1 = true)
    (hbelow : decimalUnits rank < 10 ^ n) : 19 * 10 ^ n < 20 * decimalUnits rank := by
  obtain ⟨b, m, hr, hm, hb, hv⟩ := exists_binade_decimalUnits rank
  have hread := readsBack_iff.mp h
  rw [hr] at hread
  have hup := (half_step_of_nearestRank decimalUnitsPerUnit_pos hm hb hread).1
  have hpositive : 0 < decimalUnitsPerUnit * 2 ^ b :=
    Nat.mul_pos decimalUnitsPerUnit_pos (Nat.two_pow_pos b)
  rw [← hv] at hbelow ⊢
  rcases Nat.lt_or_ge m 10 with hsmall | hlarge
  · -- a lower power than `10^-323` is not above the double, a higher one is not read back to it
    have hsize : binadeSize = 4503599627370496 := by decide
    have hb0 : b = 0 := Nat.eq_zero_of_not_pos fun hlt => by have := hb hlt; omega
    have hm0 : 0 < m := significand_pos (hr ▸ hrank) hb
    obtain ⟨p, hp⟩ : ∃ p, p = 751 := ⟨_, rfl⟩
    obtain ⟨hlow, hhigh⟩ := decimalUnitsPerUnit_bounds hp
    rw [hb0, Nat.pow_zero, Nat.mul_one] at hup hbelow ⊢
    rcases Nat.lt_trichotomy n p with hless | rfl | hmore
    · have hpower : 10 ^ (n + 1) ≤ 10 ^ p := Nat.pow_le_pow_right (by decide) hless
      rw [Nat.pow_succ] at hpower
      have hone : 1 * decimalUnitsPerUnit ≤ m * decimalUnitsPerUnit := Nat.mul_le_mul_right _ hm0
      omega
    · obtain rfl | rfl | hthree : m = 1 ∨ m = 2 ∨ 3 ≤ m := by omega
      · omega
      · omega
      · have hmore : 3 * decimalUnitsPerUnit ≤ m * decimalUnitsPerUnit :=
          Nat.mul_le_mul_right _ hthree
        omega
    · have hpower : 10 ^ (p + 1) ≤ 10 ^ n := Nat.pow_le_pow_right (by decide) hmore
      rw [Nat.pow_succ] at hpower
      have hnine : m * decimalUnitsPerUnit ≤ 9 * decimalUnitsPerUnit :=
        Nat.mul_le_mul_right _ (by omega)
      omega
  · have hten : 10 * (decimalUnitsPerUnit * 2 ^ b) ≤ m * (decimalUnitsPerUnit * 2 ^ b) :=
      Nat.mul_le_mul_right _ hlarge
    omega

end Finite

namespace Decimal

open Binary64

variable {d : Decimal} {x : Finite}

theorem digits_length_pos (d : Decimal) : 0 < d.digits.length := Nat.length_toDigits_pos

theorem digits_length_eq (h : d.coefficient ≠ 0) : d.digits.length = decimalLength d.coefficient := by
  unfold decimalLength
  rw [if_neg h]
  rfl

theorem toRat_lt_power (d : Decimal) : d.toRat < 10 ^ ((d.digits.length : ℤ) + d.exponent) := by
  have hlt : d.coefficient < 10 ^ d.digits.length := by
    by_cases hzero : d.coefficient = 0
    · rw [hzero]
      exact Nat.pow_pos (by decide)
    · rw [digits_length_eq hzero]
      exact (decimalLength_bounds hzero).2
  have hcast : (d.coefficient : ℚ) < 10 ^ d.digits.length := by exact_mod_cast hlt
  have hpos : (0 : ℚ) < 10 ^ d.exponent := zpow_pos (by norm_num) _
  unfold toRat
  rw [zpow_add₀ (by norm_num), zpow_natCast]
  exact mul_lt_mul_of_pos_right hcast hpos

theorem power_le_toRat (h : d.coefficient ≠ 0) :
    10 ^ ((d.digits.length : ℤ) - 1 + d.exponent) ≤ d.toRat := by
  have hlength := d.digits_length_pos
  have hle : 10 ^ (d.digits.length - 1) ≤ d.coefficient := by
    rw [digits_length_eq h]
    exact (decimalLength_bounds h).1
  have hcast : (10 : ℚ) ^ (d.digits.length - 1) ≤ d.coefficient := by exact_mod_cast hle
  have hpos : (0 : ℚ) < 10 ^ d.exponent := zpow_pos (by norm_num) _
  have hexp : (d.digits.length : ℤ) - 1 = (d.digits.length - 1 : Nat) := by omega
  unfold toRat
  rw [zpow_add₀ (by norm_num), hexp, zpow_natCast]
  exact mul_le_mul_of_nonneg_right hcast hpos.le

theorem isReadTo_grid {found : Nat × Nat} :
    (Grid.decimal found).IsReadTo x ↔ Finite.readsBack x.rank found.2 found.1 = true := by
  unfold IsReadTo
  rw [Finite.ofDecimal_grid, ofRank_eq_finite_iff, Finite.readsBack_iff]

theorem eq_grid {n : Nat} (h : d.exponent = (n : ℤ) - 1074) : d = Grid.decimal (d.coefficient, n) := by
  unfold Grid.decimal
  rw [← h]

theorem isReadTo_shortest (tie : Tie) (x : Finite) : (x.shortest tie).IsReadTo x :=
  Finite.ofDecimal_shortest tie x

theorem IsReadTo.coefficient_ne_zero (hx : x.rank ≠ 0) (h : d.IsReadTo x) : d.coefficient ≠ 0 := by
  intro hzero
  unfold IsReadTo at h
  rw [hzero, ofDecimal_zero, ofRank_eq_finite_iff] at h
  exact hx h.symm

/-- A decimal that is read back lies on no coarser grid than the shortest. -/
theorem IsReadTo.exponent_le (tie : Tie) (hx : x.rank ≠ 0) (h : d.IsReadTo x) :
    d.exponent ≤ (x.shortest tie).exponent := by
  obtain ⟨⟨c, n⟩, hshortest, -, hcoarsest, -⟩ := Finite.shortest_grid tie hx
  have hexponent : (x.shortest tie).exponent = (n : ℤ) - 1074 := by rw [hshortest]; rfl
  rcases Int.le_total d.exponent (-1074) with hfine | hcoarse
  · omega
  · obtain ⟨k, hk⟩ : ∃ k : Nat, d.exponent = (k : ℤ) - 1074 := ⟨(d.exponent + 1074).toNat, by omega⟩
    rw [eq_grid hk, isReadTo_grid] at h
    have hle : k ≤ n := hcoarsest k _ h
    omega

theorem toRat_grid {k : Nat} (hk : k = 1074) (found : Nat × Nat) :
    (Grid.decimal found).toRat = (found.1 * 10 ^ found.2 : Nat) / (10 ^ k : Nat) := by
  have hexponent : (Grid.decimal found).exponent = (found.2 : ℤ) - (k : Nat) := by rw [hk]; rfl
  unfold toRat
  rw [hexponent, zpow_sub₀ (by norm_num), zpow_natCast, zpow_natCast, ← mul_div_assoc]
  push_cast
  rfl

theorem abs_toRat {k : Nat} (hk : k = 1074) (x : Finite) :
    |x.toRat| = (Finite.decimalUnits x.rank : ℚ) / (10 ^ k : Nat) := by
  have hfive : (Finite.decimalUnitsPerUnit : ℚ) ≠ 0 :=
    Nat.cast_ne_zero.mpr Finite.decimalUnitsPerUnit_pos.ne'
  rw [Binary64.toRat_eq, abs_withSign_div, ← Finite.units_times_five hk]
  unfold Finite.decimalUnits Finite.units
  rw [Nat.cast_mul, Nat.cast_mul, mul_div_mul_right _ _ hfive]

/-- On its own grid the shortest decimal is nearest. -/
theorem IsReadTo.nearest_of_exponent {tie : Tie} (hx : x.rank ≠ 0) (h : d.IsReadTo x)
    (he : d.exponent = (x.shortest tie).exponent) :
    |(|x.toRat| - (x.shortest tie).toRat)| ≤ |(|x.toRat| - d.toRat)| := by
  obtain ⟨k, hk⟩ : ∃ k, k = 1074 := ⟨_, rfl⟩
  obtain ⟨⟨c, n⟩, hshortest, -, -, hnearest⟩ := Finite.shortest_grid tie hx
  have hexponent : d.exponent = (n : ℤ) - 1074 := by rw [he, hshortest]; rfl
  have hgrid := eq_grid hexponent
  rw [hgrid, isReadTo_grid] at h
  have hdistance (a b : Nat) : |((a : ℚ) / (10 ^ k : Nat) - (b : ℚ) / (10 ^ k : Nat))| =
      ((a - b : ℤ).natAbs : ℚ) / (10 ^ k : Nat) := by
    rw [← sub_div, abs_div, Nat.abs_cast, Nat.cast_natAbs, Int.cast_abs]
    push_cast
    rfl
  rw [hgrid, hshortest, toRat_grid hk, toRat_grid hk, abs_toRat hk, hdistance, hdistance]
  have hle := hnearest d.coefficient h
  gcongr

/-- If another decimal that is read back ends below the first digit of the shortest, the power of ten
between them is read back. So that digit is the only one. -/
theorem IsReadTo.power_of_below {tie : Tie} (hx : x.rank ≠ 0) (h : d.IsReadTo x)
    (hlt : d.digits.length + d.exponent < (x.shortest tie).digits.length + (x.shortest tie).exponent) :
    (x.shortest tie).digits.length = 1 ∧ (Decimal.mk 1 (x.shortest tie).exponent).IsReadTo x := by
  have hshortest := isReadTo_shortest tie x
  have hpower : (10 : ℚ) ^ ((d.digits.length : ℤ) + d.exponent) ≤
      10 ^ (((x.shortest tie).digits.length : ℤ) - 1 + (x.shortest tie).exponent) :=
    zpow_le_zpow_right₀ (by norm_num) (by omega)
  have hvalue (e : ℤ) : (Decimal.mk 1 e).toRat = 10 ^ e := by simp [toRat]
  have hlow := (toRat_lt_power d).le.trans hpower
  have hup := power_le_toRat (hshortest.coefficient_ne_zero hx)
  rw [← hvalue] at hlow hup
  have hbetween := IsReadTo.between h hshortest hlow hup
  have hcoarse := hbetween.exponent_le tie hx
  have hpositive := (x.shortest tie).digits_length_pos
  have hone : (x.shortest tie).digits.length = 1 := by
    dsimp only at hcoarse
    omega
  rw [hone] at hbetween
  refine ⟨hone, ?_⟩
  simpa using hbetween

/-- A decimal that is read back has no fewer digits than the shortest. -/
theorem IsReadTo.length_le (tie : Tie) (hx : x.rank ≠ 0) (h : d.IsReadTo x) :
    (x.shortest tie).digits.length ≤ d.digits.length := by
  by_contra hless
  have hcoarse := h.exponent_le tie hx
  have hpositive := d.digits_length_pos
  have hbelow : d.digits.length + d.exponent <
      (x.shortest tie).digits.length + (x.shortest tie).exponent := by omega
  obtain ⟨hone, -⟩ := h.power_of_below hx hbelow
  omega

/-- The first power of ten that is read back to a double is not far above it. -/
theorem IsReadTo.power_near {e : ℤ} {tie : Tie} (hx : x.rank ≠ 0) (h : (Decimal.mk 1 e).IsReadTo x)
    (he : e = (x.shortest tie).exponent) (hbelow : |x.toRat| < 10 ^ e) :
    19 * (10 : ℚ) ^ e < 20 * |x.toRat| := by
  obtain ⟨k, hk⟩ : ∃ k, k = 1074 := ⟨_, rfl⟩
  obtain ⟨⟨c, n⟩, hshortest, -⟩ := Finite.shortest_grid tie hx
  have hexponent : (Decimal.mk 1 e).exponent = (n : ℤ) - 1074 := by
    rw [hshortest] at he
    exact he
  have hgrid := eq_grid hexponent
  have hpower : (10 : ℚ) ^ e = ((10 ^ n : Nat) : ℚ) / (10 ^ k : Nat) := by
    have hvalue := toRat_grid hk (1, n)
    rw [← hgrid] at hvalue
    simpa [toRat] using hvalue
  have hunit : (0 : ℚ) < (10 ^ k : Nat) := Nat.cast_pos.mpr (Nat.pow_pos (by decide))
  rw [hgrid, isReadTo_grid] at h
  rw [hpower, abs_toRat hk, div_lt_div_iff_of_pos_right hunit, Nat.cast_lt] at hbelow
  have hnear := Finite.power_near_of_readsBack hx h hbelow
  rw [hpower, abs_toRat hk, ← mul_div_assoc, ← mul_div_assoc, div_lt_div_iff_of_pos_right hunit]
  exact_mod_cast hnear

/-- On a finer grid no decimal of as few digits is as near. -/
theorem IsReadTo.nearer_of_finer {tie : Tie} (hx : x.rank ≠ 0) (h : d.IsReadTo x)
    (he : d.exponent < (x.shortest tie).exponent)
    (hlength : d.digits.length = (x.shortest tie).digits.length) :
    |(|x.toRat| - (x.shortest tie).toRat)| < |(|x.toRat| - d.toRat)| := by
  have hbelow : d.digits.length + d.exponent <
      (x.shortest tie).digits.length + (x.shortest tie).exponent := by omega
  obtain ⟨hone, hpower⟩ := h.power_of_below hx hbelow
  have hnearest := hpower.nearest_of_exponent hx rfl
  have hnear := hpower.power_near hx rfl
  have hvalue : (Decimal.mk 1 (x.shortest tie).exponent).toRat = 10 ^ (x.shortest tie).exponent := by
    simp [toRat]
  rw [hvalue] at hnearest
  have hdigit : d.toRat ≤ 9 * (10 ^ (x.shortest tie).exponent / 10) := by
    have hcoefficient : d.coefficient < 10 ^ decimalLength d.coefficient :=
      (decimalLength_bounds (h.coefficient_ne_zero hx)).2
    rw [← digits_length_eq (h.coefficient_ne_zero hx), hlength, hone, Nat.pow_one] at hcoefficient
    have hnine : (d.coefficient : ℚ) ≤ 9 := by exact_mod_cast Nat.le_of_lt_succ hcoefficient
    have hstep : (10 : ℚ) ^ d.exponent ≤ 10 ^ (x.shortest tie).exponent / 10 := by
      rw [div_eq_mul_inv, ← zpow_sub_one₀ (by norm_num)]
      exact zpow_le_zpow_right₀ (by norm_num) (by omega)
    exact mul_le_mul hnine hstep (zpow_pos (by norm_num) _).le (by norm_num)
  have hpositive : (0 : ℚ) < 10 ^ (x.shortest tie).exponent := zpow_pos (by norm_num) _
  refine lt_of_le_of_lt hnearest ?_
  generalize (10 : ℚ) ^ (x.shortest tie).exponent = power at hnear hdigit hpositive ⊢
  generalize |x.toRat| = magnitude at hnear ⊢
  rcases le_or_gt power magnitude with hbeyond | hbelow
  · rw [abs_of_nonneg (by linarith), abs_of_nonneg (by linarith)]
    linarith
  · have hgap := hnear hbelow
    rw [abs_of_neg (by linarith), abs_of_nonneg (by linarith)]
    linarith

/-- A decimal is shortest if it is read to the double, has as few digits as any that is, and is nearest
among those with as few. -/
structure IsShortest (d : Decimal) (x : Finite) : Prop where
  isReadTo : d.IsReadTo x
  fewest : ∀ d' : Decimal, d'.IsReadTo x → d.digits.length ≤ d'.digits.length
  nearest : ∀ d' : Decimal, d'.IsReadTo x → d'.digits.length = d.digits.length →
    |(|x.toRat| - d.toRat)| ≤ |(|x.toRat| - d'.toRat)|

theorem shortest_isShortest (tie : Tie) (x : Finite) : (x.shortest tie).IsShortest x := by
  have hread := isReadTo_shortest tie x
  by_cases hx : x.rank = 0
  · have hzero : x.shortest tie = ⟨0, 0⟩ := by
      unfold Finite.shortest
      rw [if_pos hx]
    have hexact : |x.toRat| - (x.shortest tie).toRat = 0 := by
      rw [hzero, toRat_eq_zero_iff.mpr hx]
      simp [toRat]
    refine ⟨hread, fun d' _ => ?_, fun d' _ _ => ?_⟩
    · rw [hzero]
      exact d'.digits_length_pos
    · rw [hexact, abs_zero]
      exact abs_nonneg _
  · refine ⟨hread, fun d' hd' => hd'.length_le tie hx, fun d' hd' hlength => ?_⟩
    rcases lt_or_eq_of_le (hd'.exponent_le tie hx) with hfiner | hsame
    · exact (hd'.nearer_of_finer hx hfiner hlength).le
    · exact hd'.nearest_of_exponent hx hsame

/-- All shortest decimals of a double lie on one grid. -/
theorem IsShortest.exponent_eq (hx : x.rank ≠ 0) (h : d.IsShortest x) (tie : Tie) :
    d.exponent = (x.shortest tie).exponent := by
  have hshortest := shortest_isShortest tie x
  have hlength : d.digits.length = (x.shortest tie).digits.length :=
    Nat.le_antisymm (h.fewest _ hshortest.isReadTo) (hshortest.fewest _ h.isReadTo)
  rcases lt_or_eq_of_le (h.isReadTo.exponent_le tie hx) with hfiner | hsame
  · have hnearer := h.isReadTo.nearer_of_finer hx hfiner hlength
    exact absurd (h.nearest _ hshortest.isReadTo hlength.symm) (not_le.mpr hnearer)
  · exact hsame

end Decimal

end GoldenRecord

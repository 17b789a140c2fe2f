import GoldenRecord.Proofs.Coordinate.Nearest

namespace GoldenRecord

theorem divNearest_congr {n d n' d' : Nat} (hd : 0 < d) (hd' : 0 < d') (h : n * d' = n' * d) :
    divNearest n d = divNearest n' d' :=
  Nat.le_antisymm (divNearest_mono hd hd' (Nat.le_of_eq h))
    (divNearest_mono hd' hd (Nat.le_of_eq h.symm))

namespace Finite

open Binary64

variable {rank n c : Nat}

/-- A power of two whose step is not smaller than 1/10000 is a multiple of it. -/
theorem dvd_power_of_le {b : Nat} (hn : n = 1070) (h : 10 ^ n ≤ decimalUnitsPerUnit * 2 ^ b) :
    10 ^ n ∣ binadeSize * (decimalUnitsPerUnit * 2 ^ b) := by
  have hfive : decimalUnitsPerUnit = 5 ^ n * 625 := by
    rw [decimalUnitsPerUnit_eq (k := n + 4) (by omega), Nat.pow_add]
  have hten : 10 ^ n = 5 ^ n * 2 ^ n := by rw [← Nat.mul_pow]
  have hpos : 0 < 5 ^ n := Nat.pow_pos (by decide)
  rw [hfive, hten] at h ⊢
  have hlt : 2 ^ n < 2 ^ (10 + b) :=
    calc 2 ^ n ≤ 625 * 2 ^ b := Nat.le_of_mul_le_mul_left (by rwa [← Nat.mul_assoc]) hpos
      _ < 2 ^ 10 * 2 ^ b := Nat.mul_lt_mul_of_pos_right (by decide) (Nat.two_pow_pos b)
      _ = 2 ^ (10 + b) := (Nat.pow_add 2 10 b).symm
  have hexp : n < 10 + b := (Nat.pow_lt_pow_iff_right (by decide)).mp hlt
  obtain ⟨k, hk⟩ : ∃ k, 52 + b = n + k := ⟨52 + b - n, by omega⟩
  refine ⟨2 ^ k * 625, ?_⟩
  calc binadeSize * (5 ^ n * 625 * 2 ^ b) = 5 ^ n * (2 ^ 52 * 2 ^ b) * 625 := by
        rw [binadeSize_eq]
        simp only [Nat.mul_assoc, Nat.mul_comm, Nat.mul_left_comm]
    _ = 5 ^ n * 2 ^ n * (2 ^ k * 625) := by
        rw [← Nat.pow_add, hk, Nat.pow_add]
        simp only [Nat.mul_assoc]

/-- If any multiple of 1/10000 is read to a double, the one nearest to the double is. Off the powers
of two this is symmetry of the rounding interval. Below a power of two the interval is shorter, but
there either the steps are too fine for multiples on both sides to be read back, or the power is a
multiple itself. -/
theorem readsBack_nearest (hn : n = 1070) (hc : readsBack rank n c = true) :
    readsBack rank n (divNearest (decimalUnits rank) (10 ^ n)) = true := by
  have hgrid : 0 < 10 ^ n := Nat.pow_pos (by decide)
  have hfive := decimalUnitsPerUnit_pos
  have hnear := (divNearest_nearest (n := decimalUnits rank) hgrid c).1
  have hexact : ∀ q, decimalUnits rank = q * 10 ^ n →
      divNearest (decimalUnits rank) (10 ^ n) = q := by
    intro q hq
    rw [hq, divNearest_mul q hgrid]
  obtain ⟨b, m, hr, hm, hb, hv⟩ := exists_binade_decimalUnits rank
  have hread := readsBack_iff.mp hc
  rw [hr] at hread
  obtain ⟨hup, hlow, htie⟩ := half_step_of_nearestRank hfive hm hb hread
  rw [hv] at hup hlow htie
  generalize htdef : divNearest (decimalUnits rank) (10 ^ n) = t at hnear hexact ⊢
  have hnear : (decimalUnits rank - (t * 10 ^ n : Nat) : Int).natAbs ≤
      (decimalUnits rank - (c * 10 ^ n : Nat) : Int).natAbs := hnear
  by_cases hbetween : c ≤ t ∧ t * 10 ^ n ≤ decimalUnits rank
  · exact readsBack_between hc (.inl ⟨Nat.mul_le_mul_right _ hbetween.1, hbetween.2⟩)
  · rw [readsBack_iff, hr]
    refine nearestRank_of_half_step hfive hm hb ?_ ?_ ?_ fun hbelow hpos => ?_
    · rw [hv]
      omega
    · rw [hv]
      omega
    · rw [hv]
      omega
    · -- right below a power of two, where a step of the grid is none too long for the doubles there
      refine Nat.lt_of_le_of_ne (hb hpos) fun hpower => ?_
      rw [hv] at hbelow
      have hother : (t + 1) * 10 ^ n ≤ c * 10 ^ n := Nat.mul_le_mul_right _ (by omega)
      rw [Nat.succ_mul t] at hother
      have hcoarse : 10 ^ n ≤ decimalUnitsPerUnit * 2 ^ b := by omega
      obtain ⟨q, hq⟩ := dvd_power_of_le hn hcoarse
      rw [hpower, hv, Nat.mul_comm] at hq
      rw [hexact q hq, ← hq] at hbelow
      exact Nat.lt_irrefl _ hbelow

end Finite

namespace Coordinate

open Binary64

/-- A double to which a multiple of 1/10000 is read is left as it is. -/
theorem rounded_rank_of_readsBack {n c : Nat} (hn : n = 1070) {x : Finite}
    (hc : Finite.readsBack x.rank n c = true) : (rounded x).rank = x.rank := by
  have hgrid : 0 < 10 ^ n := Nat.pow_pos (by decide)
  have hcross : x.units * scale * 10 ^ n = Finite.decimalUnits x.rank * unitsPerOne := by
    have hten := Finite.units_times_five (k := n + 4) (by omega)
    have hscale : scale = 10 ^ 4 := rfl
    rw [hscale, Nat.mul_assoc, ← Nat.pow_add, Nat.add_comm, ← hten, Finite.decimalUnits,
      Nat.mul_comm unitsPerOne, Nat.mul_assoc]
    rfl
  have hnearest : tenThousandths x = divNearest (Finite.decimalUnits x.rank) (10 ^ n) :=
    divNearest_congr unitsPerOne_pos hgrid hcross
  have hrounded := Finite.readsBack_iff.mp (readsBack_rounded hn x)
  have hkept := Finite.readsBack_iff.mp (Finite.readsBack_nearest hn hc)
  rw [hnearest] at hrounded
  exact hrounded.symm.trans hkept

theorem toRat_rounded_of_rank {x : Finite} (h : (rounded x).rank = x.rank) :
    (rounded x).toRat = x.toRat := by
  rw [rounded_rank] at h
  unfold rounded
  rw [toRat_unsignedZero, toRat_eq, toRat_eq]
  unfold Finite.units
  dsimp only
  rw [h]

/-- A number with at most four decimals is left as it is. -/
theorem toRat_rounded_of_places {x : Finite} (h : decimalPlaces (.finite x) ≤ decimals) :
    (rounded x).toRat = x.toRat := by
  obtain ⟨n, hn⟩ : ∃ n, n = 1070 := ⟨_, rfl⟩
  have hgrid : n + decimals = 1074 := by rw [hn]; rfl
  obtain ⟨c, hc⟩ := (decimalPlaces_le_iff_readsBack hgrid).mp h
  exact toRat_rounded_of_rank (rounded_rank_of_readsBack hn hc)

/-- The numbers with at most four decimals are those that rounding does not change. So rounding what
is rounded changes nothing, and what is rounded has at most four decimals. -/
theorem decimalPlaces_le_iff :
    (∀ x : Finite, decimalPlaces (.finite x) ≤ 4 ↔
      ∃ r : Finite, roundValue (.finite x) = some (.finite r) ∧ r.toRat = x.toRat) ∧
    ∀ v r : Binary64, roundValue v = some r → roundValue r = some r ∧ decimalPlaces r ≤ 4 := by
  constructor
  · intro x
    constructor
    · intro h
      exact ⟨_, roundValue_finite x, toRat_rounded_of_places h⟩
    · rintro ⟨r, hr, hvalue⟩
      rw [roundValue_finite] at hr
      cases hr
      have hplaces : decimalPlaces (.finite (rounded x)) = decimalPlaces (.finite x) :=
        congrArg Decimal.places (Finite.shortest_congr (rank_eq_of_toRat hvalue))
      exact hplaces ▸ decimalPlaces_rounded x
  · intro v r h
    obtain ⟨x, rfl, rfl⟩ := roundValue_eq_some.mp h
    have hplaces := decimalPlaces_rounded x
    refine ⟨?_, hplaces⟩
    have hvalue := toRat_rounded_of_places hplaces
    have hsame : rounded (rounded x) = rounded x :=
      eq_of_toRat hvalue fun hzero => (rounded_negative hzero).trans
        (rounded_negative (hvalue ▸ hzero)).symm
    rw [roundValue_finite, hsame]

/-- The double 0.30005 lies below the tie and is rounded to 0.3, which is then kept. -/
theorem roundValue_of_below_tie :
    let v : Binary64 := .ofDecimal false 30005 (-5)
    let r : Binary64 := .ofDecimal false 3 (-1)
    roundValue v = some r ∧ roundValue r = some r ∧ decimalPlaces r ≤ 4 := by
  intro v r
  have hround : roundValue v = some r := by decide +kernel
  exact ⟨hround, decimalPlaces_le_iff.2 v r hround⟩

end Coordinate

end GoldenRecord

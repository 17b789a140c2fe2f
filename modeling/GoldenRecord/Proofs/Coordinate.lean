import GoldenRecord.Coordinate
import GoldenRecord.Proofs.Binary64.Shortest

namespace GoldenRecord

namespace Coordinate

open Binary64

theorem scale_pos : 0 < scale := by decide

def roundedRank (x : Finite) : Nat := nearestRank (tenThousandths x * unitsPerOne) scale

theorem tenThousandths_mono {x y : Finite} (h : x.units ≤ y.units) :
    tenThousandths x ≤ tenThousandths y :=
  divNearest_mono unitsPerOne_pos unitsPerOne_pos
    (Nat.mul_le_mul_right unitsPerOne (Nat.mul_le_mul_right scale h))

theorem roundedRank_mono {x y : Finite} (h : x.units ≤ y.units) : roundedRank x ≤ roundedRank y :=
  nearestRank_mono scale_pos scale_pos
    (Nat.mul_le_mul_right scale (Nat.mul_le_mul_right unitsPerOne (tenThousandths_mono h)))

theorem roundedRank_zero {x : Finite} (h : x.rank = 0) : roundedRank x = 0 := by
  have hround : divNearest (0 * unitsPerOne) unitsPerOne = 0 := divNearest_mul 0 unitsPerOne_pos
  have hnone : tenThousandths x = 0 := by
    unfold tenThousandths Finite.units
    rw [h, unitsOf_zero, Nat.zero_mul]
    rwa [Nat.zero_mul] at hround
  unfold roundedRank
  rw [hnone]
  exact nearestRank_eq_zero scale_pos (by simp)

/-- The largest finite magnitude is a whole number, so rounding leaves it as it is. -/
theorem roundedRank_largest : ∀ x : Finite, x.rank = rankBound - 1 → roundedRank x = x.rank := by
  intro x hx
  obtain ⟨n, hn⟩ := unitsPerOne_dvd_largest
  have hunits : x.units * scale = n * scale * unitsPerOne := by
    unfold Finite.units
    rw [hx, hn, Nat.mul_comm unitsPerOne n, Nat.mul_right_comm]
  have hback : n * scale * unitsPerOne = Finite.unitsOf x.rank * scale := hunits.symm
  unfold roundedRank tenThousandths
  rw [hunits, divNearest_mul _ unitsPerOne_pos, hback, nearestRank_unitsOf _ scale_pos]

theorem roundedRank_lt (x : Finite) : roundedRank x < rankBound := by
  have hpos : rankBound - 1 < rankBound := by decide
  have hle : x.units ≤ (Finite.mk false (rankBound - 1) hpos).units :=
    unitsOf_le_iff.mpr (Nat.le_sub_one_of_lt x.rank_lt)
  have hmono := roundedRank_mono hle
  have hlargest := roundedRank_largest (Finite.mk false (rankBound - 1) hpos) rfl
  rw [hlargest] at hmono
  exact Nat.lt_of_le_of_lt hmono hpos

/-- A rounded number; a zero has no sign. -/
def rounded (x : Finite) : Finite :=
  (Finite.mk x.negative (roundedRank x) (roundedRank_lt x)).unsignedZero

theorem roundFinite_eq (x : Finite) : roundFinite x = .finite (rounded x) := by
  have hratio : ofRatio x.negative (tenThousandths x) scale = ofRank x.negative (roundedRank x) := by
    unfold ofRatio roundedRank
    exact Eq.refl _
  have hrank : ofRank x.negative (roundedRank x) =
      .finite ⟨x.negative, roundedRank x, roundedRank_lt x⟩ := by
    unfold ofRank
    exact dif_pos (roundedRank_lt x)
  unfold roundFinite
  rw [hratio, hrank]
  rfl

theorem rounded_rank (x : Finite) : (rounded x).rank = roundedRank x := unsignedZero_rank _

theorem rounded_value (x : Finite) : (rounded x).value =
    if x.negative then -(Finite.unitsOf (roundedRank x) : Int)
    else Finite.unitsOf (roundedRank x) := by
  unfold rounded Finite.unsignedZero
  split
  next hzero =>
    have hrank : roundedRank x = 0 := beq_iff_eq.mp hzero
    rw [hrank, unitsOf_zero]
    cases x.negative <;> rfl
  next => rfl

theorem rounded_mono {x y : Finite} (h : x.value ≤ y.value) : (rounded x).value ≤ (rounded y).value := by
  have hunits : ∀ {a b : Finite}, a.units ≤ b.units →
      Finite.unitsOf (roundedRank a) ≤ Finite.unitsOf (roundedRank b) :=
    fun hab => unitsOf_le_iff.mpr (roundedRank_mono hab)
  rw [rounded_value, rounded_value]
  unfold Finite.value at h
  cases hx : x.negative <;> cases hy : y.negative <;>
    simp only [hx, hy, Bool.false_eq_true, if_false, if_true] at h ⊢
  · have := hunits (a := x) (b := y) (by omega)
    omega
  · have := hunits (a := x) (b := y) (by omega)
    have := hunits (a := y) (b := ⟨false, 0, by decide⟩) (by
      change y.units ≤ Finite.unitsOf 0
      rw [unitsOf_zero]
      omega)
    have hzero : Finite.unitsOf (roundedRank ⟨false, 0, by decide⟩) = 0 := by
      rw [roundedRank_zero rfl, unitsOf_zero]
    omega
  · omega
  · have := hunits (a := y) (b := x) (by omega)
    omega

/-- A rounded magnitude is the double nearest to a decimal with four places. -/
theorem readsBack_rounded {n : Nat} (hn : n = 1070) (x : Finite) :
    Finite.readsBack (rounded x).rank n (tenThousandths x) = true := by
  rw [Finite.readsBack_iff, rounded_rank]
  refine nearestRank_congr Finite.decimalUnitsPerUnit_pos scale_pos ?_
  have hfive := Finite.units_times_five (k := n + 4) (by omega)
  have hscale : scale = 10 ^ 4 := rfl
  calc tenThousandths x * 10 ^ n * scale = tenThousandths x * 10 ^ (n + 4) := by
        rw [hscale, Nat.mul_assoc, Nat.pow_add]
    _ = tenThousandths x * unitsPerOne * Finite.decimalUnitsPerUnit := by
        rw [← hfive, Nat.mul_assoc]

/-- A number has as many decimals as the coarsest grid with a multiple that is read to it. -/
theorem decimalPlaces_le_iff_readsBack {n k : Nat} (hn : n + k = 1074) {x : Finite} :
    decimalPlaces (.finite x) ≤ k ↔ ∃ c, Finite.readsBack x.rank n c = true := by
  have hplaces : decimalPlaces (.finite x) = (-(x.shortest .up).exponent).toNat := rfl
  rw [← Finite.le_shortest_exponent_iff .up hn, hplaces]
  omega

/-- Four decimals are enough to write a rounded number. -/
theorem decimalPlaces_rounded (x : Finite) : decimalPlaces (.finite (rounded x)) ≤ decimals := by
  obtain ⟨n, hn⟩ : ∃ n, n = 1070 := ⟨_, rfl⟩
  have hgrid : n + decimals = 1074 := by rw [hn]; rfl
  exact (decimalPlaces_le_iff_readsBack hgrid).mpr ⟨_, readsBack_rounded hn x⟩

theorem roundValue_eq_some {v w : Binary64} :
    roundValue v = some w ↔ ∃ x, v = .finite x ∧ w = .finite (rounded x) := by
  cases v with
  | finite x =>
    simp only [roundValue, roundFinite_eq, Option.some.injEq, finite.injEq, exists_eq_left']
    exact eq_comm
  | infinite negative => simp [roundValue]
  | nan => simp [roundValue]

theorem round_eq_some {v : Option Binary64} {w : Binary64} :
    round v = some w ↔ ∃ x, v = some (.finite x) ∧ w = .finite (rounded x) := by
  cases v with
  | none => simp [round]
  | some v =>
    simp only [round, Option.bind_some, roundValue_eq_some, Option.some.injEq]

end Coordinate

end GoldenRecord

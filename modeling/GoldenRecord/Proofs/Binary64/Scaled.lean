import GoldenRecord.Binary64.Scaled
import GoldenRecord.Proofs.Binary64.Nearest

namespace GoldenRecord

namespace Binary64

variable {r s m : Nat} {e : Int}

theorem unitsOf_one : Finite.unitsOf (1023 * binadeSize) = unitsPerOne := by
  obtain ⟨b, hb⟩ : ∃ b, b = 1022 := ⟨_, rfl⟩
  have hunits : Finite.unitsOf ((b + 1) * binadeSize) = binadeSize * 2 ^ b := unitsOf_mul_binadeSize b
  have hexp : 52 + b = 1074 := by omega
  rw [show 1023 = b + 1 by omega, hunits, binadeSize_eq, ← Nat.pow_add, unitsPerOne_eq hexp]

theorem lt_of_nearestRank_lt {n d : Nat} (hd : 0 < d) (h : nearestRank n d < r) :
    n < Finite.unitsOf r * d := by
  refine Nat.lt_of_not_le fun hle => ?_
  have := le_nearestRank hd hle
  omega

theorem wholeRank_mono {n : Nat} (h : m ≤ n) : wholeRank m ≤ wholeRank n :=
  nearestRank_mono Nat.one_pos Nat.one_pos (Nat.mul_le_mul_right 1 (Nat.mul_le_mul_right _ h))

theorem powerRank_mono {j k : Nat} (h : j ≤ k) : powerRank j ≤ powerRank k :=
  wholeRank_mono (Nat.pow_le_pow_right (by decide) h)

theorem mulRank_mono {r' s' : Nat} (hr : r ≤ r') (hs : s ≤ s') : mulRank r s ≤ mulRank r' s' := by
  have hunits := Nat.mul_le_mul (unitsOf_le_iff.mpr hr) (unitsOf_le_iff.mpr hs)
  exact nearestRank_mono unitsPerOne_pos unitsPerOne_pos (Nat.mul_le_mul_right _ hunits)

theorem one_le_powerRank (k : Nat) : unitsPerOne ≤ Finite.unitsOf (powerRank k) := by
  rw [← unitsOf_one]
  refine unitsOf_le_iff.mpr (le_nearestRank Nat.one_pos ?_)
  rw [unitsOf_one, Nat.mul_one]
  exact Nat.le_mul_of_pos_left _ (Nat.pow_pos (by decide))

theorem divRank_le (h : unitsPerOne ≤ Finite.unitsOf s) : divRank r s ≤ r :=
  nearestRank_le (Nat.lt_of_lt_of_le unitsPerOne_pos h) (Nat.mul_le_mul_left _ h)

theorem divPower_le (r k : Nat) : divPower r k ≤ r := by
  unfold divPower
  split
  next => exact divRank_le (one_le_powerRank k)
  next =>
    exact Nat.le_trans (divRank_le (one_le_powerRank _)) (divRank_le (one_le_powerRank maxPower))

/-- Whole numbers from here on may be rounded past the largest double when they are read. -/
def safeBound : Nat := Finite.unitsOf (rankBound - 2) / unitsPerOne

/-- What is kept of a number safely below the largest double, with a power of ten for what is left
over, is safely below it as well. -/
theorem le_safeBound {n lost : Nat} {p : Int} (hkept : m * 10 ^ lost ≤ n)
    (hsafe : n * 10 ^ p.toNat * unitsPerOne < Finite.unitsOf (rankBound - 2) * 10 ^ (-p).toNat)
    (he : 0 ≤ lost + p) : m * 10 ^ (lost + p).toNat ≤ safeBound := by
  refine (Nat.le_div_iff_mul_le unitsPerOne_pos).mpr ?_
  have hpos : 0 < 10 ^ (-p).toNat := Nat.pow_pos (by decide)
  refine Nat.le_of_mul_le_mul_right (Nat.le_of_lt ?_) hpos
  have hexp : (lost + p).toNat + (-p).toNat = lost + p.toNat := by omega
  calc m * 10 ^ (lost + p).toNat * unitsPerOne * 10 ^ (-p).toNat
      = m * (10 ^ (lost + p).toNat * 10 ^ (-p).toNat) * unitsPerOne := by
        simp only [Nat.mul_assoc, Nat.mul_comm unitsPerOne]
    _ = m * 10 ^ lost * 10 ^ p.toNat * unitsPerOne := by
        rw [← Nat.pow_add, hexp, Nat.pow_add, ← Nat.mul_assoc]
    _ ≤ n * 10 ^ p.toNat * unitsPerOne :=
        Nat.mul_le_mul_right _ (Nat.mul_le_mul_right _ hkept)
    _ < Finite.unitsOf (rankBound - 2) * 10 ^ (-p).toNat := hsafe

theorem mulRank_lt_of_small {k : Nat} (hm : m ≤ 2 ^ 64) (hk : k ≤ 288) :
    mulRank (wholeRank m) (powerRank k) < rankBound := by
  have hle := mulRank_mono (wholeRank_mono hm) (powerRank_mono hk)
  have hlt : mulRank (wholeRank (2 ^ 64)) (powerRank 288) < rankBound := by decide +kernel
  omega

theorem mulRank_lt_of_large {k : Nat} (hm : m * 10 ^ k ≤ safeBound) (hlow : 289 ≤ k) (hup : k ≤ 308) :
    mulRank (wholeRank m) (powerRank k) < rankBound := by
  have hdiv : m ≤ safeBound / 10 ^ k := (Nat.le_div_iff_mul_le (Nat.pow_pos (by decide))).mpr hm
  have hle := mulRank_mono (wholeRank_mono hdiv) (Nat.le_refl (powerRank k))
  have hall : ∀ j < 20, mulRank (wholeRank (safeBound / 10 ^ (289 + j))) (powerRank (289 + j)) <
      rankBound := by decide +kernel
  have hlt := hall (k - 289) (by omega)
  rw [show 289 + (k - 289) = k by omega] at hlt
  omega

/-- A number that is safely below the largest double is read to a finite one. -/
theorem scaledRank_lt (hm : m < 2 ^ 64) (h : 0 ≤ e → m * 10 ^ e.toNat ≤ safeBound) :
    scaledRank m e < rankBound := by
  have hword : wholeRank m < rankBound := nearestRank_word_lt (Nat.le_of_lt hm)
  unfold scaledRank
  split
  next => decide
  next hpos =>
    split
    next => exact Nat.lt_of_le_of_lt (divPower_le _ _) hword
    next he =>
      have hsafe := h (by omega)
      generalize e.toNat = k at hsafe ⊢
      split
      next hk =>
        by_cases hsmall : k ≤ 288
        · exact mulRank_lt_of_small (Nat.le_of_lt hm) hsmall
        · exact mulRank_lt_of_large hsafe (by omega) hk
      next hk =>
        have hbound : safeBound < 10 ^ (maxPower + 1) := by decide +kernel
        have hpow : 10 ^ (maxPower + 1) ≤ 10 ^ k :=
          Nat.pow_le_pow_right (by decide) (Nat.not_le.mp hk)
        have hle : 10 ^ k ≤ m * 10 ^ k := Nat.le_mul_of_pos_left _ (Nat.pos_of_ne_zero hpos)
        omega

theorem isFinite_ofScaled {negative : Bool} (h : scaledRank m e < rankBound) :
    (ofScaled negative m e).isFinite = true := by
  unfold ofScaled ofRank
  rw [dif_pos h]
  rfl

end Binary64

end GoldenRecord

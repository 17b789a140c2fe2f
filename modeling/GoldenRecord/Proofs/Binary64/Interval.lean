import GoldenRecord.Proofs.Binary64.Nearest

namespace GoldenRecord

variable {n d q : Nat}

/-- The nearest integer is the one less than half a step away, or the even one of two. -/
theorem divNearest_eq (hd : 0 < d) (hup : 2 * n ≤ 2 * (q * d) + d) (hlow : 2 * (q * d) ≤ 2 * n + d)
    (htie : 2 * n = 2 * (q * d) + d ∨ 2 * (q * d) = 2 * n + d → q % 2 = 0) :
    divNearest n d = q := by
  have hbounds := divNearest_bounds (n := n) hd
  rcases Nat.lt_trichotomy (divNearest n d) q with hlt | heq | hgt
  · have hstep : (divNearest n d + 1) * d ≤ q * d := Nat.mul_le_mul_right d hlt
    rw [Nat.succ_mul] at hstep
    have hnext : (divNearest n d + 1) * d = q * d := by
      rw [Nat.succ_mul]
      omega
    have hq := Nat.eq_of_mul_eq_mul_right hd hnext
    have heven := htie (.inr (by omega))
    have := divNearest_of_tie (q := divNearest n d) (n := n) hd (by omega)
    omega
  · exact heq
  · have hstep : (q + 1) * d ≤ divNearest n d * d := Nat.mul_le_mul_right d hgt
    rw [Nat.succ_mul] at hstep
    have htied : 2 * n = 2 * (q * d) + d := by omega
    have heven := htie (.inl htied)
    have := divNearest_of_tie hd htied
    omega

/-- At half a step from the fraction the even integer is taken. -/
theorem divNearest_even (hd : 0 < d)
    (h : 2 * n = 2 * (divNearest n d * d) + d ∨ 2 * (divNearest n d * d) = 2 * n + d) :
    divNearest n d % 2 = 0 := by
  rcases h with h | h
  · have := divNearest_of_tie hd h
    omega
  · have hpos : 0 < divNearest n d := by
      refine Nat.pos_of_ne_zero fun hzero => ?_
      rw [hzero, Nat.zero_mul] at h
      omega
    obtain ⟨p, hp⟩ : ∃ p, divNearest n d = p + 1 := ⟨divNearest n d - 1, by omega⟩
    rw [hp, Nat.succ_mul p] at h
    have := divNearest_of_tie (q := p) (n := n) hd (by omega)
    omega

namespace Binary64

variable {b m r : Nat}

/-- A rank put together of a binade and a significand; the largest significand is the first one of
the next binade. -/
theorem unitsOf_binade (hm : m ≤ 2 * binadeSize) (hb : 0 < b → binadeSize ≤ m) :
    Finite.unitsOf (b * binadeSize + m) = m * 2 ^ b := by
  have hpos := binadeSize_pos
  rcases Nat.lt_or_ge m binadeSize with hlow | hhigh
  · obtain rfl : b = 0 := Nat.eq_zero_of_not_pos fun hlt => absurd (hb hlt) (by omega)
    unfold Finite.unitsOf
    rw [Nat.zero_mul, Nat.zero_add, if_pos hlow, Nat.pow_zero, Nat.mul_one]
  · rcases Nat.eq_or_lt_of_le hm with rfl | hlt
    · have hrank : b * binadeSize + 2 * binadeSize = (b + 1 + 1) * binadeSize := by
        rw [Nat.add_assoc, Nat.add_mul]
      rw [hrank, unitsOf_mul_binadeSize, Nat.pow_succ, Nat.mul_comm (2 ^ b), Nat.mul_assoc,
        Nat.mul_left_comm]
    · obtain ⟨k, rfl⟩ : ∃ k, m = binadeSize + k := ⟨m - binadeSize, by omega⟩
      have hk : k < binadeSize := by omega
      have hrank : b * binadeSize + (binadeSize + k) = k + (b + 1) * binadeSize := by
        rw [Nat.succ_mul]
        omega
      have hlarge : ¬ k + (b + 1) * binadeSize < binadeSize := by
        rw [Nat.succ_mul]
        omega
      unfold Finite.unitsOf
      rw [hrank, if_neg hlarge, Nat.add_mul_mod_self_right, Nat.mod_eq_of_lt hk,
        Nat.add_mul_div_right _ _ hpos, Nat.div_eq_of_lt hk, Nat.zero_add, Nat.add_sub_cancel,
        Nat.pow_eq]

/-- A fraction is at most half a step away from the double it is rounded to. -/
theorem half_step_of_nearestRank (hd : 0 < d) (hm : m < 2 * binadeSize)
    (hb : 0 < b → binadeSize ≤ m) (h : nearestRank n d = b * binadeSize + m) :
    2 * n ≤ 2 * (m * (d * 2 ^ b)) + d * 2 ^ b ∧ 2 * (m * (d * 2 ^ b)) ≤ 2 * n + d * 2 ^ b ∧
      (2 * n = 2 * (m * (d * 2 ^ b)) + d * 2 ^ b ∨ 2 * (m * (d * 2 ^ b)) = 2 * n + d * 2 ^ b →
        m % 2 = 0) := by
  have hsize : binadeSize = 4503599627370496 := by decide
  obtain ⟨hmax, hmin⟩ := significand_bounds (n := n) hd
  rw [nearestRank_eq] at h
  generalize hc : binade (n / d) = c at hmax hmin h
  have hstep : 0 < d * 2 ^ c := Nat.mul_pos hd (Nat.two_pow_pos c)
  have hbounds := divNearest_bounds (n := n) hstep
  have heven := divNearest_even (n := n) hstep
  rcases Nat.eq_or_lt_of_le hmax with hlast | hlt
  · -- the significand was rounded up to the first one of the next binade
    obtain ⟨rfl, rfl⟩ : b = c + 1 ∧ m = binadeSize := by
      rw [hlast] at h
      rw [hsize] at h hm hb ⊢
      omega
    have hdouble : d * 2 ^ (c + 1) = 2 * (d * 2 ^ c) := by
      rw [Nat.pow_succ, ← Nat.mul_assoc, Nat.mul_comm]
    have hvalue : binadeSize * (2 * (d * 2 ^ c)) = 2 * binadeSize * (d * 2 ^ c) := by
      rw [Nat.mul_left_comm, Nat.mul_assoc]
    rw [hlast] at hbounds
    rw [hdouble, hvalue]
    generalize 2 * binadeSize * (d * 2 ^ c) = value at hbounds ⊢
    omega
  · obtain ⟨rfl, hsame⟩ : b = c ∧ divNearest n (d * 2 ^ c) = m := by
      rw [hsize] at h hm hb hlt hmin
      omega
    rw [hsame] at hbounds heven
    exact ⟨hbounds.2, hbounds.1, heven⟩

/-- A fraction at most half a step away from a double is rounded to it. At the ends the significand
has to be even, and below a power of two the steps are shorter. -/
theorem nearestRank_of_half_step (hd : 0 < d) (hm : m < 2 * binadeSize)
    (hb : 0 < b → binadeSize ≤ m) (hup : 2 * n ≤ 2 * (m * (d * 2 ^ b)) + d * 2 ^ b)
    (hlow : 2 * (m * (d * 2 ^ b)) ≤ 2 * n + d * 2 ^ b)
    (htie : 2 * n = 2 * (m * (d * 2 ^ b)) + d * 2 ^ b ∨
      2 * (m * (d * 2 ^ b)) = 2 * n + d * 2 ^ b → m % 2 = 0)
    (hpower : n < m * (d * 2 ^ b) → 0 < b → binadeSize < m) :
    nearestRank n d = b * binadeSize + m := by
  have hstep : 0 < d * 2 ^ b := Nat.mul_pos hd (Nat.two_pow_pos b)
  have htop : (m + 1) * (d * 2 ^ b) ≤ 2 * binadeSize * (d * 2 ^ b) := Nat.mul_le_mul_right _ hm
  rw [Nat.succ_mul m] at htop
  have hlt : n < 2 * binadeSize * (d * 2 ^ b) := by omega
  have hbinade : binade (n / d) = b := by
    cases b with
    | zero =>
      have hquotient : n / d ≤ 2 * binadeSize - 1 := by
        refine Nat.le_sub_one_of_lt ((Nat.div_lt_iff_lt_mul hd).mpr ?_)
        rwa [Nat.pow_zero, Nat.mul_one] at hlt
      have hle := binade_mono hquotient
      have hzero : binade (2 * binadeSize - 1) = 0 := by decide
      omega
    | succ b =>
      -- only below the first double of the binade could the fraction belong to the one before
      have hle : binadeSize * (d * 2 ^ (b + 1)) ≤ n := by
        rcases Nat.lt_or_ge n (m * (d * 2 ^ (b + 1))) with hbelow | habove
        · have hmore : (binadeSize + 1) * (d * 2 ^ (b + 1)) ≤ m * (d * 2 ^ (b + 1)) :=
            Nat.mul_le_mul_right _ (hpower hbelow (Nat.succ_pos b))
          rw [Nat.succ_mul binadeSize] at hmore
          omega
        · exact Nat.le_trans (Nat.mul_le_mul_right _ (hb (Nat.succ_pos b))) habove
      refine binade_eq_iff ?_ ?_
      · rw [Nat.le_div_iff_mul_le hd, Nat.mul_assoc, Nat.mul_comm (2 ^ _)]
        exact hle
      · rw [Nat.div_lt_iff_lt_mul hd, Nat.mul_assoc _ (2 ^ _), Nat.mul_comm (2 ^ _)]
        exact hlt
  rw [nearestRank_eq, hbinade, divNearest_eq hstep hup hlow htie]

end Binary64

end GoldenRecord

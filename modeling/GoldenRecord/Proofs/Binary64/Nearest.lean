import GoldenRecord.Binary64.Nearest
import Mathlib.Algebra.Group.Nat.Defs

namespace GoldenRecord

variable {n d n' d' q : Nat}

theorem divNearest_bounds (hd : 0 < d) :
    2 * (divNearest n d * d) ≤ 2 * n + d ∧ 2 * n ≤ 2 * (divNearest n d * d) + d := by
  have hn : n / d * d + n % d = n := Nat.div_add_mod' n d
  have hr := Nat.mod_lt n hd
  have hup : (n / d + 1) * d = n / d * d + d := Nat.succ_mul _ _
  have hnear : divNearest n d = n / d ∧ 2 * (n % d) ≤ d ∨
      divNearest n d = n / d + 1 ∧ d ≤ 2 * (n % d) := by
    unfold divNearest
    dsimp only
    split
    next => omega
    next =>
      split
      next => omega
      next => omega
  rcases hnear with ⟨hf, hle⟩ | ⟨hf, hle⟩
  · rw [hf]
    omega
  · rw [hf, hup]
    omega

theorem divNearest_of_tie (hd : 0 < d) (h : 2 * n = 2 * (q * d) + d) :
    divNearest n d = q + q % 2 := by
  have hlt : n < (q + 1) * d := by
    have hsucc : (q + 1) * d = q * d + d := Nat.succ_mul q d
    omega
  have hq : n / d = q := Nat.div_eq_of_lt_le (by omega) hlt
  have hr : 2 * (n % d) = d := by
    have hn := Nat.div_add_mod' n d
    rw [hq] at hn
    omega
  unfold divNearest
  dsimp only
  rw [hr, hq, if_neg (by omega), if_neg (by omega)]

/-- A larger fraction is not rounded to a smaller integer: if it were, both would lie on the one tie
in between, and be equal. -/
theorem divNearest_mono (hd : 0 < d) (hd' : 0 < d') (h : n * d' ≤ n' * d) :
    divNearest n d ≤ divNearest n' d' := by
  rcases Nat.lt_or_ge (divNearest n' d') (divNearest n d) with hlt | hle
  · generalize hq : divNearest n' d' = q at hlt
    have hup : 2 * n' ≤ 2 * (q * d') + d' := hq ▸ (divNearest_bounds hd').2
    have hstep : (q + 1) * d ≤ divNearest n d * d := Nat.mul_le_mul_right d hlt
    have hsucc : (q + 1) * d = q * d + d := Nat.succ_mul q d
    have hlow : 2 * (q * d) + d ≤ 2 * n := by
      have := (divNearest_bounds (n := n) hd).1
      omega
    have hcommon : (2 * (q * d) + d) * d' = (2 * (q * d') + d') * d := by
      simp only [Nat.add_mul, Nat.mul_assoc, Nat.mul_comm d d']
    have h₁ : (2 * (q * d) + d) * d' ≤ 2 * n * d' := Nat.mul_le_mul_right d' hlow
    have h₂ : 2 * n' * d ≤ (2 * (q * d') + d') * d := Nat.mul_le_mul_right d hup
    have h₃ : 2 * n * d' ≤ 2 * n' * d := by
      simp only [Nat.mul_assoc]
      omega
    have htie : 2 * n * d' = (2 * (q * d) + d) * d' := by omega
    have htie' : 2 * n' * d = (2 * (q * d') + d') * d := by omega
    have he := divNearest_of_tie hd (Nat.eq_of_mul_eq_mul_right hd' htie)
    have he' := divNearest_of_tie hd' (Nat.eq_of_mul_eq_mul_right hd htie')
    omega
  · exact hle

theorem divNearest_mul (q : Nat) (hd : 0 < d) : divNearest (q * d) d = q := by
  have hb := divNearest_bounds (n := q * d) hd
  rcases Nat.lt_trichotomy (divNearest (q * d) d) q with hlt | heq | hgt
  · have hs := Nat.mul_le_mul_right d hlt
    rw [Nat.succ_mul] at hs
    omega
  · exact heq
  · have hs := Nat.mul_le_mul_right d hgt
    rw [Nat.succ_mul] at hs
    omega

theorem log2_mono {m n : Nat} (h : m ≤ n) : m.log2 ≤ n.log2 := by
  by_cases hm : m = 0
  · simp [hm]
  · exact (Nat.le_log2 (by omega)).mpr (Nat.le_trans (Nat.log2_self_le hm) h)

theorem div_le_div_of_cross (hd : 0 < d) (hd' : 0 < d') (h : n * d' ≤ n' * d) : n / d ≤ n' / d' := by
  rw [Nat.le_div_iff_mul_le hd']
  have hn : n / d * d ≤ n := Nat.div_mul_le_self n d
  have hcross : n / d * d' * d ≤ n' * d :=
    calc n / d * d' * d = n / d * d * d' := Nat.mul_right_comm _ _ _
      _ ≤ n * d' := Nat.mul_le_mul_right d' hn
      _ ≤ n' * d := h
  exact Nat.le_of_mul_le_mul_right hcross hd

namespace Binary64

theorem binadeSize_pos : 0 < binadeSize := by decide

theorem binadeSize_eq : binadeSize = 2 ^ 52 := rfl

theorem unitsPerOne_eq {k : Nat} (hk : k = 1074) : unitsPerOne = 2 ^ k := by
  unfold unitsPerOne
  rw [← hk, Nat.pow_eq]

theorem unitsPerOne_pos : 0 < unitsPerOne := by
  obtain ⟨k, hk⟩ : ∃ k, k = 1074 := ⟨_, rfl⟩
  rw [unitsPerOne_eq hk]
  exact Nat.two_pow_pos k

/-- The binade of a quotient, counted from the one that the subnormal numbers share. -/
def binade (q : Nat) : Nat := q.log2 - 52

theorem nearestRank_eq (n d : Nat) :
    nearestRank n d = binade (n / d) * binadeSize + divNearest n (d * 2 ^ binade (n / d)) := rfl

theorem binade_mono {p q : Nat} (h : p ≤ q) : binade p ≤ binade q := by
  have := log2_mono h
  unfold binade
  omega

theorem lt_of_binade (q : Nat) : q < 2 * binadeSize * 2 ^ binade q := by
  have hlt : q < 2 ^ (q.log2 + 1) := Nat.lt_log2_self
  have hexp : q.log2 + 1 ≤ 1 + 52 + binade q := by
    unfold binade
    omega
  have hpow : 2 ^ (1 + 52 + binade q) = 2 * binadeSize * 2 ^ binade q := by
    rw [Nat.pow_add, Nat.pow_add, Nat.pow_one, binadeSize_eq]
  exact hpow ▸ Nat.lt_of_lt_of_le hlt (Nat.pow_le_pow_right (by decide) hexp)

theorem le_of_binade {q : Nat} (h : 0 < binade q) : binadeSize * 2 ^ binade q ≤ q := by
  have hexp : q.log2 = 52 + binade q := by
    unfold binade at h ⊢
    omega
  have hq : q ≠ 0 := by
    intro hq
    simp [hq, binade] at h
  have hle := Nat.log2_self_le hq
  rwa [hexp, Nat.pow_add, ← binadeSize_eq] at hle

theorem binade_eq_iff {q b : Nat} (hlow : binadeSize * 2 ^ b ≤ q) (hup : q < 2 * binadeSize * 2 ^ b) :
    binade q = b := by
  have hpos : 0 < binadeSize * 2 ^ b := Nat.mul_pos binadeSize_pos (Nat.two_pow_pos b)
  have hlog : q.log2 = 52 + b := by
    rw [Nat.log2_eq_iff (by omega), show 52 + b + 1 = 1 + 52 + b by omega]
    simp only [Nat.pow_add, Nat.pow_one, ← binadeSize_eq]
    exact ⟨hlow, hup⟩
  unfold binade
  omega

/-- The significand of a quotient, of 53 bits at most or the next power of two. -/
theorem significand_bounds (hd : 0 < d) :
    divNearest n (d * 2 ^ binade (n / d)) ≤ 2 * binadeSize ∧
      (0 < binade (n / d) → binadeSize ≤ divNearest n (d * 2 ^ binade (n / d))) := by
  have hstep : 0 < d * 2 ^ binade (n / d) := Nat.mul_pos hd (Nat.two_pow_pos _)
  constructor
  · have hlt := lt_of_binade (n / d)
    rw [Nat.div_lt_iff_lt_mul hd, Nat.mul_assoc, Nat.mul_comm _ d] at hlt
    have hmono := divNearest_mono hstep hstep (Nat.mul_le_mul_right _ (Nat.le_of_lt hlt))
    rwa [divNearest_mul _ hstep] at hmono
  · intro hb
    have hle := le_of_binade hb
    rw [Nat.le_div_iff_mul_le hd, Nat.mul_assoc, Nat.mul_comm _ d] at hle
    have hmono := divNearest_mono hstep hstep (Nat.mul_le_mul_right _ hle)
    rwa [divNearest_mul _ hstep] at hmono

theorem nearestRank_mono (hd : 0 < d) (hd' : 0 < d') (h : n * d' ≤ n' * d) :
    nearestRank n d ≤ nearestRank n' d' := by
  rw [nearestRank_eq, nearestRank_eq]
  have hb := binade_mono (div_le_div_of_cross hd hd' h)
  have hs := (significand_bounds (n := n) hd).1
  have hs' := (significand_bounds (n := n') hd').2
  generalize binade (n / d) = b at hb hs ⊢
  generalize binade (n' / d') = b' at hb hs' ⊢
  rcases Nat.eq_or_lt_of_le hb with rfl | hlt
  · have hcross : n * (d' * 2 ^ b) ≤ n' * (d * 2 ^ b) := by
      rw [← Nat.mul_assoc, ← Nat.mul_assoc]
      exact Nat.mul_le_mul_right _ h
    have hmono := divNearest_mono (Nat.mul_pos hd (Nat.two_pow_pos b))
      (Nat.mul_pos hd' (Nat.two_pow_pos b)) hcross
    omega
  · have hstep : (b + 1) * binadeSize ≤ b' * binadeSize := Nat.mul_le_mul_right _ hlt
    rw [Nat.succ_mul] at hstep
    have := hs' (by omega)
    omega

theorem nearestRank_congr (hd : 0 < d) (hd' : 0 < d') (h : n * d' = n' * d) :
    nearestRank n d = nearestRank n' d' :=
  Nat.le_antisymm (nearestRank_mono hd hd' (Nat.le_of_eq h))
    (nearestRank_mono hd' hd (Nat.le_of_eq h.symm))

/-- A rank is a binade and a significand, whose top bit is set past the first binade. -/
theorem exists_binade (r : Nat) : ∃ b m, r = b * binadeSize + m ∧ m < 2 * binadeSize ∧
    (0 < b → binadeSize ≤ m) ∧ Finite.unitsOf r = m * 2 ^ b := by
  have hpos := binadeSize_pos
  by_cases hr : r < binadeSize
  · exact ⟨0, r, by omega, by omega, by omega, by simp [Finite.unitsOf, hr]⟩
  · have hdiv : 0 < r / binadeSize := Nat.div_pos (by omega) hpos
    have hmod := Nat.mod_lt r hpos
    have hsplit := Nat.div_add_mod' r binadeSize
    refine ⟨r / binadeSize - 1, binadeSize + r % binadeSize, ?_, by omega, by omega, ?_⟩
    · rw [Nat.sub_mul, Nat.one_mul]
      have hle : 1 * binadeSize ≤ r / binadeSize * binadeSize := Nat.mul_le_mul_right _ hdiv
      omega
    · unfold Finite.unitsOf
      rw [if_neg hr]
      rfl

theorem unitsOf_mul_binadeSize (b : Nat) :
    Finite.unitsOf ((b + 1) * binadeSize) = binadeSize * 2 ^ b := by
  have hlarge : ¬ (b + 1) * binadeSize < binadeSize :=
    Nat.not_lt.mpr (Nat.le_mul_of_pos_left _ (Nat.succ_pos b))
  unfold Finite.unitsOf
  rw [if_neg hlarge, Nat.mul_mod_left, Nat.mul_div_cancel _ binadeSize_pos, Nat.add_zero,
    Nat.add_sub_cancel]
  rfl

theorem nearestRank_unitsOf (r : Nat) (hd : 0 < d) : nearestRank (Finite.unitsOf r * d) d = r := by
  obtain ⟨b, m, hr, hm, hb, hu⟩ := exists_binade r
  have hbinade : binade (m * 2 ^ b) = b := by
    cases b with
    | zero =>
      have hle : binade (m * 2 ^ 0) ≤ binade (2 * binadeSize - 1) := binade_mono (by omega)
      have hzero : binade (2 * binadeSize - 1) = 0 := by decide
      omega
    | succ b =>
      exact binade_eq_iff (Nat.mul_le_mul_right _ (hb (by omega)))
        (Nat.mul_lt_mul_of_pos_right hm (Nat.two_pow_pos _))
  rw [nearestRank_eq, hu, Nat.mul_div_cancel _ hd, hbinade, Nat.mul_assoc, Nat.mul_comm (2 ^ b),
    divNearest_mul _ (Nat.mul_pos hd (Nat.two_pow_pos b))]
  exact hr.symm

theorem unitsOf_le_iff {r s : Nat} : Finite.unitsOf r ≤ Finite.unitsOf s ↔ r ≤ s := by
  have hmono : ∀ {r s : Nat}, Finite.unitsOf r ≤ Finite.unitsOf s → r ≤ s := by
    intro r s h
    have hrank := nearestRank_mono Nat.one_pos Nat.one_pos (Nat.mul_le_mul_right 1 (Nat.mul_le_mul_right 1 h))
    rwa [nearestRank_unitsOf r Nat.one_pos, nearestRank_unitsOf s Nat.one_pos] at hrank
  refine ⟨hmono, fun h => ?_⟩
  rcases Nat.le_total (Finite.unitsOf r) (Finite.unitsOf s) with hle | hge
  · exact hle
  · have heq : s = r := Nat.le_antisymm (hmono hge) h
    exact Nat.le_of_eq (congrArg Finite.unitsOf heq.symm)

/-- Half a unit and less is nothing. -/
theorem nearestRank_eq_zero (hd : 0 < d) (h : 2 * n ≤ d) : nearestRank n d = 0 := by
  have hle : nearestRank n d ≤ nearestRank 1 2 := nearestRank_mono hd (by decide) (by omega)
  have hzero : nearestRank 1 2 = 0 := by decide
  omega

theorem le_nearestRank {r : Nat} (hd : 0 < d) (h : Finite.unitsOf r * d ≤ n) :
    r ≤ nearestRank n d := by
  have hle := nearestRank_mono hd hd (Nat.mul_le_mul_right d h)
  rwa [nearestRank_unitsOf r hd] at hle

theorem nearestRank_le {r : Nat} (hd : 0 < d) (h : n ≤ Finite.unitsOf r * d) :
    nearestRank n d ≤ r := by
  have hle := nearestRank_mono hd hd (Nat.mul_le_mul_right d h)
  rwa [nearestRank_unitsOf r hd] at hle

theorem ofRank_of_le {negative : Bool} {r : Nat} (h : rankBound ≤ r) :
    ofRank negative r = .infinite negative := by
  unfold ofRank
  rw [dif_neg (by omega)]

theorem ofRank_rank (x : Finite) : ofRank x.negative x.rank = .finite x := by
  unfold ofRank
  rw [dif_pos x.rank_lt]

theorem decimalLength_bounds {m : Nat} (hm : m ≠ 0) :
    10 ^ (decimalLength m - 1) ≤ m ∧ m < 10 ^ decimalLength m := by
  have hpos : 0 < (Nat.toDigits 10 m).length := Nat.length_toDigits_pos
  unfold decimalLength
  rw [if_neg hm]
  constructor
  · by_cases hone : (Nat.toDigits 10 m).length = 1
    · rw [hone]
      omega
    · have hiff := Nat.length_toDigits_le_iff (b := 10) (n := m)
        (k := (Nat.toDigits 10 m).length - 1) (by decide) (by omega)
      omega
  · exact (Nat.length_toDigits_le_iff (by decide) hpos).mp (Nat.le_refl _)

theorem two_pow_le_ten_pow {a k : Nat} (h : a ≤ 3 * k) : 2 ^ a ≤ 10 ^ k :=
  calc 2 ^ a ≤ 2 ^ (3 * k) := Nat.pow_le_pow_right (by decide) h
    _ = 8 ^ k := Nat.pow_mul 2 3 k
    _ ≤ 10 ^ k := Nat.pow_le_pow_left (by decide) k

theorem two_units_le {k : Nat} (h : 401 ≤ k) : 2 * unitsPerOne ≤ 10 ^ k := by
  obtain ⟨n, hn⟩ : ∃ n, n = 1074 := ⟨_, rfl⟩
  rw [unitsPerOne_eq hn, Nat.mul_comm, ← Nat.pow_succ]
  exact two_pow_le_ten_pow (by omega)

theorem rankBound_units_le {k : Nat} (h : 400 ≤ k) :
    Finite.unitsOf rankBound ≤ 10 ^ k * unitsPerOne := by
  obtain ⟨n, hn⟩ : ∃ n, n = 1074 := ⟨_, rfl⟩
  have hexp : 52 + (2 * n - 102) = (n - 50) + n := by omega
  have hunits : Finite.unitsOf rankBound = binadeSize * 2 ^ (2 * n - 102) := by
    rw [← unitsOf_mul_binadeSize, hn]
    rfl
  rw [hunits, unitsPerOne_eq hn, binadeSize_eq, ← Nat.pow_add, hexp, Nat.pow_add]
  exact Nat.mul_le_mul_right _ (two_pow_le_ten_pow (by omega))

theorem unitsPerOne_dvd_largest : unitsPerOne ∣ Finite.unitsOf (rankBound - 1) := by
  obtain ⟨n, hn⟩ : ∃ n, n = 1074 := ⟨_, rfl⟩
  obtain ⟨b, m, hr, hm, hb, hu⟩ := exists_binade (rankBound - 1)
  have hexp : b = (n - 103) + n := by
    have hsize : binadeSize = 4503599627370496 := by decide
    have hbound : rankBound = 9218868437227405312 := by decide
    rw [hsize] at hr hm hb
    omega
  rw [hu, hexp, Nat.pow_add, unitsPerOne_eq hn, ← Nat.mul_assoc]
  exact Nat.dvd_mul_left _ _

theorem nearestRank_word_lt {n : Nat} (h : n ≤ 2 ^ 64) : nearestRank (n * unitsPerOne) 1 < rankBound := by
  obtain ⟨k, hk⟩ : ∃ k, k = 1074 := ⟨_, rfl⟩
  have hunits : Finite.unitsOf (1088 * binadeSize) = binadeSize * 2 ^ (13 + k) := by
    rw [← unitsOf_mul_binadeSize, hk]
  have hle : n * unitsPerOne ≤ Finite.unitsOf (1088 * binadeSize) * 1 := by
    rw [hunits, unitsPerOne_eq hk, Nat.pow_add, Nat.mul_one, ← Nat.mul_assoc]
    exact Nat.mul_le_mul_right _ (Nat.le_trans h (by decide))
  exact Nat.lt_of_le_of_lt (nearestRank_le Nat.one_pos hle) (by decide)

/-- Decimals this far below the smallest double are rounded to zero. -/
theorem nearestRank_of_low {m : Nat} {e : Int} (h : m = 0 ∨ decimalLength m + e < -400) :
    nearestRank (m * 10 ^ e.toNat * unitsPerOne) (10 ^ (-e).toNat) = 0 := by
  refine nearestRank_eq_zero (Nat.pow_pos (by decide)) ?_
  by_cases hm : m = 0
  · simp [hm]
  · have hlow := h.resolve_left hm
    have hlt := (decimalLength_bounds hm).2
    have he : e.toNat = 0 := by omega
    obtain ⟨k, hk⟩ : ∃ k, (-e).toNat = decimalLength m + k := ⟨(-e).toNat - decimalLength m, by omega⟩
    rw [he, Nat.pow_zero, Nat.mul_one]
    calc 2 * (m * unitsPerOne) = m * (2 * unitsPerOne) := Nat.mul_left_comm _ _ _
      _ ≤ 10 ^ decimalLength m * 10 ^ k :=
        Nat.mul_le_mul (Nat.le_of_lt hlt) (two_units_le (by omega))
      _ = 10 ^ (-e).toNat := by rw [hk, Nat.pow_add]

/-- Decimals this far above the largest double are rounded to no finite one. -/
theorem rankBound_le_of_high {m : Nat} {e : Int} (hm : m ≠ 0) (h : 400 < decimalLength m + e) :
    rankBound ≤ nearestRank (m * 10 ^ e.toNat * unitsPerOne) (10 ^ (-e).toNat) := by
  refine le_nearestRank (Nat.pow_pos (by decide)) ?_
  have hle := (decimalLength_bounds hm).1
  obtain ⟨k, hk⟩ : ∃ k, decimalLength m - 1 + e.toNat = k + (-e).toNat :=
    ⟨decimalLength m - 1 + e.toNat - (-e).toNat, by omega⟩
  calc Finite.unitsOf rankBound * 10 ^ (-e).toNat
      ≤ 10 ^ k * unitsPerOne * 10 ^ (-e).toNat :=
        Nat.mul_le_mul_right _ (rankBound_units_le (by omega))
    _ = 10 ^ (decimalLength m - 1) * 10 ^ e.toNat * unitsPerOne := by
        rw [Nat.mul_right_comm, ← Nat.pow_add, ← Nat.pow_add, hk]
    _ ≤ m * 10 ^ e.toNat * unitsPerOne := Nat.mul_le_mul_right _ (Nat.mul_le_mul_right _ hle)

/-- The range checks of decimal reading agree with rounding, so it is rounding throughout. -/
theorem ofDecimal_eq (negative : Bool) (m : Nat) (e : Int) :
    ofDecimal negative m e =
      ofRank negative (nearestRank (m * 10 ^ e.toNat * unitsPerOne) (10 ^ (-e).toNat)) := by
  unfold ofDecimal
  dsimp only
  split
  next hlow => rw [nearestRank_of_low hlow]
  next hlow =>
    split
    next hhigh =>
      have hm : m ≠ 0 := fun hm => hlow (.inl hm)
      exact (ofRank_of_le (rankBound_le_of_high hm hhigh)).symm
    next =>
      split
      next he =>
        have hzero : (-e).toNat = 0 := by omega
        rw [hzero]
        rfl
      next he =>
        have hzero : e.toNat = 0 := by omega
        rw [hzero, Nat.pow_zero, Nat.mul_one]
        rfl

theorem ofDecimal_zero (negative : Bool) (e : Int) : ofDecimal negative 0 e = ofRank negative 0 := by
  unfold ofDecimal
  dsimp only
  rw [if_pos (.inl rfl)]

/-- Zeros at the end of a coefficient are powers of ten. -/
theorem ofDecimal_shift (negative : Bool) (m k : Nat) (e : Int) :
    ofDecimal negative (m * 10 ^ k) (e - k) = ofDecimal negative m e := by
  rw [ofDecimal_eq, ofDecimal_eq]
  refine congrArg _ (nearestRank_congr (Nat.pow_pos (by decide)) (Nat.pow_pos (by decide)) ?_)
  have hexp : k + (e - k).toNat + (-e).toNat = e.toNat + (-(e - k)).toNat := by omega
  calc m * 10 ^ k * 10 ^ (e - k).toNat * unitsPerOne * 10 ^ (-e).toNat
      = m * (10 ^ k * 10 ^ (e - k).toNat * 10 ^ (-e).toNat) * unitsPerOne := by
        simp only [Nat.mul_assoc, Nat.mul_comm unitsPerOne]
    _ = m * (10 ^ e.toNat * 10 ^ (-(e - k)).toNat) * unitsPerOne := by
        rw [← Nat.pow_add, ← Nat.pow_add, ← Nat.pow_add, hexp]
    _ = m * 10 ^ e.toNat * unitsPerOne * 10 ^ (-(e - k)).toNat := by
        simp only [Nat.mul_assoc, Nat.mul_comm unitsPerOne]

theorem unitsOf_zero : Finite.unitsOf 0 = 0 := if_pos binadeSize_pos

theorem unsignedZero_rank (x : Finite) : x.unsignedZero.rank = x.rank := by
  unfold Finite.unsignedZero
  split
  next hzero => exact (beq_iff_eq.mp hzero).symm
  next => rfl

end Binary64

end GoldenRecord

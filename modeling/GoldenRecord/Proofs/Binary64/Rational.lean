import GoldenRecord.Proofs.Binary64.Interval
import Mathlib.Algebra.Order.Field.Basic
import Mathlib.Algebra.Order.Field.Rat
import Mathlib.Data.Rat.Cast.Order
import Mathlib.Tactic.FieldSimp
import Mathlib.Tactic.Linarith
import Mathlib.Tactic.Ring

namespace GoldenRecord

/-- A point nearest to a number, an even one if there are two. -/
structure IsNearest {ι : Type} (point : ι → ℚ) (isEven : ι → Prop) (q : ℚ) (i : ι) : Prop where
  le : ∀ j, |q - point i| ≤ |q - point j|
  even : ∀ j, point j ≠ point i → |q - point j| = |q - point i| → isEven i

namespace Finite

/-- The exact value of a double. -/
def toRat (x : Finite) : ℚ := x.value / Binary64.unitsPerOne

/-- The significand, of 53 bits from the normal numbers on. -/
def significand (x : Finite) : Nat :=
  if x.rank < Binary64.binadeSize then x.rank
  else Binary64.binadeSize + x.rank % Binary64.binadeSize

/-- The double nearest to a number, one with an even significand if there are two. -/
def IsNearest (x : Finite) (q : ℚ) : Prop :=
  GoldenRecord.IsNearest toRat (fun y => Even y.significand) q x

end Finite

/-- Where something lies between any two even points, only one point is nearest. -/
theorem IsNearest.unique {ι : Type} {point : ι → ℚ} {isEven : ι → Prop} {q : ℚ} {i j : ι}
    (hbetween : ∀ i j, isEven i → isEven j → point i < point j →
      ∃ k, point i < point k ∧ point k < point j)
    (hi : IsNearest point isEven q i) (hj : IsNearest point isEven q j) : point i = point j := by
  have hdistance : |q - point i| = |q - point j| := le_antisymm (hi.le j) (hj.le i)
  by_contra hne
  have hlt : ∀ {i j}, IsNearest point isEven q i → isEven i → isEven j →
      |q - point i| = |q - point j| → ¬ point i < point j := by
    intro i j hi hieven hjeven hdistance hlt
    obtain ⟨k, hik, hkj⟩ := hbetween i j hieven hjeven hlt
    have hmiddle : q - point i = -(q - point j) := by
      rcases abs_eq_abs.mp hdistance with hsame | hopposite
      · linarith
      · exact hopposite
    have hnearer : |q - point k| < q - point i := abs_lt.mpr ⟨by linarith, by linarith⟩
    have hle : q - point i ≤ |q - point k| := le_trans (le_abs_self _) (hi.le k)
    linarith
  have hieven := hi.even j (Ne.symm hne) hdistance.symm
  have hjeven := hj.even i hne hdistance
  rcases lt_or_gt_of_ne hne with h | h
  · exact hlt hi hieven hjeven hdistance h
  · exact hlt hj hjeven hieven hdistance.symm h

/-- No multiple is nearer to a fraction than the one it is rounded to, and one as near leaves it the
even one. -/
theorem divNearest_nearest {n d : Nat} (hd : 0 < d) (j : Nat) :
    (n - divNearest n d * d : Int).natAbs ≤ (n - j * d : Int).natAbs ∧
      (j ≠ divNearest n d →
        (n - j * d : Int).natAbs = (n - divNearest n d * d : Int).natAbs → divNearest n d % 2 = 0) := by
  have hbounds := divNearest_bounds (n := n) hd
  have heven := divNearest_even (n := n) hd
  generalize divNearest n d = q at hbounds heven ⊢
  rcases Nat.lt_trichotomy j q with hlt | rfl | hgt
  · have hstep : (j + 1) * d ≤ q * d := Nat.mul_le_mul_right d hlt
    rw [Nat.succ_mul] at hstep
    omega
  · exact ⟨le_rfl, fun hne => absurd rfl hne⟩
  · have hstep : (q + 1) * d ≤ j * d := Nat.mul_le_mul_right d hgt
    rw [Nat.succ_mul] at hstep
    omega

/-- A number given by its sign and its magnitude. -/
def withSign (negative : Bool) (n : Nat) : Int := if negative then -n else n

theorem withSign_mul (negative : Bool) (n d : Nat) :
    withSign negative (n * d) = withSign negative n * d := by
  unfold withSign
  push_cast
  split
  next => exact (neg_mul _ _).symm
  next => rfl

@[simp] theorem natAbs_withSign (negative : Bool) (n : Nat) : (withSign negative n).natAbs = n := by
  unfold withSign
  split <;> omega

theorem withSign_natAbs (k : Int) : withSign (decide (k < 0)) k.natAbs = k := by
  unfold withSign
  simp only [decide_eq_true_eq]
  split <;> omega

theorem natAbs_withSign_sub (negative : Bool) (a b : Nat) :
    (withSign negative a - withSign negative b).natAbs = (a - b : Int).natAbs := by
  unfold withSign
  split <;> omega

/-- Numbers of other signs are no nearer than their magnitudes. -/
theorem natAbs_sub_le_withSign (negative negative' : Bool) (a b : Nat) :
    (a - b : Int).natAbs ≤ (withSign negative a - withSign negative' b).natAbs := by
  unfold withSign
  split <;> split <;> omega

theorem eq_zero_of_opposite {negative negative' : Bool} {a b : Nat}
    (hne : withSign negative' b ≠ withSign negative b)
    (h : (withSign negative a - withSign negative' b).natAbs = (a - b : Int).natAbs) : a = 0 := by
  unfold withSign at hne h
  cases negative <;> cases negative' <;>
    simp only [Bool.false_eq_true, if_false, if_true, ne_eq, not_true_eq_false] at hne h
  all_goals omega

/-- A number with the sign of `q` is nearest to it if its magnitude is nearest among those there are,
zero included. -/
theorem isNearest_of_magnitude {ι : Type} {point : ι → ℚ} {isEven : ι → Prop} {i : ι}
    {negative : Bool} {a : Nat} {c : ℚ} (magnitude : ι → Nat) (hc : 0 < c)
    (hpoint : ∀ j, ∃ negative', point j = withSign negative' (magnitude j) / c)
    (hi : point i = withSign negative (magnitude i) / c) (hzero : ∃ j, magnitude j = 0)
    (hle : ∀ j, (a - magnitude i : Int).natAbs ≤ (a - magnitude j : Int).natAbs)
    (heven : ∀ j, magnitude j ≠ magnitude i →
      (a - magnitude j : Int).natAbs = (a - magnitude i : Int).natAbs → isEven i) :
    IsNearest point isEven (withSign negative a / c) i := by
  have hdistance : ∀ negative' b, |(withSign negative a / c : ℚ) - withSign negative' b / c| =
      (withSign negative a - withSign negative' b).natAbs / c := by
    intro negative' b
    rw [← sub_div, abs_div, abs_of_pos hc, Nat.cast_natAbs, Int.cast_abs, Int.cast_sub]
  have hself : |(withSign negative a / c : ℚ) - point i| = (a - magnitude i : Int).natAbs / c := by
    rw [hi, hdistance, natAbs_withSign_sub]
  constructor
  · intro j
    obtain ⟨negative', hj⟩ := hpoint j
    rw [hself, hj, hdistance, div_le_div_iff_of_pos_right hc, Nat.cast_le]
    exact Nat.le_trans (hle j) (natAbs_sub_le_withSign negative negative' a _)
  · intro j hne heq
    obtain ⟨negative', hj⟩ := hpoint j
    rw [hself, hj, hdistance, div_left_inj' hc.ne', Nat.cast_inj] at heq
    have hother := natAbs_sub_le_withSign negative negative' a (magnitude j)
    refine heven j (fun hsame => ?_) (Nat.le_antisymm (heq ▸ hother) (hle j))
    rw [hj, hi, hsame] at hne
    rw [hsame] at heq
    have ha := eq_zero_of_opposite (fun hvalue => hne (by rw [hvalue])) heq
    obtain ⟨k, hk⟩ := hzero
    have hnone := hle k
    rw [hk, ha] at hnone
    have hmagnitude : magnitude i = 0 := by omega
    rw [hmagnitude] at hne
    exact hne (by simp [withSign])

namespace Binary64

variable {n d r s : Nat}

theorem even_significand_iff (x : Finite) : Even x.significand ↔ x.rank % 2 = 0 := by
  have hsize : binadeSize = 4503599627370496 := by decide
  unfold Finite.significand
  rw [Nat.even_iff, hsize]
  split
  next => rfl
  next => omega

/-- A double below the binade of a fraction is farther from it than the first double of the binade. -/
theorem unitsOf_lt_of_binade {b c m : Nat} (hm : m < 2 * binadeSize) (h : b < c) :
    m * 2 ^ b < binadeSize * 2 ^ c :=
  calc m * 2 ^ b < 2 * binadeSize * 2 ^ b := Nat.mul_lt_mul_of_pos_right hm (Nat.two_pow_pos b)
    _ = binadeSize * 2 ^ (b + 1) := by rw [Nat.pow_succ, Nat.mul_comm 2, Nat.mul_assoc, Nat.mul_comm 2]
    _ ≤ binadeSize * 2 ^ c := Nat.mul_le_mul_left _ (Nat.pow_le_pow_right (by decide) h)

/-- No double is nearer to a fraction than the one it is rounded to, and one as near leaves it the
even one. -/
theorem nearestRank_nearest (hd : 0 < d) (s : Nat) :
    (n - Finite.unitsOf (nearestRank n d) * d : Int).natAbs ≤
        (n - Finite.unitsOf s * d : Int).natAbs ∧
      (Finite.unitsOf s ≠ Finite.unitsOf (nearestRank n d) →
        (n - Finite.unitsOf s * d : Int).natAbs =
          (n - Finite.unitsOf (nearestRank n d) * d : Int).natAbs → nearestRank n d % 2 = 0) := by
  have hsize : binadeSize % 2 = 0 := by decide
  obtain ⟨hmax, hmin⟩ := significand_bounds (n := n) hd
  have hlow := le_of_binade (q := n / d)
  rw [nearestRank_eq]
  generalize hc : binade (n / d) = c at hmax hmin hlow ⊢
  have hstep : 0 < d * 2 ^ c := Nat.mul_pos hd (Nat.two_pow_pos c)
  have hnear := fun j => divNearest_nearest (n := n) hstep j
  have hrank : divNearest n (d * 2 ^ c) % 2 = 0 →
      (c * binadeSize + divNearest n (d * 2 ^ c)) % 2 = 0 := by
    intro hm
    rw [Nat.add_mod, Nat.mul_mod, hsize, hm, Nat.mul_zero]
  have hunits : ∀ k : Nat, ((k * 2 ^ c : Nat) : Int) * d = k * (d * 2 ^ c : Nat) := by
    intro k
    push_cast
    ring
  rw [unitsOf_binade hmax hmin, hunits]
  obtain ⟨b, k, -, hk, -, hs⟩ := exists_binade s
  rw [hs]
  rcases Nat.lt_or_ge b c with hlt | hge
  · -- a double of a lower binade is not a multiple of the step, but lies below one that is
    have hpos : 0 < c := Nat.zero_lt_of_lt hlt
    have hbelow : k * 2 ^ b * d < binadeSize * 2 ^ c * d :=
      Nat.mul_lt_mul_of_pos_right (unitsOf_lt_of_binade hk hlt) hd
    have hfirst : binadeSize * 2 ^ c * d ≤ n := (Nat.le_div_iff_mul_le hd).mp (hlow hpos)
    obtain ⟨hle, -⟩ := hnear binadeSize
    rw [← hunits binadeSize] at hle
    have hcast : ((k * 2 ^ b : Nat) : Int) * d < (binadeSize * 2 ^ c : Nat) * d ∧
        ((binadeSize * 2 ^ c : Nat) : Int) * d ≤ n := by exact_mod_cast And.intro hbelow hfirst
    generalize ((k * 2 ^ b : Nat) : Int) * d = below at hcast ⊢
    generalize ((binadeSize * 2 ^ c : Nat) : Int) * d = first at hcast hle
    omega
  · obtain ⟨e, rfl⟩ : ∃ e, b = c + e := ⟨b - c, by omega⟩
    have hmultiple : k * 2 ^ (c + e) = k * 2 ^ e * 2 ^ c := by
      rw [Nat.pow_add, Nat.mul_comm (2 ^ c), Nat.mul_assoc]
    rw [hmultiple, hunits]
    obtain ⟨hle, htie⟩ := hnear (k * 2 ^ e)
    refine ⟨hle, fun hne heq => hrank (htie ?_ heq)⟩
    rintro heq
    exact hne (by rw [heq])

theorem value_eq_withSign (x : Finite) : x.value = withSign x.negative x.units := rfl

theorem toRat_inj {x y : Finite} : x.toRat = y.toRat ↔ x.value = y.value := by
  have hunit : (unitsPerOne : ℚ) ≠ 0 := Nat.cast_ne_zero.mpr unitsPerOne_pos.ne'
  unfold Finite.toRat
  rw [div_left_inj' hunit, Int.cast_inj]

theorem ofRatio_eq_finite {negative : Bool} {x : Finite} (h : ofRatio negative n d = .finite x) :
    x.negative = negative ∧ x.rank = nearestRank (n * unitsPerOne) d := by
  unfold ofRatio ofRank at h
  split at h
  next =>
    cases h
    exact ⟨rfl, rfl⟩
  next => cases h

theorem withSign_div (negative : Bool) (n : Nat) {d k : Nat} (hk : 0 < k) :
    (withSign negative n / d : ℚ) = withSign negative (n * k) / (d * k : Nat) := by
  have hk : (k : ℚ) ≠ 0 := Nat.cast_ne_zero.mpr hk.ne'
  rw [withSign_mul, Nat.cast_mul, Int.cast_mul, Int.cast_natCast, mul_div_mul_right _ _ hk]

theorem toRat_eq (x : Finite) : x.toRat = withSign x.negative x.units / unitsPerOne := rfl

theorem ofRatio_isNearest {negative : Bool} {x : Finite} (hd : 0 < d)
    (h : ofRatio negative n d = .finite x) : x.IsNearest (withSign negative n / d) := by
  obtain ⟨rfl, hrank⟩ := ofRatio_eq_finite h
  have hscale : (0 : ℚ) < (d * unitsPerOne : Nat) := Nat.cast_pos.mpr (Nat.mul_pos hd unitsPerOne_pos)
  have hnear := fun y : Finite => nearestRank_nearest (n := n * unitsPerOne) hd y.rank
  rw [← hrank] at hnear
  have hpoint : ∀ y : Finite, y.toRat =
      (withSign y.negative (y.units * d) : ℚ) / (d * unitsPerOne : Nat) := by
    intro y
    rw [toRat_eq, withSign_div y.negative y.units hd, Nat.mul_comm unitsPerOne]
  rw [withSign_div x.negative n unitsPerOne_pos]
  refine isNearest_of_magnitude (fun y : Finite => y.units * d) hscale (fun y => ⟨_, hpoint y⟩)
    (hpoint x) ⟨.zero, ?_⟩ (fun y => (hnear y).1) fun y hne heq => ?_
  · exact (congrArg (· * d) unitsOf_zero).trans (Nat.zero_mul d)
  · refine (even_significand_iff x).mpr ((hnear y).2 (fun hsame => hne ?_) heq)
    exact congrArg (· * d) hsame

theorem toRat_lt_iff {x y : Finite} : x.toRat < y.toRat ↔ x.value < y.value := by
  have hunit : (0 : ℚ) < unitsPerOne := Nat.cast_pos.mpr unitsPerOne_pos
  unfold Finite.toRat
  rw [div_lt_div_iff_of_pos_right hunit, Int.cast_lt]

theorem unitsOf_lt_iff {r s : Nat} : Finite.unitsOf r < Finite.unitsOf s ↔ r < s := by
  rw [← Nat.not_le, unitsOf_le_iff, Nat.not_le]

/-- Doubles are ordered like their ranks with the sign. -/
theorem toRat_lt_iff_rank {x y : Finite} :
    x.toRat < y.toRat ↔ withSign x.negative x.rank < withSign y.negative y.rank := by
  have hunits := unitsOf_lt_iff (r := x.rank) (s := y.rank)
  have hunits' := unitsOf_lt_iff (r := y.rank) (s := x.rank)
  have hx := unitsOf_lt_iff (r := 0) (s := x.rank)
  have hy := unitsOf_lt_iff (r := 0) (s := y.rank)
  rw [unitsOf_zero] at hx hy
  rw [toRat_lt_iff, value_eq_withSign, value_eq_withSign]
  unfold withSign Finite.units
  cases x.negative <;> cases y.negative <;> simp only [Bool.false_eq_true, if_false, if_true] <;> omega

theorem toRat_le_iff {x y : Finite} : x.toRat ≤ y.toRat ↔ x.value ≤ y.value := by
  rw [← not_lt, toRat_lt_iff, not_lt]

/-- Between two doubles with even significands lies another double. -/
theorem exists_between {x y : Finite} (hx : Even x.significand) (hy : Even y.significand)
    (h : x.toRat < y.toRat) : ∃ z : Finite, x.toRat < z.toRat ∧ z.toRat < y.toRat := by
  rw [even_significand_iff] at hx hy
  simp only [toRat_lt_iff_rank] at h ⊢
  have hxrank := x.rank_lt
  have hyrank := y.rank_lt
  generalize hs : withSign x.negative x.rank = s at h ⊢
  generalize ht : withSign y.negative y.rank = t at h ⊢
  have hs : s.natAbs = x.rank := hs ▸ natAbs_withSign _ _
  have ht : t.natAbs = y.rank := ht ▸ natAbs_withSign _ _
  refine ⟨⟨decide (s + 1 < 0), (s + 1).natAbs, by omega⟩, ?_⟩
  rw [withSign_natAbs]
  omega

/-- A number is rounded to one double only, apart from the sign of zero. -/
theorem isNearest_unique {q : ℚ} {x y : Finite} (hx : x.IsNearest q) (hy : y.IsNearest q) :
    x.toRat = y.toRat :=
  IsNearest.unique (fun _ _ => exists_between) hx hy

theorem unsignedZero_negative {x : Finite} (h : x.unsignedZero.rank = 0) :
    x.unsignedZero.negative = false := by
  unfold Finite.unsignedZero at h ⊢
  split
  next => rfl
  next hzero =>
    rw [if_neg hzero] at h
    exact absurd (beq_iff_eq.mpr h) hzero

theorem neg_unsignedZero (x : Finite) : x.unsignedZero.neg.unsignedZero = x.neg.unsignedZero := by
  unfold Finite.unsignedZero
  by_cases hzero : x.isZero = true
  · have hneg : x.neg.isZero = true := hzero
    have hzeroNeg : Finite.zero.neg.isZero = true := rfl
    rw [if_pos hzero, if_pos hneg, if_pos hzeroNeg]
  · rw [if_neg hzero]

theorem toRat_unsignedZero (x : Finite) : x.unsignedZero.toRat = x.toRat := by
  unfold Finite.unsignedZero
  split
  next hzero =>
    have hunits : x.units = 0 := by
      unfold Finite.units
      rw [beq_iff_eq.mp hzero, unitsOf_zero]
    rw [toRat_eq, toRat_eq, hunits]
    simp [withSign, Finite.zero, Finite.units, Finite.unitsOf]
  next => rfl

theorem toRat_eq_zero_iff {x : Finite} : x.toRat = 0 ↔ x.rank = 0 := by
  have hunits := unitsOf_lt_iff (r := 0) (s := x.rank)
  rw [unitsOf_zero] at hunits
  have hunit : (unitsPerOne : ℚ) ≠ 0 := Nat.cast_ne_zero.mpr unitsPerOne_pos.ne'
  rw [toRat_eq, div_eq_zero_iff, or_iff_left hunit, Int.cast_eq_zero, ← Int.natAbs_eq_zero,
    natAbs_withSign]
  unfold Finite.units
  omega

theorem rank_eq_of_toRat {x y : Finite} (h : x.toRat = y.toRat) : x.rank = y.rank := by
  have hmagnitude := congrArg Int.natAbs (toRat_inj.mp h)
  rw [value_eq_withSign, value_eq_withSign, natAbs_withSign, natAbs_withSign] at hmagnitude
  have hle := unitsOf_le_iff.mp (Nat.le_of_eq hmagnitude)
  have hge := unitsOf_le_iff.mp (Nat.le_of_eq hmagnitude.symm)
  omega

/-- A double is known by its value, and by its sign if it is zero. -/
theorem eq_of_toRat {x y : Finite} (h : x.toRat = y.toRat)
    (hzero : x.toRat = 0 → x.negative = y.negative) : x = y := by
  have hrank := rank_eq_of_toRat h
  have hvalue := toRat_inj.mp h
  have hunits : x.units = y.units := congrArg Finite.unitsOf hrank
  rw [value_eq_withSign, value_eq_withSign] at hvalue
  have hnegative : x.negative = y.negative := by
    by_cases hx : x.toRat = 0
    · exact hzero hx
    · have hpos : x.units ≠ 0 := fun hnone => hx (by rw [toRat_eq, hnone]; simp [withSign])
      rw [← hunits] at hvalue
      generalize x.units = u at hvalue hpos
      unfold withSign at hvalue
      cases hnx : x.negative <;> cases hny : y.negative <;>
        simp only [hnx, hny, Bool.false_eq_true, if_false, if_true] at hvalue ⊢
      all_goals omega
  obtain ⟨negative, rank, _⟩ := x
  obtain ⟨negative', rank', _⟩ := y
  cases hrank
  cases hnegative
  rfl

theorem toRat_neg (x : Finite) : x.neg.toRat = -x.toRat := by
  have hvalue : x.neg.value = -x.value := by
    unfold Finite.value Finite.neg
    cases x.negative <;> simp [Finite.units]
  unfold Finite.toRat
  rw [hvalue, Int.cast_neg, neg_div]

theorem isNearest_unsignedZero {q : ℚ} {x : Finite} (h : x.IsNearest q) :
    x.unsignedZero.IsNearest q := by
  have hvalue := toRat_unsignedZero x
  refine ⟨fun y => hvalue ▸ h.le y, fun y hne heq => ?_⟩
  have heven := h.even y (hvalue ▸ hne) (hvalue ▸ heq)
  rw [even_significand_iff] at heven ⊢
  rwa [unsignedZero_rank]

end Binary64

end GoldenRecord

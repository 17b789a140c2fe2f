import GoldenRecord.Binary64.Shortest
import GoldenRecord.Proofs.Binary64.Interval

namespace GoldenRecord

namespace Grid

variable {tie : Tie} {v : Nat} {back : Nat → Nat → Bool} {n m c : Nat}

/-- What is written on a grid is read back; nothing is written if neither neighbour is. -/
theorem candidate?_cases {o : Option Nat} (h : candidate? tie v back n = o) :
    (o = none ∧ back n (v / 10 ^ n) = false ∧ back n (v / 10 ^ n + 1) = false) ∨
      ∃ c, o = some c ∧ back n c = true := by
  unfold candidate? at h
  simp only [Nat.pow_eq] at h
  split at h
  next hb ha => exact .inl ⟨h.symm, hb, ha⟩
  next hb _ => exact .inr ⟨_, h.symm, hb⟩
  next _ ha => exact .inr ⟨_, h.symm, ha⟩
  next hb ha =>
    refine .inr ?_
    split at h
    next => exact ⟨_, h.symm, hb⟩
    next =>
      split at h
      next => exact ⟨_, h.symm, ha⟩
      next =>
        cases tie with
        | up => exact ⟨_, h.symm, ha⟩
        | toEven =>
          refine ⟨_, h.symm, ?_⟩
          rcases Nat.mod_two_eq_zero_or_one (v / 10 ^ n) with heven | hodd
          · rw [heven]
            exact hb
          · rw [hodd]
            exact ha

theorem coarsest_back (tie : Tie) (m : Nat) (hv : back 0 v = true) :
    back (coarsest tie v back m).2 (coarsest tie v back m).1 = true := by
  induction m with
  | zero => exact hv
  | succ m ih =>
    unfold coarsest
    split
    next hc =>
      rcases candidate?_cases hc with ⟨h, -⟩ | ⟨c, h, hback⟩
      · cases h
      · cases h
        exact hback
    next => exact ih

/-- A grid where a neighbour is read back is not passed over. -/
theorem le_coarsest (hn : n ≤ m)
    (hback : back n (v / 10 ^ n) = true ∨ back n (v / 10 ^ n + 1) = true) :
    n ≤ (coarsest tie v back m).2 := by
  induction m with
  | zero => omega
  | succ m ih =>
    unfold coarsest
    split
    next => exact hn
    next hnone =>
      rcases Nat.eq_or_lt_of_le hn with rfl | hlt
      · rcases candidate?_cases hnone with ⟨-, hb, ha⟩ | ⟨c, h, -⟩
        · simp [hb, ha] at hback
        · cases h
      · exact ih (by omega)

/-- The search begins on a grid coarser than all that have a multiple near the number. -/
theorem le_coarsestExponent (h : 10 ^ n ≤ 2 * v) : n ≤ coarsestExponent v := by
  have hv : v < 2 ^ (v.log2 + 1) := Nat.lt_log2_self
  unfold coarsestExponent
  generalize v.log2 + 1 = bits at hv ⊢
  cases n with
  | zero => omega
  | succ n =>
    have hbelow : 10 ^ n < 2 ^ bits := by
      rw [Nat.pow_succ] at h
      omega
    have hpower : (10 : Nat) ^ (n * 93) < 10 ^ (28 * bits) :=
      calc (10 : Nat) ^ (n * 93) = (10 ^ n) ^ 93 := Nat.pow_mul 10 n 93
        _ < (2 ^ bits) ^ 93 := Nat.pow_lt_pow_left hbelow (by decide)
        _ = (2 ^ 93) ^ bits := Nat.pow_right_comm 2 bits 93
        _ ≤ (10 ^ 28) ^ bits := Nat.pow_le_pow_left (by decide) bits
        _ = 10 ^ (28 * bits) := (Nat.pow_mul 10 28 bits).symm
    have hexp : n * 93 < 28 * bits := (Nat.pow_lt_pow_iff_right (by decide)).mp hpower
    omega

/-- A multiple that is read back has the neighbour on its side read back as well. -/
def HasNeighbours (v : Nat) (back : Nat → Nat → Bool) : Prop :=
  ∀ n j, back n j = true → j ≤ v / 10 ^ n ∧ back n (v / 10 ^ n) = true ∨
    v / 10 ^ n < j ∧ back n (v / 10 ^ n + 1) = true

theorem candidate?_nearest {j : Nat} (hside : HasNeighbours v back)
    (h : candidate? tie v back n = some c) (hj : back n j = true) :
    (v - (c * 10 ^ n : Nat) : Int).natAbs ≤ (v - (j * 10 ^ n : Nat) : Int).natAbs := by
  have hsplit : v / 10 ^ n * 10 ^ n + v % 10 ^ n = v := Nat.div_add_mod' v (10 ^ n)
  have hrest : v % 10 ^ n < 10 ^ n := Nat.mod_lt v (Nat.pow_pos (by decide))
  have hnext : (v / 10 ^ n + 1) * 10 ^ n = v / 10 ^ n * 10 ^ n + 10 ^ n := Nat.succ_mul _ _
  have hplace : j * 10 ^ n ≤ v / 10 ^ n * 10 ^ n ∧ back n (v / 10 ^ n) = true ∨
      (v / 10 ^ n + 1) * 10 ^ n ≤ j * 10 ^ n ∧ back n (v / 10 ^ n + 1) = true := by
    rcases hside n j hj with ⟨hle, hb⟩ | ⟨hlt, ha⟩
    · exact .inl ⟨Nat.mul_le_mul_right _ hle, hb⟩
    · exact .inr ⟨Nat.mul_le_mul_right _ hlt, ha⟩
  -- whatever is read back lies at or beyond a neighbour, so only the two neighbours compete
  unfold candidate? at h
  simp only [Nat.pow_eq] at h
  split at h
  next => cases h
  next _ ha =>
    cases h
    simp only [ha, Bool.false_eq_true, and_false, or_false] at hplace
    omega
  next hb _ =>
    cases h
    simp only [hb, Bool.false_eq_true, and_false, false_or] at hplace
    omega
  next =>
    split at h
    next =>
      cases h
      omega
    next =>
      split at h
      next =>
        cases h
        omega
      next =>
        cases tie with
        | up =>
          cases h
          omega
        | toEven =>
          cases h
          rcases Nat.mod_two_eq_zero_or_one (v / 10 ^ n) with heven | hodd
          · rw [heven, Nat.add_zero]
            omega
          · rw [hodd]
            omega

/-- Of the multiples on its grid that are read back, none is nearer than the one that is found. -/
theorem coarsest_nearest (tie : Tie) (m : Nat) (hside : HasNeighbours v back) {j : Nat}
    (hj : back (coarsest tie v back m).2 j = true) :
    (v - ((coarsest tie v back m).1 * 10 ^ (coarsest tie v back m).2 : Nat) : Int).natAbs ≤
      (v - (j * 10 ^ (coarsest tie v back m).2 : Nat) : Int).natAbs := by
  induction m with
  | zero =>
    unfold coarsest
    rw [Nat.pow_zero, Nat.mul_one]
    omega
  | succ m ih =>
    unfold coarsest at hj ⊢
    split at hj
    next c hc => exact candidate?_nearest hside hc hj
    next => exact ih hj

end Grid

namespace Finite

open Binary64

variable {tie : Tie} {rank n m c : Nat}

theorem decimalUnitsPerUnit_eq {k : Nat} (hk : k = 1074) : decimalUnitsPerUnit = 5 ^ k := by
  unfold decimalUnitsPerUnit
  rw [← hk, Nat.pow_eq]

theorem decimalUnitsPerUnit_pos : 0 < decimalUnitsPerUnit := by
  obtain ⟨k, hk⟩ : ∃ k, k = 1074 := ⟨_, rfl⟩
  rw [decimalUnitsPerUnit_eq hk]
  exact Nat.pow_pos (by decide)

theorem units_times_five {k : Nat} (hk : k = 1074) :
    unitsPerOne * decimalUnitsPerUnit = 10 ^ k := by
  rw [unitsPerOne_eq hk, decimalUnitsPerUnit_eq hk, ← Nat.mul_pow]

theorem readsBack_iff :
    readsBack rank n c = true ↔ nearestRank (c * 10 ^ n) decimalUnitsPerUnit = rank :=
  decide_eq_true_iff

theorem nearestRank_decimalUnits (rank : Nat) :
    nearestRank (decimalUnits rank) decimalUnitsPerUnit = rank :=
  nearestRank_unitsOf rank decimalUnitsPerUnit_pos

/-- What lies between the double and a decimal that is read back to it, is read back as well. -/
theorem readsBack_between {a : Nat} (hc : readsBack rank n c = true)
    (h : c * 10 ^ n ≤ a * 10 ^ n ∧ a * 10 ^ n ≤ decimalUnits rank ∨
      decimalUnits rank ≤ a * 10 ^ n ∧ a * 10 ^ n ≤ c * 10 ^ n) : readsBack rank n a = true := by
  have hpos := decimalUnitsPerUnit_pos
  have hv := nearestRank_decimalUnits rank
  rw [readsBack_iff] at hc ⊢
  rcases h with ⟨h₁, h₂⟩ | ⟨h₁, h₂⟩
  · have := nearestRank_mono hpos hpos (Nat.mul_le_mul_right decimalUnitsPerUnit h₁)
    have := nearestRank_mono hpos hpos (Nat.mul_le_mul_right decimalUnitsPerUnit h₂)
    omega
  · have := nearestRank_mono hpos hpos (Nat.mul_le_mul_right decimalUnitsPerUnit h₁)
    have := nearestRank_mono hpos hpos (Nat.mul_le_mul_right decimalUnitsPerUnit h₂)
    omega

/-- If a grid has any decimal that is read back, then the neighbour on its side is. -/
theorem readsBack_neighbours (rank : Nat) :
    Grid.HasNeighbours (decimalUnits rank) (readsBack rank) := by
  intro n c hc
  have hpos : 0 < 10 ^ n := Nat.pow_pos (by decide)
  have hbelow : decimalUnits rank / 10 ^ n * 10 ^ n ≤ decimalUnits rank := Nat.div_mul_le_self _ _
  have habove : decimalUnits rank ≤ (decimalUnits rank / 10 ^ n + 1) * 10 ^ n :=
    Nat.le_of_lt ((Nat.div_lt_iff_lt_mul hpos).mp (Nat.lt_succ_self _))
  rcases Nat.lt_or_ge (decimalUnits rank / 10 ^ n) c with hlt | hle
  · exact .inr ⟨hlt, readsBack_between hc (.inr ⟨habove, Nat.mul_le_mul_right _ hlt⟩)⟩
  · exact .inl ⟨hle, readsBack_between hc (.inl ⟨Nat.mul_le_mul_right _ hle, hbelow⟩)⟩

/-- The significand and the step of a double, in decimal units. -/
theorem exists_binade_decimalUnits (rank : Nat) : ∃ b m, rank = b * binadeSize + m ∧
    m < 2 * binadeSize ∧ (0 < b → binadeSize ≤ m) ∧
      m * (decimalUnitsPerUnit * 2 ^ b) = decimalUnits rank := by
  obtain ⟨b, m, hr, hm, hb, hu⟩ := exists_binade rank
  refine ⟨b, m, hr, hm, hb, ?_⟩
  rw [decimalUnits, hu, Nat.mul_assoc, Nat.mul_comm (2 ^ b)]

theorem significand_pos {b : Nat} (hrank : b * binadeSize + m ≠ 0) (hb : 0 < b → binadeSize ≤ m) :
    0 < m := by
  have hsize := binadeSize_pos
  refine Nat.pos_of_ne_zero fun hzero => hrank ?_
  have hb0 : b = 0 := Nat.eq_zero_of_not_pos fun hlt => by have := hb hlt; omega
  rw [hzero, hb0, Nat.zero_mul]

/-- A decimal that is read back to a double other than zero is not far above it, and not zero. -/
theorem readsBack_bounds (hrank : rank ≠ 0) (hc : readsBack rank n c = true) :
    0 < c ∧ 2 * (c * 10 ^ n) ≤ 3 * decimalUnits rank := by
  have hpos := decimalUnitsPerUnit_pos
  obtain ⟨b, m, hr, hm, hb, hv⟩ := exists_binade_decimalUnits rank
  have hread := readsBack_iff.mp hc
  constructor
  · refine Nat.pos_of_ne_zero fun hzero => hrank ?_
    rw [hzero, Nat.zero_mul] at hread
    rw [← hread]
    exact nearestRank_eq_zero hpos (Nat.zero_le _)
  · rw [hr] at hread
    have hup := (half_step_of_nearestRank hpos hm hb hread).1
    have hstep : decimalUnitsPerUnit * 2 ^ b ≤ m * (decimalUnitsPerUnit * 2 ^ b) :=
      Nat.le_mul_of_pos_left _ (significand_pos (hr ▸ hrank) hb)
    omega

theorem readsBack_decimalUnits (rank : Nat) : readsBack rank 0 (decimalUnits rank) = true := by
  rw [readsBack_iff, Nat.pow_zero, Nat.mul_one]
  exact nearestRank_decimalUnits rank

/-- Reading a decimal on a grid is rounding in the units of the grid. -/
theorem ofDecimal_grid (negative : Bool) (found : Nat × Nat) :
    ofDecimal negative (Grid.decimal found).coefficient (Grid.decimal found).exponent =
      ofRank negative (nearestRank (found.1 * 10 ^ found.2) decimalUnitsPerUnit) := by
  obtain ⟨c, n⟩ := found
  unfold Grid.decimal
  rw [ofDecimal_eq]
  refine congrArg _ (nearestRank_congr (Nat.pow_pos (by decide)) decimalUnitsPerUnit_pos ?_)
  obtain ⟨k, hk, hcast⟩ : ∃ k : Nat, k = 1074 ∧ (1074 : Int) = k := ⟨1074, rfl, rfl⟩
  have hfive := units_times_five hk
  dsimp only
  generalize decimalUnitsPerUnit = five at hfive ⊢
  rw [hcast]
  have hexp : ((n : Int) - k).toNat + k = n + (-((n : Int) - k)).toNat := by omega
  calc c * 10 ^ ((n : Int) - k).toNat * unitsPerOne * five
      = c * 10 ^ ((n : Int) - k).toNat * 10 ^ k := by rw [Nat.mul_assoc, hfive]
    _ = c * 10 ^ n * 10 ^ (-((n : Int) - k)).toNat := by
        rw [Nat.mul_assoc, Nat.mul_assoc, ← Nat.pow_add, ← Nat.pow_add, hexp]

/-- The search does not pass over a grid that has a decimal which is read back. -/
theorem le_coarsest_of_readsBack (tie : Tie) (hrank : rank ≠ 0) (hc : readsBack rank n c = true) :
    n ≤ (Grid.coarsest tie (decimalUnits rank) (readsBack rank)
      (Grid.coarsestExponent (decimalUnits rank))).2 := by
  obtain ⟨hpos, hnear⟩ := readsBack_bounds hrank hc
  have hmultiple : 10 ^ n ≤ c * 10 ^ n := Nat.le_mul_of_pos_left _ hpos
  have hstart : n ≤ Grid.coarsestExponent (decimalUnits rank) := Grid.le_coarsestExponent (by omega)
  exact Grid.le_coarsest hstart ((readsBack_neighbours rank n c hc).imp And.right And.right)

theorem shortest_eq (tie : Tie) {x : Finite} (hx : x.rank ≠ 0) :
    x.shortest tie = Grid.decimal (Grid.coarsest tie (decimalUnits x.rank) (readsBack x.rank)
      (Grid.coarsestExponent (decimalUnits x.rank))) := by
  unfold shortest
  rw [if_neg hx]

/-- The shortest decimal is read back, it lies on the coarsest grid that has such a decimal, and none
on that grid is nearer. -/
theorem shortest_grid (tie : Tie) {x : Finite} (hx : x.rank ≠ 0) :
    ∃ found : Nat × Nat, x.shortest tie = Grid.decimal found ∧
      readsBack x.rank found.2 found.1 = true ∧
      (∀ k j, readsBack x.rank k j = true → k ≤ found.2) ∧
      ∀ j, readsBack x.rank found.2 j = true →
        (decimalUnits x.rank - (found.1 * 10 ^ found.2 : Nat) : Int).natAbs ≤
          (decimalUnits x.rank - (j * 10 ^ found.2 : Nat) : Int).natAbs :=
  ⟨Grid.coarsest tie (decimalUnits x.rank) (readsBack x.rank)
    (Grid.coarsestExponent (decimalUnits x.rank)), shortest_eq tie hx,
    Grid.coarsest_back tie _ (readsBack_decimalUnits x.rank),
    fun _ _ hj => le_coarsest_of_readsBack tie hx hj,
    fun _ hj => Grid.coarsest_nearest tie _ (readsBack_neighbours x.rank) hj⟩

/-- The shortest decimal lies on a grid as coarse as any that has a decimal which is read back. -/
theorem le_shortest_exponent_iff (tie : Tie) {x : Finite} {k : Nat} (hn : n + k = 1074) :
    -(k : Int) ≤ (x.shortest tie).exponent ↔ ∃ c, readsBack x.rank n c = true := by
  by_cases hx : x.rank = 0
  · have hzero : nearestRank (0 * 10 ^ n) decimalUnitsPerUnit = 0 :=
      nearestRank_eq_zero decimalUnitsPerUnit_pos (by omega)
    have hexponent : (x.shortest tie).exponent = 0 := by
      unfold shortest
      rw [if_pos hx]
    rw [hexponent, hx]
    exact ⟨fun _ => ⟨0, readsBack_iff.mpr hzero⟩, fun _ => by omega⟩
  · obtain ⟨⟨c, m⟩, hdecimal, hback, hcoarsest, -⟩ := shortest_grid tie hx
    have hexponent : -(k : Int) ≤ (x.shortest tie).exponent ↔ n ≤ m := by
      rw [hdecimal]
      unfold Grid.decimal
      dsimp only
      omega
    rw [hexponent]
    constructor
    · intro hle
      obtain ⟨j, rfl⟩ : ∃ j, m = n + j := ⟨m - n, by omega⟩
      refine ⟨c * 10 ^ j, ?_⟩
      rw [readsBack_iff] at hback ⊢
      rwa [Nat.mul_assoc, ← Nat.pow_add, Nat.add_comm j]
    · rintro ⟨j, hj⟩
      exact hcoarsest n j hj

/-- The digits do not depend on the sign. -/
theorem shortest_congr {tie : Tie} {x y : Finite} (h : x.rank = y.rank) :
    x.shortest tie = y.shortest tie := by
  unfold shortest
  rw [h]

/-- The shortest decimal is read to the double it is written for, the sign of a zero included. -/
theorem ofDecimal_shortest (tie : Tie) (x : Finite) :
    ofDecimal x.negative (x.shortest tie).coefficient (x.shortest tie).exponent = .finite x := by
  unfold shortest
  split
  next hx => rw [ofDecimal_zero, ← hx, ofRank_rank]
  next =>
    dsimp only
    rw [ofDecimal_grid,
      readsBack_iff.mp (Grid.coarsest_back tie _ (readsBack_decimalUnits x.rank)), ofRank_rank]

end Finite

end GoldenRecord

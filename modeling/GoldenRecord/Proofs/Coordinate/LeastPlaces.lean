import GoldenRecord.Proofs.Binary64.Fewest
import GoldenRecord.Proofs.Coordinate
import GoldenRecord.Proofs.Json.Literal
import Mathlib.Data.List.TakeWhile

namespace GoldenRecord

namespace Decimal

open Binary64 Bytes

variable {d : Decimal} {x : Finite}

theorem getLast?_digits (h : ¬ 10 ∣ d.coefficient) : d.digits.getLast? ≠ some '0' := by
  intro hlast
  obtain ⟨front, hfront⟩ := List.getLast?_eq_some_iff.mp hlast
  have hvalue : Nat.ofDigitChars 10 d.digits 0 = d.coefficient := Nat.ofDigitChars_ten_toDigits
  have hzero : Nat.ofDigitChars 10 (List.replicate 1 '0') (Nat.ofDigitChars 10 front 0) =
      10 ^ 1 * Nat.ofDigitChars 10 front 0 := Nat.ofDigitChars_replicate_zero
  rw [List.replicate_one] at hzero
  rw [hfront, Nat.ofDigitChars_append, hzero] at hvalue
  exact h ⟨_, hvalue.symm⟩

/-- The shortest decimal has no zeros at its end. -/
theorem not_dvd_shortest (tie : Tie) (hx : x.rank ≠ 0) : ¬ 10 ∣ (x.shortest tie).coefficient := by
  rintro ⟨c, hc⟩
  have hread := isReadTo_shortest tie x
  have hshift := ofDecimal_shift x.negative c 1 ((x.shortest tie).exponent + 1)
  have hcoarser : (Decimal.mk c ((x.shortest tie).exponent + 1)).IsReadTo x := by
    unfold IsReadTo at hread ⊢
    rw [← hshift, ← hread, hc]
    congr 1 <;> omega
  have hle := hcoarser.exponent_le tie hx
  dsimp only at hle
  omega

/-- The digits that are written behind the point. -/
def fraction (d : Decimal) : List Char :=
  if d.places < d.digits.length then d.digits.drop (d.digits.length - d.places)
  else List.replicate (d.places - d.digits.length) '0' ++ d.digits

theorem length_fraction (d : Decimal) : d.fraction.length = d.places := by
  unfold fraction
  split
  next hlt =>
    rw [List.length_drop]
    omega
  next hge =>
    rw [List.length_append, List.length_replicate]
    omega

theorem getLast?_fraction (hplaces : 0 < d.places) : d.fraction.getLast? = d.digits.getLast? := by
  have hne : d.digits ≠ [] := Nat.toDigits_ne_nil
  unfold fraction
  split
  next hlt =>
    rw [List.getLast?_drop, if_neg (by omega)]
  next hge =>
    rw [List.getLast?_append_of_ne_nil _ hne]

theorem positional_whole (h : 0 ≤ d.exponent) : AreDigits (d.positional []) := by
  unfold positional
  rw [if_pos h, List.append_nil]
  exact areDigits_append.mpr ⟨areDigits_toDigits _, areDigits_zeros _⟩

/-- A decimal that is not whole is written with its fraction behind the point. -/
theorem positional_point (h : d.exponent < 0) :
    ∃ front, AreDigits front ∧ d.positional [] = front ++ '.' :: d.fraction := by
  have hdigits : AreDigits d.digits := areDigits_toDigits d.coefficient
  have hexponent : ¬ 0 ≤ d.exponent := by omega
  unfold positional fraction
  dsimp only
  rw [if_neg hexponent]
  split
  next => exact ⟨_, fun c hc => hdigits c (List.mem_of_mem_take hc), rfl⟩
  next => exact ⟨['0'], areDigits_zeros 1, rfl⟩

theorem areDigits_fraction (d : Decimal) : AreDigits d.fraction := by
  have hdigits : AreDigits d.digits := areDigits_toDigits d.coefficient
  unfold fraction
  split
  next => exact fun c hc => hdigits c (List.mem_of_mem_drop hc)
  next => exact areDigits_append.mpr ⟨areDigits_zeros _, hdigits⟩

end Decimal

namespace Coordinate

open Binary64 Bytes

/-- The digits behind the point of a number as it is written, an exponent and zeros at the end left
out. -/
def fractionDigits (cs : List Char) : List Char :=
  let mantissa := cs.takeWhile fun c => c != 'e' && c != 'E'
  let behind := (mantissa.dropWhile (· != '.')).drop 1
  (behind.reverse.dropWhile (· == '0')).reverse

/-- What a number is written with, the point apart. -/
def AreSigned (cs : List Char) : Prop := ∀ c ∈ cs, c = '-' ∨ c.isDigit = true

theorem areSigned_digits {cs : List Char} (h : AreDigits cs) : AreSigned cs := fun c hc => .inr (h c hc)

theorem areSigned_signed {cs : List Char} (x : Finite) (h : AreSigned cs) : AreSigned (x.signed cs) := by
  unfold Finite.signed
  split
  next => exact List.forall_mem_cons.mpr ⟨.inl rfl, h⟩
  next => exact h

theorem AreSigned.ne_of_mem {cs : List Char} (h : AreSigned cs) {c : Char} (hc : c ∈ cs) :
    c ≠ 'e' ∧ c ≠ 'E' ∧ c ≠ '.' := by
  rcases h c hc with rfl | hdigit
  · decide
  · refine ⟨?_, ?_, ?_⟩ <;> rintro rfl <;> cases hdigit

theorem fractionDigits_of_whole {cs : List Char} (h : AreSigned cs) : fractionDigits cs = [] := by
  have hmantissa : cs.takeWhile (fun c => c != 'e' && c != 'E') = cs := by
    refine List.takeWhile_eq_self_iff.mpr fun c hc => ?_
    obtain ⟨he, hE, -⟩ := h.ne_of_mem hc
    simp [he, hE]
  have hpoint : cs.dropWhile (· != '.') = [] := by
    refine List.dropWhile_eq_nil_iff.mpr fun c hc => ?_
    simpa using (h.ne_of_mem hc).2.2
  unfold fractionDigits
  dsimp only
  rw [hmantissa, hpoint]
  rfl

theorem fractionDigits_of_point {front fraction : List Char} (hfront : AreSigned front)
    (hfraction : AreDigits fraction) (hlast : fraction.getLast? ≠ some '0') :
    fractionDigits (front ++ '.' :: fraction) = fraction := by
  have hmantissa : (front ++ '.' :: fraction).takeWhile (fun c => c != 'e' && c != 'E') =
      front ++ '.' :: fraction := by
    refine List.takeWhile_eq_self_iff.mpr fun c hc => ?_
    rcases List.mem_append.mp hc with hc | hc
    · obtain ⟨he, hE, -⟩ := hfront.ne_of_mem hc
      simp [he, hE]
    · rcases List.mem_cons.mp hc with rfl | hc
      · decide
      · obtain ⟨he, hE, -⟩ := (areSigned_digits hfraction).ne_of_mem hc
        simp [he, hE]
  have hpoint : (front ++ '.' :: fraction).dropWhile (· != '.') = '.' :: fraction := by
    rw [List.dropWhile_append_of_pos fun c hc => by simpa using (hfront.ne_of_mem hc).2.2]
    rfl
  have hzeros : fraction.reverse.dropWhile (· == '0') = fraction.reverse := by
    rw [List.getLast?_eq_head?_reverse] at hlast
    cases hreverse : fraction.reverse with
    | nil => rfl
    | cons c rest =>
      rw [hreverse] at hlast
      exact List.dropWhile_cons_of_neg (by simpa using hlast)
  unfold fractionDigits
  dsimp only
  rw [hmantissa, hpoint, List.drop_one, List.tail_cons, hzeros, List.reverse_reverse]

theorem signed_append (x : Finite) (front rest : List Char) :
    x.signed (front ++ rest) = x.signed front ++ rest := by
  unfold Finite.signed
  split <;> rfl

/-- The decimals are the digits behind the point in the plain text. -/
theorem decimalPlaces_eq_length (v : Binary64) :
    decimalPlaces v = (fractionDigits v.plainChars).length := by
  cases v with
  | finite x =>
    change (x.shortest .up).places = (fractionDigits (x.signed ((x.shortest .up).positional []))).length
    rcases Int.lt_or_le (x.shortest .up).exponent 0 with hpoint | hwhole
    · have hx : x.rank ≠ 0 := by
        intro hzero
        unfold Finite.shortest at hpoint
        rw [if_pos hzero] at hpoint
        exact absurd hpoint (by decide)
      have hplaces : 0 < (x.shortest .up).places := by
        unfold Decimal.places
        omega
      have hlast := Decimal.getLast?_digits (Decimal.not_dvd_shortest .up hx)
      rw [← Decimal.getLast?_fraction hplaces] at hlast
      obtain ⟨front, hfront, htext⟩ := Decimal.positional_point hpoint
      rw [htext, signed_append, fractionDigits_of_point
        (areSigned_signed x (areSigned_digits hfront)) (Decimal.areDigits_fraction _) hlast,
        Decimal.length_fraction]
    · have hdigits := areSigned_digits (Decimal.positional_whole hwhole)
      rw [fractionDigits_of_whole (areSigned_signed x hdigits)]
      unfold Decimal.places
      rw [List.length_nil]
      omega
  | infinite negative => cases negative <;> rfl
  | nan => rfl

/-- Whichever of the shortest decimals is written, it has these decimals. -/
theorem places_of_isShortest {d : Decimal} {x : Finite} (hx : x.rank ≠ 0) (h : d.IsShortest x) :
    d.places = decimalPlaces (.finite x) := by
  have hplaces : decimalPlaces (.finite x) = (x.shortest .up).places := rfl
  rw [hplaces]
  unfold Decimal.places
  rw [h.exponent_eq hx .up]

/-- The places of a decimal that is read to a double are no fewer than those of the double. -/
theorem decimalPlaces_le_of_isReadFrom {x : Finite} {k : Nat} {m : ℤ}
    (h : x.IsReadFrom (m / 10 ^ k)) : decimalPlaces (.finite x) ≤ k := by
  have hplaces : decimalPlaces (.finite x) = (-(x.shortest .up).exponent).toNat := rfl
  rw [hplaces]
  by_cases hx : x.rank = 0
  · unfold Finite.shortest
    rw [if_pos hx]
    exact Nat.zero_le k
  · have hfraction : (m / 10 ^ k : ℚ) = withSign (decide (m < 0)) m.natAbs / (10 ^ k : Nat) := by
      rw [withSign_natAbs]
      push_cast
      rfl
    rw [hfraction] at h
    have hrank := nearestRank_of_isReadFrom (Nat.pow_pos (by decide)) h
    have hread : (Decimal.mk m.natAbs (-k)).IsReadTo x := by
      rw [Decimal.isReadTo_iff, ← hrank]
      unfold Decimal.rank
      simp
    have hle := hread.exponent_le .up hx
    dsimp only at hle
    omega

theorem exists_isReadFrom (x : Finite) :
    ∃ m : ℤ, x.IsReadFrom (m / 10 ^ decimalPlaces (.finite x)) := by
  have hplaces : decimalPlaces (.finite x) = (-(x.shortest .up).exponent).toNat := rfl
  have hread := Decimal.isReadTo_iff_isReadFrom.mp (Decimal.isReadTo_shortest .up x)
  rw [Decimal.withSign_mul_zpow] at hread
  rw [hplaces]
  exact ⟨_, by simpa using hread⟩

/-- The decimals of a double are as few as can be: with so many places some decimal is read to the
double, and with fewer places none is. There are none exactly if a whole number is read to it. -/
theorem decimalPlaces_isLeast (x : Finite) :
    IsLeast {k : ℕ | ∃ m : ℤ, x.IsReadFrom (m / 10 ^ k)} (decimalPlaces (.finite x)) ∧
      (decimalPlaces (.finite x) = 0 ↔ ∃ m : ℤ, x.IsReadFrom m) := by
  have hleast : IsLeast {k : ℕ | ∃ m : ℤ, x.IsReadFrom (m / 10 ^ k)} (decimalPlaces (.finite x)) :=
    ⟨exists_isReadFrom x, fun k ⟨m, hm⟩ => decimalPlaces_le_of_isReadFrom hm⟩
  refine ⟨hleast, fun hzero => ?_, fun ⟨m, hm⟩ => ?_⟩
  · obtain ⟨m, hm⟩ := hleast.1
    rw [hzero, pow_zero, div_one] at hm
    exact ⟨m, hm⟩
  · have hwhole : x.IsReadFrom (m / 10 ^ 0) := by rwa [pow_zero, div_one]
    exact Nat.le_zero.mp (hleast.2 ⟨m, hwhole⟩)

/-- Twice the smallest double, about `9.88 · 10^-324`, is written as the power of ten above it. -/
example : decimalPlaces (.finite ⟨false, 2, by decide⟩) = 323 := by decide +kernel

end Coordinate

end GoldenRecord

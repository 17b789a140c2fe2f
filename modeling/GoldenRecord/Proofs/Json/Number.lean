import GoldenRecord.Proofs.Json.Token
import GoldenRecord.Proofs.Outcome

namespace GoldenRecord

namespace Json

open Bytes

namespace Literal

/-- What a literal writes. -/
def numeral (l : Literal) : Numeral :=
  .ofDigits l.negative l.whole (l.fraction.getD []) (l.power.getD 0)

/-- The two roundings of reading come to the double nearest to what is written. -/
def IsNearest (l : Literal) : Prop :=
  literalValue l.negative l.whole (l.fraction.getD []) (l.power.getD 0) = l.numeral.toBinary64

instance (l : Literal) : Decidable l.IsNearest := inferInstanceAs (Decidable (_ = _))

end Literal

/-- The parts of a number that is to be written: a sign, digits, digits behind a point, and a signed
power of ten. -/
structure Spelling where
  negative : Bool
  whole : List Char
  fraction : Option (List Char)
  power : Option (Bool × Nat)

namespace Spelling

def powerChars : Option (Bool × Nat) → List Char
  | some (negative, n) => 'e' :: (if negative then '-' else '+') :: Nat.toDigits 10 n
  | none => []

def fractionChars : Option (List Char) → List Char
  | some ds => '.' :: ds
  | none => []

def signChars (negative : Bool) : List Char := if negative then ['-'] else []

def chars (s : Spelling) : List Char :=
  signChars s.negative ++ (s.whole ++ (fractionChars s.fraction ++ powerChars s.power))

def literal (s : Spelling) : Literal where
  negative := s.negative
  whole := ofChars s.whole
  fraction := s.fraction.map ofChars
  power := s.power.map fun (negative, n) => if negative then -n else n

structure IsValid (s : Spelling) : Prop where
  whole : AreDigits s.whole
  whole_ne_nil : s.whole ≠ []
  leadingZero : s.whole.head? = some '0' → s.whole.length = 1
  fraction : ∀ ds ∈ s.fraction, AreDigits ds ∧ ds ≠ []

variable {s : Spelling} {rest : Bytes}

theorem IsValid.exists_fraction (h : s.IsValid) : ∃ f : Option Digits,
    fractionBytes f = ofChars (fractionChars s.fraction) ∧
      f.map (·.bytes) = s.fraction.map ofChars := by
  cases hf : s.fraction with
  | none => exact ⟨none, rfl, rfl⟩
  | some ds =>
    obtain ⟨hd, hne⟩ := h.fraction ds hf
    exact ⟨some (.ofChars hd hne), rfl, rfl⟩

theorem exists_exponent (power : Option (Bool × Nat)) : ∃ e : Option ExponentToken,
    exponentBytes e = ofChars (powerChars power) ∧
      e.map (·.power) = power.map fun (negative, n) => if negative then -n else n := by
  rcases power with - | ⟨negative, n⟩
  · exact ⟨none, rfl, rfl⟩
  · have hvalue : digitsValue (ofChars (Nat.toDigits 10 n)) = n := by
      rw [digitsValue_ofChars (areDigits_toDigits n), Nat.ofDigitChars_ten_toDigits]
    refine ⟨some ⟨false, some negative, .ofChars (areDigits_toDigits n) Nat.toDigits_ne_nil⟩, ?_, ?_⟩
    · cases negative <;> rfl
    · simp [ExponentToken.power, Digits.ofChars, hvalue]

theorem IsValid.exists_token (h : s.IsValid) :
    ∃ n : NumberToken, n.bytes = ofChars s.chars ∧ n.literal = s.literal := by
  obtain ⟨f, hfraction, hdigits⟩ := h.exists_fraction
  obtain ⟨e, hexponent, hpower⟩ := exists_exponent s.power
  have hlead := Digits.ofChars_leading h.whole h.whole_ne_nil h.leadingZero
  refine ⟨⟨s.negative, .ofChars h.whole h.whole_ne_nil, f, e, hlead⟩, ?_, ?_⟩
  · simp only [NumberToken.bytes, chars, signChars, ofChars_append, hfraction, hexponent]
    cases s.negative <;> rfl
  · simp only [NumberToken.literal, literal, hdigits, hpower]
    rfl

theorem scanLiteral_chars (h : s.IsValid) (hr : EndsNumber rest) :
    scanLiteral (ofChars s.chars ++ rest) = .ok (s.literal, rest) := by
  obtain ⟨n, hbytes, hliteral⟩ := h.exists_token
  rw [← hbytes, ← hliteral]
  exact n.scanLiteral_bytes hr

end Spelling

end Json

namespace Decimal

open Json Bytes

variable {d : Decimal}

/-- The parts of a decimal written out, with a zero behind the point of a whole number. -/
def positionalSpelling (negative : Bool) (d : Decimal) : Spelling :=
  if 0 ≤ d.exponent then
    ⟨negative, d.digits ++ List.replicate d.exponent.toNat '0', some ['0'], none⟩
  else if d.places < d.digits.length then
    ⟨negative, d.digits.take (d.digits.length - d.places),
      some (d.digits.drop (d.digits.length - d.places)), none⟩
  else
    ⟨negative, ['0'], some (List.replicate (d.places - d.digits.length) '0' ++ d.digits), none⟩

def scientificSpelling (negative : Bool) (d : Decimal) : Spelling :=
  ⟨negative, d.digits.take 1, if d.digits.length = 1 then none else some (d.digits.drop 1),
    some (decide (d.leadingExponent < 0), d.leadingExponent.natAbs)⟩

theorem positionalSpelling_chars (negative : Bool) (d : Decimal) :
    (d.positionalSpelling negative).chars =
      Spelling.signChars negative ++ d.positional ['.', '0'] := by
  unfold positionalSpelling positional
  split
  next => simp [Spelling.chars, Spelling.fractionChars, Spelling.powerChars]
  next =>
    split
    next hlt => simp [Spelling.chars, Spelling.fractionChars, Spelling.powerChars, hlt]
    next hge => simp [Spelling.chars, Spelling.fractionChars, Spelling.powerChars, hge]

theorem digits_ne_nil (d : Decimal) : d.digits ≠ [] := Nat.toDigits_ne_nil

theorem areDigits_digits (d : Decimal) : AreDigits d.digits := areDigits_toDigits d.coefficient

theorem scientificSpelling_chars (negative : Bool) (d : Decimal) :
    (d.scientificSpelling negative).chars = Spelling.signChars negative ++ d.scientific := by
  unfold scientificSpelling scientific
  have hne := d.digits_ne_nil
  generalize d.leadingExponent = k
  match hd : d.digits with
  | [] => exact absurd hd hne
  | [c] => simp [Spelling.chars, Spelling.fractionChars, Spelling.powerChars]
  | c :: e :: more => simp [Spelling.chars, Spelling.fractionChars, Spelling.powerChars]

/-- Digits with a zero in front stand for zero, and those are no more than the zero. -/
theorem digits_leadingZero (h : d.digits.head? = some '0') : d.digits.length = 1 := by
  unfold digits at h ⊢
  rw [toDigits_head h]
  rfl

theorem head?_take {cs : List Char} {n : Nat} (h : (cs.take n).head? = some '0') :
    cs.head? = some '0' := by
  cases cs with
  | nil => simp at h
  | cons c cs =>
    cases n with
    | zero => cases h
    | succ n => exact h

theorem positionalSpelling_isValid (negative : Bool)
    (hzero : d.coefficient = 0 → d.exponent = 0) : (d.positionalSpelling negative).IsValid := by
  have hdigits := d.areDigits_digits
  have hne := d.digits_ne_nil
  unfold positionalSpelling
  split
  next he =>
    refine ⟨areDigits_append.mpr ⟨hdigits, areDigits_zeros _⟩, by simp [hne], fun h => ?_, ?_⟩
    · have hhead : d.digits.head? = some '0' := by
        obtain ⟨c, cs, hcs⟩ := List.exists_cons_of_ne_nil hne
        rw [hcs] at h ⊢
        exact h
      have hcoefficient : d.coefficient = 0 := toDigits_head hhead
      simp [digits_leadingZero hhead, hzero hcoefficient]
    · rintro ds ⟨⟩
      exact ⟨areDigits_zeros 1, by simp⟩
  next he =>
    split
    next hlt =>
      have hsplit := hdigits
      rw [← List.take_append_drop (d.digits.length - d.places) d.digits] at hsplit
      obtain ⟨htake, hdrop⟩ := areDigits_append.mp hsplit
      have hplaces : 0 < d.places := by
        unfold places
        omega
      refine ⟨htake, by simp [hne]; omega, fun h => ?_, ?_⟩
      · have hone := digits_leadingZero (head?_take h)
        omega
      · rintro ds ⟨⟩
        exact ⟨hdrop, by simp; omega⟩
    next hge =>
      refine ⟨areDigits_zeros 1, by simp, fun _ => rfl, ?_⟩
      rintro ds ⟨⟩
      exact ⟨areDigits_append.mpr ⟨areDigits_zeros _, hdigits⟩, by simp [hne]⟩

theorem scientificSpelling_isValid (negative : Bool) (d : Decimal) :
    (d.scientificSpelling negative).IsValid := by
  have hne := d.digits_ne_nil
  have hsplit := d.areDigits_digits
  rw [← List.take_append_drop 1 d.digits] at hsplit
  obtain ⟨htake, hdrop⟩ := areDigits_append.mp hsplit
  have hpos : 0 < d.digits.length := List.length_pos_iff.mpr hne
  refine ⟨htake, by simp [scientificSpelling, hne], fun _ => ?_, fun ds hds => ?_⟩
  · simp only [scientificSpelling, List.length_take]
    omega
  · simp only [scientificSpelling, Option.mem_def] at hds
    split at hds
    next => cases hds
    next hlen =>
      cases hds
      refine ⟨hdrop, fun hnil => ?_⟩
      have hle := List.drop_eq_nil_iff.mp hnil
      omega

/-- A spelling stands for its digits, read as one number, times a power of ten. -/
theorem Spelling.numeral_eq {s : Spelling} (h : s.IsValid) :
    s.literal.numeral =
      ⟨s.negative, Nat.ofDigitChars 10 (s.whole ++ s.fraction.getD []) 0,
        (s.power.map fun (negative, n) => if negative then -(n : Int) else n).getD 0 -
          (s.fraction.getD []).length⟩ := by
  have hfraction : AreDigits (s.fraction.getD []) := by
    cases hf : s.fraction with
    | none => exact fun c hc => absurd hc List.not_mem_nil
    | some ds => exact (h.fraction ds hf).1
  have hgetD : (s.fraction.map ofChars).getD [] = ofChars (s.fraction.getD []) := by
    cases s.fraction <;> rfl
  unfold Literal.numeral Numeral.ofDigits Spelling.literal
  dsimp only
  rw [hgetD, ← ofChars_append, digitsValue_ofChars (areDigits_append.mpr ⟨h.whole, hfraction⟩),
    length_ofChars hfraction]

theorem positionalSpelling_value (negative : Bool) (hzero : d.coefficient = 0 → d.exponent = 0) :
    (d.positionalSpelling negative).literal.numeral.toBinary64 =
      .ofDecimal negative d.coefficient d.exponent := by
  rw [Spelling.numeral_eq (positionalSpelling_isValid negative hzero)]
  have hcoefficient : Nat.ofDigitChars 10 d.digits 0 = d.coefficient := Nat.ofDigitChars_ten_toDigits
  unfold positionalSpelling Numeral.toBinary64
  split
  next he =>
    -- zeros and a point behind the digits
    have hshift := Binary64.ofDecimal_shift negative d.coefficient (d.exponent.toNat + 1) d.exponent
    rw [← hshift]
    dsimp only
    simp only [Option.getD_some, Option.map_none, Option.getD_none, List.length_singleton]
    have hdigits : Nat.ofDigitChars 10
        (d.digits ++ List.replicate d.exponent.toNat '0' ++ ['0']) 0 =
        d.coefficient * 10 ^ (d.exponent.toNat + 1) := by
      rw [List.append_assoc, ← List.replicate_succ', Nat.ofDigitChars_append, hcoefficient,
        Nat.ofDigitChars_replicate_zero, Nat.mul_comm]
    rw [hdigits]
    congr 1
    omega
  next he =>
    split
    next hlt =>
      -- a point between the digits
      simp only [Option.getD_some, Option.map_none, Option.getD_none, List.take_append_drop,
        hcoefficient, List.length_drop]
      congr 1
      unfold places at hlt ⊢
      omega
    next hge =>
      -- a point and zeros in front of the digits
      have hdigits : Nat.ofDigitChars 10
          (['0'] ++ (List.replicate (d.places - d.digits.length) '0' ++ d.digits)) 0 =
          d.coefficient := by
        rw [← List.append_assoc, Nat.ofDigitChars_append, List.singleton_append,
          ← List.replicate_succ, Nat.ofDigitChars_replicate_zero, Nat.mul_zero, hcoefficient]
      simp only [Option.getD_some, Option.map_none, Option.getD_none, hdigits, List.length_append,
        List.length_replicate]
      congr 1
      unfold places at hge ⊢
      omega

theorem scientificSpelling_value (negative : Bool) (d : Decimal) :
    (d.scientificSpelling negative).literal.numeral.toBinary64 =
      .ofDecimal negative d.coefficient d.exponent := by
  rw [Spelling.numeral_eq (scientificSpelling_isValid negative d)]
  have hcoefficient : Nat.ofDigitChars 10 d.digits 0 = d.coefficient := Nat.ofDigitChars_ten_toDigits
  have hpos : 0 < d.digits.length := List.length_pos_iff.mpr d.digits_ne_nil
  have hfraction : (if d.digits.length = 1 then none else some (d.digits.drop 1)).getD [] =
      d.digits.drop 1 := by
    split
    next hone => exact (List.drop_eq_nil_of_le (by omega)).symm
    next => rfl
  unfold scientificSpelling Numeral.toBinary64
  simp only [hfraction, List.take_append_drop, hcoefficient, Option.map_some, Option.getD_some,
    List.length_drop, decide_eq_true_eq]
  congr 1
  unfold leadingExponent
  split <;> omega

end Decimal

namespace Finite

open Json Bytes

/-- Only a zero is written with the digit 0, and it is written plainly. -/
theorem shortest_exponent (tie : Tie) {x : Finite} (h : (x.shortest tie).coefficient = 0) :
    (x.shortest tie).exponent = 0 := by
  have hx := ofDecimal_shortest tie x
  rw [h, Binary64.ofDecimal_zero, ← Binary64.ofRank_rank x] at hx
  have hzero : (0 : Nat) < Binary64.rankBound := by decide
  have hrank : x.rank = 0 := by
    unfold Binary64.ofRank at hx
    rw [dif_pos hzero, dif_pos x.rank_lt] at hx
    simpa using hx.symm
  unfold shortest
  rw [if_pos hrank]

def spelling (x : Finite) : Spelling :=
  let d := x.shortest .toEven
  if -5 ≤ d.leadingExponent ∧ d.leadingExponent < 16 then d.positionalSpelling x.negative
  else d.scientificSpelling x.negative

theorem spelling_chars (x : Finite) : x.spelling.chars = x.interchangeChars := by
  have hsigned : ∀ cs, x.signed cs = Spelling.signChars x.negative ++ cs := by
    intro cs
    unfold signed Spelling.signChars
    cases x.negative <;> rfl
  unfold spelling interchangeChars
  dsimp only
  rw [hsigned]
  split
  next => exact Decimal.positionalSpelling_chars x.negative _
  next => exact Decimal.scientificSpelling_chars x.negative _

theorem spelling_isValid (x : Finite) : x.spelling.IsValid := by
  unfold spelling
  dsimp only
  split
  next => exact Decimal.positionalSpelling_isValid x.negative (shortest_exponent .toEven)
  next => exact Decimal.scientificSpelling_isValid x.negative _

/-- The double nearest to the interchange form of a double is the double itself. -/
theorem spelling_value (x : Finite) : x.spelling.literal.numeral.toBinary64 = .finite x := by
  rw [← ofDecimal_shortest .toEven x]
  unfold spelling
  dsimp only
  split
  next => exact Decimal.positionalSpelling_value x.negative (shortest_exponent .toEven)
  next => exact Decimal.scientificSpelling_value x.negative _

/-- A double is never written like a whole number. -/
theorem spelling_number (x : Finite) : x.spelling.literal.number =
    realNumber x.spelling.literal.negative x.spelling.literal.whole
      (x.spelling.literal.fraction.getD []) (x.spelling.literal.power.getD 0) := by
  have hmarked : x.spelling.literal.fraction ≠ none ∨ x.spelling.literal.power ≠ none := by
    unfold spelling
    dsimp only
    split
    next =>
      left
      unfold Decimal.positionalSpelling
      split
      next => simp [Spelling.literal]
      next => split <;> simp [Spelling.literal]
    next => exact .inr (by simp [Decimal.scientificSpelling, Spelling.literal])
  unfold Literal.number
  split
  next hf hp => exact absurd hmarked (by simp [hf, hp])
  next => rfl

theorem scanLiteral_interchange (x : Finite) {rest : Bytes} (hr : EndsNumber rest) :
    scanLiteral (ofChars x.interchangeChars ++ rest) = .ok (x.spelling.literal, rest) := by
  rw [← spelling_chars]
  exact Spelling.scanLiteral_chars x.spelling_isValid hr

/-- The reader takes the interchange form of a double to the double nearest to it. -/
def IsReadNearest (x : Finite) : Prop :=
  ∀ l, scanLiteral (ofChars x.interchangeChars) = .ok (l, []) → l.IsNearest

theorem isReadNearest_iff (x : Finite) : x.IsReadNearest ↔ x.spelling.literal.IsNearest := by
  have hscan : scanLiteral (ofChars x.interchangeChars ++ []) = _ :=
    x.scanLiteral_interchange fun b hb => absurd hb (by simp)
  rw [List.append_nil] at hscan
  unfold IsReadNearest
  rw [hscan]
  exact ⟨fun h => h _ rfl, fun h l hl => by cases hl; exact h⟩

instance (x : Finite) : Decidable x.IsReadNearest := decidable_of_iff _ x.isReadNearest_iff.symm

end Finite

/-- A number that is not finite is not written. -/
def Binary64.IsReadNearest : Binary64 → Prop
  | .finite x => x.IsReadNearest
  | _ => True

instance (v : Binary64) : Decidable v.IsReadNearest :=
  match v with
  | .finite x => inferInstanceAs (Decidable x.IsReadNearest)
  | .infinite _ => .isTrue trivial
  | .nan => .isTrue trivial

namespace Json

open Bytes

namespace Number

def intSpelling (i : Int) : Spelling := ⟨decide (i < 0), Nat.toDigits 10 i.natAbs, none, none⟩

theorem intSpelling_chars (i : Int) : (intSpelling i).chars = (toString i).toList := by
  cases i with
  | ofNat n =>
    have htext : toString (Int.ofNat n) = Nat.repr n := rfl
    have hsign : ¬ (Int.ofNat n < 0) := Int.not_lt.mpr (Int.natCast_nonneg n)
    rw [htext, Nat.toList_repr]
    simp [intSpelling, Spelling.chars, Spelling.signChars, Spelling.fractionChars,
      Spelling.powerChars]
  | negSucc n =>
    have htext : toString (Int.negSucc n) = "-" ++ Nat.repr (n + 1) := rfl
    rw [htext, String.toList_append, Nat.toList_repr]
    simp [intSpelling, Spelling.chars, Spelling.signChars, Spelling.fractionChars,
      Spelling.powerChars]

theorem intSpelling_isValid (i : Int) : (intSpelling i).IsValid :=
  ⟨areDigits_toDigits _, Nat.toDigits_ne_nil, fun h => by
    have hzero : i.natAbs = 0 := toDigits_head h
    change (Nat.toDigits 10 i.natAbs).length = 1
    rw [hzero]
    rfl, fun ds hds => by cases hds⟩

theorem intSpelling_number {i : Int} (h : IntegerRange i) :
    (intSpelling i).literal.number = .ok (.int i h) := by
  have hvalue : digitsValue (ofChars (Nat.toDigits 10 i.natAbs)) = i.natAbs := by
    rw [digitsValue_ofChars (areDigits_toDigits _), Nat.ofDigitChars_ten_toDigits]
  have hsigned : (if decide (i < 0) = true then -(i.natAbs : Int) else i.natAbs) = i := by
    simp only [decide_eq_true_iff]
    split <;> omega
  change wholeNumber (decide (i < 0)) (ofChars (Nat.toDigits 10 i.natAbs)) = _
  unfold wholeNumber
  simp only [hvalue, hsigned]
  rw [if_neg (by simp; omega), dif_pos h]

end Number

end Json

end GoldenRecord

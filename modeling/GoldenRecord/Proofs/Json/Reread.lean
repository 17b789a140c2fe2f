import GoldenRecord.Proofs.Binary64.Scaled
import GoldenRecord.Proofs.Json.Number

namespace GoldenRecord

namespace Json

open Bytes

section Digits

variable {n : Nat}

/-- Further digits of a number. -/
def continueValue (n : Nat) (digits : Bytes) : Nat :=
  digits.foldl (fun n b => n * 10 + (b.toNat - 48)) n

theorem digitsValue_append (ds es : Bytes) :
    digitsValue (ds ++ es) = continueValue (digitsValue ds) es := List.foldl_append

theorem le_continueValue (n : Nat) (digits : Bytes) :
    n * 10 ^ digits.length ≤ continueValue n digits := by
  induction digits generalizing n with
  | nil => simp [continueValue]
  | cons d rest ih =>
    have hlater := ih (n * 10 + (d.toNat - 48))
    have hmono : n * 10 * 10 ^ rest.length ≤ (n * 10 + (d.toNat - 48)) * 10 ^ rest.length :=
      Nat.mul_le_mul_right _ (Nat.le_add_right _ _)
    rw [List.length_cons, Nat.pow_succ, Nat.mul_comm (10 ^ rest.length), ← Nat.mul_assoc]
    exact Nat.le_trans hmono hlater

theorem self_le_continueValue (n : Nat) (digits : Bytes) : n ≤ continueValue n digits :=
  Nat.le_trans (Nat.le_mul_of_pos_right _ (Nat.pow_pos (by decide))) (le_continueValue n digits)

theorem continueValue_lt {digits : Bytes} (h : ∀ b ∈ digits, isDigit b = true) :
    continueValue n digits < (n + 1) * 10 ^ digits.length := by
  induction digits generalizing n with
  | nil => simp [continueValue]
  | cons d rest ih =>
    have hd := isDigit_iff.mp (h d List.mem_cons_self)
    have hlater : continueValue (n * 10 + (d.toNat - 48)) rest <
        (n * 10 + (d.toNat - 48) + 1) * 10 ^ rest.length :=
      ih fun b hb => h b (List.mem_cons_of_mem d hb)
    have hmono : (n * 10 + (d.toNat - 48) + 1) * 10 ^ rest.length ≤
        (n + 1) * 10 * 10 ^ rest.length := Nat.mul_le_mul_right _ (by omega)
    rw [List.length_cons, Nat.pow_succ, Nat.mul_comm (10 ^ rest.length), ← Nat.mul_assoc]
    exact Nat.lt_of_lt_of_le hlater hmono

/-- What is kept of some digits is a word, and with zeros for those left over not too large. -/
theorem appendDigits_bounds (digits : Bytes) (hn : n < 2 ^ 64) :
    (appendDigits n digits).1 < 2 ^ 64 ∧
      (appendDigits n digits).1 * 10 ^ (appendDigits n digits).2.length ≤ continueValue n digits := by
  induction digits generalizing n with
  | nil => exact ⟨hn, by simp [appendDigits, continueValue]⟩
  | cons d rest ih =>
    unfold appendDigits
    dsimp only
    split
    next hnext => exact ih hnext
    next => exact ⟨hn, le_continueValue n (d :: rest)⟩

theorem appendDigits_of_lt {digits : Bytes} (h : continueValue n digits < 2 ^ 64) :
    appendDigits n digits = (continueValue n digits, []) := by
  induction digits generalizing n with
  | nil => rfl
  | cons d rest ih =>
    have hnext := self_le_continueValue (n * 10 + (d.toNat - 48)) rest
    have hlater : continueValue (n * 10 + (d.toNat - 48)) rest < 2 ^ 64 := h
    unfold appendDigits
    dsimp only
    split
    next => exact ih hlater
    next => omega

end Digits

/-- What a literal is read to. -/
def Literal.value (l : Literal) : Binary64 :=
  literalValue l.negative l.whole (l.fraction.getD []) (l.power.getD 0)

/-- A literal that stands for a number safely below the largest double is read to a finite one, if
its digits before the point are kept. -/
theorem Literal.isFinite_value {l : Literal} {x : Finite} (hwhole : digitsValue l.whole < 2 ^ 64)
    (hx : x.rank < Binary64.rankBound - 2) (h : l.numeral.toBinary64 = .finite x) :
    l.value.isFinite = true := by
  obtain ⟨negative, whole, fraction, power⟩ := l
  generalize hdigits : fraction.getD [] = digits
  generalize hpower : power.getD 0 = exponent
  have hrank : Binary64.nearestRank (continueValue (digitsValue whole) digits *
      10 ^ (exponent - digits.length).toNat * Binary64.unitsPerOne)
        (10 ^ (-(exponent - (digits.length : Int))).toNat) = x.rank := by
    unfold numeral Numeral.ofDigits Numeral.toBinary64 at h
    dsimp only at h
    rw [hdigits, hpower, Binary64.ofDecimal_eq, digitsValue_append] at h
    unfold Binary64.ofRank at h
    split at h
    next => exact congrArg Finite.rank (Binary64.finite.inj h)
    next => cases h
  have hsafe := Binary64.lt_of_nearestRank_lt (Nat.pow_pos (by decide)) (hrank ▸ hx)
  obtain ⟨hword, hkept⟩ := appendDigits_bounds digits hwhole
  have hall : appendDigits 0 whole = (digitsValue whole, []) := appendDigits_of_lt hwhole
  unfold value literalValue
  dsimp only
  rw [hdigits, hpower, hall]
  generalize appendDigits (digitsValue whole) digits = kept at hword hkept
  obtain ⟨m, lost⟩ := kept
  dsimp only at hword hkept ⊢
  have hexp : ((([] : Bytes).length + lost.length : Nat) : Int) - digits.length + exponent =
      lost.length + (exponent - digits.length) := by
    rw [List.length_nil]
    omega
  rw [hexp]
  exact Binary64.isFinite_ofScaled
    (Binary64.scaledRank_lt hword (Binary64.le_safeBound hkept hsafe))

end Json

namespace Decimal

variable {d : Decimal}

theorem positionalSpelling_whole_length (negative : Bool) (h : d.leadingExponent < 16) :
    (d.positionalSpelling negative).whole.length ≤ 16 := by
  unfold leadingExponent at h
  unfold positionalSpelling
  split
  next he =>
    simp only [List.length_append, List.length_replicate]
    omega
  next he =>
    split
    next hlt =>
      simp only [List.length_take]
      unfold places at hlt ⊢
      omega
    next => simp

theorem scientificSpelling_whole_length (negative : Bool) (d : Decimal) :
    (d.scientificSpelling negative).whole.length ≤ 16 := by
  simp only [scientificSpelling, List.length_take]
  omega

end Decimal

namespace Finite

open Json Bytes

theorem spelling_whole_length (x : Finite) : x.spelling.whole.length ≤ 16 := by
  unfold spelling
  dsimp only
  split
  next h => exact Decimal.positionalSpelling_whole_length x.negative h.2
  next => exact Decimal.scientificSpelling_whole_length x.negative _

theorem spelling_whole_lt (x : Finite) : digitsValue x.spelling.literal.whole < 2 ^ 64 := by
  have hdigits := x.spelling_isValid.whole
  have hlt : digitsValue x.spelling.literal.whole < (0 + 1) * 10 ^ (ofChars x.spelling.whole).length :=
    continueValue_lt (isDigit_of_areDigits hdigits)
  rw [length_ofChars hdigits, Nat.zero_add, Nat.one_mul] at hlt
  have hpow : 10 ^ x.spelling.whole.length ≤ 10 ^ 16 :=
    Nat.pow_le_pow_right (by decide) x.spelling_whole_length
  omega

theorem shortest_largest (negative : Bool) :
    (Finite.mk negative (Binary64.rankBound - 1)).shortest .toEven = ⟨17976931348623157, 292⟩ ∧
      (Finite.mk negative (Binary64.rankBound - 2)).shortest .toEven =
        ⟨17976931348623155, 292⟩ := by
  have hpositive : (Finite.mk false (Binary64.rankBound - 1)).shortest .toEven =
        ⟨17976931348623157, 292⟩ ∧
      (Finite.mk false (Binary64.rankBound - 2)).shortest .toEven =
        ⟨17976931348623155, 292⟩ := by decide +kernel
  exact ⟨(shortest_congr rfl).trans hpositive.1, (shortest_congr rfl).trans hpositive.2⟩

theorem isFinite_value_largest (negative : Bool) :
    (Finite.mk negative (Binary64.rankBound - 1)).spelling.literal.value.isFinite = true ∧
      (Finite.mk negative (Binary64.rankBound - 2)).spelling.literal.value.isFinite = true := by
  have hread : ∀ negative, ∀ c ∈ [17976931348623157, 17976931348623155],
      ((Decimal.mk c 292).scientificSpelling negative).literal.value.isFinite = true := by
    decide +kernel
  obtain ⟨hlast, hsecond⟩ := shortest_largest negative
  unfold spelling
  dsimp only
  rw [hlast, hsecond]
  exact ⟨hread negative _ (by simp), hread negative _ (by simp)⟩

/-- A written double is read to a finite one. -/
theorem isFinite_value (x : Finite) : x.spelling.literal.value.isFinite = true := by
  by_cases hsafe : x.rank < Binary64.rankBound - 2
  · exact Literal.isFinite_value x.spelling_whole_lt hsafe x.spelling_value
  · obtain ⟨negative, rank, hrank⟩ := x
    obtain ⟨hlast, hsecond⟩ := isFinite_value_largest negative
    have hsafe : ¬ rank < Binary64.rankBound - 2 := hsafe
    obtain rfl | rfl : rank = Binary64.rankBound - 1 ∨ rank = Binary64.rankBound - 2 := by omega
    · exact hlast
    · exact hsecond

def reread (x : Finite) : Finite :=
  match x.spelling.literal.value with
  | .finite y => y
  | _ => x

theorem value_spelling (x : Finite) : x.spelling.literal.value = .finite x.reread := by
  have hfinite := x.isFinite_value
  unfold reread
  cases hvalue : x.spelling.literal.value with
  | finite y => rfl
  | infinite negative => simp [hvalue, Binary64.isFinite] at hfinite
  | nan => simp [hvalue, Binary64.isFinite] at hfinite

theorem reread_of_isReadNearest {x : Finite} (h : x.IsReadNearest) : x.reread = x := by
  have hvalue : x.spelling.literal.value = .finite x :=
    ((isReadNearest_iff x).mp h).trans x.spelling_value
  exact Binary64.finite.inj (x.value_spelling.symm.trans hvalue)

end Finite

namespace Json

open Bytes

def Number.reread : Number → Number
  | .int i h => .int i h
  | .real x => .real x.reread

theorem Number.exists_token (n : Number) :
    ∃ token : NumberToken, token.bytes = ofChars n.chars ∧
      token.literal.number = .ok n.reread := by
  cases n with
  | int i hi =>
    obtain ⟨token, hbytes, hliteral⟩ := (intSpelling_isValid i).exists_token
    refine ⟨token, ?_, ?_⟩
    · rw [chars, ← intSpelling_chars, hbytes]
    · rw [hliteral, intSpelling_number hi, reread]
  | real x =>
    obtain ⟨token, hbytes, hliteral⟩ := x.spelling_isValid.exists_token
    have hvalue := x.value_spelling
    unfold Literal.value at hvalue
    refine ⟨token, ?_, ?_⟩
    · rw [chars, ← x.spelling_chars, hbytes]
    · rw [hliteral, x.spelling_number]
      simp only [realNumber, hvalue, reread]

mutual

def mapNumbers (f : Number → Number) : Json → Json
  | .number n => .number (f n)
  | .array items => .array (mapNumbersItems f items)
  | .object members => .object (mapNumbersMembers f members)
  | j => j

def mapNumbersItems (f : Number → Number) : List Json → List Json
  | [] => []
  | j :: rest => j.mapNumbers f :: mapNumbersItems f rest

def mapNumbersMembers (f : Number → Number) : List (String × Json) → List (String × Json)
  | [] => []
  | (key, j) :: rest => (key, j.mapNumbers f) :: mapNumbersMembers f rest

end

theorem mapNumbersItems_eq_map (f : Number → Number) (items : List Json) :
    mapNumbersItems f items = items.map (mapNumbers f) := by
  induction items with
  | nil => rfl
  | cons j rest ih => rw [mapNumbersItems, ih, List.map_cons]

theorem mapNumbersMembers_eq_map (f : Number → Number) (members : List (String × Json)) :
    mapNumbersMembers f members = members.map fun m => (m.1, m.2.mapNumbers f) := by
  induction members with
  | nil => rfl
  | cons m rest ih => rw [mapNumbersMembers, ih, List.map_cons]

/-- The value that a value is read to once it is written. -/
def reread (j : Json) : Json := j.mapNumbers Number.reread

end Json

end GoldenRecord

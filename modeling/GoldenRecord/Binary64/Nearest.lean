import GoldenRecord.Binary64.Basic

namespace GoldenRecord

/-- `n / d` to the nearest integer, a tie to the even one. -/
def divNearest (n d : Nat) : Nat :=
  let q := n / d
  let r := n % d
  if 2 * r < d then q
  else if d < 2 * r then q + 1
  else q + q % 2

namespace Binary64

/-- The rank nearest to `n / d` units. The quotient's leading bits fix the binade; inside it
equal steps of rank are equal steps of value. -/
def nearestRank (n d : Nat) : Nat :=
  let binade := (n / d).log2 - 52
  binade * binadeSize + divNearest n (d * Nat.pow 2 binade)

def ofRatio (negative : Bool) (n d : Nat) : Binary64 :=
  ofRank negative (nearestRank (n * unitsPerOne) d)

/-- The number of decimal digits, 0 for 0. -/
def decimalLength (n : Nat) : Nat := if n = 0 then 0 else (Nat.toDigits 10 n).length

/-- The double nearest to `± m · 10^e`. Exponents far outside the range of the format are decided
by the decimal length alone. -/
def ofDecimal (negative : Bool) (m : Nat) (e : Int) : Binary64 :=
  let scale : Int := decimalLength m + e
  if m = 0 ∨ scale < -400 then ofRank negative 0
  else if 400 < scale then .infinite negative
  else if 0 ≤ e then ofRatio negative (m * Nat.pow 10 e.toNat) 1
  else ofRatio negative m (Nat.pow 10 (-e).toNat)

def ofInt (i : Int) : Binary64 := ofRatio (decide (i < 0)) i.natAbs 1

end Binary64

end GoldenRecord

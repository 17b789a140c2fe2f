import GoldenRecord.Binary64.Nearest

namespace GoldenRecord

namespace Binary64

/-- The exponent of the largest power of ten among the doubles. -/
def maxPower : Nat := 308

def wholeRank (n : Nat) : Nat := nearestRank (n * unitsPerOne) 1

def powerRank (k : Nat) : Nat := wholeRank (Nat.pow 10 k)

def mulRank (r s : Nat) : Nat := nearestRank (Finite.unitsOf r * Finite.unitsOf s) unitsPerOne

def divRank (r s : Nat) : Nat := nearestRank (Finite.unitsOf r * unitsPerOne) (Finite.unitsOf s)

/-- A magnitude with a power of ten divided out, the largest one first where one is not enough. Two
of those leave nothing of a 64-bit word. -/
def divPower (r k : Nat) : Nat :=
  if k ≤ maxPower then divRank r (powerRank k)
  else divRank (divRank r (powerRank maxPower)) (powerRank (min (k - maxPower) maxPower))

/-- The rank of `m · 10^e` for a 64-bit word `m`. -/
def scaledRank (m : Nat) (e : Int) : Nat :=
  if m = 0 then 0
  else if e < 0 then divPower (wholeRank m) (-e).toNat
  else if e.toNat ≤ maxPower then mulRank (wholeRank m) (powerRank e.toNat)
  else rankBound

/-- The double for `± m · 10^e` in two roundings. It is the nearest one where coefficient and power
are doubles themselves; elsewhere it may be a neighbour of that. -/
def ofScaled (negative : Bool) (m : Nat) (e : Int) : Binary64 := ofRank negative (scaledRank m e)

end Binary64

end GoldenRecord

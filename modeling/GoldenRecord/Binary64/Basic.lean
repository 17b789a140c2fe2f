namespace GoldenRecord

namespace Binary64

/-- The number of doubles that share an exponent, `2^52`. -/
def binadeSize : Nat := Nat.pow 2 52

/-- The number of finite magnitudes. -/
def rankBound : Nat := 2047 * binadeSize

/-- The number of units in 1; a unit is the smallest positive double, `2^-1074`. -/
@[irreducible] def unitsPerOne : Nat := Nat.pow 2 1074

end Binary64

/-- A finite magnitude by its rank, with a sign: the next larger double has the next rank. -/
structure Finite where
  negative : Bool
  rank : Nat
  rank_lt : rank < Binary64.rankBound := by decide
deriving DecidableEq, Repr

inductive Binary64 where
  | finite (x : Finite)
  | infinite (negative : Bool)
  | nan
deriving DecidableEq, Repr

namespace Finite

/-- The magnitude of a rank in units. -/
def unitsOf (rank : Nat) : Nat :=
  if rank < Binary64.binadeSize then rank
  else (Binary64.binadeSize + rank % Binary64.binadeSize) *
    Nat.pow 2 (rank / Binary64.binadeSize - 1)

def units (x : Finite) : Nat := unitsOf x.rank

/-- The signed value in units; both zeros have the value 0. -/
def value (x : Finite) : Int := if x.negative then -(x.units : Int) else x.units

def zero : Finite := { negative := false, rank := 0 }

def neg (x : Finite) : Finite := { x with negative := !x.negative }

def isZero (x : Finite) : Bool := x.rank == 0

def unsignedZero (x : Finite) : Finite := if x.isZero then zero else x

end Finite

namespace Binary64

def zero : Binary64 := .finite .zero

def ofBits (bits : UInt64) : Binary64 :=
  let negative := decide (2048 * binadeSize ≤ bits.toNat)
  let magnitude := bits.toNat % (2048 * binadeSize)
  if h : magnitude < rankBound then .finite ⟨negative, magnitude, h⟩
  else if magnitude = rankBound then .infinite negative
  else .nan

def unsignedZero : Binary64 → Binary64
  | .finite x => .finite x.unsignedZero
  | v => v

def isFinite : Binary64 → Bool
  | .finite _ => true
  | _ => false

/-- Order of the extended reals; a NaN is neither below nor above anything. -/
def lt : Binary64 → Binary64 → Bool
  | .finite x, .finite y => x.value < y.value
  | .finite _, .infinite negative => !negative
  | .infinite negative, .finite _ => negative
  | .infinite a, .infinite b => a && !b
  | _, _ => false

/-- A magnitude by rank; past the last finite rank it is infinite. -/
def ofRank (negative : Bool) (rank : Nat) : Binary64 :=
  if h : rank < rankBound then .finite ⟨negative, rank, h⟩ else .infinite negative

end Binary64

end GoldenRecord

import GoldenRecord.Binary64.Nearest

namespace GoldenRecord

structure Decimal where
  coefficient : Nat
  exponent : Int
deriving DecidableEq, Repr

/-- Which neighbour is written when both read back and are equally near. -/
inductive Tie where
  | up
  | toEven
deriving DecidableEq, Repr

namespace Grid

variable (tie : Tie) (v : Nat) (back : Nat → Nat → Bool)

/-- The neighbour of `v` to write on the grid of spacing `10^n`, if one reads back. -/
def candidate? (n : Nat) : Option Nat :=
  let spacing := Nat.pow 10 n
  let below := v / spacing
  let rest := v % spacing
  match back n below, back n (below + 1) with
  | false, false => none
  | true, false => some below
  | false, true => some (below + 1)
  | true, true =>
    if 2 * rest < spacing then some below
    else if spacing < 2 * rest then some (below + 1)
    else match tie with
      | .up => some (below + 1)
      | .toEven => some (below + below % 2)

/-- The first grid with a candidate, from the spacing `10^n` down to single units. -/
def coarsest : Nat → Nat × Nat
  | 0 => (v, 0)
  | n + 1 =>
    match candidate? tie v back (n + 1) with
    | some c => (c, n + 1)
    | none => coarsest n

/-- A power of ten above `v`: `2^93 < 10^28`. -/
def coarsestExponent : Nat := (v.log2 + 1) * 28 / 93 + 1

def decimal (found : Nat × Nat) : Decimal := ⟨found.1, (found.2 : Int) - 1074⟩

end Grid

namespace Finite

/-- The number of units of `10^-1074` in `2^-1074`. -/
@[irreducible] def decimalUnitsPerUnit : Nat := Nat.pow 5 1074

/-- The magnitude in units of `10^-1074`. -/
def decimalUnits (rank : Nat) : Nat := unitsOf rank * decimalUnitsPerUnit

/-- Whether `c · 10^n` units of `10^-1074` read back to the rank. -/
def readsBack (rank n c : Nat) : Bool :=
  Binary64.nearestRank (c * Nat.pow 10 n) decimalUnitsPerUnit = rank

/-- The decimal of fewest digits that is read back. In units of `10^-1074` every double is a whole
number, so a grid has two neighbours of it; the coarsest grid where one is read back wins. -/
def shortest (tie : Tie) (x : Finite) : Decimal :=
  if x.rank = 0 then ⟨0, 0⟩
  else
    let v := decimalUnits x.rank
    Grid.decimal (Grid.coarsest tie v (readsBack x.rank) (Grid.coarsestExponent v))

end Finite

end GoldenRecord

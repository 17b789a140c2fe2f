import GoldenRecord.Binary64.Shortest

namespace GoldenRecord

namespace Decimal

def digits (d : Decimal) : List Char := Nat.toDigits 10 d.coefficient

/-- Digits after the point in positional form. -/
def places (d : Decimal) : Nat := (-d.exponent).toNat

/-- All digits written out; a whole number ends in `whole`. -/
def positional (whole : List Char) (d : Decimal) : List Char :=
  let ds := d.digits
  if 0 ≤ d.exponent then ds ++ List.replicate d.exponent.toNat '0' ++ whole
  else if d.places < ds.length then
    ds.take (ds.length - d.places) ++ '.' :: ds.drop (ds.length - d.places)
  else '0' :: '.' :: (List.replicate (d.places - ds.length) '0' ++ ds)

def leadingExponent (d : Decimal) : Int := (d.digits.length : Int) - 1 + d.exponent

/-- One digit before the point, the exponent always signed. -/
def scientific (d : Decimal) : List Char :=
  let mantissa := match d.digits with
    | first :: second :: rest => first :: '.' :: second :: rest
    | ds => ds
  let k := d.leadingExponent
  mantissa ++ 'e' :: (if k < 0 then '-' else '+') :: Nat.toDigits 10 k.natAbs

end Decimal

namespace Finite

def signed (x : Finite) (magnitude : List Char) : List Char :=
  if x.negative then '-' :: magnitude else magnitude

def plainChars (x : Finite) : List Char := x.signed ((x.shortest .up).positional [])

/-- Whole numbers keep `.0`, and an exponent is written outside `1e-5 … 1e16`. -/
def interchangeChars (x : Finite) : List Char :=
  let d := x.shortest .toEven
  let k := d.leadingExponent
  x.signed (if -5 ≤ k ∧ k < 16 then d.positional ['.', '0'] else d.scientific)

end Finite

namespace Binary64

def plainChars : Binary64 → List Char
  | .finite x => x.plainChars
  | .infinite false => ['i', 'n', 'f']
  | .infinite true => ['-', 'i', 'n', 'f']
  | .nan => ['N', 'a', 'N']

def plain (x : Binary64) : String := String.ofList x.plainChars

end Binary64

end GoldenRecord

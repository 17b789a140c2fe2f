import GoldenRecord.Binary64.Text

namespace GoldenRecord

namespace Coordinate

def decimals : Nat := 4

def scale : Nat := Nat.pow 10 decimals

/-- The nearest multiple of 1/10000, counted in ten-thousandths. -/
def tenThousandths (x : Finite) : Nat := divNearest (x.units * scale) Binary64.unitsPerOne

/-- A finite value to four decimals: the nearest multiple of 1/10000, and from there the nearest
double. A zero result has no sign. -/
def roundFinite (x : Finite) : Binary64 :=
  (Binary64.ofRatio x.negative (tenThousandths x) scale).unsignedZero

def roundValue : Binary64 → Option Binary64
  | .finite x => some (roundFinite x)
  | _ => none

/-- An absent value stays absent. -/
def round (v : Option Binary64) : Option Binary64 := v.bind roundValue

def decimalPlaces : Binary64 → Nat
  | .finite x => (x.shortest .up).places
  | _ => 0

end Coordinate

end GoldenRecord

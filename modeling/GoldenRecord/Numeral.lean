import GoldenRecord.Binary64.Nearest
import GoldenRecord.Bytes
import GoldenRecord.Text.Blank

namespace GoldenRecord

/-- `± coefficient · 10^exponent` as written, so that a negative zero keeps its sign. -/
structure Numeral where
  negative : Bool
  coefficient : Nat
  exponent : Int
deriving DecidableEq, Repr

namespace Numeral

def toBinary64 (n : Numeral) : Binary64 := .ofDecimal n.negative n.coefficient n.exponent

/-- Digits before and after the point, and the written power of ten. -/
def ofDigits (negative : Bool) (whole fraction : Bytes) (power : Int) : Numeral :=
  ⟨negative, Bytes.digitsValue (whole ++ fraction), power - fraction.length⟩

/-- Sign first: `+` and `-` are both accepted. -/
def splitSign : Bytes → Bool × Bytes
  | [] => (false, [])
  | b :: rest =>
    if b = 45 then (true, rest) else if b = 43 then (false, rest) else (false, b :: rest)

/-- An exponent to the end of the text; the empty text is the exponent 0. -/
def readPower : Bytes → Option Int
  | [] => some 0
  | b :: rest =>
    if b = 101 ∨ b = 69 then
      let (negative, digits) := splitSign rest
      if digits.isEmpty || !digits.all Bytes.isDigit then none
      else
        let n : Int := Bytes.digitsValue digits
        some (if negative then -n else n)
    else none

/-- An unsigned numeral that is the whole text. -/
def readUnsigned (negative : Bool) (b : Bytes) : Option Numeral :=
  let whole := b.takeWhile Bytes.isDigit
  let rest := b.dropWhile Bytes.isDigit
  let (fraction, rest) := match rest with
    | 46 :: rest => (rest.takeWhile Bytes.isDigit, rest.dropWhile Bytes.isDigit)
    | rest => ([], rest)
  if whole.isEmpty && fraction.isEmpty then none
  else (readPower rest).map (ofDigits negative whole fraction)

def lower (b : UInt8) : UInt8 := if 65 ≤ b ∧ b ≤ 90 then b + 32 else b

def readName (negative : Bool) (b : Bytes) : Option Binary64 :=
  let name := b.map lower
  if name = Bytes.ofText "inf" ∨ name = Bytes.ofText "infinity" then some (.infinite negative)
  else if name = Bytes.ofText "nan" then some .nan
  else none

/-- The double nearest to the number a text writes, blanks around it aside: a sign, digits with an
optional point (`5.` and `.5`, but not a lone point) and an exponent, or the name of infinity or of
no number, in any case. -/
def ofText? (s : String) : Option Binary64 :=
  let (negative, body) := splitSign (Bytes.ofChars (Text.trim s.toList))
  match readUnsigned negative body with
  | some n => some n.toBinary64
  | none => readName negative body

end Numeral

end GoldenRecord

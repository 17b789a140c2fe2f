import GoldenRecord.Binary64.Scaled
import GoldenRecord.Json.Basic
import GoldenRecord.Json.Fault
import GoldenRecord.Numeral

namespace GoldenRecord

namespace Json

def simpleEscape? (b : UInt8) : Option UInt8 :=
  if b = 34 ∨ b = 92 ∨ b = 47 then some b
  else if b = 98 then some 8
  else if b = 102 then some 12
  else if b = 110 then some 10
  else if b = 114 then some 13
  else if b = 116 then some 9
  else none

def isHighSurrogate (n : Nat) : Bool := 0xD800 ≤ n && n < 0xDC00

def isLowSurrogate (n : Nat) : Bool := 0xDC00 ≤ n && n < 0xE000

/-- Adds a character to text held in reverse. -/
def pushChar (acc : Bytes) (n : Nat) : Bytes :=
  (String.utf8EncodeChar (Char.ofNat n)).reverse ++ acc

/-- The text up to the closing quote; `acc` holds what came before, in reverse. -/
def readText (acc : Bytes) : Bytes → Except Fault (String × Bytes)
  | [] => .error .truncated
  | 34 :: rest =>
    match Bytes.toText? acc.reverse with
    | some s => .ok (s, rest)
    | none => .error .malformed
  | 92 :: [] => .error .truncated
  | 92 :: 117 :: a :: b :: c :: d :: rest =>
    match Bytes.hexUnit? a b c d with
    | none => .error .malformed
    | some n =>
      if isLowSurrogate n then .error .malformed
      else if isHighSurrogate n then
        match rest with
        | [] => .error .truncated
        | [b] => if b = 92 then .error .truncated else .error .malformed
        | 92 :: 117 :: a :: b :: c :: d :: rest =>
          match Bytes.hexUnit? a b c d with
          | none => .error .malformed
          | some m =>
            if isLowSurrogate m then
              readText (pushChar acc (0x10000 + (n - 0xD800) * 0x400 + (m - 0xDC00))) rest
            else .error .malformed
        | 92 :: 117 :: _ => .error .truncated
        | _ => .error .malformed
      else readText (pushChar acc n) rest
  | 92 :: 117 :: _ => .error .truncated
  | 92 :: e :: rest =>
    match simpleEscape? e with
    | some b => readText (b :: acc) rest
    | none => .error .malformed
  | b :: rest => if b < 32 then .error .malformed else readText (b :: acc) rest

/-- What follows the closing quote. -/
def skipText : Bytes → Except Fault Bytes
  | [] => .error .truncated
  | 34 :: rest => .ok rest
  | 92 :: [] => .error .truncated
  | 92 :: 117 :: a :: b :: c :: d :: rest =>
    if (Bytes.hexUnit? a b c d).isSome then skipText rest else .error .malformed
  | 92 :: 117 :: _ => .error .truncated
  | 92 :: e :: rest => if (simpleEscape? e).isSome then skipText rest else .error .malformed
  | b :: rest => if b < 32 then .error .malformed else skipText rest

/-- A string after its opening quote: what reading it gives, and the rest of the text if it can at
least be passed over. -/
def scanText (b : Bytes) : Except Fault String × Except Fault Bytes :=
  ((readText [] b).map (·.1), skipText b)

def scanDigits : Bytes → Except Breakage (Bytes × Bytes)
  | [] => .error .truncatedNumber
  | b :: rest =>
    if Bytes.isDigit b then
      .ok (b :: rest.takeWhile Bytes.isDigit, rest.dropWhile Bytes.isDigit)
    else .error .malformed

/-- The digits before the point: a leading zero stands alone. -/
def scanWhole (b : Bytes) : Except Breakage (Bytes × Bytes) := do
  let (digits, rest) ← scanDigits b
  if digits.head? = some 48 ∧ digits.length ≠ 1 then .error .malformed else .ok (digits, rest)

def scanFraction : Bytes → Except Breakage (Option Bytes × Bytes)
  | 46 :: rest => (scanDigits rest).map fun (digits, rest) => (some digits, rest)
  | rest => .ok (none, rest)

def scanPower (b : Bytes) : Except Breakage (Option Int × Bytes) :=
  match b with
  | [] => .ok (none, [])
  | e :: rest =>
    if e = 101 ∨ e = 69 then do
      let (negative, rest) := Numeral.splitSign rest
      let (digits, rest) ← scanDigits rest
      let n : Int := Bytes.digitsValue digits
      return (some (if negative then -n else n), rest)
    else .ok (none, e :: rest)

/-- Appends digits to a number as long as it stays below `2^64`, and gives the digits left over. -/
def appendDigits (n : Nat) : Bytes → Nat × Bytes
  | [] => (n, [])
  | d :: rest =>
    let m := n * 10 + (d.toNat - 48)
    if m < 18446744073709551616 then appendDigits m rest else (n, d :: rest)

/-- The double that a literal is read to. Its digits count as far as a 64-bit word holds them; one
left over before the point is one more power of ten, one left over behind it is nothing. -/
def literalValue (negative : Bool) (whole fraction : Bytes) (power : Int) : Binary64 :=
  let (n, left) := appendDigits 0 whole
  let (m, lost) := appendDigits n fraction
  let shift : Int := (left.length + lost.length : Nat) - (fraction.length : Nat)
  .ofScaled negative m (shift + power)

/-- A number beyond the range of a double has no value. -/
def realNumber (negative : Bool) (whole fraction : Bytes) (power : Int) : Except Fault Number :=
  match literalValue negative whole fraction power with
  | .finite x => .ok (.real x)
  | _ => .error .malformed

/-- A number without point and exponent is whole, unless it is a negative zero or out of range. -/
def wholeNumber (negative : Bool) (digits : Bytes) : Except Fault Number :=
  let n := Bytes.digitsValue digits
  let i : Int := if negative then -n else n
  if negative ∧ n = 0 then realNumber negative digits [] 0
  else if h : IntegerRange i then .ok (.int i h)
  else realNumber negative digits [] 0

/-- A number as it is written: a sign, digits, and perhaps digits behind a point and a power of ten. -/
structure Literal where
  negative : Bool
  whole : Bytes
  fraction : Option Bytes
  power : Option Int
deriving DecidableEq

def Literal.number (l : Literal) : Except Fault Number :=
  match l.fraction, l.power with
  | none, none => wholeNumber l.negative l.whole
  | _, _ => realNumber l.negative l.whole (l.fraction.getD []) (l.power.getD 0)

def scanLiteral (b : Bytes) : Except Breakage (Literal × Bytes) := do
  let (negative, rest) := match b with
    | 45 :: rest => (true, rest)
    | rest => (false, rest)
  let (whole, rest) ← scanWhole rest
  let (fraction, rest) ← scanFraction rest
  let (power, rest) ← scanPower rest
  return (⟨negative, whole, fraction, power⟩, rest)

/-- A number at the head of a text. -/
def scanNumber (b : Bytes) : Except Breakage (Except Fault Number × Bytes) :=
  (scanLiteral b).map fun (literal, rest) => (literal.number, rest)

end Json

end GoldenRecord

namespace GoldenRecord

/-- Contents of a file. They are text exactly when some text is written as them in UTF-8. -/
abbrev Bytes := List UInt8

namespace Bytes

def ofChars (cs : List Char) : Bytes := cs.flatMap String.utf8EncodeChar

def ofText (s : String) : Bytes := ofChars s.toList

def toText? (b : Bytes) : Option String := String.fromUTF8? b.toByteArray

theorem toText?_ofText (s : String) : toText? (ofText s) = some s := by
  have h : (ofText s).toByteArray = s.toByteArray := by
    rw [ofText, ofChars, ← List.utf8Encode, ← String.toByteArray_ofList, String.ofList_toList]
  have hv : (ofText s).toByteArray.IsValidUTF8 := h ▸ s.isValidUTF8
  simp only [toText?, String.fromUTF8?, hv, dite_true, Option.some.injEq]
  exact String.toByteArray_inj.mp h

/-- How many bytes of a text at most belong to the broken character at its head: those that could
begin a character, and at least one. -/
def brokenLength : Bytes → Nat
  | a :: b :: rest =>
    let low : UInt8 := if a = 0xE0 then 0xA0 else if a = 0xF0 then 0x90 else 0x80
    let high : UInt8 := if a = 0xED then 0x9F else if a = 0xF4 then 0x8F else 0xBF
    let width := if 0xE0 ≤ a ∧ a ≤ 0xEF then 3 else if 0xF0 ≤ a ∧ a ≤ 0xF4 then 4 else 2
    if 0xE0 ≤ a ∧ a ≤ 0xF4 ∧ low ≤ b ∧ b ≤ high then
      match rest with
      | c :: _ => if width = 4 ∧ 0x80 ≤ c ∧ c ≤ 0xBF then 3 else 2
      | [] => 2
    else 1
  | _ => 1

/-- The character at the head of a text and its length in bytes; a broken one counts as the
replacement character. -/
def headChar (b : Bytes) : Char × Nat :=
  let read (n : Nat) : Option Char :=
    match (toText? (b.take n)).map String.toList with
    | some [c] => some c
    | _ => none
  match read 1, read 2, read 3, read 4 with
  | some c, _, _, _ => (c, 1)
  | none, some c, _, _ => (c, 2)
  | none, none, some c, _ => (c, 3)
  | none, none, none, some c => (c, 4)
  | none, none, none, none => (Char.ofNat 0xFFFD, brokenLength b)

def charsLossy (fuel : Nat) (b : Bytes) : List Char :=
  match fuel, b with
  | 0, _ => []
  | _, [] => []
  | fuel + 1, b =>
    let (c, n) := headChar b
    c :: charsLossy fuel (b.drop n)

def toTextLossy (b : Bytes) : String := String.ofList (charsLossy b.length b)

def isDigit (b : UInt8) : Bool := 48 ≤ b && b ≤ 57

def digitsValue (digits : Bytes) : Nat := digits.foldl (fun n b => n * 10 + (b.toNat - 48)) 0

def hexDigit? (b : UInt8) : Option Nat :=
  if 48 ≤ b ∧ b ≤ 57 then some (b.toNat - 48)
  else if 97 ≤ b ∧ b ≤ 102 then some (b.toNat - 87)
  else if 65 ≤ b ∧ b ≤ 70 then some (b.toNat - 55)
  else none

def hexUnit? (a b c d : UInt8) : Option Nat := do
  let a ← hexDigit? a
  let b ← hexDigit? b
  let c ← hexDigit? c
  let d ← hexDigit? d
  return ((a * 16 + b) * 16 + c) * 16 + d

end Bytes

end GoldenRecord

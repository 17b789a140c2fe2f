import GoldenRecord.Json.Basic

namespace GoldenRecord

namespace Json

def hexDigitChar (n : Nat) : Char := Nat.digitChar n

/-- Only quotes, backslashes and control characters are escaped. -/
def escapeChar (c : Char) : List Char :=
  if c = '"' then ['\\', '"']
  else if c = '\\' then ['\\', '\\']
  else if c.toNat < 0x20 then
    if c.toNat = 8 then ['\\', 'b']
    else if c.toNat = 9 then ['\\', 't']
    else if c.toNat = 10 then ['\\', 'n']
    else if c.toNat = 12 then ['\\', 'f']
    else if c.toNat = 13 then ['\\', 'r']
    else ['\\', 'u', '0', '0', hexDigitChar (c.toNat / 16), hexDigitChar (c.toNat % 16)]
  else [c]

def quoted (s : String) : List Char := '"' :: (s.toList.flatMap escapeChar ++ ['"'])

mutual

def compactChars : Json → List Char
  | .null => ['n', 'u', 'l', 'l']
  | .bool true => ['t', 'r', 'u', 'e']
  | .bool false => ['f', 'a', 'l', 's', 'e']
  | .number n => n.chars
  | .string s => quoted s
  | .array items => '[' :: compactItems items
  | .object members => '\x7b' :: compactMembers members

def compactItems : List Json → List Char
  | [] => [']']
  | [j] => j.compactChars ++ [']']
  | j :: rest => j.compactChars ++ ',' :: compactItems rest

def compactMembers : List (String × Json) → List Char
  | [] => ['\x7d']
  | [(key, j)] => quoted key ++ ':' :: (j.compactChars ++ ['\x7d'])
  | (key, j) :: rest => quoted key ++ ':' :: (j.compactChars ++ ',' :: compactMembers rest)

end

def compact (j : Json) : String := String.ofList j.compactChars

def lineBreak (level : Nat) : List Char := '\n' :: List.replicate (2 * level) ' '

mutual

def prettyChars (level : Nat) : Json → List Char
  | .array [] => ['[', ']']
  | .array items => '[' :: prettyItems level items
  | .object [] => ['\x7b', '\x7d']
  | .object members => '\x7b' :: prettyMembers level members
  | j => j.compactChars

def prettyItems (level : Nat) : List Json → List Char
  | [] => [']']
  | [j] => lineBreak (level + 1) ++ (prettyChars (level + 1) j ++ (lineBreak level ++ [']']))
  | j :: rest => lineBreak (level + 1) ++ (prettyChars (level + 1) j ++ ',' :: prettyItems level rest)

def prettyMembers (level : Nat) : List (String × Json) → List Char
  | [] => ['\x7d']
  | [(key, j)] =>
    lineBreak (level + 1) ++ (quoted key ++ ':' :: ' ' ::
      (prettyChars (level + 1) j ++ (lineBreak level ++ ['\x7d'])))
  | (key, j) :: rest =>
    lineBreak (level + 1) ++ (quoted key ++ ':' :: ' ' ::
      (prettyChars (level + 1) j ++ ',' :: prettyMembers level rest))

end

/-- The indented form: two blanks per level, one item a line, empty containers closed at once, and
no line end after it. -/
def pretty (j : Json) : String := String.ofList (j.prettyChars 0)

end Json

end GoldenRecord

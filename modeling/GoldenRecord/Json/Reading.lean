import GoldenRecord.Json.Literal

namespace GoldenRecord

namespace Json

/-- What can be read of a text that should hold one value. A number may be out of range and a string
may be no text without hiding what follows them; a container that is never closed carries the
breakage behind its last item. Which of several faults is met first is decided by the one who walks
over it in written order. -/
inductive Reading where
  | null
  | bool (b : Bool)
  | number (value : Except Fault Number)
  | string (text : Except Fault String)
  | array (items : List Reading) (ending : Option Breakage)
  | object (members : List (Except Fault String × Reading)) (ending : Option Breakage)
  | broken (breakage : Breakage)

namespace Reading

instance : Inhabited Reading := ⟨.null⟩

def isBlank (b : UInt8) : Bool := b = 32 || b = 10 || b = 9 || b = 13

def skipBlank (b : Bytes) : Bytes := b.dropWhile isBlank

def scanWord (word : Reading) : Bytes → Bytes → Reading × Bytes
  | [], rest => (word, rest)
  | _ :: _, [] => (.broken .truncated, [])
  | w :: ws, b :: rest => if b = w then scanWord word ws rest else (.broken .malformed, [])

def scanString (b : Bytes) : Reading × Bytes :=
  match scanText b with
  | (text, .ok rest) => (.string text, rest)
  | (.error f, .error g) => (.broken ⟨f, g⟩, [])
  | (.ok _, .error g) => (.broken ⟨g, g⟩, [])

mutual

/-- The value at the head of a text. The fuel covers two steps for every byte. -/
def scanValue (fuel : Nat) (text : Bytes) : Reading × Bytes :=
  match fuel with
  | 0 => (.broken .truncated, [])
  | fuel + 1 =>
    match skipBlank text with
    | [] => (.broken .truncated, [])
    | b :: rest =>
      if b = 34 then scanString rest
      else if b = 91 then
        let (items, ending, rest) := scanItems fuel true rest
        (.array items ending, rest)
      else if b = 123 then
        let (members, ending, rest) := scanMembers fuel true rest
        (.object members ending, rest)
      else if b = 110 then scanWord .null [117, 108, 108] rest
      else if b = 116 then scanWord (.bool true) [114, 117, 101] rest
      else if b = 102 then scanWord (.bool false) [97, 108, 115, 101] rest
      else if b = 45 ∨ Bytes.isDigit b then
        match scanNumber (b :: rest) with
        | .ok (value, rest) => (.number value, rest)
        | .error breakage => (.broken breakage, [])
      else (.broken .malformed, [])

/-- The items up to the closing bracket; a comma stands before every item but the first. -/
def scanItems (fuel : Nat) (first : Bool) (text : Bytes) : List Reading × Option Breakage × Bytes :=
  match fuel with
  | 0 => ([], some .truncated, [])
  | fuel + 1 =>
    match skipBlank text with
    | [] => ([], some .truncated, [])
    | b :: rest =>
      if b = 93 then ([], none, rest)
      else if first ∨ b = 44 then
        let (item, rest) := scanValue fuel (if first then b :: rest else rest)
        let (items, ending, rest) := scanItems fuel false rest
        (item :: items, ending, rest)
      else ([], some .malformed, [])

/-- The members up to the closing brace; a comma stands before every member but the first. -/
def scanMembers (fuel : Nat) (first : Bool) (text : Bytes) :
    List (Except Fault String × Reading) × Option Breakage × Bytes :=
  match fuel with
  | 0 => ([], some .truncated, [])
  | fuel + 1 =>
    match skipBlank text with
    | [] => ([], some .truncated, [])
    | b :: rest =>
      if b = 125 then ([], none, rest)
      else if first ∨ b = 44 then
        match skipBlank (if first then b :: rest else rest) with
        | [] => ([], some .truncated, [])
        | q :: rest =>
          if q = 34 then
            match scanText rest with
            | (key, .ok rest) =>
              match skipBlank rest with
              | [] => ([(key, .broken .truncated)], none, [])
              | c :: rest =>
                if c = 58 then
                  let (value, rest) := scanValue fuel rest
                  let (members, ending, rest) := scanMembers fuel false rest
                  ((key, value) :: members, ending, rest)
                else ([(key, .broken .malformed)], none, [])
            | (.error f, .error g) => ([], some ⟨f, g⟩, [])
            | (.ok _, .error g) => ([], some ⟨g, g⟩, [])
          else ([], some .malformed, [])
      else ([], some .malformed, [])

end

/-- The value of a whole text, and whether anything but blanks follows it. -/
def ofBytes (text : Bytes) : Reading × Bool :=
  let (value, rest) := scanValue (2 * text.length + 2) text
  (value, !(skipBlank rest).isEmpty)

def checkEnding (ending : Option Breakage) (select : Breakage → Fault) : Except Fault Unit :=
  match ending with
  | none => .ok ()
  | some breakage => .error (select breakage)

mutual

/-- Passes over a value: only the grammar counts. -/
def skip : Reading → Except Fault Unit
  | .array items ending => do
    skipItems items
    checkEnding ending (·.skipped)
  | .object members ending => do
    skipMembers members
    checkEnding ending (·.skipped)
  | .broken breakage => .error breakage.skipped
  | _ => .ok ()

def skipItems : List Reading → Except Fault Unit
  | [] => .ok ()
  | r :: rest => do
    r.skip
    skipItems rest

def skipMembers : List (Except Fault String × Reading) → Except Fault Unit
  | [] => .ok ()
  | (_, r) :: rest => do
    r.skip
    skipMembers rest

end

mutual

/-- The value itself, every part of it read. -/
def toJson : Reading → Except Fault Json
  | .null => .ok .null
  | .bool b => .ok (.bool b)
  | .number value => value.map .number
  | .string text => text.map .string
  | .array items ending => do
    let items ← toItems items
    checkEnding ending (·.read)
    return .array items
  | .object members ending => do
    let members ← toMembers members
    checkEnding ending (·.read)
    return .object members
  | .broken breakage => .error breakage.read

def toItems : List Reading → Except Fault (List Json)
  | [] => .ok []
  | r :: rest => do
    let j ← r.toJson
    let rest ← toItems rest
    return j :: rest

def toMembers : List (Except Fault String × Reading) → Except Fault (List (String × Json))
  | [] => .ok []
  | (key, r) :: rest => do
    let key ← key
    let j ← r.toJson
    let rest ← toMembers rest
    return (key, j) :: rest

end

end Reading

mutual

/-- A value as a faultless reading of it. -/
def reading : Json → Reading
  | .null => .null
  | .bool b => .bool b
  | .number n => .number (.ok n)
  | .string s => .string (.ok s)
  | .array items => .array (readingItems items) none
  | .object members => .object (readingMembers members) none

def readingItems : List Json → List Reading
  | [] => []
  | j :: rest => j.reading :: readingItems rest

def readingMembers : List (String × Json) → List (Except Fault String × Reading)
  | [] => []
  | (key, j) :: rest => (.ok key, j.reading) :: readingMembers rest

end

mutual

def depth : Json → Nat
  | .array items => depthItems items + 1
  | .object members => depthMembers members + 1
  | _ => 0

def depthItems : List Json → Nat
  | [] => 0
  | j :: rest => max j.depth (depthItems rest)

def depthMembers : List (String × Json) → Nat
  | [] => 0
  | (_, j) :: rest => max j.depth (depthMembers rest)

end

/-- Values nested deeper are not read where the whole value counts. -/
def depthLimit : Nat := 127

/-- The one value a text holds. -/
def ofBytes? (text : Bytes) : Except Fault Json := do
  let (value, trailing) := Reading.ofBytes text
  let j ← value.toJson
  if trailing ∨ depthLimit < j.depth then .error .malformed else .ok j

end Json

end GoldenRecord

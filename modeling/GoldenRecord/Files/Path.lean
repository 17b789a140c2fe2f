import GoldenRecord.Files.Fault

namespace GoldenRecord

/-- A name as it was written. Its components are what stands between slashes, empty ones and single
dots aside. -/
structure Path where
  text : String
deriving DecidableEq, Repr, Inhabited

namespace Path

/-- The pieces between slashes, empty ones included. -/
def pieces (cs : List Char) : List (List Char) :=
  match cs with
  | [] => [[]]
  | c :: rest =>
    if c = '/' then [] :: pieces rest
    else match pieces rest with
      | [] => [[c]]
      | piece :: more => (c :: piece) :: more

def isAbsolute (p : Path) : Bool := p.text.toList.head? == some '/'

def pieceNames (p : Path) : List String := (pieces p.text.toList).map String.ofList

/-- Whether a piece of a path leads nowhere else. -/
def isIdle (piece : String) : Bool := piece == "" || piece == "."

/-- The components that count: names and steps up. -/
def components (p : Path) : List String := p.pieceNames.filter fun piece => !isIdle piece

def hasZero (p : Path) : Bool := p.text.toList.contains '\x00'

/-- Longest path that the file system takes, in bytes. -/
def maxSize : Nat := 4095

/-- The pieces by which the file system looks a path up, if it takes the path at all. -/
def lookupNames (p : Path) : Except FileFault (List String) :=
  if p.hasZero then .error .nulInName
  else if maxSize < p.text.utf8ByteSize then .error .nameTooLong
  else if p.text = "" then .error .notFound
  else .ok p.pieceNames

def fileName? (p : Path) : Option String :=
  p.components.getLast?.filter (· != "..")

/-- A name split at its last dot; a dot at the start is part of the stem, so a name whose only dot
comes first has no extension. -/
def splitExtension (name : List Char) : List Char × Option (List Char) :=
  let extension := (name.reverse.takeWhile (· != '.')).reverse
  let stem := (name.reverse.dropWhile (· != '.')).reverse.dropLast
  if stem.isEmpty then (name, none) else (stem, some extension)

def stem? (p : Path) : Option String :=
  p.fileName?.map fun name => String.ofList (splitExtension name.toList).1

def extension? (p : Path) : Option String :=
  p.fileName?.bind fun name => (splitExtension name.toList).2.map String.ofList

/-- What is recorded as the source: the file name, or the whole path where it has none. -/
def sourceName (p : Path) : String := p.fileName?.getD p.text

/-- A path below another one; an absolute path stands for itself. -/
def join (base : Path) (name : String) : Path :=
  if name.toList.head? = some '/' ∨ base.text = "" then ⟨name⟩
  else if base.text.toList.getLast? = some '/' then ⟨base.text ++ name⟩
  else ⟨base.text ++ "/" ++ name⟩

/-- What stands above the last component, as it was written. -/
def parent (p : Path) : Path :=
  let above := (((p.pieceNames.reverse.dropWhile isIdle).drop 1).dropWhile isIdle).reverse
  if p.isAbsolute ∧ above = [] then ⟨"/"⟩ else ⟨String.intercalate "/" above⟩

end Path

end GoldenRecord

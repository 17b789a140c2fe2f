import GoldenRecord.Extractor.Basic

namespace GoldenRecord

/-- What a child prints for a document, and how it ends. A child waits with the rest of its output
while nobody takes any of it, so it may be that it does not come to its end. -/
structure ChildRun where
  output : Bytes
  status : ExitStatus
  /-- Whether it comes to its end although some lines, the last ones, are not taken. -/
  ends : List Bytes → Bool := fun _ => true
  ends_nil : ends [] = true := by rfl

abbrev Child := Tree → Path → Except StartFault ChildRun

namespace Child

/-- A program that is not installed. A path to it leads into the tree, where nothing can be run; a
plain name does not. -/
def missing (program : Path) : Child := fun t _ =>
  match t.lookup program with
  | .error f => .error (.file f)
  | .ok _ =>
    if 1 < program.pieceNames.length ∨ program.fileName?.isNone then .error .notExecutable
    else .error (.file .notFound)

def silent (status : ExitStatus) : Child := fun _ _ => .ok { output := [], status }

/-- The status a text names, blanks aside; a text that names none is answered with status 2. -/
def readStatus (text : Bytes) : ExitStatus :=
  let word := text.filter fun b => !Json.Reading.isBlank b
  if word = Bytes.ofText "KILL" then .signal 9 false
  else if word.all Bytes.isDigit then .code (Bytes.digitsValue word % 256)
  else .code 2

/-- Bytes that are taken in any case: those that fit into a pipe and into the buffer of its reader. -/
def takenSize : Nat := 65536 + 8192

/-- A child whose output goes into a pipe: it comes to its end if what is not taken fits there. -/
def buffered (output : Bytes) (status : ExitStatus) : ChildRun where
  output := output
  status := status
  ends lines := decide (lines.foldr (fun line size => line.length + 1 + size) 0 ≤ takenSize)
  ends_nil := by decide

/-- Prints a document file as it is and ends with the status kept in the file beside it, whose name
has `.exit` added. -/
def replay : Child := fun t p =>
  let output := match t.readFile p with
    | .ok content => content
    | .error _ => []
  let status := match t.readFile ⟨p.text ++ ".exit"⟩ with
    | .ok text => readStatus text
    | .error _ => .code 0
  .ok (buffered output status)

/-- Longest argument that a program takes, in bytes. -/
def maxArgumentSize : Nat := 131071

def installed? (replayName name : String) : Option Child :=
  if name = replayName then some replay
  else if name = "true" then some (silent (.code 0))
  else if name = "false" then some (silent (.code 1))
  else none

def named (replayName name : String) : Child := fun t p =>
  if (Path.mk name).hasZero ∨ p.hasZero then .error .zeroByte
  else
    match installed? replayName name with
    | none => missing ⟨name⟩ t p
    | some child =>
      if maxArgumentSize < p.text.utf8ByteSize then .error .argumentTooLong else child t p

end Child

end GoldenRecord

import GoldenRecord.Extractor.Basic

namespace GoldenRecord

inductive Call where
  | opened (path : Path)
  | next
  | view (name : String)
  | closed
  | dropped
deriving DecidableEq, Repr

namespace Call

def text : Call → String
  | .opened path => "open " ++ path.text
  | .next => "next"
  | .view name => name
  | .closed => "close"
  | .dropped => "drop"

end Call

structure ScriptedPage where
  width : Option Binary64 := none
  height : Option Binary64 := none
  chars : Except Failure (List Attributes) := .ok []
  words : Except Failure (List Attributes) := .ok []
  text : Except Failure (Option String) := .ok none
  lines : Except Failure (List Attributes) := .ok []
  rects : Except Failure (List Attributes) := .ok []
  tables : Except Failure (List RawTable) := .ok []

/-- An extractor that follows a script and keeps a record of what it was asked for. -/
structure ScriptedExtractor where
  version : String
  pageCount : Nat
  steps : List (Except Failure ScriptedPage)
  openFailure : Option Failure := none
  closeFailure : Option Failure := none

namespace ScriptedExtractor

def note (c : Call) : StateM (List Call) Unit := modify (· ++ [c])

def answer {α : Type} (name : String) (p : ScriptedPage) (result : Except Failure α) :
    StateM (List Call) (Except Failure α × ScriptedPage) := do
  note (.view name)
  return (result, p)

def views : Views ScriptedPage (List Call) where
  width := ScriptedPage.width
  height := ScriptedPage.height
  chars p := answer "chars" p p.chars
  words p := answer "words" p p.words
  text p := answer "text" p p.text
  lines p := answer "lines" p p.lines
  rects p := answer "rects" p p.rects
  tables p := answer "find_tables" p p.tables

/-- The next step of the script; at its end there are no more pages. -/
def nextStep (steps : List (Except Failure ScriptedPage)) :
    Except Failure (Option ScriptedPage) × List (Except Failure ScriptedPage) :=
  match steps with
  | [] => (.ok none, [])
  | step :: rest => (step.map some, rest)

def outcome (failure : Option Failure) : Except Failure Unit :=
  match failure with
  | some f => .error f
  | none => .ok ()

/-- The handle is what remains of the script. -/
def toExtractor (x : ScriptedExtractor) : Extractor (List Call) where
  Handle := List (Except Failure ScriptedPage)
  Page := ScriptedPage
  views := views
  openDocument _ p := do
    note (.opened p)
    return (outcome x.openFailure).map fun _ => x.steps
  version _ := x.version
  pageCount _ := x.pageCount
  nextPage steps := do
    note .next
    return nextStep steps
  close steps := do
    note .closed
    return ((outcome x.closeFailure).mapError .failed, steps)
  drop _ := note .dropped
  remaining := List.length
  nextPage_remaining := by
    intro steps s p h
    cases steps with
    | nil => cases h
    | cons step rest => exact Nat.lt_succ_self _

end ScriptedExtractor

end GoldenRecord

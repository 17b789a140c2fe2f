import GoldenRecord.Failure
import GoldenRecord.Projection

namespace GoldenRecord

/-- A page as recorded: its views, the views that failed, and the failure of table detection. A view
is taken out when it is asked for; a recorded failure is given out first, and once. -/
structure RawPage where
  pageNumber : Nat := 0
  width : Option Binary64 := none
  height : Option Binary64 := none
  chars : List Attributes := []
  words : List Attributes := []
  text : Option String := none
  lines : List Attributes := []
  rects : List Attributes := []
  tables : List RawTable := []
  tableError : Option String := none
  viewErrors : TextMap String := .empty

namespace Schema

abbrev rawPage : Schema := .record <|
  .field "page_number" .natural <| .number "width" <| .number "height" <|
  .cons "chars" none .defaulted (.list attributes) <|
  .cons "words" none .defaulted (.list attributes) <|
  .cons "text" none .defaulted (.optional .text) <|
  .cons "lines" none .defaulted (.list attributes) <|
  .cons "rects" none .defaulted (.list attributes) <|
  .cons "tables" none .defaulted (.list rawTable) <|
  .cons "table_error" none .defaulted (.optional .text) <|
  .cons "view_errors" none .elided (.map .text) .nil

end Schema

instance : Recorded RawPage where
  schema := .rawPage
  ofData := fun (pageNumber, width, height, chars, words, text, lines, rects, tables, tableError,
      viewErrors, _) =>
    { pageNumber, width, height, chars, words, text, lines, rects, tableError, viewErrors
      tables := tables.map Recorded.ofData }
  toData p := (p.pageNumber, p.width, p.height, p.chars, p.words, p.text, p.lines, p.rects,
    p.tables.map Recorded.toData, p.tableError, p.viewErrors, ())

namespace RawPage

def viewNames : List String := ["chars", "words", "text", "lines", "rects"]

/-- A page that could not be produced at all: every view fails with the same message. -/
def unavailable (pageNumber : Nat) (message : String) : RawPage :=
  { pageNumber, tableError := some message
    viewErrors := .ofList (viewNames.map fun name => (name, message)) }

def index (p : RawPage) : Nat := p.pageNumber - 1

/-- Asks for a view: its recorded failure, else its data. -/
def view {α : Type} (p : RawPage) (name : String) (take : RawPage → α × RawPage) :
    Except Failure α × RawPage :=
  match p.viewErrors.find? name with
  | some message =>
    (.error (.page p.index (name ++ ": " ++ message)),
      { p with viewErrors := p.viewErrors.erase name })
  | none =>
    let (v, p) := take p
    (.ok v, p)

def takeChars (p : RawPage) : Except Failure (List Attributes) × RawPage :=
  p.view "chars" fun p => (p.chars, { p with chars := [] })

def takeWords (p : RawPage) : Except Failure (List Attributes) × RawPage :=
  p.view "words" fun p => (p.words, { p with words := [] })

def takeText (p : RawPage) : Except Failure (Option String) × RawPage :=
  p.view "text" fun p => (p.text, { p with text := none })

def takeLines (p : RawPage) : Except Failure (List Attributes) × RawPage :=
  p.view "lines" fun p => (p.lines, { p with lines := [] })

def takeRects (p : RawPage) : Except Failure (List Attributes) × RawPage :=
  p.view "rects" fun p => (p.rects, { p with rects := [] })

def takeTables (p : RawPage) : Except Failure (List RawTable) × RawPage :=
  match p.tableError with
  | some message => (.error (.tables p.index message), { p with tableError := none })
  | none => (.ok p.tables, { p with tables := [] })

end RawPage

end GoldenRecord

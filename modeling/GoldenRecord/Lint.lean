import GoldenRecord.Coordinate
import GoldenRecord.Record

namespace GoldenRecord

inductive Collection where
  | chars
  | words
  | lines
  | rects
  | tables
deriving DecidableEq, Repr

inductive Measure where
  | width
  | height
  | x0
  | top
  | x1
  | bottom
  | size
  | doctop
  | linewidth
deriving DecidableEq, Repr

/-- A place in a document: a page, an object on it, one number of either. -/
structure Spot where
  page : Nat
  item : Option (Collection × Nat) := none
  measure : Option Measure := none
deriving DecidableEq, Repr

namespace Collection

def name : Collection → String
  | .chars => "chars"
  | .words => "words"
  | .lines => "lines"
  | .rects => "rects"
  | .tables => "tables"

/-- A table has its numbers one level deeper, in its box. -/
def suffix : Collection → String
  | .tables => ".bbox"
  | _ => ""

end Collection

namespace Measure

def name : Measure → String
  | .width => "width"
  | .height => "height"
  | .x0 => "x0"
  | .top => "top"
  | .x1 => "x1"
  | .bottom => "bottom"
  | .size => "size"
  | .doctop => "doctop"
  | .linewidth => "linewidth"

end Measure

namespace Spot

def text (s : Spot) : String :=
  let item := match s.item with
    | some (c, j) => "." ++ c.name ++ "[" ++ toString j ++ "]" ++ c.suffix
    | none => ""
  let measure := match s.measure with
    | some m => "." ++ m.name
    | none => ""
  "pages[" ++ toString s.page ++ "]" ++ item ++ measure

end Spot

inductive Breach where
  | precision (v : Binary64)
  | invertedX (x0 x1 : Binary64)
  | invertedY (top bottom : Binary64)
  | pageNumber (expected found : Nat)
deriving DecidableEq, Repr

structure Violation where
  spot : Spot
  breach : Breach
deriving DecidableEq, Repr

namespace Violation

def text (v : Violation) : String :=
  v.spot.text ++ ": " ++ match v.breach with
    | .precision x =>
      x.plain ++ " has more than " ++ toString Coordinate.decimals ++ " decimal places"
    | .invertedX x0 x1 => "x0 " ++ x0.plain ++ " > x1 " ++ x1.plain
    | .invertedY top bottom => "top " ++ top.plain ++ " > bottom " ++ bottom.plain
    | .pageNumber expected found =>
      "page_number " ++ toString found ++ " where " ++ toString expected ++ " was expected"

end Violation

namespace Lint

def number (spot : Spot) (m : Measure) (v : Option Binary64) : List Violation :=
  match v with
  | some v =>
    if Coordinate.decimals < Coordinate.decimalPlaces v then
      [⟨{ spot with measure := some m }, .precision v⟩]
    else []
  | none => []

def inverted (low high : Option Binary64) : Option (Binary64 × Binary64) :=
  match low, high with
  | some low, some high => if high.lt low then some (low, high) else none
  | _, _ => none

/-- The four corners, then the two directions. -/
def box (spot : Spot) (b : Box) : List Violation :=
  number spot .x0 b.x0 ++ number spot .top b.top ++ number spot .x1 b.x1 ++
    number spot .bottom b.bottom ++
    (inverted b.x0 b.x1).toList.map (fun (x0, x1) => ⟨spot, .invertedX x0 x1⟩) ++
    (inverted b.top b.bottom).toList.map (fun (top, bottom) => ⟨spot, .invertedY top bottom⟩)

def char (spot : Spot) (c : CharRecord) : List Violation :=
  box spot ⟨c.x0, c.top, c.x1, c.bottom⟩ ++ number spot .size c.size ++ number spot .doctop c.doctop

def word (spot : Spot) (w : WordRecord) : List Violation :=
  box spot ⟨w.x0, w.top, w.x1, w.bottom⟩ ++ number spot .doctop w.doctop

def line (spot : Spot) (l : LineRecord) : List Violation :=
  box spot ⟨l.x0, l.top, l.x1, l.bottom⟩ ++ number spot .linewidth l.linewidth

def rect (spot : Spot) (r : RectRecord) : List Violation :=
  box spot ⟨r.x0, r.top, r.x1, r.bottom⟩ ++ number spot .linewidth r.linewidth

def table (spot : Spot) (t : TableRecord) : List Violation := box spot t.bbox

def items {α : Type} (page : Nat) (c : Collection) (check : Spot → α → List Violation)
    (xs : List α) : List Violation :=
  xs.zipIdx.flatMap fun (x, j) => check { page, item := some (c, j) } x

def page (i : Nat) (p : PageRecord) : List Violation :=
  (if p.pageNumber = i then [] else [⟨{ page := i }, .pageNumber i p.pageNumber⟩]) ++
    number { page := i } .width p.width ++ number { page := i } .height p.height ++
    items i .chars char p.chars ++ items i .words word p.words ++ items i .lines line p.lines ++
    items i .rects rect p.rects ++ items i .tables table p.tables

end Lint

/-- All breaches of a document, in the order in which it is written: numbers with more than four
decimals, inverted boxes, and pages that are not numbered from 0 on without gaps. -/
def Document.violations (d : Document) : List Violation :=
  d.pages.zipIdx.flatMap fun (p, i) => Lint.page i p

end GoldenRecord

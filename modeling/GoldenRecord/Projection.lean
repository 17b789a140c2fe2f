import GoldenRecord.Attributes
import GoldenRecord.Coordinate
import GoldenRecord.Record

namespace GoldenRecord

/-- A detected table as reported: its corners and its cells, all loosely typed. -/
structure RawTable where
  bbox : List Value
  rows : List (List Value)

namespace Schema

abbrev rawTable : Schema := .record <|
  .cons "bbox" none .defaulted (.list .any) <|
  .cons "rows" none .defaulted (.list (.list .any)) .nil

end Schema

instance : Recorded RawTable where
  schema := .rawTable
  ofData := fun (bbox, rows, _) => { bbox, rows }
  toData t := (t.bbox, t.rows, ())

namespace Attributes

def coordinate (a : Attributes) (key : String) : Option Binary64 :=
  Coordinate.round (a.number? key)

def linewidthKeys : List String := ["linewidth", "line_width", "lw"]

def linewidth (a : Attributes) : Option Binary64 :=
  Coordinate.roundValue ((a.numberOf? linewidthKeys).getD .zero)

def size (a : Attributes) : Option Binary64 :=
  Coordinate.roundValue ((a.number? "size").getD .zero)

def doctop (a : Attributes) : Option Binary64 :=
  Coordinate.round ((a.number? "doctop").or (a.number? "top"))

/-- Projection never fails, since every field has a default: missing texts are empty, missing
coordinates null, a missing size or line width is 0, and characters are upright. -/
def toChar (a : Attributes) : CharRecord where
  text := (a.text? "text").getD ""
  x0 := a.coordinate "x0"
  top := a.coordinate "top"
  x1 := a.coordinate "x1"
  bottom := a.coordinate "bottom"
  fontname := (a.text? "fontname").getD ""
  size := a.size
  doctop := a.doctop
  upright := (a.flag? "upright").getD true

def toWord (a : Attributes) : WordRecord where
  text := (a.text? "text").getD ""
  x0 := a.coordinate "x0"
  top := a.coordinate "top"
  x1 := a.coordinate "x1"
  bottom := a.coordinate "bottom"
  doctop := a.doctop

def toLine (a : Attributes) : LineRecord where
  x0 := a.coordinate "x0"
  top := a.coordinate "top"
  x1 := a.coordinate "x1"
  bottom := a.coordinate "bottom"
  linewidth := a.linewidth

def toRect (a : Attributes) : RectRecord where
  x0 := a.coordinate "x0"
  top := a.coordinate "top"
  x1 := a.coordinate "x1"
  bottom := a.coordinate "bottom"
  linewidth := a.linewidth
  stroke := (a.flag? "stroke").getD (a.isPresent "stroking_color")
  fill := (a.flag? "fill").getD (a.isPresent "non_stroking_color")

end Attributes

namespace RawTable

/-- The corner at a place of the box; a corner that is missing or no number is unknown. -/
def corner (t : RawTable) (place : Nat) : Option Binary64 :=
  Coordinate.round (t.bbox[place]?.bind (·.number?))

def toTable (t : RawTable) : TableRecord where
  bbox := { x0 := t.corner 0, top := t.corner 1, x1 := t.corner 2, bottom := t.corner 3 }
  rows := t.rows.map (·.map fun cell => cell.text?.getD "")

end RawTable

end GoldenRecord

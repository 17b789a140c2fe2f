import GoldenRecord.Schema

namespace GoldenRecord

structure CharRecord where
  text : String
  x0 : Option Binary64
  top : Option Binary64
  x1 : Option Binary64
  bottom : Option Binary64
  fontname : String
  size : Option Binary64
  doctop : Option Binary64
  upright : Bool
deriving DecidableEq

structure WordRecord where
  text : String
  x0 : Option Binary64
  top : Option Binary64
  x1 : Option Binary64
  bottom : Option Binary64
  doctop : Option Binary64
deriving DecidableEq

structure LineRecord where
  x0 : Option Binary64
  top : Option Binary64
  x1 : Option Binary64
  bottom : Option Binary64
  linewidth : Option Binary64
deriving DecidableEq

structure RectRecord where
  x0 : Option Binary64
  top : Option Binary64
  x1 : Option Binary64
  bottom : Option Binary64
  linewidth : Option Binary64
  stroke : Bool
  fill : Bool
deriving DecidableEq

structure Box where
  x0 : Option Binary64
  top : Option Binary64
  x1 : Option Binary64
  bottom : Option Binary64
deriving DecidableEq

structure TableRecord where
  bbox : Box
  rows : List (List String)
deriving DecidableEq

structure PageRecord where
  pageNumber : Nat
  width : Option Binary64
  height : Option Binary64
  chars : List CharRecord
  words : List WordRecord
  text : String
  lines : List LineRecord
  rects : List RectRecord
  tables : List TableRecord
deriving DecidableEq

/-- What is known of a document. A number that was not reported is null and never made up. -/
structure Document where
  source : String
  extractorVersion : String
  pages : List PageRecord
deriving DecidableEq

/-- Bytes that the record of a page takes in a list: a number, two that may be unknown, and six texts
and lists. -/
def PageRecord.size : Nat := 8 + 2 * 16 + 6 * 24

/-- Most pages there can be room for: a list has less than 2^63 bytes. -/
def Document.maxPages : Nat := (Nat.pow 2 63 - 1) / PageRecord.size

structure Counts where
  pages : Nat := 0
  chars : Nat := 0
  words : Nat := 0
  lines : Nat := 0
  rects : Nat := 0
  tables : Nat := 0
deriving DecidableEq, Repr

/-- The corners in reading order: left, top, right, bottom. -/
def Box.toList (b : Box) : List (Option Binary64) := [b.x0, b.top, b.x1, b.bottom]

def Document.total (d : Document) (f : PageRecord → Nat) : Nat :=
  d.pages.foldr (fun p n => f p + n) 0

def Document.counts (d : Document) : Counts where
  pages := d.pages.length
  chars := d.total (·.chars.length)
  words := d.total (·.words.length)
  lines := d.total (·.lines.length)
  rects := d.total (·.rects.length)
  tables := d.total (·.tables.length)

namespace Fields

abbrev field (name : String) (s : Schema) (rest : Fields) : Fields :=
  .cons name none .required s rest

abbrev number (name : String) (rest : Fields) : Fields :=
  .cons name none .omissible (.optional .real) rest

abbrev corners (rest : Fields) : Fields :=
  number "x0" <| number "top" <| number "x1" <| number "bottom" <| rest

end Fields

namespace Schema

abbrev char : Schema := .record <|
  .field "text" .text <| .corners <| .field "fontname" .text <| .number "size" <|
  .number "doctop" <| .field "upright" .flag .nil

abbrev word : Schema := .record <| .field "text" .text <| .corners <| .number "doctop" .nil

abbrev line : Schema := .record <| .corners <| .number "linewidth" .nil

abbrev rect : Schema := .record <|
  .corners <| .number "linewidth" <| .field "stroke" .flag <| .field "fill" .flag .nil

abbrev box : Schema := .record <| .corners .nil

abbrev table : Schema := .record <|
  .field "bbox" box <| .field "rows" (.list (.list .text)) .nil

abbrev page : Schema := .record <|
  .field "page_number" .natural <| .number "width" <| .number "height" <|
  .field "chars" (.list char) <| .field "words" (.list word) <| .field "text" .text <|
  .field "lines" (.list line) <| .field "rects" (.list rect) <|
  .field "tables" (.list table) .nil

/-- The version also has the name it had in older files. -/
abbrev document : Schema := .record <|
  .field "source" .text <|
  .cons "extractor_version" (some "pdfplumber_version") .required .text <|
  .field "pages" (.list page) .nil

end Schema

instance : Recorded CharRecord where
  schema := .char
  ofData := fun (text, x0, top, x1, bottom, fontname, size, doctop, upright, _) =>
    { text, x0, top, x1, bottom, fontname, size, doctop, upright }
  toData c := (c.text, c.x0, c.top, c.x1, c.bottom, c.fontname, c.size, c.doctop, c.upright, ())

instance : Recorded WordRecord where
  schema := .word
  ofData := fun (text, x0, top, x1, bottom, doctop, _) => { text, x0, top, x1, bottom, doctop }
  toData w := (w.text, w.x0, w.top, w.x1, w.bottom, w.doctop, ())

instance : Recorded LineRecord where
  schema := .line
  ofData := fun (x0, top, x1, bottom, linewidth, _) => { x0, top, x1, bottom, linewidth }
  toData l := (l.x0, l.top, l.x1, l.bottom, l.linewidth, ())

instance : Recorded RectRecord where
  schema := .rect
  ofData := fun (x0, top, x1, bottom, linewidth, stroke, fill, _) =>
    { x0, top, x1, bottom, linewidth, stroke, fill }
  toData r := (r.x0, r.top, r.x1, r.bottom, r.linewidth, r.stroke, r.fill, ())

instance : Recorded Box where
  schema := .box
  ofData := fun (x0, top, x1, bottom, _) => { x0, top, x1, bottom }
  toData b := (b.x0, b.top, b.x1, b.bottom, ())

instance : Recorded TableRecord where
  schema := .table
  ofData := fun (bbox, rows, _) => { bbox := Recorded.ofData bbox, rows }
  toData t := (Recorded.toData t.bbox, t.rows, ())

instance : Recorded PageRecord where
  schema := .page
  ofData := fun (pageNumber, width, height, chars, words, text, lines, rects, tables, _) =>
    { pageNumber, width, height, text
      chars := chars.map Recorded.ofData
      words := words.map Recorded.ofData
      lines := lines.map Recorded.ofData
      rects := rects.map Recorded.ofData
      tables := tables.map Recorded.ofData }
  toData p := (p.pageNumber, p.width, p.height, p.chars.map Recorded.toData,
    p.words.map Recorded.toData, p.text, p.lines.map Recorded.toData,
    p.rects.map Recorded.toData, p.tables.map Recorded.toData, ())

instance : Recorded Document where
  schema := .document
  ofData := fun (source, extractorVersion, pages, _) =>
    { source, extractorVersion, pages := pages.map Recorded.ofData }
  toData d := (d.source, d.extractorVersion, d.pages.map Recorded.toData, ())

end GoldenRecord

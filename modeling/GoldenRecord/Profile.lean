import GoldenRecord.Json.Printer
import GoldenRecord.Record

namespace GoldenRecord

/-- Written forms of a document. The full one is read back; the legacy one keeps what older readers
know and is never read back. -/
inductive Profile where
  | full
  | legacy
deriving DecidableEq, Repr

namespace Profile

def name : Profile → String
  | .full => "full"
  | .legacy => "legacy"

def ofName (name : String) : Except String Profile :=
  if name = "full" then .ok .full
  else if name = "legacy" then .ok .legacy
  else .error ("unknown profile '" ++ name ++ "' (expected full or legacy)")

end Profile

namespace Schema

abbrev legacyChar : Schema := .record <|
  .field "text" .text <| .corners <| .field "fontname" .text <| .number "size" .nil

abbrev legacyWord : Schema := .record <| .field "text" .text <| .corners .nil

abbrev legacyTable : Schema := .record <|
  .field "bbox" (.list (.optional .real)) <| .field "rows" (.list (.list .text)) .nil

abbrev legacyPage : Schema := .record <|
  .field "page_number" .natural <| .number "width" <| .number "height" <|
  .field "chars" (.list legacyChar) <| .field "words" (.list legacyWord) <|
  .field "tables" (.list legacyTable) .nil

abbrev legacyDocument : Schema := .record <|
  .field "source" .text <| .field "pages" (.list legacyPage) .nil

end Schema

namespace CharRecord

def legacy (c : CharRecord) : Schema.legacyChar.Data :=
  (c.text, c.x0, c.top, c.x1, c.bottom, c.fontname, c.size, ())

end CharRecord

namespace WordRecord

def legacy (w : WordRecord) : Schema.legacyWord.Data :=
  (w.text, w.x0, w.top, w.x1, w.bottom, ())

end WordRecord

namespace TableRecord

def legacy (t : TableRecord) : Schema.legacyTable.Data := (t.bbox.toList, t.rows, ())

end TableRecord

namespace PageRecord

def legacy (p : PageRecord) : Schema.legacyPage.Data :=
  (p.pageNumber, p.width, p.height, p.chars.map CharRecord.legacy, p.words.map WordRecord.legacy,
    p.tables.map TableRecord.legacy, ())

end PageRecord

namespace Document

def legacy (d : Document) : Schema.legacyDocument.Data :=
  (d.source, d.pages.map PageRecord.legacy, ())

def toJson (d : Document) : Profile → Json
  | .full => Recorded.toJson d
  | .legacy => Schema.legacyDocument.encode d.legacy

/-- The golden text, without a line end after it. -/
def golden (d : Document) (profile : Profile) : String := (d.toJson profile).pretty

def goldenBytes (d : Document) (profile : Profile) : Bytes := .ofText (d.golden profile)

def ofGoldenBytes? (b : Bytes) : Except Json.Fault Document := Recorded.ofBytes? b

end Document

end GoldenRecord

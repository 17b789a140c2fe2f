import GoldenRecord.RawPage

namespace GoldenRecord

structure Header where
  version : String
  pageCount : Nat
deriving DecidableEq

/-- A failure to open the document or to produce one page. -/
structure ErrorReport where
  pageNumber : Option Nat
  message : String
deriving DecidableEq

/-- What a bridge child prints on a line: a header first, then a page or the report of a failure for
every page. -/
inductive Message where
  | header (h : Header)
  | page (p : RawPage)
  | failure (r : ErrorReport)

namespace Schema

abbrev header : Schema := .record <|
  .field "extractor_version" .text <| .field "page_count" .natural .nil

abbrev errorReport : Schema := .record <|
  .cons "page_number" none .defaulted (.optional .natural) <| .field "message" .text .nil

end Schema

instance : Recorded Header where
  schema := .header
  ofData := fun (version, pageCount, _) => { version, pageCount }
  toData h := (h.version, h.pageCount, ())

instance : Recorded ErrorReport where
  schema := .errorReport
  ofData := fun (pageNumber, message, _) => { pageNumber, message }
  toData r := (r.pageNumber, r.message, ())

namespace Message

def ofContent? (kind : String) (content : Json) : Except Json.Fault Message :=
  if kind = "open" then (Recorded.ofJson? content).map .header
  else if kind = "page" then (Recorded.ofJson? content).map .page
  else if kind = "error" then (Recorded.ofJson? content).map .failure
  else .error .mismatch

/-- The kind is one member of an object, or the first item of an array. -/
def ofJson? : Json → Except Json.Fault Message
  | .object members =>
    match members.filter (·.1 == "kind") with
    | [(_, .string kind)] => ofContent? kind (.object (members.filter (·.1 != "kind")))
    | _ => .error .mismatch
  | .array (.string kind :: items) => ofContent? kind (.array items)
  | _ => .error .mismatch

def ofLine? (line : Bytes) : Except Failure Message :=
  match Bytes.toText? line with
  | none => .error (.file .notText)
  | some _ =>
    match Json.ofBytes? line >>= ofJson? with
    | .ok m => .ok m
    | .error f => .error (.extractor (.malformedMessage f))

/-- The page a message stands for in a document, at a position counted from 0. -/
def toPage? (m : Message) (index : Nat) : Except Failure RawPage :=
  match m with
  | .page p => .ok p
  | .failure r => .ok (.unavailable (r.pageNumber.getD (index + 1)) r.message)
  | .header _ => .error (.extractor .secondHeader)

end Message

end GoldenRecord

import GoldenRecord.Extractor.Basic

namespace GoldenRecord

/-- A failing view counts as empty. -/
def absorb {α : Type} (empty : α) (result : Except Failure α) : α :=
  match result with
  | .ok v => v
  | .error _ => empty

/-- The record of the page at a position, and what is left of the page; its own numbering does not
matter. -/
def Views.extract {Page State : Type} (v : Views Page State) (p : Page) (index : Nat) :
    StateM State (PageRecord × Page) := do
  let (chars, p) ← v.chars p
  let (words, p) ← v.words p
  let (text, p) ← v.text p
  let (lines, p) ← v.lines p
  let (rects, p) ← v.rects p
  let (tables, p) ← v.tables p
  let record : PageRecord :=
    { pageNumber := index
      width := Coordinate.round (v.width p)
      height := Coordinate.round (v.height p)
      chars := (absorb [] chars).map Attributes.toChar
      words := (absorb [] words).map Attributes.toWord
      text := (absorb none text).getD ""
      lines := (absorb [] lines).map Attributes.toLine
      rects := (absorb [] rects).map Attributes.toRect
      tables := (absorb [] tables).map RawTable.toTable }
  return (record, p)

namespace Extractor

variable {State : Type}

/-- The records of the pages that are still to come, numbered from `index` on. -/
def collect (e : Extractor State) (h : e.Handle) (index : Nat) (s : State) :
    (Except Failure (List PageRecord) × e.Handle) × State :=
  match _served : e.nextPage h s with
  | ((.error f, h₁), s₁) => ((.error f, h₁), s₁)
  | ((.ok none, h₁), s₁) => ((.ok [], h₁), s₁)
  | ((.ok (some p), h₁), s₁) =>
    let ((page, _), s₂) := e.views.extract p index s₁
    match e.collect h₁ (index + 1) s₂ with
    | ((.error f, h₂), s₃) => ((.error f, h₂), s₃)
    | ((.ok pages, h₂), s₃) => ((.ok (page :: pages), h₂), s₃)
termination_by e.remaining h
decreasing_by
  have shorter := e.nextPage_remaining h s p (by rw [_served])
  rwa [_served] at shorter

/-- The document behind an open handle. Room for as many pages as are announced is made before the
first one is asked for. -/
def assemble (e : Extractor State) (h : e.Handle) (source : String) :
    StateM State (Except Stop Document × e.Handle) := do
  let announced := e.pageCount h
  if Document.maxPages < announced then return (.error (.halted .overflow), h)
  else
    let (pages, h) ← e.collect h 0
    match pages with
    | .error f => return (.error (.failed f), h)
    | .ok pages =>
      if pages.length = announced then
        return (.ok { source, extractorVersion := e.version h, pages }, h)
      else return (.error (.failed (.extractor (.miscounted announced pages.length))), h)

/-- What becomes of an open handle where nothing more is done: an overflow lets it go, but one who
waits keeps it. -/
def abandon (e : Extractor State) (h : e.Handle) : Halt → StateM State Unit
  | .overflow => e.drop h
  | .waiting => pure ()

/-- The document at a path. An open handle is closed once and dropped, whatever goes wrong with the
pages; a fault of theirs counts before one of closing. -/
def extract (e : Extractor State) (t : Tree) (p : Path) : StateM State (Except Stop Document) := do
  match ← e.openDocument t p with
  | .error f => return .error (.failed f)
  | .ok h =>
    let (document, h) ← e.assemble h p.sourceName
    match halt? document with
    | some halt =>
      e.abandon h halt
      return .error (.halted halt)
    | none =>
      let (closed, h) ← e.close h
      match halt? closed with
      | some halt =>
        e.abandon h halt
        return .error (.halted halt)
      | none =>
        e.drop h
        match document, closed with
        | .error s, _ => return .error s
        | .ok _, .error s => return .error s
        | .ok d, .ok () => return .ok d

end Extractor

end GoldenRecord

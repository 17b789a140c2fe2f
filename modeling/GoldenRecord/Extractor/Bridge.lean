import GoldenRecord.Extractor.Child
import GoldenRecord.Extractor.Message

namespace GoldenRecord

namespace Bytes

/-- The lines of a text, each with its line end; the last one may have none. -/
def linesWithEnds : Bytes → List Bytes
  | [] => []
  | b :: rest =>
    if b = 10 then [b] :: linesWithEnds rest
    else match linesWithEnds rest with
      | [] => [[b]]
      | line :: more => (b :: line) :: more

/-- A line without its line end, which may have a carriage return before it. -/
def trimLineEnd (line : Bytes) : Bytes :=
  if line.getLast? = some 10 then
    let line := line.dropLast
    if line.getLast? = some 13 then line.dropLast else line
  else line

def lines (b : Bytes) : List Bytes := (linesWithEnds b).map trimLineEnd

end Bytes

/-- An extractor in a child process, which prints one message a line. -/
structure BridgeExtractor where
  program : String
  child : Child

def BridgeExtractor.defaultProgram : String := "python3"

structure BridgeDocument where
  lines : List Bytes
  status : ExitStatus
  ends : List Bytes → Bool
  version : String
  pageCount : Nat
  pagesRead : Nat := 0
  isClosed : Bool := false

namespace BridgeExtractor

def openRun (p : Path) (run : ChildRun) : Except Failure BridgeDocument :=
  match run.output.lines with
  | [] => .error (.cannotOpen p ("oracle exited without output (" ++ run.status.text ++ ")"))
  | line :: lines =>
    match Message.ofLine? line with
    | .error f => .error f
    | .ok (.header h) =>
      .ok
        { lines, status := run.status, ends := run.ends, version := h.version
          pageCount := h.pageCount }
    | .ok (.failure r) => .error (.cannotOpen p r.message)
    | .ok (.page _) => .error (.extractor .pageBeforeHeader)

def openDocument (b : BridgeExtractor) (t : Tree) (p : Path) : Except Failure BridgeDocument :=
  match b.child t p with
  | .error f => .error (.extractor (.notStarted b.program f))
  | .ok run => openRun p run

end BridgeExtractor

namespace BridgeDocument

/-- The next page, as long as not all announced pages were handed out. A line is used up even if
it holds no page. -/
def nextPage (d : BridgeDocument) : Except Failure (Option RawPage) × BridgeDocument :=
  if d.pageCount ≤ d.pagesRead then (.ok none, d)
  else
    match d.lines with
    | [] => (.error (.extractor (.stopped d.pagesRead d.pageCount)), d)
    | line :: lines =>
      match Message.ofLine? line >>= (·.toPage? d.pagesRead) with
      | .error f => (.error f, { d with lines })
      | .ok p => (.ok (some p), { d with lines, pagesRead := d.pagesRead + 1 })

/-- A child is stopped if there are pages left to read. Otherwise it is waited for, and its status
counts. -/
def close (d : BridgeDocument) : Except Stop Unit × BridgeDocument :=
  if d.isClosed then (.ok (), d)
  else
    let closed := { d with isClosed := true }
    if d.pagesRead < d.pageCount then (.ok (), closed)
    else if d.ends d.lines = false then (.error (.halted .waiting), closed)
    else if d.pagesRead = d.pageCount ∧ ¬ d.status.succeeded then
      (.error (.failed (.extractor (.exited d.status))), closed)
    else (.ok (), closed)

theorem nextPage_lines {d : BridgeDocument} {p : RawPage} (h : d.nextPage.1 = .ok (some p)) :
    d.nextPage.2.lines.length < d.lines.length := by
  unfold nextPage at h ⊢
  split
  next hn => rw [if_pos hn] at h; cases h
  next hn =>
    rw [if_neg hn] at h
    split
    next hl => rw [hl] at h; cases h
    next line lines hl =>
      rw [hl] at h
      dsimp only at h
      split
      next hm => rw [hm] at h; cases h
      next => simp [hl]

end BridgeDocument

def BridgeExtractor.toExtractor (b : BridgeExtractor) : Extractor Unit where
  Handle := BridgeDocument
  Page := RawPage
  views := RawPage.views Unit
  openDocument t p := pure (b.openDocument t p)
  version := BridgeDocument.version
  pageCount := BridgeDocument.pageCount
  nextPage d := pure d.nextPage
  close d := pure d.close
  drop _ := pure ()
  remaining d := d.lines.length
  nextPage_remaining := fun _ _ _ h => BridgeDocument.nextPage_lines h

end GoldenRecord

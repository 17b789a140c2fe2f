import GoldenRecord.Extractor.Basic

namespace GoldenRecord

/-- What is recorded of a document. Recorded pages are no more than there can be room for. -/
inductive Recording where
  | pages (pages : List RawPage) (fits : pages.length ≤ Document.maxPages := by decide)
  | unreadable (message : String)

/-- An extractor that serves pages recorded ahead of time, by file name. A later recording under a
name replaces an earlier one. -/
structure MemoryExtractor where
  version : String
  recordings : TextMap Recording := .empty

structure MemoryDocument where
  version : String
  pageCount : Nat
  pages : List RawPage
  isOpen : Bool := true

namespace MemoryExtractor

def record (m : MemoryExtractor) (name : String) (r : Recording) : MemoryExtractor :=
  { m with recordings := m.recordings.insert name r }

/-- The file at a path is not looked at; its name decides. -/
def openDocument (m : MemoryExtractor) (p : Path) : Except Failure MemoryDocument :=
  match m.recordings.find? (p.fileName?.getD "") with
  | some (.pages pages _) => .ok { version := m.version, pageCount := pages.length, pages }
  | some (.unreadable message) => .error (.cannotOpen p message)
  | none => .error (.cannotOpen p "no recorded document")

end MemoryExtractor

namespace MemoryDocument

def nextPage (d : MemoryDocument) : Option RawPage × MemoryDocument :=
  match d.pages with
  | [] => (none, d)
  | p :: rest => (some p, { d with pages := rest })

/-- The document after its release, and what that adds to the number of released handles. -/
def release (d : MemoryDocument) : MemoryDocument × Nat :=
  if d.isOpen then ({ d with isOpen := false }, 1) else (d, 0)

end MemoryDocument

/-- The state is the number of released handles. -/
def MemoryExtractor.toExtractor (m : MemoryExtractor) : Extractor Nat where
  Handle := MemoryDocument
  Page := RawPage
  views := RawPage.views Nat
  openDocument _ p := pure (m.openDocument p)
  version := MemoryDocument.version
  pageCount := MemoryDocument.pageCount
  nextPage d := let (p, d) := d.nextPage; pure (.ok p, d)
  close d := fun released => let (d, n) := d.release; ((.ok (), d), released + n)
  drop d := fun released => ((), released + d.release.2)
  remaining d := d.pages.length
  nextPage_remaining := by
    intro d s p h
    obtain ⟨version, pageCount, pages, isOpen⟩ := d
    cases pages with
    | nil => cases h
    | cons head rest => exact Nat.lt_succ_self _

end GoldenRecord

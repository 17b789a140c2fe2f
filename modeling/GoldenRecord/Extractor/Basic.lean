import GoldenRecord.Files.Tree
import GoldenRecord.RawPage

namespace GoldenRecord

/-- The six views of a page. Asking for a view may use it up. -/
structure Views (Page State : Type) where
  width : Page → Option Binary64
  height : Page → Option Binary64
  chars : Page → StateM State (Except Failure (List Attributes) × Page)
  words : Page → StateM State (Except Failure (List Attributes) × Page)
  text : Page → StateM State (Except Failure (Option String) × Page)
  lines : Page → StateM State (Except Failure (List Attributes) × Page)
  rects : Page → StateM State (Except Failure (List Attributes) × Page)
  tables : Page → StateM State (Except Failure (List RawTable) × Page)

/-- What is asked of a reference extractor. It may read the file tree and keep a state of its own, but
it does not change the tree. -/
structure Extractor (State : Type) where
  Handle : Type
  Page : Type
  views : Views Page State
  openDocument : Tree → Path → StateM State (Except Failure Handle)
  version : Handle → String
  pageCount : Handle → Nat
  nextPage : Handle → StateM State (Except Failure (Option Page) × Handle)
  close : Handle → StateM State (Except Stop Unit × Handle)
  /-- The handle goes out of use, closed or not. -/
  drop : Handle → StateM State Unit
  /-- Not fewer than the pages that are still to come. -/
  remaining : Handle → Nat
  nextPage_remaining : ∀ (h : Handle) (s : State) (p : Page),
    (nextPage h s).1.1 = .ok (some p) → remaining (nextPage h s).1.2 < remaining h

/-- Recorded pages serve their own views. -/
def RawPage.views (State : Type) : Views RawPage State where
  width := RawPage.width
  height := RawPage.height
  chars p := pure p.takeChars
  words p := pure p.takeWords
  text p := pure p.takeText
  lines p := pure p.takeLines
  rects p := pure p.takeRects
  tables p := pure p.takeTables

end GoldenRecord

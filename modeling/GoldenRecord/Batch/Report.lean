import GoldenRecord.Files.Path
import GoldenRecord.Record

namespace GoldenRecord

namespace Batch

structure Summary where
  artifact : Path
  counts : Counts
deriving DecidableEq, Repr

inductive Outcome where
  | succeeded (s : Summary)
  | skipped
  | failed (reason : String)
deriving DecidableEq, Repr

structure Entry where
  source : String
  path : Path
  outcome : Outcome
deriving DecidableEq, Repr

/-- One entry per input, in the order in which they were handled. -/
structure Report where
  entries : List Entry := []
deriving DecidableEq, Repr

namespace Summary

def text (s : Summary) : String :=
  s.artifact.fileName?.getD "" ++ "  (" ++ toString s.counts.pages ++ " pages, " ++
    toString s.counts.chars ++ " chars, " ++ toString s.counts.words ++ " words, " ++
    toString s.counts.lines ++ " lines, " ++ toString s.counts.rects ++ " rects, " ++
    toString s.counts.tables ++ " tables)"

end Summary

namespace Outcome

def isSucceeded : Outcome → Bool
  | .succeeded _ => true
  | _ => false

def isSkipped : Outcome → Bool
  | .skipped => true
  | _ => false

def isFailed : Outcome → Bool
  | .failed _ => true
  | _ => false

end Outcome

namespace Report

def push (r : Report) (e : Entry) : Report := ⟨r.entries ++ [e]⟩

def succeeded (r : Report) : Nat := r.entries.countP (·.outcome.isSucceeded)

def skipped (r : Report) : Nat := r.entries.countP (·.outcome.isSkipped)

def failed (r : Report) : Nat := r.entries.countP (·.outcome.isFailed)

def entry? (r : Report) (source : String) : Option Entry :=
  r.entries.find? (·.source == source)

def text (r : Report) : String :=
  "Done! Generated: " ++ toString r.succeeded ++ ", Skipped: " ++ toString r.skipped ++
    ", Failed: " ++ toString r.failed

end Report

end Batch

end GoldenRecord

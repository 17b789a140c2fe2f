import GoldenRecord.Batch.Builder
import GoldenRecord.Batch.Discovery
import GoldenRecord.Batch.Report
import GoldenRecord.Extraction
import GoldenRecord.Files.AtomicWrite

namespace GoldenRecord

namespace Batch

variable {State : Type}

/-- What a run works on: the files, and the state of the extractor. -/
structure World (State : Type) where
  tree : Tree
  state : State

/-- Skips one input, or extracts it and writes its record in one step. What fails stays with the
input. -/
def processFile (e : Extractor State) (c : Config) (p : Path) (w : World State) :
    Except Halt Outcome × World State :=
  if c.isSkipped p then (.ok .skipped, w)
  else
    match e.extract w.tree p w.state with
    | (.error (.halted h), state) => (.error h, { w with state })
    | (.error (.failed f), state) => (.ok (.failed f.message), { w with state })
    | (.ok d, state) =>
      match w.tree.writeAtomic (c.artifact p) (d.goldenBytes c.profile) with
      | (.error f, tree) => (.ok (.failed (Failure.file f).message), { tree, state })
      | (.ok (), tree) => (.ok (.succeeded ⟨c.artifact p, d.counts⟩), { tree, state })

def removeStale (t : Tree) (artifact : Path) : Except Failure Tree :=
  match t.removeFile artifact with
  | .ok t => .ok t
  | .error .notFound => .ok t
  | .error f => .error (.file f)

/-- The tree after an input that was handled: without a record of its own, the one of an earlier
run goes, but not one of this run. -/
def settle (c : Config) (written : List Path) (p : Path) (outcome : Outcome) (t : Tree) :
    Except Failure Tree :=
  if outcome.isSucceeded ∨ c.artifact p ∈ written then .ok t else removeStale t (c.artifact p)

/-- Handles one input, and settles what an earlier run has left of it. -/
def handle (e : Extractor State) (c : Config) (written : List Path) (p : Path) (w : World State) :
    Except Stop Outcome × World State :=
  match processFile e c p w with
  | (.error h, w) => (.error (.halted h), w)
  | (.ok outcome, w) =>
    match settle c written p outcome w.tree with
    | .error f => (.error (.failed f), w)
    | .ok tree => (.ok outcome, { w with tree })

def noteWritten (written : List Path) : Outcome → List Path
  | .succeeded s => s.artifact :: written
  | _ => written

/-- Handles the inputs in order; `written` are the records this run has written before. -/
def processAll (e : Extractor State) (c : Config) (written : List Path) :
    List Path → World State → Except Stop (List Entry) × World State
  | [], w => (.ok [], w)
  | p :: rest, w =>
    match handle e c written p w with
    | (.error s, w) => (.error s, w)
    | (.ok outcome, w) =>
      match processAll e c (noteWritten written outcome) rest w with
      | (.error s, w) => (.error s, w)
      | (.ok entries, w) => (.ok (⟨p.sourceName, p, outcome⟩ :: entries), w)

/-- Runs a batch: nothing is touched before all inputs are known. -/
def run (e : Extractor State) (c : Config) (w : World State) :
    Except Stop Report × World State :=
  match discover w.tree c c.inputs with
  | .error f => (.error (.failed f), w)
  | .ok inputs =>
    match w.tree.createDirectory c.output with
    | (.error f, tree) => (.error (.failed (.file f)), { w with tree })
    | (.ok (), tree) =>
      let (entries, w) := processAll e c [] inputs { w with tree }
      (entries.map Report.mk, w)

end Batch

end GoldenRecord

import GoldenRecord.Failure
import GoldenRecord.Files.Tree
import GoldenRecord.Profile

namespace GoldenRecord

namespace Tree

def loadGolden (t : Tree) (p : Path) : Except Failure Document :=
  match t.readFile p with
  | .error f => .error (.file f)
  | .ok content =>
    match Document.ofGoldenBytes? content with
    | .error f => .error (.json f)
    | .ok d => .ok d

/-- The document in a golden file that keeps all rules. -/
def checkGolden (t : Tree) (p : Path) : Except Failure Document := do
  let d ← t.loadGolden p
  if d.violations.isEmpty then .ok d else .error (.violations p d.violations)

end Tree

end GoldenRecord

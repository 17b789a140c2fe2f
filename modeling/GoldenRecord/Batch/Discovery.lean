import GoldenRecord.Batch.Config
import GoldenRecord.Failure
import GoldenRecord.Files.Tree

namespace GoldenRecord

namespace Batch

namespace Config

/-- Whether an entry of an input directory is an input. -/
def accepts (c : Config) (t : Tree) (p : Path) : Bool :=
  p.extension? == some c.extension && t.isFile p

end Config

/-- Order of file names; a path without one comes first. -/
def nameLE (p q : Path) : Bool :=
  match p.fileName?, q.fileName? with
  | none, _ => true
  | some _, none => false
  | some a, some b => decide (a ≤ b)

def discoverIn (t : Tree) (c : Config) (directory : Path) : Except Failure (List Path) :=
  match t.readDirectory directory with
  | .error f => .error (.file f)
  | .ok entries => .ok ((entries.filter (c.accepts t)).mergeSort nameLE)

/-- The inputs of all directories in the configured order. -/
def discover (t : Tree) (c : Config) : List Path → Except Failure (List Path)
  | [] => .ok []
  | directory :: rest =>
    if t.isDirectory directory then do
      let found ← discoverIn t c directory
      let more ← discover t c rest
      return found ++ more
    else
      match c.missing with
      | .fatal => .error (.inputDirectoryMissing directory)
      | .warn => discover t c rest

end Batch

end GoldenRecord

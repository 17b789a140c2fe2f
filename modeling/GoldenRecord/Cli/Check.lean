import GoldenRecord.Checking
import GoldenRecord.Cli.Arguments
import GoldenRecord.Cli.Command

namespace GoldenRecord

namespace Cli

namespace Check

def rules : Rules := { options := commonOptions, positional := isPath }

def nameLE (p q : Path) : Bool := decide (p.text ≤ q.text)

/-- A directory stands for the entries with the extension `json` directly inside it, in the order of
their names. -/
def filesOf (t : Tree) (p : Path) : List Path :=
  match t.readDirectory p with
  | .ok entries => (entries.filter (·.extension? == some "json")).mergeSort nameLE
  | .error _ => [p]

/-- What is printed about a file, and whether it is in order. -/
def checkOne (t : Tree) (p : Path) : String × Bool :=
  match t.checkGolden p with
  | .ok d => ("  ok   " ++ p.text ++ " (" ++ toString d.pages.length ++ " pages)\n", true)
  | .error (.violations p violations) =>
    ("  FAIL " ++ p.text ++ "\n" ++
      String.join (violations.map fun v => "       " ++ v.text ++ "\n"), false)
  | .error f => ("  FAIL " ++ p.text ++ ": " ++ f.message ++ "\n", false)

def checkAll (t : Tree) (paths : List Path) : Completion :=
  let results := (paths.flatMap (filesOf t)).map (checkOne t)
  let failed := results.countP fun r => !r.2
  { code := if failed = 0 then 0 else 1
    output := String.join (results.map (·.1)) ++ "\nChecked: " ++ toString results.length ++
      ", Failed: " ++ toString failed ++ "\n" }

end Check

def check (arguments : List String) (t : Tree) : Completion :=
  match Check.rules.parse arguments with
  | .usage => .usage
  | .help => { code := 0 }
  | .version => .version "plumbline-check"
  | .given g =>
    if g.positionals.isEmpty then .usage else Check.checkAll t (g.positionals.map Path.mk)

end Cli

end GoldenRecord

import GoldenRecord.Batch.Run
import GoldenRecord.Cli.Arguments
import GoldenRecord.Cli.Command
import GoldenRecord.Extractor.Bridge

namespace GoldenRecord

namespace Cli

namespace Generate

def rules : Rules where
  options := commonOptions ++
    [⟨"input", some 'i', .repeated isPath⟩, ⟨"output", some 'o', .single isPath⟩,
      ⟨"skip", some 's', .repeated fun _ => true⟩, ⟨"no-default-skips", none, .flag⟩,
      ⟨"extension", none, .single fun _ => true⟩,
      ⟨"profile", some 'p', .single fun v => v == "full" || v == "legacy"⟩,
      ⟨"missing-dirs", none, .single fun v => v == "fatal" || v == "warn"⟩,
      ⟨"python", none, .single isPath⟩]
  positional _ := false

def defaultInput : String := "tests/fixtures/pdfs"

def defaultOutput : String := "tests/fixtures/golden"

def settings (g : Given) : List Batch.Setting :=
  let inputs := match g.values "input" with
    | [] => [defaultInput]
    | inputs => inputs
  [.inputs (inputs.map Path.mk),
    .extension ((g.value? "extension").getD Batch.defaultExtension),
    .defaultSkips (!g.hasFlag "no-default-skips"),
    .profile (if g.value? "profile" = some "legacy" then .legacy else .full),
    .missing (if g.value? "missing-dirs" = some "warn" then .warn else .fatal)] ++
  (g.values "skip").map .skip

def output (g : Given) : Path := ⟨(g.value? "output").getD defaultOutput⟩

def config (g : Given) : Batch.Config :=
  (Batch.Builder.configure { output := output g } (settings g)).build

def entryLine (e : Batch.Entry) : String :=
  match e.outcome with
  | .succeeded s => "  " ++ s.text ++ "\n"
  | .skipped => "  SKIP " ++ e.source ++ " (in skip list)\n"
  | .failed reason => "  FAIL " ++ e.source ++ ": " ++ reason ++ "\n"

/-- A text of several lines below an indented first one. -/
def indented (width : Nat) (text : String) : String :=
  String.ofList (text.toList.flatMap fun c =>
    if c = '\n' then '\n' :: List.replicate width ' ' else [c])

/-- The causes of a fatal error, outermost first. A file fault is a cause of its own. -/
def fatalText (f : Failure) : String :=
  "Error: golden generation aborted\n\nCaused by:\n" ++
    match f with
    | .file fault =>
      "    0: " ++ indented 7 f.message ++ "\n    1: " ++ indented 7 fault.message
    | _ => "    " ++ indented 4 f.message

/-- A command that waits for its child has no completion; one that overflows ends without a word of
its own. -/
def completion (g : Given) : Except Stop Batch.Report → Option Completion
  | .error (.halted .waiting) => none
  | .error (.halted .overflow) => some { code := 101 }
  | .error (.failed f) => some { code := 1, fatal := some (fatalText f) }
  | .ok report =>
    some
      { code := 0
        output := String.join (report.entries.map entryLine) ++ "\n" ++ report.text ++
          "\nOutput: " ++ (output g).text ++ "\n" }

def runBatch (programs : String → Child) (defaultProgram : String) (g : Given) (t : Tree) :
    Option Completion × Tree :=
  let program := (g.value? "python").getD defaultProgram
  let bridge : BridgeExtractor := { program, child := programs program }
  let (result, w) := Batch.run bridge.toExtractor (config g) { tree := t, state := () }
  (completion g result, w.tree)

end Generate

/-- The command that generates golden files through a bridge child. `programs` says what can be
started as one, by name. -/
def generate (programs : String → Child) (defaultProgram : String) (arguments : List String)
    (t : Tree) : Option Completion × Tree :=
  match Generate.rules.parse arguments with
  | .usage => (some .usage, t)
  | .help => (some { code := 0 }, t)
  | .version => (some (.version "plumbline-gen"), t)
  | .given g => Generate.runBatch programs defaultProgram g t

end Cli

end GoldenRecord

import GoldenRecord.Cli.Check
import GoldenRecord.Cli.Generate

namespace GoldenRecord

namespace CommandLine

def addListed (t : Tree) (line : String) : IO Tree := do
  let names := (Path.mk line).components
  if names.isEmpty then return t
  if line.toList.getLast? = some '/' then return t.set names .directory
  let content ← IO.FS.readBinFile line
  return t.set names (.file content.toList)

partial def readListing (input : IO.FS.Stream) (t : Tree) : IO Tree := do
  let line ← input.getLine
  if line.isEmpty then return t
  readListing input (← addListed t (String.ofList (line.toList.takeWhile (· != '\n'))))

def pathText (l : Location) : String := String.intercalate "/" l

/-- Makes the working directory look like the second tree where it differs from the first. -/
def writeBack (before after : Tree) : IO Unit := do
  for (l, o) in after.below [] do
    if before.get? l != some o then
      match o with
      | .directory => IO.FS.createDirAll (pathText l)
      | .file content => IO.FS.writeBinFile (pathText l) content.toByteArray
  for (l, _) in before.below [] do
    if (after.get? l).isNone then IO.FS.removeFile (pathText l)

def finish (c : Cli.Completion) : IO UInt32 := do
  IO.print c.output
  if let some text := c.fatal then IO.eprintln text
  return c.code.toUInt32

partial def wait : IO UInt32 := do
  IO.sleep 1000
  wait

/-- No objects yet, in the working directory of this process. -/
def workingTree : IO Tree := do
  let directory := toString (← IO.currentDir)
  let size := if directory = "/" then 1 else directory.utf8ByteSize + 1
  return { Tree.empty with workingDirectorySize := size }

end CommandLine

end GoldenRecord

open GoldenRecord CommandLine in

/-- The first argument names the command, `gen` or `check`; the rest are its arguments. What lies
below the working directory is listed on standard input, one path a line, a directory with a slash
at its end. The document files hold recorded streams, which are replayed. -/
def main (arguments : List String) : IO UInt32 := do
  let program := (← IO.getEnv "PLUMBLINE_PYTHON").getD BridgeExtractor.defaultProgram
  let before ← readListing (← IO.getStdin) (← workingTree)
  match arguments with
  | "gen" :: arguments =>
    let (completion, after) := Cli.generate (Child.named program) program arguments before
    writeBack before after
    match completion with
    | some completion => finish completion
    | none => wait
  | "check" :: arguments => finish (Cli.check arguments before)
  | _ => finish .usage

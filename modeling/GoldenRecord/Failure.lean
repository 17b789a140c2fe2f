import GoldenRecord.Files.Fault
import GoldenRecord.Files.Path
import GoldenRecord.Json.Fault
import GoldenRecord.Lint

namespace GoldenRecord

/-- How a child process ended: by itself, or by a signal, and then perhaps with a dump of its
memory. -/
inductive ExitStatus where
  | code (n : Nat)
  | signal (number : Nat) (dumped : Bool)
deriving DecidableEq, Repr

namespace ExitStatus

def succeeded (s : ExitStatus) : Bool := s == .code 0

/-- The signals that have a name, from number 1 on. -/
def signalNames : List String :=
  ["SIGHUP", "SIGINT", "SIGQUIT", "SIGILL", "SIGTRAP", "SIGABRT", "SIGBUS", "SIGFPE", "SIGKILL",
    "SIGUSR1", "SIGSEGV", "SIGUSR2", "SIGPIPE", "SIGALRM", "SIGTERM", "SIGSTKFLT", "SIGCHLD",
    "SIGCONT", "SIGSTOP", "SIGTSTP", "SIGTTIN", "SIGTTOU", "SIGURG", "SIGXCPU", "SIGXFSZ",
    "SIGVTALRM", "SIGPROF", "SIGWINCH", "SIGIO", "SIGPWR", "SIGSYS"]

def signalName? : Nat → Option String
  | 0 => none
  | n + 1 => signalNames[n]?

def text : ExitStatus → String
  | .code n => "exit status: " ++ toString n
  | .signal number dumped =>
    "signal: " ++ toString number ++ ((signalName? number).elim "" fun name => " (" ++ name ++ ")") ++
      if dumped then " (core dumped)" else ""

example : (signal 11 true).text = "signal: 11 (SIGSEGV) (core dumped)" := by decide +kernel

end ExitStatus

namespace Json.Fault

def message : Fault → String
  | .malformed => "malformed text"
  | .mismatch => "unexpected shape"
  | .truncated => "unexpected end of text"

end Json.Fault

inductive StartFault where
  /-- Neither the program nor its arguments may hold a zero character. -/
  | zeroByte
  | notExecutable
  | argumentTooLong
  | file (fault : FileFault)
deriving DecidableEq, Repr

namespace StartFault

def message : StartFault → String
  | .zeroByte => "nul byte found in provided data"
  | .notExecutable => "Permission denied (os error 13)"
  | .argumentTooLong => "Argument list too long (os error 7)"
  | .file fault => fault.message

end StartFault

inductive ExtractorFault where
  | notStarted (program : String) (fault : StartFault)
  | pageBeforeHeader
  | secondHeader
  | malformedMessage (fault : Json.Fault)
  | stopped (served announced : Nat)
  | miscounted (announced served : Nat)
  | exited (status : ExitStatus)
  | reported (message : String)
deriving DecidableEq, Repr

namespace ExtractorFault

def message : ExtractorFault → String
  | .notStarted program fault => "failed to start " ++ program ++ ": " ++ fault.message
  | .pageBeforeHeader => "page received before open header"
  | .secondHeader => "unexpected second open header"
  | .malformedMessage fault => "malformed bridge message: " ++ fault.message
  | .stopped served announced =>
    "oracle stopped after " ++ toString served ++ " of " ++ toString announced ++ " pages"
  | .miscounted announced served =>
    "expected " ++ toString announced ++ " pages, received " ++ toString served
  | .exited status => "oracle exited with " ++ status.text
  | .reported message => message

end ExtractorFault

inductive Failure where
  | inputDirectoryMissing (path : Path)
  | cannotOpen (path : Path) (message : String)
  | page (index : Nat) (message : String)
  | tables (index : Nat) (message : String)
  | extractor (fault : ExtractorFault)
  | violations (path : Path) (found : List Violation)
  | file (fault : FileFault)
  | json (fault : Json.Fault)
deriving DecidableEq, Repr

namespace Failure

def message : Failure → String
  | .inputDirectoryMissing path => "input directory not found: " ++ path.text
  | .cannotOpen path message => "failed to open " ++ path.text ++ ": " ++ message
  | .page index message => "page " ++ toString index ++ ": " ++ message
  | .tables index message =>
    "table extraction failed on page " ++ toString index ++ ": " ++ message
  | .extractor fault => "reference extractor: " ++ fault.message
  | .violations path found =>
    path.text ++ ": " ++ toString found.length ++ " golden violation(s)"
  | .file fault => "io error: " ++ fault.message
  | .json fault => "json error: " ++ fault.message

end Failure

/-- What keeps a call from coming back at all. -/
inductive Halt where
  /-- Room for a list was asked for that no list can have. -/
  | overflow
  /-- A child is waited for that does not come to its end. -/
  | waiting
deriving DecidableEq, Repr

/-- Why there is no result. -/
inductive Stop where
  | failed (f : Failure)
  | halted (h : Halt)
deriving DecidableEq, Repr

def halt? {α : Type} : Except Stop α → Option Halt
  | .error (.halted h) => some h
  | _ => none

end GoldenRecord

namespace GoldenRecord

namespace Cli

/-- What a command leaves behind: its exit code, what it prints, and the report of a fatal error. -/
structure Completion where
  code : Nat
  output : String := ""
  fatal : Option String := none
deriving DecidableEq, Repr

namespace Completion

def usage : Completion := { code := 2 }

def version (program : String) : Completion := { code := 0, output := program ++ " 0.3.0\n" }

end Completion

end Cli

end GoldenRecord

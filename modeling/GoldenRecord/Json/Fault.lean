namespace GoldenRecord

namespace Json

/-- Why a text is refused: it breaks the grammar, it is well formed but not of the expected shape,
or it ends too early. -/
inductive Fault where
  | malformed
  | mismatch
  | truncated
deriving DecidableEq, Repr

/-- A place where nothing more can be read. A reader that wants the value and one that only passes
over it may put the same place into different classes. -/
structure Breakage where
  read : Fault
  skipped : Fault
deriving DecidableEq, Repr

namespace Breakage

def malformed : Breakage := ⟨.malformed, .malformed⟩

def truncated : Breakage := ⟨.truncated, .truncated⟩

/-- The text ends inside a number: passing over it, the number itself is at fault. -/
def truncatedNumber : Breakage := ⟨.truncated, .malformed⟩

end Breakage

end Json

end GoldenRecord

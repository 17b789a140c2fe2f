import GoldenRecord.Batch.Config

namespace GoldenRecord

namespace Batch

inductive Setting where
  | input (p : Path)
  | inputs (ps : List Path)
  | extension (e : String)
  | skip (name : String)
  | defaultSkips (enabled : Bool)
  | profile (p : Profile)
  | missing (m : MissingPolicy)

structure Builder where
  output : Path
  inputs : List Path := []
  extension : String := defaultExtension
  skips : NameSet := .empty
  withDefaultSkips : Bool := true
  profile : Profile := .full
  missing : MissingPolicy := .fatal

namespace Builder

/-- Dots in front of an extension are not part of it. -/
def trimDots (e : String) : String := String.ofList (e.toList.dropWhile (· == '.'))

def apply (b : Builder) : Setting → Builder
  | .input p => { b with inputs := b.inputs ++ [p] }
  | .inputs ps => { b with inputs := b.inputs ++ ps }
  | .extension e => { b with extension := trimDots e }
  | .skip name => { b with skips := b.skips.insert name }
  | .defaultSkips enabled => { b with withDefaultSkips := enabled }
  | .profile p => { b with profile := p }
  | .missing m => { b with missing := m }

/-- Directories and skipped names add up; of the other settings the last one counts. -/
def configure (b : Builder) (settings : List Setting) : Builder := settings.foldl apply b

def build (b : Builder) : Config where
  inputs := b.inputs
  output := b.output
  extension := b.extension
  skips := if b.withDefaultSkips then b.skips.union (.ofList defaultSkips) else b.skips
  profile := b.profile
  missing := b.missing

end Builder

end Batch

end GoldenRecord

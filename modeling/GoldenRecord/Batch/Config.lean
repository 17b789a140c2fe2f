import GoldenRecord.Files.Path
import GoldenRecord.Profile

namespace GoldenRecord

inductive MissingPolicy where
  | fatal
  | warn
deriving DecidableEq, Repr

abbrev NameSet := TextMap Unit

namespace NameSet

def ofList (names : List String) : NameSet := TextMap.ofList (names.map fun name => (name, ()))

def insert (s : NameSet) (name : String) : NameSet := TextMap.insert s name ()

def contains (s : NameSet) (name : String) : Bool := (TextMap.find? s name).isSome

def toList (s : NameSet) : List String := TextMap.keys s

def union (s t : NameSet) : NameSet := t.toList.foldl insert s

end NameSet

namespace Batch

/-- Names that are skipped unless that is switched off. -/
def defaultSkips : List String := ["password-example.pdf", "empty.pdf"]

def defaultExtension : String := "pdf"

structure Config where
  inputs : List Path := []
  output : Path := ⟨"golden"⟩
  extension : String := defaultExtension
  skips : NameSet := .ofList defaultSkips
  profile : Profile := .full
  missing : MissingPolicy := .fatal

namespace Config

def isSkipped (c : Config) (p : Path) : Bool := c.skips.contains p.sourceName

/-- The name of the record of an input: its extension gives way to `json`. -/
def artifactName (p : Path) : String := (p.stem?.getD p.sourceName) ++ ".json"

def artifact (c : Config) (p : Path) : Path := c.output.join (artifactName p)

end Config

end Batch

end GoldenRecord

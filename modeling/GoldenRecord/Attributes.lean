import GoldenRecord.Numeral
import GoldenRecord.Schema

namespace GoldenRecord

namespace Value

def number? (v : Value) : Option Binary64 :=
  match v.json with
  | .number n => some n.toBinary64
  | .string s => Numeral.ofText? s
  | _ => none

def text? (v : Value) : Option String :=
  match v.json with
  | .string s => some s
  | .number n => some n.text
  | .bool b => some (if b then "true" else "false")
  | _ => none

/-- Zero of either sign is false, any other number true. -/
def flag? (v : Value) : Option Bool :=
  match v.json with
  | .bool b => some b
  | .number (.int i _) => some (i != 0)
  | .number (.real x) => some !x.isZero
  | _ => none

def isNull (v : Value) : Bool :=
  match v.json with
  | .null => true
  | _ => false

end Value

/-- The attributes of one object. Nothing is validated here: a question about a key is answered if
the value can be understood that way, and a null counts as absent. -/
abbrev Attributes := TextMap Value

namespace Attributes

def get? (a : Attributes) (key : String) : Option Value := (a.find? key).filter (!·.isNull)

def isPresent (a : Attributes) (key : String) : Bool := (a.get? key).isSome

def number? (a : Attributes) (key : String) : Option Binary64 := (a.get? key).bind (·.number?)

/-- The first of several names that holds a number. -/
def numberOf? (a : Attributes) (keys : List String) : Option Binary64 :=
  keys.findSome? a.number?

def text? (a : Attributes) (key : String) : Option String := (a.get? key).bind (·.text?)

def flag? (a : Attributes) (key : String) : Option Bool := (a.get? key).bind (·.flag?)

end Attributes

namespace Schema

abbrev attributes : Schema := .map .any

end Schema

instance : Recorded Attributes where
  schema := .attributes
  ofData a := a
  toData a := a

end GoldenRecord

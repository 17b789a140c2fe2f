import GoldenRecord.Json.Reading

namespace GoldenRecord

inductive Presence where
  | required
  /-- May be missing from an object, but not from an array of fields. -/
  | omissible
  /-- May also be missing at the end of an array of fields. -/
  | defaulted
  /-- Like `defaulted`, and not written when empty. -/
  | elided
deriving DecidableEq, Repr

mutual

/-- The shape of a JSON record. It gives the reader, which refuses a text at the first fault in
written order, and the writer, which puts members in declared order. Unknown members are passed
over, a known one stands at most once, and a record is read from the array of its fields as well. -/
inductive Schema where
  | flag
  | text
  | natural
  | real
  | any
  | optional (s : Schema)
  | list (s : Schema)
  | map (s : Schema)
  | record (fields : Fields)

inductive Fields where
  | nil
  | cons (name : String) (otherName : Option String) (presence : Presence) (s : Schema)
      (rest : Fields)

end

mutual

@[reducible] def Schema.Data : Schema → Type
  | .flag => Bool
  | .text => String
  | .natural => Nat
  | .real => Binary64
  | .any => Value
  | .optional s => Option s.Data
  | .list s => List s.Data
  | .map s => TextMap s.Data
  | .record fields => fields.Data

@[reducible] def Fields.Data : Fields → Type
  | .nil => Unit
  | .cons _ _ _ s rest => s.Data × rest.Data

end

/-- What has been read so far of each field. -/
@[reducible] def Fields.Slots : Fields → Type
  | .nil => Unit
  | .cons _ _ _ s rest => Option s.Data × rest.Slots

namespace Json.Reading

/-- Why a value is refused where another shape is expected: its own fault, if it is a scalar that
cannot be read, comes first. -/
def refusal : Reading → Fault
  | .number (.error f) => f
  | .string (.error f) => f
  | .broken breakage => breakage.read
  | _ => .mismatch

def toFlag : Reading → Except Fault Bool
  | .bool b => .ok b
  | r => .error r.refusal

def toText : Reading → Except Fault String
  | .string (.ok s) => .ok s
  | r => .error r.refusal

/-- Only a whole literal is a natural number. -/
def toNatural : Reading → Except Fault Nat
  | .number (.ok (.int i _)) => if 0 ≤ i then .ok i.toNat else .error .mismatch
  | r => .error r.refusal

def toReal : Reading → Except Fault Binary64
  | .number (.ok n) => .ok n.toBinary64
  | r => .error r.refusal

end Json.Reading

open Json (Fault Reading Breakage)

mutual

def Schema.blank : (s : Schema) → s.Data
  | .flag => false
  | .text => ""
  | .natural => (0 : Nat)
  | .real => Binary64.zero
  | .any => Value.null
  | .optional _ => none
  | .list _ => []
  | .map _ => TextMap.empty
  | .record fields => fields.blank

def Fields.blank : (fields : Fields) → fields.Data
  | .nil => ()
  | .cons _ _ _ s rest => (s.blank, rest.blank)

end

def Fields.emptySlots : (fields : Fields) → fields.Slots
  | .nil => ()
  | .cons _ _ _ _ rest => (none, rest.emptySlots)

/-- The data of an object whose members have all been read. -/
def Fields.complete : (fields : Fields) → fields.Slots → Except Fault fields.Data
  | .nil, () => .ok ()
  | .cons _ _ presence s rest, (slot, slots) => do
    let v ← match slot with
      | some v => .ok v
      | none => if presence = .required then .error .mismatch else .ok s.blank
    let vs ← rest.complete slots
    return (v, vs)

mutual

def Schema.decode : (s : Schema) → Reading → Except Fault s.Data
  | .flag, r => r.toFlag
  | .text, r => r.toText
  | .natural, r => r.toNatural
  | .real, r => r.toReal
  | .any, r => r.toJson.map Value.ofJson
  | .optional s, r =>
    match r with
    | .null => .ok none
    | r => (s.decode r).map some
  | .list s, r =>
    match r with
    | .array items ending => do
      let vs ← items.mapM s.decode
      Reading.checkEnding ending (·.read)
      return vs
    | r => .error r.refusal
  | .map s, r =>
    match r with
    | .object members ending => do
      let vs ← members.mapM fun (key, r) => do
        let key ← key
        let v ← s.decode r
        return (key, v)
      Reading.checkEnding ending (·.read)
      return TextMap.ofList vs
    | r => .error r.refusal
  | .record fields, r =>
    match r with
    | .object members ending => do
      let slots ← members.foldlM
        (fun slots (key, r) => do
          let key ← key
          fields.store key r slots)
        fields.emptySlots
      Reading.checkEnding ending (·.read)
      fields.complete slots
    | .array items ending => fields.decodeItems items ending
    | r => .error r.refusal

def Fields.store : (fields : Fields) → String → Reading → fields.Slots → Except Fault fields.Slots
  | .nil, _, r, () => r.skip
  | .cons name otherName _ s rest, key, r, (slot, slots) =>
    if key = name ∨ otherName = some key then
      match slot with
      | some _ => .error .mismatch
      | none => (s.decode r).map fun v => (some v, slots)
    else (rest.store key r slots).map fun slots => (slot, slots)

def Fields.decodeItems : (fields : Fields) → List Reading → Option Breakage →
    Except Fault fields.Data
  | .nil, [], ending => Reading.checkEnding ending (·.read)
  | .nil, _ :: _, _ => .error .malformed
  | .cons _ _ presence s rest, [], ending => do
    Reading.checkEnding ending (·.read)
    if presence = .defaulted ∨ presence = .elided then
      let vs ← rest.decodeItems [] ending
      return (s.blank, vs)
    else .error .mismatch
  | .cons _ _ _ s rest, r :: items, ending => do
    let v ← s.decode r
    let vs ← rest.decodeItems items ending
    return (v, vs)

end

def Schema.isEmpty : (s : Schema) → s.Data → Bool
  | .text, v => v.isEmpty
  | .optional _, v => v.isNone
  | .list _, v => v.isEmpty
  | .map _, v => v.isEmpty
  | _, _ => false

mutual

/-- A number that is not finite is written as null. -/
def Schema.encode : (s : Schema) → s.Data → Json
  | .flag, v => .bool v
  | .text, v => .string v
  | .natural, v => .number (.ofNat v)
  | .real, v =>
    match v with
    | .finite x => .number (.real x)
    | _ => .null
  | .any, v => v.json
  | .optional s, v =>
    match v with
    | none => .null
    | some v => s.encode v
  | .list s, v => .array (v.map s.encode)
  | .map s, v => .object (v.map s.encode).entries
  | .record fields, v => .object (fields.encode v)

def Fields.encode : (fields : Fields) → fields.Data → List (String × Json)
  | .nil, () => []
  | .cons name _ presence s rest, (v, vs) =>
    if presence = .elided ∧ s.isEmpty v then rest.encode vs
    else (name, s.encode v) :: rest.encode vs

end

/-- Types that are read and written by a schema. -/
class Recorded (α : Type) where
  schema : Schema
  ofData : schema.Data → α
  toData : α → schema.Data

namespace Recorded

variable {α : Type} [Recorded α]

def ofReading? (r : Reading) : Except Fault α := ((schema α).decode r).map ofData

/-- A complete value can only be of the wrong shape. -/
def ofJson? (j : Json) : Except Fault α := (ofReading? j.reading).mapError fun _ => .mismatch

def toJson (v : α) : Json := (schema α).encode (toData v)

/-- The record a whole text holds; a fault inside it comes before what follows it. -/
def ofBytes? (text : Bytes) : Except Fault α := do
  let (r, trailing) := Reading.ofBytes text
  let v ← ofReading? r
  if trailing then .error .malformed else .ok v

end Recorded

end GoldenRecord

import GoldenRecord.Binary64.Text
import GoldenRecord.TextMap

namespace GoldenRecord

namespace Json

/-- Whole numbers are kept exactly as long as a signed or an unsigned 64-bit word holds them. -/
def IntegerRange (i : Int) : Prop := -9223372036854775808 ≤ i ∧ i < 18446744073709551616

instance (i : Int) : Decidable (IntegerRange i) := inferInstanceAs (Decidable (_ ∧ _))

inductive Number where
  | int (i : Int) (inRange : IntegerRange i)
  | real (x : Finite)
deriving DecidableEq

namespace Number

def toBinary64 : Number → Binary64
  | .int i _ => .ofInt i
  | .real x => .finite x

def chars : Number → List Char
  | .int i _ => (toString i).toList
  | .real x => x.interchangeChars

def text (n : Number) : String := String.ofList n.chars

def ofNat (n : Nat) : Number :=
  if h : IntegerRange n then .int n h else
    match Binary64.ofInt n with
    | .finite x => .real x
    | _ => .real .zero

end Number

end Json

/-- An object is a list of members in written order. -/
inductive Json where
  | null
  | bool (b : Bool)
  | number (n : Json.Number)
  | string (s : String)
  | array (items : List Json)
  | object (members : List (String × Json))

namespace Json

instance : Inhabited Json := ⟨.null⟩

mutual

def canonicalize : Json → Json
  | .array items => .array (canonicalizeItems items)
  | .object members => .object (TextMap.ofList (canonicalizeMembers members)).entries
  | j => j

def canonicalizeItems : List Json → List Json
  | [] => []
  | j :: rest => j.canonicalize :: canonicalizeItems rest

def canonicalizeMembers : List (String × Json) → List (String × Json)
  | [] => []
  | (key, j) :: rest => (key, j.canonicalize) :: canonicalizeMembers rest

end

mutual

/-- Every object is sorted by key with no key twice. -/
def IsCanonical : Json → Prop
  | .array items => AreCanonical items
  | .object members => members.Pairwise (fun a b => a.1 < b.1) ∧ MembersCanonical members
  | _ => True

def AreCanonical : List Json → Prop
  | [] => True
  | j :: rest => j.IsCanonical ∧ AreCanonical rest

def MembersCanonical : List (String × Json) → Prop
  | [] => True
  | (_, j) :: rest => j.IsCanonical ∧ MembersCanonical rest

end

theorem membersCanonical_iff {members : List (String × Json)} :
    MembersCanonical members ↔ ∀ m ∈ members, m.2.IsCanonical := by
  induction members with
  | nil => simp [MembersCanonical]
  | cons head rest ih => obtain ⟨k, j⟩ := head; simp [MembersCanonical, ih]

mutual

theorem canonicalize_isCanonical : (j : Json) → j.canonicalize.IsCanonical
  | .null | .bool _ | .number _ | .string _ => trivial
  | .array items => canonicalizeItems_areCanonical items
  | .object members =>
    ⟨(TextMap.ofList _).sorted, membersCanonical_iff.mpr fun m hm =>
      membersCanonical_iff.mp (canonicalizeMembers_areCanonical members) m (TextMap.mem_ofList hm)⟩

theorem canonicalizeItems_areCanonical : (items : List Json) →
    AreCanonical (canonicalizeItems items)
  | [] => trivial
  | j :: rest => ⟨j.canonicalize_isCanonical, canonicalizeItems_areCanonical rest⟩

theorem canonicalizeMembers_areCanonical : (members : List (String × Json)) →
    MembersCanonical (canonicalizeMembers members)
  | [] => trivial
  | (_, j) :: rest => ⟨j.canonicalize_isCanonical, canonicalizeMembers_areCanonical rest⟩

end

end Json

/-- A canonical JSON value, the form in which loosely typed attributes are held. -/
structure Value where
  json : Json
  canonical : json.IsCanonical

namespace Value

def ofJson (j : Json) : Value := ⟨j.canonicalize, j.canonicalize_isCanonical⟩

def null : Value := ⟨.null, trivial⟩

instance : Inhabited Value := ⟨null⟩

end Value

end GoldenRecord

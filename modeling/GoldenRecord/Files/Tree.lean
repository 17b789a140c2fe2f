import GoldenRecord.Bytes
import GoldenRecord.Files.Fault
import GoldenRecord.Files.Path

namespace GoldenRecord

inductive Object where
  | file (content : Bytes)
  | directory
deriving DecidableEq, Repr

/-- The names from the working directory down to an object, after steps up if it is outside. Below
the root, the first name is empty. -/
abbrev Location := List String

namespace Location

def root : Location := [""]

/-- The directories that are there whatever a tree holds. -/
def IsGiven (l : Location) : Prop := l = root ∨ ∀ name ∈ l, name = ".."

instance (l : Location) : Decidable l.IsGiven :=
  inferInstanceAs (Decidable (l = root ∨ ∀ name ∈ l, name = ".."))

/-- One step up; the root is above itself. -/
def above (l : Location) : Location :=
  if l = root then root
  else if ∀ name ∈ l, name = ".." then l ++ [".."]
  else l.dropLast

/-- Whether something is inside a directory, at any depth. -/
def contains (l k : Location) : Bool :=
  l.isPrefixOf k &&
    match k.drop l.length with
    | [] => false
    | name :: _ => name != "" && name != ".."

end Location

/-- Whether a location is not listed after another one: a directory comes before what is inside
it, and names are in order. -/
def Location.upTo : Location → Location → Bool
  | [], _ => true
  | _ :: _, [] => false
  | a :: l, b :: m => if a = b then upTo l m else decide (a < b)

/-- Where the lookup of a path begins. -/
def Path.start (p : Path) : Location := if p.isAbsolute then .root else []

/-- The files below the working directory, with the names that lead to them. The order of the list is
the order in which a directory shows its entries. Of what is outside, only the root and the
directories above the working directory are there, and they are empty. -/
structure Tree where
  objects : List (Location × Object)
  nodup : (objects.map (·.1)).Nodup
  /-- Bytes of the absolute path of the working directory, with a slash at its end. -/
  workingDirectorySize : Nat := 1

namespace Tree

def empty : Tree := { objects := [], nodup := .nil }

instance : Inhabited Tree := ⟨empty⟩

def get? (t : Tree) (l : Location) : Option Object :=
  if l.IsGiven then some .directory else t.objects.lookup l

def isDirectoryAt (t : Tree) (l : Location) : Bool := t.get? l == some .directory

def setEntry (l : Location) (o : Object) : List (Location × Object) → List (Location × Object)
  | [] => [(l, o)]
  | (k, p) :: rest => if k = l then (l, o) :: rest else (k, p) :: setEntry l o rest

theorem mem_setEntry_keys {l k : Location} {o : Object} {objects : List (Location × Object)}
    (h : k ∈ (setEntry l o objects).map (·.1)) : k = l ∨ k ∈ objects.map (·.1) := by
  induction objects with
  | nil => simpa [setEntry] using h
  | cons head rest ih =>
    obtain ⟨k', p⟩ := head
    unfold setEntry at h
    split at h
    next hk => subst hk; exact .inr (by simpa using h)
    next =>
      rcases List.mem_cons.mp h with h | h
      · exact .inr (List.mem_cons.mpr (.inl h))
      · exact (ih h).imp id (List.mem_cons_of_mem _)

theorem setEntry_nodup (l : Location) (o : Object) {objects : List (Location × Object)}
    (h : (objects.map (·.1)).Nodup) : ((setEntry l o objects).map (·.1)).Nodup := by
  induction objects with
  | nil => simp [setEntry]
  | cons head rest ih =>
    obtain ⟨k, p⟩ := head
    have hk := (List.nodup_cons.mp h).1
    have hr := (List.nodup_cons.mp h).2
    unfold setEntry
    split
    next heq => subst heq; exact List.nodup_cons.mpr ⟨hk, hr⟩
    next hne =>
      refine List.nodup_cons.mpr ⟨fun hm => ?_, ih hr⟩
      rcases mem_setEntry_keys hm with h | h
      · exact hne h
      · exact hk h

/-- Puts an object at a location, in place of what was there. -/
def set (t : Tree) (l : Location) (o : Object) : Tree :=
  { t with objects := setEntry l o t.objects, nodup := setEntry_nodup l o t.nodup }

def erase (t : Tree) (l : Location) : Tree :=
  { t with
    objects := t.objects.filter fun e => e.1 != l
    nodup := t.nodup.sublist (List.filter_sublist.map fun e : Location × Object => e.1) }

/-- The name of an entry directly inside a directory. -/
def entryName? (l : Location) (k : Location) : Option String :=
  match k.getLast? with
  | some name => if k = l ++ [name] then some name else none
  | none => none

/-- The names directly inside a directory, in the order in which it shows them. -/
def entries (t : Tree) (l : Location) : List String :=
  t.objects.filterMap fun e => entryName? l e.1

def maxNameSize : Nat := 255

/-- One step along a path: only a directory can be entered. -/
def step (t : Tree) (l : Location) (name : String) : Except FileFault Location :=
  match t.get? l with
  | none => .error .notFound
  | some (.file _) => .error .notADirectory
  | some .directory =>
    if Path.isIdle name then .ok l
    else if name = ".." then .ok l.above
    else if maxNameSize < name.utf8ByteSize then .error .nameTooLong
    else .ok (l ++ [name])

/-- Follows names from a location; the last one need not exist. -/
def walk (t : Tree) (l : Location) (names : List String) : Except FileFault Location :=
  names.foldlM t.step l

/-- The location a path names, whether or not an object is there. -/
def locate (t : Tree) (p : Path) : Except FileFault Location := do
  t.walk p.start (← p.lookupNames)

def lookup (t : Tree) (p : Path) : Except FileFault Object := do
  let l ← t.locate p
  match t.get? l with
  | some o => .ok o
  | none => .error .notFound

def isDirectory (t : Tree) (p : Path) : Bool :=
  match t.lookup p with
  | .ok .directory => true
  | _ => false

def isFile (t : Tree) (p : Path) : Bool :=
  match t.lookup p with
  | .ok (.file _) => true
  | _ => false

def readFile (t : Tree) (p : Path) : Except FileFault Bytes :=
  match t.lookup p with
  | .ok (.file content) => .ok content
  | .ok .directory => .error .isADirectory
  | .error f => .error f

def readDirectory (t : Tree) (p : Path) : Except FileFault (List Path) := do
  let l ← t.locate p
  match t.get? l with
  | some .directory => .ok ((t.entries l).map p.join)
  | some (.file _) => .error .notADirectory
  | none => .error .notFound

def removeFile (t : Tree) (p : Path) : Except FileFault Tree := do
  let l ← t.locate p
  match t.get? l with
  | some (.file _) => .ok (t.erase l)
  | some .directory => .error .isADirectory
  | none => .error .notFound

/-- The directory that the last of several names is looked up in, and that name; slashes at the end
of a path do not count. -/
def lastStep (t : Tree) (start : Location) (names : List String) :
    Except FileFault (Location × String) := do
  let names := (names.reverse.dropWhile (· == "")).reverse
  let l ← t.walk start names.dropLast
  let l ← t.step l "."
  return (l, names.getLast?.getD ".")

/-- Makes one directory, unless it is there. The one it is in has to be there. -/
def makeDirectory (t : Tree) (start : Location) (names : List String) : Except FileFault Tree := do
  let (l, last) ← t.lastStep start names
  let target ← t.step l last
  match t.get? target with
  | some .directory => .ok t
  | some (.file _) => .error .alreadyExists
  | none => .ok (t.set target .directory)

/-- Makes one directory; if the one it is in is missing, that is made first. -/
def makeDirectoryWith (above : Tree → Except FileFault Unit × Tree) (start : Location)
    (names : List String) (t : Tree) : Except FileFault Unit × Tree :=
  match t.makeDirectory start names with
  | .ok t => (.ok (), t)
  | .error .notFound =>
    match above t with
    | (.error f, t) => (.error f, t)
    | (.ok (), t) =>
      match t.makeDirectory start names with
      | .ok t => (.ok (), t)
      | .error f => (.error f, t)
  | .error f => (.error f, t)

/-- Makes the directory that some names lead to, given last name first, and the missing ones on the
way to it. -/
def makeDirectories (start : Location) : List String → Tree → Except FileFault Unit × Tree
  | [], t => (.ok (), t)
  | name :: above, t =>
    makeDirectoryWith (makeDirectories start above) start (name :: above).reverse t

/-- Makes the directory of a path and the missing ones above it. What was made before a fault
stays. Where no path is given, nothing has to be made. -/
def createDirectory (t : Tree) (p : Path) : Except FileFault Unit × Tree :=
  if p.text = "" then (.ok (), t)
  else
    match p.lookupNames with
    | .error f => (.error f, t)
    | .ok names =>
      makeDirectoryWith (makeDirectories p.start p.components.dropLast.reverse) p.start names t

/-- Writes the file at a path in place. A path that can only lead to a directory names no file. -/
def writeFile (t : Tree) (p : Path) (content : Bytes) : Except FileFault Tree := do
  let names ← p.lookupNames
  let (l, last) ← t.lastStep p.start names
  if last = "." ∨ last = ".." ∨ names.getLast? = some "" then throw .isADirectory
  let target ← t.step l last
  if t.isDirectoryAt target then throw .isADirectory
  return t.set target (.file content)

def clear (t : Tree) (l : Location) : Tree :=
  { t with
    objects := t.objects.filter fun e => !l.contains e.1
    nodup := t.nodup.sublist (List.filter_sublist.map fun e : Location × Object => e.1) }

/-- Removes the object at a path with everything below it. A directory cannot be removed as `.`, but
is empty then. -/
def removeAll (t : Tree) (p : Path) : Except FileFault Unit × Tree :=
  match t.locate p with
  | .error f => (.error f, t)
  | .ok l =>
    match t.get? l with
    | none => (.error .notFound, t)
    | some (.file _) => (.ok (), t.erase l)
    | some .directory =>
      match (t.clear l).lastStep p.start p.pieceNames with
      | .ok (_, ".") => (.error .invalidArgument, t.clear l)
      | _ => (.ok (), (t.clear l).erase l)

/-- Everything below a location, each object before what is inside it, by name. -/
def below (t : Tree) (l : Location) : List (Location × Object) :=
  (t.objects.filter fun e => l.contains e.1).mergeSort fun a b => Location.upTo a.1 b.1

/-- Equal up to the order in which directories show their entries. -/
structure Same (t u : Tree) : Prop where
  size : t.workingDirectorySize = u.workingDirectorySize
  get? : ∀ l, t.get? l = u.get? l

end Tree

end GoldenRecord

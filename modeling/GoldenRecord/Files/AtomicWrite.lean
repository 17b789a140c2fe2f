import GoldenRecord.Files.Tree

namespace GoldenRecord

namespace Temporary

def name (n : Nat) : String := String.ofList (['.', 't', 'm', 'p'] ++ List.replicate n 'x')

theorem name_injective {m n : Nat} (h : name m = name n) : m = n := by
  simpa [name] using congrArg (fun s : String => s.toList.length) h

/-- The first name from the given one on that is not taken, after some tries. -/
def firstFree (taken : List String) : Nat → Nat → String
  | 0, n => name n
  | tries + 1, n => if name n ∈ taken then firstFree taken tries (n + 1) else name n

/-- One try more than there are names is enough. -/
def freshName (taken : List String) : String := firstFree taken taken.length 0

theorem firstFree_not_mem {tries n : Nat} {taken free : List String} (h : free.length ≤ tries)
    (hfree : ∀ k, n ≤ k → name k ∈ taken → name k ∈ free) :
    firstFree taken tries n ∉ taken := by
  induction tries generalizing n free with
  | zero =>
    have empty : free = [] := List.eq_nil_of_length_eq_zero (by omega)
    exact fun hm => by simpa [empty] using hfree n (Nat.le_refl n) hm
  | succ tries ih =>
    unfold firstFree
    split
    next hn =>
      have hmem := hfree n (Nat.le_refl n) hn
      have hlength := List.length_erase_of_mem hmem
      have hpositive := List.length_pos_of_mem hmem
      refine @ih (n + 1) (free.erase (name n)) (by omega) fun k hk hm => ?_
      have hne : name k ≠ name n := fun e => by have := name_injective e; omega
      exact (List.mem_erase_of_ne hne).mpr (hfree k (by omega) hm)
    next hn => exact hn

theorem freshName_not_mem (taken : List String) : freshName taken ∉ taken :=
  firstFree_not_mem (Nat.le_refl _) fun _ _ hm => hm

end Temporary

namespace Tree

/-- Bytes of the absolute path of a temporary file in a directory; its own name takes ten. -/
def temporaryPathSize (t : Tree) (directory : Path) : Nat :=
  (if directory.isAbsolute then 0 else t.workingDirectorySize) + directory.text.utf8ByteSize + 11

/-- The directory a file is put in. A temporary file there needs a path that the file system
takes. -/
def directoryOf (t : Tree) (p : Path) : Except FileFault Location := do
  let directory := p.parent
  if directory.text = "" then return []
  let names ← directory.lookupNames
  if Path.maxSize < t.temporaryPathSize directory then throw .nameTooLong
  t.step (← t.walk directory.start names) "."

/-- A new empty file in the directory of a path, under a name that nothing else has. -/
def createTemporary (t : Tree) (p : Path) : Except FileFault (Location × Tree) := do
  let l ← t.directoryOf p
  let temporary := l ++ [Temporary.freshName (t.entries l ++ p.pieceNames)]
  return (temporary, t.set temporary (.file []))

/-- The place a file can be renamed to: it needs a name of its own, and a directory is not
replaced. -/
def renameTarget (t : Tree) (p : Path) : Except FileFault Location := do
  if p.hasZero then throw .invalidArgument
  let names ← p.lookupNames
  let (l, last) ← t.lastStep p.start names
  if last = "." ∨ last = ".." then throw .busy
  let target ← t.step l last
  if names.getLast? = some "" then throw .notADirectory
  if t.isDirectoryAt target then throw .isADirectory
  return target

def rename (t : Tree) (source : Location) (p : Path) : Except FileFault Tree := do
  let target ← t.renameTarget p
  match t.get? source with
  | some o => .ok ((t.erase source).set target o)
  | none => .error .notFound

/-- Writes a file in one step: the content goes to a temporary file next to the target, which is then
renamed over it. If any step fails, the temporary file is taken away again. -/
def writeAtomic (t : Tree) (p : Path) (content : Bytes) : Except FileFault Unit × Tree :=
  match t.createTemporary p with
  | .error f => (.error f, t)
  | .ok (temporary, t) =>
    let t := t.set temporary (.file content)
    match t.rename temporary p with
    | .error f => (.error f, t.erase temporary)
    | .ok t => (.ok (), t)

end Tree

end GoldenRecord

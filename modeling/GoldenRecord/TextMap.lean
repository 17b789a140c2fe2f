namespace GoldenRecord

/-- A map in the order of its keys. They are compared by code points, which is also the order of
their UTF-8 bytes, so two maps with the same entries are the same map. -/
structure TextMap (α : Type) where
  entries : List (String × α)
  sorted : entries.Pairwise (fun a b => a.1 < b.1)
deriving DecidableEq

namespace TextMap

variable {α β : Type}

theorem ext {m n : TextMap α} (h : m.entries = n.entries) : m = n := by
  cases m; cases n; cases h; rfl

def empty : TextMap α := ⟨[], .nil⟩

instance : Inhabited (TextMap α) := ⟨empty⟩

def isEmpty (m : TextMap α) : Bool := m.entries.isEmpty

def insertEntry (key : String) (value : α) : List (String × α) → List (String × α)
  | [] => [(key, value)]
  | (k, v) :: rest =>
    if key < k then (key, value) :: (k, v) :: rest
    else if k < key then (k, v) :: insertEntry key value rest
    else (key, value) :: rest

theorem mem_insertEntry {key : String} {value : α} {entries : List (String × α)}
    {e : String × α} (h : e ∈ insertEntry key value entries) : e = (key, value) ∨ e ∈ entries := by
  induction entries with
  | nil => exact .inl (List.mem_singleton.mp h)
  | cons head rest ih =>
    obtain ⟨k, v⟩ := head
    unfold insertEntry at h
    split at h
    next => simpa using h
    next =>
      split at h
      next =>
        rcases List.mem_cons.mp h with h | h
        · exact .inr (h ▸ List.mem_cons_self)
        · exact (ih h).imp id (List.mem_cons_of_mem _)
      next =>
        rcases List.mem_cons.mp h with h | h
        · exact .inl h
        · exact .inr (List.mem_cons_of_mem _ h)

theorem insertEntry_sorted (key : String) (value : α) {entries : List (String × α)}
    (h : entries.Pairwise (fun a b => a.1 < b.1)) :
    (insertEntry key value entries).Pairwise (fun a b => a.1 < b.1) := by
  induction entries with
  | nil => exact List.pairwise_singleton _ _
  | cons head rest ih =>
    obtain ⟨k, v⟩ := head
    have hk := (List.pairwise_cons.mp h).1
    have hr := (List.pairwise_cons.mp h).2
    unfold insertEntry
    split
    next lt =>
      refine List.pairwise_cons.mpr ⟨fun e he => ?_, h⟩
      rcases List.mem_cons.mp he with rfl | he
      · exact lt
      · exact String.lt_trans lt (hk e he)
    next nlt =>
      split
      next gt =>
        refine List.pairwise_cons.mpr ⟨fun e he => ?_, ih hr⟩
        rcases mem_insertEntry he with rfl | he
        · exact gt
        · exact hk e he
      next ngt =>
        have heq : k = key := String.le_antisymm (String.not_lt.mp nlt) (String.not_lt.mp ngt)
        subst heq
        exact List.pairwise_cons.mpr ⟨hk, hr⟩

/-- An entry under a key already present replaces it. -/
def insert (m : TextMap α) (key : String) (value : α) : TextMap α :=
  ⟨insertEntry key value m.entries, insertEntry_sorted key value m.sorted⟩

/-- Of entries under one key the last one stays. -/
def ofList (entries : List (String × α)) : TextMap α :=
  entries.foldl (fun m e => m.insert e.1 e.2) empty

theorem mem_foldl_insert {entries : List (String × α)} {m : TextMap α} {e : String × α}
    (h : e ∈ (entries.foldl (fun m e => m.insert e.1 e.2) m).entries) :
    e ∈ m.entries ∨ e ∈ entries := by
  induction entries generalizing m with
  | nil => exact .inl h
  | cons head rest ih =>
    rcases ih h with h | h
    · rcases mem_insertEntry h with rfl | h
      · exact .inr List.mem_cons_self
      · exact .inl h
    · exact .inr (List.mem_cons_of_mem _ h)

theorem mem_ofList {entries : List (String × α)} {e : String × α}
    (h : e ∈ (ofList entries).entries) : e ∈ entries :=
  (mem_foldl_insert h).resolve_left List.not_mem_nil

def find? (m : TextMap α) (key : String) : Option α := m.entries.lookup key

def erase (m : TextMap α) (key : String) : TextMap α :=
  ⟨m.entries.filter (fun e => e.1 != key), m.sorted.filter _⟩

def map (f : α → β) (m : TextMap α) : TextMap β :=
  ⟨m.entries.map (fun e => (e.1, f e.2)), List.pairwise_map.mpr m.sorted⟩

def keys (m : TextMap α) : List String := m.entries.map (·.1)

end TextMap

end GoldenRecord

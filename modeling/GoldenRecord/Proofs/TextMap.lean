import GoldenRecord.TextMap

namespace GoldenRecord

/-- Without the entries of one key, the other keys lead where they did. -/
theorem lookup_filter_ne {κ α : Type} [BEq κ] [LawfulBEq κ] [DecidableEq κ]
    (entries : List (κ × α)) (key k : κ) :
    (entries.filter fun e => e.1 != key).lookup k = if k = key then none else entries.lookup k := by
  induction entries with
  | nil => simp
  | cons head rest ih =>
    obtain ⟨n, v⟩ := head
    by_cases hn : n = key
    · subst hn
      simp only [List.filter_cons, bne_self_eq_false, Bool.false_eq_true, if_false, ih]
      by_cases h : k = n
      · simp [h]
      · simp [List.lookup_cons, beq_eq_false_iff_ne.mpr h, h]
    · simp only [List.filter_cons, bne_iff_ne.mpr hn, if_true, List.lookup_cons, ih]
      by_cases h : k = n
      · subst h
        simp [hn]
      · simp [beq_eq_false_iff_ne.mpr h]

namespace TextMap

variable {α : Type}

section Keys

theorem find?_erase (m : TextMap α) (key k : String) :
    (m.erase key).find? k = if k = key then none else m.find? k :=
  lookup_filter_ne m.entries key k

theorem lookup_insertEntry (key : String) (value : α) (entries : List (String × α)) (k : String) :
    (insertEntry key value entries).lookup k =
      if k = key then some value else entries.lookup k := by
  induction entries with
  | nil =>
    by_cases h : k = key
    · simp [insertEntry, h]
    · simp [insertEntry, List.lookup_cons, beq_eq_false_iff_ne.mpr h, h]
  | cons head rest ih =>
    obtain ⟨n, v⟩ := head
    unfold insertEntry
    split
    next =>
      by_cases h : k = key
      · simp [h]
      · simp [List.lookup_cons, beq_eq_false_iff_ne.mpr h, h]
    next =>
      split
      next hlt =>
        rw [List.lookup_cons, List.lookup_cons, ih]
        by_cases h : k = n
        · subst h
          simp [String.ne_of_lt hlt]
        · simp [beq_eq_false_iff_ne.mpr h]
      next hge hle =>
        have hn : n = key := String.le_antisymm (String.not_lt.mp hge) (String.not_lt.mp hle)
        subst hn
        by_cases h : k = n
        · simp [h]
        · simp [List.lookup_cons, beq_eq_false_iff_ne.mpr h, h]

theorem find?_insert (m : TextMap α) (key : String) (value : α) (k : String) :
    (m.insert key value).find? k = if k = key then some value else m.find? k :=
  lookup_insertEntry key value m.entries k

theorem isSome_find?_foldl_insert (entries : List (String × α)) (m : TextMap α) (k : String) :
    ((entries.foldl (fun m e => m.insert e.1 e.2) m).find? k).isSome =
      ((m.find? k).isSome || (entries.map (·.1)).contains k) := by
  induction entries generalizing m with
  | nil => simp
  | cons e rest ih =>
    rw [List.foldl_cons, ih, find?_insert]
    by_cases h : k = e.1
    · simp [h]
    · simp [h, beq_eq_false_iff_ne.mpr h]

theorem isSome_find?_ofList (entries : List (String × α)) (k : String) :
    ((ofList entries).find? k).isSome = (entries.map (·.1)).contains k :=
  (isSome_find?_foldl_insert entries empty k).trans (Bool.false_or _)

theorem erase_comm (m : TextMap α) (key other : String) :
    (m.erase key).erase other = (m.erase other).erase key := by
  refine ext ?_
  simp only [erase, List.filter_filter, Bool.and_comm]

theorem lookup_eq_some_iff_of_sorted {entries : List (String × α)} {key : String} {value : α}
    (h : entries.Pairwise (fun a b => a.1 < b.1)) :
    entries.lookup key = some value ↔ (key, value) ∈ entries := by
  induction entries with
  | nil => simp
  | cons head rest ih =>
    obtain ⟨k, v⟩ := head
    obtain ⟨hfirst, hrest⟩ := List.pairwise_cons.mp h
    by_cases hk : key = k
    · subst hk
      have hfresh : (key, value) ∉ rest := fun hmem =>
        String.lt_irrefl key (hfirst (key, value) hmem)
      simp [hfresh, eq_comm]
    · simp [List.lookup_cons, beq_eq_false_iff_ne.mpr hk, hk, ih hrest]

theorem find?_eq_some_iff {m : TextMap α} {key : String} {value : α} :
    m.find? key = some value ↔ (key, value) ∈ m.entries :=
  lookup_eq_some_iff_of_sorted m.sorted

theorem nodup_entries (m : TextMap α) : m.entries.Nodup := by
  refine m.sorted.imp fun hlt he => ?_
  rw [he] at hlt
  exact String.lt_irrefl _ hlt

/-- A map is known by what its keys lead to. -/
theorem ext_find? {m n : TextMap α} (h : ∀ key, m.find? key = n.find? key) : m = n := by
  have hmem : ∀ e, e ∈ m.entries ↔ e ∈ n.entries := by
    rintro ⟨key, value⟩
    rw [← find?_eq_some_iff, ← find?_eq_some_iff, h key]
  have hperm := (List.perm_ext_iff_of_nodup m.nodup_entries n.nodup_entries).mpr hmem
  exact ext (hperm.eq_of_pairwise
    (fun a b _ _ hab hba => absurd (String.lt_trans hab hba) (String.lt_irrefl _)) m.sorted n.sorted)

end Keys

section Entries

theorem insertEntry_last {key : String} {value : α} {entries : List (String × α)}
    (h : ∀ e ∈ entries, e.1 < key) :
    insertEntry key value entries = entries ++ [(key, value)] := by
  induction entries with
  | nil => rfl
  | cons head rest ih =>
    obtain ⟨k, v⟩ := head
    have hlt : k < key := h (k, v) List.mem_cons_self
    unfold insertEntry
    rw [if_neg (String.lt_asymm hlt), if_pos hlt, ih fun e he => h e (List.mem_cons_of_mem _ he)]
    rfl

theorem foldl_insert_entries {entries : List (String × α)} {m : TextMap α}
    (h : (m.entries ++ entries).Pairwise (fun a b => a.1 < b.1)) :
    (entries.foldl (fun m e => m.insert e.1 e.2) m).entries = m.entries ++ entries := by
  induction entries generalizing m with
  | nil => exact (List.append_nil _).symm
  | cons e rest ih =>
    have hlast : (m.insert e.1 e.2).entries = m.entries ++ [e] :=
      insertEntry_last fun a ha => (List.pairwise_append.mp h).2.2 a ha e List.mem_cons_self
    have happend : (m.insert e.1 e.2).entries ++ rest = m.entries ++ e :: rest := by
      rw [hlast, List.append_assoc, List.singleton_append]
    rw [List.foldl_cons, ih (by rwa [happend]), happend]

theorem ofList_entries {entries : List (String × α)}
    (h : entries.Pairwise (fun a b => a.1 < b.1)) : (ofList entries).entries = entries :=
  foldl_insert_entries (m := empty) h

theorem ofList_self (m : TextMap α) : ofList m.entries = m := ext (ofList_entries m.sorted)

end Entries

end TextMap

end GoldenRecord

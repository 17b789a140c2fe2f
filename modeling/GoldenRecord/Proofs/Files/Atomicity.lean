import GoldenRecord.Proofs.Files.Room
import GoldenRecord.Proofs.Files.WellFormed

namespace GoldenRecord

namespace Tree

variable {t u : Tree} {p q : Path} {l k : Location} {name : String} {content : Bytes}

theorem mem_keys_setEntry {o : Object} {objects : List (Location × Object)} :
    k ∈ (setEntry l o objects).map (·.1) ↔ k = l ∨ k ∈ objects.map (·.1) := by
  refine ⟨mem_setEntry_keys, fun h => ?_⟩
  induction objects with
  | nil => simpa [setEntry] using h
  | cons head rest ih =>
    obtain ⟨m, p⟩ := head
    unfold setEntry
    split
    next hm =>
      subst hm
      simpa using h
    next =>
      rw [List.map_cons, List.mem_cons] at h ⊢
      rcases h with hl | hm | hrest
      · exact .inr (ih (.inl hl))
      · exact .inl hm
      · exact .inr (ih (.inr hrest))

/-- The second tree is the first one with a file put at one place, where no directory was. -/
structure Puts (t u : Tree) (l : Location) (content : Bytes) : Prop where
  size : t.workingDirectorySize = u.workingDirectorySize
  free : t.get? l ≠ some .directory
  there : u.get? l = some (.file content)
  elsewhere : ∀ k, k ≠ l → u.get? k = t.get? k
  shown : ∀ k name, name ∈ u.entries k ↔ k ++ [name] = l ∨ name ∈ t.entries k

theorem HasRoom.puts (h : t.HasRoom p l) (content : Bytes) :
    t.Puts (t.set l (.file content)) l content where
  size := rfl
  free := h.free
  there := by rw [h.get?_set, if_pos rfl]
  elsewhere k hk := by rw [h.get?_set, if_neg hk]
  shown k name := by
    rw [mem_entries_iff_mem_objects, mem_entries_iff_mem_objects]
    exact mem_keys_setEntry

namespace Puts

theorem changes (h : t.Puts u l content) : t.Changes u l (some content) where
  size := h.size
  free := h.free
  get? k := by
    split
    next hk => rw [hk, h.there]; rfl
    next hk => exact h.elsewhere k hk

theorem sameDirectories (h : t.Puts u l content) : t.SameDirectories u := h.changes.sameDirectories

theorem locate_ok_iff (h : t.Puts u l content) : u.locate q = .ok k ↔ t.locate q = .ok k :=
  ⟨h.sameDirectories.symm.directoriesIn.locate, h.sameDirectories.directoriesIn.locate⟩

theorem lookup (h : t.Puts u l content) (hq : t.locate q = .ok l) :
    u.lookup q = .ok (.file content) :=
  lookup_ok_iff.mpr ⟨l, h.locate_ok_iff.mpr hq, h.there⟩

/-- Every path that does not lead to the place leads to what it led to before. -/
theorem lookup_ok_iff_of_ne (h : t.Puts u l content) (hq : t.locate q ≠ .ok l) (o : Object) :
    u.lookup q = .ok o ↔ t.lookup q = .ok o := by
  rw [lookup_ok_iff, lookup_ok_iff]
  refine exists_congr fun k => ?_
  rw [h.locate_ok_iff]
  refine and_congr_right fun hk => ?_
  have hne : k ≠ l := fun e => hq (e ▸ hk)
  rw [h.elsewhere k hne]

end Puts

theorem isDirectory_parent_of_directoryOf (h : t.directoryOf p = .ok k) (hp : p.parent.text ≠ "") :
    t.isDirectory p.parent = true := by
  unfold directoryOf at h
  dsimp only at h
  rw [if_neg hp] at h
  obtain ⟨names, hnames, h⟩ := bind_ok_iff.mp h
  split at h
  next => cases h
  next =>
    obtain ⟨m, hwalk, hstep⟩ := bind_ok_iff.mp h
    obtain ⟨hdirectory, -⟩ := (step_idle_ok_iff rfl).mp hstep
    obtain rfl := lookupNames_ok hnames
    exact isDirectory_iff.mpr ⟨m, Tree.locate_ok_iff.mpr ⟨hnames, hwalk⟩, hdirectory⟩

/-- Room for a file is in a directory, and not where another directory stands. -/
theorem HasRoom.directories (h : t.HasRoom p l) :
    (p.parent.text ≠ "" → t.isDirectory p.parent = true) ∧ t.isDirectory p = false := by
  obtain ⟨⟨k, hk⟩, -⟩ := hasRoom_iff.mp h
  refine ⟨isDirectory_parent_of_directoryOf hk, ?_⟩
  rw [Bool.eq_false_iff, ne_eq, isDirectory_iff]
  rintro ⟨m, hm, hdirectory⟩
  obtain rfl := Except.ok.inj (hm.symm.trans h.located)
  exact h.free hdirectory

theorem writeAtomic_cases (t : Tree) (p : Path) (content : Bytes) :
    (∃ l, t.HasRoom p l ∧ t.writeAtomic p content = (.ok (), t.set l (.file content))) ∨
      (¬ ∃ l, t.HasRoom p l) ∧ ∃ f, t.writeAtomic p content = (.error f, t) := by
  by_cases hroom : ∃ l, t.HasRoom p l
  · obtain ⟨l, hl⟩ := hroom
    exact .inl ⟨l, hl, hl.writeAtomic content⟩
  · exact .inr ⟨hroom, writeAtomic_of_no_room hroom content⟩

/-- A write in one step either puts the whole file at the place of its path and changes nothing else,
or fails and changes nothing. It fails if the path has no room for a file, so if the directory is
missing or none, or if a directory stands at the path. -/
theorem writeAtomic_all_or_none (t : Tree) (p : Path) (content : Bytes) :
    (∀ u, t.writeAtomic p content = (.ok (), u) →
      (∃ l, t.locate p = .ok l ∧ t.Puts u l content) ∧
      (∀ q, t.locate q = t.locate p → u.lookup q = .ok (.file content)) ∧
      ∀ q, t.locate q ≠ t.locate p → ∀ o, u.lookup q = .ok o ↔ t.lookup q = .ok o) ∧
    (∀ f u, t.writeAtomic p content = (.error f, u) → u = t) ∧
    ((∃ u, t.writeAtomic p content = (.ok (), u)) ↔ ∃ l, t.HasRoom p l) ∧
    ((p.parent.text ≠ "" ∧ t.isDirectory p.parent = false) ∨ t.isDirectory p = true →
      ∃ f, t.writeAtomic p content = (.error f, t)) := by
  rcases writeAtomic_cases t p content with ⟨l, hroom, hwrite⟩ | ⟨hroom, f, hwrite⟩
  · have hputs := hroom.puts content
    rw [hwrite]
    refine ⟨fun u hu => ?_, fun f u hu => ?_, ⟨fun _ => ⟨l, hroom⟩, fun _ => ⟨_, rfl⟩⟩, fun h => ?_⟩
    · obtain ⟨-, rfl⟩ := Prod.mk.inj hu
      rw [hroom.located]
      exact ⟨⟨l, rfl, hputs⟩, fun q => hputs.lookup, fun q => hputs.lookup_ok_iff_of_ne⟩
    · cases hu
    · obtain ⟨hparent, hfree⟩ := hroom.directories
      rcases h with ⟨hp, hmissing⟩ | htaken
      · simp [hparent hp] at hmissing
      · simp [hfree] at htaken
  · rw [hwrite]
    refine ⟨fun u hu => ?_, fun g u hu => ?_, ⟨fun ⟨u, hu⟩ => ?_, fun h => absurd h hroom⟩,
      fun _ => ⟨f, rfl⟩⟩
    · cases hu
    · exact (Prod.mk.inj hu).2.symm
    · cases hu

/-- An older file is replaced, a file without a directory in its path is put in the working
directory, and a missing directory or one at the path is a fault. -/
theorem writeAtomic_all_or_none_of_sample :
    let t : Tree :=
      { objects := [(["out"], .directory), (["out", "a.json"], .file [1]), (["note"], .file [2])]
        nodup := by decide }
    (∃ u, t.writeAtomic ⟨"out/a.json"⟩ [3, 4] = (.ok (), u) ∧
      u.lookup ⟨"out//./a.json"⟩ = .ok (.file [3, 4]) ∧ u.lookup ⟨"note"⟩ = .ok (.file [2])) ∧
    (∃ u, t.writeAtomic ⟨"b.json"⟩ [3, 4] = (.ok (), u) ∧ u.lookup ⟨"b.json"⟩ = .ok (.file [3, 4])) ∧
    (∃ f, t.writeAtomic ⟨"missing/a.json"⟩ [3, 4] = (.error f, t)) ∧
    (∃ f, t.writeAtomic ⟨"note/a.json"⟩ [3, 4] = (.error f, t)) ∧
    ∃ f, t.writeAtomic ⟨"out"⟩ [3, 4] = (.error f, t) := by
  intro t
  obtain ⟨hreplaced, -⟩ := writeAtomic_all_or_none t ⟨"out/a.json"⟩ [3, 4]
  obtain ⟨hcreated, -⟩ := writeAtomic_all_or_none t ⟨"b.json"⟩ [3, 4]
  obtain ⟨-, -, -, hmissing⟩ := writeAtomic_all_or_none t ⟨"missing/a.json"⟩ [3, 4]
  obtain ⟨-, -, -, hbelow⟩ := writeAtomic_all_or_none t ⟨"note/a.json"⟩ [3, 4]
  obtain ⟨-, -, -, htaken⟩ := writeAtomic_all_or_none t ⟨"out"⟩ [3, 4]
  have hreplace : (t.writeAtomic ⟨"out/a.json"⟩ [3, 4]).1 = .ok () := by decide +kernel
  have hcreate : (t.writeAtomic ⟨"b.json"⟩ [3, 4]).1 = .ok () := by decide +kernel
  have hnote : t.lookup ⟨"note"⟩ = .ok (.file [2]) := by decide +kernel
  refine ⟨⟨_, Prod.ext hreplace rfl, ?_, ?_⟩, ⟨_, Prod.ext hcreate rfl, ?_⟩,
    hmissing (.inl (by decide +kernel)), hbelow (.inl (by decide +kernel)),
    htaken (.inr (by decide +kernel))⟩
  · exact (hreplaced _ (Prod.ext hreplace rfl)).2.1 _ (by decide +kernel)
  · exact ((hreplaced _ (Prod.ext hreplace rfl)).2.2 _ (by decide +kernel) _).mpr hnote
  · exact (hcreated _ (Prod.ext hcreate rfl)).2.1 _ rfl

end Tree

end GoldenRecord

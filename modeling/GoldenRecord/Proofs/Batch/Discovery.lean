import GoldenRecord.Proofs.Batch.Resilience
import GoldenRecord.Proofs.Files.WellFormed

namespace GoldenRecord

namespace Batch

variable {c : Config}

/-- The inputs that a path gives; none if it leads to no directory. -/
def foundIn (t : Tree) (c : Config) (directory : Path) : List Path :=
  (discoverIn t c directory).toOption.getD []

theorem foundIn_of_isDirectory {t : Tree} {directory : Path}
    (h : t.isDirectory directory = true) :
    ∃ l, t.IsAt directory l ∧ foundIn t c directory =
      (((t.entries l).map directory.join).filter (c.accepts t)).mergeSort nameLE := by
  obtain ⟨l, hl, hd⟩ := Tree.isDirectory_iff.mp h
  have hread : t.readDirectory directory = .ok ((t.entries l).map directory.join) := by
    simp only [Tree.readDirectory, hl, hd, bind, Except.bind]
  exact ⟨l, Tree.isAt_of_locate hl hd, by simp [foundIn, discoverIn, hread, Except.toOption]⟩

theorem foundIn_of_not_isDirectory {t : Tree} {directory : Path}
    (h : t.isDirectory directory = false) : foundIn t c directory = [] := by
  cases hread : t.readDirectory directory with
  | error f => simp [foundIn, discoverIn, hread, Except.toOption]
  | ok entries => simp [Tree.isDirectory_iff_readDirectory.mpr ⟨entries, hread⟩] at h

theorem discover_eq_flatMap {t : Tree} {directories inputs : List Path}
    (h : discover t c directories = .ok inputs) : inputs = directories.flatMap (foundIn t c) := by
  induction directories generalizing inputs with
  | nil => cases h; rfl
  | cons directory rest ih =>
    unfold discover at h
    rw [List.flatMap_cons]
    split at h
    next =>
      obtain ⟨found, hf, h⟩ := bind_ok_iff.mp h
      obtain ⟨more, hm, h⟩ := bind_ok_iff.mp h
      cases h
      rw [← ih hm]
      simp [foundIn, hf, Except.toOption]
    next hd =>
      rw [foundIn_of_not_isDirectory (Bool.eq_false_iff.mpr hd)]
      split at h
      next => cases h
      next => exact ih h

theorem directories_of_discover {t : Tree} {directories inputs : List Path}
    (h : discover t c directories = .ok inputs) :
    (∀ d ∈ directories, t.isDirectory d = true) ∨ c.missing = .warn := by
  induction directories generalizing inputs with
  | nil => simp
  | cons directory rest ih =>
    unfold discover at h
    split at h
    next hd =>
      obtain ⟨found, -, h⟩ := bind_ok_iff.mp h
      obtain ⟨more, hm, -⟩ := bind_ok_iff.mp h
      exact (ih hm).imp_left fun hrest => List.forall_mem_cons.mpr ⟨hd, hrest⟩
    next =>
      split at h
      next => cases h
      next hwarn => exact .inr hwarn

section Order

theorem nameLE_total (p q : Path) : (nameLE p q || nameLE q p) = true := by
  unfold nameLE
  cases p.fileName? <;> cases q.fileName? <;> simp [String.le_total]

theorem nameLE_trans (p q r : Path) (h : nameLE p q = true) (h' : nameLE q r = true) :
    nameLE p r = true := by
  unfold nameLE at *
  cases hp : p.fileName? with
  | none => rfl
  | some a =>
    cases hq : q.fileName? with
    | none => simp [hp, hq] at h
    | some b =>
      cases hr : r.fileName? with
      | none => simp [hq, hr] at h'
      | some d =>
        simp only [hp, hq, hr, decide_eq_true_eq] at h h' ⊢
        exact String.le_trans h h'

theorem nameLE_antisymm {base : Path} {name other : String} (hn : Path.IsPlainName name)
    (ho : Path.IsPlainName other) (h : nameLE (base.join name) (base.join other) = true)
    (h' : nameLE (base.join other) (base.join name) = true) : base.join name = base.join other := by
  simp only [nameLE, Path.fileName?_join base hn, Path.fileName?_join base ho,
    decide_eq_true_eq] at h h'
  rw [String.le_antisymm h h']

/-- Entries of one directory that are sorted by name are in the one order they can be in. -/
theorem eq_of_sorted_perm (base : Path) {paths others : List Path} (hperm : others.Perm paths)
    (hjoined : ∀ p ∈ paths, ∃ name, Path.IsPlainName name ∧ p = base.join name)
    (hothers : others.Pairwise fun p q => nameLE p q = true)
    (hpaths : paths.Pairwise fun p q => nameLE p q = true) : others = paths := by
  refine hperm.eq_of_pairwise (fun p q hp hq => ?_) hothers hpaths
  obtain ⟨name, hn, rfl⟩ := hjoined p (hperm.mem_iff.mp hp)
  obtain ⟨other, ho, rfl⟩ := hjoined q hq
  exact nameLE_antisymm hn ho

theorem sorted_foundIn (t : Tree) (c : Config) (directory : Path) :
    (foundIn t c directory).Pairwise fun p q => nameLE p q = true := by
  unfold foundIn discoverIn
  split
  next => simp [Except.toOption]
  next => exact List.pairwise_mergeSort nameLE_trans nameLE_total _

end Order

section WellFormed

variable {t u : Tree} {directory p : Path}

theorem mem_foundIn_iff (ht : t.WellFormed) (hd : t.isDirectory directory = true) :
    p ∈ foundIn t c directory ↔
      ∃ name, Path.IsPlainName name ∧ p = directory.join name ∧ c.accepts t p = true := by
  obtain ⟨l, hl, hfound⟩ := foundIn_of_isDirectory (c := c) hd
  rw [hfound, List.mem_mergeSort, List.mem_filter, List.mem_map]
  constructor
  · rintro ⟨⟨name, hname, rfl⟩, haccepts⟩
    exact ⟨name, (ht.mem_entries_iff.mp hname).1, rfl, haccepts⟩
  · rintro ⟨name, hn, rfl, haccepts⟩
    obtain ⟨-, content, hg⟩ := (hl.isFile_join_iff hn).mp (accepts_iff.mp haccepts).2
    exact ⟨⟨name, ht.mem_entries_iff.mpr ⟨hn, by simp [hg]⟩, rfl⟩, haccepts⟩

theorem nodup_foundIn (ht : t.WellFormed) (c : Config) (directory : Path) :
    (foundIn t c directory).Nodup := by
  cases hd : t.isDirectory directory with
  | false => simp [foundIn_of_not_isDirectory hd]
  | true =>
    obtain ⟨l, -, hfound⟩ := foundIn_of_isDirectory (c := c) hd
    rw [hfound]
    exact (List.mergeSort_perm _ nameLE).nodup_iff.mpr
      ((ht.nodup_paths directory l).sublist List.filter_sublist)

/-- A directory gives the same inputs in two trees if it has the same ones in it. -/
theorem foundIn_congr (ht : t.WellFormed) (hu : u.WellFormed)
    (hd : t.isDirectory directory = true) (hd' : u.isDirectory directory = true)
    (h : ∀ name, Path.IsPlainName name →
      c.accepts u (directory.join name) = c.accepts t (directory.join name)) :
    foundIn u c directory = foundIn t c directory := by
  have hmem : ∀ p, p ∈ foundIn u c directory ↔ p ∈ foundIn t c directory := by
    intro p
    rw [mem_foundIn_iff hu hd', mem_foundIn_iff ht hd]
    refine exists_congr fun name => and_congr_right fun hn => and_congr_right fun hp => ?_
    rw [hp, h name hn]
  have hperm := (List.perm_ext_iff_of_nodup (nodup_foundIn hu c directory)
    (nodup_foundIn ht c directory)).mpr hmem
  refine eq_of_sorted_perm directory hperm (fun p hp => ?_) (sorted_foundIn u c directory)
    (sorted_foundIn t c directory)
  obtain ⟨name, hn, he, -⟩ := (mem_foundIn_iff ht hd).mp hp
  exact ⟨name, hn, he⟩

end WellFormed

end Batch

end GoldenRecord

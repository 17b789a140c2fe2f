import GoldenRecord.Files.Tree
import GoldenRecord.Proofs.Outcome
import GoldenRecord.Proofs.TextMap

namespace GoldenRecord

namespace Tree

theorem lookup_cons_entry (k m : Location) (p : Object) (rest : List (Location × Object)) :
    ((m, p) :: rest).lookup k = if k = m then some p else rest.lookup k := by
  by_cases h : k = m
  · subst h
    simp
  · have hb : (k == m) = false := beq_eq_false_iff_ne.mpr h
    simp [List.lookup_cons, hb, h]

theorem lookup_setEntry (l k : Location) (o : Object) (objects : List (Location × Object)) :
    (setEntry l o objects).lookup k = if k = l then some o else objects.lookup k := by
  induction objects with
  | nil => exact lookup_cons_entry k l o []
  | cons head rest ih =>
    obtain ⟨m, p⟩ := head
    unfold setEntry
    split
    next hm =>
      subst hm
      rw [lookup_cons_entry, lookup_cons_entry]
      by_cases h : k = m <;> simp [h]
    next hm =>
      rw [lookup_cons_entry, lookup_cons_entry, ih]
      by_cases h : k = m
      · simp [h, hm]
      · simp [h]

theorem get?_of_isGiven {t : Tree} {l : Location} (h : l.IsGiven) :
    t.get? l = some .directory := if_pos h

theorem not_isGiven_of_get? {t : Tree} {l : Location} (h : t.get? l ≠ some .directory) :
    ¬ l.IsGiven := fun hg => h (get?_of_isGiven hg)

theorem get?_of_lookup {t u : Tree} {l : Location} {o : Option Object} (hl : ¬ l.IsGiven)
    (h : ∀ k, u.objects.lookup k = if k = l then o else t.objects.lookup k) (k : Location) :
    u.get? k = if k = l then o else t.get? k := by
  unfold get?
  by_cases hk : k.IsGiven
  · have hne : k ≠ l := fun e => hl (e ▸ hk)
    simp [hk, hne]
  · rw [if_neg hk, if_neg hk]
    exact h k

theorem get?_set {t : Tree} {l : Location} (o : Object) (hl : ¬ l.IsGiven) (k : Location) :
    (t.set l o).get? k = if k = l then some o else t.get? k :=
  get?_of_lookup hl (fun k => lookup_setEntry l k o t.objects) k

theorem get?_erase {t : Tree} {l : Location} (hl : ¬ l.IsGiven) (k : Location) :
    (t.erase l).get? k = if k = l then none else t.get? k :=
  get?_of_lookup hl (lookup_filter_ne t.objects l) k

theorem mem_objects_of_get? {t : Tree} {l : Location} (hl : ¬ l.IsGiven) {o : Object}
    (h : t.get? l = some o) : (l, o) ∈ t.objects := by
  have hlookup : t.objects.lookup l = some o := by simpa [get?, hl] using h
  obtain ⟨before, after, hobjects, -⟩ := List.lookup_eq_some_iff.mp hlookup
  simp [hobjects]

theorem mem_entries_of_get? {t : Tree} {l : Location} {name : String} {o : Object}
    (hl : ¬ Location.IsGiven (l ++ [name])) (h : t.get? (l ++ [name]) = some o) :
    name ∈ t.entries l :=
  List.mem_filterMap.mpr ⟨(l ++ [name], o), mem_objects_of_get? hl h, by simp [entryName?]⟩

/-- Every directory of the first tree is one of the second. -/
def DirectoriesIn (t u : Tree) : Prop :=
  ∀ l, t.get? l = some .directory → u.get? l = some .directory

theorem DirectoriesIn.refl (t : Tree) : t.DirectoriesIn t := fun _ h => h

theorem DirectoriesIn.trans {t u v : Tree} (h : t.DirectoriesIn u) (h' : u.DirectoriesIn v) :
    t.DirectoriesIn v := fun l hl => h' l (h l hl)

def enter (l : Location) (name : String) : Except FileFault Location :=
  if Path.isIdle name then .ok l
  else if name = ".." then .ok l.above
  else if maxNameSize < name.utf8ByteSize then .error .nameTooLong
  else .ok (l ++ [name])

theorem step_of_directory {t : Tree} {l : Location} (h : t.get? l = some .directory)
    (name : String) : t.step l name = enter l name := by
  simp [step, h, enter]

theorem step_ok_iff {t : Tree} {l k : Location} {name : String} :
    t.step l name = .ok k ↔ t.get? l = some .directory ∧ enter l name = .ok k := by
  constructor
  · intro h
    have hd : t.get? l = some .directory := by
      unfold step at h
      split at h
      next => cases h
      next => cases h
      next hd => exact hd
    exact ⟨hd, by rwa [step_of_directory hd] at h⟩
  · rintro ⟨hd, he⟩
    rw [step_of_directory hd, he]

theorem step_idle_ok_iff {t : Tree} {l k : Location} {name : String}
    (h : Path.isIdle name = true) : t.step l name = .ok k ↔ t.get? l = some .directory ∧ l = k := by
  simp [step_ok_iff, enter, h]

theorem walk_cons (t : Tree) (l : Location) (name : String) (names : List String) :
    t.walk l (name :: names) = (t.step l name >>= fun k => t.walk k names) := rfl

theorem walk_singleton (t : Tree) (l : Location) (name : String) :
    t.walk l [name] = t.step l name := by
  rw [walk_cons]
  cases t.step l name <;> rfl

theorem walk_append (t : Tree) (l : Location) (names more : List String) :
    t.walk l (names ++ more) = (t.walk l names >>= fun k => t.walk k more) := by
  simp [walk, List.foldlM_append]

theorem walk_concat_ok_iff {t : Tree} {l k : Location} {names : List String} {name : String} :
    t.walk l (names ++ [name]) = .ok k ↔ ∃ m, t.walk l names = .ok m ∧ t.step m name = .ok k := by
  rw [walk_append, bind_ok_iff]
  simp only [walk_singleton]

/-- A walk that succeeds does so in every tree with these directories. -/
theorem DirectoriesIn.walk {t u : Tree} (h : t.DirectoriesIn u) {l k : Location}
    {names : List String} (hw : t.walk l names = .ok k) : u.walk l names = .ok k := by
  induction names generalizing l with
  | nil => exact hw
  | cons name names ih =>
    obtain ⟨m, hs, hw⟩ := bind_ok_iff.mp (walk_cons t l name names ▸ hw)
    obtain ⟨hd, he⟩ := step_ok_iff.mp hs
    rw [walk_cons, bind_ok_iff]
    exact ⟨m, step_ok_iff.mpr ⟨h l hd, he⟩, ih hw⟩

theorem lookupNames_ok {p : Path} {names : List String} (h : p.lookupNames = .ok names) :
    names = p.pieceNames := by
  unfold Path.lookupNames at h
  split at h
  next => cases h
  next =>
    split at h
    next => cases h
    next =>
      split at h
      next => cases h
      next => exact (Except.ok.inj h).symm

theorem locate_ok_iff {t : Tree} {p : Path} {l : Location} :
    t.locate p = .ok l ↔
      p.lookupNames = .ok p.pieceNames ∧ t.walk p.start p.pieceNames = .ok l := by
  unfold locate
  rw [bind_ok_iff]
  constructor
  · rintro ⟨names, hn, hw⟩
    obtain rfl := lookupNames_ok hn
    exact ⟨hn, hw⟩
  · rintro ⟨hn, hw⟩
    exact ⟨_, hn, hw⟩

theorem DirectoriesIn.locate {t u : Tree} (h : t.DirectoriesIn u) {p : Path} {l : Location}
    (hl : t.locate p = .ok l) : u.locate p = .ok l := by
  obtain ⟨hn, hw⟩ := locate_ok_iff.mp hl
  exact locate_ok_iff.mpr ⟨hn, h.walk hw⟩

theorem lookup_ok_iff {t : Tree} {p : Path} {o : Object} :
    t.lookup p = .ok o ↔ ∃ l, t.locate p = .ok l ∧ t.get? l = some o := by
  unfold lookup
  rw [bind_ok_iff]
  refine exists_congr fun l => and_congr_right fun _ => ?_
  cases t.get? l <;> simp

section Same

variable {t u : Tree}

theorem Same.locate (h : t.Same u) (p : Path) : u.locate p = t.locate p := by
  have hstep : u.step = t.step := by
    funext l name
    rw [step, step, h.get? l]
  unfold Tree.locate walk
  rw [hstep]

/-- What stands at a path does not depend on the order of the entries. -/
theorem Same.lookup (h : t.Same u) (p : Path) : u.lookup p = t.lookup p := by
  unfold Tree.lookup
  rw [h.locate p]
  refine congrArg (t.locate p >>= ·) (funext fun l => ?_)
  rw [h.get? l]

theorem lookup_eq_some_iff_mem {objects : List (Location × Object)} {l : Location} {o : Object}
    (h : (objects.map (·.1)).Nodup) : objects.lookup l = some o ↔ (l, o) ∈ objects := by
  induction objects with
  | nil => simp
  | cons head rest ih =>
    obtain ⟨k, p⟩ := head
    obtain ⟨hk, hrest⟩ := List.nodup_cons.mp h
    rw [lookup_cons_entry, List.mem_cons, Prod.mk.injEq]
    split
    next he =>
      subst he
      have hfresh : (l, o) ∉ rest := fun hmem => hk (List.mem_map.mpr ⟨_, hmem, rfl⟩)
      simp [hfresh, eq_comm]
    next hne => simp [hne, ih hrest]

theorem same_of_perm (hsize : t.workingDirectorySize = u.workingDirectorySize)
    (h : u.objects.Perm t.objects) : t.Same u := by
  refine ⟨hsize, fun l => ?_⟩
  unfold Tree.get?
  split
  next => rfl
  next =>
    refine Option.ext fun o => ?_
    rw [lookup_eq_some_iff_mem t.nodup, lookup_eq_some_iff_mem u.nodup, h.mem_iff]

theorem entries_perm (h : u.objects.Perm t.objects) (l : Location) :
    (u.entries l).Perm (t.entries l) := h.filterMap _

end Same

/-- The same places are directories in both trees. -/
structure SameDirectories (t u : Tree) : Prop where
  size : t.workingDirectorySize = u.workingDirectorySize
  directory : ∀ l, t.get? l = some .directory ↔ u.get? l = some .directory

namespace SameDirectories

variable {t u v : Tree}

theorem refl (t : Tree) : t.SameDirectories t := ⟨rfl, fun _ => Iff.rfl⟩

theorem symm (h : t.SameDirectories u) : u.SameDirectories t :=
  ⟨h.size.symm, fun l => (h.directory l).symm⟩

theorem trans (h : t.SameDirectories u) (h' : u.SameDirectories v) : t.SameDirectories v :=
  ⟨h.size.trans h'.size, fun l => (h.directory l).trans (h'.directory l)⟩

theorem directoriesIn (h : t.SameDirectories u) : t.DirectoriesIn u :=
  fun l => (h.directory l).mp

theorem isDirectoryAt (h : t.SameDirectories u) (l : Location) :
    t.isDirectoryAt l = u.isDirectoryAt l := by
  rw [Bool.eq_iff_iff]
  simpa [Tree.isDirectoryAt] using h.directory l

end SameDirectories

/-- The second tree is the first one with another file, or none, at one place where no directory
was. -/
structure Changes (t u : Tree) (l : Location) (file : Option Bytes) : Prop where
  size : t.workingDirectorySize = u.workingDirectorySize
  free : t.get? l ≠ some .directory
  get? : ∀ k, u.get? k = if k = l then file.map .file else t.get? k

namespace Changes

variable {t u : Tree} {l : Location} {file : Option Bytes}

theorem own (h : t.Changes u l file) : u.get? l = file.map .file := by rw [h.get?, if_pos rfl]

theorem other (h : t.Changes u l file) {k : Location} (hk : k ≠ l) : u.get? k = t.get? k := by
  rw [h.get?, if_neg hk]

theorem sameDirectories (h : t.Changes u l file) : t.SameDirectories u := by
  refine ⟨h.size, fun k => ?_⟩
  by_cases hk : k = l
  · subst hk
    rw [h.own]
    cases file <;> simp [h.free]
  · rw [h.other hk]

theorem of_set (h : t.get? l ≠ some .directory) (content : Bytes) :
    t.Changes (t.set l (.file content)) l (some content) :=
  ⟨rfl, h, get?_set _ (not_isGiven_of_get? h)⟩

theorem of_erase (h : t.get? l ≠ some .directory) : t.Changes (t.erase l) l none :=
  ⟨rfl, h, get?_erase (not_isGiven_of_get? h)⟩

end Changes

theorem readFile_ok_iff {t : Tree} {p : Path} {content : Bytes} :
    t.readFile p = .ok content ↔ t.lookup p = .ok (.file content) := by
  unfold readFile
  split <;> simp_all

theorem isFile_iff {t : Tree} {p : Path} :
    t.isFile p = true ↔ ∃ content, t.readFile p = .ok content := by
  unfold isFile readFile
  cases h : t.lookup p with
  | error f => simp
  | ok o => cases o <;> simp

theorem isDirectory_iff {t : Tree} {p : Path} :
    t.isDirectory p = true ↔ ∃ l, t.locate p = .ok l ∧ t.get? l = some .directory := by
  rw [← lookup_ok_iff]
  unfold isDirectory
  cases t.lookup p with
  | error f => simp
  | ok o => cases o <;> simp

theorem isDirectory_iff_readDirectory {t : Tree} {p : Path} :
    t.isDirectory p = true ↔ ∃ entries, t.readDirectory p = .ok entries := by
  rw [isDirectory_iff]
  constructor
  · rintro ⟨l, hl, hd⟩
    exact ⟨_, by simp only [readDirectory, hl, bind, Except.bind, hd]; rfl⟩
  · rintro ⟨entries, h⟩
    obtain ⟨l, hl, h⟩ := bind_ok_iff.mp h
    split at h
    next hd => exact ⟨l, hl, hd⟩
    next => cases h
    next => cases h

/-- A list cut behind the last entry that is not to go. -/
theorem trailing_split (f : String → Bool) (names : List String) :
    ∃ tail, names = (names.reverse.dropWhile f).reverse ++ tail ∧ (∀ name ∈ tail, f name = true) ∧
      ∀ name ∈ (names.reverse.dropWhile f).reverse.getLast?, f name = false := by
  refine ⟨(names.reverse.takeWhile f).reverse, ?_, fun name hname => ?_, fun name hname => ?_⟩
  · rw [← List.reverse_append, List.takeWhile_append_dropWhile, List.reverse_reverse]
  · exact List.all_eq_true.mp (List.all_takeWhile (p := f) (l := names.reverse)) name
      (List.mem_reverse.mp hname)
  · rw [List.getLast?_reverse] at hname
    have hhead := List.head?_dropWhile_not f names.reverse
    rw [hname] at hhead
    exact hhead

theorem strip_trailing (names : List String) :
    ∃ k, names = (names.reverse.dropWhile (· == "")).reverse ++ List.replicate k "" ∧
      (names.reverse.dropWhile (· == "")).reverse.getLast? ≠ some "" := by
  obtain ⟨tail, hnames, htail, hlast⟩ := trailing_split (· == "") names
  refine ⟨tail.length, ?_, fun h => by simpa using hlast "" h⟩
  rw [← List.eq_replicate_of_mem fun name hname => by simpa using htail name hname]
  exact hnames

/-- The last step is along the last name that is not empty, or stays where it is. -/
theorem lastStep_ok {t : Tree} {start l : Location} {names : List String} {last : String}
    (h : t.lastStep start names = .ok (l, last)) : t.get? l = some .directory ∧
      ∃ k, (names = List.replicate k "" ∧ l = start ∧ last = ".") ∨
        ∃ init, names = init ++ [last] ++ List.replicate k "" ∧ last ≠ "" ∧
          t.walk start init = .ok l := by
  obtain ⟨k, hnames, hlast⟩ := strip_trailing names
  obtain ⟨m, hw, h⟩ := bind_ok_iff.mp h
  obtain ⟨n, hs, h⟩ := bind_ok_iff.mp h
  obtain ⟨hd, rfl⟩ := (step_idle_ok_iff rfl).mp hs
  cases h
  refine ⟨hd, k, ?_⟩
  generalize (names.reverse.dropWhile (· == "")).reverse = stripped at hnames hlast hw ⊢
  rcases List.eq_nil_or_concat stripped with rfl | ⟨init, name, rfl⟩
  · cases hw
    exact .inl ⟨hnames, rfl, rfl⟩
  · rw [List.concat_eq_append] at hnames hlast hw ⊢
    rw [List.dropLast_concat] at hw
    rw [List.getLast?_concat] at hlast ⊢
    exact .inr ⟨init, hnames, fun e => hlast (congrArg some e), hw⟩

end Tree

end GoldenRecord

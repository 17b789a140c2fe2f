import GoldenRecord.Cli.Check
import GoldenRecord.Proofs.Batch.Listing
import GoldenRecord.Proofs.Golden

namespace GoldenRecord

namespace Path

/-- Whichever name is joined to a path, the same text stands before it. -/
theorem exists_text_join (base : Path) :
    ∃ front, ∀ name, IsPlainName name → (base.join name).text = front ++ name := by
  by_cases hempty : base.text = ""
  · exact ⟨"", fun name _ => by simp [join, hempty]⟩
  · by_cases hslash : base.text.toList.getLast? = some '/'
    · refine ⟨base.text, fun name hn => ?_⟩
      rw [join, if_neg (not_or.mpr ⟨hn.head_ne_slash, hempty⟩), if_pos hslash]
    · refine ⟨base.text ++ "/", fun name hn => ?_⟩
      rw [join, if_neg (not_or.mpr ⟨hn.head_ne_slash, hempty⟩), if_neg hslash]

theorem le_of_join_le {base : Path} {name other : String} (hn : IsPlainName name)
    (ho : IsPlainName other) (h : (base.join name).text ≤ (base.join other).text) :
    name ≤ other := by
  obtain ⟨front, hfront⟩ := base.exists_text_join
  rw [hfront name hn, hfront other ho] at h
  refine String.not_lt.mp fun hlt => String.not_lt.mpr h ?_
  have hlist : other.toList < name.toList := hlt
  change (front ++ other).toList < (front ++ name).toList
  rw [String.toList_append, String.toList_append]
  exact List.append_left_lt hlist

theorem HasExtension.ne_dotdot {name : String} (h : HasExtension "json" name) : name ≠ ".." := by
  obtain ⟨stem, -, rfl, -⟩ := h
  intro he
  have hlast := congrArg (fun s : String => s.toList.getLast?) he
  simp at hlast

theorem HasExtension.ne_empty {extension name : String} (h : HasExtension extension name) :
    name ≠ "" := by
  obtain ⟨stem, hstem, rfl, -⟩ := h
  simp

end Path

namespace Tree

variable {t : Tree} {p : Path} {l : Location} {name : String}

/-- Whether the file at a path holds a record that keeps all rules. -/
def isClean (t : Tree) (p : Path) : Bool :=
  match t.loadGolden p with
  | .ok d => d.violations.isEmpty
  | .error _ => false

theorem isClean_iff : t.isClean p = true ↔ ∃ d, t.loadGolden p = .ok d ∧ d.violations = [] := by
  unfold isClean
  cases t.loadGolden p <;> simp

theorem isFile_of_isClean (h : t.isClean p = true) : t.isFile p = true := by
  obtain ⟨d, hd, -⟩ := isClean_iff.mp h
  obtain ⟨content, hcontent, -⟩ := loadGolden_ok_iff.mp hd
  exact isFile_iff.mpr ⟨content, hcontent⟩

theorem WellFormed.isPlainName_of_extension (h : t.WellFormed)
    (hext : Path.HasExtension "json" name) (ho : t.get? (l ++ [name]) ≠ none) :
    Path.IsPlainName name := by
  obtain ⟨o, ho⟩ := Option.ne_none_iff_exists'.mp ho
  have hgiven := not_isGiven_concat (l := l) hext.ne_dotdot hext.ne_empty
  obtain ⟨k, other, he, hn, -⟩ := h _ (List.mem_map_of_mem (mem_objects_of_get? hgiven ho))
  obtain ⟨-, rfl⟩ : l = k ∧ name = other := by simpa using he
  exact hn

end Tree

namespace Cli

namespace Check

variable {t : Tree} {p : Path} {l : Location}

theorem nameLE_total (p q : Path) : (nameLE p q || nameLE q p) = true := by
  simp [nameLE, String.le_total]

theorem nameLE_trans (p q r : Path) (h : nameLE p q = true) (h' : nameLE q r = true) :
    nameLE p r = true := by
  simp only [nameLE, decide_eq_true_eq] at h h' ⊢
  exact String.le_trans h h'

section Files

theorem filesOf_of_isDirectory (hl : t.locate p = .ok l) (hg : t.get? l = some .directory) :
    filesOf t p =
      (((t.entries l).map p.join).filter (·.extension? == some "json")).mergeSort nameLE := by
  have hread : t.readDirectory p = .ok ((t.entries l).map p.join) := by
    simp only [Tree.readDirectory, hl, hg, bind, Except.bind]
  rw [filesOf, hread]

theorem filesOf_of_not_isDirectory (h : t.isDirectory p = false) : filesOf t p = [p] := by
  unfold filesOf
  cases hr : t.readDirectory p with
  | error f => rfl
  | ok entries =>
    rw [Tree.isDirectory_iff_readDirectory.mpr ⟨entries, hr⟩] at h
    cases h

def namesOf (t : Tree) (p : Path) : List String := (filesOf t p).filterMap Path.fileName?

variable {name : String} (ht : t.WellFormed) (hl : t.locate p = .ok l)
  (hg : t.get? l = some .directory)

include ht hl hg

theorem mem_filesOf_iff {q : Path} : q ∈ filesOf t p ↔ ∃ name, Path.IsPlainName name ∧
    q = p.join name ∧ Path.HasExtension "json" name ∧ t.get? (l ++ [name]) ≠ none := by
  rw [filesOf_of_isDirectory hl hg, List.mem_mergeSort, List.mem_filter, List.mem_map, beq_iff_eq]
  constructor
  · rintro ⟨⟨name, hname, rfl⟩, hext⟩
    obtain ⟨hn, ho⟩ := ht.mem_entries_iff.mp hname
    exact ⟨name, hn, rfl, (Path.extension?_eq_some_iff (Path.fileName?_join p hn)).mp hext, ho⟩
  · rintro ⟨name, hn, rfl, hext, ho⟩
    exact ⟨⟨name, ht.mem_entries_iff.mpr ⟨hn, ho⟩, rfl⟩,
      (Path.extension?_eq_some_iff (Path.fileName?_join p hn)).mpr hext⟩

theorem filesOf_joined :
    ∀ q ∈ filesOf t p, ∃ name, Path.IsPlainName name ∧ q = p.join name := by
  intro q hq
  obtain ⟨name, hn, he, -⟩ := (mem_filesOf_iff ht hl hg).mp hq
  exact ⟨name, hn, he⟩

theorem filesOf_eq_map : filesOf t p = (namesOf t p).map p.join :=
  (Path.map_fileName? (filesOf_joined ht hl hg)).symm

/-- A directory stands for what is in it under a name with the extension. -/
theorem mem_namesOf_iff :
    name ∈ namesOf t p ↔ Path.HasExtension "json" name ∧ t.get? (l ++ [name]) ≠ none := by
  rw [namesOf, Path.mem_fileNames_iff (filesOf_joined ht hl hg), mem_filesOf_iff ht hl hg]
  constructor
  · rintro ⟨hn, other, ho, he, hfound⟩
    obtain rfl := Path.join_injective hn ho he
    exact hfound
  · rintro ⟨hext, ho⟩
    have hn := ht.isPlainName_of_extension hext ho
    exact ⟨hn, name, hn, rfl, hext, ho⟩

/-- The names are in the order of their bytes, and no name comes twice. -/
theorem namesOf_increasing :
    (namesOf t p).Pairwise fun a b => Bytes.ofText a < Bytes.ofText b := by
  have hsorted : (filesOf t p).Pairwise fun q r => nameLE q r = true := by
    rw [filesOf_of_isDirectory hl hg]
    exact List.pairwise_mergeSort nameLE_trans nameLE_total _
  have hnodup : (filesOf t p).Nodup := by
    rw [filesOf_of_isDirectory hl hg]
    exact (List.mergeSort_perm _ nameLE).nodup_iff.mpr
      ((ht.nodup_paths p l).sublist List.filter_sublist)
  refine Path.fileNames_increasing (filesOf_joined ht hl hg) (fun a b ha hb hle => ?_) hsorted hnodup
  rw [nameLE, decide_eq_true_eq] at hle
  exact Path.le_of_join_le ha hb hle

/-- All a directory stands for is in order if the files are and no directory is among them. -/
theorem forall_namesOf_iff : (∀ name ∈ namesOf t p, t.isClean (p.join name) = true) ↔
    ∀ name, Path.HasExtension "json" name → t.get? (l ++ [name]) ≠ some .directory ∧
      ∀ content, t.get? (l ++ [name]) = some (.file content) → t.isClean (p.join name) = true := by
  have hat := Tree.isAt_of_locate hl hg
  constructor
  · intro h name hext
    refine ⟨fun hdirectory => ?_, fun content hfile => ?_⟩
    · have ho : t.get? (l ++ [name]) ≠ none := by simp [hdirectory]
      have hclean := h name ((mem_namesOf_iff ht hl hg).mpr ⟨hext, ho⟩)
      obtain ⟨-, content, hfile⟩ := (hat.isFile_join_iff (ht.isPlainName_of_extension hext ho)).mp
        (Tree.isFile_of_isClean hclean)
      simp [hdirectory] at hfile
    · exact h name ((mem_namesOf_iff ht hl hg).mpr ⟨hext, by simp [hfile]⟩)
  · intro h name hname
    obtain ⟨hext, ho⟩ := (mem_namesOf_iff ht hl hg).mp hname
    obtain ⟨hplace, hclean⟩ := h name hext
    cases hobject : t.get? (l ++ [name]) with
    | none => exact absurd hobject ho
    | some o =>
      cases o with
      | directory => exact absurd hobject hplace
      | file content => exact hclean content hobject

omit hl hg

theorem filesOf_eq (p : Path) :
    filesOf t p = if t.isDirectory p then (namesOf t p).map p.join else [p] := by
  cases hp : t.isDirectory p with
  | false => rw [filesOf_of_not_isDirectory hp]; rfl
  | true =>
    obtain ⟨l, hl, hg⟩ := Tree.isDirectory_iff.mp hp
    exact filesOf_eq_map ht hl hg

theorem forall_filesOf_iff (p : Path) : (∀ q ∈ filesOf t p, t.isClean q = true) ↔
    (t.isDirectory p = false → t.isClean p = true) ∧
    ∀ l, t.locate p = .ok l → t.get? l = some .directory → ∀ name, Path.HasExtension "json" name →
      t.get? (l ++ [name]) ≠ some .directory ∧
      ∀ content, t.get? (l ++ [name]) = some (.file content) → t.isClean (p.join name) = true := by
  cases hp : t.isDirectory p with
  | false =>
    rw [filesOf_of_not_isDirectory hp]
    have hnone : ∀ l, t.locate p = .ok l → t.get? l ≠ some .directory := by
      intro l hl hg
      rw [Tree.isDirectory_iff.mpr ⟨l, hl, hg⟩] at hp
      cases hp
    constructor
    · intro h
      exact ⟨fun _ => h p List.mem_cons_self, fun l hl hg => absurd hg (hnone l hl)⟩
    · rintro ⟨h, -⟩ q hq
      obtain rfl := List.mem_singleton.mp hq
      exact h rfl
  | true =>
    obtain ⟨l, hl, hg⟩ := Tree.isDirectory_iff.mp hp
    rw [filesOf_eq_map ht hl hg, List.forall_mem_map, forall_namesOf_iff ht hl hg]
    constructor
    · intro h
      refine ⟨fun hf => absurd hf (by decide), fun l' hl' _ => ?_⟩
      cases hl.symm.trans hl'
      exact h
    · rintro ⟨-, h⟩
      exact h l hl hg

end Files

section Reports

theorem checkOne_isClean (t : Tree) (p : Path) : (checkOne t p).2 = t.isClean p := by
  unfold checkOne Tree.checkGolden Tree.isClean
  cases t.loadGolden p with
  | error f => cases f <;> rfl
  | ok d =>
    simp only [bind, Except.bind]
    cases d.violations.isEmpty <;> rfl

theorem checkOne_text (t : Tree) (p : Path) : ∃ rest, (checkOne t p).1 =
    (if t.isClean p then "  ok   " else "  FAIL ") ++ p.text ++ rest := by
  cases h : t.loadGolden p with
  | ok d =>
    by_cases hv : d.violations = []
    · have hcheck : t.checkGolden p = .ok d := by
        simp [Tree.checkGolden, h, hv, bind, Except.bind]
      refine ⟨" (" ++ toString d.pages.length ++ " pages)\n", ?_⟩
      rw [checkOne, hcheck, Tree.isClean_iff.mpr ⟨d, h, hv⟩]
      simp [String.append_assoc]
    · have hcheck : t.checkGolden p = .error (.violations p d.violations) := by
        simp [Tree.checkGolden, h, hv, bind, Except.bind]
      have hclean : t.isClean p = false := by simp [Tree.isClean, h, hv]
      refine ⟨"\n" ++ String.join (d.violations.map fun v => "       " ++ v.text ++ "\n"), ?_⟩
      rw [checkOne, hcheck, hclean]
      simp [String.append_assoc]
  | error f =>
    have hcheck : t.checkGolden p = .error f := by simp [Tree.checkGolden, h, bind, Except.bind]
    have hclean : t.isClean p = false := by simp [Tree.isClean, h]
    refine ⟨": " ++ f.message ++ "\n", ?_⟩
    rw [checkOne, hcheck, hclean]
    unfold Tree.loadGolden at h
    split at h
    next => cases h; simp [String.append_assoc]
    next =>
      split at h
      next => cases h; simp [String.append_assoc]
      next => cases h

theorem checkAll_eq (t : Tree) (paths : List Path) :
    checkAll t paths =
      let checked := paths.flatMap (filesOf t)
      { code := if ∀ p ∈ checked, t.isClean p = true then 0 else 1
        output := String.join (checked.map fun p => (checkOne t p).1) ++ "\nChecked: " ++
          toString checked.length ++ ", Failed: " ++
          toString (checked.countP fun p => !t.isClean p) ++ "\n" } := by
  have hcount : ((paths.flatMap (filesOf t)).map (checkOne t)).countP (fun r => !r.2) =
      (paths.flatMap (filesOf t)).countP fun p => !t.isClean p := by
    rw [List.countP_map]
    refine List.countP_congr fun p _ => ?_
    simp [checkOne_isClean]
  unfold checkAll
  simp only [hcount, List.map_map, List.length_map, List.countP_eq_zero, Bool.not_eq_true',
    Bool.not_eq_false]
  rfl

end Reports

/-- What the command makes of its arguments, of which there is at least one. It checks each argument
that is no directory, and for each directory everything directly in it under a name with the extension
`json`, in the strictly increasing order of the bytes of the names, each as often as it comes up. The
output has one report for each of them in this order, which names the path after the verdict, and the
numbers of all and of those that failed. The command succeeds exactly if each argument that is no
directory, and each file with the extension in an argument that is one, holds a record that keeps all
rules, and no directory stands in an argument under a name with the extension. -/
theorem check_verdict {t : Tree} {arguments : List String} {g : Given} (ht : t.WellFormed)
    (hg : rules.parse arguments = .given g) (hne : g.positionals ≠ []) :
    ∃ names : Path → List String,
      (∀ p l, t.locate p = .ok l → t.get? l = some .directory →
        (∀ name, name ∈ names p ↔
          Path.HasExtension "json" name ∧ t.get? (l ++ [name]) ≠ none) ∧
        (names p).Pairwise fun a b => Bytes.ofText a < Bytes.ofText b) ∧
      let given := g.positionals.map Path.mk
      let checked := given.flatMap fun p =>
        if t.isDirectory p then (names p).map p.join else [p]
      ((check arguments t).output = String.join (checked.map fun p => (checkOne t p).1) ++
          "\nChecked: " ++ toString checked.length ++ ", Failed: " ++
          toString (checked.countP fun p => !t.isClean p) ++ "\n" ∧
        (check arguments t).fatal = none ∧ ∀ p, ∃ rest, (checkOne t p).1 =
          (if t.isClean p then "  ok   " else "  FAIL ") ++ p.text ++ rest) ∧
      ((check arguments t).code = 0 ∨ (check arguments t).code = 1) ∧
      ((check arguments t).code = 0 ↔ ∀ p ∈ given,
        (t.isDirectory p = false → t.isClean p = true) ∧
        ∀ l, t.locate p = .ok l → t.get? l = some .directory →
          ∀ name, Path.HasExtension "json" name → t.get? (l ++ [name]) ≠ some .directory ∧
            ∀ content, t.get? (l ++ [name]) = some (.file content) →
              t.isClean (p.join name) = true) := by
  have hdone : check arguments t = checkAll t (g.positionals.map Path.mk) := by
    have hempty : g.positionals.isEmpty = false := by simpa using hne
    simp [check, hg, hempty]
  refine ⟨namesOf t, fun p l hl hg => ⟨fun name => mem_namesOf_iff ht hl hg,
    namesOf_increasing ht hl hg⟩, ?_⟩
  simp only [← filesOf_eq ht, ← forall_filesOf_iff ht]
  rw [hdone, checkAll_eq]
  refine ⟨⟨rfl, rfl, checkOne_text t⟩, ?_⟩
  dsimp only
  simp only [List.forall_mem_flatMap]
  split
  next h => simpa using h
  next h => simpa using h

namespace Sample

def content : Bytes := (Document.mk "a.pdf" "1" []).goldenBytes .full

/-- A directory with one golden file. -/
def sound : Tree where
  objects := [(["golden"], .directory), (["golden", "a.json"], .file content)]
  nodup := by decide

/-- The same with a directory in it that is named like a golden file. -/
def mixed : Tree where
  objects := [(["golden"], .directory), (["golden", "sub.json"], .directory),
    (["golden", "a.json"], .file content)]
  nodup := by decide

theorem evaluated :
    sound.readDirectory ⟨"golden"⟩ = .ok [⟨"golden/a.json"⟩] ∧
      mixed.readDirectory ⟨"golden"⟩ = .ok [⟨"golden/sub.json"⟩, ⟨"golden/a.json"⟩] ∧
      (Path.mk "golden/a.json").extension? = some "json" ∧
      (Path.mk "golden/sub.json").extension? = some "json" ∧
      nameLE ⟨"golden/sub.json"⟩ ⟨"golden/a.json"⟩ = false ∧
      checkOne sound ⟨"golden/a.json"⟩ = ("  ok   golden/a.json (0 pages)\n", true) ∧
      checkOne mixed ⟨"golden/a.json"⟩ = ("  ok   golden/a.json (0 pages)\n", true) ∧
      checkOne mixed ⟨"golden/sub.json"⟩ =
        ("  FAIL golden/sub.json: io error: Is a directory (os error 21)\n", false) := by
  decide +kernel

end Sample

theorem check_verdict_of_sound :
    let arguments := ["golden/a.json", "-d", "golden"]
    let g : Given := ⟨[("debug", "")], ["golden/a.json", "golden"]⟩
    Sample.sound.WellFormed ∧ rules.parse arguments = .given g ∧ g.positionals ≠ [] ∧
      (check arguments Sample.sound).code = 0 := by
  intro arguments g
  have ht : Sample.sound.WellFormed := by decide
  have hg : rules.parse arguments = .given g := rfl
  have hne : g.positionals ≠ [] := by decide
  have hclean : Sample.sound.isClean ⟨"golden/a.json"⟩ = true := by
    rw [← checkOne_isClean, Sample.evaluated.2.2.2.2.2.1]
  have hplace : ∀ name, Sample.sound.get? ["golden", name] =
      if name = "a.json" then some (.file Sample.content) else none := by
    intro name
    simp [Tree.get?, Location.IsGiven, Location.root, Sample.sound, Tree.lookup_cons_entry]
  obtain ⟨-, -, -, -, hcode⟩ := check_verdict ht hg hne
  refine ⟨ht, hg, hne, hcode.mpr fun p hp => ?_⟩
  have hgiven : p = ⟨"golden/a.json"⟩ ∨ p = ⟨"golden"⟩ := by simpa [g] using hp
  rcases hgiven with rfl | rfl
  · refine ⟨fun _ => hclean, fun l hl hd => ?_⟩
    have hfile : Sample.sound.locate ⟨"golden/a.json"⟩ = .ok ["golden", "a.json"] := rfl
    cases hfile.symm.trans hl
    simp [hplace] at hd
  · have hdirectory : Sample.sound.isDirectory ⟨"golden"⟩ = true := rfl
    refine ⟨fun hf => absurd (hdirectory.symm.trans hf) (by decide), fun l hl _ name _ => ?_⟩
    have hlocated : Sample.sound.locate ⟨"golden"⟩ = .ok ["golden"] := rfl
    cases hlocated.symm.trans hl
    rw [List.singleton_append, hplace]
    split
    next hname => exact ⟨by simp, fun _ _ => hname ▸ hclean⟩
    next => exact ⟨by simp, fun _ h => by cases h⟩

/-- A directory that is named like a golden file is counted and fails, though every regular file is
as it was. -/
theorem check_counts_directory :
    Sample.sound.WellFormed ∧ Sample.mixed.WellFormed ∧
      (∀ l content, Sample.mixed.get? l = some (.file content) ↔
        Sample.sound.get? l = some (.file content)) ∧
      check ["golden"] Sample.sound =
        ⟨0, "  ok   golden/a.json (0 pages)\n\nChecked: 1, Failed: 0\n", none⟩ ∧
      check ["golden"] Sample.mixed =
        ⟨1, "  ok   golden/a.json (0 pages)\n" ++
          "  FAIL golden/sub.json: io error: Is a directory (os error 21)\n" ++
          "\nChecked: 2, Failed: 1\n", none⟩ := by
  obtain ⟨hread, hread', ha, hsub, hle, hok, hok', hfail⟩ := Sample.evaluated
  have hsound : filesOf Sample.sound ⟨"golden"⟩ = [⟨"golden/a.json"⟩] := by
    simp [filesOf, hread, ha]
  have hmixed : filesOf Sample.mixed ⟨"golden"⟩ = [⟨"golden/a.json"⟩, ⟨"golden/sub.json"⟩] := by
    simp [filesOf, hread', ha, hsub, List.mergeSort, List.MergeSort.Internal.splitInTwo, hle]
  have hgiven : rules.parse ["golden"] = .given { positionals := ["golden"] } := rfl
  refine ⟨by decide, by decide, fun l content => ?_, ?_, ?_⟩
  · simp only [Tree.get?, Sample.mixed, Sample.sound, Tree.lookup_cons_entry]
    split
    next => rfl
    next =>
      split
      next => rfl
      next => split <;> simp_all
  · simp [check, hgiven, checkAll, hsound, hok]
    decide
  · simp [check, hgiven, checkAll, hmixed, hok', hfail]
    decide

end Check

end Cli

end GoldenRecord

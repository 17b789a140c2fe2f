import GoldenRecord.Proofs.Batch.InputDirectories
import GoldenRecord.Proofs.ByteOrder

namespace GoldenRecord

namespace Path

variable {directory : Path} {paths : List Path}

section Joined

variable (h : ∀ p ∈ paths, ∃ name, IsPlainName name ∧ p = directory.join name)

include h

/-- Paths directly inside a directory are known by their names. -/
theorem map_fileName? : (paths.filterMap fileName?).map directory.join = paths := by
  induction paths with
  | nil => rfl
  | cons p rest ih =>
    obtain ⟨name, hn, rfl⟩ := h p List.mem_cons_self
    rw [List.filterMap_cons_some (fileName?_join directory hn), List.map_cons,
      ih fun q hq => h q (List.mem_cons_of_mem _ hq)]

theorem mem_fileNames_iff {name : String} :
    name ∈ paths.filterMap fileName? ↔ IsPlainName name ∧ directory.join name ∈ paths := by
  rw [List.mem_filterMap]
  constructor
  · rintro ⟨p, hp, hname⟩
    obtain ⟨other, hn, rfl⟩ := h p hp
    rw [fileName?_join directory hn] at hname
    obtain rfl := Option.some.inj hname
    exact ⟨hn, hp⟩
  · rintro ⟨hn, hp⟩
    exact ⟨_, hp, fileName?_join directory hn⟩

/-- Different paths in an order that is the one of the names: the names are in the order of their
bytes. -/
theorem fileNames_increasing {le : Path → Path → Bool}
    (hle : ∀ name other, IsPlainName name → IsPlainName other →
      le (directory.join name) (directory.join other) = true → name ≤ other)
    (hsorted : paths.Pairwise fun p q => le p q = true) (hnodup : paths.Nodup) :
    (paths.filterMap fileName?).Pairwise fun a b => Bytes.ofText a < Bytes.ofText b := by
  have hpaths := hsorted.and hnodup
  rw [← map_fileName? h, List.pairwise_map] at hpaths
  refine hpaths.imp_of_mem ?_
  intro name other hname hother ⟨hordered, hne⟩
  have hnames := hle name other ((mem_fileNames_iff h).mp hname).1 ((mem_fileNames_iff h).mp hother).1
    hordered
  refine Bytes.ofText_lt (Classical.byContradiction fun hlt => ?_)
  exact hne (congrArg directory.join (String.le_antisymm hnames (String.not_lt.mp hlt)))

end Joined

end Path

namespace Batch

variable {c : Config} {t : Tree} {directory : Path}

/-- The names of the inputs that a path gives. -/
def namesIn (t : Tree) (c : Config) (directory : Path) : List String :=
  (foundIn t c directory).filterMap Path.fileName?

section Names

theorem foundIn_joined (ht : t.WellFormed) (hd : t.isDirectory directory = true) :
    ∀ p ∈ foundIn t c directory, ∃ name, Path.IsPlainName name ∧ p = directory.join name := by
  intro p hp
  obtain ⟨name, hn, he, -⟩ := (mem_foundIn_iff ht hd).mp hp
  exact ⟨name, hn, he⟩

theorem foundIn_eq_map (ht : t.WellFormed) (hd : t.isDirectory directory = true) :
    foundIn t c directory = (namesIn t c directory).map directory.join :=
  (Path.map_fileName? (foundIn_joined ht hd)).symm

theorem mem_namesIn_iff (ht : t.WellFormed) (hd : t.isDirectory directory = true) {name : String} :
    name ∈ namesIn t c directory ↔
      Path.IsPlainName name ∧ c.accepts t (directory.join name) = true := by
  rw [namesIn, Path.mem_fileNames_iff (foundIn_joined ht hd)]
  refine and_congr_right fun hn => ?_
  rw [mem_foundIn_iff ht hd]
  constructor
  · rintro ⟨-, -, -, haccepts⟩
    exact haccepts
  · intro haccepts
    exact ⟨name, hn, rfl, haccepts⟩

/-- The names are in the order of their bytes, and no name comes twice. -/
theorem namesIn_increasing (ht : t.WellFormed) (hd : t.isDirectory directory = true) :
    (namesIn t c directory).Pairwise fun a b => Bytes.ofText a < Bytes.ofText b := by
  refine Path.fileNames_increasing (foundIn_joined ht hd) (fun name other hn ho hle => ?_)
    (sorted_foundIn t c directory) (nodup_foundIn ht c directory)
  rwa [nameLE, Path.fileName?_join directory hn, Path.fileName?_join directory ho,
    decide_eq_true_eq] at hle

theorem mem_namesIn_iff_file (ht : t.WellFormed) {l : Location} (hl : t.locate directory = .ok l)
    (hg : t.get? l = some .directory) {name : String} :
    name ∈ namesIn t c directory ↔ Path.HasExtension c.extension name ∧ directory.Takes name ∧
      ∃ content, t.get? (l ++ [name]) = some (.file content) := by
  have hat := Tree.isAt_of_locate hl hg
  rw [mem_namesIn_iff ht (Tree.isDirectory_iff.mpr ⟨l, hl, hg⟩)]
  constructor
  · rintro ⟨hn, haccepts⟩
    obtain ⟨hext, hfile⟩ := accepts_iff.mp haccepts
    obtain ⟨htakes, hcontent⟩ := (hat.isFile_join_iff hn).mp hfile
    exact ⟨(Path.extension?_eq_some_iff (Path.fileName?_join directory hn)).mp hext,
      (hat.locate_join_iff_takes hn).mp htakes, hcontent⟩
  · rintro ⟨hext, htakes, content, hcontent⟩
    have hn := ht.isPlainName_of_file hcontent
    have hfile := (hat.isFile_join_iff hn).mpr
      ⟨(hat.locate_join_iff_takes hn).mpr htakes, content, hcontent⟩
    exact ⟨hn, accepts_iff.mpr
      ⟨(Path.extension?_eq_some_iff (Path.fileName?_join directory hn)).mpr hext, hfile⟩⟩

end Names

section Shuffled

variable {u : Tree}

theorem accepts_of_same (h : t.Same u) (c : Config) : c.accepts u = c.accepts t := by
  funext p
  unfold Config.accepts Tree.isFile
  rw [h.lookup p]

theorem isDirectory_of_same (h : t.Same u) : u.isDirectory = t.isDirectory := by
  funext p
  unfold Tree.isDirectory
  rw [h.lookup p]

theorem mergeSort_of_perm {names others : List String} (hperm : others.Perm names)
    (hplain : ∀ name ∈ names, Path.IsPlainName name) (accepts : Path → Bool) :
    ((others.map directory.join).filter accepts).mergeSort nameLE =
      ((names.map directory.join).filter accepts).mergeSort nameLE := by
  have hpaths := (hperm.map directory.join).filter accepts
  have hsorted := (List.mergeSort_perm _ nameLE).trans
    (hpaths.trans (List.mergeSort_perm _ nameLE).symm)
  refine eq_of_sorted_perm directory hsorted (fun p hp => ?_)
    (List.pairwise_mergeSort nameLE_trans nameLE_total _)
    (List.pairwise_mergeSort nameLE_trans nameLE_total _)
  obtain ⟨name, hname, rfl⟩ := List.mem_map.mp (List.mem_filter.mp (List.mem_mergeSort.mp hp)).1
  exact ⟨name, hplain name hname, rfl⟩

theorem discoverIn_of_shuffled (ht : t.WellFormed) (hsame : t.Same u)
    (hentries : ∀ l, (u.entries l).Perm (t.entries l)) (c : Config) (directory : Path) :
    discoverIn u c directory = discoverIn t c directory := by
  unfold discoverIn Tree.readDirectory
  rw [hsame.locate directory, accepts_of_same hsame c]
  cases t.locate directory with
  | error f => rfl
  | ok l =>
    simp only [bind, Except.bind, ← hsame.get? l]
    cases t.get? l with
    | none => rfl
    | some o =>
      cases o with
      | file content => rfl
      | directory =>
        exact congrArg Except.ok (mergeSort_of_perm (hentries l)
          (fun name hname => (ht.mem_entries_iff.mp hname).1) _)

theorem discover_of_shuffled (ht : t.WellFormed) (hsame : t.Same u)
    (hentries : ∀ l, (u.entries l).Perm (t.entries l)) (c : Config) (directories : List Path) :
    discover u c directories = discover t c directories := by
  induction directories with
  | nil => rfl
  | cons directory rest ih =>
    unfold discover
    rw [isDirectory_of_same hsame, discoverIn_of_shuffled ht hsame hentries, ih]

end Shuffled

/-- What a run takes is determined by the files. Its input directories that are there give, one after
the other and each time they are listed, the files directly inside that have a stem and the configured
extension and whose path the file system takes, in the strictly increasing order of the bytes of their
names. It takes the same ones if its directories show their entries in another order. -/
theorem discover_exact {inputs : List Path} (ht : t.WellFormed)
    (h : discover t c c.inputs = .ok inputs) :
    (∃ names : Path → List String,
      inputs = (c.inputs.filter t.isDirectory).flatMap (fun d => (names d).map d.join) ∧
      ∀ d l, t.locate d = .ok l → t.get? l = some .directory →
        (∀ name, name ∈ names d ↔ Path.HasExtension c.extension name ∧ d.Takes name ∧
          ∃ content, t.get? (l ++ [name]) = some (.file content)) ∧
        (names d).Pairwise fun a b => Bytes.ofText a < Bytes.ofText b) ∧
    ∀ u, t.Same u → (∀ l, (u.entries l).Perm (t.entries l)) →
      discover u c c.inputs = .ok inputs := by
  refine ⟨⟨namesIn t c, ?_, fun d l hl hg => ⟨fun name => mem_namesIn_iff_file ht hl hg, ?_⟩⟩,
    fun u hsame hentries => ?_⟩
  · rw [discover_eq_flatMap h, ← flatMap_foundIn_filter]
    rw [List.flatMap_def, List.flatMap_def]
    exact congrArg List.flatten (List.map_congr_left fun d hd =>
      foundIn_eq_map ht (List.mem_filter.mp hd).2)
  · exact namesIn_increasing ht (Tree.isDirectory_iff.mpr ⟨l, hl, hg⟩)
  · rw [discover_of_shuffled ht hsame hentries, h]

namespace Listed

/-- Names with dots where they count: only the files with a stem and the extension are inputs. -/
def objects : List (Location × Object) :=
  [(["in", "b.pdf"], .file []), (["in", "c.pdf."], .file []), (["in"], .directory),
    (["in", ".x.pdf"], .file []), (["in", ".pdf"], .file []), (["in", "d.pdf"], .directory)]

def tree : Tree := { objects, nodup := by decide }

def reversed : Tree := { objects := objects.reverse, nodup := by decide }

def config : Config := { inputs := [⟨"in"⟩, ⟨"in"⟩] }

theorem evaluated :
    tree.WellFormed ∧ tree.isDirectory ⟨"in"⟩ = true ∧
      tree.readDirectory ⟨"in"⟩ = .ok [⟨"in/b.pdf"⟩, ⟨"in/c.pdf."⟩, ⟨"in/.x.pdf"⟩, ⟨"in/.pdf"⟩,
        ⟨"in/d.pdf"⟩] ∧
      config.accepts tree ⟨"in/b.pdf"⟩ = true ∧ config.accepts tree ⟨"in/c.pdf."⟩ = false ∧
      config.accepts tree ⟨"in/.x.pdf"⟩ = true ∧ config.accepts tree ⟨"in/.pdf"⟩ = false ∧
      config.accepts tree ⟨"in/d.pdf"⟩ = false ∧ nameLE ⟨"in/b.pdf"⟩ ⟨"in/.x.pdf"⟩ = false := by
  decide +kernel

theorem discover_eq : discover tree config config.inputs =
    .ok [⟨"in/.x.pdf"⟩, ⟨"in/b.pdf"⟩, ⟨"in/.x.pdf"⟩, ⟨"in/b.pdf"⟩] := by
  obtain ⟨-, hin, hread, hb, hc, hx, hdot, hd, hle⟩ := evaluated
  have hfound : discoverIn tree config ⟨"in"⟩ = .ok [⟨"in/.x.pdf"⟩, ⟨"in/b.pdf"⟩] := by
    simp [discoverIn, hread, hb, hc, hx, hdot, hd, List.mergeSort,
      List.MergeSort.Internal.splitInTwo, hle]
  exact discover_cons hin hfound (discover_cons hin hfound rfl)

end Listed

theorem discover_exact_of_dots :
    Listed.tree.WellFormed ∧
      discover Listed.tree Listed.config Listed.config.inputs =
        .ok [⟨"in/.x.pdf"⟩, ⟨"in/b.pdf"⟩, ⟨"in/.x.pdf"⟩, ⟨"in/b.pdf"⟩] ∧
      discover Listed.reversed Listed.config Listed.config.inputs =
        .ok [⟨"in/.x.pdf"⟩, ⟨"in/b.pdf"⟩, ⟨"in/.x.pdf"⟩, ⟨"in/b.pdf"⟩] := by
  have hperm : Listed.reversed.objects.Perm Listed.tree.objects := List.reverse_perm _
  have ht := Listed.evaluated.1
  exact ⟨ht, Listed.discover_eq, (discover_exact ht Listed.discover_eq).2 Listed.reversed
    (Tree.same_of_perm rfl hperm) fun l => Tree.entries_perm hperm l⟩

namespace Detour

/-- The directory `in`, by way of itself. -/
def path : Nat → String
  | 0 => "in"
  | n + 1 => "./" ++ path n

def tree : Tree where
  objects := [(["in"], .directory), (["in", "ab.pdf"], .file [])]
  nodup := by decide

/-- An input directory by a path that can just be looked up. -/
def config : Config := { inputs := [⟨path 2045⟩] }

theorem size_path (n : Nat) : (path n).utf8ByteSize = 2 * n + 2 := by
  induction n with
  | zero => decide
  | succ n ih =>
    have hdot : ("./" : String).utf8ByteSize = 2 := by decide
    rw [path, String.utf8ByteSize_append, ih, hdot]
    omega

theorem toList_path (n : Nat) : (path (n + 1)).toList = '.' :: '/' :: (path n).toList := by
  rw [path, String.toList_append]
  rfl

theorem zero_not_mem_path (n : Nat) : '\x00' ∉ (path n).toList := by
  induction n with
  | zero => decide
  | succ n ih => simpa [toList_path] using ih

theorem pieceNames_path (n : Nat) :
    (Path.mk (path n)).pieceNames = List.replicate n "." ++ ["in"] := by
  induction n with
  | zero => decide
  | succ n ih =>
    have hpieces : Path.pieces ('.' :: '/' :: (path n).toList) =
        ['.'] :: Path.pieces (path n).toList := by simp [Path.pieces]
    unfold Path.pieceNames at ih ⊢
    rw [toList_path, hpieces, List.map_cons, ih]
    rfl

theorem lookupNames_path {n : Nat} (h : 2 * n + 2 ≤ Path.maxSize) :
    (Path.mk (path n)).lookupNames = .ok (Path.mk (path n)).pieceNames := by
  have hzero : (Path.mk (path n)).hasZero = false := by
    simpa [Path.hasZero] using zero_not_mem_path n
  have hne : path n ≠ "" := by
    intro hempty
    have hsize := size_path n
    rw [hempty, String.utf8ByteSize_empty] at hsize
    omega
  have hshort : ¬ Path.maxSize < (path n).utf8ByteSize := by
    rw [size_path]
    omega
  simp [Path.lookupNames, hzero, hne, hshort]

theorem locate_path {n : Nat} (h : 2 * n + 2 ≤ Path.maxSize) :
    tree.locate ⟨path n⟩ = .ok ["in"] := by
  have hstart : (Path.mk (path n)).start = [] := by
    have hrelative : (Path.mk (path n)).isAbsolute = false := by
      cases n with
      | zero => decide
      | succ n => simp [Path.isAbsolute, toList_path]
    simp [Path.start, hrelative]
  have hidle : ∀ k, tree.walk [] (List.replicate k ".") = .ok [] := by
    intro k
    induction k with
    | zero => rfl
    | succ k ih => rw [List.replicate_succ, Tree.walk_cons]; exact ih
  refine Tree.locate_ok_iff.mpr ⟨lookupNames_path h, ?_⟩
  rw [hstart, pieceNames_path, Tree.walk_concat_ok_iff]
  exact ⟨[], hidle n, by decide⟩

end Detour

/-- A directory whose path can just be looked up holds a file with the extension, and gives none:
the path of the file is too long. -/
theorem discover_misses_long_path :
    Detour.tree.WellFormed ∧ Detour.tree.locate ⟨Detour.path 2045⟩ = .ok ["in"] ∧
      Detour.tree.get? ["in"] = some .directory ∧
      Detour.tree.get? ["in", "ab.pdf"] = some (.file []) ∧
      Path.HasExtension Detour.config.extension "ab.pdf" ∧
      discover Detour.tree Detour.config Detour.config.inputs = .ok [] := by
  have ht : Detour.tree.WellFormed := by decide
  have hl : Detour.tree.locate ⟨Detour.path 2045⟩ = .ok ["in"] := Detour.locate_path (by decide)
  have hg : Detour.tree.get? ["in"] = some .directory := by decide
  have hd := Tree.isDirectory_iff.mpr ⟨_, hl, hg⟩
  refine ⟨ht, hl, hg, by decide, ⟨"ab", by decide, by decide, by decide⟩, ?_⟩
  have hnone : namesIn Detour.tree Detour.config ⟨Detour.path 2045⟩ = [] := by
    refine List.eq_nil_iff_forall_not_mem.mpr fun name hname => ?_
    obtain ⟨-, ⟨-, -, hsize⟩, content, hcontent⟩ := (mem_namesIn_iff_file ht hl hg).mp hname
    have hn := ht.isPlainName_of_file hcontent
    have hjoin := Path.size_join ⟨Detour.path 2045⟩ hn
    rw [Detour.size_path] at hjoin
    have hmem := Tree.mem_objects_of_get? (Tree.not_isGiven_of_plain hn) hcontent
    obtain ⟨rfl, -⟩ : name = "ab.pdf" ∧ content = [] := by simpa [Detour.tree] using hmem
    have hname : ("ab.pdf" : String).utf8ByteSize = 6 := by decide
    have hmax : Path.maxSize = 4095 := rfl
    omega
  have hfound : discoverIn Detour.tree Detour.config ⟨Detour.path 2045⟩ = .ok [] := by
    rw [discoverIn_of_isDirectory hd, foundIn_eq_map ht hd, hnone]
    rfl
  have hrest : discover Detour.tree Detour.config [] = .ok [] := rfl
  exact discover_cons hd hfound hrest

end Batch

end GoldenRecord

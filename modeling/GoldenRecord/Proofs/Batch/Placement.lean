import GoldenRecord.Batch.Run
import GoldenRecord.Proofs.Files.Naming

namespace GoldenRecord

namespace Path

theorem fileName?_no_slash {p : Path} {name : String} (h : p.fileName? = some name) :
    '/' ∉ name.toList := by
  obtain ⟨hlast, -⟩ := Option.filter_eq_some_iff.mp h
  have hmem : name ∈ p.components := List.mem_of_getLast? hlast
  exact no_slash_of_mem_pieceNames (List.mem_filter.mp hmem).1

theorem splitExtension_stem_subset {name : List Char} {c : Char}
    (h : c ∈ (splitExtension name).1) : c ∈ name := by
  simp only [splitExtension] at h
  split at h
  next => exact h
  next =>
    have hdrop := List.mem_reverse.mp (List.dropLast_subset _ h)
    exact List.mem_reverse.mp ((List.dropWhile_sublist _).subset hdrop)

end Path

namespace Batch

namespace Config

theorem artifactName_isPlain {p : Path} (h : p.fileName?.isSome) :
    Path.IsPlainName (artifactName p) := by
  obtain ⟨name, hname⟩ := Option.isSome_iff_exists.mp h
  have hstem : p.stem? = some (String.ofList (Path.splitExtension name.toList).1) := by
    simp [Path.stem?, hname]
  have hlist : (artifactName p).toList =
      (Path.splitExtension name.toList).1 ++ ['.', 'j', 's', 'o', 'n'] := by
    simp [artifactName, hstem]
  have hlong : ∀ s : String, s.toList.length < 5 → artifactName p ≠ s := by
    rintro s hs rfl
    simp only [hlist, List.length_append, List.length_cons, List.length_nil] at hs
    omega
  refine ⟨fun hm => ?_, ?_, hlong ".." (by decide)⟩
  · rw [hlist] at hm
    rcases List.mem_append.mp hm with hm | hm
    · exact Path.fileName?_no_slash hname (Path.splitExtension_stem_subset hm)
    · simp at hm
  · simp [Path.isIdle, hlong "" (by decide), hlong "." (by decide)]

/-- The name of a record has the stem of its input before `json`. -/
theorem artifactName_of_extension {p : Path} {extension : String}
    (h : p.extension? = some extension) :
    ∃ stem, artifactName p = stem ++ ".json" ∧ p.fileName? = some (stem ++ "." ++ extension) ∧
      stem.toList ≠ [] := by
  obtain ⟨stem, hstem, hname, hne⟩ := Path.fileName?_of_extension h
  exact ⟨stem, by simp [artifactName, hstem], hname, hne⟩

/-- Inputs with one extension and one name of their records have one name. -/
theorem fileName?_eq_of_artifactName {p q : Path} {extension : String}
    (hp : p.extension? = some extension) (hq : q.extension? = some extension)
    (h : artifactName p = artifactName q) : p.fileName? = q.fileName? := by
  obtain ⟨stem, hrecord, hname, -⟩ := artifactName_of_extension hp
  obtain ⟨stem', hrecord', hname', -⟩ := artifactName_of_extension hq
  have hstem : stem = stem' := by
    rw [hrecord, hrecord'] at h
    exact (String.append_left_inj _).mp h
  rw [hname, hname', hstem]

/-- A file with another extension does not have the name of a record. -/
theorem extension_of_artifactName {p q : Path} {extension extension' : String}
    (hp : p.extension? = some extension) (hq : q.extension? = some extension')
    (h : p.fileName? = some (artifactName q)) : extension = "json" := by
  obtain ⟨stem, hrecord, -, hne⟩ := artifactName_of_extension hq
  have hlist : (artifactName q).toList = stem.toList ++ '.' :: ['j', 's', 'o', 'n'] := by
    simp [hrecord]
  have hdot : '.' ∉ ['j', 's', 'o', 'n'] := by decide
  have hsplit := Path.splitExtension_append hne hdot
  have hjson : p.extension? = some (String.ofList ['j', 's', 'o', 'n']) := by
    simp [Path.extension?, h, hlist, hsplit]
  exact Option.some.inj (hp.symm.trans hjson)

/-- A record goes to the place of a file with an extension only if that is the one of records. -/
theorem extension_of_locate {c : Config} {t : Tree} {l : Location} {p q : Path}
    {extension extension' : String} (hp : p.extension? = some extension)
    (hq : q.extension? = some extension') (hl : t.locate p = .ok l)
    (hr : t.locate (c.artifact q) = .ok l) : extension = "json" := by
  obtain ⟨stem, -, hname, -⟩ := Path.fileName?_of_extension hp
  have hrecord : (c.artifact q).fileName? = some (artifactName q) := by
    obtain ⟨stem', -, hname', -⟩ := Path.fileName?_of_extension hq
    exact Path.fileName?_join c.output (artifactName_isPlain (by simp [hname']))
  obtain ⟨m, rfl⟩ := Tree.locate_fileName hname hl
  obtain ⟨m', he⟩ := Tree.locate_fileName hrecord hr
  have hsame : stem ++ "." ++ extension = artifactName q := by
    simpa using congrArg List.getLast? he
  exact extension_of_artifactName hp hq (hsame ▸ hname)

/-- The place of a name in a directory, if the file system takes the path to it. -/
theorem locate_artifact {c : Config} {t : Tree} {b l : Location} (hb : t.IsAt c.output b) {p : Path}
    (hp : p.fileName?.isSome) (h : t.locate (c.artifact p) = .ok l) : l = b ++ [artifactName p] := by
  have hplain := artifactName_isPlain hp
  exact Tree.enter_plain hplain.notIdle hplain.notUp ((hb.locate_join hplain).mp h).2

/-- Whether a path to a record leads anywhere does not depend on the files. -/
theorem locate_artifact_congr {c : Config} {t u : Tree} {b l : Location} (hb : t.IsAt c.output b)
    (hb' : u.IsAt c.output b) {p : Path} (hp : p.fileName?.isSome) :
    t.locate (c.artifact p) = .ok l ↔ u.locate (c.artifact p) = .ok l := by
  have hplain := artifactName_isPlain hp
  exact (hb.locate_join hplain).trans (hb'.locate_join hplain).symm

theorem locate_artifact_ne {c : Config} {t u : Tree} {b l m : Location} (hb : t.IsAt c.output b)
    (hb' : u.IsAt c.output b) {p q : Path} (hp : p.fileName?.isSome) (hq : q.fileName?.isSome)
    (hl : t.locate (c.artifact p) = .ok l) (hm : u.locate (c.artifact q) = .ok m)
    (hne : c.artifact p ≠ c.artifact q) : l ≠ m := by
  rintro rfl
  have hname : artifactName p = artifactName q := by
    have := (locate_artifact hb hp hl).symm.trans (locate_artifact hb' hq hm)
    simpa using this
  exact hne (by simp [artifact, hname])

end Config

theorem accepts_iff {c : Config} {t : Tree} {p : Path} :
    c.accepts t p = true ↔ p.extension? = some c.extension ∧ t.isFile p = true := by
  simp [Config.accepts]

theorem fileName?_isSome_of_accepts {c : Config} {t : Tree} {p : Path} (h : c.accepts t p = true) :
    p.fileName?.isSome := by
  obtain ⟨stem, -, hname, -⟩ := Path.fileName?_of_extension (accepts_iff.mp h).1
  simp [hname]

theorem mem_discoverIn {t : Tree} {c : Config} {directory : Path} {found : List Path}
    (h : discoverIn t c directory = .ok found) {p : Path} (hp : p ∈ found) :
    c.accepts t p = true := by
  unfold discoverIn at h
  split at h
  next => cases h
  next =>
    cases h
    exact (List.mem_filter.mp (List.mem_mergeSort.mp hp)).2

/-- A directory that shows a single entry, an input. -/
theorem discoverIn_single {t : Tree} {c : Config} {directory p : Path}
    (hread : t.readDirectory directory = .ok [p]) (hp : c.accepts t p = true) :
    discoverIn t c directory = .ok [p] := by
  simp [discoverIn, hread, hp]

theorem discover_cons {t : Tree} {c : Config} {directory : Path} {rest found more : List Path}
    (hd : t.isDirectory directory = true) (hf : discoverIn t c directory = .ok found)
    (hm : discover t c rest = .ok more) :
    discover t c (directory :: rest) = .ok (found ++ more) := by
  simp only [discover, hd, if_true, hf, hm, bind, Except.bind, pure, Except.pure]

theorem discover_cons_missing {t : Tree} {c : Config} {directory : Path} {rest : List Path}
    (hd : t.isDirectory directory = false) (hw : c.missing = .warn) :
    discover t c (directory :: rest) = discover t c rest := by
  simp [discover, hd, hw]

/-- Every discovered input is a file with the configured extension. -/
theorem mem_discover {t : Tree} {c : Config} {directories inputs : List Path}
    (h : discover t c directories = .ok inputs) {p : Path} (hp : p ∈ inputs) :
    c.accepts t p = true := by
  induction directories generalizing inputs with
  | nil => cases h; simp at hp
  | cons directory rest ih =>
    unfold discover at h
    split at h
    next =>
      obtain ⟨found, hf, h⟩ := bind_ok_iff.mp h
      obtain ⟨more, hm, h⟩ := bind_ok_iff.mp h
      cases h
      rcases List.mem_append.mp hp with hp | hp
      · exact mem_discoverIn hf hp
      · exact ih hm hp
    next =>
      split at h
      next => cases h
      next => exact ih h hp

end Batch

end GoldenRecord

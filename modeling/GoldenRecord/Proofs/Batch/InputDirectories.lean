import GoldenRecord.Proofs.Batch.Discovery
import GoldenRecord.Proofs.Batch.Skips
import Mathlib.Data.List.Perm.Basic

namespace GoldenRecord

namespace Batch

variable {State : Type} {e : Extractor State} {c : Config}

section Discovery

variable {t : Tree}

theorem discoverIn_of_isDirectory {directory : Path} (h : t.isDirectory directory = true) :
    discoverIn t c directory = .ok (foundIn t c directory) := by
  obtain ⟨entries, hread⟩ := Tree.isDirectory_iff_readDirectory.mp h
  simp [foundIn, discoverIn, hread, Except.toOption]

theorem discover_fatal (h : c.missing = .fatal) (directories : List Path) :
    discover t c directories =
      match directories.find? (fun d => !t.isDirectory d) with
      | some d => .error (.inputDirectoryMissing d)
      | none => .ok (directories.flatMap (foundIn t c)) := by
  induction directories with
  | nil => rfl
  | cons directory rest ih =>
    unfold discover
    split
    next hd =>
      rw [List.find?_cons_of_neg (by simp [hd]), ih, discoverIn_of_isDirectory hd]
      cases rest.find? (fun d => !t.isDirectory d) <;> rfl
    next hd =>
      rw [List.find?_cons_of_pos (by simpa using hd), h]

theorem discover_warn (h : c.missing = .warn) (directories : List Path) :
    discover t c directories = .ok (directories.flatMap (foundIn t c)) := by
  have hdirs : (∀ d ∈ directories, t.isDirectory d = true) ∨ c.missing = .warn := .inr h
  obtain ⟨inputs, hd⟩ := discover_of_directories hdirs
  rw [hd, discover_eq_flatMap hd]

theorem flatMap_foundIn_filter (t : Tree) (c : Config) (directories : List Path) :
    (directories.filter t.isDirectory).flatMap (foundIn t c) = directories.flatMap (foundIn t c) := by
  induction directories with
  | nil => rfl
  | cons directory rest ih =>
    cases hd : t.isDirectory directory with
    | true => simp [hd, ih]
    | false => simp [hd, ih, foundIn_of_not_isDirectory hd]

end Discovery

section Inputs

theorem processFile_inputs (e : Extractor State) (c : Config) (directories : List Path) (p : Path)
    (w : World State) :
    processFile e { c with inputs := directories } p w = processFile e c p w := by
  have hskip : { c with inputs := directories }.isSkipped p = c.isSkipped p := rfl
  have hartifact : { c with inputs := directories }.artifact p = c.artifact p := rfl
  unfold processFile
  rw [hskip, hartifact]

theorem settle_inputs (c : Config) (directories written : List Path) (p : Path) (outcome : Outcome)
    (t : Tree) :
    settle { c with inputs := directories } written p outcome t = settle c written p outcome t := by
  have hartifact : { c with inputs := directories }.artifact p = c.artifact p := rfl
  unfold settle
  rw [hartifact]

theorem handle_inputs (e : Extractor State) (c : Config) (directories written : List Path) (p : Path)
    (w : World State) :
    handle e { c with inputs := directories } written p w = handle e c written p w := by
  unfold handle
  simp only [processFile_inputs, settle_inputs]

/-- Beyond discovery, a run does not look at the list of input directories. -/
theorem processAll_inputs (e : Extractor State) (c : Config) (directories written inputs : List Path)
    (w : World State) :
    processAll e { c with inputs := directories } written inputs w =
      processAll e c written inputs w := by
  induction inputs generalizing written w with
  | nil => rfl
  | cons p rest ih =>
    unfold processAll
    simp only [handle_inputs, ih]

theorem foundIn_inputs (t : Tree) (c : Config) (directories : List Path) :
    foundIn t { c with inputs := directories } = foundIn t c := rfl

theorem run_inputs_congr {w : World State} {directories : List Path}
    (h : discover w.tree { c with inputs := directories } directories =
      discover w.tree c c.inputs) :
    run e { c with inputs := directories } w = run e c w := by
  unfold run
  dsimp only
  rw [h]
  simp only [processAll_inputs]

end Inputs

section Missing

/-- An input is not handled to its end if the extractor does not come back, or because of a file. -/
theorem handle_error {written : List Path} {p : Path} {w : World State} {s : Stop}
    (h : (handle e c written p w).1 = .error s) :
    (∃ halt, s = .halted halt) ∨ ∃ fault, s = .failed (.file fault) := by
  unfold handle at h
  split at h
  next halt _ _ => cases h; exact .inl ⟨halt, rfl⟩
  next =>
    split at h
    next hsettle =>
      cases h
      unfold settle removeStale at hsettle
      split at hsettle
      next => cases hsettle
      next =>
        split at hsettle
        next => cases hsettle
        next => cases hsettle
        next fault _ _ => cases hsettle; exact .inr ⟨fault, rfl⟩
    next => cases h

theorem processAll_error {written inputs : List Path} {w : World State} {s : Stop}
    (h : (processAll e c written inputs w).1 = .error s) :
    (∃ halt, s = .halted halt) ∨ ∃ fault, s = .failed (.file fault) := by
  induction inputs generalizing written w with
  | nil => cases h
  | cons p rest ih =>
    cases hhandle : handle e c written p w with
    | mk result after =>
      cases result with
      | error stop =>
        rw [processAll_cons_stop hhandle] at h
        cases h
        exact handle_error (congrArg Prod.fst hhandle)
      | ok outcome =>
        rw [processAll_cons_eq hhandle] at h
        dsimp only at h
        cases hlater : (processAll e c (noteWritten written outcome) rest after).1 with
        | error stop =>
          rw [hlater] at h
          cases h
          exact ih hlater
        | ok entries =>
          rw [hlater] at h
          cases h

theorem run_of_missing {w : World State} {d : Path}
    (h : discover w.tree c c.inputs = .error (.inputDirectoryMissing d)) :
    run e c w = (.error (.failed (.inputDirectoryMissing d)), w) := by
  unfold run
  rw [h]

/-- A run that tells of a missing directory ended before anything was done. -/
theorem discover_of_run_missing {w w' : World State} {d : Path}
    (h : run e c w = (.error (.failed (.inputDirectoryMissing d)), w')) :
    discover w.tree c c.inputs = .error (.inputDirectoryMissing d) := by
  cases hd : discover w.tree c c.inputs with
  | error f =>
    unfold run at h
    rw [hd] at h
    cases h
    rfl
  | ok inputs =>
    exfalso
    unfold run at h
    rw [hd] at h
    dsimp only at h
    split at h
    next => cases h
    next tree _ =>
      have hstopped := congrArg Prod.fst h
      cases hp : (processAll e c [] inputs { w with tree }).1 with
      | error s =>
        rcases processAll_error hp with ⟨halt, rfl⟩ | ⟨fault, rfl⟩ <;>
          simp [hp, Except.map] at hstopped
      | ok entries => simp [hp, Except.map] at hstopped

theorem discover_missing_iff {t : Tree} {d : Path} :
    discover t c c.inputs = .error (.inputDirectoryMissing d) ↔
      c.missing = .fatal ∧ c.inputs.find? (fun d => !t.isDirectory d) = some d := by
  cases hm : c.missing with
  | warn => simp [discover_warn hm]
  | fatal =>
    rw [discover_fatal hm]
    cases c.inputs.find? (fun d => !t.isDirectory d) <;> simp

/-- A run tells of a missing input directory exactly if that is to be an error and there is one. It
names the first one, and has then neither changed anything nor asked the extractor for a document.
Where it is no error, a run is the one over the directories that are there. -/
theorem run_missing_directories (e : Extractor State) (c : Config) (w : World State) :
    ((∃ d w', run e c w = (.error (.failed (.inputDirectoryMissing d)), w')) ↔
      c.missing = .fatal ∧ ∃ d ∈ c.inputs, w.tree.isDirectory d = false) ∧
    (∀ d w', run e c w = (.error (.failed (.inputDirectoryMissing d)), w') →
      c.inputs.find? (fun d => !w.tree.isDirectory d) = some d ∧ w' = w ∧
        ∀ opened, run e.logged c (w.logged opened) =
          (.error (.failed (.inputDirectoryMissing d)), w.logged opened)) ∧
    (c.missing = .warn →
      run e c w = run e { c with inputs := c.inputs.filter w.tree.isDirectory } w) := by
  refine ⟨⟨?_, ?_⟩, fun d w' h => ?_, fun hwarn => ?_⟩
  · rintro ⟨d, w', h⟩
    obtain ⟨hfatal, hfind⟩ := discover_missing_iff.mp (discover_of_run_missing h)
    exact ⟨hfatal, d, List.mem_of_find?_eq_some hfind, by simpa using List.find?_some hfind⟩
  · rintro ⟨hfatal, d, hmem, hd⟩
    have hsome : (c.inputs.find? fun d => !w.tree.isDirectory d).isSome := by
      rw [List.find?_isSome]
      exact ⟨d, hmem, by simp [hd]⟩
    obtain ⟨first, hfirst⟩ := Option.isSome_iff_exists.mp hsome
    exact ⟨first, w, run_of_missing (discover_missing_iff.mpr ⟨hfatal, hfirst⟩)⟩
  · have hd := discover_of_run_missing h
    obtain ⟨-, hfind⟩ := discover_missing_iff.mp hd
    rw [run_of_missing hd] at h
    exact ⟨hfind, (congrArg Prod.snd h).symm, fun opened => run_of_missing (w := w.logged opened) hd⟩
  · refine (run_inputs_congr ?_).symm
    rw [discover_warn hwarn, discover_warn (by exact hwarn), foundIn_inputs, flatMap_foundIn_filter]

end Missing

section Order

variable {answer : Path → Except Stop Document} {w w' : World State} {b : Location}
  {inputs others : List Path} {entries : List Entry}

/-- Where no other input has its record, what an input leaves there is a matter of whether it was
written, not of when. -/
theorem processAll_content_alone (steady : Steady e answer) (hb : w.tree.IsAt c.output b)
    (hin : ∀ p ∈ inputs, p.fileName?.isSome)
    (h : processAll e c [] inputs w = (.ok entries, w')) {p : Path} (hp : p ∈ inputs)
    (halone : ∀ q ∈ inputs, c.artifact q = c.artifact p → q = p) :
    w'.tree.content? (c.artifact p) =
      if entries.any (·.wrote (c.artifact p)) then
        (answer p).toOption.map (·.goldenBytes c.profile)
      else none := by
  have hanswers : AnswersAs e c answer (visits e c [] inputs w) := fun v _ _ => steady _ _ _
  rw [processAll_content hb hin hanswers h (hin p hp)]
  cases hlast : lastWriter (c.artifact p) entries with
  | none =>
    have hany : entries.any (·.wrote (c.artifact p)) = false :=
      List.any_eq_false.mpr fun x hx => by simp [lastWriter_eq_none hlast x hx]
    simp [List.mem_map_of_mem hp, hany]
  | some x =>
    obtain ⟨hx, hwrote⟩ := lastWriter_eq_some hlast
    have hmem : x.path ∈ inputs := processAll_paths h ▸ List.mem_map_of_mem hx
    have hany : entries.any (·.wrote (c.artifact p)) = true := List.any_eq_true.mpr ⟨x, hx, hwrote⟩
    have hsame := (succeeded_of_wrote hb hin hanswers h hx hwrote).1
    rw [if_pos hany, ← halone x.path hmem hsame]

/-- The same inputs in another order, each with a record of its own: the run comes to an end as well,
and leaves the same files. -/
theorem processAll_perm (steady : Steady e answer) (hb : w.tree.IsAt c.output b)
    (hin : ∀ p ∈ inputs, p.fileName?.isSome)
    (halone : ∀ p ∈ inputs, ∀ q ∈ inputs, c.artifact p = c.artifact q → p = q)
    (hperm : others.Perm inputs) (h : processAll e c [] inputs w = (.ok entries, w')) :
    ∃ entries' w'', processAll e c [] others w = (.ok entries', w'') ∧
      w''.tree.Same w'.tree ∧ entries'.Perm entries := by
  have hin' : ∀ p ∈ others, p.fileName?.isSome := fun p hp => hin p (hperm.mem_iff.mp hp)
  obtain ⟨entries', w'', hrun⟩ :=
    processAll_ends_again steady hb hin h (.refl w.tree) hperm.subset
  have hmixed : entries'.Perm entries := by
    rw [← List.map_perm_map_iff Entry.parts_injective, processAll_entries steady hb (.refl w.tree) hin' hrun,
      processAll_entries steady hb (.refl w.tree) hin h]
    exact hperm.map _
  have hplaces : ∀ p ∈ inputs, c.artifact p ∈ inputs.map c.artifact :=
    fun p hp => List.mem_map_of_mem hp
  have hplaces' : ∀ p ∈ others, c.artifact p ∈ inputs.map c.artifact :=
    fun p hp => hplaces p (hperm.mem_iff.mp hp)
  refine ⟨entries', w'', hrun, (processAll_rewritten_at hb hin' hplaces' hrun).same
    (processAll_rewritten_at hb hin hplaces h) fun a ha => ?_, hmixed⟩
  -- either run leaves there what the one input of this record has written, or nothing
  obtain ⟨p, hp, rfl⟩ := List.mem_map.mp ha
  rw [processAll_content_alone steady hb hin h hp fun q hq => halone q hq p hp,
    processAll_content_alone steady hb hin' hrun (hperm.mem_iff.mpr hp) fun q hq =>
      halone q (hperm.mem_iff.mp hq) p hp, hmixed.any_eq]

/-- The directories of a run in another order give the same inputs in another order. -/
theorem discover_perm {t : Tree} {directories : List Path} {found : List Path}
    (hperm : directories.Perm c.inputs) (h : discover t c c.inputs = .ok found) :
    ∃ others, discover t { c with inputs := directories } directories = .ok others ∧
      others.Perm found := by
  have hdirs : (∀ d ∈ directories, t.isDirectory d = true) ∨ c.missing = .warn :=
    (directories_of_discover h).imp_left fun hall d hd => hall d (hperm.mem_iff.mp hd)
  obtain ⟨others, hd⟩ :=
    discover_of_directories (c := { c with inputs := directories }) hdirs
  refine ⟨others, hd, ?_⟩
  rw [discover_eq_flatMap hd, discover_eq_flatMap h, foundIn_inputs]
  exact hperm.flatMap_right _

/-- Where different discovered inputs have different names, the order of the input directories does
not matter to a run on recorded documents: if it ends with a report in one order it does so in every
other one, leaves the same file tree, and has the same entries in its report, in another order. -/
theorem run_perm_directories (m : MemoryExtractor) {c : Config} {w w' : World Nat} {r : Report}
    {found directories : List Path} (hperm : directories.Perm c.inputs)
    (hd : discover w.tree c c.inputs = .ok found)
    (hnames : ∀ p ∈ found, ∀ q ∈ found, p.fileName? = q.fileName? → p = q)
    (h : run m.toExtractor c w = (.ok r, w')) :
    ∃ r' w'', run m.toExtractor { c with inputs := directories } w = (.ok r', w'') ∧
      w''.tree.Same w'.tree ∧ r'.entries.Perm r.entries := by
  obtain ⟨inputs, tree, hd', hc, hp⟩ := run_ok h
  obtain rfl : found = inputs := Except.ok.inj (hd.symm.trans hd')
  obtain ⟨b, hb⟩ := Tree.createDirectory_ok hc
  have hin : ∀ p ∈ found, p.fileName?.isSome :=
    fun p hp => fileName?_isSome_of_accepts (mem_discover hd hp)
  have halone : ∀ p ∈ found, ∀ q ∈ found, c.artifact p = c.artifact q → p = q := by
    intro p hp q hq hsame
    exact hnames p hp q hq
      (fileName?_eq_of_artifact (mem_discover hd hp) (mem_discover hd hq) hsame)
  obtain ⟨others, hd'', hothers⟩ := discover_perm hperm hd
  obtain ⟨entries', w'', hp', hsame, hentries⟩ :=
    processAll_perm (memory_steady m) (w := { w with tree }) hb hin halone hothers hp
  refine ⟨⟨entries'⟩, w'', ?_, hsame, hentries⟩
  rw [run_of_discover hd'' hc, processAll_inputs, hp']
  rfl

namespace Spread

/-- Two directories with an input each, and a record left over from an earlier run. -/
def tree : Tree where
  objects := [(["a"], .directory), (["a", "y.pdf"], .file []), (["b"], .directory),
    (["b", "x.pdf"], .file []), (["out"], .directory), (["out", "y.json"], .file [1])]
  nodup := by decide

def config (inputs : List Path) : Config := { inputs, output := ⟨"out"⟩, skips := .empty }

/-- The two directories in one order. -/
def forth : Config := config [⟨"a"⟩, ⟨"b"⟩]

def handled : Except Stop (List Entry) × World Nat :=
  processAll Sample.memory.toExtractor forth [] [⟨"a/y.pdf"⟩, ⟨"b/x.pdf"⟩] ⟨tree, 0⟩

theorem evaluated :
    (tree.isDirectory ⟨"a"⟩ = true ∧ tree.isDirectory ⟨"b"⟩ = true ∧
      tree.isDirectory ⟨"out"⟩ = true ∧ tree.readDirectory ⟨"a"⟩ = .ok [⟨"a/y.pdf"⟩] ∧
      tree.readDirectory ⟨"b"⟩ = .ok [⟨"b/x.pdf"⟩] ∧ forth.accepts tree ⟨"a/y.pdf"⟩ = true ∧
      forth.accepts tree ⟨"b/x.pdf"⟩ = true) ∧
    handled.1.isOk = true ∧ handled.2.tree.get? ["out", "y.json"] = none ∧
      (handled.2.tree.get? ["out", "x.json"]).isSome = true := by
  simp only [handled, processAll, handle, processFile, MemoryExtractor.extract_eq]
  decide +kernel

end Spread

/-- The first of the two inputs loses the record of an earlier run, the second one has one written. -/
theorem run_perm_directories_of_two :
    [⟨"b"⟩, ⟨"a"⟩].Perm Spread.forth.inputs ∧
      discover Spread.tree Spread.forth Spread.forth.inputs =
        .ok [⟨"a/y.pdf"⟩, ⟨"b/x.pdf"⟩] ∧
      ∃ r w, run Sample.memory.toExtractor Spread.forth ⟨Spread.tree, 0⟩ = (.ok r, w) ∧
        w.tree.get? ["out", "y.json"] = none ∧ (w.tree.get? ["out", "x.json"]).isSome = true ∧
        ∃ r' w', run Sample.memory.toExtractor (Spread.config [⟨"b"⟩, ⟨"a"⟩]) ⟨Spread.tree, 0⟩ =
          (.ok r', w') ∧ w'.tree.Same w.tree ∧ r'.entries.Perm r.entries := by
  obtain ⟨⟨ha, hb, hout, hreada, hreadb, hy, hx⟩, hok, hgone, hleft⟩ := Spread.evaluated
  have hperm : [⟨"b"⟩, ⟨"a"⟩].Perm Spread.forth.inputs := List.Perm.swap _ _ _
  have hd : discover Spread.tree Spread.forth Spread.forth.inputs =
      .ok [⟨"a/y.pdf"⟩, ⟨"b/x.pdf"⟩] :=
    discover_cons ha (discoverIn_single hreada hy)
      (discover_cons hb (discoverIn_single hreadb hx) rfl)
  have hrun := run_of_discover (e := Sample.memory.toExtractor) (w := ⟨Spread.tree, 0⟩) hd
    (Tree.createDirectory_of_isDirectory hout)
  change run _ _ _ = (Spread.handled.1.map Report.mk, Spread.handled.2) at hrun
  cases hentries : Spread.handled.1 with
  | error f => simp [hentries, Except.isOk, Except.toBool] at hok
  | ok entries =>
    rw [hentries] at hrun
    have hnames : ∀ p ∈ [⟨"a/y.pdf"⟩, ⟨"b/x.pdf"⟩], ∀ q ∈ [⟨"a/y.pdf"⟩, ⟨"b/x.pdf"⟩],
        Path.fileName? p = Path.fileName? q → p = q := by decide +kernel
    exact ⟨hperm, hd, _, _, hrun, hgone, hleft,
      run_perm_directories Sample.memory hperm hd hnames hrun⟩

end Order

end Batch

end GoldenRecord

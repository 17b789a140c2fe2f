import GoldenRecord.Proofs.Batch.Frame
import GoldenRecord.Proofs.Batch.Resilience
import GoldenRecord.Proofs.Extractor.OpenLog

namespace GoldenRecord

namespace Tree

theorem lookup_of_content?_eq_none {t : Tree} {p : Path} (h : t.IsReplaceable p)
    (hc : t.content? p = none) : t.lookup p = .error .notFound := by
  obtain ⟨l, hl, hd⟩ := h
  have hnone : t.get? l = none := by
    cases hg : t.get? l with
    | none => rfl
    | some o =>
      cases o with
      | directory => exact absurd hg hd
      | file content =>
        rw [content?_eq_some_iff.mpr ⟨l, hl, hg⟩] at hc
        cases hc
  simp only [lookup, hl, hnone, bind, Except.bind]

end Tree

namespace Batch

variable {State : Type} {e : Extractor State} {c : Config}

theorem isSkipped_processFile {p : Path} {w : World State} {outcome : Outcome}
    (h : (processFile e c p w).1 = .ok outcome) : outcome.isSkipped = c.isSkipped p := by
  rcases processFile_ends e c p w with
    ⟨hs, hf⟩ | ⟨hs, halt, -, hf⟩ | ⟨hs, f, -, hf⟩ | ⟨hs, d, f, -, -, hf⟩ | ⟨hs, d, l, -, -, hf⟩ <;>
    rw [hf] at h <;> cases h <;> rw [hs] <;> rfl

theorem processAll_isSkipped {written inputs : List Path} {w w' : World State} {entries : List Entry}
    (h : processAll e c written inputs w = (.ok entries, w')) :
    entries.map (fun x => (x.path, x.outcome.isSkipped)) = inputs.map fun p => (p, c.isSkipped p) := by
  induction inputs generalizing written w entries with
  | nil => cases h; rfl
  | cons p rest ih =>
    obtain ⟨outcome, after, more, hhandle, hrest, rfl⟩ := processAll_cons_ok h
    rw [List.map_cons, List.map_cons, ih hrest, isSkipped_processFile (handle_ok hhandle).1]

section Logged

/-- The world of an observed extractor. -/
def World.logged (w : World State) (opened : List Path) : World (State × List Path) :=
  ⟨w.tree, (w.state, opened)⟩

def unskipped (c : Config) (inputs : List Path) : List Path := inputs.filter fun p => !c.isSkipped p

theorem processFile_logged (e : Extractor State) (c : Config) (p : Path) (w : World State)
    (opened : List Path) :
    processFile e.logged c p (w.logged opened) =
      ((processFile e c p w).1, (processFile e c p w).2.logged (opened ++ unskipped c [p])) := by
  unfold processFile unskipped
  by_cases hs : c.isSkipped p = true
  · simp [hs, World.logged]
  · have hx := e.logged_extract opened w.tree p w.state
    simp only [hs, World.logged, Bool.false_eq_true, if_false]
    rw [hx]
    cases e.extract w.tree p w.state with
    | mk result state =>
      cases result with
      | error s => cases s <;> simp [hs]
      | ok d =>
        dsimp only
        cases w.tree.writeAtomic (c.artifact p) (d.goldenBytes c.profile) with
        | mk done tree => cases done <;> simp [hs]

theorem handle_logged (e : Extractor State) (c : Config) (written : List Path) (p : Path)
    (w : World State) (opened : List Path) :
    handle e.logged c written p (w.logged opened) =
      ((handle e c written p w).1, (handle e c written p w).2.logged (opened ++ unskipped c [p])) := by
  unfold handle
  rw [processFile_logged]
  generalize processFile e c p w = handled
  obtain ⟨result, after⟩ := handled
  cases result with
  | error h => rfl
  | ok outcome =>
    dsimp only [World.logged]
    cases settle c written p outcome after.tree <;> rfl

theorem processAll_logged {written inputs : List Path} {w : World State} (opened : List Path) :
    processAll e.logged c written inputs (w.logged opened) =
      ((processAll e c written inputs w).1, (processAll e c written inputs w).2.logged
        (opened ++ unskipped c ((visits e c written inputs w).map (·.1)))) := by
  induction inputs generalizing written w opened with
  | nil => simp [processAll, visits, unskipped]
  | cons p rest ih =>
    have hlogged := handle_logged e c written p w opened
    cases hhandle : handle e c written p w with
    | mk result after =>
      rw [hhandle] at hlogged
      cases result with
      | error s =>
        rw [processAll_cons_stop hhandle, processAll_cons_stop hlogged, visits_cons_stop hhandle]
        rfl
      | ok outcome =>
        rw [processAll_cons_eq hhandle, processAll_cons_eq hlogged, visits_cons hhandle, ih,
          List.map_cons]
        generalize (visits e c (noteWritten written outcome) rest after).map (·.1) = paths
        have hunskipped : unskipped c (p :: paths) = unskipped c [p] ++ unskipped c paths :=
          List.filter_append [p] paths
        rw [hunskipped, ← List.append_assoc]

/-- A run over some inputs that comes to an end has come to each of them. -/
theorem visits_paths {written inputs : List Path} {w w' : World State} {entries : List Entry}
    (h : processAll e c written inputs w = (.ok entries, w')) :
    (visits e c written inputs w).map (·.1) = inputs := by
  induction inputs generalizing written w entries with
  | nil => rfl
  | cons p rest ih =>
    obtain ⟨outcome, after, more, hhandle, hrest, -⟩ := processAll_cons_ok h
    rw [visits_cons hhandle, List.map_cons, ih hrest]

end Logged

/-- Inputs share a record only if they share a name, since all have one extension. -/
theorem fileName?_eq_of_artifact {t : Tree} {p q : Path} (hp : c.accepts t p = true)
    (hq : c.accepts t q = true) (h : c.artifact p = c.artifact q) : p.fileName? = q.fileName? := by
  have hname : Config.artifactName p = Config.artifactName q :=
    Path.join_injective (Config.artifactName_isPlain (fileName?_isSome_of_accepts hp))
      (Config.artifactName_isPlain (fileName?_isSome_of_accepts hq)) h
  exact Config.fileName?_eq_of_artifactName (accepts_iff.mp hp).1 (accepts_iff.mp hq).1 hname

theorem isSkipped_congr {t : Tree} {p q : Path} (hp : c.accepts t p = true)
    (hq : c.accepts t q = true) (h : c.artifact p = c.artifact q) :
    c.isSkipped p = c.isSkipped q := by
  have hfile := fileName?_eq_of_artifact hp hq h
  rw [sourceName_of_accepts hp, sourceName_of_accepts hq] at hfile
  unfold Config.isSkipped
  rw [Option.some.inj hfile]

/-- An observed run opens the inputs that are not skipped, once each in the order of discovery, and
ends as it would without being observed. -/
theorem run_logged {w w' : World State} {r : Report} {inputs : List Path}
    (hd : discover w.tree c c.inputs = .ok inputs) (h : run e c w = (.ok r, w')) :
    run e.logged c (w.logged []) = (.ok r, w'.logged (unskipped c inputs)) := by
  obtain ⟨found, tree, hd', hc, hp⟩ := run_ok h
  obtain rfl : inputs = found := Except.ok.inj (hd.symm.trans hd')
  have hlogged : processAll e.logged c [] inputs (World.logged { w with tree } []) =
      (.ok r.entries, w'.logged (unskipped c inputs)) := by
    rw [processAll_logged, visits_paths hp, hp, List.nil_append]
  rw [run_of_discover (w := w.logged []) hd hc]
  exact congrArg (fun handled => (handled.1.map Report.mk, handled.2)) hlogged

/-- On recorded documents, the entries of a run tell of each discovered input, in that order, whether
its name is on the skip list. The others alone were opened, once each. Nothing is at the place of the
record of a skipped input afterwards. -/
theorem run_skips (m : MemoryExtractor) {c : Config} {w w' : World Nat} {r : Report}
    (h : run m.toExtractor c w = (.ok r, w')) :
    ∃ inputs, discover w.tree c c.inputs = .ok inputs ∧
      (∀ p ∈ inputs, p.fileName? = some p.sourceName) ∧
      r.entries.map (fun x => (x.path, x.outcome.isSkipped)) =
        inputs.map (fun p => (p, c.skips.contains p.sourceName)) ∧
      run m.toExtractor.logged c (w.logged []) =
        (.ok r, w'.logged (inputs.filter fun p => !c.skips.contains p.sourceName)) ∧
      ∀ p ∈ inputs, c.skips.contains p.sourceName = true →
        w'.tree.lookup (c.artifact p) = .error .notFound := by
  obtain ⟨inputs, tree, hd, hc, hp⟩ := run_ok h
  obtain ⟨b, hb⟩ := Tree.createDirectory_ok hc
  have haccepts := fun p hp => mem_discover (p := p) hd hp
  have hnames : ∀ p ∈ inputs, p.fileName?.isSome :=
    fun p hp => fileName?_isSome_of_accepts (haccepts p hp)
  have hskips := processAll_isSkipped hp
  refine ⟨inputs, hd, fun p hp => sourceName_of_accepts (haccepts p hp), hskips,
    run_logged hd h, fun p hmem hskipped => ?_⟩
  have hreplaceable : w'.tree.IsReplaceable (c.artifact p) := by
    have hall := isReplaceable_of_processAll (w := { w with tree }) hb (.refl tree) hnames hp
    have hdirs := processAll_sameDirectories m.toExtractor c [] inputs { w with tree }
    rw [hp] at hdirs
    exact (hb.isReplaceable_congr (Config.artifactName_isPlain (hnames p hmem)) hdirs).mpr
      (hall p hmem)
  refine Tree.lookup_of_content?_eq_none hreplaceable ?_
  have hsteady := memory_answersAs m c (visits m.toExtractor c [] inputs { w with tree })
  rw [processAll_content hb hnames hsteady hp (hnames p hmem)]
  cases hlast : lastWriter (c.artifact p) r.entries with
  | none => simp [List.mem_map_of_mem hmem]
  | some x =>
    -- a writer of this record would be an input with the same name, which is skipped as well
    obtain ⟨hx, hwrote⟩ := lastWriter_eq_some hlast
    have hentry : (x.path, x.outcome.isSkipped) ∈ inputs.map fun p => (p, c.isSkipped p) :=
      hskips ▸ List.mem_map_of_mem hx
    obtain ⟨q, hq, hpair⟩ := List.mem_map.mp hentry
    obtain ⟨hpath, hskip⟩ := Prod.mk.inj hpair
    cases ho : x.outcome with
    | skipped => simp [Entry.wrote, ho] at hwrote
    | failed reason => simp [Entry.wrote, ho] at hwrote
    | succeeded s =>
      obtain ⟨d, -, rfl⟩ := processAll_succeeded hb hnames hsteady hp hx ho
      have hsame : c.artifact p = c.artifact q := by
        rw [hpath]
        exact (by simpa [Entry.wrote, ho] using hwrote : c.artifact x.path = c.artifact p).symm
      have hcongr := isSkipped_congr (haccepts p hmem) (haccepts q hq) hsame
      rw [hskip, ho] at hcongr
      exact absurd (hcongr.symm.trans hskipped) (by simp [Outcome.isSkipped])

/-- The sample with one of its names on the skip list. -/
def Sample.skipping : Config := { Sample.config with skips := .ofList ["y.pdf"] }

/-- What is discovered does not depend on the skip list. -/
theorem discover_skips (t : Tree) (c : Config) (names : NameSet) (directories : List Path) :
    discover t { c with skips := names } directories = discover t c directories := by
  induction directories with
  | nil => rfl
  | cons directory rest ih =>
    unfold discover
    rw [ih]
    rfl

theorem run_skips_of_stale_record :
    ∃ r w, run Sample.memory.toExtractor Sample.skipping ⟨Sample.tree, 0⟩ = (.ok r, w) ∧
      r.entries.map (fun x => (x.path, x.outcome.isSkipped)) =
        [(⟨"a/x.pdf"⟩, false), (⟨"a/y.pdf"⟩, true), (⟨"b/x.pdf"⟩, false)] ∧
      Sample.tree.isFile ⟨"out/y.json"⟩ = true ∧ w.tree.lookup ⟨"out/y.json"⟩ = .error .notFound ∧
      run Sample.memory.toExtractor.logged Sample.skipping (World.logged ⟨Sample.tree, 0⟩ []) =
        (.ok r, w.logged [⟨"a/x.pdf"⟩, ⟨"b/x.pdf"⟩]) := by
  have hd : discover (World.mk Sample.tree 0).tree Sample.skipping Sample.skipping.inputs =
      .ok [⟨"a/x.pdf"⟩, ⟨"a/y.pdf"⟩, ⟨"b/x.pdf"⟩] :=
    (discover_skips Sample.tree Sample.config _ _).trans Sample.discover_eq
  have hok : (run Sample.memory.toExtractor Sample.skipping ⟨Sample.tree, 0⟩).1.isOk = true := by
    unfold run
    rw [hd]
    simp only [processAll, handle, processFile, MemoryExtractor.extract_eq]
    decide +kernel
  cases hrun : run Sample.memory.toExtractor Sample.skipping ⟨Sample.tree, 0⟩ with
  | mk result w =>
    rw [hrun] at hok
    cases result with
    | error f => cases hok
    | ok r =>
      obtain ⟨inputs, hd', -, hentries, hlogged, hgone⟩ := run_skips Sample.memory hrun
      obtain rfl := Except.ok.inj (hd.symm.trans hd')
      have hlisted : [⟨"a/x.pdf"⟩, ⟨"a/y.pdf"⟩, ⟨"b/x.pdf"⟩].map
          (fun p : Path => (p, Sample.skipping.skips.contains p.sourceName)) =
            [(⟨"a/x.pdf"⟩, false), (⟨"a/y.pdf"⟩, true), (⟨"b/x.pdf"⟩, false)] := by decide +kernel
      have hopened : [⟨"a/x.pdf"⟩, ⟨"a/y.pdf"⟩, ⟨"b/x.pdf"⟩].filter
          (fun p : Path => !Sample.skipping.skips.contains p.sourceName) =
            [⟨"a/x.pdf"⟩, ⟨"b/x.pdf"⟩] := by decide +kernel
      have hplace : Sample.skipping.artifact ⟨"a/y.pdf"⟩ = ⟨"out/y.json"⟩ := by decide +kernel
      refine ⟨r, w, rfl, hentries.trans hlisted, by decide +kernel, ?_, ?_⟩
      · exact hplace ▸ hgone ⟨"a/y.pdf"⟩ (by simp) (by decide +kernel)
      · exact hopened ▸ hlogged

end Batch

end GoldenRecord

import GoldenRecord.Proofs.Batch.Artifacts
import GoldenRecord.Proofs.Files.Verdict

namespace GoldenRecord

namespace Batch

variable {State : Type} {e : Extractor State} {c : Config}

theorem processFile_sameDirectories (e : Extractor State) (c : Config) (p : Path) (w : World State) :
    w.tree.SameDirectories (processFile e c p w).2.tree := by
  rcases processFile_cases e c p w with ⟨d, -, -, -, hw⟩ | ⟨-, hsame⟩
  · exact Tree.writeAtomic_sameDirectories hw
  · exact hsame ▸ .refl w.tree

theorem removeStale_sameDirectories {t u : Tree} {artifact : Path}
    (h : removeStale t artifact = .ok u) : t.SameDirectories u := by
  unfold removeStale at h
  split at h
  next hr => cases h; exact Tree.removeFile_sameDirectories hr
  next => cases h; exact .refl t
  next => cases h

/-- No step of a run makes or removes a directory. -/
theorem settle_sameDirectories {written : List Path} {p : Path} {outcome : Outcome} {t u : Tree}
    (h : settle c written p outcome t = .ok u) : t.SameDirectories u := by
  unfold settle at h
  split at h
  next => cases h; exact .refl t
  next => exact removeStale_sameDirectories h

/-- What a file and its settling keep, the handling of an input keeps, wherever it stops. -/
theorem handle_induction {P : Tree → Prop} {written : List Path} {p : Path} {w : World State}
    (file : ∀ p (w : World State), P w.tree → P (processFile e c p w).2.tree)
    (settled : ∀ written p outcome t u, P t → settle c written p outcome t = .ok u → P u)
    (h : P w.tree) : P (handle e c written p w).2.tree := by
  have hfile := file p w h
  unfold handle
  split
  next hv => rwa [hv] at hfile
  next hv =>
    rw [hv] at hfile
    split
    next => exact hfile
    next hu => exact settled _ _ _ _ _ hfile hu

/-- What the handling of an input keeps, a run over some inputs keeps, wherever it stops. -/
theorem processAll_induction {P : Tree → Prop}
    (step : ∀ written p (w : World State), P w.tree → P (handle e c written p w).2.tree)
    {written inputs : List Path} {w : World State} (h : P w.tree) :
    P (processAll e c written inputs w).2.tree := by
  induction inputs generalizing written w with
  | nil => exact h
  | cons p rest ih =>
    have hstep := step written p w h
    cases hhandle : handle e c written p w with
    | mk result after =>
      rw [hhandle] at hstep
      cases result with
      | error s =>
        rw [processAll_cons_stop hhandle]
        exact hstep
      | ok outcome =>
        rw [processAll_cons_eq hhandle]
        exact ih hstep

theorem handle_sameDirectories (e : Extractor State) (c : Config) (written : List Path) (p : Path)
    (w : World State) : w.tree.SameDirectories (handle e c written p w).2.tree :=
  handle_induction (P := fun u => w.tree.SameDirectories u)
    (fun p v hv => hv.trans (processFile_sameDirectories e c p v))
    (fun _ _ _ _ _ hv hu => hv.trans (settle_sameDirectories hu)) (.refl w.tree)

theorem processAll_sameDirectories (e : Extractor State) (c : Config) (written inputs : List Path)
    (w : World State) : w.tree.SameDirectories (processAll e c written inputs w).2.tree :=
  processAll_induction (P := fun u => w.tree.SameDirectories u)
    (fun written p v hv => hv.trans (handle_sameDirectories e c written p v)) (.refl w.tree)

/-- The answers of an extractor do not depend on the files, nor on what it was asked before. -/
def Steady (e : Extractor State) (answer : Path → Except Stop Document) : Prop :=
  ∀ t p s, (e.extract t p s).1 = answer p

theorem memory_steady (m : MemoryExtractor) : Steady m.toExtractor m.answer :=
  fun t p s => congrArg Prod.fst (m.extract_eq t p s)

variable {answer : Path → Except Stop Document}

/-- The outcome of an input, from the answer of the extractor and the directories. -/
theorem processFile_outcome (steady : Steady e answer) (p : Path) (w : World State) :
    (processFile e c p w).1 =
      if c.isSkipped p then .ok .skipped
      else match answer p with
        | .error (.halted h) => .error h
        | .error (.failed f) => .ok (.failed f.message)
        | .ok d =>
          match (w.tree.writeAtomic (c.artifact p) (d.goldenBytes c.profile)).1 with
          | .error f => .ok (.failed (Failure.file f).message)
          | .ok () => .ok (.succeeded ⟨c.artifact p, d.counts⟩) := by
  unfold processFile
  split
  next => rfl
  next =>
    have hanswer := steady w.tree p w.state
    cases hx : e.extract w.tree p w.state with
    | mk result state =>
      rw [hx] at hanswer
      obtain rfl : result = answer p := hanswer
      cases answer p with
      | error s => cases s <;> rfl
      | ok d =>
        dsimp only
        cases w.tree.writeAtomic (c.artifact p) (d.goldenBytes c.profile) with
        | mk written tree => cases written <;> rfl

theorem processFile_outcome_congr (steady : Steady e answer) {p : Path} (hp : p.fileName?.isSome)
    {w w' : World State} {b : Location} (hb : w.tree.IsAt c.output b)
    (hs : w.tree.SameDirectories w'.tree) : (processFile e c p w').1 = (processFile e c p w).1 := by
  rw [processFile_outcome steady, processFile_outcome steady]
  simp only [Config.artifact, hb.writeAtomic_congr (Config.artifactName_isPlain hp) hs]

def Entry.parts (x : Entry) : String × Path × Except Halt Outcome := (x.source, x.path, .ok x.outcome)

theorem Entry.parts_injective : Function.Injective Entry.parts := by
  rintro ⟨source, p, outcome⟩ ⟨source', p', outcome'⟩ h
  cases h
  rfl

/-- Every input has the outcome that it has alone, in the world in which the run begins. -/
theorem processAll_entries (steady : Steady e answer) {written inputs : List Path}
    {w w₁ w' : World State} {b : Location} {entries : List Entry} (hb : w.tree.IsAt c.output b)
    (hs : w.tree.SameDirectories w₁.tree) (hin : ∀ p ∈ inputs, p.fileName?.isSome)
    (h : processAll e c written inputs w₁ = (.ok entries, w')) :
    entries.map Entry.parts = inputs.map fun p => (p.sourceName, p, (processFile e c p w).1) := by
  induction inputs generalizing written w₁ entries with
  | nil => cases h; rfl
  | cons p rest ih =>
    obtain ⟨outcome, after, more, hhandle, hrest, rfl⟩ := processAll_cons_ok h
    have hstep := handle_sameDirectories e c written p w₁
    rw [hhandle] at hstep
    have hmore := ih (hs.trans hstep) (fun q hq => hin q (List.mem_cons_of_mem _ hq)) hrest
    have halone := processFile_outcome_congr steady (hin p List.mem_cons_self) hb hs
    rw [List.map_cons, List.map_cons, hmore, ← halone, (handle_ok hhandle).1]
    rfl

theorem Outcome.exactly_one (o : Outcome) :
    (if o.isSucceeded then 1 else 0) + (if o.isSkipped then 1 else 0) +
      (if o.isFailed then 1 else 0) = 1 := by
  cases o <;> rfl

theorem Report.totals (r : Report) : r.succeeded + r.skipped + r.failed = r.entries.length := by
  unfold succeeded skipped failed
  induction r.entries with
  | nil => rfl
  | cons x rest ih =>
    have hone := x.outcome.exactly_one
    simp only [List.countP_cons, List.length_cons]
    omega

theorem sourceName_of_accepts {t : Tree} {p : Path} (h : c.accepts t p = true) :
    p.fileName? = some p.sourceName := by
  obtain ⟨name, hname⟩ := Option.isSome_iff_exists.mp (fileName?_isSome_of_accepts h)
  simp [Path.sourceName, hname]

/-- A report on recorded documents has one entry per discovered input in that order, under its file
name, and the outcome in it is the one that the input has alone on the tree before the first of
them, whatever became of the others. -/
theorem run_entries_alone (m : MemoryExtractor) {c : Config} {w w' : World Nat} {r : Report}
    (h : run m.toExtractor c w = (.ok r, w')) :
    ∃ inputs tree, discover w.tree c c.inputs = .ok inputs ∧
      w.tree.createDirectory c.output = (.ok (), tree) ∧
      (∀ released, r.entries.map (fun x => (x.source, x.path, Except.ok x.outcome)) =
        inputs.map fun p => (p.sourceName, p, (processFile m.toExtractor c p ⟨tree, released⟩).1)) ∧
      (∀ p ∈ inputs, p.fileName? = some p.sourceName) ∧
      r.succeeded + r.skipped + r.failed = inputs.length := by
  obtain ⟨inputs, tree, hd, hc, hp⟩ := run_ok h
  obtain ⟨b, hb⟩ := Tree.createDirectory_ok hc
  have haccepts := fun p hp => mem_discover (p := p) hd hp
  have hentries := fun released => processAll_entries (w := ⟨tree, released⟩) (memory_steady m) hb
    (.refl tree) (fun p hp => fileName?_isSome_of_accepts (haccepts p hp)) hp
  refine ⟨inputs, tree, hd, hc, hentries, fun p hp => sourceName_of_accepts (haccepts p hp), ?_⟩
  rw [r.totals]
  simpa only [List.length_map] using congrArg List.length (hentries 0)

theorem run_entries_alone_of_two_directories :
    (run Sample.memory.toExtractor Sample.config ⟨Sample.tree, 0⟩).1 = .ok Sample.report ∧
      Sample.report.entries.map (fun x => (x.source, x.path, Except.ok x.outcome)) =
        [⟨"a/x.pdf"⟩, ⟨"a/y.pdf"⟩, ⟨"b/x.pdf"⟩].map (fun p =>
          (p.sourceName, p, (processFile Sample.memory.toExtractor Sample.config p
            ⟨(Sample.tree.createDirectory ⟨"out"⟩).2, 0⟩).1)) ∧
      Sample.report.succeeded + Sample.report.skipped + Sample.report.failed = 3 := by
  obtain ⟨inputs, tree, hd, hc, hentries, -, htotal⟩ :=
    run_entries_alone Sample.memory (Prod.ext Sample.run_eq rfl)
  cases Sample.discover_eq.symm.trans hd
  refine ⟨Sample.run_eq, ?_, htotal⟩
  have htree : (Sample.tree.createDirectory ⟨"out"⟩).2 = tree := congrArg Prod.snd hc
  rw [htree]
  exact hentries 0

end Batch

end GoldenRecord

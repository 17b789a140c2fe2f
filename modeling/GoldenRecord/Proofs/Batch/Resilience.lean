import GoldenRecord.Proofs.Batch.Isolation

namespace GoldenRecord

namespace Batch

variable {State : Type} {e : Extractor State} {c : Config}

theorem discover_of_directories {t : Tree} {directories : List Path}
    (h : (∀ d ∈ directories, t.isDirectory d = true) ∨ c.missing = .warn) :
    ∃ inputs, discover t c directories = .ok inputs := by
  induction directories with
  | nil => exact ⟨[], rfl⟩
  | cons directory rest ih =>
    obtain ⟨more, hmore⟩ := ih (h.imp_left fun hall d hd => hall d (List.mem_cons_of_mem _ hd))
    unfold discover
    split
    next hd =>
      obtain ⟨entries, hentries⟩ := Tree.isDirectory_iff_readDirectory.mp hd
      simp only [discoverIn, hentries, hmore, bind, Except.bind]
      exact ⟨_, rfl⟩
    next hd =>
      have hwarn : c.missing = .warn := h.resolve_left fun hall => hd (hall _ List.mem_cons_self)
      rw [hwarn]
      exact ⟨more, hmore⟩

theorem removeStale_ok_iff {t : Tree} {b : Location} (hb : t.IsAt c.output b) {p : Path}
    (hp : p.fileName?.isSome) :
    (∃ u, removeStale t (c.artifact p) = .ok u) ↔ t.IsReplaceable (c.artifact p) := by
  unfold removeStale Config.artifact
  rw [← hb.removeFile_join_iff (Config.artifactName_isPlain hp)]
  cases t.removeFile (c.output.join (Config.artifactName p)) with
  | ok u => simp
  | error f => cases f <;> simp

/-- The handling of an input does not come back exactly if its extraction does not. -/
theorem processFile_halted_iff {p : Path} {w : World State} {h : Halt} :
    (processFile e c p w).1 = .error h ↔
      c.isSkipped p = false ∧ (e.extract w.tree p w.state).1 = .error (.halted h) := by
  rcases processFile_ends e c p w with
    ⟨hs, hf⟩ | ⟨hs, h, hx, hf⟩ | ⟨hs, f, hx, hf⟩ | ⟨hs, d, f, hx, -, hf⟩ | ⟨hs, d, l, hx, -, hf⟩ <;>
    rw [hf] <;> simp [*]

/-- Whenever one of these inputs is handed to the extractor, it comes back. -/
def ComesBack (e : Extractor State) (c : Config) (handled : List (Path × World State)) : Prop :=
  ∀ v ∈ handled, c.isSkipped v.1 = false →
    ∀ h, (e.extract v.2.tree v.1 v.2.state).1 ≠ .error (.halted h)

theorem memory_comesBack (m : MemoryExtractor) (c : Config) (handled : List (Path × World Nat)) :
    ComesBack m.toExtractor c handled := by
  intro v _ _ h hv
  rw [m.extract_eq] at hv
  unfold MemoryExtractor.answer at hv
  cases hopen : m.openDocument v.1 with
  | error f => rw [hopen] at hv; cases hv
  | ok d => rw [hopen] at hv; cases hv

section Steps

variable {t : Tree} {written : List Path} {p : Path} {rest : List Path} {w after : World State}
  {b : Location} {outcome : Outcome}

/-- An input can be settled if its record was written, now or before, or if what stands at its path
can be removed; the directories with which the run began decide. -/
theorem settle_ok_iff (hb : t.IsAt c.output b) (hs : t.SameDirectories w.tree)
    (hp : p.fileName?.isSome) (hwritten : ∀ a ∈ written, t.IsReplaceable a)
    (ho : (processFile e c p w).1 = .ok outcome) :
    (∃ u, settle c written p outcome (processFile e c p w).2.tree = .ok u) ↔
      t.IsReplaceable (c.artifact p) := by
  have hplain := Config.artifactName_isPlain hp
  have hafter := hs.trans (processFile_sameDirectories e c p w)
  unfold settle
  split
  next hdone =>
    refine ⟨fun _ => ?_, fun _ => ⟨_, rfl⟩⟩
    rcases hdone with hsucceeded | hmem
    · rcases processFile_cases e c p w with ⟨d, -, -, -, hw⟩ | ⟨hnone, -⟩
      · exact (hb.isReplaceable_congr hplain hs).mp (Tree.isReplaceable_of_writeAtomic hw)
      · rw [hnone outcome ho] at hsucceeded
        cases hsucceeded
    · exact hwritten _ hmem
  next =>
    rw [removeStale_ok_iff (hb.mono hafter.directoriesIn) hp]
    exact hb.isReplaceable_congr hplain hafter

/-- An input is handled to its end exactly if its extraction comes back and its record could be
replaced. -/
theorem handle_ok_iff (hb : t.IsAt c.output b) (hs : t.SameDirectories w.tree)
    (hp : p.fileName?.isSome) (hwritten : ∀ a ∈ written, t.IsReplaceable a) :
    (∃ outcome after, handle e c written p w = (.ok outcome, after)) ↔
      t.IsReplaceable (c.artifact p) ∧
        (c.isSkipped p = false → ∀ h, (e.extract w.tree p w.state).1 ≠ .error (.halted h)) := by
  have hback : (c.isSkipped p = false → ∀ h, (e.extract w.tree p w.state).1 ≠ .error (.halted h)) ↔
      ∀ h, (processFile e c p w).1 ≠ .error h := by
    simp only [ne_eq, processFile_halted_iff, not_and]
    exact forall_comm
  rw [hback]
  unfold handle
  cases hfile : processFile e c p w with
  | mk result v =>
    cases result with
    | error h => simp
    | ok outcome =>
      have hsettle := settle_ok_iff hb hs hp hwritten (congrArg Prod.fst hfile)
      rw [hfile] at hsettle
      rw [← hsettle]
      dsimp only
      cases settle c written p outcome v.tree <;> simp

theorem mem_noteWritten {a : Path} (ho : (processFile e c p w).1 = .ok outcome)
    (h : a ∈ noteWritten written outcome) : a = c.artifact p ∨ a ∈ written := by
  rcases processFile_cases e c p w with ⟨d, -, -, hd, -⟩ | ⟨hnone, -⟩
  · cases ho.symm.trans hd
    exact List.mem_cons.mp h
  · rw [noteWritten_of_not_succeeded (hnone outcome ho)] at h
    exact .inr h

theorem comesBack_cons (h : handle e c written p w = (.ok outcome, after)) :
    ComesBack e c (visits e c written (p :: rest) w) ↔
      (c.isSkipped p = false → ∀ h, (e.extract w.tree p w.state).1 ≠ .error (.halted h)) ∧
        ComesBack e c (visits e c (noteWritten written outcome) rest after) := by
  rw [visits_cons h]
  exact List.forall_mem_cons

end Steps

/-- The inputs are all handled exactly if everything at the paths of their records was replaceable
at the beginning, and the extractor comes back from each of them. -/
theorem processAll_ok_iff {t : Tree} {written inputs : List Path} {w : World State} {b : Location}
    (hb : t.IsAt c.output b) (hs : t.SameDirectories w.tree) (hin : ∀ p ∈ inputs, p.fileName?.isSome)
    (hwritten : ∀ a ∈ written, t.IsReplaceable a) :
    (∃ entries, (processAll e c written inputs w).1 = .ok entries) ↔
      (∀ p ∈ inputs, t.IsReplaceable (c.artifact p)) ∧
        ComesBack e c (visits e c written inputs w) := by
  induction inputs generalizing written w with
  | nil => simp [processAll, visits, ComesBack]
  | cons p rest ih =>
    have hhandle := handle_ok_iff (e := e) hb hs (hin p List.mem_cons_self) hwritten
    cases hresult : handle e c written p w with
    | mk result after =>
      rw [hresult] at hhandle
      cases result with
      | error s =>
        rw [processAll_cons_stop hresult, visits_cons_stop hresult]
        refine iff_of_false (by simp) fun h => ?_
        have hp := hhandle.mpr ⟨h.1 p List.mem_cons_self, h.2 (p, w) List.mem_cons_self⟩
        simp at hp
      | ok outcome =>
        obtain ⟨hfree, hback⟩ := hhandle.mp ⟨outcome, after, rfl⟩
        have hstep := handle_sameDirectories e c written p w
        rw [hresult] at hstep
        have hnoted : ∀ a ∈ noteWritten written outcome, t.IsReplaceable a := by
          intro a ha
          rcases mem_noteWritten (handle_ok hresult).1 ha with rfl | ha
          · exact hfree
          · exact hwritten a ha
        have hrest := ih (hs.trans hstep) (fun q hq => hin q (List.mem_cons_of_mem _ hq)) hnoted
        rw [List.forall_mem_cons, comesBack_cons hresult, processAll_cons_eq hresult,
          and_iff_right hfree, and_iff_right hback, ← hrest]
        dsimp only
        cases (processAll e c (noteWritten written outcome) rest after).1 <;> simp [Except.map]

/-- Inputs that are all handled have nothing in the way of their records. -/
theorem isReplaceable_of_processAll {t : Tree} {inputs : List Path} {w w' : World State}
    {entries : List Entry} {b : Location} (hb : t.IsAt c.output b) (hs : t.SameDirectories w.tree)
    (hin : ∀ p ∈ inputs, p.fileName?.isSome) (h : processAll e c [] inputs w = (.ok entries, w')) :
    ∀ p ∈ inputs, t.IsReplaceable (c.artifact p) :=
  ((processAll_ok_iff (e := e) hb hs hin fun _ ha => absurd ha List.not_mem_nil).mp
    ⟨entries, congrArg Prod.fst h⟩).1

/-- An extractor whose answers are steady comes back from inputs that were all handled. -/
theorem answer_ne_halted {answer : Path → Except Stop Document} (steady : Steady e answer)
    {inputs : List Path} {w w' : World State} {entries : List Entry} {b : Location}
    (hb : w.tree.IsAt c.output b) (hin : ∀ p ∈ inputs, p.fileName?.isSome)
    (h : processAll e c [] inputs w = (.ok entries, w')) {p : Path} (hp : p ∈ inputs)
    (hs : c.isSkipped p = false) (halt : Halt) : answer p ≠ .error (.halted halt) := by
  intro ha
  have hmem : (p.sourceName, p, (processFile e c p w).1) ∈ entries.map Entry.parts := by
    rw [processAll_entries steady hb (.refl w.tree) hin h]
    exact List.mem_map_of_mem hp
  obtain ⟨x, -, hx⟩ := List.mem_map.mp hmem
  have houtcome := congrArg (·.2.2) hx
  rw [processFile_halted_iff.mpr ⟨hs, (steady _ _ _).trans ha⟩] at houtcome
  cases houtcome

/-- Where inputs were all handled, so are some of them in any order, with the same directories. -/
theorem processAll_ends_again {answer : Path → Except Stop Document} (steady : Steady e answer)
    {inputs others : List Path} {w w' v : World State} {entries : List Entry} {b : Location}
    (hb : w.tree.IsAt c.output b) (hin : ∀ p ∈ inputs, p.fileName?.isSome)
    (h : processAll e c [] inputs w = (.ok entries, w')) (hs : w.tree.SameDirectories v.tree)
    (hsub : others ⊆ inputs) :
    ∃ entries' v', processAll e c [] others v = (.ok entries', v') := by
  have hfree := isReplaceable_of_processAll hb (.refl w.tree) hin h
  have hback : ComesBack e c (visits e c [] others v) := by
    intro u hu hskip halt ha
    exact answer_ne_halted steady hb hin h (hsub (mem_visits hu)) hskip halt
      ((steady _ _ _).symm.trans ha)
  obtain ⟨entries', hentries⟩ := (processAll_ok_iff hb hs (fun p hp => hin p (hsub hp))
    fun _ ha => absurd ha List.not_mem_nil).mpr ⟨fun p hp => hfree p (hsub hp), hback⟩
  exact ⟨entries', _, Prod.ext hentries rfl⟩

theorem processAll_paths {written inputs : List Path} {w w' : World State} {entries : List Entry}
    (h : processAll e c written inputs w = (.ok entries, w')) : entries.map (·.path) = inputs := by
  induction inputs generalizing written w entries with
  | nil => cases h; rfl
  | cons p rest ih =>
    obtain ⟨outcome, after, more, -, hrest, rfl⟩ := processAll_cons_ok h
    rw [List.map_cons, ih hrest]

/-- If the input directories are there, or need not be, and the output directory is there or can be
made, then a run ends with a report exactly if at the start no directory stands where the record of
an input goes and the file system takes its path, and the extractor comes back from every input that
the run comes to. The report then has one entry per input, in the order of discovery; no skip, failed
extraction or failed write stops a run. -/
theorem run_reports_iff (e : Extractor State) {c : Config} {w : World State}
    (hinputs : (∀ d ∈ c.inputs, w.tree.isDirectory d = true) ∨ c.missing = .warn)
    (houtput : w.tree.isDirectory c.output = true ∨ (w.tree.createDirectory c.output).1 = .ok ()) :
    ∃ inputs tree, discover w.tree c c.inputs = .ok inputs ∧
      w.tree.createDirectory c.output = (.ok (), tree) ∧
      ((∃ r, (run e c w).1 = .ok r) ↔
        (∀ p ∈ inputs, tree.IsReplaceable (c.artifact p)) ∧ ComesBack e c (runVisits e c w)) ∧
      ∀ r, (run e c w).1 = .ok r → r.entries.map (·.path) = inputs := by
  obtain ⟨inputs, hd⟩ := discover_of_directories hinputs
  have hmade : (w.tree.createDirectory c.output).1 = .ok () :=
    houtput.elim (fun h => by rw [Tree.createDirectory_of_isDirectory h]) id
  generalize htree : (w.tree.createDirectory c.output).2 = tree
  have hc : w.tree.createDirectory c.output = (.ok (), tree) := Prod.ext hmade htree
  obtain ⟨b, hb⟩ := Tree.createDirectory_ok hc
  have hrun : (run e c w).1 = (processAll e c [] inputs { w with tree }).1.map Report.mk := by
    unfold run
    simp only [hd, hc]
  have hall : (∃ entries, (processAll e c [] inputs { w with tree }).1 = .ok entries) ↔ _ :=
    processAll_ok_iff hb (.refl tree)
      (fun p hp => fileName?_isSome_of_accepts (mem_discover hd hp))
      fun a ha => absurd ha List.not_mem_nil
  have hvisits : runVisits e c w = visits e c [] inputs { w with tree } := by
    simp only [runVisits, hd, hc]
  refine ⟨inputs, tree, hd, hc, ?_, fun r hr => ?_⟩
  · rw [hrun, hvisits, ← hall]
    cases (processAll e c [] inputs { w with tree }).1 <;> simp [Except.map]
  · rw [hrun] at hr
    cases hp : processAll e c [] inputs { w with tree } with
    | mk result after =>
      rw [hp] at hr
      cases result with
      | error f => cases hr
      | ok entries =>
        cases hr
        exact processAll_paths hp

theorem run_reports_of_two_directories :
    (∀ d ∈ Sample.config.inputs, Sample.tree.isDirectory d = true) ∧
      Sample.tree.isDirectory Sample.config.output = true ∧
      (∃ r, (run Sample.memory.toExtractor Sample.config ⟨Sample.tree, 0⟩).1 = .ok r ∧
        r.entries.map (·.path) = [⟨"a/x.pdf"⟩, ⟨"a/y.pdf"⟩, ⟨"b/x.pdf"⟩]) := by
  have hinputs : ∀ d ∈ Sample.config.inputs, Sample.tree.isDirectory d = true := by decide +kernel
  have houtput : Sample.tree.isDirectory Sample.config.output = true := by decide +kernel
  obtain ⟨inputs, tree, hd, hc, hiff, hpaths⟩ :=
    run_reports_iff Sample.memory.toExtractor (w := ⟨Sample.tree, 0⟩) (.inl hinputs) (.inl houtput)
  cases Sample.discover_eq.symm.trans hd
  cases (Tree.createDirectory_of_isDirectory houtput).symm.trans hc
  have hfree : ∀ p ∈ [⟨"a/x.pdf"⟩, ⟨"a/y.pdf"⟩, ⟨"b/x.pdf"⟩],
      Sample.tree.IsReplaceable (Sample.config.artifact p) := by
    have hx : Sample.tree.IsReplaceable ⟨"out/x.json"⟩ := ⟨["out", "x.json"], by decide +kernel⟩
    have hy : Sample.tree.IsReplaceable ⟨"out/y.json"⟩ := ⟨["out", "y.json"], by decide +kernel⟩
    have hartifacts : Sample.config.artifact ⟨"a/x.pdf"⟩ = ⟨"out/x.json"⟩ ∧
        Sample.config.artifact ⟨"a/y.pdf"⟩ = ⟨"out/y.json"⟩ ∧
        Sample.config.artifact ⟨"b/x.pdf"⟩ = ⟨"out/x.json"⟩ := by decide +kernel
    simp [hartifacts, hx, hy]
  obtain ⟨r, hr⟩ := hiff.mpr ⟨hfree, memory_comesBack Sample.memory _ _⟩
  exact ⟨hinputs, houtput, r, hr, hpaths r hr⟩

/-- The exception: a directory stands where the record of an unreadable document goes. The run fails
although its directories are there, and the next document is not handled. -/
theorem run_stopped_by_directory :
    let t : Tree :=
      { objects := [(["in"], .directory), (["in", "a.pdf"], .file []), (["in", "b.pdf"], .file []),
          (["out"], .directory), (["out", "a.json"], .directory)]
        nodup := by decide }
    let c : Config := { inputs := [⟨"in"⟩], output := ⟨"out"⟩, skips := .empty }
    let m : MemoryExtractor :=
      ⟨"1", .ofList [("a.pdf", .unreadable "locked"), ("b.pdf", .pages [])]⟩
    (∀ d ∈ c.inputs, t.isDirectory d = true) ∧ t.isDirectory c.output = true ∧
      discover t c c.inputs = .ok [⟨"in/a.pdf"⟩, ⟨"in/b.pdf"⟩] ∧
      (run m.toExtractor c ⟨t, 0⟩).1 = .error (.failed (.file .isADirectory)) ∧
      (run m.toExtractor c ⟨t, 0⟩).2.tree.isFile ⟨"out/b.json"⟩ = false := by
  intro t c m
  have hd : discover t c c.inputs = .ok [⟨"in/a.pdf"⟩, ⟨"in/b.pdf"⟩] := by
    have hread : t.readDirectory ⟨"in"⟩ = .ok [⟨"in/a.pdf"⟩, ⟨"in/b.pdf"⟩] := by decide +kernel
    have hin : t.isDirectory ⟨"in"⟩ = true := by decide +kernel
    have haccepts : [⟨"in/a.pdf"⟩, ⟨"in/b.pdf"⟩].filter (c.accepts t) =
        [⟨"in/a.pdf"⟩, ⟨"in/b.pdf"⟩] := by decide +kernel
    have horder : nameLE ⟨"in/a.pdf"⟩ ⟨"in/b.pdf"⟩ = true := by decide +kernel
    have hinputs : c.inputs = [⟨"in"⟩] := rfl
    simp [hinputs, discover, discoverIn, hread, hin, haccepts, List.mergeSort,
      List.MergeSort.Internal.splitInTwo, horder, bind, Except.bind, pure, Except.pure]
  have hrun : (run m.toExtractor c ⟨t, 0⟩).1 = .error (.failed (.file .isADirectory)) ∧
      (run m.toExtractor c ⟨t, 0⟩).2.tree.isFile ⟨"out/b.json"⟩ = false := by
    have hd' : discover (World.mk t 0).tree c c.inputs = _ := hd
    unfold run
    rw [hd']
    simp only [processAll, handle, processFile, MemoryExtractor.extract_eq]
    decide +kernel
  exact ⟨by decide +kernel, by decide +kernel, hd, hrun⟩

end Batch

end GoldenRecord

import GoldenRecord.Proofs.Batch.Resilience
import GoldenRecord.Proofs.Files.Creation

namespace GoldenRecord

namespace Tree

/-- Some files of the first tree, at places that are no directories, have other contents or are gone
in the second one, as it is allowed there. -/
structure Rewritten (allowed : Location → Option Bytes → Prop) (t u : Tree) : Prop where
  size : t.workingDirectorySize = u.workingDirectorySize
  places : ∀ l, u.get? l = t.get? l ∨
    t.get? l ≠ some .directory ∧ ∃ o, allowed l o ∧ u.get? l = o.map .file

namespace Rewritten

variable {allowed allowed' : Location → Option Bytes → Prop} {t u v : Tree}

theorem refl (t : Tree) : Rewritten allowed t t := ⟨rfl, fun _ => .inl rfl⟩

theorem of_changes {l : Location} {o : Option Bytes} (hu : t.Changes u l o) (ha : allowed l o) :
    Rewritten allowed t u := by
  refine ⟨hu.size, fun k => ?_⟩
  by_cases hk : k = l
  · subst hk
    exact .inr ⟨hu.free, o, ha, hu.own⟩
  · exact .inl (hu.other hk)

theorem mono (h : ∀ l o, allowed l o → allowed' l o) (ht : Rewritten allowed t u) :
    Rewritten allowed' t u :=
  ⟨ht.size, fun l => (ht.places l).imp_right fun ⟨hd, o, ho, hu⟩ => ⟨hd, o, h l o ho, hu⟩⟩

theorem trans (h : Rewritten allowed t u) (h' : Rewritten allowed u v) : Rewritten allowed t v := by
  refine ⟨h.size.trans h'.size, fun l => ?_⟩
  rcases h'.places l with hv | ⟨hd, o, ho, hv⟩
  · rw [hv]
    exact h.places l
  · refine .inr ⟨?_, o, ho, hv⟩
    rcases h.places l with hu | ⟨hd', -⟩
    · rwa [hu] at hd
    · exact hd'

theorem sameDirectories (h : Rewritten allowed t u) : t.SameDirectories u := by
  refine ⟨h.size, fun l => ?_⟩
  rcases h.places l with hu | ⟨hd, o, -, hu⟩
  · rw [hu]
  · rw [hu]
    cases o <;> simp [hd]

/-- Two trees that one tree was rewritten to at some paths are the same if they have the same contents
there. -/
theorem same {paths : List Path} (hu : Rewritten (fun l _ => ∃ p ∈ paths, t.locate p = .ok l) t u)
    (hv : Rewritten (fun l _ => ∃ p ∈ paths, t.locate p = .ok l) t v)
    (h : ∀ p ∈ paths, u.content? p = v.content? p) : u.Same v := by
  have hplace : ∀ p ∈ paths, ∀ l, t.locate p = .ok l → t.get? l ≠ some .directory →
      u.get? l = v.get? l := by
    intro p hp l hl hd
    exact get?_eq_of_content? (hv.sameDirectories.directoriesIn.locate hl)
      (hu.sameDirectories.directoriesIn.locate hl)
      (fun e => hd ((hv.sameDirectories.directory l).mpr e))
      (fun e => hd ((hu.sameDirectories.directory l).mpr e))
      (h p hp)
  refine ⟨hu.size.symm.trans hv.size, fun l => ?_⟩
  rcases hu.places l with husame | ⟨hd, o, ⟨p, hp, hl⟩, -⟩
  · rcases hv.places l with hvsame | ⟨hd, o, ⟨p, hp, hl⟩, -⟩
    · exact husame.trans hvsame.symm
    · exact hplace p hp l hl hd
  · exact hplace p hp l hl hd

end Rewritten

end Tree

namespace Batch

variable {State : Type} {e : Extractor State} {c : Config}

/-- What some handled inputs may leave at a place: nothing, or the complete record of a document that
the extractor gave for an input whose record goes there. -/
def Leaves (e : Extractor State) (c : Config) (handled : List (Path × World State)) (t : Tree)
    (l : Location) (o : Option Bytes) : Prop :=
  ∃ v ∈ handled, t.locate (c.artifact v.1) = .ok l ∧
    ∀ content, o = some content → ∃ d, (e.extract v.2.tree v.1 v.2.state).1 = .ok d ∧
      content = d.goldenBytes c.profile

theorem Leaves.mono {handled more : List (Path × World State)} {t : Tree} {l : Location}
    {o : Option Bytes} (h : handled ⊆ more) (hl : Leaves e c handled t l o) :
    Leaves e c more t l o := by
  obtain ⟨v, hv, hrest⟩ := hl
  exact ⟨v, h hv, hrest⟩

section Steps

variable {t : Tree} {b : Location} {p : Path} {w : World State}

theorem processFile_rewritten (hb : t.IsAt c.output b) (hs : t.SameDirectories w.tree)
    (hp : p.fileName?.isSome) :
    Tree.Rewritten (Leaves e c [(p, w)] t) w.tree (processFile e c p w).2.tree := by
  rcases processFile_cases e c p w with ⟨d, -, hx, -, hw⟩ | ⟨-, hsame⟩
  · obtain ⟨l, hl, hu⟩ := Tree.writeAtomic_ok hw
    have hplace : t.locate (c.artifact p) = .ok l :=
      (Config.locate_artifact_congr hb (hb.mono hs.directoriesIn) hp).mpr hl
    refine .of_changes hu ⟨(p, w), by simp, hplace, ?_⟩
    rintro content ⟨⟩
    exact ⟨d, hx, rfl⟩
  · rw [hsame]
    exact .refl w.tree

theorem settle_rewritten {written : List Path} {outcome : Outcome} {u v : Tree}
    (hb : t.IsAt c.output b) (hs : t.SameDirectories u) (hp : p.fileName?.isSome)
    (h : settle c written p outcome u = .ok v) : Tree.Rewritten (Leaves e c [(p, w)] t) u v := by
  unfold settle at h
  split at h
  next => cases h; exact .refl u
  next =>
    unfold removeStale at h
    split at h
    next hr =>
      cases h
      obtain ⟨l, hl, hu⟩ := Tree.removeFile_ok hr
      have hplace : t.locate (c.artifact p) = .ok l :=
        (Config.locate_artifact_congr hb (hb.mono hs.directoriesIn) hp).mpr hl
      refine .of_changes hu ⟨(p, w), by simp, hplace, ?_⟩
      rintro content ⟨⟩
    next => cases h; exact .refl u
    next => cases h

theorem handle_rewritten {written : List Path} (hb : t.IsAt c.output b)
    (hs : t.SameDirectories w.tree) (hp : p.fileName?.isSome) :
    Tree.Rewritten (Leaves e c [(p, w)] t) w.tree (handle e c written p w).2.tree := by
  have hfile := processFile_rewritten (e := e) hb hs hp
  have hafter := hs.trans (processFile_sameDirectories e c p w)
  unfold handle
  split
  next hv => rwa [hv] at hfile
  next hv =>
    rw [hv] at hfile hafter
    split
    next => exact hfile
    next hu => exact hfile.trans (settle_rewritten hb hafter hp hu)

/-- A run over some inputs rewrites their records, wherever it stops. -/
theorem processAll_rewritten {written inputs : List Path} (hb : t.IsAt c.output b)
    (hs : t.SameDirectories w.tree) (hin : ∀ p ∈ inputs, p.fileName?.isSome) :
    Tree.Rewritten (Leaves e c (visits e c written inputs w) t) w.tree
      (processAll e c written inputs w).2.tree := by
  induction inputs generalizing written w with
  | nil => exact .refl w.tree
  | cons p rest ih =>
    have hstep : Tree.Rewritten (Leaves e c [(p, w)] t) w.tree (handle e c written p w).2.tree :=
      handle_rewritten hb hs (hin p List.mem_cons_self)
    have hlater := hs.trans (handle_sameDirectories e c written p w)
    cases hhandle : handle e c written p w with
    | mk result after =>
      rw [hhandle] at hstep hlater
      cases result with
      | error s =>
        rw [processAll_cons_stop hhandle, visits_cons_stop hhandle]
        exact hstep
      | ok outcome =>
        have hrest := fun q hq => hin q (List.mem_cons_of_mem p hq)
        rw [processAll_cons_eq hhandle, visits_cons hhandle]
        refine (hstep.mono fun l o => Leaves.mono ?_).trans
          ((ih hlater hrest).mono fun l o => Leaves.mono ?_)
        · simp
        · exact List.subset_cons_self _ _

end Steps

/-- A run over some inputs changes nothing but what is at the paths of their records. -/
theorem processAll_rewritten_at {written inputs paths : List Path} {w w' : World State}
    {entries : List Entry} {b : Location} (hb : w.tree.IsAt c.output b)
    (hin : ∀ p ∈ inputs, p.fileName?.isSome) (hpaths : ∀ p ∈ inputs, c.artifact p ∈ paths)
    (h : processAll e c written inputs w = (.ok entries, w')) :
    Tree.Rewritten (fun l _ => ∃ a ∈ paths, w.tree.locate a = .ok l) w.tree w'.tree := by
  have hrewritten : Tree.Rewritten _ w.tree (processAll e c written inputs w).2.tree :=
    processAll_rewritten hb (.refl w.tree) hin
  rw [h] at hrewritten
  refine hrewritten.mono ?_
  rintro l o ⟨v, hv, hl, -⟩
  exact ⟨c.artifact v.1, hpaths v.1 (mem_visits hv), hl⟩

theorem mem_runVisits {w : World State} {v : Path × World State} (h : v ∈ runVisits e c w) :
    ∃ inputs, discover w.tree c c.inputs = .ok inputs ∧ v.1 ∈ inputs := by
  unfold runVisits at h
  split at h
  next inputs tree hd hc => exact ⟨inputs, hd, mem_visits h⟩
  next => simp at h

/-- A run makes directories on the way to the output and then rewrites records, wherever it ends. -/
theorem run_tree (e : Extractor State) (c : Config) (w : World State) :
    ∃ tree, w.tree.Extends tree c.output ∧
      Tree.Rewritten (Leaves e c (runVisits e c w) tree) tree (run e c w).2.tree := by
  have hextends := Tree.createDirectory_extends w.tree c.output
  unfold run runVisits
  cases hd : discover w.tree c c.inputs with
  | error f => exact ⟨w.tree, .refl _ _, .refl _⟩
  | ok inputs =>
    cases hc : w.tree.createDirectory c.output with
    | mk result tree =>
      rw [hc] at hextends
      refine ⟨tree, hextends, ?_⟩
      cases result with
      | error f => exact .refl _
      | ok _ =>
        obtain ⟨b, hb⟩ := Tree.createDirectory_ok hc
        have hin : ∀ p ∈ inputs, p.fileName?.isSome :=
          fun p hp => fileName?_isSome_of_accepts (mem_discover hd hp)
        exact processAll_rewritten (w := { w with tree }) hb (.refl tree) hin

/-- What a run does to a place: nothing, or it makes a directory there on the way to the output, or
it leaves there what may be left in the place of a record. -/
theorem run_get? (e : Extractor State) (c : Config) (w : World State) (l : Location) :
    let after := (run e c w).2.tree
    after.get? l = w.tree.get? l ∨
      (w.tree.get? l = none ∧ after.get? l = some .directory ∧ after.IsOnWay c.output l) ∨
      (w.tree.get? l ≠ some .directory ∧ ∃ o, Leaves e c (runVisits e c w) after l o ∧
        after.get? l = o.map .file) := by
  intro after
  obtain ⟨tree, hextends, hrewritten⟩ := run_tree e c w
  have hdirs := hrewritten.sameDirectories.directoriesIn
  rcases hrewritten.places l with hsame | ⟨hd, o, ⟨v, hv, hl, ho⟩, hafter⟩
  · have hsame : after.get? l = tree.get? l := hsame
    rw [hsame]
    cases hbefore : w.tree.get? l with
    | some o => exact .inl (hextends.kept l o hbefore)
    | none =>
      cases hmade : tree.get? l with
      | none => exact .inl rfl
      | some o =>
        obtain ⟨rfl, hway⟩ := hextends.new l o hbefore hmade
        exact .inr (.inl ⟨rfl, rfl, hdirs.isOnWay hway⟩)
  · refine .inr (.inr ⟨fun h => hd (hextends.kept l _ h), o, ⟨v, hv, hdirs.locate hl, ho⟩, hafter⟩)

/-- Whatever a run comes to: what was there and is not at the place of a record of a discovered input
is still there with its content, and a directory is so everywhere. What is there afterwards was there
before, or is a new directory on the way to the output, or the complete record of a document that the
extractor gave for a discovered input, at the place of that record; nothing else is left behind. -/
theorem run_frame (e : Extractor State) (c : Config) (w : World State) :
    let after := (run e c w).2.tree
    (∀ l o, w.tree.get? l = some o → after.get? l = some o ∨
      o ≠ .directory ∧ ∃ inputs, discover w.tree c c.inputs = .ok inputs ∧
        ∃ p ∈ inputs, after.locate (c.artifact p) = .ok l) ∧
    (∀ l o, after.get? l = some o → w.tree.get? l = some o ∨
      (w.tree.get? l = none ∧ o = .directory ∧ after.IsOnWay c.output l) ∨
      ∃ inputs, discover w.tree c c.inputs = .ok inputs ∧ ∃ v ∈ runVisits e c w, v.1 ∈ inputs ∧
        after.locate (c.artifact v.1) = .ok l ∧ ∃ d, (e.extract v.2.tree v.1 v.2.state).1 = .ok d ∧
          o = .file (d.goldenBytes c.profile)) := by
  intro after
  refine ⟨fun l o hbefore => ?_, fun l o hafter => ?_⟩
  · rcases run_get? e c w l with hsame | ⟨hnone, -, -⟩ | ⟨hd, content, ⟨v, hv, hl, -⟩, -⟩
    · exact .inl (hsame.trans hbefore)
    · simp [hbefore] at hnone
    · obtain ⟨inputs, hinputs, hmem⟩ := mem_runVisits hv
      exact .inr ⟨fun e => hd (e ▸ hbefore), inputs, hinputs, v.1, hmem, hl⟩
  · rcases run_get? e c w l with hsame | ⟨hnone, hmade, hway⟩ | ⟨-, content, ⟨v, hv, hl, hc⟩, hleft⟩
    · exact .inl (hsame.symm.trans hafter)
    · cases hmade.symm.trans hafter
      exact .inr (.inl ⟨hnone, rfl, hway⟩)
    · obtain ⟨inputs, hinputs, hmem⟩ := mem_runVisits hv
      cases content with
      | none => cases hleft.symm.trans hafter
      | some content =>
        cases hleft.symm.trans hafter
        obtain ⟨d, hx, rfl⟩ := hc content rfl
        exact .inr (.inr ⟨inputs, hinputs, v, hv, hmem, hl, d, hx, rfl⟩)

theorem run_directoriesIn (e : Extractor State) (c : Config) (w : World State) :
    w.tree.DirectoriesIn (run e c w).2.tree := by
  obtain ⟨tree, hextends, hrewritten⟩ := run_tree e c w
  exact hextends.directoriesIn.trans hrewritten.sameDirectories.directoriesIn

/-- The inputs of a run are there afterwards as they were, unless their extension is that of records
and a record goes where an input is. -/
theorem run_keeps_inputs (e : Extractor State) {c : Config} {w : World State} {inputs : List Path}
    (hd : discover w.tree c c.inputs = .ok inputs) {p : Path} (hp : p ∈ inputs)
    (hfree : c.extension = "json" → ∀ q ∈ inputs,
      (run e c w).2.tree.locate (c.artifact q) ≠ (run e c w).2.tree.locate p) :
    ∃ content, w.tree.readFile p = .ok content ∧ (run e c w).2.tree.readFile p = .ok content := by
  obtain ⟨hext, hfile⟩ := accepts_iff.mp (mem_discover hd hp)
  obtain ⟨content, hread⟩ := Tree.isFile_iff.mp hfile
  obtain ⟨l, hl, hg⟩ := Tree.lookup_ok_iff.mp (Tree.readFile_ok_iff.mp hread)
  have hafter := (run_directoriesIn e c w).locate hl
  refine ⟨content, hread, Tree.readFile_ok_iff.mpr (Tree.lookup_ok_iff.mpr ⟨l, hafter, ?_⟩)⟩
  rcases run_get? e c w l with hsame | ⟨hnone, -, -⟩ | ⟨-, o, ⟨v, hv, hplace, -⟩, -⟩
  · exact hsame.trans hg
  · simp [hg] at hnone
  · obtain ⟨inputs', hd', hmem⟩ := mem_runVisits hv
    obtain rfl : inputs = inputs' := Except.ok.inj (hd.symm.trans hd')
    have hext' := (accepts_iff.mp (mem_discover hd hmem)).1
    have hjson : c.extension = "json" := Config.extension_of_locate hext hext' hafter hplace
    exact absurd (hplace.trans hafter.symm) (hfree hjson v.1 hmem)

namespace JsonInput

/-- An input that has the extension of records, and a record left over from an earlier run. -/
def tree : Tree where
  objects := [(["in"], .directory), (["in", "a.json"], .file [1]), (["out"], .directory),
    (["out", "a.json"], .file [2])]
  nodup := by decide

def config (output : Path) : Config :=
  { inputs := [⟨"in"⟩], output, extension := "json", skips := .empty }

def memory : MemoryExtractor := ⟨"1", .ofList [("a.json", .unreadable "locked")]⟩

def handled (output : Path) : Except Stop (List Entry) × World Nat :=
  processAll memory.toExtractor (config output) [] [⟨"in/a.json"⟩] ⟨tree, 0⟩

/-- What is there at the start, and what becomes of the input in either case. -/
theorem evaluated :
    (tree.isDirectory ⟨"in"⟩ = true ∧ tree.isDirectory ⟨"out"⟩ = true ∧
      tree.readDirectory ⟨"in"⟩ = .ok [⟨"in/a.json"⟩] ∧
      (Path.mk "in/a.json").extension? = some "json" ∧ tree.isFile ⟨"in/a.json"⟩ = true ∧
      tree.readFile ⟨"in/a.json"⟩ = .ok [1]) ∧
    ((config ⟨"out"⟩).artifact ⟨"in/a.json"⟩ = ⟨"out/a.json"⟩ ∧
      (handled ⟨"out"⟩).2.tree.locate ⟨"out/a.json"⟩ ≠
        (handled ⟨"out"⟩).2.tree.locate ⟨"in/a.json"⟩ ∧
      (handled ⟨"out"⟩).2.tree.isFile ⟨"out/a.json"⟩ = false) ∧
    (handled ⟨"in"⟩).1.isOk = true ∧
      (handled ⟨"in"⟩).2.tree.readFile ⟨"in/a.json"⟩ = .error .notFound := by
  simp only [handled, processAll, handle, processFile, MemoryExtractor.extract_eq]
  decide +kernel

theorem discover_eq (output : Path) :
    discover tree (config output) (config output).inputs = .ok [⟨"in/a.json"⟩] := by
  obtain ⟨⟨hin, -, hread, hext, hfile, -⟩, -⟩ := evaluated
  exact discover_cons hin (discoverIn_single hread (accepts_iff.mpr ⟨hext, hfile⟩)) rfl

theorem run_eq {output : Path} (h : tree.isDirectory output = true) :
    run memory.toExtractor (config output) ⟨tree, 0⟩ =
      ((handled output).1.map Report.mk, (handled output).2) :=
  run_of_discover (w := ⟨tree, 0⟩) (discover_eq output) (Tree.createDirectory_of_isDirectory h)

end JsonInput

theorem run_keeps_input_of_other_directory :
    let w := (run JsonInput.memory.toExtractor (JsonInput.config ⟨"out"⟩) ⟨JsonInput.tree, 0⟩).2
    discover JsonInput.tree (JsonInput.config ⟨"out"⟩) (JsonInput.config ⟨"out"⟩).inputs =
        .ok [⟨"in/a.json"⟩] ∧
      w.tree.locate ⟨"out/a.json"⟩ ≠ w.tree.locate ⟨"in/a.json"⟩ ∧
      w.tree.isFile ⟨"out/a.json"⟩ = false ∧ w.tree.readFile ⟨"in/a.json"⟩ = .ok [1] := by
  obtain ⟨⟨-, hout, -, -, -, hcontent⟩, ⟨hartifact, hother, hgone⟩, -⟩ := JsonInput.evaluated
  have hd := JsonInput.discover_eq ⟨"out"⟩
  have hrun := congrArg Prod.snd (JsonInput.run_eq hout)
  intro w
  rw [← hrun] at hother hgone
  have hfree : ∀ q ∈ [⟨"in/a.json"⟩],
      w.tree.locate ((JsonInput.config ⟨"out"⟩).artifact q) ≠ w.tree.locate ⟨"in/a.json"⟩ := by
    intro q hq
    rw [List.mem_singleton.mp hq, hartifact]
    exact hother
  obtain ⟨content, hbefore, hafter⟩ := run_keeps_inputs JsonInput.memory.toExtractor
    (w := ⟨JsonInput.tree, 0⟩) hd List.mem_cons_self fun _ => hfree
  cases hcontent.symm.trans hbefore
  exact ⟨hd, hother, hgone, hafter⟩

/-- Where the input directory is the output directory as well, an input that cannot be opened is taken
for a record of an earlier run and removed. -/
theorem run_removes_input_at_output :
    discover JsonInput.tree (JsonInput.config ⟨"in"⟩) (JsonInput.config ⟨"in"⟩).inputs =
        .ok [⟨"in/a.json"⟩] ∧
      JsonInput.tree.readFile ⟨"in/a.json"⟩ = .ok [1] ∧
      (run JsonInput.memory.toExtractor (JsonInput.config ⟨"in"⟩) ⟨JsonInput.tree, 0⟩).1.isOk ∧
      (run JsonInput.memory.toExtractor (JsonInput.config ⟨"in"⟩)
        ⟨JsonInput.tree, 0⟩).2.tree.readFile ⟨"in/a.json"⟩ = .error .notFound := by
  obtain ⟨⟨hin, -, -, -, -, hcontent⟩, -, hok, hgone⟩ := JsonInput.evaluated
  rw [JsonInput.run_eq hin]
  refine ⟨JsonInput.discover_eq ⟨"in"⟩, hcontent, ?_, hgone⟩
  generalize (JsonInput.handled ⟨"in"⟩).1 = result at hok ⊢
  cases result with
  | error f => cases hok
  | ok entries => rfl

end Batch

end GoldenRecord

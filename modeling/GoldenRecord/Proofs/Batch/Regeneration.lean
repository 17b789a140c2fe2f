import GoldenRecord.Proofs.Batch.Discovery
import GoldenRecord.Proofs.Batch.Frame

namespace GoldenRecord

namespace Batch

variable {State : Type} {e : Extractor State} {c : Config}

section WellFormed

theorem processFile_wellFormed {w : World State} (h : w.tree.WellFormed) (e : Extractor State)
    (c : Config) (p : Path) : (processFile e c p w).2.tree.WellFormed := by
  rcases processFile_ends e c p w with
    ⟨-, hf⟩ | ⟨-, halt, -, hf⟩ | ⟨-, f, -, hf⟩ | ⟨-, d, f, -, -, hf⟩ | ⟨-, d, l, -, hroom, hf⟩ <;>
    rw [hf]
  · exact h
  · exact h
  · exact h
  · exact h
  · have hwritten := h.writeAtomic (c.artifact p) (d.goldenBytes c.profile)
    rwa [hroom.writeAtomic] at hwritten

theorem settle_wellFormed {written : List Path} {p : Path} {outcome : Outcome} {t u : Tree}
    (h : t.WellFormed) (hu : settle c written p outcome t = .ok u) : u.WellFormed := by
  unfold settle at hu
  split at hu
  next => cases hu; exact h
  next =>
    unfold removeStale at hu
    split at hu
    next hr => cases hu; exact h.removeFile hr
    next => cases hu; exact h
    next => cases hu

theorem run_wellFormed {w : World State} (h : w.tree.WellFormed) (e : Extractor State)
    (c : Config) : (run e c w).2.tree.WellFormed := by
  have hmade := h.createDirectory c.output
  unfold run
  split
  next => exact h
  next =>
    split
    next hc => rwa [hc] at hmade
    next hc =>
      rw [hc] at hmade
      exact processAll_induction (P := Tree.WellFormed) (w := { w with tree := _ })
        (fun _ _ _ hv => handle_induction (fun p v hv => processFile_wellFormed hv e c p)
          (fun _ _ _ _ _ hv hu => settle_wellFormed hv hu) hv) hmade

end WellFormed

section Parts

variable {α β : Type} {f g : α → List β} {xs : List α}

theorem length_flatMap_le (h : ∀ x ∈ xs, g x = f x ∨ f x = []) :
    (xs.flatMap f).length ≤ (xs.flatMap g).length := by
  induction xs with
  | nil => simp
  | cons x rest ih =>
    have hrest := ih fun y hy => h y (List.mem_cons_of_mem x hy)
    simp only [List.flatMap_cons, List.length_append]
    rcases h x List.mem_cons_self with hx | hx <;> simp only [hx, List.length_nil] <;> omega

/-- Where every part of a whole is as it was or was empty, the whole is as it was only if every part
is. -/
theorem flatMap_eq_iff (h : ∀ x ∈ xs, g x = f x ∨ f x = []) :
    xs.flatMap g = xs.flatMap f ↔ ∀ x ∈ xs, g x = f x := by
  induction xs with
  | nil => simp
  | cons x rest ih =>
    have hparts := fun y hy => h y (List.mem_cons_of_mem x hy)
    have hrest := ih hparts
    rw [List.flatMap_cons, List.flatMap_cons, List.forall_mem_cons, ← hrest]
    rcases h x List.mem_cons_self with hx | hx
    · simp [hx]
    · -- the rest has not become shorter, so nothing can stand in the place of the empty part
      have hle := length_flatMap_le hparts
      rw [hx, List.nil_append]
      refine ⟨fun he => ?_, fun ⟨hnil, he⟩ => by rw [hnil, he, List.nil_append]⟩
      have hlength := congrArg List.length he
      rw [List.length_append] at hlength
      have hnil : g x = [] := List.eq_nil_of_length_eq_zero (by omega)
      rw [hnil, List.nil_append] at he
      exact ⟨hnil, he⟩

end Parts

section Discovery

variable {w : World State} {l : Location} {p d : Path}

/-- A run leaves a file with the extension of inputs as it was, unless that is the one of records. -/
theorem run_get?_of_extension (hjson : c.extension ≠ "json") (hp : p.extension? = some c.extension)
    (hl : (run e c w).2.tree.locate p = .ok l) (content : Bytes) :
    (run e c w).2.tree.get? l = some (.file content) ↔ w.tree.get? l = some (.file content) := by
  rcases run_get? e c w l with hsame | ⟨hnone, hmade, -⟩ | ⟨-, o, ⟨v, hv, hplace, -⟩, -⟩
  · rw [hsame]
  · simp [hnone, hmade]
  · obtain ⟨inputs, hd, hmem⟩ := mem_runVisits hv
    have hext := (accepts_iff.mp (mem_discover hd hmem)).1
    exact absurd (Config.extension_of_locate hp hext hl hplace) hjson

theorem accepts_run (hjson : c.extension ≠ "json") (hd : w.tree.isDirectory d = true) {name : String}
    (hn : Path.IsPlainName name) :
    c.accepts (run e c w).2.tree (d.join name) = c.accepts w.tree (d.join name) := by
  obtain ⟨l, hl, hdir⟩ := Tree.isDirectory_iff.mp hd
  have hbefore := Tree.isAt_of_locate hl hdir
  have hafter := hbefore.mono (run_directoriesIn e c w)
  rw [Bool.eq_iff_iff, accepts_iff, accepts_iff]
  refine and_congr_right fun hext => ?_
  rw [hafter.isFile_join_iff hn, hbefore.isFile_join_iff hn, hafter.locate_join hn,
    ← hbefore.locate_join hn]
  refine and_congr_right fun hplace => exists_congr fun content => ?_
  exact run_get?_of_extension hjson hext ((run_directoriesIn e c w).locate hplace) content

theorem isDirectory_run (e : Extractor State) (c : Config) (hd : w.tree.isDirectory d = true) :
    (run e c w).2.tree.isDirectory d = true := by
  obtain ⟨l, hl, hdir⟩ := Tree.isDirectory_iff.mp hd
  exact Tree.isDirectory_iff.mpr
    ⟨l, (run_directoriesIn e c w).locate hl, run_directoriesIn e c w l hdir⟩

theorem foundIn_run_of_new (ht : w.tree.WellFormed) (hjson : c.extension ≠ "json")
    (hl : (run e c w).2.tree.locate d = .ok l) (hdir : (run e c w).2.tree.get? l = some .directory)
    (hnew : w.tree.get? l ≠ some .directory) : foundIn (run e c w).2.tree c d = [] := by
  refine List.eq_nil_iff_forall_not_mem.mpr fun p hp => hnew ?_
  have hd := Tree.isDirectory_iff.mpr ⟨l, hl, hdir⟩
  obtain ⟨name, hn, rfl, haccepts⟩ := (mem_foundIn_iff (run_wellFormed ht e c) hd).mp hp
  obtain ⟨hext, hfile⟩ := accepts_iff.mp haccepts
  obtain ⟨hplace, content, hg⟩ := ((Tree.isAt_of_locate hl hdir).isFile_join_iff hn).mp hfile
  have hold := (run_get?_of_extension hjson hext hplace content).mp hg
  exact ht.directory_of_get? hn (by simp [hold])

/-- An input directory that is missing in the first tree leads in the second one to a directory of
the first, and there are inputs in it. -/
def Reveals (c : Config) (t u : Tree) : Prop :=
  ∃ d ∈ c.inputs, t.isDirectory d = false ∧ foundIn u c d ≠ [] ∧
    ∃ l, u.locate d = .ok l ∧ t.get? l = some .directory

theorem foundIn_run (ht : w.tree.WellFormed) (hjson : c.extension ≠ "json")
    (hd : w.tree.isDirectory d = true) :
    foundIn (run e c w).2.tree c d = foundIn w.tree c d :=
  foundIn_congr ht (run_wellFormed ht e c) hd (isDirectory_run e c hd) fun _ hn =>
    accepts_run hjson hd hn

theorem not_reveals_iff (ht : w.tree.WellFormed) (hjson : c.extension ≠ "json") :
    ¬ Reveals c w.tree (run e c w).2.tree ↔
      ∀ d ∈ c.inputs, foundIn (run e c w).2.tree c d = foundIn w.tree c d := by
  constructor
  · intro hnot d hmem
    cases hd : w.tree.isDirectory d with
    | true => exact foundIn_run ht hjson hd
    | false =>
      rw [foundIn_of_not_isDirectory hd]
      cases hafter : (run e c w).2.tree.isDirectory d with
      | false => exact foundIn_of_not_isDirectory hafter
      | true =>
        obtain ⟨l, hl, hdir⟩ := Tree.isDirectory_iff.mp hafter
        refine Decidable.byContradiction fun hfound => hnot ⟨d, hmem, hd, hfound, l, hl, ?_⟩
        exact Decidable.byContradiction fun hnew => hfound (foundIn_run_of_new ht hjson hl hdir hnew)
  · rintro hall ⟨d, hmem, hd, hfound, -⟩
    exact hfound ((hall d hmem).trans (foundIn_of_not_isDirectory hd))

/-- A second run discovers the same inputs, unless the first one has revealed some. -/
theorem discover_run_iff (ht : w.tree.WellFormed) (hjson : c.extension ≠ "json")
    {inputs : List Path} (h : discover w.tree c c.inputs = .ok inputs) :
    discover (run e c w).2.tree c c.inputs = .ok inputs ↔
      ¬ Reveals c w.tree (run e c w).2.tree := by
  have hdirs := (directories_of_discover h).imp_left fun hall d hd =>
    isDirectory_run e c (hall d hd)
  obtain ⟨again, hagain⟩ := discover_of_directories hdirs
  have hparts : ∀ d ∈ c.inputs, foundIn (run e c w).2.tree c d = foundIn w.tree c d ∨
      foundIn w.tree c d = [] := by
    intro d _
    cases hd : w.tree.isDirectory d with
    | true => exact .inl (foundIn_run ht hjson hd)
    | false => exact .inr (foundIn_of_not_isDirectory hd)
  rw [not_reveals_iff ht hjson, ← flatMap_eq_iff hparts, ← discover_eq_flatMap h,
    ← discover_eq_flatMap hagain, hagain, Except.ok.injEq]

end Discovery

section Records

variable {w w' : World State} {answer : Path → Except Stop Document}

/-- Handling the same inputs once more gives the same entries and leaves the same files. -/
theorem processAll_again (steady : Steady e answer) {inputs : List Path} {entries : List Entry}
    {b : Location} (hb : w.tree.IsAt c.output b) (hin : ∀ p ∈ inputs, p.fileName?.isSome)
    (h : processAll e c [] inputs w = (.ok entries, w')) :
    ∃ w'', processAll e c [] inputs w' = (.ok entries, w'') ∧ w''.tree.Same w'.tree := by
  have hs := processAll_sameDirectories e c [] inputs w
  rw [h] at hs
  have hb' := hb.mono hs.directoriesIn
  obtain ⟨again, w'', hrun⟩ := processAll_ends_again steady hb hin h hs (List.Subset.refl inputs)
  have hentries : again = entries := by
    apply (List.map_inj_right fun x y hxy => Entry.parts_injective hxy).mp
    rw [processAll_entries steady hb hs hin hrun, processAll_entries steady hb (.refl w.tree) hin h]
  subst hentries
  have hplaces : ∀ p ∈ inputs, c.artifact p ∈ inputs.map c.artifact :=
    fun p hp => List.mem_map_of_mem hp
  refine ⟨w'', hrun, (processAll_rewritten_at hb' hin hplaces hrun).same
    (.refl w'.tree) fun a ha => ?_⟩
  -- at the path of a record, the last writer of the common entries decides both times
  obtain ⟨p, hp, rfl⟩ := List.mem_map.mp ha
  rw [processAll_content hb' hin (fun v _ _ => steady _ _ _) hrun (hin p hp),
    processAll_content hb hin (fun v _ _ => steady _ _ _) h (hin p hp)]
  simp [ha]

end Records

/-- A run over what a run over recorded documents has left gives the same report and leaves the same
files, exactly if the first run has not revealed inputs: if no input directory that was missing at its
start leads afterwards to a directory that was there and has inputs in it. -/
theorem run_again_iff (m : MemoryExtractor) {c : Config} {w w' : World Nat} {r : Report}
    (ht : w.tree.WellFormed) (hjson : c.extension ≠ "json")
    (h : run m.toExtractor c w = (.ok r, w')) :
    (∃ w'', run m.toExtractor c w' = (.ok r, w'') ∧ w''.tree.Same w'.tree) ↔
      ¬ Reveals c w.tree w'.tree := by
  obtain ⟨inputs, tree, hd, hc, hp⟩ := run_ok h
  obtain rfl : (run m.toExtractor c w).2 = w' := congrArg Prod.snd h
  rw [← discover_run_iff ht hjson hd]
  constructor
  · rintro ⟨w'', hagain, -⟩
    obtain ⟨inputs', _, hd', -, hp'⟩ := run_ok hagain
    rw [hd', ← processAll_paths hp, ← processAll_paths hp']
  · intro hd'
    obtain ⟨b, hb⟩ := Tree.createDirectory_ok hc
    have hin : ∀ p ∈ inputs, p.fileName?.isSome :=
      fun p hp => fileName?_isSome_of_accepts (mem_discover hd hp)
    have hs := processAll_sameDirectories m.toExtractor c [] inputs { w with tree }
    rw [hp] at hs
    have hc' := Tree.createDirectory_again hc hs.directoriesIn
    obtain ⟨w'', hagain, hsame⟩ := processAll_again (memory_steady m) hb hin hp
    refine ⟨w'', ?_, hsame⟩
    rw [run_of_discover hd' hc', hagain]
    rfl

namespace Rerun

/-- One input, and no output directory yet. -/
def tree : Tree where
  objects := [(["in"], .directory), (["in", "a.pdf"], .file [1])]
  nodup := by decide

def config (inputs : List Path) (output : Path) : Config :=
  { inputs, output, skips := .empty, missing := .warn }

def memory : MemoryExtractor := ⟨"1", .ofList [("a.pdf", .pages [])]⟩

/-- The tree with an output directory. -/
def made (output : Path) : Tree := (tree.createDirectory output).2

/-- The output directory is inside an input directory, and is one itself. -/
def inside : Config := config [⟨"in"⟩, ⟨"in/new"⟩] ⟨"in/new"⟩

/-- The path to the input directory leads through the output directory. -/
def through : Config := config [⟨"new/../in"⟩] ⟨"new"⟩

def handled : Except Stop (List Entry) × World Nat :=
  processAll memory.toExtractor inside [] [⟨"in/a.pdf"⟩] ⟨made ⟨"in/new"⟩, 0⟩

/-- What is there at the start, and with an output directory; and what becomes of the input. -/
theorem evaluated :
    (tree.WellFormed ∧ tree.isDirectory ⟨"in"⟩ = true ∧ tree.isDirectory ⟨"in/new"⟩ = false ∧
      tree.isDirectory ⟨"new/../in"⟩ = false ∧ tree.readDirectory ⟨"in"⟩ = .ok [⟨"in/a.pdf"⟩] ∧
      inside.accepts tree ⟨"in/a.pdf"⟩ = true) ∧
    ((tree.createDirectory ⟨"in/new"⟩).1 = .ok () ∧ handled.1.isOk = true ∧
      handled.2.tree.isFile ⟨"in/new/a.json"⟩ = true ∧
      handled.2.tree.locate ⟨"in/new"⟩ = .ok ["in", "new"] ∧ tree.get? ["in", "new"] = none) ∧
    (tree.createDirectory ⟨"new"⟩).1 = .ok () ∧ (made ⟨"new"⟩).isDirectory ⟨"new/../in"⟩ = true ∧
      (made ⟨"new"⟩).readDirectory ⟨"new/../in"⟩ = .ok [⟨"new/../in/a.pdf"⟩] ∧
      through.accepts (made ⟨"new"⟩) ⟨"new/../in/a.pdf"⟩ = true := by
  simp only [handled, processAll, handle, processFile, MemoryExtractor.extract_eq]
  decide +kernel

end Rerun

/-- A second run where the first one makes an output directory that is inside an input directory and
is one itself. -/
theorem run_again_of_output_in_input :
    Rerun.tree.WellFormed ∧ Rerun.inside.extension ≠ "json" ∧
      Rerun.tree.isDirectory ⟨"in/new"⟩ = false ∧
      ∃ r w', run Rerun.memory.toExtractor Rerun.inside ⟨Rerun.tree, 0⟩ = (.ok r, w') ∧
        w'.tree.isFile ⟨"in/new/a.json"⟩ = true ∧ ¬ Reveals Rerun.inside Rerun.tree w'.tree ∧
        ∃ w'', run Rerun.memory.toExtractor Rerun.inside w' = (.ok r, w'') ∧
          w''.tree.Same w'.tree := by
  obtain ⟨⟨ht, hin, hnew, -, hread, haccepts⟩, ⟨hmade, hok, hwritten, hplace, hnone⟩, -⟩ :=
    Rerun.evaluated
  have hjson : Rerun.inside.extension ≠ "json" := by decide
  have hd : discover Rerun.tree Rerun.inside Rerun.inside.inputs = .ok [⟨"in/a.pdf"⟩] :=
    discover_cons hin (discoverIn_single hread haccepts) (discover_cons_missing hnew rfl)
  have hrun := run_of_discover (e := Rerun.memory.toExtractor) (w := ⟨Rerun.tree, 0⟩) hd
    (Prod.ext hmade rfl)
  change run _ _ _ = (Rerun.handled.1.map Report.mk, Rerun.handled.2) at hrun
  cases hentries : Rerun.handled.1 with
  | error f => simp [hentries, Except.isOk, Except.toBool] at hok
  | ok entries =>
    rw [hentries] at hrun
    have hnot : ¬ Reveals Rerun.inside Rerun.tree Rerun.handled.2.tree := by
      rintro ⟨d, hmem, hd, -, l, hl, hold⟩
      obtain rfl | rfl : d = ⟨"in"⟩ ∨ d = ⟨"in/new"⟩ := by
        simpa [Rerun.inside, Rerun.config] using hmem
      · cases hin.symm.trans hd
      · cases hplace.symm.trans hl
        cases hnone.symm.trans hold
    exact ⟨ht, hjson, hnew, _, _, hrun, hwritten, hnot,
      (run_again_iff Rerun.memory ht hjson hrun).mpr hnot⟩

/-- The exception: the output directory that a run makes completes the path to an input directory, and
the next run discovers what is in it. -/
theorem run_again_reveals_input :
    let after := (run Rerun.memory.toExtractor Rerun.through ⟨Rerun.tree, 0⟩).2
    Rerun.tree.WellFormed ∧ Rerun.through.extension ≠ "json" ∧
      (run Rerun.memory.toExtractor Rerun.through ⟨Rerun.tree, 0⟩).1 = .ok ⟨[]⟩ ∧
      discover after.tree Rerun.through Rerun.through.inputs = .ok [⟨"new/../in/a.pdf"⟩] ∧
      ∀ w, run Rerun.memory.toExtractor Rerun.through after ≠ (.ok ⟨[]⟩, w) := by
  obtain ⟨⟨ht, -, -, hmissing, -⟩, -, hmade, hfound, hread, haccepts⟩ := Rerun.evaluated
  have hd : discover Rerun.tree Rerun.through Rerun.through.inputs = .ok [] :=
    discover_cons_missing hmissing rfl
  have hrun := run_of_discover (e := Rerun.memory.toExtractor) (w := ⟨Rerun.tree, 0⟩) hd
    (Prod.ext hmade rfl)
  have hagain : discover (Rerun.made ⟨"new"⟩) Rerun.through Rerun.through.inputs =
      .ok [⟨"new/../in/a.pdf"⟩] :=
    discover_cons hfound (discoverIn_single hread haccepts) rfl
  rw [hrun]
  refine ⟨ht, by decide, rfl, hagain, fun w hw => ?_⟩
  obtain ⟨inputs, _, hd', -, hp⟩ := run_ok hw
  cases hagain.symm.trans hd'
  cases processAll_paths hp

end Batch

end GoldenRecord

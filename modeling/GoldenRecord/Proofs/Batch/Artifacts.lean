import GoldenRecord.Proofs.Batch.Placement
import GoldenRecord.Proofs.Extraction
import GoldenRecord.Proofs.Files.Creation
import GoldenRecord.Proofs.Files.Room
import Mathlib.Algebra.GroupWithZero.Nat

namespace GoldenRecord

namespace Document

theorem total_eq_sum (d : Document) (f : PageRecord → Nat) :
    d.total f = (d.pages.map f).sum := by
  rw [total, List.sum, List.foldr_map]

theorem counts_eq (d : Document) :
    d.counts =
      { pages := d.pages.length
        chars := (d.pages.map (·.chars.length)).sum
        words := (d.pages.map (·.words.length)).sum
        lines := (d.pages.map (·.lines.length)).sum
        rects := (d.pages.map (·.rects.length)).sum
        tables := (d.pages.map (·.tables.length)).sum } := by
  simp only [counts, total_eq_sum]

end Document

namespace Tree

def content? (t : Tree) (p : Path) : Option Bytes := (t.readFile p).toOption

theorem content?_eq_some_iff {t : Tree} {p : Path} {content : Bytes} :
    t.content? p = some content ↔
      ∃ l, t.locate p = .ok l ∧ t.get? l = some (.file content) := by
  rw [← lookup_ok_iff, ← readFile_ok_iff]
  unfold content?
  cases t.readFile p <;> simp [Except.toOption]

theorem readFile_of_content? {t : Tree} {p : Path} {content : Bytes}
    (h : t.content? p = some content) : t.readFile p = .ok content :=
  readFile_ok_iff.mpr (lookup_ok_iff.mpr (content?_eq_some_iff.mp h))

/-- Where no directory stands, the content tells what is there. -/
theorem get?_eq_of_content? {t u : Tree} {p : Path} {l : Location} (hl : t.locate p = .ok l)
    (hl' : u.locate p = .ok l) (hd : t.get? l ≠ some .directory) (hd' : u.get? l ≠ some .directory)
    (h : u.content? p = t.content? p) : u.get? l = t.get? l := by
  have hfile : ∀ content, u.get? l = some (.file content) ↔ t.get? l = some (.file content) := by
    intro content
    have hcontent : u.content? p = some content ↔ t.content? p = some content := by rw [h]
    simpa [content?_eq_some_iff, hl, hl'] using hcontent
  refine Option.ext fun o => ?_
  cases o with
  | directory => simp [hd, hd']
  | file content => exact hfile content

theorem isFile_iff_content? {t : Tree} {p : Path} : t.isFile p = true ↔ (t.content? p).isSome := by
  rw [isFile_iff]
  unfold content?
  cases t.readFile p <;> simp [Except.toOption]

end Tree

namespace Batch

variable {State : Type} {e : Extractor State} {c : Config}

/-- The directory of the records is there in both trees, and the second tree differs from the first
in one record at most. -/
structure Settled (c : Config) (b : Location) (p : Path) (after : Option Bytes) (t u : Tree) :
    Prop where
  directories : t.DirectoriesIn u
  own : u.content? (c.artifact p) = after
  others : ∀ q : Path, q.fileName?.isSome → c.artifact q ≠ c.artifact p →
    u.content? (c.artifact q) = t.content? (c.artifact q)

theorem content?_congr {t u : Tree} {b : Location} (hb : t.IsAt c.output b)
    (hb' : u.IsAt c.output b) {p : Path} (hp : p.fileName?.isSome)
    (h : ∀ l, t.locate (c.artifact p) = .ok l → u.get? l = t.get? l) :
    u.content? (c.artifact p) = t.content? (c.artifact p) := by
  apply Option.ext
  intro content
  rw [Tree.content?_eq_some_iff, Tree.content?_eq_some_iff]
  refine exists_congr fun l => ?_
  rw [← Config.locate_artifact_congr hb hb' hp]
  exact and_congr_right fun hl => by rw [h l hl]

/-- A change at the place of one record, which is no directory, leaves the other records alone. -/
theorem settled_of_change {t u : Tree} {b l : Location} {p : Path} {o : Option Bytes}
    (hb : t.IsAt c.output b) (hp : p.fileName?.isSome) (hl : t.locate (c.artifact p) = .ok l)
    (hu : t.Changes u l o) : Settled c b p o t u := by
  have hdirs := hu.sameDirectories.directoriesIn
  have hb' := hb.mono hdirs
  refine ⟨hdirs, ?_, fun q hq hne => content?_congr hb hb' hq fun m hm => ?_⟩
  · apply Option.ext
    intro content
    rw [Tree.content?_eq_some_iff]
    constructor
    · rintro ⟨m, hm, hg⟩
      have hml := (Config.locate_artifact_congr hb hb' hp).mpr hm
      rw [hl] at hml
      cases hml
      rw [hu.own] at hg
      cases o <;> simp_all
    · rintro rfl
      exact ⟨l, (Config.locate_artifact_congr hb hb' hp).mp hl, hu.own⟩
  · exact hu.other (Config.locate_artifact_ne hb hb hq hp hm hl hne)

theorem settled_refl {t : Tree} {b : Location} {p : Path} :
    Settled c b p (t.content? (c.artifact p)) t t :=
  ⟨.refl t, rfl, fun _ _ _ => rfl⟩

/-- The five ways in which the handling of an input ends. -/
theorem processFile_ends (e : Extractor State) (c : Config) (p : Path) (w : World State) :
    let answer := e.extract w.tree p w.state
    -- it is on the skip list
    (c.isSkipped p = true ∧ processFile e c p w = (.ok .skipped, w)) ∨
    -- its extraction does not come back
    (c.isSkipped p = false ∧ ∃ h, answer.1 = .error (.halted h) ∧
      processFile e c p w = (.error h, ⟨w.tree, answer.2⟩)) ∨
    -- no document was extracted
    (c.isSkipped p = false ∧ ∃ f, answer.1 = .error (.failed f) ∧
      processFile e c p w = (.ok (.failed f.message), ⟨w.tree, answer.2⟩)) ∨
    -- there is no room for the record
    (c.isSkipped p = false ∧ ∃ d f, answer.1 = .ok d ∧
      (¬ ∃ l, w.tree.HasRoom (c.artifact p) l) ∧
      processFile e c p w = (.ok (.failed (Failure.file f).message), ⟨w.tree, answer.2⟩)) ∨
    -- the record was written
    (c.isSkipped p = false ∧ ∃ d l, answer.1 = .ok d ∧ w.tree.HasRoom (c.artifact p) l ∧
      processFile e c p w = (.ok (.succeeded ⟨c.artifact p, d.counts⟩),
        ⟨w.tree.set l (.file (d.goldenBytes c.profile)), answer.2⟩)) := by
  intro answer
  unfold processFile
  by_cases hs : c.isSkipped p = true
  · exact .inl ⟨hs, by rw [if_pos hs]⟩
  · rw [if_neg hs]
    refine .inr ?_
    rw [Bool.not_eq_true] at hs
    cases hx : e.extract w.tree p w.state with
    | mk result state =>
      have hanswer : answer = (result, state) := hx
      rw [hanswer]
      cases result with
      | error stop =>
        cases stop with
        | halted h => exact .inl ⟨hs, h, rfl, rfl⟩
        | failed f => exact .inr (.inl ⟨hs, f, rfl, rfl⟩)
      | ok d =>
        refine .inr (.inr ?_)
        dsimp only
        by_cases hroom : ∃ l, w.tree.HasRoom (c.artifact p) l
        · obtain ⟨l, hl⟩ := hroom
          exact .inr ⟨hs, d, l, rfl, hl, by rw [hl.writeAtomic]⟩
        · obtain ⟨f, hf⟩ := Tree.writeAtomic_of_no_room hroom (d.goldenBytes c.profile)
          exact .inl ⟨hs, d, f, rfl, hroom, by rw [hf]⟩

/-- One input either has its record written, or leaves the tree as it was. -/
theorem processFile_cases (e : Extractor State) (c : Config) (p : Path) (w : World State) :
    (∃ d, c.isSkipped p = false ∧ (e.extract w.tree p w.state).1 = .ok d ∧
      (processFile e c p w).1 = .ok (.succeeded ⟨c.artifact p, d.counts⟩) ∧
      w.tree.writeAtomic (c.artifact p) (d.goldenBytes c.profile) =
        (.ok (), (processFile e c p w).2.tree)) ∨
    ((∀ outcome, (processFile e c p w).1 = .ok outcome → outcome.isSucceeded = false) ∧
      (processFile e c p w).2.tree = w.tree) := by
  rcases processFile_ends e c p w with
    ⟨-, hf⟩ | ⟨-, h, -, hf⟩ | ⟨-, f, -, hf⟩ | ⟨-, d, f, -, -, hf⟩ | ⟨hs, d, l, hx, hroom, hf⟩ <;>
    rw [hf]
  · exact .inr ⟨by rintro _ ⟨⟩; rfl, rfl⟩
  · exact .inr ⟨by rintro _ ⟨⟩, rfl⟩
  · exact .inr ⟨by rintro _ ⟨⟩; rfl, rfl⟩
  · exact .inr ⟨by rintro _ ⟨⟩; rfl, rfl⟩
  · exact .inl ⟨d, hs, hx, rfl, hroom.writeAtomic _⟩

theorem removeStale_settled {t u : Tree} {b : Location} {p : Path} (hb : t.IsAt c.output b)
    (hp : p.fileName?.isSome) (h : removeStale t (c.artifact p) = .ok u) :
    Settled c b p none t u := by
  unfold removeStale at h
  split at h
  next v hv =>
    cases h
    obtain ⟨l, hl, hu⟩ := Tree.removeFile_ok hv
    exact settled_of_change hb hp hl hu
  next hf =>
    cases h
    have hnone : t.content? (c.artifact p) = none := by
      apply Option.eq_none_iff_forall_ne_some.mpr
      intro content hcontent
      obtain ⟨l, hl, hg⟩ := Tree.content?_eq_some_iff.mp hcontent
      simp [Tree.removeFile, hl, hg, bind, Except.bind] at hf
    exact hnone ▸ settled_refl
  next => cases h

section Steps

variable {written : List Path} {p : Path} {rest : List Path} {w w' after : World State}
  {outcome : Outcome} {entries : List Entry}

theorem handle_ok (h : handle e c written p w = (.ok outcome, after)) :
    (processFile e c p w).1 = .ok outcome ∧
      settle c written p outcome (processFile e c p w).2.tree = .ok after.tree ∧
      after.state = (processFile e c p w).2.state := by
  unfold handle at h
  split at h
  next => cases h
  next v hv =>
    rw [hv]
    split at h
    next => cases h
    next tree htree => cases h; exact ⟨rfl, htree, rfl⟩

/-- What one input does to the tree, the removal of an old record included. -/
theorem handle_cases {b : Location} (hb : w.tree.IsAt c.output b) (hp : p.fileName?.isSome)
    (h : handle e c written p w = (.ok outcome, after)) :
    (∃ d, c.isSkipped p = false ∧ (e.extract w.tree p w.state).1 = .ok d ∧
      outcome = .succeeded ⟨c.artifact p, d.counts⟩ ∧
      Settled c b p (some (d.goldenBytes c.profile)) w.tree after.tree) ∨
    (outcome.isSucceeded = false ∧
      Settled c b p (if c.artifact p ∈ written then w.tree.content? (c.artifact p) else none)
        w.tree after.tree) := by
  obtain ⟨ho, hsettle, -⟩ := handle_ok h
  unfold settle at hsettle
  rcases processFile_cases e c p w with ⟨d, hskip, hx, hd, hw⟩ | ⟨hnone, hsame⟩
  · cases ho.symm.trans hd
    rw [if_pos (.inl rfl)] at hsettle
    rw [← Except.ok.inj hsettle]
    obtain ⟨l, hl, hu⟩ := Tree.writeAtomic_ok hw
    exact .inl ⟨d, hskip, hx, rfl, settled_of_change hb hp hl hu⟩
  · refine .inr ⟨hnone _ ho, ?_⟩
    rw [hsame] at hsettle
    by_cases hm : c.artifact p ∈ written
    · rw [if_pos (.inr hm)] at hsettle
      rw [if_pos hm, ← Except.ok.inj hsettle]
      exact settled_refl
    · rw [if_neg (by simp [hnone _ ho, hm])] at hsettle
      rw [if_neg hm]
      exact removeStale_settled hb hp hsettle

theorem processAll_cons_stop {s : Stop} (h : handle e c written p w = (.error s, after)) :
    processAll e c written (p :: rest) w = (.error s, after) := by
  rw [processAll, h]

theorem processAll_cons_eq (h : handle e c written p w = (.ok outcome, after)) :
    processAll e c written (p :: rest) w =
      let later := processAll e c (noteWritten written outcome) rest after
      (later.1.map (⟨p.sourceName, p, outcome⟩ :: ·), later.2) := by
  rw [processAll, h]
  dsimp only
  generalize processAll e c (noteWritten written outcome) rest after = later
  obtain ⟨entries | f, last⟩ := later <;> rfl

theorem processAll_cons_ok (h : processAll e c written (p :: rest) w = (.ok entries, w')) :
    ∃ outcome after more, handle e c written p w = (.ok outcome, after) ∧
      processAll e c (noteWritten written outcome) rest after = (.ok more, w') ∧
      entries = ⟨p.sourceName, p, outcome⟩ :: more := by
  cases hhandle : handle e c written p w with
  | mk result after =>
    cases result with
    | error s =>
      rw [processAll_cons_stop hhandle] at h
      cases h
    | ok outcome =>
      rw [processAll_cons_eq hhandle] at h
      obtain ⟨hentries, hafter⟩ := Prod.mk.inj h
      obtain ⟨more, hmore, rfl⟩ := map_ok_iff.mp hentries
      exact ⟨outcome, after, more, rfl, Prod.ext hmore hafter, rfl⟩

end Steps

/-- Whether an entry is about a record that was written at a path. -/
def Entry.wrote (x : Entry) (a : Path) : Bool :=
  match x.outcome with
  | .succeeded s => s.artifact == a
  | _ => false

@[simp] theorem wrote_succeeded (source : String) (p a : Path) (s : Summary) :
    (Entry.mk source p (.succeeded s)).wrote a = (s.artifact == a) := rfl

theorem wrote_of_not_succeeded {x : Entry} (h : x.outcome.isSucceeded = false) (a : Path) :
    x.wrote a = false := by
  obtain ⟨source, p, outcome⟩ := x
  cases outcome with
  | succeeded s => cases h
  | skipped => rfl
  | failed reason => rfl

theorem noteWritten_of_not_succeeded {outcome : Outcome} (h : outcome.isSucceeded = false)
    (written : List Path) : noteWritten written outcome = written := by
  cases outcome with
  | succeeded s => cases h
  | skipped => rfl
  | failed reason => rfl

/-- The last entry about a record written at a path. -/
def lastWriter (a : Path) (entries : List Entry) : Option Entry :=
  entries.reverse.find? (·.wrote a)

theorem lastWriter_cons (a : Path) (x : Entry) (entries : List Entry) :
    lastWriter a (x :: entries) =
      (lastWriter a entries).or (if x.wrote a then some x else none) := by
  unfold lastWriter
  rw [List.reverse_cons, List.find?_append]
  by_cases h : x.wrote a = true <;> simp [h]

theorem lastWriter_append_cons {a : Path} {before after : List Entry} {x : Entry}
    (hx : x.wrote a = true) (ha : ∀ y ∈ after, y.wrote a = false) :
    lastWriter a (before ++ x :: after) = some x := by
  unfold lastWriter
  have hnone : after.reverse.find? (·.wrote a) = none := by
    rw [List.find?_eq_none]
    intro y hy
    simp [ha y (List.mem_reverse.mp hy)]
  simp [List.find?_append, hnone, hx]

theorem lastWriter_eq_some {a : Path} {x : Entry} {entries : List Entry}
    (h : lastWriter a entries = some x) : x ∈ entries ∧ x.wrote a = true := by
  unfold lastWriter at h
  have hx := List.find?_some h
  exact ⟨List.mem_reverse.mp (List.mem_of_find?_eq_some h), hx⟩

theorem lastWriter_eq_none {a : Path} {entries : List Entry} (h : lastWriter a entries = none) :
    ∀ x ∈ entries, x.wrote a = false := by
  unfold lastWriter at h
  intro x hx
  simpa using List.find?_eq_none.mp h x (List.mem_reverse.mpr hx)

/-- The inputs that a run comes to, each with the world in which it is handled. -/
def visits (e : Extractor State) (c : Config) (written : List Path) :
    List Path → World State → List (Path × World State)
  | [], _ => []
  | p :: rest, w =>
    (p, w) :: match handle e c written p w with
      | (.error _, _) => []
      | (.ok outcome, after) => visits e c (noteWritten written outcome) rest after

theorem visits_cons {written : List Path} {p : Path} {rest : List Path} {w after : World State}
    {outcome : Outcome} (h : handle e c written p w = (.ok outcome, after)) :
    visits e c written (p :: rest) w =
      (p, w) :: visits e c (noteWritten written outcome) rest after := by
  rw [visits, h]

theorem visits_cons_stop {written : List Path} {p : Path} {rest : List Path} {w after : World State}
    {s : Stop} (h : handle e c written p w = (.error s, after)) :
    visits e c written (p :: rest) w = [(p, w)] := by
  rw [visits, h]

theorem mem_visits {written inputs : List Path} {w : World State} {v : Path × World State}
    (h : v ∈ visits e c written inputs w) : v.1 ∈ inputs := by
  induction inputs generalizing written w with
  | nil => simp [visits] at h
  | cons p rest ih =>
    unfold visits at h
    rcases List.mem_cons.mp h with rfl | h
    · exact List.mem_cons_self
    · split at h
      next => simp at h
      next => exact List.mem_cons_of_mem _ (ih h)

/-- Whenever one of these inputs is handed to the extractor, it gives the same answer. -/
def AnswersAs (e : Extractor State) (c : Config) (answer : Path → Except Stop Document)
    (handled : List (Path × World State)) : Prop :=
  ∀ v ∈ handled, c.isSkipped v.1 = false → (e.extract v.2.tree v.1 v.2.state).1 = answer v.1

variable {answer : Path → Except Stop Document}

theorem answersAs_cons {written : List Path} {p : Path} {rest : List Path} {w after : World State}
    {outcome : Outcome} (h : AnswersAs e c answer (visits e c written (p :: rest) w))
    (hhandle : handle e c written p w = (.ok outcome, after)) :
    (c.isSkipped p = false → (e.extract w.tree p w.state).1 = answer p) ∧
      AnswersAs e c answer (visits e c (noteWritten written outcome) rest after) := by
  rw [visits_cons hhandle] at h
  exact ⟨h (p, w) List.mem_cons_self, fun v hv => h v (List.mem_cons_of_mem _ hv)⟩

/-- What an entry says of a record is what the extractor answered. -/
theorem processAll_succeeded {written inputs : List Path} {w w' : World State}
    {entries : List Entry} {b : Location} (hb : w.tree.IsAt c.output b)
    (hin : ∀ p ∈ inputs, p.fileName?.isSome)
    (steady : AnswersAs e c answer (visits e c written inputs w))
    (h : processAll e c written inputs w = (.ok entries, w')) {x : Entry} (hx : x ∈ entries)
    {s : Summary} (hs : x.outcome = .succeeded s) :
    ∃ d, answer x.path = .ok d ∧ s = ⟨c.artifact x.path, d.counts⟩ := by
  induction inputs generalizing written w entries with
  | nil => cases h; simp at hx
  | cons p rest ih =>
    obtain ⟨outcome, after, more, hhandle, hrest, rfl⟩ := processAll_cons_ok h
    obtain ⟨hanswer, hsteady⟩ := answersAs_cons steady hhandle
    have hcases := handle_cases hb (hin p List.mem_cons_self) hhandle
    rcases List.mem_cons.mp hx with rfl | hx
    · rcases hcases with ⟨d, hskip, hd, rfl, -⟩ | ⟨ho, -⟩
      · exact ⟨d, (hanswer hskip).symm.trans hd, (Outcome.succeeded.inj hs).symm⟩
      · rw [show outcome = .succeeded s from hs] at ho
        cases ho
    · have hdirs : w.tree.DirectoriesIn after.tree := by
        rcases hcases with ⟨_, _, _, _, hset⟩ | ⟨_, hset⟩ <;> exact hset.directories
      exact ih (hb.mono hdirs) (fun q hq => hin q (List.mem_cons_of_mem _ hq)) hsteady hrest hx

/-- What is said to be written at a path is the record of the input that says so, with the totals of
the answer to that input. -/
theorem succeeded_of_wrote {written inputs : List Path} {w w' : World State} {entries : List Entry}
    {b : Location} (hb : w.tree.IsAt c.output b) (hin : ∀ p ∈ inputs, p.fileName?.isSome)
    (steady : AnswersAs e c answer (visits e c written inputs w))
    (h : processAll e c written inputs w = (.ok entries, w')) {x : Entry} (hx : x ∈ entries)
    {a : Path} (ha : x.wrote a = true) :
    c.artifact x.path = a ∧
      ∃ d, answer x.path = .ok d ∧ x.outcome = .succeeded ⟨a, d.counts⟩ := by
  cases ho : x.outcome with
  | skipped => simp [Entry.wrote, ho] at ha
  | failed reason => simp [Entry.wrote, ho] at ha
  | succeeded s =>
    obtain ⟨d, hanswer, rfl⟩ := processAll_succeeded hb hin steady h hx ho
    have ha' : c.artifact x.path = a := by simpa [Entry.wrote, ho] using ha
    exact ⟨ha', d, hanswer, by rw [ha']⟩

/-- The files at the paths of records after some inputs: the last one that succeeded decides. -/
theorem processAll_content {written inputs : List Path} {w w' : World State}
    {entries : List Entry} {b : Location} (hb : w.tree.IsAt c.output b)
    (hin : ∀ p ∈ inputs, p.fileName?.isSome)
    (steady : AnswersAs e c answer (visits e c written inputs w))
    (h : processAll e c written inputs w = (.ok entries, w')) {q : Path} (hq : q.fileName?.isSome) :
    w'.tree.content? (c.artifact q) =
      match lastWriter (c.artifact q) entries with
      | some x => (answer x.path).toOption.map (·.goldenBytes c.profile)
      | none =>
        if c.artifact q ∈ written then w.tree.content? (c.artifact q)
        else if c.artifact q ∈ inputs.map c.artifact then none
        else w.tree.content? (c.artifact q) := by
  induction inputs generalizing written w entries with
  | nil => cases h; simp [lastWriter]
  | cons p rest ih =>
    obtain ⟨outcome, after, more, hhandle, hrest, rfl⟩ := processAll_cons_ok h
    obtain ⟨hanswer, hsteady⟩ := answersAs_cons steady hhandle
    have hcases := handle_cases hb (hin p List.mem_cons_self) hhandle
    have hdirs : w.tree.DirectoriesIn after.tree := by
      rcases hcases with ⟨_, _, _, _, hset⟩ | ⟨_, hset⟩ <;> exact hset.directories
    have hlater := ih (hb.mono hdirs) (fun r hr => hin r (List.mem_cons_of_mem _ hr)) hsteady hrest
    rw [hlater, lastWriter_cons]
    cases hlast : lastWriter (c.artifact q) more with
    | some x => rfl
    | none =>
      -- no later input wrote there, so what this one left there stands
      rcases hcases with ⟨d, hskip, hd, rfl, hset⟩ | ⟨ho, hset⟩
      · by_cases heq : c.artifact q = c.artifact p
        · have hbytes := (hanswer hskip).symm.trans hd
          simp [noteWritten, heq, hset.own, hbytes, Except.toOption]
        · simp [noteWritten, heq, Ne.symm heq, hset.others q hq heq]
      · have hwrote := wrote_of_not_succeeded (x := ⟨p.sourceName, p, outcome⟩) ho
        by_cases heq : c.artifact q = c.artifact p
        · by_cases hm : c.artifact p ∈ written <;>
            simp [noteWritten_of_not_succeeded ho, hwrote, heq, hset.own, hm]
        · simp [noteWritten_of_not_succeeded ho, hwrote, heq, hset.others q hq heq]

theorem isFile_iff_wrote {inputs : List Path} {w w' : World State} {entries : List Entry}
    {b : Location} (hb : w.tree.IsAt c.output b) (hin : ∀ p ∈ inputs, p.fileName?.isSome)
    (steady : AnswersAs e c answer (visits e c [] inputs w))
    (h : processAll e c [] inputs w = (.ok entries, w')) {p : Path} (hp : p ∈ inputs) :
    w'.tree.isFile (c.artifact p) = true ↔ ∃ x ∈ entries, x.wrote (c.artifact p) = true := by
  rw [Tree.isFile_iff_content?, processAll_content hb hin steady h (hin p hp)]
  cases hlast : lastWriter (c.artifact p) entries with
  | none =>
    have hmap : c.artifact p ∈ inputs.map c.artifact := List.mem_map_of_mem hp
    simp only [List.not_mem_nil, if_false, if_pos hmap, Option.isSome_none, Bool.false_eq_true,
      false_iff]
    rintro ⟨x, hx, hwrote⟩
    simp [lastWriter_eq_none hlast x hx] at hwrote
  | some x =>
    obtain ⟨hx, hwrote⟩ := lastWriter_eq_some hlast
    obtain ⟨-, d, hanswer, -⟩ := succeeded_of_wrote hb hin steady h hx hwrote
    simp only [hanswer, Except.toOption, Option.map_some, Option.isSome_some, true_iff]
    exact ⟨x, hx, hwrote⟩

theorem readFile_of_last_writer {inputs : List Path} {w w' : World State} {entries : List Entry}
    {b : Location} (hb : w.tree.IsAt c.output b) (hin : ∀ p ∈ inputs, p.fileName?.isSome)
    (steady : AnswersAs e c answer (visits e c [] inputs w))
    (h : processAll e c [] inputs w = (.ok entries, w')) {p : Path} (hp : p ∈ inputs)
    {before after : List Entry} {x : Entry} (hsplit : entries = before ++ x :: after)
    (hwrote : x.wrote (c.artifact p) = true)
    (hafter : ∀ y ∈ after, y.wrote (c.artifact p) = false) :
    ∃ d, answer x.path = .ok d ∧
      w'.tree.readFile (c.artifact p) = .ok (d.goldenBytes c.profile) ∧
      x.outcome = .succeeded ⟨c.artifact p, d.counts⟩ := by
  have hx : x ∈ entries := by simp [hsplit]
  obtain ⟨-, d, hanswer, ho⟩ := succeeded_of_wrote hb hin steady h hx hwrote
  have hcontent := processAll_content hb hin steady h (hin p hp)
  rw [hsplit, lastWriter_append_cons hwrote hafter] at hcontent
  refine ⟨d, hanswer, Tree.readFile_of_content? ?_, ho⟩
  simpa [hanswer, Except.toOption] using hcontent

def runVisits (e : Extractor State) (c : Config) (w : World State) : List (Path × World State) :=
  match discover w.tree c c.inputs, w.tree.createDirectory c.output with
  | .ok inputs, (.ok (), tree) => visits e c [] inputs { w with tree }
  | _, _ => []

theorem run_ok {w w' : World State} {r : Report} (h : run e c w = (.ok r, w')) :
    ∃ inputs tree, discover w.tree c c.inputs = .ok inputs ∧
      w.tree.createDirectory c.output = (.ok (), tree) ∧
      processAll e c [] inputs { w with tree } = (.ok r.entries, w') := by
  unfold run at h
  split at h
  next => cases h
  next inputs hd =>
    split at h
    next => cases h
    next tree hc =>
      refine ⟨inputs, tree, hd, hc, ?_⟩
      cases hp : processAll e c [] inputs { w with tree } with
      | mk entries w'' =>
        rw [hp] at h
        cases entries with
        | error f => cases h
        | ok entries => cases h; rfl

theorem run_of_discover {w : World State} {inputs : List Path} {tree : Tree}
    (hd : discover w.tree c c.inputs = .ok inputs)
    (hc : w.tree.createDirectory c.output = (.ok (), tree)) :
    run e c w = ((processAll e c [] inputs { w with tree }).1.map Report.mk,
      (processAll e c [] inputs { w with tree }).2) := by
  unfold run
  simp only [hd, hc]

/-- A record is there after a run exactly if an input of the run wrote it. Then it is that of the last
one that did, whose entry tells how many objects of each kind the pages of its document have in
all. -/
theorem run_artifact_iff_wrote {w w' : World State} {r : Report}
    (steady : AnswersAs e c answer (runVisits e c w)) (h : run e c w = (.ok r, w')) :
    ∃ inputs, discover w.tree c c.inputs = .ok inputs ∧ ∀ p ∈ inputs,
      (w'.tree.isFile (c.artifact p) = true ↔ ∃ x ∈ r.entries, x.wrote (c.artifact p) = true) ∧
      ∀ before x after, r.entries = before ++ x :: after → x.wrote (c.artifact p) = true →
        (∀ y ∈ after, y.wrote (c.artifact p) = false) →
        ∃ d, answer x.path = .ok d ∧
          w'.tree.readFile (c.artifact p) = .ok (d.goldenBytes c.profile) ∧
          x.outcome = .succeeded
            { artifact := c.artifact p
              counts :=
                { pages := d.pages.length
                  chars := (d.pages.map (·.chars.length)).sum
                  words := (d.pages.map (·.words.length)).sum
                  lines := (d.pages.map (·.lines.length)).sum
                  rects := (d.pages.map (·.rects.length)).sum
                  tables := (d.pages.map (·.tables.length)).sum } } := by
  obtain ⟨inputs, tree, hd, hc, hp⟩ := run_ok h
  obtain ⟨b, hb⟩ := Tree.createDirectory_ok hc
  have hsteady : AnswersAs e c answer (visits e c [] inputs { w with tree }) := by
    simpa [runVisits, hd, hc] using steady
  have hin : ∀ p ∈ inputs, p.fileName?.isSome :=
    fun p hp => fileName?_isSome_of_accepts (mem_discover hd hp)
  refine ⟨inputs, hd, fun p hmem => ⟨isFile_iff_wrote hb hin hsteady hp hmem, ?_⟩⟩
  intro before x after hsplit hwrote hafter
  obtain ⟨d, hanswer, hread, ho⟩ :=
    readFile_of_last_writer hb hin hsteady hp hmem hsplit hwrote hafter
  exact ⟨d, hanswer, hread, by rw [ho, d.counts_eq]⟩

/-- Recorded documents are answered in the same way at any time. -/
theorem memory_answersAs (m : MemoryExtractor) (c : Config) (handled : List (Path × World Nat)) :
    AnswersAs m.toExtractor c m.answer handled :=
  fun v _ _ => congrArg Prod.fst (m.extract_eq v.2.tree v.1 v.2.state)

namespace Sample

/-- Two directories with an input of one name, and a record left over from an earlier run. -/
def tree : Tree where
  objects := [(["b"], .directory), (["b", "x.pdf"], .file []), (["a"], .directory),
    (["a", "y.pdf"], .file []), (["a", "x.pdf"], .file []), (["out"], .directory),
    (["out", "y.json"], .file [1])]
  nodup := by decide

def config : Config := { inputs := [⟨"a"⟩, ⟨"b"⟩], output := ⟨"out"⟩, skips := .empty }

/-- Three characters, a word and a rectangle on two pages. -/
def pages : List RawPage :=
  [{ pageNumber := 1, chars := [.empty, .empty], words := [.empty] },
    { pageNumber := 2, chars := [.empty], rects := [.empty] }]

def memory : MemoryExtractor :=
  ⟨"1", .ofList [("x.pdf", .pages pages), ("y.pdf", .unreadable "locked")]⟩

def document : Document where
  source := "x.pdf"
  extractorVersion := "1"
  pages := pages.mapIdx fun j page => page.record j

def written : Summary where
  artifact := ⟨"out/x.json"⟩
  counts := { pages := 2, chars := 3, words := 1, rects := 1 }

def report : Report where
  entries :=
    [⟨"x.pdf", ⟨"a/x.pdf"⟩, .succeeded written⟩,
      ⟨"y.pdf", ⟨"a/y.pdf"⟩, .failed "failed to open a/y.pdf: locked"⟩,
      ⟨"x.pdf", ⟨"b/x.pdf"⟩, .succeeded written⟩]

/-- What is there at the start, which of it are inputs, and what becomes of them. -/
theorem evaluated :
    (tree.isDirectory ⟨"a"⟩ = true ∧ tree.isDirectory ⟨"b"⟩ = true ∧
      tree.isDirectory ⟨"out"⟩ = true ∧
      tree.readDirectory ⟨"a"⟩ = .ok [⟨"a/y.pdf"⟩, ⟨"a/x.pdf"⟩] ∧
      tree.readDirectory ⟨"b"⟩ = .ok [⟨"b/x.pdf"⟩]) ∧
    (config.accepts tree ⟨"a/y.pdf"⟩ = true ∧ config.accepts tree ⟨"a/x.pdf"⟩ = true ∧
      config.accepts tree ⟨"b/x.pdf"⟩ = true ∧ nameLE ⟨"a/y.pdf"⟩ ⟨"a/x.pdf"⟩ = false) ∧
    (processAll memory.toExtractor config [] [⟨"a/x.pdf"⟩, ⟨"a/y.pdf"⟩, ⟨"b/x.pdf"⟩] ⟨tree, 0⟩).1 =
      .ok report.entries := by
  simp only [processAll, handle, processFile, MemoryExtractor.extract_eq]
  decide +kernel

theorem discover_eq : discover tree config config.inputs =
    .ok [⟨"a/x.pdf"⟩, ⟨"a/y.pdf"⟩, ⟨"b/x.pdf"⟩] := by
  obtain ⟨⟨ha, hb, -, hreada, hreadb⟩, ⟨hy, hx, hx', hle⟩, -⟩ := evaluated
  have hfound : discoverIn tree config ⟨"a"⟩ = .ok [⟨"a/x.pdf"⟩, ⟨"a/y.pdf"⟩] := by
    simp [discoverIn, hreada, hy, hx, List.mergeSort, List.MergeSort.Internal.splitInTwo, hle]
  exact discover_cons ha hfound (discover_cons hb (discoverIn_single hreadb hx') rfl)

theorem run_eq : (run memory.toExtractor config ⟨tree, 0⟩).1 = .ok report := by
  obtain ⟨⟨-, -, hout, -⟩, -, hentries⟩ := evaluated
  have hc : tree.createDirectory config.output = (.ok (), tree) :=
    Tree.createDirectory_of_isDirectory hout
  rw [run_of_discover (w := ⟨tree, 0⟩) discover_eq hc]
  exact congrArg (Except.map Report.mk) hentries

end Sample

theorem run_artifact_of_two_directories :
    (run Sample.memory.toExtractor Sample.config ⟨Sample.tree, 0⟩).1 = .ok Sample.report ∧
      let w := (run Sample.memory.toExtractor Sample.config ⟨Sample.tree, 0⟩).2
      w.tree.isFile ⟨"out/y.json"⟩ = false ∧ w.tree.isFile ⟨"out/x.json"⟩ = true ∧
        w.tree.readFile ⟨"out/x.json"⟩ = .ok (Sample.document.goldenBytes .full) ∧
        Sample.written.counts.chars = (Sample.document.pages.map (·.chars.length)).sum := by
  refine ⟨Sample.run_eq, ?_⟩
  obtain ⟨inputs, hd, hall⟩ := run_artifact_iff_wrote
    (memory_answersAs Sample.memory Sample.config _)
    (Prod.ext Sample.run_eq rfl)
  cases (Sample.discover_eq.symm.trans hd)
  have hx := hall ⟨"a/x.pdf"⟩ (by simp)
  have hy := hall ⟨"a/y.pdf"⟩ (by simp)
  have hax : Sample.config.artifact ⟨"a/x.pdf"⟩ = ⟨"out/x.json"⟩ := by decide +kernel
  have hay : Sample.config.artifact ⟨"a/y.pdf"⟩ = ⟨"out/y.json"⟩ := by decide +kernel
  rw [hax] at hx
  rw [hay] at hy
  obtain ⟨d, hanswer, hread, hcounts⟩ := hx.2 (Sample.report.entries.take 2)
    ⟨"x.pdf", ⟨"b/x.pdf"⟩, .succeeded Sample.written⟩ [] rfl (by decide) (by simp)
  have hdoc : Sample.memory.answer ⟨"b/x.pdf"⟩ = .ok Sample.document := by decide +kernel
  obtain rfl := Except.ok.inj (hdoc.symm.trans hanswer)
  have hchars := congrArg (fun s : Summary => s.counts.chars) (Outcome.succeeded.inj hcounts)
  exact ⟨Bool.eq_false_iff.mpr fun h => absurd (hy.1.mp h) (by decide), hx.1.mpr (by decide), hread,
    hchars⟩

end Batch

end GoldenRecord

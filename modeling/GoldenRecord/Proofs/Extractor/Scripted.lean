import GoldenRecord.Extractor.Scripted
import GoldenRecord.Proofs.Extraction

namespace GoldenRecord

namespace ScriptedPage

def record (q : ScriptedPage) (index : Nat) : PageRecord where
  pageNumber := index
  width := Coordinate.round q.width
  height := Coordinate.round q.height
  chars := (absorb [] q.chars).map Attributes.toChar
  words := (absorb [] q.words).map Attributes.toWord
  text := (absorb none q.text).getD ""
  lines := (absorb [] q.lines).map Attributes.toLine
  rects := (absorb [] q.rects).map Attributes.toRect
  tables := (absorb [] q.tables).map RawTable.toTable

end ScriptedPage

namespace ScriptedExtractor

def viewCalls : List Call :=
  ["chars", "words", "text", "lines", "rects", "find_tables"].map .view

def pageCalls : List Call := .next :: viewCalls

/-- The pages before the first step that fails. -/
def served : List (Except Failure ScriptedPage) → List ScriptedPage
  | .ok q :: rest => q :: served rest
  | _ => []

/-- The calls of a whole extraction. A handle is closed and dropped whatever goes wrong with its
pages; but nothing is asked of one that announces too many of them, and it is only dropped. -/
def calls (x : ScriptedExtractor) (p : Path) : List Call :=
  .opened p :: match x.openFailure with
    | some _ => []
    | none =>
      if Document.maxPages < x.pageCount then [.dropped]
      else (served x.steps).flatMap (fun _ => pageCalls) ++ [.next, .closed, .dropped]

/-- The document of a script, if no step fails and all announced pages are there. -/
def document (x : ScriptedExtractor) (p : Path) : Except Failure Document := do
  let pages ← x.steps.mapM id
  if pages.length = x.pageCount then
    .ok { source := p.sourceName, extractorVersion := x.version
          pages := pages.mapIdx fun index q => q.record index }
  else .error (.extractor (.miscounted x.pageCount pages.length))

variable {x : ScriptedExtractor} {t : Tree} {p : Path} {log : List Call}

/-- All views are asked for, whatever the earlier ones answer. -/
theorem views_extract (q : ScriptedPage) (index : Nat) (log : List Call) :
    views.extract q index log = ((q.record index, q), log ++ viewCalls) := by
  have hlog : (((((log ++ [.view "chars"]) ++ [.view "words"]) ++ [.view "text"]) ++ [.view "lines"])
      ++ [.view "rects"]) ++ [.view "find_tables"] = log ++ viewCalls := by
    simp [viewCalls]
  rw [← hlog]
  rfl

theorem mapM_ok_cons (q : ScriptedPage) (rest : List (Except Failure ScriptedPage)) :
    (Except.ok q :: rest).mapM id = (rest.mapM id).map (q :: ·) := by
  rw [List.mapM_cons]
  cases rest.mapM id <;> rfl

theorem mapM_error_cons (f : Failure) (rest : List (Except Failure ScriptedPage)) :
    (Except.error f :: rest).mapM id = .error f := by
  rw [List.mapM_cons]
  rfl

theorem collect_eq (x : ScriptedExtractor) (steps : List (Except Failure ScriptedPage)) (index : Nat)
    (log : List Call) :
    ∃ rest, x.toExtractor.collect steps index log =
      (((steps.mapM id).map (·.mapIdx fun j q => q.record (index + j)), rest),
        log ++ (served steps).flatMap (fun _ => pageCalls) ++ [.next]) := by
  induction steps generalizing index log with
  | nil => exact ⟨[], Extractor.collect_of_end (by simp [served]; rfl)⟩
  | cons step rest ih =>
    cases step with
    | error f =>
      refine ⟨rest, ?_⟩
      rw [mapM_error_cons]
      exact Extractor.collect_of_error (by simp [served]; rfl)
    | ok q =>
      obtain ⟨left, hrest⟩ := ih (index + 1) (log ++ pageCalls)
      have hnext : x.toExtractor.nextPage (Except.ok q :: rest) log =
          ((.ok (some q), rest), log ++ [.next]) := rfl
      have hviews : x.toExtractor.views.extract q index (log ++ [.next]) =
          ((q.record index, q), log ++ pageCalls) := by
        refine (views_extract q index _).trans ?_
        simp [pageCalls]
      have hlog : log ++ (served (Except.ok q :: rest)).flatMap (fun _ => pageCalls) ++ [.next] =
          log ++ pageCalls ++ (served rest).flatMap (fun _ => pageCalls) ++ [.next] := by
        simp [served]
      refine ⟨left, ?_⟩
      rw [mapM_ok_cons, hlog]
      cases hpages : rest.mapM id with
      | error f =>
        rw [hpages] at hrest
        exact Extractor.collect_of_later_error hnext hviews hrest
      | ok pages =>
        rw [hpages] at hrest
        have hcollect := Extractor.collect_of_page hnext hviews hrest
        rw [← mapIdx_from_cons fun i (q : ScriptedPage) => q.record i] at hcollect
        exact hcollect

/-- What a script comes to: failures count in the order in which they are met, and a miscount is met
before the handle is closed. -/
def result (x : ScriptedExtractor) (p : Path) : Except Stop Document :=
  match x.openFailure with
  | some f => .error (.failed f)
  | none =>
    if Document.maxPages < x.pageCount then .error (.halted .overflow)
    else
      match x.document p, x.closeFailure with
      | .error f, _ => .error (.failed f)
      | .ok _, some f => .error (.failed f)
      | .ok d, none => .ok d

theorem assemble_eq (x : ScriptedExtractor) (p : Path) (log : List Call)
    (hfits : x.pageCount ≤ Document.maxPages) :
    ∃ rest, x.toExtractor.assemble x.steps p.sourceName log =
      (((x.document p).mapError .failed, rest),
        log ++ (served x.steps).flatMap (fun _ => pageCalls) ++ [.next]) := by
  obtain ⟨rest, hcollect⟩ := x.collect_eq x.steps 0 log
  refine ⟨rest, ?_⟩
  unfold document
  cases hpages : x.steps.mapM id with
  | error f =>
    rw [hpages] at hcollect
    exact Extractor.assemble_of_error p.sourceName hfits hcollect
  | ok pages =>
    rw [hpages] at hcollect
    rw [Extractor.assemble_of_pages x.pageCount p.sourceName rfl hfits hcollect]
    simp only [Nat.zero_add, List.length_mapIdx, bind, Except.bind]
    split <;> rfl

theorem extract_eq (x : ScriptedExtractor) (t : Tree) (p : Path) (log : List Call) :
    x.toExtractor.extract t p log = (x.result p, log ++ x.calls p) := by
  have hopen : x.toExtractor.openDocument t p log =
      ((outcome x.openFailure).map fun _ => x.steps, log ++ [.opened p]) := rfl
  unfold result calls
  cases hfailure : x.openFailure with
  | some f =>
    rw [hfailure] at hopen
    exact Extractor.extract_of_unopened hopen
  | none =>
    rw [hfailure] at hopen
    dsimp only
    split
    next hmax =>
      rw [Extractor.extract_of_overflow hopen hmax]
      exact congrArg (_, ·) (List.append_assoc log [.opened p] [.dropped])
    next hfits =>
      obtain ⟨rest, hassemble⟩ := x.assemble_eq p (log ++ [.opened p]) (Nat.not_lt.mp hfits)
      have hd : halt? ((x.document p).mapError .failed) = none := by cases x.document p <;> rfl
      have hk : halt? ((outcome x.closeFailure).mapError .failed) = none := by
        cases x.closeFailure <;> rfl
      rw [Extractor.extract_of_opened hopen hassemble rfl hd hk]
      refine Prod.ext ?_ ?_
      · cases x.document p <;> cases x.closeFailure <;> rfl
      · change log ++ [.opened p] ++ (served x.steps).flatMap (fun _ => pageCalls) ++ [.next] ++
          [.closed] ++ [.dropped] = _
        simp

theorem mapM_ok_iff {steps : List (Except Failure ScriptedPage)} {pages : List ScriptedPage} :
    steps.mapM id = .ok pages ↔ steps = pages.map .ok := by
  induction steps generalizing pages with
  | nil => cases pages <;> simp
  | cons step rest ih =>
    simp only [mapM_cons_ok_iff, ih, id_eq]
    constructor
    · rintro ⟨q, more, rfl, rfl, rfl⟩
      rfl
    · intro h
      cases pages with
      | nil => cases h
      | cons q more =>
        obtain ⟨hstep, hrest⟩ := List.cons.inj h
        exact ⟨q, more, hstep, hrest, rfl⟩

theorem served_map_ok (pages : List ScriptedPage) : served (pages.map .ok) = pages := by
  induction pages with
  | nil => rfl
  | cons q rest ih => simp [served, ih]

theorem steps_ok_iff {steps : List (Except Failure ScriptedPage)} :
    (∀ step ∈ steps, step.isOk = true) ↔ steps = (served steps).map .ok := by
  induction steps with
  | nil => simp [served]
  | cons step rest ih =>
    cases step with
    | error f =>
      have hfailed : (Except.error f : Except Failure ScriptedPage).isOk = false := rfl
      simp [served, hfailed]
    | ok q =>
      have hok : (Except.ok q : Except Failure ScriptedPage).isOk = true := rfl
      simp [served, hok, ih]

/-- A script is answered with a document exactly if nothing but views fails in it and the number of
pages is the announced one. -/
theorem document_ok_iff (x : ScriptedExtractor) (p : Path) :
    (∃ d, x.document p = .ok d) ↔
      (∀ step ∈ x.steps, step.isOk = true) ∧ (served x.steps).length = x.pageCount := by
  unfold document
  simp only [bind_ok_iff, mapM_ok_iff, steps_ok_iff]
  constructor
  · rintro ⟨d, pages, hsteps, hd⟩
    rw [hsteps, served_map_ok]
    split at hd
    next hcount => exact ⟨rfl, hcount⟩
    next => cases hd
  · rintro ⟨hsteps, hcount⟩
    exact ⟨_, served x.steps, hsteps, if_pos hcount⟩

theorem result_ok_iff (x : ScriptedExtractor) (p : Path) :
    (∃ d, x.result p = .ok d) ↔ x.openFailure = none ∧ x.pageCount ≤ Document.maxPages ∧
      (∃ d, x.document p = .ok d) ∧ x.closeFailure = none := by
  unfold result
  cases x.openFailure with
  | some f => simp
  | none =>
    by_cases hmax : Document.maxPages < x.pageCount
    · simp [hmax, Nat.not_le.mpr hmax]
    · simp only [if_neg hmax, Nat.not_lt.mp hmax, true_and]
      cases x.document p <;> cases x.closeFailure <;> simp

/-- The calls of an extraction depend on the pages that are announced and served, and on nothing that
goes wrong with their views. A document comes out exactly if it was opened, there is room for the
announced pages, every step was served, their number is the announced one, and it was closed; of
several failures the one of the pages comes before the one of closing. -/
theorem extract_follows_script (x : ScriptedExtractor) (t : Tree) (p : Path) (log : List Call) :
    (x.toExtractor.extract t p log).2 = log ++ x.calls p ∧
      ((∃ d, (x.toExtractor.extract t p log).1 = .ok d) ↔
        x.openFailure = none ∧ x.pageCount ≤ Document.maxPages ∧
          (∀ step ∈ x.steps, step.isOk = true) ∧ (served x.steps).length = x.pageCount ∧
          x.closeFailure = none) ∧
      (x.toExtractor.extract t p log).1 = x.result p := by
  rw [x.extract_eq t p log]
  refine ⟨rfl, ?_, rfl⟩
  rw [result_ok_iff, document_ok_iff, and_assoc]

/-- Announces more pages than there can be room for, and serves none. -/
def Sample.huge : ScriptedExtractor :=
  { version := "1", pageCount := 100000000000000000, steps := [] }

/-- The open handle is neither asked for a page nor closed. -/
theorem extract_of_huge_count :
    Sample.huge.openFailure = none ∧
      (Sample.huge.toExtractor.extract .empty ⟨"a.pdf"⟩ []).2 = [.opened ⟨"a.pdf"⟩, .dropped] ∧
      (Sample.huge.toExtractor.extract .empty ⟨"a.pdf"⟩ []).1 = .error (.halted .overflow) := by
  rw [Sample.huge.extract_eq]
  exact ⟨rfl, by decide, by decide⟩

end ScriptedExtractor

end GoldenRecord

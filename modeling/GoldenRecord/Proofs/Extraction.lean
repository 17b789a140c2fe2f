import GoldenRecord.Extraction
import GoldenRecord.Extractor.Memory
import GoldenRecord.Proofs.Outcome
import GoldenRecord.Proofs.TextMap

namespace GoldenRecord

namespace RawPage

/-- What a view contributes to the record: nothing if it failed. -/
def shown {α : Type} (p : RawPage) (name : String) (empty v : α) : α :=
  if (p.viewErrors.find? name).isSome then empty else v

def record (p : RawPage) (index : Nat) : PageRecord where
  pageNumber := index
  width := Coordinate.round p.width
  height := Coordinate.round p.height
  chars := (p.shown "chars" [] p.chars).map Attributes.toChar
  words := (p.shown "words" [] p.words).map Attributes.toWord
  text := (p.shown "text" none p.text).getD ""
  lines := (p.shown "lines" [] p.lines).map Attributes.toLine
  rects := (p.shown "rects" [] p.rects).map Attributes.toRect
  tables := (if p.tableError.isSome then [] else p.tables).map RawTable.toTable

theorem absorb_view {α : Type} (p : RawPage) (name : String) (take : RawPage → α × RawPage)
    (empty : α) : absorb empty (p.view name take).1 = p.shown name empty (take p).1 := by
  unfold view shown
  cases p.viewErrors.find? name <;> simp [absorb]

theorem find?_erase_of_ne (p : RawPage) {name n : String} (h : n ≠ name) :
    (p.viewErrors.erase name).find? n = p.viewErrors.find? n := by
  rw [TextMap.find?_erase, if_neg h]

theorem absorb_takeChars (p : RawPage) :
    absorb [] p.takeChars.1 = p.shown "chars" [] p.chars := p.absorb_view _ _ _

theorem absorb_takeWords (p : RawPage) :
    absorb [] p.takeWords.1 = p.shown "words" [] p.words := p.absorb_view _ _ _

theorem absorb_takeText (p : RawPage) :
    absorb none p.takeText.1 = p.shown "text" none p.text := p.absorb_view _ _ _

theorem absorb_takeLines (p : RawPage) :
    absorb [] p.takeLines.1 = p.shown "lines" [] p.lines := p.absorb_view _ _ _

theorem absorb_takeRects (p : RawPage) :
    absorb [] p.takeRects.1 = p.shown "rects" [] p.rects := p.absorb_view _ _ _

theorem absorb_takeTables (p : RawPage) :
    absorb [] p.takeTables.1 = if p.tableError.isSome then [] else p.tables := by
  unfold takeTables
  cases p.tableError <;> simp [absorb]

theorem record_takeChars (p : RawPage) (index : Nat) :
    ∃ chars, p.takeChars.2.record index = { p.record index with chars } := by
  unfold takeChars view
  split
  next => exact ⟨_, by simp [record, shown, find?_erase_of_ne]; rfl⟩
  next => exact ⟨_, rfl⟩

theorem record_takeWords (p : RawPage) (index : Nat) :
    ∃ words, p.takeWords.2.record index = { p.record index with words } := by
  unfold takeWords view
  split
  next => exact ⟨_, by simp [record, shown, find?_erase_of_ne]; rfl⟩
  next => exact ⟨_, rfl⟩

theorem record_takeText (p : RawPage) (index : Nat) :
    ∃ text, p.takeText.2.record index = { p.record index with text } := by
  unfold takeText view
  split
  next => exact ⟨_, by simp [record, shown, find?_erase_of_ne]; rfl⟩
  next => exact ⟨_, rfl⟩

theorem record_takeLines (p : RawPage) (index : Nat) :
    ∃ lines, p.takeLines.2.record index = { p.record index with lines } := by
  unfold takeLines view
  split
  next => exact ⟨_, by simp [record, shown, find?_erase_of_ne]; rfl⟩
  next => exact ⟨_, rfl⟩

theorem record_takeRects (p : RawPage) (index : Nat) :
    ∃ rects, p.takeRects.2.record index = { p.record index with rects } := by
  unfold takeRects view
  split
  next => exact ⟨_, by simp [record, shown, find?_erase_of_ne]; rfl⟩
  next => exact ⟨_, rfl⟩

theorem record_takeTables (p : RawPage) (index : Nat) :
    ∃ tables, p.takeTables.2.record index = { p.record index with tables } := by
  unfold takeTables
  split <;> exact ⟨_, rfl⟩

/-- Views do not get into each other's way, and the state of an extractor has no part in them. -/
theorem views_extract {State : Type} (p : RawPage) (index : Nat) (s : State) :
    ∃ rest, (RawPage.views State).extract p index s = ((p.record index, rest), s) := by
  generalize h₁ : p.takeChars.2 = p₁
  generalize h₂ : p₁.takeWords.2 = p₂
  generalize h₃ : p₂.takeText.2 = p₃
  generalize h₄ : p₃.takeLines.2 = p₄
  generalize h₅ : p₄.takeRects.2 = p₅
  generalize h₆ : p₅.takeTables.2 = p₆
  have hextract : (RawPage.views State).extract p index s =
      (({ pageNumber := index
          width := Coordinate.round p₆.width
          height := Coordinate.round p₆.height
          chars := (absorb [] p.takeChars.1).map Attributes.toChar
          words := (absorb [] p₁.takeWords.1).map Attributes.toWord
          text := (absorb none p₂.takeText.1).getD ""
          lines := (absorb [] p₃.takeLines.1).map Attributes.toLine
          rects := (absorb [] p₄.takeRects.1).map Attributes.toRect
          tables := (absorb [] p₅.takeTables.1).map RawTable.toTable }, p₆), s) := by
    subst h₁ h₂ h₃ h₄ h₅ h₆
    rfl
  have hrecord : PageRecord.mk index (Coordinate.round p₆.width) (Coordinate.round p₆.height)
      ((absorb [] p.takeChars.1).map Attributes.toChar)
      ((absorb [] p₁.takeWords.1).map Attributes.toWord)
      ((absorb none p₂.takeText.1).getD "")
      ((absorb [] p₃.takeLines.1).map Attributes.toLine)
      ((absorb [] p₄.takeRects.1).map Attributes.toRect)
      ((absorb [] p₅.takeTables.1).map RawTable.toTable) =
      { pageNumber := index, width := (p₆.record index).width, height := (p₆.record index).height
        chars := (p.record index).chars, words := (p₁.record index).words
        text := (p₂.record index).text, lines := (p₃.record index).lines
        rects := (p₄.record index).rects, tables := (p₅.record index).tables } := by
    simp only [record, absorb_takeChars, absorb_takeWords, absorb_takeText, absorb_takeLines,
      absorb_takeRects, absorb_takeTables]
  obtain ⟨_, e₁⟩ := p.record_takeChars index
  obtain ⟨_, e₂⟩ := p₁.record_takeWords index
  obtain ⟨_, e₃⟩ := p₂.record_takeText index
  obtain ⟨_, e₄⟩ := p₃.record_takeLines index
  obtain ⟨_, e₅⟩ := p₄.record_takeRects index
  obtain ⟨_, e₆⟩ := p₅.record_takeTables index
  rw [h₁] at e₁
  rw [h₂, e₁] at e₂
  rw [h₃, e₂] at e₃
  rw [h₄, e₃] at e₄
  rw [h₅, e₄] at e₅
  rw [h₆, e₅] at e₆
  rw [hextract, hrecord, e₆, e₅, e₄, e₃, e₂, e₁]
  exact ⟨p₆, rfl⟩

end RawPage

namespace Extractor

variable {State : Type} {e : Extractor State} {h h₁ h₂ : e.Handle} {s s₁ s₂ s₃ : State}
  {index : Nat} {f : Failure} {p rest : e.Page} {page : PageRecord} {pages : List PageRecord}

theorem collect_of_end (hn : e.nextPage h s = ((.ok none, h₁), s₁)) :
    e.collect h index s = ((.ok [], h₁), s₁) := by
  rw [collect, hn]

theorem collect_of_error (hn : e.nextPage h s = ((.error f, h₁), s₁)) :
    e.collect h index s = ((.error f, h₁), s₁) := by
  rw [collect, hn]

theorem collect_of_page (hn : e.nextPage h s = ((.ok (some p), h₁), s₁))
    (hv : e.views.extract p index s₁ = ((page, rest), s₂))
    (hc : e.collect h₁ (index + 1) s₂ = ((.ok pages, h₂), s₃)) :
    e.collect h index s = ((.ok (page :: pages), h₂), s₃) := by
  rw [collect, hn]
  simp only [hv, hc]

theorem collect_of_later_error (hn : e.nextPage h s = ((.ok (some p), h₁), s₁))
    (hv : e.views.extract p index s₁ = ((page, rest), s₂))
    (hc : e.collect h₁ (index + 1) s₂ = ((.error f, h₂), s₃)) :
    e.collect h index s = ((.error f, h₂), s₃) := by
  rw [collect, hn]
  simp only [hv, hc]

theorem assemble_of_pages (announced : Nat) (source : String) (ha : e.pageCount h = announced)
    (hfits : announced ≤ Document.maxPages) (hc : e.collect h 0 s = ((.ok pages, h₁), s₁)) :
    e.assemble h source s =
      ((if pages.length = announced then
          .ok { source, extractorVersion := e.version h₁, pages }
        else .error (.failed (.extractor (.miscounted announced pages.length))), h₁), s₁) := by
  subst ha
  unfold assemble
  dsimp only
  rw [if_neg (Nat.not_lt.mpr hfits)]
  refine (bind_of_answer hc).trans ?_
  dsimp only
  split <;> rfl

theorem assemble_of_error (source : String) (hfits : e.pageCount h ≤ Document.maxPages)
    (hc : e.collect h 0 s = ((.error f, h₁), s₁)) :
    e.assemble h source s = ((.error (.failed f), h₁), s₁) := by
  unfold assemble
  dsimp only
  rw [if_neg (Nat.not_lt.mpr hfits)]
  exact bind_of_answer hc

theorem assemble_of_overflow (source : String) (hmax : Document.maxPages < e.pageCount h) :
    e.assemble h source s = ((.error (.halted .overflow), h), s) := by
  unfold assemble
  dsimp only
  rw [if_pos hmax]
  rfl

variable {t : Tree} {path : Path} {document : Except Stop Document} {closed : Except Stop Unit}
  {halt : Halt}

theorem halt?_eq_some {α : Type} {x : Except Stop α} :
    halt? x = some halt ↔ x = .error (.halted halt) := by
  unfold halt?
  split <;> simp_all

theorem extract_of_unopened (ho : e.openDocument t path s = (.error f, s₁)) :
    e.extract t path s = (.error (.failed f), s₁) := bind_of_answer ho

/-- A fault of the pages comes before one of closing. -/
theorem extract_of_opened (ho : e.openDocument t path s = (.ok h, s₁))
    (ha : e.assemble h path.sourceName s₁ = ((document, h₁), s₂))
    (hc : e.close h₁ s₂ = ((closed, h₂), s₃)) (hd : halt? document = none)
    (hk : halt? closed = none) :
    e.extract t path s =
      (document.bind fun d => closed.map fun _ => d, (e.drop h₂ s₃).2) := by
  refine (bind_of_answer ho).trans ((bind_of_answer ha).trans ?_)
  dsimp only
  rw [hd]
  refine (bind_of_answer hc).trans ?_
  dsimp only
  rw [hk]
  refine (bind_of_answer rfl).trans ?_
  cases document <;> cases closed <;> rfl

theorem extract_of_halted_pages (ho : e.openDocument t path s = (.ok h, s₁))
    (ha : e.assemble h path.sourceName s₁ = ((.error (.halted halt), h₁), s₂)) :
    e.extract t path s = (.error (.halted halt), (e.abandon h₁ halt s₂).2) :=
  (bind_of_answer ho).trans ((bind_of_answer ha).trans (bind_of_answer rfl))

/-- Nothing is asked of a document with more pages than there can be room for. -/
theorem extract_of_overflow (ho : e.openDocument t path s = (.ok h, s₁))
    (hmax : Document.maxPages < e.pageCount h) :
    e.extract t path s = (.error (.halted .overflow), (e.drop h s₁).2) :=
  extract_of_halted_pages ho (assemble_of_overflow path.sourceName hmax)

theorem extract_of_halted_close (ho : e.openDocument t path s = (.ok h, s₁))
    (ha : e.assemble h path.sourceName s₁ = ((document, h₁), s₂)) (hd : halt? document = none)
    (hc : e.close h₁ s₂ = ((.error (.halted halt), h₂), s₃)) :
    e.extract t path s = (.error (.halted halt), (e.abandon h₂ halt s₃).2) := by
  refine (bind_of_answer ho).trans ((bind_of_answer ha).trans ?_)
  dsimp only
  rw [hd]
  exact (bind_of_answer hc).trans (bind_of_answer rfl)

end Extractor

/-- Items that are counted from some index on, the first one apart. -/
theorem mapIdx_from_cons {α β : Type} (f : Nat → α → β) (index : Nat) (a : α) (as : List α) :
    (a :: as).mapIdx (fun j b => f (index + j) b) =
      f index a :: as.mapIdx fun j b => f (index + 1 + j) b := by
  simp [List.mapIdx_cons, Nat.add_assoc, Nat.add_comm 1]

namespace MemoryExtractor

theorem collect_eq (m : MemoryExtractor) (version : String) (pageCount : Nat) (isOpen : Bool)
    (pages : List RawPage) (index released : Nat) :
    m.toExtractor.collect (MemoryDocument.mk version pageCount pages isOpen) index released =
      ((.ok (pages.mapIdx fun j p => p.record (index + j)),
        MemoryDocument.mk version pageCount [] isOpen), released) := by
  induction pages generalizing index with
  | nil => exact Extractor.collect_of_end rfl
  | cons p rest ih =>
    obtain ⟨left, hv⟩ := RawPage.views_extract p index released
    have hc := Extractor.collect_of_page (e := m.toExtractor)
      (h := MemoryDocument.mk version pageCount (p :: rest) isOpen) rfl hv (ih (index + 1))
    rw [mapIdx_from_cons fun i (p : RawPage) => p.record i]
    exact hc

/-- What a recorded document is turned into. -/
def answer (m : MemoryExtractor) (p : Path) : Except Stop Document :=
  ((m.openDocument p).mapError .failed).map fun d =>
    { source := p.sourceName, extractorVersion := d.version
      pages := d.pages.mapIdx fun j page => page.record j }

theorem openDocument_ok {m : MemoryExtractor} {p : Path} {d : MemoryDocument}
    (h : m.openDocument p = .ok d) :
    ∃ pages fits, m.recordings.find? (p.fileName?.getD "") = some (.pages pages fits) ∧
      d = { version := m.version, pageCount := pages.length, pages } := by
  unfold openDocument at h
  split at h
  next pages fits hfind => exact ⟨pages, fits, hfind, (Except.ok.inj h).symm⟩
  next => cases h
  next => cases h

/-- Every document that was opened is released once. -/
theorem extract_eq (m : MemoryExtractor) (t : Tree) (p : Path) (released : Nat) :
    m.toExtractor.extract t p released =
      (m.answer p, released + if (m.openDocument p).isOk then 1 else 0) := by
  have ho : m.toExtractor.openDocument t p released = (m.openDocument p, released) := rfl
  unfold answer
  cases hopen : m.openDocument p with
  | error f =>
    rw [hopen] at ho
    exact Extractor.extract_of_unopened ho
  | ok d =>
    obtain ⟨pages, hfits, -, rfl⟩ := openDocument_ok hopen
    rw [hopen] at ho
    have hc := m.collect_eq m.version pages.length true pages 0 released
    have hlength : (pages.mapIdx fun j page => page.record (0 + j)).length = pages.length := by simp
    have ha := Extractor.assemble_of_pages pages.length p.sourceName rfl hfits hc
    rw [if_pos hlength] at ha
    rw [Extractor.extract_of_opened ho ha rfl rfl rfl]
    simp only [Nat.zero_add]
    rfl

end MemoryExtractor

end GoldenRecord

import GoldenRecord.Proofs.Extractor.Scripted

namespace GoldenRecord

/-- The six views of a page, in the order in which they are asked for. -/
inductive View where
  | chars
  | words
  | text
  | lines
  | rects
  | tables
deriving DecidableEq, Repr

abbrev View.Data : View → Type
  | .text => Option String
  | .tables => List RawTable
  | _ => List Attributes

/-- The record with the fields of some views emptied. -/
def PageRecord.without (r : PageRecord) (failed : View → Bool) : PageRecord :=
  { r with
    chars := if failed .chars then [] else r.chars
    words := if failed .words then [] else r.words
    text := if failed .text then "" else r.text
    lines := if failed .lines then [] else r.lines
    rects := if failed .rects then [] else r.rects
    tables := if failed .tables then [] else r.tables }

def PageRecord.blank (index : Nat) : PageRecord where
  pageNumber := index
  width := none
  height := none
  chars := []
  words := []
  text := ""
  lines := []
  rects := []
  tables := []

namespace ScriptedPage

def ask (q : ScriptedPage) : (w : View) → Except Failure w.Data
  | .chars => q.chars
  | .words => q.words
  | .text => q.text
  | .lines => q.lines
  | .rects => q.rects
  | .tables => q.tables

/-- `q'` fails at some views, with whatever failures, and answers as `q` does everywhere else. -/
structure FailsAt (failed : View → Bool) (q q' : ScriptedPage) : Prop where
  width : q'.width = q.width
  height : q'.height = q.height
  lost : ∀ w, failed w = true → ∃ f, q'.ask w = .error f
  kept : ∀ w, failed w = false → q'.ask w = q.ask w

variable {failed : View → Bool} {q q' : ScriptedPage}

theorem FailsAt.absorb_ask (h : FailsAt failed q q') (w : View) (empty : w.Data) :
    absorb empty (q'.ask w) = if failed w then empty else absorb empty (q.ask w) := by
  cases hw : failed w with
  | true =>
    obtain ⟨f, hf⟩ := h.lost w hw
    rw [hf]
    rfl
  | false =>
    rw [h.kept w hw]
    rfl

theorem FailsAt.record (h : FailsAt failed q q') (index : Nat) :
    q'.record index = (q.record index).without failed := by
  -- each field of a record is made of one answer, a failure counting as an empty one
  have hchars : absorb [] q'.chars = _ := h.absorb_ask .chars []
  have hwords : absorb [] q'.words = _ := h.absorb_ask .words []
  have htext : absorb none q'.text = _ := h.absorb_ask .text none
  have hlines : absorb [] q'.lines = _ := h.absorb_ask .lines []
  have hrects : absorb [] q'.rects = _ := h.absorb_ask .rects []
  have htables : absorb [] q'.tables = _ := h.absorb_ask .tables []
  unfold ScriptedPage.record PageRecord.without
  rw [h.width, h.height, hchars, hwords, htext, hlines, hrects, htables]
  simp only [apply_ite (List.map _), apply_ite (fun t : Option String => t.getD ""), List.map_nil,
    Option.getD_none, ask]

/-- The script with some answers replaced by failures. -/
def failing (q : ScriptedPage) (fault : View → Option Failure) : ScriptedPage :=
  { q with
    chars := (fault .chars).elim q.chars .error
    words := (fault .words).elim q.words .error
    text := (fault .text).elim q.text .error
    lines := (fault .lines).elim q.lines .error
    rects := (fault .rects).elim q.rects .error
    tables := (fault .tables).elim q.tables .error }

theorem ask_failing (q : ScriptedPage) (fault : View → Option Failure) (w : View) :
    (q.failing fault).ask w = (fault w).elim (q.ask w) .error := by
  cases w <;> rfl

theorem failsAt_failing (q : ScriptedPage) (fault : View → Option Failure) :
    FailsAt (fun w => (fault w).isSome) q (q.failing fault) where
  width := rfl
  height := rfl
  lost w hw := by
    obtain ⟨f, hf⟩ := Option.isSome_iff_exists.mp hw
    exact ⟨f, by rw [ask_failing, hf]; rfl⟩
  kept w hw := by
    have hnone : fault w = none := by simpa using hw
    rw [ask_failing, hnone]
    rfl

end ScriptedPage

namespace Views

variable {Page State : Type}

/-- What the views of a page answer one after the other, and the size it has after that. -/
def script (v : Views Page State) (p : Page) : StateM State (ScriptedPage × Page) := do
  let (chars, p) ← v.chars p
  let (words, p) ← v.words p
  let (text, p) ← v.text p
  let (lines, p) ← v.lines p
  let (rects, p) ← v.rects p
  let (tables, p) ← v.tables p
  return ({ width := v.width p, height := v.height p, chars, words, text, lines, rects, tables }, p)

theorem extract_eq (v : Views Page State) (p : Page) (index : Nat) (s : State) :
    v.extract p index s =
      (((v.script p s).1.1.record index, (v.script p s).1.2), (v.script p s).2) := rfl

/-- A view that is asked for and then fails after all, if there is a fault. -/
def overruled {α : Type} (fault : Option Failure) (asked : StateM State (Except Failure α × Page)) :
    StateM State (Except Failure α × Page) := do
  let (result, p) ← asked
  return (fault.elim result .error, p)

/-- The same pages with faults in some of their views. -/
def failing (v : Views Page State) (fault : View → Option Failure) : Views Page State where
  width := v.width
  height := v.height
  chars p := overruled (fault .chars) (v.chars p)
  words p := overruled (fault .words) (v.words p)
  text p := overruled (fault .text) (v.text p)
  lines p := overruled (fault .lines) (v.lines p)
  rects p := overruled (fault .rects) (v.rects p)
  tables p := overruled (fault .tables) (v.tables p)

theorem script_failing (v : Views Page State) (fault : View → Option Failure) (p : Page)
    (s : State) :
    (v.failing fault).script p s =
      (((v.script p s).1.1.failing fault, (v.script p s).1.2), (v.script p s).2) := rfl

theorem extract_failing (v : Views Page State) (fault : View → Option Failure) (p : Page)
    (index : Nat) (s : State) :
    (v.failing fault).extract p index s =
      (((v.extract p index s).1.1.without fun w => (fault w).isSome, (v.extract p index s).1.2),
        (v.extract p index s).2) := by
  rw [extract_eq, script_failing, (ScriptedPage.failsAt_failing _ fault).record, extract_eq]

end Views

namespace RawPage

/-- The views that a recorded page fails at. Names that are not views fail nothing. -/
def failed (p : RawPage) : View → Bool
  | .chars => (p.viewErrors.find? "chars").isSome
  | .words => (p.viewErrors.find? "words").isSome
  | .text => (p.viewErrors.find? "text").isSome
  | .lines => (p.viewErrors.find? "lines").isSome
  | .rects => (p.viewErrors.find? "rects").isSome
  | .tables => p.tableError.isSome

/-- The page with none of its failures recorded. -/
def intact (p : RawPage) : RawPage :=
  { p with viewErrors := .empty, tableError := none }

theorem record_eq_without (p : RawPage) (index : Nat) :
    p.record index = (p.intact.record index).without p.failed := by
  have hintact : p.intact.record index =
      { pageNumber := index
        width := Coordinate.round p.width
        height := Coordinate.round p.height
        chars := p.chars.map Attributes.toChar
        words := p.words.map Attributes.toWord
        text := p.text.getD ""
        lines := p.lines.map Attributes.toLine
        rects := p.rects.map Attributes.toRect
        tables := p.tables.map RawTable.toTable } := rfl
  rw [hintact]
  simp only [record, shown, PageRecord.without, apply_ite (List.map _),
    apply_ite (fun t : Option String => t.getD ""), List.map_nil, Option.getD_none]
  rfl

/-- Every view of a page that could not be produced fails, so nothing of it is recorded. -/
theorem record_unavailable (pageNumber : Nat) (message : String) (index : Nat) :
    (unavailable pageNumber message).record index = .blank index := by
  have hfails : ∀ name ∈ viewNames,
      ((unavailable pageNumber message).viewErrors.find? name).isSome := by
    intro name hname
    rw [unavailable, TextMap.isSome_find?_ofList, List.map_map]
    simpa using hname
  have hfailed : (unavailable pageNumber message).failed = fun _ => true := by
    funext w
    cases w with
    | tables => rfl
    | _ => exact hfails _ (by decide)
  rw [record_eq_without, hfailed]
  rfl

theorem extract_eq_record {State : Type} (p : RawPage) (index : Nat) (s : State) :
    ((RawPage.views State).extract p index s).1.1 = p.record index := by
  obtain ⟨_, h⟩ := p.views_extract index s
  rw [h]

end RawPage

/-- A page that could not be produced keeps its place between the others. -/
theorem MemoryExtractor.collect_unavailable (m : MemoryExtractor) (d : MemoryDocument)
    (before after : List RawPage) (pageNumber : Nat) (message : String) (released : Nat) :
    (m.toExtractor.collect
        { d with pages := before ++ .unavailable pageNumber message :: after } 0 released).1.1 =
      .ok (before.mapIdx (fun j p => p.record j) ++ .blank before.length ::
        after.mapIdx fun j p => p.record (before.length + 1 + j)) := by
  have hcollect := m.collect_eq d.version d.pageCount d.isOpen
    (before ++ .unavailable pageNumber message :: after) 0 released
  have hindex : ∀ i, i + 1 + before.length = before.length + 1 + i := by omega
  refine (congrArg (fun answer => answer.1.1) hcollect).trans ?_
  simp only [Nat.zero_add, List.mapIdx_append, List.mapIdx_cons, RawPage.record_unavailable, hindex]

/-- A failing view empties its field of the record of the page and changes nothing else. This is so
for any two pages of which one answers as the other does outside the failed views, for a page some
of whose answers are replaced by failures, and for a recorded page, whatever failures are recorded
under whatever names. The position decides the number of the page; a page that could not be
produced is blank and stays between its neighbours. -/
theorem page_failures_contained {Page State : Type} (v : Views Page State) (p : Page) (index : Nat)
    (s : State) (r : RawPage) :
    (v.extract p index s).1.1.pageNumber = index ∧
    (∀ {Page' State' : Type} (v' : Views Page' State') (p' : Page') (s' : State')
      (failed : View → Bool),
      ScriptedPage.FailsAt failed (v.script p s).1.1 (v'.script p' s').1.1 →
        (v'.extract p' index s').1.1 = (v.extract p index s).1.1.without failed) ∧
    (∀ fault : View → Option Failure,
      (v.failing fault).extract p index s =
        (((v.extract p index s).1.1.without fun w => (fault w).isSome, (v.extract p index s).1.2),
          (v.extract p index s).2)) ∧
    (∀ (pageNumber : Nat) (viewErrors : TextMap String) (tableError : Option String),
      let faulty := { r with pageNumber, viewErrors, tableError }
      ((RawPage.views State).extract faulty index s).1.1 =
        ((RawPage.views State).extract r.intact index s).1.1.without faulty.failed) ∧
    (∀ (pageNumber : Nat) (message : String),
      ((RawPage.views State).extract (.unavailable pageNumber message) index s).1.1 =
        .blank index) ∧
    ∀ (m : MemoryExtractor) (d : MemoryDocument) (before after : List RawPage) (pageNumber : Nat)
      (message : String) (released : Nat),
      (m.toExtractor.collect
          { d with pages := before ++ .unavailable pageNumber message :: after } 0 released).1.1 =
        .ok (before.mapIdx (fun j p => p.record j) ++ .blank before.length ::
          after.mapIdx fun j p => p.record (before.length + 1 + j)) := by
  refine ⟨rfl, fun v' p' s' failed hfails => ?_, fun fault => v.extract_failing fault p index s,
    fun pageNumber viewErrors tableError => ?_, fun pageNumber message => ?_,
    MemoryExtractor.collect_unavailable⟩
  · rw [Views.extract_eq, Views.extract_eq]
    exact hfails.record index
  · dsimp only
    rw [RawPage.extract_eq_record, RawPage.extract_eq_record, RawPage.record_eq_without]
    rfl
  · rw [RawPage.extract_eq_record, RawPage.record_unavailable]

/-- A page whose text cannot be had, next to the same page with all of its views. -/
theorem page_failures_contained_of_lost_text :
    let whole : ScriptedPage := { text := .ok (some "cover"), words := .ok [.empty] }
    let broken : ScriptedPage := { whole with text := .error (.page 3 "text: no font") }
    ScriptedPage.FailsAt (· == .text) (ScriptedExtractor.views.script whole []).1.1
        (ScriptedExtractor.views.script broken []).1.1 ∧
      (ScriptedExtractor.views.extract broken 3 []).1.1 =
        (ScriptedExtractor.views.extract whole 3 []).1.1.without (· == .text) := by
  intro whole broken
  have hfails : ScriptedPage.FailsAt (· == .text) (ScriptedExtractor.views.script whole []).1.1
      (ScriptedExtractor.views.script broken []).1.1 :=
    { width := rfl
      height := rfl
      lost := fun w hw => ⟨.page 3 "text: no font", by cases eq_of_beq hw; rfl⟩
      kept := fun w hw => by
        cases w with
        | text => cases hw
        | _ => rfl }
  exact ⟨hfails, (page_failures_contained ScriptedExtractor.views whole 3 [] {}).2.1
    ScriptedExtractor.views broken [] _ hfails⟩

end GoldenRecord

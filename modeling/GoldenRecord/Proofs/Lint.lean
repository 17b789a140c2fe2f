import GoldenRecord.Proofs.Coordinate
import GoldenRecord.Proofs.Extraction
import GoldenRecord.Proofs.Golden

namespace GoldenRecord

/-- Two finite numbers in the wrong order. -/
def Inverted (low high : Option Binary64) : Prop :=
  ∃ x y : Finite, low = some (.finite x) ∧ high = some (.finite y) ∧ y.value < x.value

namespace Lint

open Coordinate

@[simp] theorem number_round (spot : Spot) (m : Measure) (v : Option Binary64) :
    number spot m (round v) = [] := by
  cases h : round v with
  | none => rfl
  | some w =>
    obtain ⟨x, -, rfl⟩ := round_eq_some.mp h
    exact if_neg (Nat.not_lt.mpr (decimalPlaces_rounded x))

@[simp] theorem number_roundValue (spot : Spot) (m : Measure) (v : Binary64) :
    number spot m (roundValue v) = [] :=
  number_round spot m (some v)

/-- Rounding does not turn two numbers around. -/
theorem inverted_round {low high : Option Binary64} {pair : Binary64 × Binary64}
    (h : inverted (round low) (round high) = some pair) : Inverted low high := by
  unfold inverted at h
  split at h
  next v w hlow hhigh =>
    obtain ⟨x, rfl, rfl⟩ := round_eq_some.mp hlow
    obtain ⟨y, rfl, rfl⟩ := round_eq_some.mp hhigh
    split at h
    next hlt =>
      refine ⟨x, y, rfl, rfl, Int.not_le.mp fun hle => ?_⟩
      have hrounded : (rounded y).value < (rounded x).value := of_decide_eq_true hlt
      exact Int.not_le.mpr hrounded (rounded_mono hle)
    next => cases h
  next => cases h

end Lint

def Breach.IsInversionOf (corner? : Measure → Option Binary64) : Breach → Prop
  | .invertedX _ _ => Inverted (corner? .x0) (corner? .x1)
  | .invertedY _ _ => Inverted (corner? .top) (corner? .bottom)
  | .precision _ | .pageNumber _ _ => False

namespace Lint

open Coordinate

variable {v : Violation} {spot : Spot} {a : Attributes}

/-- All that the lint finds at a box are directions that were inverted before rounding. -/
theorem isInversionOf_of_mem_box (corner? : Measure → Option Binary64)
    (h : v ∈ box spot
      ⟨round (corner? .x0), round (corner? .top), round (corner? .x1), round (corner? .bottom)⟩) :
    v.spot = spot ∧ v.breach.IsInversionOf corner? := by
  simp only [box, number_round, List.nil_append, List.mem_append, List.mem_map,
    Option.mem_toList] at h
  rcases h with ⟨pair, hpair, rfl⟩ | ⟨pair, hpair, rfl⟩
  · exact ⟨rfl, inverted_round hpair⟩
  · exact ⟨rfl, inverted_round hpair⟩

theorem isInversionOf_of_mem_char (h : v ∈ char spot a.toChar) :
    v.spot = spot ∧ v.breach.IsInversionOf fun m => a.number? m.name := by
  simp only [char, Attributes.toChar, Attributes.size, Attributes.doctop, number_round,
    number_roundValue, List.append_nil] at h
  exact isInversionOf_of_mem_box _ h

theorem isInversionOf_of_mem_word (h : v ∈ word spot a.toWord) :
    v.spot = spot ∧ v.breach.IsInversionOf fun m => a.number? m.name := by
  simp only [word, Attributes.toWord, Attributes.doctop, number_round, List.append_nil] at h
  exact isInversionOf_of_mem_box _ h

theorem isInversionOf_of_mem_line (h : v ∈ line spot a.toLine) :
    v.spot = spot ∧ v.breach.IsInversionOf fun m => a.number? m.name := by
  simp only [line, Attributes.toLine, Attributes.linewidth, number_roundValue, List.append_nil] at h
  exact isInversionOf_of_mem_box _ h

theorem isInversionOf_of_mem_rect (h : v ∈ rect spot a.toRect) :
    v.spot = spot ∧ v.breach.IsInversionOf fun m => a.number? m.name := by
  simp only [rect, Attributes.toRect, Attributes.linewidth, number_roundValue, List.append_nil] at h
  exact isInversionOf_of_mem_box _ h

theorem mem_items {α β : Type} {page : Nat} {c : Collection} {check : Spot → β → List Violation}
    {project : α → β} {xs : List α} (h : v ∈ items page c check (xs.map project)) :
    ∃ j x, xs[j]? = some x ∧ v ∈ check { page, item := some (c, j) } (project x) := by
  obtain ⟨⟨y, j⟩, hmem, hv⟩ := List.mem_flatMap.mp h
  obtain ⟨x, hx, rfl⟩ := Option.map_eq_some_iff.mp
    (List.getElem?_map ▸ List.mem_zipIdx_iff_getElem?.mp hmem)
  exact ⟨j, x, hx, hv⟩

end Lint

def RawTable.corner? (t : RawTable) : Measure → Option Binary64
  | .x0 => t.bbox[0]?.bind (·.number?)
  | .top => t.bbox[1]?.bind (·.number?)
  | .x1 => t.bbox[2]?.bind (·.number?)
  | .bottom => t.bbox[3]?.bind (·.number?)
  | _ => none

namespace RawPage

def corner? (p : RawPage) : Collection × Nat → Measure → Option Binary64
  | (.chars, j), m => p.chars[j]?.bind (·.number? m.name)
  | (.words, j), m => p.words[j]?.bind (·.number? m.name)
  | (.lines, j), m => p.lines[j]?.bind (·.number? m.name)
  | (.rects, j), m => p.rects[j]?.bind (·.number? m.name)
  | (.tables, j), m => p.tables[j]?.bind (·.corner? m)

theorem getElem?_of_shown {α : Type} {p : RawPage} {name : String} {xs : List α} {j : Nat} {x : α}
    (h : (p.shown name [] xs)[j]? = some x) : xs[j]? = some x := by
  unfold shown at h
  split at h
  next => cases h
  next => exact h

/-- Everything the lint finds on the record of a page is an object that was reported inverted. -/
theorem mem_page_record {p : RawPage} {i : Nat} {v : Violation} (h : v ∈ Lint.page i (p.record i)) :
    ∃ item, v.spot = { page := i, item := some item } ∧
      v.breach.IsInversionOf (p.corner? item) := by
  simp only [Lint.page, record, if_true, Lint.number_round, List.nil_append, List.mem_append] at h
  rcases h with (((h | h) | h) | h) | h
  · obtain ⟨j, a, ha, h⟩ := Lint.mem_items h
    have hcorner : p.corner? (.chars, j) = fun m => a.number? m.name :=
      funext fun m => by rw [corner?, getElem?_of_shown ha, Option.bind_some]
    exact ⟨(.chars, j), hcorner ▸ Lint.isInversionOf_of_mem_char h⟩
  · obtain ⟨j, a, ha, h⟩ := Lint.mem_items h
    have hcorner : p.corner? (.words, j) = fun m => a.number? m.name :=
      funext fun m => by rw [corner?, getElem?_of_shown ha, Option.bind_some]
    exact ⟨(.words, j), hcorner ▸ Lint.isInversionOf_of_mem_word h⟩
  · obtain ⟨j, a, ha, h⟩ := Lint.mem_items h
    have hcorner : p.corner? (.lines, j) = fun m => a.number? m.name :=
      funext fun m => by rw [corner?, getElem?_of_shown ha, Option.bind_some]
    exact ⟨(.lines, j), hcorner ▸ Lint.isInversionOf_of_mem_line h⟩
  · obtain ⟨j, a, ha, h⟩ := Lint.mem_items h
    have hcorner : p.corner? (.rects, j) = fun m => a.number? m.name :=
      funext fun m => by rw [corner?, getElem?_of_shown ha, Option.bind_some]
    exact ⟨(.rects, j), hcorner ▸ Lint.isInversionOf_of_mem_rect h⟩
  · obtain ⟨j, t, ht, h⟩ := Lint.mem_items h
    have htable : p.tables[j]? = some t := by
      split at ht
      next => cases ht
      next => exact ht
    have hcorner : p.corner? (.tables, j) = t.corner? :=
      funext fun m => by rw [corner?, htable, Option.bind_some]
    exact ⟨(.tables, j), hcorner ▸ Lint.isInversionOf_of_mem_box t.corner? h⟩

end RawPage

section Writable

open Coordinate

/-- A coordinate is never written as null. -/
theorem Coordinate.isFinite_of_round {v : Option Binary64} : ∀ w ∈ round v, w.isFinite = true := by
  intro w hw
  obtain ⟨x, -, rfl⟩ := round_eq_some.mp hw
  rfl

theorem Coordinate.isFinite_of_roundValue {v : Binary64} :
    ∀ w ∈ roundValue v, w.isFinite = true :=
  isFinite_of_round (v := some v)

theorem Attributes.isWritable_toChar (a : Attributes) : Recorded.IsWritable a.toChar :=
  ⟨trivial, isFinite_of_round, isFinite_of_round, isFinite_of_round, isFinite_of_round, trivial,
    isFinite_of_roundValue, isFinite_of_round, trivial, trivial⟩

theorem Attributes.isWritable_toWord (a : Attributes) : Recorded.IsWritable a.toWord :=
  ⟨trivial, isFinite_of_round, isFinite_of_round, isFinite_of_round, isFinite_of_round,
    isFinite_of_round, trivial⟩

theorem Attributes.isWritable_toLine (a : Attributes) : Recorded.IsWritable a.toLine :=
  ⟨isFinite_of_round, isFinite_of_round, isFinite_of_round, isFinite_of_round,
    isFinite_of_roundValue, trivial⟩

theorem Attributes.isWritable_toRect (a : Attributes) : Recorded.IsWritable a.toRect :=
  ⟨isFinite_of_round, isFinite_of_round, isFinite_of_round, isFinite_of_round,
    isFinite_of_roundValue, trivial, trivial, trivial⟩

theorem RawTable.isWritable_toTable (t : RawTable) : Recorded.IsWritable t.toTable :=
  ⟨⟨isFinite_of_round, isFinite_of_round, isFinite_of_round, isFinite_of_round, trivial⟩,
    fun _ _ _ _ => trivial, trivial⟩

theorem Recorded.forall_isWritable {α β : Type} [Recorded β] {project : α → β}
    (h : ∀ x, IsWritable (project x)) (xs : List α) :
    ∀ data ∈ (xs.map project).map toData, (schema β).IsWritable data := by
  intro data hdata
  obtain ⟨y, hy, rfl⟩ := List.mem_map.mp hdata
  obtain ⟨x, -, rfl⟩ := List.mem_map.mp hy
  exact h x

theorem RawPage.isWritable_record (p : RawPage) {i : Nat} (hi : i < 2 ^ 64) :
    Recorded.IsWritable (p.record i) :=
  ⟨hi, isFinite_of_round, isFinite_of_round,
    Recorded.forall_isWritable Attributes.isWritable_toChar _,
    Recorded.forall_isWritable Attributes.isWritable_toWord _, trivial,
    Recorded.forall_isWritable Attributes.isWritable_toLine _,
    Recorded.forall_isWritable Attributes.isWritable_toRect _,
    Recorded.forall_isWritable RawTable.isWritable_toTable _, trivial⟩

end Writable

/-- The records of recorded pages, each numbered by its place. -/
theorem MemoryExtractor.pages_of_extract {m : MemoryExtractor} {t : Tree} {p : Path} {n : Nat}
    {d : Document} (h : (m.toExtractor.extract t p n).1 = .ok d) :
    ∃ pages fits, m.recordings.find? (p.fileName?.getD "") = some (.pages pages fits) ∧
      d.pages = pages.mapIdx fun i page => page.record i := by
  rw [extract_eq] at h
  obtain ⟨opened, hopened, rfl⟩ := map_ok_iff.mp h
  cases ho : m.openDocument p with
  | error f =>
    rw [ho] at hopened
    cases hopened
  | ok document =>
    obtain ⟨pages, fits, hfind, rfl⟩ := openDocument_ok ho
    rw [ho] at hopened
    cases hopened
    exact ⟨pages, fits, hfind, rfl⟩

namespace Document

variable {d : Document} {pages : List RawPage}

theorem isWritable_of_records (hd : d.pages = pages.mapIdx fun i page => page.record i)
    (hlength : d.pages.length ≤ 2 ^ 64) : Recorded.IsWritable d := by
  refine ⟨trivial, trivial, fun data hdata => ?_, trivial⟩
  obtain ⟨record, hrecord, rfl⟩ := List.mem_map.mp hdata
  rw [hd] at hrecord hlength
  obtain ⟨i, hi, rfl⟩ := List.mem_mapIdx.mp hrecord
  rw [List.length_mapIdx] at hlength
  exact pages[i].isWritable_record (Nat.lt_of_lt_of_le hi hlength)

theorem mem_violations_of_records (hd : d.pages = pages.mapIdx fun i page => page.record i) :
    ∀ v ∈ d.violations, ∃ i raw item, pages[i]? = some raw ∧
      v.spot = { page := i, item := some item } ∧ v.breach.IsInversionOf (raw.corner? item) := by
  intro v hv
  obtain ⟨⟨record, i⟩, hrecord, hv⟩ := List.mem_flatMap.mp hv
  have hi : d.pages[i]? = some record := List.mem_zipIdx_iff_getElem?.mp hrecord
  rw [hd, List.getElem?_mapIdx] at hi
  obtain ⟨raw, hraw, rfl⟩ := Option.map_eq_some_iff.mp hi
  obtain ⟨item, hspot, hbreach⟩ := RawPage.mem_page_record hv
  exact ⟨i, raw, item, hraw, hspot, hbreach⟩

end Document

namespace Tree

/-- A document that was made of recorded pages is loaded from its golden file, and the lint finds
nothing in it but objects that were reported inverted: no number has too many decimals, and no page
is out of place. Without such an object the golden file keeps all rules. -/
theorem checkGolden_of_extract (m : MemoryExtractor) (t : Tree) (p : Path) (released : Nat)
    (d : Document) (hd : (m.toExtractor.extract t p released).1 = .ok d)
    (hnearest : Recorded.IsReadNearest d) (u : Tree) (q : Path)
    (hfile : u.readFile q = .ok (d.goldenBytes .full)) :
    u.loadGolden q = .ok d ∧
      u.checkGolden q =
        (if d.violations.isEmpty then .ok d else .error (.violations q d.violations)) ∧
      ∃ pages fits, m.recordings.find? (p.fileName?.getD "") = some (.pages pages fits) ∧
        (∀ v ∈ d.violations, ∃ i raw item, pages[i]? = some raw ∧
          v.spot = { page := i, item := some item } ∧
          v.breach.IsInversionOf (raw.corner? item)) ∧
        ((∀ raw ∈ pages, ∀ item, ¬ Inverted (raw.corner? item .x0) (raw.corner? item .x1) ∧
            ¬ Inverted (raw.corner? item .top) (raw.corner? item .bottom)) →
          u.checkGolden q = .ok d) := by
  obtain ⟨pages, fits, hfind, hpages⟩ := MemoryExtractor.pages_of_extract hd
  have hlength : d.pages.length ≤ 2 ^ 64 := by
    rw [hpages, List.length_mapIdx]
    exact Nat.le_trans fits (by decide)
  have hload : u.loadGolden q = .ok d := loadGolden_ok_iff.mpr ⟨_, hfile,
    Document.ofGoldenBytes?_goldenBytes (Document.isWritable_of_records hpages hlength) hnearest⟩
  have hcheck : u.checkGolden q =
      (if d.violations.isEmpty then .ok d else .error (.violations q d.violations)) := by
    unfold checkGolden
    rw [hload]
    rfl
  have hviolations := Document.mem_violations_of_records hpages
  refine ⟨hload, hcheck, pages, fits, hfind, hviolations, fun hclean => ?_⟩
  have hnone : d.violations = [] := by
    refine List.eq_nil_iff_forall_not_mem.mpr fun v hv => ?_
    obtain ⟨i, raw, item, hraw, -, hbreach⟩ := hviolations v hv
    obtain ⟨hx, hy⟩ := hclean raw (List.mem_of_getElem? hraw) item
    obtain ⟨spot, breach⟩ := v
    cases breach with
    | invertedX => exact hx hbreach
    | invertedY => exact hy hbreach
    | precision | pageNumber => exact hbreach
  rw [hcheck, hnone]
  rfl

theorem checkGolden_of_inverted_char :
    let glyph : Attributes := .ofList [("x0", .ofJson (.number (.int 2 (by decide)))),
      ("x1", .ofJson (.string "1.00004"))]
    let page : RawPage :=
      { pageNumber := 7, chars := [glyph], viewErrors := .ofList [("words", "lost")] }
    let m : MemoryExtractor := { version := "1", recordings := .ofList [("a.pdf", .pages [page])] }
    let d : Document := { source := "a.pdf", extractorVersion := "1", pages := [page.record 0] }
    let t : Tree :=
      { objects := [(["doc.json"], .file (d.goldenBytes .full))], nodup := by simp }
    (m.toExtractor.extract .empty ⟨"a.pdf"⟩ 0).1 = .ok d ∧
      Recorded.IsReadNearest d ∧ t.checkGolden ⟨"doc.json"⟩ =
        .error (.violations ⟨"doc.json"⟩ [⟨{ page := 0, item := some (.chars, 0) },
          .invertedX (.ofInt 2) (.ofInt 1)⟩]) := by
  intro glyph page m d t
  have hd : (m.toExtractor.extract .empty ⟨"a.pdf"⟩ 0).1 = .ok d := by
    rw [MemoryExtractor.extract_eq]
    rfl
  have hnearest : Recorded.IsReadNearest d := by decide +kernel
  have hread : ∀ b : Bytes,
      (Tree.mk [(["doc.json"], .file b)] (by simp) 1).readFile ⟨"doc.json"⟩ = .ok b := fun _ => rfl
  have hfile : t.readFile ⟨"doc.json"⟩ = .ok (d.goldenBytes .full) := hread _
  have hviolations : d.violations = [⟨{ page := 0, item := some (.chars, 0) },
      .invertedX (.ofInt 2) (.ofInt 1)⟩] := by decide +kernel
  refine ⟨hd, hnearest, ?_⟩
  rw [(checkGolden_of_extract m .empty ⟨"a.pdf"⟩ 0 d hd hnearest t ⟨"doc.json"⟩ hfile).2.1,
    hviolations]
  rfl

end Tree

end GoldenRecord

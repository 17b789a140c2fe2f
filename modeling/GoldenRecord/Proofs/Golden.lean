import GoldenRecord.Checking
import GoldenRecord.Proofs.Writable

namespace GoldenRecord

open Json (Reading)

theorem PageRecord.ofData_toData (p : PageRecord) : Recorded.ofData (Recorded.toData p) = p := by
  obtain ⟨pageNumber, width, height, chars, words, text, lines, rects, tables⟩ := p
  change PageRecord.mk pageNumber width height ((chars.map Recorded.toData).map Recorded.ofData)
    ((words.map Recorded.toData).map Recorded.ofData) text
    ((lines.map Recorded.toData).map Recorded.ofData)
    ((rects.map Recorded.toData).map Recorded.ofData)
    ((tables.map Recorded.toData).map Recorded.ofData) = _
  rw [Recorded.map_ofData_toData fun _ => rfl, Recorded.map_ofData_toData fun _ => rfl,
    Recorded.map_ofData_toData fun _ => rfl, Recorded.map_ofData_toData fun _ => rfl,
    Recorded.map_ofData_toData fun _ => rfl]

theorem PageRecord.toData_ofData (data : Schema.page.Data) :
    Recorded.toData (Recorded.ofData data : PageRecord) = data := by
  obtain ⟨pageNumber, width, height, chars, words, text, lines, rects, tables, -⟩ := data
  change (pageNumber, width, height,
    (chars.map (Recorded.ofData : _ → CharRecord)).map Recorded.toData,
    (words.map (Recorded.ofData : _ → WordRecord)).map Recorded.toData, text,
    (lines.map (Recorded.ofData : _ → LineRecord)).map Recorded.toData,
    (rects.map (Recorded.ofData : _ → RectRecord)).map Recorded.toData,
    (tables.map (Recorded.ofData : _ → TableRecord)).map Recorded.toData, ()) = _
  rw [Recorded.map_toData_ofData fun _ => rfl, Recorded.map_toData_ofData fun _ => rfl,
    Recorded.map_toData_ofData fun _ => rfl, Recorded.map_toData_ofData fun _ => rfl,
    Recorded.map_toData_ofData fun _ => rfl]

namespace Document

theorem ofData_toData (d : Document) : Recorded.ofData (Recorded.toData d) = d := by
  obtain ⟨source, version, pages⟩ := d
  change Document.mk source version ((pages.map Recorded.toData).map Recorded.ofData) = _
  rw [Recorded.map_ofData_toData PageRecord.ofData_toData]

theorem toData_ofData (data : Schema.document.Data) :
    Recorded.toData (Recorded.ofData data : Document) = data := by
  obtain ⟨source, version, pages, -⟩ := data
  change (source, version, (pages.map (Recorded.ofData : _ → PageRecord)).map Recorded.toData, ()) = _
  rw [Recorded.map_toData_ofData PageRecord.toData_ofData]

theorem schema_isUnambiguous : Schema.document.isUnambiguous = true := by decide

/-- The only natural numbers of a document are those of its pages. -/
theorem naturals_eq (d : Document) : Recorded.naturals d = d.pages.map (·.pageNumber) := by
  have hpage : ∀ p : PageRecord, Schema.page.naturals (Recorded.toData p) = [p.pageNumber] := by
    intro p
    simp [Schema.naturals, Fields.naturals, Recorded.toData]
  change [] ++ ([] ++ ((d.pages.map Recorded.toData).flatMap Schema.page.naturals ++ [])) = _
  rw [List.nil_append, List.nil_append, List.append_nil, List.flatMap_map, List.map_eq_flatMap]
  simp only [hpage]

theorem isWritable_iff (d : Document) : Recorded.IsWritable d ↔
    (∀ v ∈ Recorded.numbers d, v.isFinite = true) ∧ ∀ p ∈ d.pages, p.pageNumber < 2 ^ 64 := by
  have hnaturals : (∀ n ∈ Recorded.naturals d, n < 18446744073709551616) ↔
      ∀ p ∈ d.pages, p.pageNumber < 2 ^ 64 := by
    rw [naturals_eq]
    exact List.forall_mem_map
  rw [← hnaturals]
  exact Schema.document.isWritable_iff _

theorem ofGoldenBytes?_goldenBytes {d : Document} (h : Recorded.IsWritable d)
    (hnearest : Recorded.IsReadNearest d) : ofGoldenBytes? (d.goldenBytes .full) = .ok d := by
  have hreread := (Recorded.toJson d).reread_eq (Recorded.isReadNearest_reals h hnearest)
  have htext : Reading.ofBytes (d.goldenBytes .full) = ((Recorded.toJson d).reading, false) := by
    rw [← hreread]
    exact Json.ofBytes_pretty (Recorded.toJson d)
  have hread := Recorded.ofReading?_toJson schema_isUnambiguous h
  rw [ofData_toData] at hread
  unfold ofGoldenBytes? Recorded.ofBytes?
  rw [htext]
  simp only [hread, bind, Except.bind, Bool.false_eq_true, if_false]

theorem isWritable_of_ofGoldenBytes? {b : Bytes} {d : Document} (h : ofGoldenBytes? b = .ok d) :
    Recorded.IsWritable d := by
  obtain ⟨r, -, hread⟩ := Recorded.ofBytes?_ok h
  obtain ⟨data, hdata, rfl⟩ := map_ok_iff.mp hread
  unfold Recorded.IsWritable
  rw [toData_ofData]
  exact Schema.document.isWritable_of_decode hdata

end Document

namespace Tree

theorem loadGolden_ok_iff {t : Tree} {p : Path} {d : Document} :
    t.loadGolden p = .ok d ↔ ∃ b, t.readFile p = .ok b ∧ Document.ofGoldenBytes? b = .ok d := by
  unfold loadGolden
  cases t.readFile p with
  | error f => simp
  | ok b => cases h : Document.ofGoldenBytes? b <;> simp [h]

/-- A document whose numbers are finite is loaded from its golden file, each number to the last bit.
Every document that is loaded is such a document, so writing it again and loading that gives the
same document, and the same bytes. -/
theorem loadGolden_goldenBytes :
    (∀ d : Document, (∀ v ∈ Recorded.numbers d, v.isFinite = true) →
      (∀ p ∈ d.pages, p.pageNumber < 2 ^ 64) → Recorded.IsReadNearest d →
      ∀ (t : Tree) (p : Path), t.readFile p = .ok (d.goldenBytes .full) → t.loadGolden p = .ok d) ∧
    ∀ (t : Tree) (p : Path) (d : Document), t.loadGolden p = .ok d → Recorded.IsReadNearest d →
      ∀ (u : Tree) (q : Path), u.readFile q = .ok (d.goldenBytes .full) →
        ∃ e, u.loadGolden q = .ok e ∧ e = d ∧ e.goldenBytes .full = d.goldenBytes .full := by
  constructor
  · intro d hfinite hpages hnearest t p hfile
    exact loadGolden_ok_iff.mpr ⟨_, hfile,
      Document.ofGoldenBytes?_goldenBytes (d.isWritable_iff.mpr ⟨hfinite, hpages⟩) hnearest⟩
  · intro t p d hload hnearest u q hfile
    obtain ⟨b, -, hb⟩ := loadGolden_ok_iff.mp hload
    have hwritable := Document.isWritable_of_ofGoldenBytes? hb
    exact ⟨d, loadGolden_ok_iff.mpr
      ⟨_, hfile, Document.ofGoldenBytes?_goldenBytes hwritable hnearest⟩, rfl, rfl⟩

theorem loadGolden_of_sample :
    let glyph : CharRecord :=
      { text := "\"a\\\u0001é", x0 := some (.finite ⟨true, 0, by decide⟩)
        top := some (.ofDecimal false 1 (-1)), x1 := some (.ofDecimal false 15 20), bottom := none
        fontname := "", size := some (.ofDecimal false 12 (-8)), doctop := none, upright := true }
    let d : Document :=
      { source := "a.pdf", extractorVersion := "1"
        pages := [{ pageNumber := 18446744073709551615, width := some (.ofInt 612), height := none
                    chars := [glyph], words := [], text := "\n", lines := [], rects := []
                    tables := [{ bbox := ⟨none, none, none, none⟩, rows := [[""], []] }] }] }
    let t : Tree :=
      { objects := [(["doc.json"], .file (d.goldenBytes .full))], nodup := by simp }
    (∀ v ∈ Recorded.numbers d, v.isFinite = true) ∧ (∀ p ∈ d.pages, p.pageNumber < 2 ^ 64) ∧
      Recorded.IsReadNearest d ∧ t.loadGolden ⟨"doc.json"⟩ = .ok d := by
  intro glyph d t
  have hfinite : ∀ v ∈ Recorded.numbers d, v.isFinite = true := by decide +kernel
  have hpages : ∀ p ∈ d.pages, p.pageNumber < 2 ^ 64 := by decide +kernel
  have hnearest : Recorded.IsReadNearest d := by decide +kernel
  have hread : ∀ b : Bytes,
      (Tree.mk [(["doc.json"], .file b)] (by simp) 1).readFile ⟨"doc.json"⟩ = .ok b := fun _ => rfl
  have hfile : t.readFile ⟨"doc.json"⟩ = .ok (d.goldenBytes .full) := hread _
  exact ⟨hfinite, hpages, hnearest,
    loadGolden_goldenBytes.1 d hfinite hpages hnearest t _ hfile⟩

end Tree

end GoldenRecord

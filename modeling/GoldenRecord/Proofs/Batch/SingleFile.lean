import GoldenRecord.Proofs.Batch.Skips

namespace GoldenRecord

namespace Batch

variable {State : Type}

/-- An input has its record written exactly if it is not on the skip list, a document is extracted
from it, and there is room for the record. Then the whole record of that document can be read at its
place, and whatever else there is stays as it was. In every other case, also if the extractor does not
come back, the tree stays what it was, and if the input is on the skip list, so does the extractor,
which is not asked to open anything. -/
theorem processFile_all_or_nothing (e : Extractor State) (c : Config) (p : Path) (w : World State) :
    let result := (processFile e c p w).1
    let tree := (processFile e c p w).2.tree
    ((∃ s, result = .ok (.succeeded s)) ↔ c.skips.contains p.sourceName = false ∧
      (∃ d, (e.extract w.tree p w.state).1 = .ok d) ∧ ∃ l, w.tree.HasRoom (c.artifact p) l) ∧
    (∀ s, result = .ok (.succeeded s) → ∃ d l, (e.extract w.tree p w.state).1 = .ok d ∧
      s = ⟨c.artifact p, d.counts⟩ ∧ w.tree.locate (c.artifact p) = .ok l ∧
      tree.readFile (c.artifact p) = .ok (d.goldenBytes c.profile) ∧
      ∀ k, tree.get? k =
        if k = l then some (.file (d.goldenBytes c.profile)) else w.tree.get? k) ∧
    ((∀ s, result ≠ .ok (.succeeded s)) → tree = w.tree) ∧
    (result = .ok .skipped ↔ c.skips.contains p.sourceName = true) ∧
    (result = .ok .skipped → (processFile e c p w).2 = w ∧
      ∀ opened, processFile e.logged c p (w.logged opened) = (.ok .skipped, w.logged opened)) := by
  have hlisted : c.isSkipped p = c.skips.contains p.sourceName := rfl
  rw [← hlisted]
  rcases processFile_ends e c p w with ⟨hs, hf⟩ | ⟨hs, h, hx, hf⟩ | ⟨hs, f, hx, hf⟩ |
    ⟨hs, d, f, hx, hroom, hf⟩ | ⟨hs, d, l, hx, hroom, hf⟩
  · have hquiet (opened : List Path) :
        processFile e.logged c p (w.logged opened) = (.ok .skipped, w.logged opened) := by
      rw [processFile_logged, hf]
      simp [unskipped, hs]
    rw [hf]
    simp [hs, hquiet]
  · rw [hf]
    simp [hs, hx]
  · rw [hf]
    simp [hs, hx]
  · rw [hf]
    simp [hs, hroom]
  · rw [hf]
    refine ⟨?_, ?_, fun hnot => absurd rfl (hnot _), ?_, ?_⟩
    · exact ⟨fun _ => ⟨hs, ⟨d, hx⟩, l, hroom⟩, fun _ => ⟨_, rfl⟩⟩
    · rintro _ ⟨⟩
      exact ⟨d, l, hx, rfl, hroom.located, hroom.readFile_set, hroom.get?_set⟩
    · simp [hs]
    · simp

/-- A document that can be read, one that cannot, for which there is an old record, and that one on
the skip list. -/
theorem processFile_all_or_nothing_of_sample :
    let w : World Nat := ⟨Sample.tree, 0⟩
    let read := processFile Sample.memory.toExtractor Sample.config ⟨"a/x.pdf"⟩ w
    let unread := processFile Sample.memory.toExtractor Sample.config ⟨"a/y.pdf"⟩ w
    let skipped := processFile Sample.memory.toExtractor Sample.skipping ⟨"a/y.pdf"⟩ w
    (read.1 = .ok (.succeeded Sample.written) ∧
      read.2.tree.readFile ⟨"out/x.json"⟩ = .ok (Sample.document.goldenBytes .full)) ∧
    (unread.1 = .ok (.failed "failed to open a/y.pdf: locked") ∧ unread.2.tree = Sample.tree) ∧
    skipped.1 = .ok .skipped ∧ skipped.2 = w := by
  intro w read unread skipped
  have hended : read.1 = .ok (.succeeded Sample.written) ∧
      unread.1 = .ok (.failed "failed to open a/y.pdf: locked") ∧ skipped.1 = .ok .skipped ∧
      Sample.config.artifact ⟨"a/x.pdf"⟩ = ⟨"out/x.json"⟩ ∧
      Sample.memory.answer ⟨"a/x.pdf"⟩ = .ok Sample.document := by
    simp only [read, unread, skipped, processFile, MemoryExtractor.extract_eq]
    decide +kernel
  obtain ⟨hread, hunread, hskipped, hplace, hanswer⟩ := hended
  obtain ⟨-, hwritten, -⟩ :=
    processFile_all_or_nothing Sample.memory.toExtractor Sample.config ⟨"a/x.pdf"⟩ w
  obtain ⟨-, -, hkept, -⟩ :=
    processFile_all_or_nothing Sample.memory.toExtractor Sample.config ⟨"a/y.pdf"⟩ w
  obtain ⟨-, -, -, -, hquiet⟩ :=
    processFile_all_or_nothing Sample.memory.toExtractor Sample.skipping ⟨"a/y.pdf"⟩ w
  obtain ⟨d, l, hd, -, -, hcontent, -⟩ := hwritten Sample.written hread
  rw [MemoryExtractor.extract_eq, hanswer] at hd
  cases hd
  rw [hplace] at hcontent
  have hunwritten : ∀ s, unread.1 ≠ .ok (.succeeded s) := fun s hs => by
    cases hunread.symm.trans hs
  exact ⟨⟨hread, hcontent⟩, ⟨hunread, hkept hunwritten⟩, hskipped, (hquiet hskipped).1⟩

end Batch

end GoldenRecord

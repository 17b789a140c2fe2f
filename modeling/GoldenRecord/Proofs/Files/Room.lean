import GoldenRecord.Proofs.Files.Verdict

namespace GoldenRecord

namespace Path

/-- A character that is no slash is in one of the pieces between the slashes. -/
theorem mem_pieces_iff {cs : List Char} {c : Char} (hc : c ≠ '/') :
    c ∈ cs ↔ ∃ piece ∈ pieces cs, c ∈ piece := by
  induction cs with
  | nil => simp [pieces]
  | cons x rest ih =>
    by_cases hx : x = '/'
    · simp [pieces, hx, hc, ih]
    · cases hp : pieces rest with
      | nil => exact absurd hp (pieces_ne_nil rest)
      | cons piece more =>
        rw [hp] at ih
        simp only [pieces, hx, hp, if_false, List.mem_cons, ih, exists_eq_or_imp]
        rw [or_assoc]

theorem hasZero_iff {p : Path} :
    p.hasZero = true ↔ ∃ piece ∈ p.pieceNames, '\x00' ∈ piece.toList := by
  unfold hasZero pieceNames
  rw [List.contains_iff_mem, mem_pieces_iff (by decide)]
  constructor
  · rintro ⟨piece, hmem, hc⟩
    exact ⟨String.ofList piece, List.mem_map_of_mem hmem, by simpa using hc⟩
  · rintro ⟨piece, hmem, hc⟩
    obtain ⟨cs, hcs, rfl⟩ := List.mem_map.mp hmem
    exact ⟨cs, hcs, by simpa using hc⟩

theorem lookupNames_ok_iff {p : Path} :
    p.lookupNames = .ok p.pieceNames ↔
      p.hasZero = false ∧ p.text.utf8ByteSize ≤ maxSize ∧ p.text ≠ "" := by
  unfold lookupNames
  cases p.hasZero with
  | true => simp
  | false =>
    by_cases hsize : maxSize < p.text.utf8ByteSize
    · have hlong : ¬ p.text.utf8ByteSize ≤ maxSize := Nat.not_le.mpr hsize
      simp [hsize, hlong]
    · have hfits : p.text.utf8ByteSize ≤ maxSize := Nat.not_lt.mp hsize
      by_cases hempty : p.text = "" <;> simp [hsize, hfits, hempty]

theorem hasZero_parent {p : Path} {pieces : List String} {name : String}
    (hpieces : p.pieceNames = pieces ++ [name]) (hidle : isIdle name = false)
    (hzero : p.hasZero = false) : p.parent.hasZero = false := by
  rcases parent_cases hpieces hidle with hparent | hparent | ⟨idle, hsplit, -⟩
  · rw [hparent]
    rfl
  · rw [hparent]
    rfl
  · rw [Bool.eq_false_iff, ne_eq, hasZero_iff]
    rintro ⟨piece, hmem, hc⟩
    have hmore : piece ∈ p.pieceNames := by simp [hpieces, hsplit, hmem]
    rw [hasZero_iff.mpr ⟨piece, hmore, hc⟩] at hzero
    cases hzero

end Path

namespace Tree

variable {t : Tree} {p : Path} {l : Location}

/-- A file can be put at a place by a path that leads there. -/
structure HasRoom (t : Tree) (p : Path) (l : Location) : Prop where
  located : t.locate p = .ok l
  named : ∃ name ∈ p.pieceNames.getLast?, Path.isIdle name = false ∧ name ≠ ".."
  free : t.get? l ≠ some .directory
  fits : p.parent.text ≠ "" → t.temporaryPathSize p.parent ≤ Path.maxSize

theorem renameTarget_ok_iff : t.renameTarget p = .ok l ↔ t.locate p = .ok l ∧
    (∃ name ∈ p.pieceNames.getLast?, Path.isIdle name = false ∧ name ≠ "..") ∧
      t.get? l ≠ some .directory := by
  constructor
  · intro h
    obtain ⟨hlocate, hfree, k, name, hlast, -, -, hidle, hup⟩ := renameTarget_ok h
    exact ⟨hlocate, ⟨name, hlast, hidle, hup⟩, hfree⟩
  · rintro ⟨hlocate, ⟨name, hlast, hidle, hup⟩, hfree⟩
    obtain ⟨hnames, hwalk⟩ := locate_ok_iff.mp hlocate
    obtain ⟨pieces, hpieces⟩ := List.getLast?_eq_some_iff.mp hlast
    rw [hpieces] at hwalk
    obtain ⟨b, hbase, hstep⟩ := walk_concat_ok_iff.mp hwalk
    obtain ⟨hempty, hdot⟩ : name ≠ "" ∧ name ≠ "." := by simpa [Path.isIdle] using hidle
    have hplace := lastStep_concat hbase (step_ok_iff.mp hstep).1 hempty
    have hzero := (Path.lookupNames_ok_iff.mp hnames).1
    have hopen : ¬ t.isDirectoryAt l = true := by simpa [isDirectoryAt] using hfree
    unfold renameTarget
    rw [hnames, hpieces]
    simp only [hzero, Bool.false_eq_true, if_false, bind, Except.bind, hplace, hdot, hup, or_self,
      hstep, List.getLast?_concat, Option.some.injEq, hempty, hopen, pure, Except.pure]

/-- The directory of a name that is looked up in a directory is found, unless a path in it is too
long. -/
theorem directoryOf_ok_iff {b : Location} {pieces : List String} {name : String}
    (hpieces : p.pieceNames = pieces ++ [name]) (hidle : Path.isIdle name = false)
    (hwalk : t.walk p.start pieces = .ok b) (hb : t.get? b = some .directory)
    (hzero : p.hasZero = false) :
    (∃ k, t.directoryOf p = .ok k) ↔
      (p.parent.text ≠ "" → t.temporaryPathSize p.parent ≤ Path.maxSize) := by
  by_cases hempty : p.parent.text = ""
  · have hhere : t.directoryOf p = .ok [] := by simp [directoryOf, hempty, pure, Except.pure]
    simp [hhere, hempty]
  · obtain ⟨k, hup, hk⟩ := (walk_parent hpieces hidle hwalk hb).resolve_left hempty
    rw [directoryOf_of_walk hempty hup hk]
    constructor
    · rintro ⟨k', h⟩ -
      obtain ⟨names, -, h⟩ := bind_ok_iff.mp h
      split at h
      next => cases h
      next hfits => exact Nat.not_lt.mp hfits
    · intro hfits
      have htext : p.parent.text.utf8ByteSize ≤ t.temporaryPathSize p.parent := by
        unfold temporaryPathSize
        omega
      have hnames := Path.lookupNames_ok_iff.mpr
        ⟨Path.hasZero_parent hpieces hidle hzero, Nat.le_trans htext (hfits hempty), hempty⟩
      rw [hnames]
      exact ⟨k, if_neg (Nat.not_lt.mpr (hfits hempty))⟩

theorem hasRoom_iff :
    t.HasRoom p l ↔ (∃ k, t.directoryOf p = .ok k) ∧ t.renameTarget p = .ok l := by
  rw [renameTarget_ok_iff]
  have hdirectory (hlocate : t.locate p = .ok l)
      (hnamed : ∃ name ∈ p.pieceNames.getLast?, Path.isIdle name = false ∧ name ≠ "..") :
      (∃ k, t.directoryOf p = .ok k) ↔
        (p.parent.text ≠ "" → t.temporaryPathSize p.parent ≤ Path.maxSize) := by
    obtain ⟨name, hlast, hidle, -⟩ := hnamed
    obtain ⟨hnames, hwalk⟩ := locate_ok_iff.mp hlocate
    obtain ⟨pieces, hpieces⟩ := List.getLast?_eq_some_iff.mp hlast
    rw [hpieces] at hwalk
    obtain ⟨b, hbase, hstep⟩ := walk_concat_ok_iff.mp hwalk
    exact directoryOf_ok_iff hpieces hidle hbase (step_ok_iff.mp hstep).1
      (Path.lookupNames_ok_iff.mp hnames).1
  constructor
  · rintro ⟨hlocate, hnamed, hfree, hfits⟩
    exact ⟨(hdirectory hlocate hnamed).mpr hfits, hlocate, hnamed, hfree⟩
  · rintro ⟨hfound, hlocate, hnamed, hfree⟩
    exact ⟨hlocate, hnamed, hfree, (hdirectory hlocate hnamed).mp hfound⟩

/-- Where there is room for a file, a write in one step puts it there. -/
theorem HasRoom.writeAtomic (h : t.HasRoom p l) (content : Bytes) :
    t.writeAtomic p content = (.ok (), t.set l (.file content)) := by
  obtain ⟨⟨k, hk⟩, ht⟩ := hasRoom_iff.mp h
  have hfound : (t.directoryOf p >>= fun _ => t.renameTarget p) = .ok l := by rw [hk]; exact ht
  rw [writeAtomic_eq, hfound]

/-- Anywhere else it fails, and nothing changes. -/
theorem writeAtomic_of_no_room (h : ¬ ∃ l, t.HasRoom p l) (content : Bytes) :
    ∃ f, t.writeAtomic p content = (.error f, t) := by
  rw [writeAtomic_eq]
  split
  next f _ => exact ⟨f, rfl⟩
  next l hl =>
    obtain ⟨k, hk, ht⟩ := bind_ok_iff.mp hl
    exact absurd ⟨l, hasRoom_iff.mpr ⟨⟨k, hk⟩, ht⟩⟩ h

theorem HasRoom.get?_set {o : Object} (h : t.HasRoom p l) (k : Location) :
    (t.set l o).get? k = if k = l then some o else t.get? k :=
  Tree.get?_set o (not_isGiven_of_get? h.free) k

theorem HasRoom.readFile_set {content : Bytes} (h : t.HasRoom p l) :
    (t.set l (.file content)).readFile p = .ok content := by
  have hdirs : t.DirectoriesIn (t.set l (.file content)) := by
    intro k hk
    have hne : k ≠ l := fun e => h.free (e ▸ hk)
    rw [h.get?_set, if_neg hne, hk]
  refine readFile_ok_iff.mpr (lookup_ok_iff.mpr ⟨l, hdirs.locate h.located, ?_⟩)
  rw [h.get?_set, if_pos rfl]

end Tree

end GoldenRecord

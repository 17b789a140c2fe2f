import GoldenRecord.Proofs.Files.AtomicWrite
import GoldenRecord.Proofs.Files.Directories

namespace GoldenRecord

namespace Path

theorem pieceNames_intercalate {names : List String} (hne : names ≠ [])
    (h : ∀ name ∈ names, '/' ∉ name.toList) :
    (Path.mk (String.intercalate "/" names)).pieceNames = names := by
  induction names with
  | nil => exact absurd rfl hne
  | cons name rest ih =>
    have hname : pieces name.toList = [name.toList] := pieces_of_no_slash (h name List.mem_cons_self)
    cases rest with
    | nil => simp [pieceNames, hname]
    | cons next more =>
      have hrest := ih (by simp) fun n hn => h n (List.mem_cons_of_mem _ hn)
      have hmid : ("/" : String).toList = ['/'] := rfl
      have htext : (String.intercalate "/" (name :: next :: more)).toList =
          name.toList ++ '/' :: (String.intercalate "/" (next :: more)).toList := by
        rw [String.intercalate_cons_cons, String.toList_append, String.toList_append, hmid,
          List.append_assoc, List.singleton_append]
      unfold pieceNames at hrest ⊢
      rw [htext, pieces_append_slash, hname, List.map_append, hrest]
      simp

/-- An absolute path is one whose first piece is empty and not its only one. -/
theorem isAbsolute_iff {p : Path} :
    p.isAbsolute = true ↔ p.pieceNames.head? = some "" ∧ 2 ≤ p.pieceNames.length := by
  unfold isAbsolute pieceNames
  cases hcs : p.text.toList with
  | nil => simp [pieces]
  | cons c rest =>
    have hpos : 0 < (pieces rest).length := List.length_pos_iff.mpr (pieces_ne_nil rest)
    by_cases hc : c = '/'
    · subst hc
      simp [pieces]
      omega
    · cases hp : pieces rest with
      | nil => exact absurd hp (pieces_ne_nil rest)
      | cons piece more => simp [pieces, hc, hp]

theorem IsPlainName.ne_empty {name : String} (hn : IsPlainName name) : name ≠ "" := by
  rintro rfl
  exact absurd hn.notIdle (by decide)

theorem IsPlainName.ne_dot {name : String} (hn : IsPlainName name) : name ≠ "." := by
  rintro rfl
  exact absurd hn.notIdle (by decide)

/-- What stands above a name is nothing, the root, or what stands before the name, with what leads
nowhere else left out at the end. -/
theorem parent_cases {p : Path} {pieces : List String} {name : String}
    (hpieces : p.pieceNames = pieces ++ [name]) (hidle : isIdle name = false) :
    p.parent = ⟨""⟩ ∨ p.parent = ⟨"/"⟩ ∨
      ∃ idle, pieces = p.parent.pieceNames ++ idle ∧ p.parent.isAbsolute = p.isAbsolute := by
  obtain ⟨idle, hsplit, -, hlast⟩ := Tree.trailing_split isIdle pieces
  generalize hup : (pieces.reverse.dropWhile isIdle).reverse = up at hsplit hlast
  have hparent : p.parent =
      if p.isAbsolute ∧ up = [] then ⟨"/"⟩ else ⟨String.intercalate "/" up⟩ := by
    simp [parent, hpieces, hidle, hup]
  rw [hparent]
  split
  next => exact .inr (.inl rfl)
  next hrelative =>
    by_cases hnil : up = []
    · exact .inl (by rw [hnil]; rfl)
    · have hslash : ∀ piece ∈ up, '/' ∉ piece.toList := by
        intro piece hmem
        have hpiece : piece ∈ p.pieceNames := by simp [hpieces, hsplit, hmem]
        exact no_slash_of_mem_pieceNames hpiece
      have hnames := pieceNames_intercalate hnil hslash
      refine .inr (.inr ⟨idle, by rw [hnames, hsplit], ?_⟩)
      rw [Bool.eq_iff_iff, isAbsolute_iff, isAbsolute_iff, hnames, hpieces, hsplit]
      cases up with
      | nil => exact absurd rfl hnil
      | cons first more =>
        cases more with
        | nil =>
          have hfirst : first ≠ "" := by
            rintro rfl
            exact absurd (hlast "" rfl) (by decide)
          simp [hfirst]
        | cons second more => simp

end Path

namespace Tree

theorem writeAtomic_sameDirectories {t u : Tree} {p : Path} {content : Bytes}
    {result : Except FileFault Unit} (h : t.writeAtomic p content = (result, u)) :
    t.SameDirectories u := by
  cases result with
  | error f =>
    obtain rfl := writeAtomic_error h
    exact .refl u
  | ok _ =>
    obtain ⟨l, -, hu⟩ := writeAtomic_ok h
    exact hu.sameDirectories

theorem removeFile_sameDirectories {t u : Tree} {p : Path} (h : t.removeFile p = .ok u) :
    t.SameDirectories u := by
  obtain ⟨l, -, hu⟩ := removeFile_ok h
  exact hu.sameDirectories

/-- A walk to a directory is in a directory after every part of it. -/
theorem walk_front {t : Tree} {start b : Location} {front back : List String}
    (hw : t.walk start (front ++ back) = .ok b) (hb : t.get? b = some .directory) :
    ∃ l, t.walk start front = .ok l ∧ t.get? l = some .directory := by
  rw [walk_append] at hw
  obtain ⟨l, hfront, hback⟩ := bind_ok_iff.mp hw
  refine ⟨l, hfront, ?_⟩
  cases back with
  | nil => cases hback; exact hb
  | cons name names =>
    rw [walk_cons] at hback
    obtain ⟨m, hs, -⟩ := bind_ok_iff.mp hback
    exact (step_ok_iff.mp hs).1

/-- The path above a name that is looked up in a directory is empty, or leads to a directory. -/
theorem walk_parent {t : Tree} {p : Path} {b : Location} {pieces : List String} {name : String}
    (hpieces : p.pieceNames = pieces ++ [name]) (hidle : Path.isIdle name = false)
    (hwalk : t.walk p.start pieces = .ok b) (hb : t.get? b = some .directory) :
    p.parent.text = "" ∨
      ∃ l, t.walk p.parent.start p.parent.pieceNames = .ok l ∧ t.get? l = some .directory := by
  rcases Path.parent_cases hpieces hidle with hparent | hparent | ⟨idle, hsplit, habsolute⟩
  · exact .inl (by rw [hparent])
  · rw [hparent]
    have hroot : t.get? .root = some .directory := get?_of_isGiven (.inl rfl)
    exact .inr ⟨.root, walk_replicate_empty hroot 2, hroot⟩
  · have hstart : p.parent.start = p.start := by rw [Path.start, Path.start, habsolute]
    rw [hsplit] at hwalk
    rw [hstart]
    exact .inr (walk_front hwalk hb)

/-- A name is looked up last in the directory that the names before it lead to. -/
theorem lastStep_concat {t : Tree} {start b : Location} {names : List String} {name : String}
    (hw : t.walk start names = .ok b) (hb : t.get? b = some .directory) (hne : name ≠ "") :
    t.lastStep start (names ++ [name]) = .ok (b, name) := by
  have hstep : t.step b "." = .ok b := (step_idle_ok_iff rfl).mpr ⟨hb, rfl⟩
  have hname : (name == "") = false := by simpa using hne
  simp [lastStep, hname, hw, hstep, bind, Except.bind, pure, Except.pure]

section Join

variable {t u : Tree} {base : Path} {b : Location} {name : String}

/-- Where the path above leads to a directory, only its own text can be refused. -/
theorem directoryOf_of_walk {p : Path} {l : Location} (hne : p.parent.text ≠ "")
    (hwalk : t.walk p.parent.start p.parent.pieceNames = .ok l) (hd : t.get? l = some .directory) :
    t.directoryOf p = (p.parent.lookupNames >>= fun _ =>
      if Path.maxSize < t.temporaryPathSize p.parent then .error .nameTooLong else .ok l) := by
  have hstep : t.step l "." = .ok l := (step_idle_ok_iff rfl).mpr ⟨hd, rfl⟩
  unfold directoryOf
  simp only [hne, if_false]
  cases hlookup : p.parent.lookupNames with
  | error f => simp [bind, Except.bind]
  | ok names =>
    rw [lookupNames_ok hlookup]
    simp only [bind, Except.bind, hwalk, hstep]
    split <;> simp [throw, throwThe, MonadExceptOf.throw]

theorem IsAt.directoryOf_congr (h : t.IsAt base b) (hn : Path.IsPlainName name)
    (hs : t.SameDirectories u) :
    u.directoryOf (base.join name) = t.directoryOf (base.join name) := by
  by_cases hempty : (base.join name).parent.text = ""
  · simp [directoryOf, hempty]
  · obtain ⟨pieces, hpieces, hbase⟩ := h.walk_pieces hn
    obtain ⟨l, hwalk, hd⟩ :=
      (walk_parent hpieces hn.notIdle hbase h.directory).resolve_left hempty
    rw [directoryOf_of_walk hempty hwalk hd,
      directoryOf_of_walk hempty (hs.directoriesIn.walk hwalk) (hs.directoriesIn l hd),
      temporaryPathSize, temporaryPathSize, hs.size]

theorem IsAt.lastStep_join (h : t.IsAt base b) (hn : Path.IsPlainName name) :
    t.lastStep (base.join name).start (base.join name).pieceNames = .ok (b, name) := by
  obtain ⟨pieces, hpieces, hwalk⟩ := h.walk_pieces hn
  rw [hpieces]
  exact lastStep_concat hwalk h.directory hn.ne_empty

/-- A name is free to be renamed to unless a directory stands there. -/
theorem IsAt.renameTarget_join (h : t.IsAt base b) (hn : Path.IsPlainName name) :
    t.renameTarget (base.join name) =
      if (base.join name).hasZero then .error .invalidArgument
      else (base.join name).lookupNames >>= fun _ => enter b name >>= fun l =>
        if t.isDirectoryAt l then .error .isADirectory else .ok l := by
  unfold renameTarget
  split
  next => rfl
  next =>
    cases hlookup : (base.join name).lookupNames with
    | error f => rfl
    | ok names =>
      obtain rfl := lookupNames_ok hlookup
      obtain ⟨pieces, hpieces, -⟩ := h.walk_pieces hn
      have hlast : (base.join name).pieceNames.getLast? ≠ some "" := by
        simpa [hpieces] using hn.ne_empty
      have hplain : ¬ (name = "." ∨ name = "..") := not_or.mpr ⟨hn.ne_dot, hn.notUp⟩
      have hstep := step_of_directory h.directory name
      simp only [h.lastStep_join hn, hplain, hstep, hlast, bind, Except.bind, pure, Except.pure,
        if_false]
      cases enter b name with
      | error f => rfl
      | ok l =>
        dsimp only
        split <;> rfl

theorem IsAt.renameTarget_congr (h : t.IsAt base b) (hn : Path.IsPlainName name)
    (hs : t.SameDirectories u) :
    u.renameTarget (base.join name) = t.renameTarget (base.join name) := by
  rw [h.renameTarget_join hn, (h.mono hs.directoriesIn).renameTarget_join hn]
  simp only [hs.isDirectoryAt]

/-- A write fails for want of a directory for the temporary file, or for what stands at the
target. -/
theorem writeAtomic_result (t : Tree) (p : Path) (content : Bytes) :
    (t.writeAtomic p content).1 =
      (t.directoryOf p >>= fun _ => t.renameTarget p >>= fun _ => .ok ()) := by
  rw [writeAtomic_eq]
  cases t.directoryOf p with
  | error f => rfl
  | ok k => cases t.renameTarget p <;> rfl

/-- Whether a file can be written directly inside a directory does not depend on the files. -/
theorem IsAt.writeAtomic_congr (h : t.IsAt base b) (hn : Path.IsPlainName name)
    (hs : t.SameDirectories u) (content : Bytes) :
    (u.writeAtomic (base.join name) content).1 = (t.writeAtomic (base.join name) content).1 := by
  rw [writeAtomic_result, writeAtomic_result, h.directoryOf_congr hn hs, h.renameTarget_congr hn hs]

/-- A path to which a file can be written, and which a file can be removed from: the file system
takes it, and no directory stands there. -/
def IsReplaceable (t : Tree) (p : Path) : Prop :=
  ∃ l, t.locate p = .ok l ∧ t.get? l ≠ some .directory

theorem IsAt.isReplaceable_congr (h : t.IsAt base b) (hn : Path.IsPlainName name)
    (hs : t.SameDirectories u) :
    u.IsReplaceable (base.join name) ↔ t.IsReplaceable (base.join name) := by
  refine exists_congr fun l => ?_
  rw [h.locate_join hn, (h.mono hs.directoriesIn).locate_join hn, ne_eq, ne_eq, hs.directory l]

theorem IsAt.locate_join_ne_notFound (h : t.IsAt base b) (hn : Path.IsPlainName name) :
    t.locate (base.join name) ≠ .error .notFound := by
  obtain ⟨pieces, hpieces, -⟩ := h.walk_pieces hn
  have hne : (base.join name).text ≠ "" := by
    intro hempty
    have hsingle : (base.join name).pieceNames = [] ++ [""] := by rw [Path.pieceNames, hempty]; rfl
    rw [hpieces] at hsingle
    exact hn.ne_empty (by simpa using List.append_inj_right' hsingle rfl)
  unfold locate
  cases hlookup : (base.join name).lookupNames with
  | error f =>
    rintro hf
    cases hf
    simp only [Path.lookupNames, hne, if_false] at hlookup
    split at hlookup
    next => cases hlookup
    next => split at hlookup <;> cases hlookup
  | ok names =>
    rw [lookupNames_ok hlookup]
    change t.walk (base.join name).start (base.join name).pieceNames ≠ _
    rw [h.walk_join hn, enter, if_neg (by simp [hn.notIdle]), if_neg hn.notUp]
    split <;> simp

theorem IsAt.removeFile_join_iff (h : t.IsAt base b) (hn : Path.IsPlainName name) :
    ((∃ v, t.removeFile (base.join name) = .ok v) ∨ t.removeFile (base.join name) = .error .notFound) ↔
      t.IsReplaceable (base.join name) := by
  unfold removeFile IsReplaceable
  have hfound := h.locate_join_ne_notFound hn
  cases hl : t.locate (base.join name) with
  | error f =>
    rw [hl] at hfound
    simpa [bind, Except.bind] using hfound
  | ok l =>
    cases hg : t.get? l with
    | none => simp [bind, Except.bind, hg]
    | some o => cases o <;> simp [bind, Except.bind, hg]

end Join

theorem isReplaceable_of_writeAtomic {t u : Tree} {p : Path} {content : Bytes}
    (h : t.writeAtomic p content = (.ok (), u)) : t.IsReplaceable p := by
  obtain ⟨l, hl, hu⟩ := writeAtomic_ok h
  exact ⟨l, hl, hu.free⟩

end Tree

end GoldenRecord

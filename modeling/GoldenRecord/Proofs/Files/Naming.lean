import GoldenRecord.Proofs.Files.Verdict

namespace GoldenRecord

namespace Path

theorem splitExtension_append {stem extension : List Char} (hs : stem ≠ [])
    (he : '.' ∉ extension) :
    splitExtension (stem ++ '.' :: extension) = (stem, some extension) := by
  have hplain : ∀ c ∈ extension.reverse, (c != '.') = true := by
    intro c hc
    exact bne_iff_ne.mpr fun e => he (e ▸ List.mem_reverse.mp hc)
  have htake : (extension.reverse ++ '.' :: stem.reverse).takeWhile (· != '.') =
      extension.reverse := by
    rw [List.takeWhile_append_of_pos hplain]
    simp
  have hdrop : (extension.reverse ++ '.' :: stem.reverse).dropWhile (· != '.') =
      '.' :: stem.reverse := by
    rw [List.dropWhile_append_of_pos hplain]
    simp
  simp [splitExtension, htake, hdrop, hs]

theorem splitExtension_eq_some {name stem extension : List Char}
    (h : splitExtension name = (stem, some extension)) :
    name = stem ++ '.' :: extension ∧ stem ≠ [] := by
  unfold splitExtension at h
  dsimp only at h
  split at h
  next => simp at h
  next hstem =>
    obtain ⟨rfl, hext⟩ := Prod.mk.inj h
    obtain rfl := Option.some.inj hext
    refine ⟨?_, by simpa using hstem⟩
    have hwhole := List.takeWhile_append_dropWhile (p := (· != '.')) (l := name.reverse)
    cases hd : name.reverse.dropWhile (· != '.') with
    | nil => simp_all
    | cons c rest =>
      have hc : c = '.' := by
        have hhead := List.head?_dropWhile_not (· != '.') name.reverse
        rw [hd] at hhead
        simpa using hhead
      rw [hd, hc] at hwhole
      have hname := congrArg List.reverse hwhole
      rw [List.reverse_append, List.reverse_cons, List.reverse_reverse, List.append_assoc] at hname
      rw [List.reverse_cons, List.dropLast_concat]
      exact hname.symm

theorem no_dot_of_splitExtension {name stem extension : List Char}
    (h : splitExtension name = (stem, some extension)) : '.' ∉ extension := by
  unfold splitExtension at h
  dsimp only at h
  split at h
  next => simp at h
  next =>
    obtain rfl := Option.some.inj (Prod.mk.inj h).2
    intro hmem
    have hplain := List.all_eq_true.mp (List.all_takeWhile (p := (· != '.')) (l := name.reverse)) _
      (List.mem_reverse.mp hmem)
    simp at hplain

/-- A path with an extension ends with a stem, a dot and the extension. -/
theorem fileName?_of_extension {p : Path} {extension : String} (h : p.extension? = some extension) :
    ∃ stem, p.stem? = some stem ∧ p.fileName? = some (stem ++ "." ++ extension) ∧
      stem.toList ≠ [] := by
  obtain ⟨name, hname, h⟩ := Option.bind_eq_some_iff.mp h
  obtain ⟨cs, hcs, rfl⟩ := Option.map_eq_some_iff.mp h
  obtain ⟨hsplit, hstem⟩ := splitExtension_eq_some (Prod.ext rfl hcs)
  refine ⟨String.ofList (splitExtension name.toList).1, by simp [stem?, hname], ?_, by simpa⟩
  rw [hname]
  refine congrArg some (String.toList_inj.mp ?_)
  simpa using hsplit

/-- A stem, which is not empty, and an extension behind the last dot. -/
def HasExtension (extension name : String) : Prop :=
  ∃ stem, stem ≠ "" ∧ name = stem ++ "." ++ extension ∧ '.' ∉ extension.toList

theorem extension?_eq_some_iff {p : Path} {name extension : String} (h : p.fileName? = some name) :
    p.extension? = some extension ↔ HasExtension extension name := by
  constructor
  · intro he
    obtain ⟨stem, -, hname, hne⟩ := fileName?_of_extension he
    obtain rfl := Option.some.inj (h.symm.trans hname)
    simp only [extension?, h, Option.bind_some] at he
    obtain ⟨cs, hcs, rfl⟩ := Option.map_eq_some_iff.mp he
    refine ⟨stem, fun hempty => hne (by simp [hempty]), rfl, ?_⟩
    rw [String.toList_ofList]
    exact no_dot_of_splitExtension (Prod.ext rfl hcs)
  · rintro ⟨stem, hne, rfl, hdot⟩
    have hstem : stem.toList ≠ [] := by simpa using hne
    have hlist : (stem ++ "." ++ extension).toList = stem.toList ++ '.' :: extension.toList := by
      simp
    rw [extension?, h, Option.bind_some, hlist, splitExtension_append hstem hdot]
    simp

theorem fileName?_join (base : Path) {name : String} (h : IsPlainName name) :
    (base.join name).fileName? = some name := by
  have hkept : ∀ pieces : List String,
      (pieces ++ [name]).filter (fun piece => !isIdle piece) =
        pieces.filter (fun piece => !isIdle piece) ++ [name] := by
    intro pieces
    simp [List.filter_append, h.notIdle]
  have hlast : ∃ pieces, (base.join name).pieceNames = pieces ++ [name] := by
    by_cases hb : base.text = ""
    · refine ⟨[], ?_⟩
      simp [join, hb, pieceNames, pieces_of_no_slash h.noSlash]
    · obtain ⟨pieces, hpieces, -⟩ := pieceNames_join h hb
      exact ⟨pieces, hpieces⟩
  obtain ⟨pieces, hpieces⟩ := hlast
  simp [fileName?, components, hpieces, hkept, h.notUp]

theorem join_injective {base : Path} {name other : String} (h : IsPlainName name)
    (h' : IsPlainName other) (he : base.join name = base.join other) : name = other := by
  have hname := fileName?_join base h
  rw [he, fileName?_join base h'] at hname
  exact (Option.some.inj hname).symm

/-- Whether the file system takes the path of an entry. -/
def Takes (directory : Path) (name : String) : Prop :=
  name.utf8ByteSize ≤ Tree.maxNameSize ∧ (directory.join name).hasZero = false ∧
    (directory.join name).text.utf8ByteSize ≤ maxSize

theorem lookupNames_join_ok_iff {directory : Path} {name : String} (hn : IsPlainName name) :
    (directory.join name).lookupNames = .ok (directory.join name).pieceNames ↔
      (directory.join name).hasZero = false ∧ (directory.join name).text.utf8ByteSize ≤ maxSize := by
  have hne : (directory.join name).text ≠ "" := by
    intro hempty
    have hnone : (directory.join name).fileName? = none := by
      rw [show directory.join name = ⟨""⟩ from congrArg Path.mk hempty]
      decide
    simp [fileName?_join directory hn] at hnone
  unfold lookupNames
  split
  next hzero => simp [hzero]
  next hzero =>
    split
    next hlong => simpa [hzero] using hlong
    next hshort => simpa [hzero, hne] using hshort

theorem size_join (directory : Path) {name : String} (hn : IsPlainName name) :
    directory.text.utf8ByteSize + name.utf8ByteSize ≤ (directory.join name).text.utf8ByteSize := by
  have hrelative : name.toList.head? ≠ some '/' := by
    intro h
    exact hn.noSlash (List.mem_of_mem_head? h)
  unfold join
  split
  next h => simp [h.resolve_left hrelative]
  next =>
    split
    next => simp [String.utf8ByteSize_append]
    next =>
      simp only [String.utf8ByteSize_append]
      omega

end Path

namespace Tree

variable {t : Tree} {l k : Location}

/-- The names that lead nowhere else can be left out. -/
theorem walk_components {names : List String} (hw : t.walk l names = .ok k) :
    t.walk l (names.filter fun name => !Path.isIdle name) = .ok k := by
  induction names generalizing l with
  | nil => exact hw
  | cons name rest ih =>
    obtain ⟨m, hs, hw⟩ := bind_ok_iff.mp (walk_cons t l name rest ▸ hw)
    cases hi : Path.isIdle name with
    | true =>
      obtain ⟨-, rfl⟩ := (step_idle_ok_iff hi).mp hs
      simpa [List.filter_cons, hi] using ih hw
    | false =>
      simp only [List.filter_cons, hi, Bool.not_false, if_true]
      rw [walk_cons, hs]
      exact ih hw

/-- A path leads to a place of its file name, unless it has none. -/
theorem locate_fileName {p : Path} {name : String} (hn : p.fileName? = some name)
    (hl : t.locate p = .ok l) : ∃ m, l = m ++ [name] := by
  obtain ⟨hcomponent, hup⟩ := Option.filter_eq_some_iff.mp hn
  obtain ⟨above, hcomponents⟩ := List.getLast?_eq_some_iff.mp hcomponent
  have hwalk : t.walk p.start p.components = .ok l := walk_components (locate_ok_iff.mp hl).2
  have hplain : Path.isIdle name = false := by
    have hmem : name ∈ p.components := by simp [hcomponents]
    simpa using (List.mem_filter.mp hmem).2
  rw [hcomponents] at hwalk
  obtain ⟨m, -, hs⟩ := walk_concat_ok_iff.mp hwalk
  exact ⟨m, enter_plain hplain (by simpa using hup) (step_ok_iff.mp hs).2⟩

/-- A name joined to the path of a directory leads to its place there if the path is taken. -/
theorem IsAt.locate_join_iff_takes {p : Path} (h : t.IsAt p l) {name : String}
    (hn : Path.IsPlainName name) :
    t.locate (p.join name) = .ok (l ++ [name]) ↔ p.Takes name := by
  rw [h.locate_join hn, Path.lookupNames_join_ok_iff hn, Path.Takes, and_comm]
  refine and_congr_left fun _ => ?_
  unfold enter
  simp only [hn.notIdle, hn.notUp, Bool.false_eq_true, if_false]
  split <;> simp <;> omega

/-- A file under a name joined to the path of a directory is in that directory. -/
theorem IsAt.isFile_join_iff {p : Path} (h : t.IsAt p l) {name : String} (hn : Path.IsPlainName name) :
    t.isFile (p.join name) = true ↔ t.locate (p.join name) = .ok (l ++ [name]) ∧
      ∃ content, t.get? (l ++ [name]) = some (.file content) := by
  rw [isFile_iff]
  constructor
  · rintro ⟨content, hread⟩
    obtain ⟨k, hk, hg⟩ := lookup_ok_iff.mp (readFile_ok_iff.mp hread)
    obtain rfl := enter_plain hn.notIdle hn.notUp ((h.locate_join hn).mp hk).2
    exact ⟨hk, content, hg⟩
  · rintro ⟨hk, content, hg⟩
    exact ⟨content, readFile_ok_iff.mpr (lookup_ok_iff.mpr ⟨_, hk, hg⟩)⟩

end Tree

end GoldenRecord

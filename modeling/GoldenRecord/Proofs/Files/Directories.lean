import GoldenRecord.Proofs.Files.Lookup

namespace GoldenRecord

namespace Path

theorem pieces_ne_nil (cs : List Char) : pieces cs ≠ [] := by
  induction cs with
  | nil => simp [pieces]
  | cons c rest ih =>
    unfold pieces
    split
    next => simp
    next => split <;> simp

theorem pieces_of_no_slash {cs : List Char} (h : '/' ∉ cs) : pieces cs = [cs] := by
  induction cs with
  | nil => rfl
  | cons c rest ih =>
    have hc : c ≠ '/' := fun e => h (by simp [e])
    have hr : '/' ∉ rest := fun m => h (List.mem_cons_of_mem _ m)
    simp [pieces, hc, ih hr]

theorem pieces_append_slash (as bs : List Char) :
    pieces (as ++ '/' :: bs) = pieces as ++ pieces bs := by
  induction as with
  | nil => simp [pieces]
  | cons c rest ih =>
    by_cases hc : c = '/'
    · simp [pieces, hc, ih]
    · cases hp : pieces rest with
      | nil => exact absurd hp (pieces_ne_nil rest)
      | cons piece more => simp [pieces, hc, ih, hp]

theorem no_slash_of_mem_pieces {cs piece : List Char} (h : piece ∈ pieces cs) : '/' ∉ piece := by
  induction cs generalizing piece with
  | nil => simp [pieces] at h; simp [h]
  | cons c rest ih =>
    by_cases hc : c = '/'
    · simp only [pieces, hc, if_true, List.mem_cons] at h
      rcases h with rfl | h
      · simp
      · exact ih h
    · cases hp : pieces rest with
      | nil => exact absurd hp (pieces_ne_nil rest)
      | cons first more =>
        simp only [pieces, hc, if_false, hp, List.mem_cons] at h
        rcases h with rfl | h
        · have hf : '/' ∉ first := ih (by simp [hp])
          simp [hf, Ne.symm hc]
        · exact ih (by simp [hp, h])

theorem no_slash_of_mem_pieceNames {p : Path} {piece : String} (h : piece ∈ p.pieceNames) :
    '/' ∉ piece.toList := by
  obtain ⟨cs, hcs, rfl⟩ := List.mem_map.mp h
  simpa using no_slash_of_mem_pieces hcs

structure IsPlainName (name : String) : Prop where
  noSlash : '/' ∉ name.toList
  notIdle : isIdle name = false
  notUp : name ≠ ".."

theorem IsPlainName.head_ne_slash {name : String} (h : IsPlainName name) :
    name.toList.head? ≠ some '/' := fun e => h.noSlash (List.mem_of_head? e)

/-- A name joined to a path is one piece more, where the path ends in a slash in place of the empty
last one. -/
theorem pieceNames_join {base : Path} {name : String} (h : IsPlainName name)
    (hb : base.text ≠ "") : ∃ pieces, (base.join name).pieceNames = pieces ++ [name] ∧
      (base.pieceNames = pieces ∨ base.pieceNames = pieces ++ [""]) := by
  have hname : pieces name.toList = [name.toList] := pieces_of_no_slash h.noSlash
  have hmid : ("/" : String).toList = ['/'] := rfl
  unfold join
  rw [if_neg (not_or.mpr ⟨h.head_ne_slash, hb⟩)]
  split
  next hlast =>
    obtain ⟨front, hfront⟩ := List.getLast?_eq_some_iff.mp hlast
    refine ⟨(pieces front).map String.ofList, ?_, .inr ?_⟩
    · simp [pieceNames, hfront, pieces_append_slash, hname]
    · simp [pieceNames, hfront, pieces_append_slash, pieces]
  next =>
    refine ⟨base.pieceNames, ?_, .inl rfl⟩
    simp [pieceNames, hmid, pieces_append_slash, hname]

theorem isAbsolute_join {base : Path} {name : String} (h : IsPlainName name) :
    (base.join name).isAbsolute = base.isAbsolute := by
  unfold join
  by_cases hb : base.text = ""
  · have hhead : (name.toList.head? == some '/') = false := beq_eq_false_iff_ne.mpr h.head_ne_slash
    simp [hb, isAbsolute, hhead]
  · rw [if_neg (not_or.mpr ⟨h.head_ne_slash, hb⟩)]
    have hne : base.text.toList ≠ [] := fun e => hb (String.toList_inj.mp e)
    cases hl : base.text.toList with
    | nil => exact absurd hl hne
    | cons c rest => split <;> simp [isAbsolute, hl]

end Path

namespace Tree

/-- The path leads to a directory. The empty path stands for where its lookup begins. -/
structure IsAt (t : Tree) (p : Path) (l : Location) : Prop where
  directory : t.get? l = some .directory
  walk : if p.text = "" then l = [] else t.walk p.start p.pieceNames = .ok l

theorem isAt_of_locate {t : Tree} {p : Path} {l : Location} (hl : t.locate p = .ok l) (hd : t.get? l = some .directory) :
    t.IsAt p l := by
  obtain ⟨hnames, hwalk⟩ := locate_ok_iff.mp hl
  have hne : p.text ≠ "" := by
    intro he
    unfold Path.lookupNames at hnames
    split at hnames <;> simp_all
  exact ⟨hd, by rwa [if_neg hne]⟩

theorem IsAt.mono {t u : Tree} {p : Path} {l : Location} (h : t.IsAt p l)
    (hs : t.DirectoriesIn u) : u.IsAt p l := by
  obtain ⟨hd, hw⟩ := h
  refine ⟨hs l hd, ?_⟩
  split
  next he => rwa [if_pos he] at hw
  next he => rw [if_neg he] at hw; exact hs.walk hw

theorem walk_of_concat_empty {t : Tree} {start l : Location} {names : List String}
    (h : t.walk start (names ++ [""]) = .ok l) : t.walk start names = .ok l := by
  obtain ⟨m, hm, hs⟩ := walk_concat_ok_iff.mp h
  obtain ⟨-, rfl⟩ := (step_idle_ok_iff rfl).mp hs
  exact hm

/-- The pieces before a name that is joined to the path of a directory lead to the directory. -/
theorem IsAt.walk_pieces {t : Tree} {base : Path} {b : Location} {name : String}
    (h : t.IsAt base b) (hn : Path.IsPlainName name) :
    ∃ pieces, (base.join name).pieceNames = pieces ++ [name] ∧
      t.walk (base.join name).start pieces = .ok b := by
  have hstart : (base.join name).start = base.start := by simp [Path.start, Path.isAbsolute_join hn]
  have hw := h.walk
  rw [hstart]
  split at hw
  next hempty =>
    subst hw
    have hjoin : base.join name = ⟨name⟩ := by simp [Path.join, hempty]
    have hs : base.start = [] := by simp [Path.start, Path.isAbsolute, hempty]
    refine ⟨[], ?_, ?_⟩
    · rw [hjoin]
      simp [Path.pieceNames, Path.pieces_of_no_slash hn.noSlash]
    · rw [hs]
      rfl
  next hne =>
    obtain ⟨pieces, hpieces, hbase⟩ := Path.pieceNames_join hn hne
    refine ⟨pieces, hpieces, ?_⟩
    rcases hbase with hbase | hbase
    · rwa [hbase] at hw
    · rw [hbase] at hw
      exact walk_of_concat_empty hw

/-- A name joined to the path of a directory leads into the directory. -/
theorem IsAt.walk_join {t : Tree} {p : Path} {l : Location} (h : t.IsAt p l) {name : String}
    (hn : Path.IsPlainName name) :
    t.walk (p.join name).start (p.join name).pieceNames = enter l name := by
  obtain ⟨pieces, hpieces, hwalk⟩ := h.walk_pieces hn
  rw [hpieces, walk_append, hwalk]
  change t.walk l [name] = _
  rw [walk_singleton, step_of_directory h.directory]

theorem IsAt.locate_join {t : Tree} {p : Path} {l k : Location} (h : t.IsAt p l) {name : String}
    (hn : Path.IsPlainName name) :
    t.locate (p.join name) = .ok k ↔
      (p.join name).lookupNames = .ok (p.join name).pieceNames ∧ enter l name = .ok k := by
  rw [locate_ok_iff, h.walk_join hn]

theorem directoriesIn_set {t : Tree} {l : Location} (hl : t.get? l = none) :
    t.DirectoriesIn (t.set l .directory) ∧ (t.set l .directory).get? l = some .directory := by
  have hg : ¬ l.IsGiven := by
    intro h
    rw [get?_of_isGiven h] at hl
    cases hl
  refine ⟨fun k hk => ?_, by simp [get?_set _ hg]⟩
  rw [get?_set _ hg]
  split
  next => rfl
  next => exact hk

theorem walk_replicate_empty {t : Tree} {l : Location} (h : t.get? l = some .directory) (k : Nat) :
    t.walk l (List.replicate k "") = .ok l := by
  induction k with
  | zero => rfl
  | succ k ih =>
    have hs : t.step l "" = .ok l := (step_idle_ok_iff rfl).mpr ⟨h, rfl⟩
    rw [List.replicate_succ, walk_cons, hs]
    exact ih

/-- Where the last step leads is where all the names lead, but for empty ones at the end. -/
theorem walk_of_lastStep {t : Tree} {start m l : Location} {names : List String} {last : String}
    (h : t.lastStep start names = .ok (m, last)) (hs : t.step m last = .ok l) :
    ∃ stripped k, names = stripped ++ List.replicate k "" ∧ t.walk start stripped = .ok l ∧
      (t.get? l = none → last ∈ names) := by
  obtain ⟨hd, k, ⟨hnames, rfl, rfl⟩ | ⟨init, hnames, -, hw⟩⟩ := lastStep_ok h
  · obtain ⟨-, rfl⟩ := (step_idle_ok_iff rfl).mp hs
    exact ⟨[], k, hnames, rfl, fun hnone => by simp [hd] at hnone⟩
  · exact ⟨init ++ [last], k, hnames, walk_concat_ok_iff.mpr ⟨m, hw, hs⟩, fun _ => by simp [hnames]⟩

/-- Making a directory finds it, or puts it where nothing is, one step below a directory. -/
theorem makeDirectory_ok {t u : Tree} {start : Location} {names : List String}
    (h : t.makeDirectory start names = .ok u) :
    ∃ l, u.walk start names = .ok l ∧ u.get? l = some .directory ∧
      (u = t ∨ t.get? l = none ∧ u = t.set l .directory ∧
        ∃ m, ∃ name ∈ names, t.get? m = some .directory ∧ enter m name = .ok l) := by
  obtain ⟨⟨m, last⟩, hlast, h⟩ := bind_ok_iff.mp h
  obtain ⟨target, hs, h⟩ := bind_ok_iff.mp h
  obtain ⟨hd, he⟩ := step_ok_iff.mp hs
  obtain ⟨stripped, k, hnames, hwalk, hmem⟩ := walk_of_lastStep hlast hs
  have hleads : ∀ u : Tree, t.DirectoriesIn u → u.get? target = some .directory →
      u.walk start names = .ok target := by
    intro u hgrown hfound
    rw [hnames, walk_append, hgrown.walk hwalk]
    exact walk_replicate_empty hfound k
  split at h
  next hfound =>
    cases h
    exact ⟨target, hleads t (.refl t) hfound, hfound, .inl rfl⟩
  next => cases h
  next hnone =>
    cases h
    obtain ⟨hgrown, hfound⟩ := directoriesIn_set hnone
    exact ⟨target, hleads _ hgrown hfound, hfound, .inr ⟨hnone, rfl, m, last, hmem hnone, hd, he⟩⟩

theorem makeDirectoryWith_ok {above : Tree → Except FileFault Unit × Tree} {t u : Tree}
    {start : Location} {names : List String}
    (h : makeDirectoryWith above start names t = (.ok (), u)) :
    ∃ v : Tree, v.makeDirectory start names = .ok u := by
  unfold makeDirectoryWith at h
  split at h
  next hm => cases h; exact ⟨t, hm⟩
  next =>
    split at h
    next => cases h
    next v _ =>
      split at h
      next hm => cases h; exact ⟨v, hm⟩
      next => cases h
  next => cases h

theorem createDirectory_ok {t u : Tree} {p : Path} (h : t.createDirectory p = (.ok (), u)) :
    ∃ l, u.IsAt p l := by
  unfold createDirectory at h
  split at h
  next he =>
    refine ⟨[], get?_of_isGiven (.inr (by simp)), ?_⟩
    rw [if_pos he]
  next he =>
    split at h
    next => cases h
    next names hn =>
      obtain rfl := lookupNames_ok hn
      obtain ⟨v, hm⟩ := makeDirectoryWith_ok h
      obtain ⟨l, hw, hd, -⟩ := makeDirectory_ok hm
      refine ⟨l, hd, ?_⟩
      rw [if_neg he]
      exact hw

end Tree

end GoldenRecord

import GoldenRecord.Proofs.Files.Naming

namespace GoldenRecord

namespace Tree

variable {t u v : Tree} {p : Path} {l : Location}

/-- A place on the way along a path. -/
def IsOnWay (t : Tree) (p : Path) (l : Location) : Prop :=
  ∃ names, names <+: p.components ∧ t.walk p.start names = .ok l

theorem DirectoriesIn.isOnWay (h : t.DirectoriesIn u) (hl : t.IsOnWay p l) : u.IsOnWay p l := by
  obtain ⟨names, hfront, hw⟩ := hl
  exact ⟨names, hfront, h.walk hw⟩

/-- The second tree is the first one with new directories on the way along a path. -/
structure Extends (t u : Tree) (p : Path) : Prop where
  kept : ∀ l o, t.get? l = some o → u.get? l = some o
  new : ∀ l o, t.get? l = none → u.get? l = some o → o = .directory ∧ u.IsOnWay p l

namespace Extends

theorem refl (t : Tree) (p : Path) : t.Extends t p :=
  ⟨fun _ _ h => h, fun l o hnone ho => by simp [hnone] at ho⟩

theorem directoriesIn (h : t.Extends u p) : t.DirectoriesIn u := fun l => h.kept l .directory

theorem trans (h : t.Extends u p) (h' : u.Extends v p) : t.Extends v p := by
  refine ⟨fun l o ho => h'.kept l o (h.kept l o ho), fun l o hnone ho => ?_⟩
  cases hu : u.get? l with
  | none => exact h'.new l o hu ho
  | some o' =>
    obtain ⟨rfl, hway⟩ := h.new l o' hnone hu
    obtain rfl := Option.some.inj ((h'.kept l .directory hu).symm.trans ho)
    exact ⟨rfl, h'.directoriesIn.isOnWay hway⟩

end Extends

section Induction

variable {P : Tree → Prop} {start : Location} {names : List String}

theorem makeDirectoryWith_induction {above : Tree → Except FileFault Unit × Tree}
    (step : ∀ v u, P v → v.makeDirectory start names = .ok u → P u)
    (habove : P t → P (above t).2) (h : P t) : P (makeDirectoryWith above start names t).2 := by
  unfold makeDirectoryWith
  split
  next hm => exact step _ _ h hm
  next =>
    have hup := habove h
    split
    next ha => rwa [ha] at hup
    next ha =>
      rw [ha] at hup
      split
      next hm => exact step _ _ hup hm
      next => exact hup
  next => exact h

theorem makeDirectories_induction
    (step : ∀ v u front, front <+: names → P v → v.makeDirectory start front = .ok u → P u)
    {above : List String} (hfront : above.reverse <+: names) (h : P t) :
    P (makeDirectories start above t).2 := by
  induction above generalizing t with
  | nil => exact h
  | cons name above ih =>
    have habove : above.reverse <+: names := by
      rw [List.reverse_cons] at hfront
      exact (List.prefix_append _ _).trans hfront
    exact makeDirectoryWith_induction (fun v u => step v u _ hfront) (ih habove) h

/-- What making a single directory keeps, for the path or a front part of it, is kept on the whole
way, wherever that ends. -/
theorem createDirectory_induction
    (step : ∀ v u front, front = p.pieceNames ∨ front <+: p.components → P v →
      v.makeDirectory p.start front = .ok u → P u) (h : P t) : P (t.createDirectory p).2 := by
  unfold createDirectory
  split
  next => exact h
  next =>
    split
    next => exact h
    next names hn =>
      obtain rfl := lookupNames_ok hn
      have hfront : p.components.dropLast.reverse.reverse <+: p.components := by
        rw [List.reverse_reverse]
        exact List.dropLast_prefix _
      exact makeDirectoryWith_induction (fun v u => step v u _ (.inl rfl))
        (makeDirectories_induction (fun v u front hf => step v u front (.inr hf)) hfront) h

end Induction

theorem makeDirectory_extends {names : List String}
    (hn : names = p.pieceNames ∨ names <+: p.components)
    (h : t.makeDirectory p.start names = .ok u) : t.Extends u p := by
  obtain ⟨l, hw, hd, rfl | ⟨hnone, rfl, -⟩⟩ := makeDirectory_ok h
  · exact .refl u p
  · have hway : (t.set l .directory).IsOnWay p l := by
      rcases hn with rfl | hfront
      · exact ⟨p.components, List.prefix_refl _, walk_components hw⟩
      · exact ⟨names, hfront, hw⟩
    have hgiven : ¬ l.IsGiven := not_isGiven_of_get? (t := t) (by simp [hnone])
    have hset : ∀ k, (t.set l .directory).get? k = if k = l then some .directory else t.get? k :=
      get?_set _ hgiven
    refine ⟨fun k o ho => ?_, fun k o hk ho => ?_⟩
    · have hne : k ≠ l := fun e => by simp [e, hnone] at ho
      rw [hset, if_neg hne, ho]
    · rw [hset] at ho
      split at ho
      next e => cases ho; exact ⟨rfl, e ▸ hway⟩
      next => simp [hk] at ho

/-- Making a directory, whether it comes to an end or not, adds directories on the way to it. -/
theorem createDirectory_extends (t : Tree) (p : Path) : t.Extends (t.createDirectory p).2 p :=
  createDirectory_induction (P := fun u => t.Extends u p)
    (fun _ _ _ hfront hv hm => hv.trans (makeDirectory_extends hfront hm)) (.refl t p)

theorem lastStep_of_walk {t : Tree} {start l : Location} {names : List String}
    (hwalk : t.walk start names = .ok l) (hd : t.get? l = some .directory) :
    ∃ m last, t.lastStep start names = .ok (m, last) ∧ t.step m last = .ok l := by
  obtain ⟨k, hnames, -⟩ := strip_trailing names
  generalize hstripped : (names.reverse.dropWhile (· == "")).reverse = stripped at hnames
  have hfront : t.walk start stripped = .ok l := by
    rw [hnames] at hwalk
    obtain ⟨m, hm, hmd⟩ := walk_front hwalk hd
    rw [walk_append, hm] at hwalk
    have hend : t.walk m (List.replicate k "") = .ok l := hwalk
    rw [walk_replicate_empty hmd] at hend
    rwa [← Except.ok.inj hend]
  have hlast : ∀ m last, t.walk start stripped.dropLast = .ok m → t.get? m = some .directory →
      stripped.getLast?.getD "." = last → t.lastStep start names = .ok (m, last) := by
    intro m last hm hmd hl
    have hstep : t.step m "." = .ok m := (step_idle_ok_iff rfl).mpr ⟨hmd, rfl⟩
    simp only [lastStep, hstripped, hm, hstep, hl, bind, Except.bind, pure, Except.pure]
  rcases List.eq_nil_or_concat stripped with hnil | ⟨init, x, hinit⟩
  · subst hnil
    cases hfront
    exact ⟨start, ".", hlast start "." rfl hd rfl, (step_idle_ok_iff rfl).mpr ⟨hd, rfl⟩⟩
  · rw [List.concat_eq_append] at hinit
    subst hinit
    obtain ⟨m, hm, hs⟩ := walk_concat_ok_iff.mp hfront
    exact ⟨m, x, hlast m x (by simpa using hm) (step_ok_iff.mp hs).1 (by simp), hs⟩

theorem createDirectory_of_isDirectory {t : Tree} {p : Path} (h : t.isDirectory p = true) :
    t.createDirectory p = (.ok (), t) := by
  obtain ⟨l, hl, hd⟩ := isDirectory_iff.mp h
  obtain ⟨hnames, hwalk⟩ := locate_ok_iff.mp hl
  obtain ⟨m, last, hlast, hstep⟩ := lastStep_of_walk hwalk hd
  have hmade : t.makeDirectory p.start p.pieceNames = .ok t := by
    simp only [makeDirectory, hlast, hstep, hd, bind, Except.bind]
  unfold createDirectory
  split
  next => rfl
  next =>
    rw [hnames]
    simp only [makeDirectoryWith, hmade]

theorem createDirectory_again {t u v : Tree} {p : Path} (h : t.createDirectory p = (.ok (), u))
    (hd : u.DirectoriesIn v) : v.createDirectory p = (.ok (), v) := by
  obtain ⟨l, hl⟩ := createDirectory_ok h
  have hl' := hl.mono hd
  by_cases he : p.text = ""
  · simp [createDirectory, he]
  · have hw := hl'.walk
    rw [if_neg he] at hw
    have hnames : p.lookupNames = .ok p.pieceNames := by
      unfold createDirectory at h
      rw [if_neg he] at h
      split at h
      next => cases h
      next hn => rw [hn, lookupNames_ok hn]
    exact createDirectory_of_isDirectory
      (isDirectory_iff.mpr ⟨l, locate_ok_iff.mpr ⟨hnames, hw⟩, hl'.directory⟩)

end Tree

end GoldenRecord

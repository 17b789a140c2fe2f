import GoldenRecord.Files.AtomicWrite
import GoldenRecord.Proofs.Files.Lookup

namespace GoldenRecord

namespace Temporary

/-- No name of a temporary file is as short as those that a path uses in a special way. -/
theorem name_ne {special : String} (n : Nat) (h : special.toList.length < 4) : name n ≠ special := by
  rintro rfl
  simp only [name, String.toList_ofList, List.length_append, List.length_replicate,
    List.length_cons, List.length_nil] at h
  omega

theorem firstFree_eq_name (taken : List String) (tries n : Nat) :
    ∃ m, firstFree taken tries n = name m := by
  induction tries generalizing n with
  | zero => exact ⟨n, rfl⟩
  | succ tries ih =>
    unfold firstFree
    split
    next => exact ih (n + 1)
    next => exact ⟨n, rfl⟩

theorem freshName_eq_name (taken : List String) : ∃ m, freshName taken = name m :=
  firstFree_eq_name taken _ _

end Temporary

namespace Tree

variable {t : Tree}

theorem not_isGiven_concat {l : Location} {name : String} (hu : name ≠ "..") (he : name ≠ "") :
    ¬ Location.IsGiven (l ++ [name]) := by
  rintro (h | h)
  · have hlast : (l ++ [name]).getLast? = some "" := by rw [h]; rfl
    exact he (by simpa using hlast)
  · exact hu (h name (by simp))

theorem createTemporary_ok {t u : Tree} {p : Path} {l : Location}
    (h : t.createTemporary p = .ok (l, u)) :
    u = t.set l (.file []) ∧ t.get? l = none ∧ ¬ l.IsGiven ∧
      ∃ k n, l = k ++ [Temporary.name n] ∧ Temporary.name n ∉ p.pieceNames := by
  obtain ⟨k, -, h⟩ := bind_ok_iff.mp h
  cases h
  have hfresh := Temporary.freshName_not_mem (t.entries k ++ p.pieceNames)
  obtain ⟨n, hn⟩ := Temporary.freshName_eq_name (t.entries k ++ p.pieceNames)
  rw [hn] at hfresh ⊢
  have hfree : Temporary.name n ∉ t.entries k ∧ Temporary.name n ∉ p.pieceNames := by
    simpa using hfresh
  have hg : ¬ Location.IsGiven (k ++ [Temporary.name n]) :=
    not_isGiven_concat (Temporary.name_ne n (by decide)) (Temporary.name_ne n (by decide))
  refine ⟨rfl, ?_, hg, k, n, rfl, hfree.2⟩
  cases hget : t.get? (k ++ [Temporary.name n]) with
  | none => rfl
  | some o => exact absurd (mem_entries_of_get? hg hget) hfree.1

theorem enter_plain {l k : Location} {name : String} (hi : Path.isIdle name = false)
    (hu : name ≠ "..") (h : enter l name = .ok k) : k = l ++ [name] := by
  unfold enter at h
  simp only [hi, hu, Bool.false_eq_true, if_false] at h
  split at h
  next => cases h
  next => exact (Except.ok.inj h).symm

theorem renameTarget_ok {t : Tree} {p : Path} {l : Location} (h : t.renameTarget p = .ok l) :
    t.locate p = .ok l ∧ t.get? l ≠ some .directory ∧ ∃ k, ∃ name ∈ p.pieceNames.getLast?,
      l = k ++ [name] ∧ t.get? k = some .directory ∧ Path.isIdle name = false ∧ name ≠ ".." := by
  unfold renameTarget at h
  split at h
  next => cases h
  obtain ⟨names, hn, h⟩ := bind_ok_iff.mp h
  obtain rfl := lookupNames_ok hn
  obtain ⟨⟨m, last⟩, hs, h⟩ := bind_ok_iff.mp h
  dsimp only at h
  split at h
  next => cases h
  next hplain =>
    obtain ⟨hdot, hup⟩ := not_or.mp hplain
    obtain ⟨target, ht, h⟩ := bind_ok_iff.mp h
    split at h
    next => cases h
    next hslash =>
      split at h
      next => cases h
      next hdir =>
        cases h
        obtain ⟨-, k, ⟨-, -, hlast⟩ | ⟨init, hnames, hempty, hwalk⟩⟩ := lastStep_ok hs
        · exact absurd hlast hdot
        -- a slash at the end was refused, so no empty name follows the last one
        have hpieces : p.pieceNames = init ++ [last] := by
          cases k with
          | zero => simpa using hnames
          | succ k =>
            rw [hnames, List.replicate_succ', ← List.append_assoc] at hslash
            exact absurd List.getLast?_concat hslash
        have hidle : Path.isIdle last = false := by simp [Path.isIdle, hdot, hempty]
        obtain ⟨hd, he⟩ := step_ok_iff.mp ht
        refine ⟨locate_ok_iff.mpr ⟨hn, ?_⟩, fun e => hdir (by simp [isDirectoryAt, e]), m, last,
          by simp [hpieces], enter_plain hidle hup he, hd, hidle, hup⟩
        rw [hpieces]
        exact walk_concat_ok_iff.mpr ⟨m, hwalk, ht⟩

theorem get?_set_set {t : Tree} {l : Location} {o o' : Object} (hl : ¬ l.IsGiven) (k : Location) :
    ((t.set l o).set l o').get? k = if k = l then some o' else t.get? k := by
  rw [get?_set _ hl, get?_set _ hl]
  split <;> rfl

theorem get?_set_set_of_not_mem {t : Tree} {l k : Location} {name : String} {o o' : Object}
    (hl : ¬ Location.IsGiven (l ++ [name])) (hk : name ∉ k) :
    ((t.set (l ++ [name]) o).set (l ++ [name]) o').get? k = t.get? k := by
  rw [get?_set_set hl, if_neg]
  rintro rfl
  simp at hk

section Fresh

variable {v : Tree} {temporary : String}

/-- Steps along other names do not lead to a name that does not occur so far. -/
theorem not_mem_of_enter {l k : Location} {name : String} (hup : temporary ≠ "..")
    (hl : temporary ∉ l) (hn : name ≠ temporary) (h : enter l name = .ok k) : temporary ∉ k := by
  unfold enter at h
  split at h
  next => cases h; exact hl
  next =>
    split at h
    next =>
      cases h
      unfold Location.above
      split
      next hroot => exact hroot ▸ hl
      next =>
        split
        next => simp [hl, hup]
        next => exact fun hmem => hl (List.dropLast_subset l hmem)
    next =>
      split at h
      next => cases h
      next => cases h; simp [hl, Ne.symm hn]

/-- Trees that differ only below one name look the same to a walk along other names. -/
theorem walk_avoiding (hup : temporary ≠ "..") (hv : ∀ l, temporary ∉ l → v.get? l = t.get? l)
    {l : Location} {names : List String} (hl : temporary ∉ l) (hn : temporary ∉ names) :
    v.walk l names = t.walk l names ∧ ∀ k, t.walk l names = .ok k → temporary ∉ k := by
  induction names generalizing l with
  | nil => exact ⟨rfl, fun k hk => by cases hk; exact hl⟩
  | cons name names ih =>
    obtain ⟨hname, hnames⟩ := not_or.mp (fun h => hn (List.mem_cons.mpr h))
    have hstep : v.step l name = t.step l name := by rw [step, step, hv l hl]
    rw [walk_cons, walk_cons, hstep]
    cases hs : t.step l name with
    | error f => exact ⟨rfl, fun k hk => by cases hk⟩
    | ok m => exact ih (not_mem_of_enter hup hl (Ne.symm hname) (step_ok_iff.mp hs).2) hnames

theorem not_mem_start (p : Path) (hempty : temporary ≠ "") : temporary ∉ p.start := by
  unfold Path.start Location.root
  split <;> simp [hempty]

/-- A name that does not occur in a path makes no difference to what the path leads to. -/
theorem lookup_avoiding {p : Path} (hup : temporary ≠ "..") (hempty : temporary ≠ "")
    (hv : ∀ l, temporary ∉ l → v.get? l = t.get? l) (hp : temporary ∉ p.pieceNames) :
    v.lookup p = t.lookup p := by
  obtain ⟨hwalk, havoids⟩ := walk_avoiding hup hv (not_mem_start p hempty) hp
  unfold lookup locate
  cases hn : p.lookupNames with
  | error f => rfl
  | ok names =>
    obtain rfl := lookupNames_ok hn
    simp only [bind, Except.bind, hwalk]
    cases hl : t.walk p.start p.pieceNames with
    | error f => rfl
    | ok l =>
      dsimp only
      rw [hv l (havoids l hl)]

theorem lastStep_avoiding (hup : temporary ≠ "..") (hdot : temporary ≠ ".")
    (hv : ∀ l, temporary ∉ l → v.get? l = t.get? l) {start : Location} {names : List String}
    (hl : temporary ∉ start) (hn : temporary ∉ names) :
    v.lastStep start names = t.lastStep start names ∧
      ∀ l last, t.lastStep start names = .ok (l, last) → temporary ∉ l ∧ last ≠ temporary := by
  obtain ⟨k, hnames, -⟩ := strip_trailing names
  unfold lastStep
  generalize (names.reverse.dropWhile (· == "")).reverse = stripped at hnames
  have hstripped : temporary ∉ stripped := fun hmem => hn (hnames ▸ List.mem_append_left _ hmem)
  have hinit : temporary ∉ stripped.dropLast := fun hmem =>
    hstripped (List.dropLast_subset stripped hmem)
  obtain ⟨hwalk, havoids⟩ := walk_avoiding hup hv hl hinit
  dsimp only
  rw [hwalk]
  cases hw : t.walk start stripped.dropLast with
  | error f => exact ⟨rfl, fun l last h => by cases h⟩
  | ok m =>
    have hm := havoids m hw
    have hstep : v.step m "." = t.step m "." := by rw [step, step, hv m hm]
    refine ⟨by simp only [bind, Except.bind, hstep], fun l last h => ?_⟩
    obtain ⟨m', hm', h⟩ := bind_ok_iff.mp h
    obtain ⟨l', hs, h⟩ := bind_ok_iff.mp h
    cases hm'
    obtain ⟨-, rfl⟩ := (step_idle_ok_iff rfl).mp hs
    cases h
    refine ⟨hm, fun he => ?_⟩
    cases hlast : stripped.getLast? with
    | none => exact hdot (by simpa [hlast] using he.symm)
    | some x =>
      have hx : x = temporary := by simpa [hlast] using he
      exact hstripped (hx ▸ List.mem_of_getLast? hlast)

/-- A name that does not occur in a path makes no difference to what the path can be renamed to. -/
theorem renameTarget_avoiding {p : Path} (hup : temporary ≠ "..") (hdot : temporary ≠ ".")
    (hempty : temporary ≠ "") (hv : ∀ l, temporary ∉ l → v.get? l = t.get? l)
    (hp : temporary ∉ p.pieceNames) : v.renameTarget p = t.renameTarget p := by
  obtain ⟨hlast, havoids⟩ := lastStep_avoiding hup hdot hv (not_mem_start p hempty) hp
  unfold renameTarget
  split
  next => rfl
  next =>
    cases hn : p.lookupNames with
    | error f => rfl
    | ok names =>
      obtain rfl := lookupNames_ok hn
      simp only [bind, Except.bind, hlast]
      cases hs : t.lastStep p.start p.pieceNames with
      | error f => rfl
      | ok found =>
        obtain ⟨l, last⟩ := found
        obtain ⟨hl, hname⟩ := havoids l last hs
        have hstep : v.step l last = t.step l last := by rw [step, step, hv l hl]
        dsimp only
        rw [hstep]
        cases ht : t.step l last with
        | error f => rfl
        | ok target =>
          have htarget := hv target (not_mem_of_enter hup hl hname (step_ok_iff.mp ht).2)
          simp only [isDirectoryAt, htarget]
          rfl

end Fresh

section Erase

theorem erase_set (t : Tree) (l : Location) (o : Object) : (t.set l o).erase l = t.erase l := by
  have hfilter : ∀ objects : List (Location × Object),
      (setEntry l o objects).filter (fun e => e.1 != l) = objects.filter fun e => e.1 != l := by
    intro objects
    induction objects with
    | nil => simp [setEntry]
    | cons head rest ih =>
      obtain ⟨k, p⟩ := head
      unfold setEntry
      split
      next hk => simp [hk]
      next => simp [List.filter_cons, ih]
  simp only [erase, set, hfilter]

theorem erase_of_absent {t : Tree} {l : Location} (hl : ¬ l.IsGiven) (h : t.get? l = none) :
    t.erase l = t := by
  have habsent : ∀ e ∈ t.objects, (e.1 != l) = true := by
    rw [get?, if_neg hl, List.lookup_eq_none_iff] at h
    intro e he
    rw [bne_comm]
    exact h e he
  have hobjects : t.objects.filter (fun e => e.1 != l) = t.objects :=
    List.filter_eq_self.mpr habsent
  simp only [erase, hobjects]

end Erase

section Writing

variable {u : Tree} {p : Path} {l : Location}

theorem get?_while_writing (h : t.createTemporary p = .ok (l, u)) (part : Bytes) :
    (u.set l (.file part)).get? l = some (.file part) := by
  obtain ⟨rfl, -, hgiven, -⟩ := createTemporary_ok h
  rw [get?_set_set hgiven, if_pos rfl]

/-- Whatever the temporary file holds, without it the tree is what it was. -/
theorem erase_while_writing (h : t.createTemporary p = .ok (l, u)) (part : Bytes) :
    (u.set l (.file part)).erase l = t := by
  obtain ⟨rfl, hfree, hgiven, -⟩ := createTemporary_ok h
  rw [erase_set, erase_set, erase_of_absent hgiven hfree]

theorem renameTarget_while_writing (h : t.createTemporary p = .ok (l, u)) (part : Bytes) :
    (u.set l (.file part)).renameTarget p = t.renameTarget p := by
  obtain ⟨rfl, -, hgiven, k, n, rfl, hname⟩ := createTemporary_ok h
  exact renameTarget_avoiding (Temporary.name_ne n (by decide)) (Temporary.name_ne n (by decide))
    (Temporary.name_ne n (by decide)) (fun _ hk => get?_set_set_of_not_mem hgiven hk) hname

/-- While the temporary file is being filled, only paths through its name lead elsewhere than
before; the path of the target is none of them. -/
theorem lookup_while_writing (h : t.createTemporary p = .ok (l, u)) :
    ∃ name ∈ l.getLast?, name ∉ p.pieceNames ∧
      ∀ part q, name ∉ q.pieceNames → (u.set l (.file part)).lookup q = t.lookup q := by
  obtain ⟨rfl, -, hgiven, k, n, rfl, hname⟩ := createTemporary_ok h
  refine ⟨Temporary.name n, by simp, hname, fun part q hq => ?_⟩
  exact lookup_avoiding (Temporary.name_ne n (by decide)) (Temporary.name_ne n (by decide))
    (fun _ hk => get?_set_set_of_not_mem hgiven hk) hq

end Writing

/-- What a write in one step comes to: it finds the directory for the temporary file and the place of
the target, and puts the content there. If either cannot be found, the tree is what it was. -/
theorem writeAtomic_eq (t : Tree) (p : Path) (content : Bytes) :
    t.writeAtomic p content =
      match t.directoryOf p >>= fun _ => t.renameTarget p with
      | .error f => (.error f, t)
      | .ok l => (.ok (), t.set l (.file content)) := by
  unfold writeAtomic
  cases hc : t.createTemporary p with
  | error f =>
    have hd : t.directoryOf p = .error f := by
      unfold createTemporary at hc
      cases hd : t.directoryOf p with
      | error g => rw [hd] at hc; cases hc; rfl
      | ok k => rw [hd] at hc; cases hc
    rw [hd]
    rfl
  | ok made =>
    obtain ⟨temporary, v⟩ := made
    obtain ⟨k, hd, -⟩ := bind_ok_iff.mp hc
    dsimp only
    rw [rename, renameTarget_while_writing hc, hd]
    simp only [get?_while_writing hc, erase_while_writing hc]
    cases t.renameTarget p <;> rfl

/-- A write in one step puts the whole content at the location of the path. -/
theorem writeAtomic_ok {t u : Tree} {p : Path} {content : Bytes}
    (h : t.writeAtomic p content = (.ok (), u)) :
    ∃ l, t.locate p = .ok l ∧ t.Changes u l (some content) := by
  rw [writeAtomic_eq] at h
  split at h
  next => cases h
  next l hl =>
    cases h
    obtain ⟨-, -, ht⟩ := bind_ok_iff.mp hl
    obtain ⟨hlocate, hd, -⟩ := renameTarget_ok ht
    exact ⟨l, hlocate, .of_set hd content⟩

theorem writeAtomic_error {t u : Tree} {p : Path} {content : Bytes} {f : FileFault}
    (h : t.writeAtomic p content = (.error f, u)) : u = t := by
  rw [writeAtomic_eq] at h
  split at h
  next => cases h; rfl
  next => cases h

theorem removeFile_ok {t u : Tree} {p : Path} (h : t.removeFile p = .ok u) :
    ∃ l, t.locate p = .ok l ∧ t.Changes u l none := by
  obtain ⟨l, hl, h⟩ := bind_ok_iff.mp h
  cases hg : t.get? l with
  | none => rw [hg] at h; cases h
  | some o =>
    cases o with
    | directory => rw [hg] at h; cases h
    | file content =>
      rw [hg] at h
      cases h
      have hdir : t.get? l ≠ some .directory := by simp [hg]
      exact ⟨l, hl, .of_erase hdir⟩

end Tree

end GoldenRecord

import GoldenRecord.Proofs.Files.Creation

namespace GoldenRecord

namespace Tree

variable {t u : Tree} {p : Path} {l k : Location} {name : String}

/-- Every object has a name of its own in a directory. -/
def WellFormed (t : Tree) : Prop :=
  ∀ l ∈ t.objects.map (·.1), ∃ k name, l = k ++ [name] ∧ Path.IsPlainName name ∧
    t.get? k = some .directory

instance (name : String) : Decidable (Path.IsPlainName name) :=
  decidable_of_iff ('/' ∉ name.toList ∧ Path.isIdle name = false ∧ name ≠ "..")
    ⟨fun ⟨hslash, hidle, hup⟩ => ⟨hslash, hidle, hup⟩,
      fun h => ⟨h.noSlash, h.notIdle, h.notUp⟩⟩

theorem wellFormed_iff : t.WellFormed ↔ ∀ l ∈ t.objects.map (·.1), ∃ name ∈ l.getLast?,
    Path.IsPlainName name ∧ t.get? l.dropLast = some .directory := by
  refine forall_congr' fun l => imp_congr_right fun _ => ?_
  constructor
  · rintro ⟨k, name, rfl, hn, hk⟩
    exact ⟨name, by simp, hn, by rwa [List.dropLast_concat]⟩
  · rintro ⟨name, hlast, hn, hk⟩
    obtain ⟨k, rfl⟩ := List.getLast?_eq_some_iff.mp hlast
    exact ⟨k, name, rfl, hn, by rwa [List.dropLast_concat] at hk⟩

instance (t : Tree) : Decidable t.WellFormed := decidable_of_iff _ wellFormed_iff.symm

theorem not_isGiven_of_plain (hn : Path.IsPlainName name) : ¬ Location.IsGiven (k ++ [name]) :=
  not_isGiven_concat hn.notUp hn.ne_empty

namespace WellFormed

theorem above (h : t.WellFormed) (hk : t.get? k = some .directory) :
    t.get? k.above = some .directory := by
  unfold Location.above
  split
  next => exact get?_of_isGiven (.inl rfl)
  next hroot =>
    split
    next hup => exact get?_of_isGiven (.inr (by simpa [or_imp, forall_and] using hup))
    next hup =>
      have hgiven : ¬ k.IsGiven := not_or.mpr ⟨hroot, hup⟩
      obtain ⟨m, name, rfl, -, hm⟩ := h k (List.mem_map_of_mem (mem_objects_of_get? hgiven hk))
      rwa [List.dropLast_concat]

theorem set (h : t.WellFormed) (hn : Path.IsPlainName name) (hk : t.get? k = some .directory)
    {o : Object} (ho : t.get? (k ++ [name]) = some .directory → o = .directory) :
    (t.set (k ++ [name]) o).WellFormed := by
  have hset := get?_set (t := t) o (not_isGiven_of_plain (k := k) hn)
  have hdirs : t.DirectoriesIn (t.set (k ++ [name]) o) := by
    intro m hm
    rw [hset]
    split
    next e => rw [ho (e ▸ hm)]
    next => exact hm
  intro m hm
  rcases mem_setEntry_keys hm with rfl | hm
  · exact ⟨k, name, rfl, hn, hdirs k hk⟩
  · obtain ⟨m', name', rfl, hn', hd⟩ := h m hm
    exact ⟨m', name', rfl, hn', hdirs m' hd⟩

theorem erase (h : t.WellFormed) (hl : t.get? l ≠ some .directory) : (t.erase l).WellFormed := by
  intro m hm
  have hmem : m ∈ t.objects.map (·.1) := by
    obtain ⟨e, he, rfl⟩ := List.mem_map.mp hm
    exact List.mem_map_of_mem (List.mem_filter.mp he).1
  obtain ⟨k, name, rfl, hn, hd⟩ := h m hmem
  have hne : k ≠ l := fun e => hl (e ▸ hd)
  refine ⟨k, name, rfl, hn, ?_⟩
  rw [get?_erase (not_isGiven_of_get? hl), if_neg hne, hd]

theorem makeDirectory (h : t.WellFormed) {start : Location} {names : List String}
    (hnames : ∀ name ∈ names, '/' ∉ name.toList) (hu : t.makeDirectory start names = .ok u) :
    u.WellFormed := by
  obtain ⟨l, -, -, rfl | ⟨hnone, rfl, m, name, hmem, hm, he⟩⟩ := makeDirectory_ok hu
  · exact h
  · have hidle : Path.isIdle name = false := by
      cases hi : Path.isIdle name with
      | false => rfl
      | true =>
        rw [enter, if_pos hi] at he
        cases he
        simp [hm] at hnone
    have hup : name ≠ ".." := by
      rintro rfl
      rw [enter, if_neg (by decide), if_pos rfl] at he
      cases he
      simp [h.above hm] at hnone
    obtain rfl := enter_plain hidle hup he
    exact h.set ⟨hnames name hmem, hidle, hup⟩ hm fun _ => rfl

theorem createDirectory (h : t.WellFormed) (p : Path) : (t.createDirectory p).2.WellFormed := by
  refine createDirectory_induction (fun v u front hfront hv hu => hv.makeDirectory ?_ hu) h
  intro name hname
  rcases hfront with rfl | hfront
  · exact Path.no_slash_of_mem_pieceNames hname
  · have hmem : name ∈ p.components := hfront.subset hname
    exact Path.no_slash_of_mem_pieceNames (List.mem_filter.mp hmem).1

theorem removeFile (h : t.WellFormed) (hu : t.removeFile p = .ok u) : u.WellFormed := by
  obtain ⟨l, -, hu⟩ := bind_ok_iff.mp hu
  cases hg : t.get? l with
  | none => simp [hg] at hu
  | some o =>
    cases o with
    | directory => simp [hg] at hu
    | file content =>
      rw [hg] at hu
      cases hu
      exact h.erase (by simp [hg])

end WellFormed

/-- Writing in one step keeps a tree well-formed, whether it succeeds or not. -/
theorem WellFormed.writeAtomic (h : t.WellFormed) (p : Path) (content : Bytes) :
    (t.writeAtomic p content).2.WellFormed := by
  rw [writeAtomic_eq]
  split
  next => exact h
  next l hl =>
    obtain ⟨-, -, ht⟩ := bind_ok_iff.mp hl
    obtain ⟨-, hdir, k, name, hlast, rfl, hk, hidle, hup⟩ := renameTarget_ok ht
    have hslash := Path.no_slash_of_mem_pieceNames (List.mem_of_getLast? hlast)
    exact h.set ⟨hslash, hidle, hup⟩ hk fun e => absurd e hdir

theorem WellFormed.directory_of_get? (h : t.WellFormed) (hn : Path.IsPlainName name)
    (ho : t.get? (l ++ [name]) ≠ none) : t.get? l = some .directory := by
  obtain ⟨o, ho⟩ := Option.ne_none_iff_exists'.mp ho
  obtain ⟨k, name', he, -, hk⟩ := h _ (List.mem_map_of_mem (mem_objects_of_get? (not_isGiven_of_plain hn) ho))
  obtain ⟨rfl, -⟩ : l = k ∧ name = name' := by simpa using he
  exact hk

theorem WellFormed.isPlainName_of_file (h : t.WellFormed) {content : Bytes}
    (hg : t.get? (l ++ [name]) = some (.file content)) : Path.IsPlainName name := by
  have hgiven : ¬ Location.IsGiven (l ++ [name]) := not_isGiven_of_get? (t := t) (by simp [hg])
  obtain ⟨k, other, he, hn, -⟩ := h _ (List.mem_map_of_mem (mem_objects_of_get? hgiven hg))
  obtain ⟨-, rfl⟩ : l = k ∧ name = other := by simpa using he
  exact hn

theorem entryName?_eq_some_iff : entryName? l k = some name ↔ k = l ++ [name] := by
  unfold entryName?
  constructor
  · intro h
    split at h
    next => split at h <;> simp_all
    next => cases h
  · rintro rfl
    simp

theorem mem_entries_iff_mem_objects : name ∈ t.entries l ↔ l ++ [name] ∈ t.objects.map (·.1) := by
  unfold entries
  rw [List.mem_filterMap, List.mem_map]
  exact exists_congr fun e => and_congr_right fun _ => entryName?_eq_some_iff

/-- A directory of a well-formed tree shows the names of the objects in it. -/
theorem WellFormed.mem_entries_iff (h : t.WellFormed) :
    name ∈ t.entries l ↔ Path.IsPlainName name ∧ t.get? (l ++ [name]) ≠ none := by
  constructor
  · intro hmem
    have hobject := mem_entries_iff_mem_objects.mp hmem
    obtain ⟨m, name', he, hn, -⟩ := h _ hobject
    obtain ⟨rfl, rfl⟩ : l = m ∧ name = name' := by simpa using he
    refine ⟨hn, ?_⟩
    obtain ⟨e, he, hkey⟩ := List.mem_map.mp hobject
    rw [get?, if_neg (not_isGiven_of_plain hn), ne_eq, List.lookup_eq_none_iff]
    exact fun hnone => by simpa [hkey] using hnone e he
  · rintro ⟨hn, hsome⟩
    obtain ⟨o, ho⟩ := Option.ne_none_iff_exists'.mp hsome
    exact mem_entries_of_get? (not_isGiven_of_plain hn) ho

theorem nodup_entries (t : Tree) (l : Location) : (t.entries l).Nodup := by
  have hentries : t.entries l = (t.objects.map (·.1)).filterMap (entryName? l) := by
    rw [List.filterMap_map]
    rfl
  rw [hentries]
  refine List.Pairwise.filterMap (entryName? l) (fun k k' hne name hname name' hname' he => hne ?_)
    t.nodup
  rw [entryName?_eq_some_iff.mp hname, entryName?_eq_some_iff.mp hname', he]

theorem WellFormed.nodup_paths (h : t.WellFormed) (p : Path) (l : Location) :
    ((t.entries l).map p.join).Nodup := by
  refine List.pairwise_map.mpr ((nodup_entries t l).imp_of_mem ?_)
  intro name other hname hother hne he
  exact hne (Path.join_injective (h.mem_entries_iff.mp hname).1 (h.mem_entries_iff.mp hother).1 he)

end Tree

end GoldenRecord

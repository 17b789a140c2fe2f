import GoldenRecord.Proofs.Json.Grammar
import GoldenRecord.Proofs.Writable

namespace GoldenRecord

open Json (Fault Reading Breakage Written)
open Json.Reading

namespace Json.Reading

mutual

theorem skip_of_toJson : (r : Reading) → {j : Json} → r.toJson = .ok j → r.skip = .ok ()
  | .null, _, _ | .bool _, _, _ | .number _, _, _ | .string _, _, _ => rfl
  | .array items ending, _, h => by
    obtain ⟨js, hitems, h⟩ := bind_ok_iff.mp h
    obtain ⟨hending, -⟩ := andThen_ok_iff.mp h
    exact skip_array.mpr ⟨skipItems_of_toItems items hitems, checkEnding_ok_iff.mp hending⟩
  | .object members ending, _, h => by
    obtain ⟨js, hmembers, h⟩ := bind_ok_iff.mp h
    obtain ⟨hending, -⟩ := andThen_ok_iff.mp h
    exact skip_object.mpr ⟨skipMembers_of_toMembers members hmembers, checkEnding_ok_iff.mp hending⟩
  | .broken _, _, h => nomatch h

theorem skipItems_of_toItems : (items : List Reading) → {js : List Json} →
    toItems items = .ok js → skipItems items = .ok ()
  | [], _, _ => rfl
  | r :: rest, _, h => by
    obtain ⟨j, hj, h⟩ := bind_ok_iff.mp h
    obtain ⟨js, hrest, -⟩ := bind_ok_iff.mp h
    exact skipItems_cons.mpr ⟨skip_of_toJson r hj, skipItems_of_toItems rest hrest⟩

theorem skipMembers_of_toMembers : (members : List (Except Fault String × Reading)) →
    {js : List (String × Json)} → toMembers members = .ok js → skipMembers members = .ok ()
  | [], _, _ => rfl
  | (_, r) :: rest, _, h => by
    obtain ⟨_, -, h⟩ := bind_ok_iff.mp h
    obtain ⟨j, hj, h⟩ := bind_ok_iff.mp h
    obtain ⟨js, hrest, -⟩ := bind_ok_iff.mp h
    exact skipMembers_cons.mpr ⟨skip_of_toJson r hj, skipMembers_of_toMembers rest hrest⟩

end

theorem skipItems_of_forall {items : List Reading} (h : ∀ r ∈ items, r.skip = .ok ()) :
    skipItems items = .ok () := by
  induction items with
  | nil => rfl
  | cons r rest ih =>
    exact skipItems_cons.mpr ⟨h r List.mem_cons_self, ih fun r hr => h r (List.mem_cons_of_mem _ hr)⟩

theorem skipMembers_of_forall {members : List (Except Fault String × Reading)}
    (h : ∀ m ∈ members, m.2.skip = .ok ()) : skipMembers members = .ok () := by
  induction members with
  | nil => rfl
  | cons m rest ih =>
    exact skipMembers_cons.mpr
      ⟨h m List.mem_cons_self, ih fun m hm => h m (List.mem_cons_of_mem _ hm)⟩

end Json.Reading

mutual

/-- What is read in some shape can be passed over: it is well formed throughout. -/
theorem Schema.skip_of_decode : (s : Schema) → {r : Reading} → {v : s.Data} →
    s.decode r = .ok v → r.skip = .ok ()
  | .flag, r, _, h => by
    cases r with
    | bool b => rfl
    | _ => cases h
  | .text, r, _, h => by
    cases r with
    | string text => rfl
    | _ => cases h
  | .natural, r, _, h => by
    cases r with
    | number value => rfl
    | _ => cases h
  | .real, r, _, h => by
    cases r with
    | number value => rfl
    | _ => cases h
  | .any, r, _, h => by
    obtain ⟨j, hj, -⟩ := map_ok_iff.mp h
    exact skip_of_toJson r hj
  | .optional s, r, _, h => by
    unfold Schema.decode at h
    split at h
    next => rfl
    next =>
      obtain ⟨v, hv, -⟩ := map_ok_iff.mp h
      exact s.skip_of_decode hv
  | .list s, r, _, h => by
    unfold Schema.decode at h
    split at h
    next items ending =>
      obtain ⟨vs, hvs, h⟩ := bind_ok_iff.mp h
      obtain ⟨hending, -⟩ := andThen_ok_iff.mp h
      have hskip : ∀ r ∈ items, r.skip = .ok () := by
        intro r hr
        obtain ⟨v, hv⟩ := exists_of_mapM_ok hvs r hr
        exact s.skip_of_decode hv
      exact skip_array.mpr ⟨skipItems_of_forall hskip, checkEnding_ok_iff.mp hending⟩
    next => cases h
  | .map s, r, _, h => by
    unfold Schema.decode at h
    split at h
    next members ending =>
      obtain ⟨vs, hvs, h⟩ := bind_ok_iff.mp h
      obtain ⟨hending, -⟩ := andThen_ok_iff.mp h
      have hskip : ∀ m ∈ members, m.2.skip = .ok () := by
        intro m hm
        obtain ⟨e, he⟩ := exists_of_mapM_ok hvs m hm
        obtain ⟨key, -, he⟩ := bind_ok_iff.mp he
        obtain ⟨v, hv, -⟩ := bind_ok_iff.mp he
        exact s.skip_of_decode hv
      exact skip_object.mpr ⟨skipMembers_of_forall hskip, checkEnding_ok_iff.mp hending⟩
    next => cases h
  | .record fields, r, _, h => by
    unfold Schema.decode at h
    split at h
    next members ending =>
      obtain ⟨slots, hslots, h⟩ := bind_ok_iff.mp h
      obtain ⟨hending, -⟩ := andThen_ok_iff.mp h
      have hskip : ∀ m ∈ members, m.2.skip = .ok () := by
        intro m hm
        obtain ⟨key, before, next, hnext⟩ := Fields.exists_store_of_storeAll hslots m hm
        exact fields.skip_of_store hnext
      exact skip_object.mpr ⟨skipMembers_of_forall hskip, checkEnding_ok_iff.mp hending⟩
    next items ending =>
      obtain ⟨hitems, hending⟩ := fields.skip_of_decodeItems h
      exact skip_array.mpr ⟨hitems, hending⟩
    next => cases h

theorem Fields.skip_of_store : (fields : Fields) → {key : String} → {r : Reading} →
    {before after : fields.Slots} → fields.store key r before = .ok after → r.skip = .ok ()
  | .nil, _, _, (), (), h => h
  | .cons name otherName _ s rest, key, r, (slot, slots), after, h => by
    by_cases hown : key = name ∨ otherName = some key
    · obtain ⟨-, v, hv, -⟩ := (Fields.store_own hown).mp h
      exact s.skip_of_decode hv
    · rw [Fields.store_other hown] at h
      obtain ⟨later, hlater, -⟩ := map_ok_iff.mp h
      exact rest.skip_of_store hlater

theorem Fields.skip_of_decodeItems : (fields : Fields) → {items : List Reading} →
    {ending : Option Breakage} → {vs : fields.Data} →
    fields.decodeItems items ending = .ok vs → skipItems items = .ok () ∧ ending = none
  | .nil, [], _, _, h => ⟨rfl, checkEnding_ok_iff.mp h⟩
  | .nil, _ :: _, _, _, h => nomatch h
  | .cons _ _ _ _ _, [], _, _, h => by
    unfold Fields.decodeItems at h
    obtain ⟨hending, -⟩ := andThen_ok_iff.mp h
    exact ⟨rfl, checkEnding_ok_iff.mp hending⟩
  | .cons _ _ _ s rest, r :: items, _, _, h => by
    unfold Fields.decodeItems at h
    obtain ⟨v, hv, h⟩ := bind_ok_iff.mp h
    obtain ⟨vs, hvs, -⟩ := bind_ok_iff.mp h
    obtain ⟨hitems, hending⟩ := rest.skip_of_decodeItems hvs
    exact ⟨skipItems_cons.mpr ⟨s.skip_of_decode hv, hitems⟩, hending⟩

end

namespace Recorded

variable {α : Type} [Recorded α] {b : Bytes} {v : α}

theorem exists_written_of_ofBytes? (h : ofBytes? b = .ok v) : ∃ w : Written, w.IsText b := by
  obtain ⟨r, hbytes, hread⟩ := ofBytes?_ok h
  obtain ⟨data, hdata, -⟩ := map_ok_iff.mp hread
  rw [Written.isText_iff, hbytes]
  exact ⟨(schema α).skip_of_decode hdata, rfl⟩

/-- What a text holds is what is read of the value it writes. -/
theorem ofBytes?_of_isText {w : Written} (hw : w.IsText b) :
    (ofBytes? b : Except Fault α) = ofReading? w.reading := by
  unfold ofBytes?
  rw [w.ofBytes_eq hw]
  exact bind_pure (ofReading? w.reading)

end Recorded

end GoldenRecord

import GoldenRecord.Proofs.Schema

namespace GoldenRecord

open Json (Reading Fault)

theorem Binary64.isFinite_ofInt {i : Int} (h : Json.IntegerRange i) :
    (Binary64.ofInt i).isFinite = true := by
  have hle : i.natAbs ≤ 2 ^ 64 := by
    unfold Json.IntegerRange at h
    omega
  unfold ofInt ofRatio ofRank
  rw [dif_pos (nearestRank_word_lt hle)]
  rfl

theorem Json.Reading.isFinite_of_toReal {r : Reading} {v : Binary64} (h : r.toReal = .ok v) :
    v.isFinite = true := by
  unfold toReal at h
  split at h
  next n =>
    cases h
    cases n with
    | int i hi => exact Binary64.isFinite_ofInt hi
    | real x => rfl
  next => cases h

theorem Json.Reading.lt_of_toNatural {r : Reading} {n : Nat} (h : r.toNatural = .ok n) :
    n < 18446744073709551616 := by
  unfold toNatural at h
  split at h
  next i hi =>
    split at h
    next =>
      cases h
      unfold Json.IntegerRange at hi
      omega
    next => cases h
  next => cases h

mutual

theorem Schema.isWritable_blank : (s : Schema) → s.IsWritable s.blank
  | .natural => by
    change (0 : Nat) < _
    decide
  | .real => rfl
  | .optional _ => fun _ hw => absurd hw (by simp [Schema.blank])
  | .list _ => fun _ hv => absurd hv List.not_mem_nil
  | .map _ => fun _ he => absurd he List.not_mem_nil
  | .record fields => fields.areWritable_blank
  | .flag | .text | .any => trivial

theorem Fields.areWritable_blank : (fields : Fields) → fields.AreWritable fields.blank
  | .nil => trivial
  | .cons _ _ _ s rest => ⟨s.isWritable_blank, rest.areWritable_blank⟩

end

/-- What the slots hold so far can be written. -/
def Fields.SlotsWritable : (fields : Fields) → fields.Slots → Prop
  | .nil, () => True
  | .cons _ _ _ s rest, (slot, slots) => (∀ v ∈ slot, s.IsWritable v) ∧ rest.SlotsWritable slots

theorem Fields.slotsWritable_empty : (fields : Fields) → fields.SlotsWritable fields.emptySlots
  | .nil => trivial
  | .cons _ _ _ _ rest => ⟨fun _ hv => absurd hv (by simp), rest.slotsWritable_empty⟩

theorem Fields.areWritable_of_complete : (fields : Fields) → {slots : fields.Slots} →
    {vs : fields.Data} → fields.complete slots = .ok vs → fields.SlotsWritable slots →
    fields.AreWritable vs
  | .nil, (), (), _, _ => trivial
  | .cons _ _ _ s rest, (slot, slots), (v, vs), h, hslots => by
    obtain ⟨hv, hvs⟩ := complete_ok h
    refine ⟨?_, rest.areWritable_of_complete hvs hslots.2⟩
    rcases hv with hslot | ⟨-, -, rfl⟩
    · exact hslots.1 v hslot
    · exact s.isWritable_blank

mutual

theorem Schema.isWritable_of_decode : (s : Schema) → {r : Reading} → {v : s.Data} →
    s.decode r = .ok v → s.IsWritable v
  | .flag, _, _, _ | .text, _, _, _ | .any, _, _, _ => trivial
  | .natural, _, _, h => Json.Reading.lt_of_toNatural h
  | .real, _, _, h => Json.Reading.isFinite_of_toReal h
  | .optional s, r, v, h => by
    intro w hw
    cases hw
    unfold Schema.decode at h
    split at h
    next => cases h
    next =>
      obtain ⟨u, hu, h⟩ := map_ok_iff.mp h
      cases h
      exact s.isWritable_of_decode hu
  | .list s, r, vs, h => by
    unfold Schema.decode at h
    split at h
    next items ending =>
      obtain ⟨ws, hws, h⟩ := bind_ok_iff.mp h
      obtain ⟨-, -, h⟩ := bind_ok_iff.mp h
      cases h
      intro v hv
      obtain ⟨item, -, hitem⟩ := mem_of_mapM_ok hws v hv
      exact s.isWritable_of_decode hitem
    next => cases h
  | .map s, r, m, h => by
    unfold Schema.decode at h
    split at h
    next members ending =>
      obtain ⟨ws, hws, h⟩ := bind_ok_iff.mp h
      obtain ⟨-, -, h⟩ := bind_ok_iff.mp h
      cases h
      intro e he
      obtain ⟨member, -, hmember⟩ := mem_of_mapM_ok hws e (TextMap.mem_ofList he)
      obtain ⟨key, -, hvalue⟩ := bind_ok_iff.mp hmember
      obtain ⟨w, hw, hvalue⟩ := bind_ok_iff.mp hvalue
      cases hvalue
      exact s.isWritable_of_decode hw
    next => cases h
  | .record fields, r, vs, h => by
    unfold Schema.decode at h
    split at h
    next members ending =>
      obtain ⟨slots, hslots, h⟩ := bind_ok_iff.mp h
      obtain ⟨-, -, h⟩ := bind_ok_iff.mp h
      have hstored : fields.SlotsWritable slots :=
        Fields.storeAll_preserves (fun m _ {key before next} _ => fields.slotsWritable_of_store)
          hslots fields.slotsWritable_empty
      exact fields.areWritable_of_complete h hstored
    next items ending => exact fields.areWritable_of_decodeItems h
    next => cases h

theorem Fields.slotsWritable_of_store : (fields : Fields) → {key : String} → {r : Reading} →
    {before after : fields.Slots} → fields.store key r before = .ok after →
    fields.SlotsWritable before → fields.SlotsWritable after
  | .nil, _, _, _, _, _, _ => trivial
  | .cons _ _ _ s rest, _, _, (slot, slots), _, h, hbefore => by
    unfold Fields.store at h
    split at h
    next =>
      split at h
      next => cases h
      next =>
        obtain ⟨v, hv, h⟩ := map_ok_iff.mp h
        cases h
        refine ⟨fun w hw => ?_, hbefore.2⟩
        cases hw
        exact s.isWritable_of_decode hv
    next =>
      obtain ⟨later, hlater, h⟩ := map_ok_iff.mp h
      cases h
      exact ⟨hbefore.1, rest.slotsWritable_of_store hlater hbefore.2⟩

theorem Fields.areWritable_of_decodeItems : (fields : Fields) → {items : List Reading} →
    {ending : Option Json.Breakage} → {vs : fields.Data} →
    fields.decodeItems items ending = .ok vs → fields.AreWritable vs
  | .nil, _, _, _, _ => trivial
  | .cons _ _ presence s rest, [], _, _, h => by
    unfold Fields.decodeItems at h
    obtain ⟨-, -, h⟩ := bind_ok_iff.mp h
    split at h
    next =>
      obtain ⟨ws, hws, h⟩ := bind_ok_iff.mp h
      cases h
      exact ⟨s.isWritable_blank, rest.areWritable_of_decodeItems hws⟩
    next => cases h
  | .cons _ _ _ s rest, _ :: _, _, _, h => by
    unfold Fields.decodeItems at h
    obtain ⟨w, hw, h⟩ := bind_ok_iff.mp h
    obtain ⟨ws, hws, h⟩ := bind_ok_iff.mp h
    cases h
    exact ⟨s.isWritable_of_decode hw, rest.areWritable_of_decodeItems hws⟩

end

mutual

/-- The doubles of some data, those in loosely typed values included. -/
def Schema.numbers : (s : Schema) → s.Data → List Binary64
  | .real, v => [v]
  | .any, v => v.json.reals.map .finite
  | .optional s, v => v.toList.flatMap s.numbers
  | .list s, vs => vs.flatMap s.numbers
  | .map s, m => m.entries.flatMap fun e => s.numbers e.2
  | .record fields, vs => fields.numbers vs
  | _, _ => []

def Fields.numbers : (fields : Fields) → fields.Data → List Binary64
  | .nil, _ => []
  | .cons _ _ _ s rest, (v, vs) => s.numbers v ++ rest.numbers vs

end

mutual

def Schema.naturals : (s : Schema) → s.Data → List Nat
  | .natural, n => [n]
  | .optional s, v => v.toList.flatMap s.naturals
  | .list s, vs => vs.flatMap s.naturals
  | .map s, m => m.entries.flatMap fun e => s.naturals e.2
  | .record fields, vs => fields.naturals vs
  | _, _ => []

def Fields.naturals : (fields : Fields) → fields.Data → List Nat
  | .nil, _ => []
  | .cons _ _ _ s rest, (v, vs) => s.naturals v ++ rest.naturals vs

end

mutual

/-- Only numbers can keep data from being written. -/
theorem Schema.isWritable_iff : (s : Schema) → (v : s.Data) → (s.IsWritable v ↔
    (∀ x ∈ s.numbers v, x.isFinite = true) ∧ ∀ n ∈ s.naturals v, n < 18446744073709551616)
  | .flag, _ | .text, _ => by simp [Schema.IsWritable, Schema.numbers, Schema.naturals]
  | .natural, n => by simp [Schema.IsWritable, Schema.numbers, Schema.naturals]
  | .real, v => by simp [Schema.IsWritable, Schema.numbers, Schema.naturals]
  | .any, v => by
    simp only [Schema.IsWritable, Schema.numbers, Schema.naturals, List.mem_map, true_iff]
    refine ⟨?_, by simp⟩
    rintro _ ⟨x, -, rfl⟩
    rfl
  | .optional s, v => by
    simp only [Schema.IsWritable, Schema.numbers, Schema.naturals, List.forall_mem_flatMap,
      Option.mem_toList, Option.mem_def, s.isWritable_iff, imp_and, forall_and]
  | .list s, vs => by
    simp only [Schema.IsWritable, Schema.numbers, Schema.naturals, List.forall_mem_flatMap,
      s.isWritable_iff, imp_and, forall_and]
  | .map s, m => by
    simp only [Schema.IsWritable, Schema.numbers, Schema.naturals, List.forall_mem_flatMap,
      s.isWritable_iff, imp_and, forall_and]
  | .record fields, vs => fields.areWritable_iff vs

theorem Fields.areWritable_iff : (fields : Fields) → (vs : fields.Data) → (fields.AreWritable vs ↔
    (∀ x ∈ fields.numbers vs, x.isFinite = true) ∧
      ∀ n ∈ fields.naturals vs, n < 18446744073709551616)
  | .nil, _ => by simp [Fields.AreWritable, Fields.numbers, Fields.naturals]
  | .cons _ _ _ s rest, (v, vs) => by
    simp only [Fields.AreWritable, Fields.numbers, Fields.naturals, List.forall_mem_append,
      s.isWritable_iff, rest.areWritable_iff]
    exact and_and_and_comm

end

theorem Json.mem_realsItems {items : List Json} {x : Finite} :
    x ∈ realsItems items ↔ ∃ j ∈ items, x ∈ j.reals := by
  induction items with
  | nil => simp [realsItems]
  | cons j rest ih => simp [realsItems, ih]

theorem Json.mem_realsMembers {members : List (String × Json)} {x : Finite} :
    x ∈ realsMembers members ↔ ∃ m ∈ members, x ∈ m.2.reals := by
  induction members with
  | nil => simp [realsMembers]
  | cons m rest ih => simp [realsMembers, ih]

mutual

/-- No other doubles are written than those of the data. -/
theorem Schema.reals_encode : (s : Schema) → {v : s.Data} → s.IsWritable v →
    ∀ x ∈ (s.encode v).reals, .finite x ∈ s.numbers v
  | .flag, _, _, _, hx | .text, _, _, _, hx => absurd hx List.not_mem_nil
  | .natural, n, h, x, hx => by
    simp only [Schema.encode, Json.Number.ofNat, dif_pos (Json.integerRange_of_lt h),
      Json.reals] at hx
    cases hx
  | .real, .finite y, _, x, hx => by
    cases List.mem_singleton.mp hx
    exact List.mem_singleton.mpr rfl
  | .any, v, _, x, hx => List.mem_map.mpr ⟨x, hx, rfl⟩
  | .optional s, some v, h, x, hx =>
    List.mem_flatMap.mpr ⟨v, by simp, s.reals_encode (h v rfl) x hx⟩
  | .list s, vs, h, x, hx => by
    obtain ⟨j, hj, hx⟩ := Json.mem_realsItems.mp hx
    obtain ⟨v, hv, rfl⟩ := List.mem_map.mp hj
    exact List.mem_flatMap.mpr ⟨v, hv, s.reals_encode (h v hv) x hx⟩
  | .map s, m, h, x, hx => by
    obtain ⟨j, hj, hx⟩ := Json.mem_realsMembers.mp hx
    obtain ⟨e, he, rfl⟩ := List.mem_map.mp hj
    exact List.mem_flatMap.mpr ⟨e, he, s.reals_encode (h e he) x hx⟩
  | .record fields, vs, h, x, hx => fields.reals_encode h x hx

theorem Fields.reals_encode : (fields : Fields) → {vs : fields.Data} → fields.AreWritable vs →
    ∀ x ∈ Json.realsMembers (fields.encode vs), .finite x ∈ fields.numbers vs
  | .nil, _, _, _, hx => absurd hx List.not_mem_nil
  | .cons _ _ _ s rest, (v, vs), h, x, hx => by
    unfold Fields.encode at hx
    split at hx
    next => exact List.mem_append_right _ (rest.reals_encode h.2 x hx)
    next =>
      rcases List.mem_append.mp hx with hx | hx
      · exact List.mem_append_left _ (s.reals_encode h.1 x hx)
      · exact List.mem_append_right _ (rest.reals_encode h.2 x hx)

end

namespace Recorded

variable {α : Type} [Recorded α]

def numbers (v : α) : List Binary64 := (schema α).numbers (toData v)

def naturals (v : α) : List Nat := (schema α).naturals (toData v)

/-- Whether a record is written as itself. -/
def IsWritable (v : α) : Prop := (schema α).IsWritable (toData v)

/-- Every number of a record is read to the double nearest to what is written for it. -/
def IsReadNearest (v : α) : Prop := ∀ x ∈ numbers v, x.IsReadNearest

instance (v : α) : Decidable (IsReadNearest v) := inferInstanceAs (Decidable (∀ _ ∈ _, _))

theorem isReadNearest_reals {v : α} (hv : IsWritable v) (h : IsReadNearest v) :
    ∀ x ∈ (toJson v).reals, x.IsReadNearest :=
  fun x hx => h (.finite x) ((schema α).reals_encode hv x hx)

theorem map_ofData_toData (h : ∀ v : α, ofData (toData v) = v) (vs : List α) :
    (vs.map toData).map ofData = vs := by
  rw [List.map_map]
  exact (List.map_congr_left fun v _ => h v).trans (List.map_id vs)

theorem map_toData_ofData (h : ∀ data, toData (ofData data : α) = data) (all : List (schema α).Data) :
    (all.map (ofData : _ → α)).map toData = all := by
  rw [List.map_map]
  exact (List.map_congr_left fun data _ => h data).trans (List.map_id all)

theorem ofBytes?_ok {text : Bytes} {v : α} (h : ofBytes? text = .ok v) :
    ∃ r, Reading.ofBytes text = (r, false) ∧ ofReading? r = .ok v := by
  unfold ofBytes? at h
  generalize Reading.ofBytes text = scanned at h
  obtain ⟨r, trailing⟩ := scanned
  obtain ⟨w, hw, h⟩ := bind_ok_iff.mp h
  cases trailing with
  | true => cases h
  | false =>
    cases h
    exact ⟨r, rfl, hw⟩

theorem ofReading?_toJson (hs : (schema α).isUnambiguous = true) {v : α} (hv : IsWritable v) :
    ofReading? (toJson v).reading = .ok (ofData (toData v) : α) := by
  unfold ofReading? toJson
  rw [(schema α).decode_encode hs _ hv]
  rfl

end Recorded

end GoldenRecord

import GoldenRecord.Proofs.Json.Layout
import GoldenRecord.Proofs.TextMap
import GoldenRecord.Schema

namespace GoldenRecord

namespace Json

open Reading

mutual

theorem toJson_reading : (j : Json) → j.reading.toJson = .ok j
  | .null | .bool _ | .number _ | .string _ => rfl
  | .array items => by
    simp only [reading, Reading.toJson, toItems_readingItems items]
    rfl
  | .object members => by
    simp only [reading, Reading.toJson, toMembers_readingMembers members]
    rfl

theorem toItems_readingItems : (items : List Json) → toItems (readingItems items) = .ok items
  | [] => rfl
  | j :: rest => by
    simp only [readingItems, toItems, toJson_reading j, toItems_readingItems rest]
    rfl

theorem toMembers_readingMembers : (members : List (String × Json)) →
    toMembers (readingMembers members) = .ok members
  | [] => rfl
  | (key, j) :: rest => by
    simp only [readingMembers, toMembers, toJson_reading j, toMembers_readingMembers rest]
    rfl

end

mutual

theorem canonicalize_eq : (j : Json) → j.IsCanonical → j.canonicalize = j
  | .null, _ | .bool _, _ | .number _, _ | .string _, _ => rfl
  | .array items, h => congrArg Json.array (canonicalizeItems_eq items h)
  | .object members, h => by
    rw [canonicalize, canonicalizeMembers_eq members h.2, TextMap.ofList_entries h.1]

theorem canonicalizeItems_eq : (items : List Json) → AreCanonical items →
    canonicalizeItems items = items
  | [], _ => rfl
  | j :: rest, h => by
    rw [canonicalizeItems, canonicalize_eq j h.1, canonicalizeItems_eq rest h.2]

theorem canonicalizeMembers_eq : (members : List (String × Json)) → MembersCanonical members →
    canonicalizeMembers members = members
  | [], _ => rfl
  | (key, j) :: rest, h => by
    rw [canonicalizeMembers, canonicalize_eq j h.1, canonicalizeMembers_eq rest h.2]

end

end Json

theorem Value.ofJson_json (v : Value) : Value.ofJson v.json = v := by
  obtain ⟨j, h⟩ := v
  have heq := j.canonicalize_eq h
  unfold ofJson
  congr

open Json (Reading Fault)

def Fields.names : Fields → List String
  | .nil => []
  | .cons name _ _ _ rest => name :: rest.names

mutual

/-- No field takes what is written for another one, and what is optional is never written as null
when it is there. -/
def Schema.isUnambiguous : Schema → Bool
  | .optional s =>
    match s with
    | .any | .optional _ => false
    | s => s.isUnambiguous
  | .list s | .map s => s.isUnambiguous
  | .record fields => fields.areUnambiguous
  | _ => true

def Fields.areUnambiguous : Fields → Bool
  | .nil => true
  | .cons name otherName _ s rest =>
    s.isUnambiguous && rest.names.all (fun key => key != name && otherName != some key) &&
      rest.areUnambiguous

end

mutual

/-- Data that is written as itself: its numbers are finite, and its natural numbers fit a 64-bit
word. -/
def Schema.IsWritable : (s : Schema) → s.Data → Prop
  | .natural, n => n < 18446744073709551616
  | .real, v => v.isFinite = true
  | .optional s, v => ∀ w ∈ v, s.IsWritable w
  | .list s, vs => ∀ v ∈ vs, s.IsWritable v
  | .map s, m => ∀ e ∈ m.entries, s.IsWritable e.2
  | .record fields, vs => fields.AreWritable vs
  | _, _ => True

def Fields.AreWritable : (fields : Fields) → fields.Data → Prop
  | .nil, _ => True
  | .cons _ _ _ s rest, (v, vs) => s.IsWritable v ∧ rest.AreWritable vs

end

/-- The slots of fields once everything written of them is read. -/
def Fields.written : (fields : Fields) → fields.Data → fields.Slots
  | .nil, () => ()
  | .cons _ _ presence s rest, (v, vs) =>
    (if presence = .elided ∧ s.isEmpty v then none else some v, rest.written vs)

theorem Schema.eq_blank_of_isEmpty {s : Schema} {v : s.Data} (h : s.isEmpty v = true) :
    v = s.blank := by
  cases s with
  | text => exact String.isEmpty_iff.mp h
  | optional s => exact Option.isNone_iff_eq_none.mp h
  | list s => exact List.isEmpty_iff.mp h
  | map s => exact TextMap.ext (List.isEmpty_iff.mp h)
  | flag => cases h
  | natural => cases h
  | real => cases h
  | any => cases h
  | record fields => cases h

theorem Fields.complete_written : (fields : Fields) → (vs : fields.Data) →
    fields.complete (fields.written vs) = .ok vs
  | .nil, () => rfl
  | .cons name otherName presence s rest, (v, vs) => by
    have hrest := rest.complete_written vs
    unfold written
    by_cases hempty : presence = .elided ∧ s.isEmpty v = true
    · obtain ⟨rfl, hv⟩ := hempty
      cases Schema.eq_blank_of_isEmpty hv
      rw [if_pos ⟨rfl, hv⟩]
      simp only [complete, hrest]
      rfl
    · rw [if_neg hempty]
      simp only [complete, hrest]
      rfl

/-- A field has what was read of it, or is blank if it may be left out. -/
theorem Fields.complete_ok {name : String} {otherName : Option String} {presence : Presence}
    {s : Schema} {rest : Fields} {slot : Option s.Data} {slots : rest.Slots} {v : s.Data}
    {vs : rest.Data}
    (h : (Fields.cons name otherName presence s rest).complete (slot, slots) = .ok (v, vs)) :
    (slot = some v ∨ slot = none ∧ presence ≠ .required ∧ v = s.blank) ∧
      rest.complete slots = .ok vs := by
  unfold complete at h
  cases slot with
  | some w =>
    obtain ⟨u, hu, h⟩ := bind_ok_iff.mp h
    cases hu
    obtain ⟨ws, hws, h⟩ := bind_ok_iff.mp h
    cases h
    exact ⟨.inl rfl, hws⟩
  | none =>
    dsimp only at h
    split at h
    next => cases h
    next hpresence =>
      obtain ⟨u, hu, h⟩ := bind_ok_iff.mp h
      cases hu
      obtain ⟨ws, hws, h⟩ := bind_ok_iff.mp h
      cases h
      exact ⟨.inr ⟨rfl, hpresence, rfl⟩, hws⟩

def Fields.storeAll (fields : Fields) (slots : fields.Slots)
    (members : List (Except Fault String × Reading)) : Except Fault fields.Slots :=
  members.foldlM
    (fun slots (key, r) => do
      let key ← key
      fields.store key r slots)
    slots

theorem Fields.storeAll_cons (fields : Fields) (slots : fields.Slots) (key : String) (r : Reading)
    (members : List (Except Fault String × Reading)) :
    fields.storeAll slots ((.ok key, r) :: members) =
      fields.store key r slots >>= (fields.storeAll · members) :=
  rfl

theorem Schema.decode_object (fields : Fields) (members : List (Except Fault String × Reading)) :
    (Schema.record fields).decode (.object members none) =
      fields.storeAll fields.emptySlots members >>= fields.complete :=
  rfl

theorem Fields.store_other {name key : String} {otherName : Option String} {presence : Presence}
    {s : Schema} {rest : Fields} (h : ¬ (key = name ∨ otherName = some key)) (r : Reading)
    (slot : Option s.Data) (slots : rest.Slots) :
    (Fields.cons name otherName presence s rest).store key r (slot, slots) =
      (rest.store key r slots).map fun slots => (slot, slots) :=
  if_neg h

theorem Fields.store_own {name key : String} {otherName : Option String} {presence : Presence}
    {s : Schema} {rest : Fields} (h : key = name ∨ otherName = some key) {r : Reading}
    {slot : Option s.Data} {slots : rest.Slots}
    {after : (Fields.cons name otherName presence s rest).Slots} :
    (Fields.cons name otherName presence s rest).store key r (slot, slots) = .ok after ↔
      slot = none ∧ ∃ v, s.decode r = .ok v ∧ after = (some v, slots) := by
  unfold Fields.store
  rw [if_pos h]
  cases slot with
  | some v => simp
  | none =>
    refine map_ok_iff.trans ?_
    simp only [true_and, eq_comm]

theorem Fields.store_comm : (fields : Fields) → {key₁ key₂ : String} → {r₁ r₂ : Reading} →
    {slots slots₁ slots₂ : fields.Slots} → fields.store key₁ r₁ slots = .ok slots₁ →
    fields.store key₂ r₂ slots₁ = .ok slots₂ →
    ∃ between, fields.store key₂ r₂ slots = .ok between ∧ fields.store key₁ r₁ between = .ok slots₂
  | .nil, _, _, _, _, (), (), (), h₁, h₂ => ⟨(), h₂, h₁⟩
  | .cons name otherName presence s rest, key₁, key₂, r₁, r₂, (slot, slots), slots₁, slots₂, h₁, h₂ => by
    by_cases hown₁ : key₁ = name ∨ otherName = some key₁
    · obtain ⟨rfl, v, hv, rfl⟩ := (store_own hown₁).mp h₁
      by_cases hown₂ : key₂ = name ∨ otherName = some key₂
      · cases ((store_own hown₂).mp h₂).1
      · rw [store_other hown₂] at h₂
        obtain ⟨later, hlater, rfl⟩ := map_ok_iff.mp h₂
        refine ⟨(none, later), ?_, (store_own hown₁).mpr ⟨rfl, v, hv, rfl⟩⟩
        rw [store_other hown₂, hlater]
        rfl
    · rw [store_other hown₁] at h₁
      obtain ⟨later, hlater, rfl⟩ := map_ok_iff.mp h₁
      by_cases hown₂ : key₂ = name ∨ otherName = some key₂
      · obtain ⟨rfl, v, hv, rfl⟩ := (store_own hown₂).mp h₂
        refine ⟨(some v, slots), (store_own hown₂).mpr ⟨rfl, v, hv, rfl⟩, ?_⟩
        rw [store_other hown₁, hlater]
        rfl
      · rw [store_other hown₂] at h₂
        obtain ⟨last, hlast, rfl⟩ := map_ok_iff.mp h₂
        obtain ⟨between, hfirst, hsecond⟩ := rest.store_comm hlater hlast
        refine ⟨(slot, between), ?_, ?_⟩
        · rw [store_other hown₂, hfirst]
          rfl
        · rw [store_other hown₁, hsecond]
          rfl

theorem Fields.storeAll_cons_iff {fields : Fields} {slots after : fields.Slots}
    {m : Except Fault String × Reading} {members : List (Except Fault String × Reading)} :
    fields.storeAll slots (m :: members) = .ok after ↔
      ∃ key next, m.1 = .ok key ∧ fields.store key m.2 slots = .ok next ∧
        fields.storeAll next members = .ok after := by
  obtain ⟨key, r⟩ := m
  cases key with
  | error f => simp [storeAll, bind, Except.bind]
  | ok key => simp [storeAll_cons, bind_ok_iff]

theorem Fields.storeAll_append_iff {fields : Fields} {slots after : fields.Slots}
    {members more : List (Except Fault String × Reading)} :
    fields.storeAll slots (members ++ more) = .ok after ↔
      ∃ between, fields.storeAll slots members = .ok between ∧
        fields.storeAll between more = .ok after := by
  unfold storeAll
  rw [List.foldlM_append]
  exact bind_ok_iff

/-- What the reading of any one member preserves is preserved by the reading of all of them. -/
theorem Fields.storeAll_preserves {fields : Fields} {P : fields.Slots → Prop}
    {members : List (Except Fault String × Reading)} {slots after : fields.Slots}
    (hstore : ∀ m ∈ members, ∀ {key before next}, m.1 = .ok key →
      fields.store key m.2 before = .ok next → P before → P next)
    (h : fields.storeAll slots members = .ok after) (hslots : P slots) : P after := by
  induction members generalizing slots with
  | nil =>
    cases h
    exact hslots
  | cons m members ih =>
    obtain ⟨key, next, hkey, hnext, h⟩ := storeAll_cons_iff.mp h
    have hmember : P next := hstore m List.mem_cons_self hkey hnext hslots
    exact ih (fun m hm => hstore m (List.mem_cons_of_mem _ hm)) h hmember

theorem Fields.exists_store_of_storeAll {fields : Fields}
    {members : List (Except Fault String × Reading)} {slots after : fields.Slots}
    (h : fields.storeAll slots members = .ok after) :
    ∀ m ∈ members, ∃ key before next, fields.store key m.2 before = .ok next := by
  induction members generalizing slots with
  | nil => exact fun m hm => absurd hm List.not_mem_nil
  | cons m members ih =>
    obtain ⟨key, next, -, hnext, h⟩ := storeAll_cons_iff.mp h
    exact List.forall_mem_cons.mpr ⟨⟨key, slots, next, hnext⟩, ih h⟩

/-- The order of the members of an object does not matter. -/
theorem Fields.storeAll_perm {fields : Fields}
    {members members' : List (Except Fault String × Reading)} (h : members.Perm members')
    {slots after : fields.Slots} (hall : fields.storeAll slots members = .ok after) :
    fields.storeAll slots members' = .ok after := by
  induction h generalizing slots with
  | nil => exact hall
  | cons m _ ih =>
    obtain ⟨key, next, hkey, hnext, hall⟩ := storeAll_cons_iff.mp hall
    exact storeAll_cons_iff.mpr ⟨key, next, hkey, hnext, ih hall⟩
  | swap m m' members =>
    obtain ⟨key₁, slots₁, hkey₁, h₁, hall⟩ := storeAll_cons_iff.mp hall
    obtain ⟨key₂, slots₂, hkey₂, h₂, hall⟩ := storeAll_cons_iff.mp hall
    obtain ⟨between, hfirst, hsecond⟩ := fields.store_comm h₁ h₂
    exact storeAll_cons_iff.mpr ⟨key₂, between, hkey₂, hfirst,
      storeAll_cons_iff.mpr ⟨key₁, slots₂, hkey₁, hsecond, hall⟩⟩
  | trans _ _ ih₁ ih₂ => exact ih₂ (ih₁ hall)

/-- A field takes no part in what goes to later ones. -/
theorem Fields.storeAll_skip {name : String} {otherName : Option String} {presence : Presence}
    {s : Schema} {rest : Fields} {members : List (String × Json)}
    (h : ∀ m ∈ members, ¬ (m.1 = name ∨ otherName = some m.1)) (slot : Option s.Data)
    (slots : rest.Slots) :
    (Fields.cons name otherName presence s rest).storeAll (slot, slots)
        (Json.readingMembers members) =
      (rest.storeAll slots (Json.readingMembers members)).map fun slots => (slot, slots) := by
  induction members generalizing slots with
  | nil => rfl
  | cons m members ih =>
    obtain ⟨key, j⟩ := m
    have hkey : ¬ (key = name ∨ otherName = some key) := h (key, j) List.mem_cons_self
    rw [Json.readingMembers, storeAll_cons, storeAll_cons, store_other hkey]
    cases rest.store key j.reading slots with
    | error f => rfl
    | ok slots => exact ih (fun m hm => h m (List.mem_cons_of_mem _ hm)) slots

theorem Fields.encode_keys : (fields : Fields) → (vs : fields.Data) →
    ∀ m ∈ fields.encode vs, m.1 ∈ fields.names
  | .nil, (), m, hm => absurd hm List.not_mem_nil
  | .cons name _ presence s rest, (v, vs), m, hm => by
    have hrest := rest.encode_keys vs m
    unfold encode at hm
    split at hm
    next => exact List.mem_cons_of_mem _ (hrest hm)
    next =>
      rcases List.mem_cons.mp hm with rfl | hm
      · exact List.mem_cons_self
      · exact List.mem_cons_of_mem _ (hrest hm)

theorem Schema.reading_encode_ne_null {s : Schema} (hs : (Schema.optional s).isUnambiguous = true)
    {v : s.Data} (hv : s.IsWritable v) : (s.encode v).reading ≠ .null := by
  cases s with
  | any => cases hs
  | optional s => cases hs
  | real =>
    cases v with
    | finite x => simp [encode, Json.reading]
    | infinite b => cases hv
    | nan => cases hv
  | flag => simp [encode, Json.reading]
  | text => simp [encode, Json.reading]
  | natural => simp [encode, Json.reading]
  | list s => simp [encode, Json.reading]
  | map s => simp [encode, Json.reading]
  | record fields => simp [encode, Json.reading]

theorem Schema.isUnambiguous_of_optional {s : Schema}
    (hs : (Schema.optional s).isUnambiguous = true) : s.isUnambiguous = true := by
  cases s with
  | any => cases hs
  | optional s => cases hs
  | _ => exact hs

theorem Json.integerRange_of_lt {n : Nat} (h : n < 18446744073709551616) : IntegerRange n := by
  unfold IntegerRange
  omega

theorem Json.toNatural_ofNat {n : Nat} (h : n < 18446744073709551616) :
    (Json.number (.ofNat n)).reading.toNatural = .ok n := by
  unfold Json.Number.ofNat
  rw [dif_pos (integerRange_of_lt h)]
  simp [Json.reading, Reading.toNatural]

mutual

/-- Data comes back from what is written of it. -/
theorem Schema.decode_encode : (s : Schema) → s.isUnambiguous = true → (v : s.Data) →
    s.IsWritable v → s.decode (s.encode v).reading = .ok v
  | .flag, _, _, _ => rfl
  | .text, _, _, _ => rfl
  | .natural, _, n, h => Json.toNatural_ofNat h
  | .real, _, .finite _, _ => rfl
  | .any, _, v, _ => by
    simp only [Schema.encode, Schema.decode, Json.toJson_reading, Except.map, Value.ofJson_json]
  | .optional s, hs, none, _ => rfl
  | .optional s, hs, some v, h => by
    have hv : s.IsWritable v := h v rfl
    have hread := s.decode_encode (Schema.isUnambiguous_of_optional hs) v hv
    have hnull := Schema.reading_encode_ne_null hs hv
    simp only [Schema.encode, Schema.decode, hread]
    rfl
  | .list s, hs, vs, h => by
    have hread : ∀ v ∈ vs, s.decode (s.encode v).reading = .ok v :=
      fun v hv => s.decode_encode hs v (h v hv)
    have hall : ((vs.map s.encode).map Json.reading).mapM s.decode = .ok vs := by
      rw [List.map_map]
      exact mapM_map_ok hread
    simp only [Schema.encode, Schema.decode, Json.reading, Json.readingItems_eq_map, hall, Reading.checkEnding]
    rfl
  | .map s, hs, m, h => by
    have hread : ∀ e ∈ m.entries, s.decode (s.encode e.2).reading = .ok e.2 :=
      fun e he => s.decode_encode hs e.2 (h e he)
    have hall : (m.entries.map fun e => ((.ok e.1 : Except Fault String), (s.encode e.2).reading)).mapM
        (fun (key, r) => do
          let key ← key
          let v ← s.decode r
          return (key, v)) = .ok m.entries := by
      refine mapM_map_ok fun e he => ?_
      simp only [bind, Except.bind, hread e he, pure, Except.pure]
    simp only [Schema.encode, Schema.decode, Json.reading, Json.readingMembers_eq_map, TextMap.map,
      List.map_map, Function.comp_def, hall]
    simp only [Reading.checkEnding, bind, Except.bind, pure, Except.pure, TextMap.ofList_self]
  | .record fields, hs, vs, h => by
    have hstored := fields.storeAll_encode hs vs h
    rw [Schema.encode, Json.reading, Schema.decode_object, hstored]
    exact fields.complete_written vs

theorem Fields.storeAll_encode : (fields : Fields) → fields.areUnambiguous = true →
    (vs : fields.Data) → fields.AreWritable vs →
    fields.storeAll fields.emptySlots (Json.readingMembers (fields.encode vs)) =
      .ok (fields.written vs)
  | .nil, _, (), _ => rfl
  | .cons name otherName presence s rest, hs, (v, vs), h => by
    simp only [Fields.areUnambiguous, Bool.and_eq_true, List.all_eq_true, bne_iff_ne] at hs
    obtain ⟨⟨hunambiguous, hnames⟩, hrest⟩ := hs
    have hread := s.decode_encode hunambiguous v h.1
    have hmore := rest.storeAll_encode hrest vs h.2
    -- nothing that is written of a later field goes to this one
    have hother : ∀ m ∈ rest.encode vs, ¬ (m.1 = name ∨ otherName = some m.1) := by
      intro m hm
      obtain ⟨hname, hname'⟩ := hnames m.1 (rest.encode_keys vs m hm)
      rintro (hm | hm)
      · exact hname hm
      · exact hname' hm
    unfold Fields.encode Fields.written
    split
    next hempty =>
      rw [Fields.emptySlots, Fields.storeAll_skip hother, hmore]
      rfl
    next =>
      rw [Json.readingMembers, Fields.storeAll_cons, Fields.emptySlots, Fields.store,
        if_pos (.inl rfl), hread]
      exact (Fields.storeAll_skip hother (some v) rest.emptySlots).trans (by rw [hmore]; rfl)

end

end GoldenRecord

import GoldenRecord.Proofs.Golden

namespace GoldenRecord

open Json (Number)

namespace Json

mutual

/-- Numbers have no part in the order of members. -/
theorem isCanonical_mapNumbers (f : Number → Number) : (j : Json) → j.IsCanonical →
    (j.mapNumbers f).IsCanonical
  | .null, _ | .bool _, _ | .number _, _ | .string _, _ => trivial
  | .array items, h => areCanonical_mapNumbersItems f items h
  | .object members, h => by
    refine ⟨?_, membersCanonical_mapNumbersMembers f members h.2⟩
    rw [mapNumbersMembers_eq_map]
    exact List.pairwise_map.mpr h.1

theorem areCanonical_mapNumbersItems (f : Number → Number) : (items : List Json) →
    AreCanonical items → AreCanonical (mapNumbersItems f items)
  | [], _ => trivial
  | j :: rest, h => ⟨isCanonical_mapNumbers f j h.1, areCanonical_mapNumbersItems f rest h.2⟩

theorem membersCanonical_mapNumbersMembers (f : Number → Number) :
    (members : List (String × Json)) → MembersCanonical members →
    MembersCanonical (mapNumbersMembers f members)
  | [], _ => trivial
  | (_, j) :: rest, h =>
    ⟨isCanonical_mapNumbers f j h.1, membersCanonical_mapNumbersMembers f rest h.2⟩

end

end Json

/-- The double that a double is read to once it is written. -/
def Binary64.reread : Binary64 → Binary64
  | .finite x => .finite x.reread
  | v => v

mutual

/-- Data with each number as it is read back. -/
def Schema.reread : (s : Schema) → s.Data → s.Data
  | .real, v => Binary64.reread v
  | .any, v => Value.ofJson (Value.json v).reread
  | .optional s, v => Option.map s.reread v
  | .list s, vs => List.map s.reread vs
  | .map s, m => TextMap.map s.reread m
  | .record fields, vs => fields.reread vs
  | .flag, v => v
  | .text, v => v
  | .natural, v => v

def Fields.reread : (fields : Fields) → fields.Data → fields.Data
  | .nil, () => ()
  | .cons _ _ _ s rest, (v, vs) => (s.reread v, rest.reread vs)

end

theorem Schema.isEmpty_reread (s : Schema) (v : s.Data) : s.isEmpty (s.reread v) = s.isEmpty v := by
  cases s with
  | optional s => cases v <;> rfl
  | list s => exact List.isEmpty_map
  | map s => exact List.isEmpty_map
  | _ => rfl

mutual

theorem Schema.isWritable_reread : (s : Schema) → {v : s.Data} → s.IsWritable v →
    s.IsWritable (s.reread v)
  | .flag, _, _ | .text, _, _ | .any, _, _ => trivial
  | .natural, _, h => h
  | .real, .finite _, _ => rfl
  | .optional s, some v, h => by
    rintro w ⟨⟩
    exact s.isWritable_reread (h v rfl)
  | .optional s, none, _ => by
    rintro w ⟨⟩
  | .list s, vs, h => List.forall_mem_map.mpr fun v hv => s.isWritable_reread (h v hv)
  | .map s, m, h => List.forall_mem_map.mpr fun e he => s.isWritable_reread (h e he)
  | .record fields, _, h => fields.areWritable_reread h

theorem Fields.areWritable_reread : (fields : Fields) → {vs : fields.Data} → fields.AreWritable vs →
    fields.AreWritable (fields.reread vs)
  | .nil, (), _ => trivial
  | .cons _ _ _ s rest, (_, _), h => ⟨s.isWritable_reread h.1, rest.areWritable_reread h.2⟩

end

mutual

/-- Reading back what is written is the same for data and for its value. -/
theorem Schema.encode_reread : (s : Schema) → {v : s.Data} → s.IsWritable v →
    s.encode (s.reread v) = (s.encode v).reread
  | .flag, _, _ => rfl
  | .text, _, _ => rfl
  | .natural, n, h => by
    unfold Schema.encode Schema.reread Number.ofNat
    rw [dif_pos (Json.integerRange_of_lt h)]
    rfl
  | .real, .finite _, _ => rfl
  | .any, v, _ => Json.canonicalize_eq _ (Json.isCanonical_mapNumbers _ _ v.canonical)
  | .optional s, none, _ => rfl
  | .optional s, some v, h => s.encode_reread (h v rfl)
  | .list s, vs, h => by
    unfold Schema.encode Schema.reread Json.reread
    rw [Json.mapNumbers, Json.mapNumbersItems_eq_map, List.map_map, List.map_map]
    exact congrArg Json.array (List.map_congr_left fun v hv => s.encode_reread (h v hv))
  | .map s, m, h => by
    unfold Schema.encode Schema.reread Json.reread
    rw [Json.mapNumbers, Json.mapNumbersMembers_eq_map]
    simp only [TextMap.map, List.map_map]
    exact congrArg Json.object (List.map_congr_left fun e he =>
      Prod.ext rfl (s.encode_reread (h e he)))
  | .record fields, vs, h => by
    unfold Schema.encode Schema.reread Json.reread
    rw [Json.mapNumbers, fields.encode_reread h]

theorem Fields.encode_reread : (fields : Fields) → {vs : fields.Data} → fields.AreWritable vs →
    fields.encode (fields.reread vs) = Json.mapNumbersMembers Number.reread (fields.encode vs)
  | .nil, (), _ => rfl
  | .cons name _ presence s rest, (v, vs), h => by
    have hv := s.encode_reread h.1
    have hvs := rest.encode_reread h.2
    unfold Fields.encode Fields.reread
    rw [s.isEmpty_reread v]
    split
    next => exact hvs
    next =>
      rw [Json.mapNumbersMembers, ← hvs, hv]
      rfl

end

/-- What is written of data is read as the data with each number as it is read back. -/
theorem Schema.decode_reread {s : Schema} (hs : s.isUnambiguous = true) {v : s.Data}
    (h : s.IsWritable v) : s.decode (s.encode v).reread.reading = .ok (s.reread v) := by
  rw [← s.encode_reread h]
  exact s.decode_encode hs _ (s.isWritable_reread h)

/-- A document whose numbers are finite is loaded from its golden file with each number as it is read
back. -/
theorem Document.ofGoldenBytes?_reread {d : Document} (h : Recorded.IsWritable d) :
    ofGoldenBytes? (d.goldenBytes .full) =
      .ok (Recorded.ofData (Schema.document.reread (Recorded.toData d))) := by
  have htext : Json.Reading.ofBytes (d.goldenBytes .full) =
      ((Recorded.toJson d).reread.reading, false) := Json.ofBytes_pretty (Recorded.toJson d)
  have hread : Recorded.ofReading? (Recorded.toJson d).reread.reading =
      .ok (Recorded.ofData (Schema.document.reread (Recorded.toData d)) : Document) :=
    map_ok_iff.mpr ⟨_, Schema.decode_reread schema_isUnambiguous h, rfl⟩
  unfold ofGoldenBytes? Recorded.ofBytes?
  rw [htext]
  simp only [hread, bind, Except.bind, Bool.false_eq_true, if_false]

end GoldenRecord

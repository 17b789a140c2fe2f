import GoldenRecord.Proofs.Writable

namespace GoldenRecord

open Json (Reading)

namespace Json

theorem depthItems_le_iff {items : List Json} {n : Nat} :
    depthItems items ≤ n ↔ ∀ j ∈ items, j.depth ≤ n := by
  induction items with
  | nil => simp [depthItems]
  | cons j rest ih => simp only [depthItems, Nat.max_le, ih, List.forall_mem_cons]

theorem depthMembers_le_iff {members : List (String × Json)} {n : Nat} :
    depthMembers members ≤ n ↔ ∀ m ∈ members, m.2.depth ≤ n := by
  induction members with
  | nil => simp [depthMembers]
  | cons m rest ih =>
    obtain ⟨key, j⟩ := m
    simp only [depthMembers, Nat.max_le, ih, List.forall_mem_cons]

mutual

theorem depth_mapNumbers (f : Number → Number) : (j : Json) → (j.mapNumbers f).depth = j.depth
  | .null | .bool _ | .number _ | .string _ => rfl
  | .array items => congrArg (· + 1) (depthItems_mapNumbersItems f items)
  | .object members => congrArg (· + 1) (depthMembers_mapNumbersMembers f members)

theorem depthItems_mapNumbersItems (f : Number → Number) : (items : List Json) →
    depthItems (mapNumbersItems f items) = depthItems items
  | [] => rfl
  | j :: rest => by
    have hj := depth_mapNumbers f j
    have hrest := depthItems_mapNumbersItems f rest
    rw [mapNumbersItems, depthItems, depthItems, hj, hrest]

theorem depthMembers_mapNumbersMembers (f : Number → Number) :
    (members : List (String × Json)) →
    depthMembers (mapNumbersMembers f members) = depthMembers members
  | [] => rfl
  | (key, j) :: rest => by
    have hj := depth_mapNumbers f j
    have hrest := depthMembers_mapNumbersMembers f rest
    rw [mapNumbersMembers, depthMembers, depthMembers, hj, hrest]

end

/-- The value a text holds is the value of the text, if it is not nested too deeply. -/
theorem ofBytes?_of_reading {text : Bytes} {j : Json}
    (hread : Reading.ofBytes text = (j.reading, false)) (hdepth : j.depth ≤ depthLimit) :
    ofBytes? text = .ok j := by
  have hlimit : ¬ (false = true ∨ depthLimit < j.depth) := by simpa using hdepth
  unfold ofBytes?
  rw [hread]
  simp only [toJson_reading, bind, Except.bind]
  exact if_neg hlimit

/-- Indented JSON that is not nested too deeply is read as a whole. -/
theorem ofBytes?_pretty {j : Json} (hdepth : j.depth ≤ depthLimit) :
    ofBytes? (.ofText j.pretty) = .ok j.reread := by
  have hreread : j.reread.depth = j.depth := depth_mapNumbers Number.reread j
  exact ofBytes?_of_reading j.ofBytes_pretty (hreread ▸ hdepth)

end Json

mutual

/-- Levels of containers that are written for a schema, those of loosely typed values left out. -/
def Schema.levels : Schema → Nat
  | .optional s => s.levels
  | .list s | .map s => s.levels + 1
  | .record fields => fields.levels + 1
  | _ => 0

def Fields.levels : Fields → Nat
  | .nil => 0
  | .cons _ _ _ s rest => max s.levels rest.levels

end

mutual

/-- No part of the data is loosely typed. -/
def Schema.isTyped : Schema → Bool
  | .any => false
  | .optional s | .list s | .map s => s.isTyped
  | .record fields => fields.areTyped
  | _ => true

def Fields.areTyped : Fields → Bool
  | .nil => true
  | .cons _ _ _ s rest => s.isTyped && rest.areTyped

end

mutual

theorem Schema.depth_encode : (s : Schema) → s.isTyped = true → (v : s.Data) →
    (s.encode v).depth ≤ s.levels
  | .flag, _, _ | .text, _, _ | .natural, _, _ => Nat.le_refl 0
  | .real, _, .finite _ | .real, _, .infinite _ | .real, _, .nan => Nat.le_refl 0
  | .optional s, _, none => Nat.zero_le _
  | .optional s, hs, some v => s.depth_encode hs v
  | .list s, hs, vs => by
    have hitems : Json.depthItems (vs.map s.encode) ≤ s.levels := by
      refine Json.depthItems_le_iff.mpr fun j hj => ?_
      obtain ⟨v, -, rfl⟩ := List.mem_map.mp hj
      exact s.depth_encode hs v
    exact Nat.succ_le_succ hitems
  | .map s, hs, m => by
    have hmembers : Json.depthMembers (m.map s.encode).entries ≤ s.levels := by
      refine Json.depthMembers_le_iff.mpr fun e he => ?_
      obtain ⟨v, -, rfl⟩ := List.mem_map.mp he
      exact s.depth_encode hs v.2
    exact Nat.succ_le_succ hmembers
  | .record fields, hs, vs => Nat.succ_le_succ (fields.depth_encode hs vs)

theorem Fields.depth_encode : (fields : Fields) → fields.areTyped = true → (vs : fields.Data) →
    Json.depthMembers (fields.encode vs) ≤ fields.levels
  | .nil, _, () => Nat.le_refl 0
  | .cons _ _ presence s rest, hs, (v, vs) => by
    obtain ⟨hfirst, hlater⟩ := (Bool.and_eq_true _ _).mp hs
    have hv := s.depth_encode hfirst v
    have hvs := rest.depth_encode hlater vs
    unfold Fields.encode Fields.levels
    split
    next => exact Nat.le_trans hvs (Nat.le_max_right _ _)
    next => exact Nat.max_le.mpr ⟨Nat.le_trans hv (Nat.le_max_left _ _),
        Nat.le_trans hvs (Nat.le_max_right _ _)⟩

end

/-- What is written for a typed schema of few levels is read as one value. -/
theorem Schema.ofBytes?_encode {s : Schema} (hs : s.isTyped = true)
    (hlevels : s.levels ≤ Json.depthLimit) (v : s.Data) :
    Json.ofBytes? (.ofText (s.encode v).pretty) = .ok (s.encode v).reread :=
  Json.ofBytes?_pretty (Nat.le_trans (s.depth_encode hs v) hlevels)

end GoldenRecord

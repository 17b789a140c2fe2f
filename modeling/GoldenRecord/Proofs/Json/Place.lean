import GoldenRecord.Proofs.Json.Reread
import GoldenRecord.Proofs.Json.Written
import GoldenRecord.Proofs.Lint.Spots

namespace GoldenRecord

namespace Json

namespace Written

/-- Two written values that have different parts at one place and are alike elsewhere. -/
inductive Differ (part part' : Written) : List Step → Written → Written → Prop
  | here : Differ part part' [] part part'
  | item {before after : List Written} {path : List Step} {w w' : Written}
      (h : Differ part part' path w w') :
      Differ part part' (.index before.length :: path) (.array (before ++ w :: after))
        (.array (before ++ w' :: after))
  | member {before after : List (StringToken × Written)} {key : StringToken} {name : String}
      {path : List Step} {w w' : Written} (hkey : key.text = .ok name)
      (h : Differ part part' path w w') :
      Differ part part' (.key name :: path) (.object (before ++ (key, w) :: after))
        (.object (before ++ (key, w') :: after))

/-- The value at a place becomes null. -/
def Nulls (path : List Step) (w w' : Written) : Prop := ∃ part, Differ part .null path w w'

/-- The member at a place is left out of its object. -/
inductive Removes : List Step → Written → Written → Prop
  | member {before after : List (StringToken × Written)} {key : StringToken} {name : String}
      {value w w' : Written} {path : List Step} (hkey : key.text = .ok name)
      (h : Differ (.object (before ++ (key, value) :: after)) (.object (before ++ after)) path w w') :
      Removes (path ++ [.key name]) w w'

end Written

def at? : List Step → Json → Option Json
  | [], j => some j
  | .index i :: path, .array items => items[i]?.bind (at? path)
  | .key name :: path, .object members =>
    (members.find? fun m : String × Json => m.1 = name).bind fun m => at? path m.2
  | _, _ => none

theorem at?_append (path more : List Step) (j : Json) :
    at? (path ++ more) j = (at? path j).bind (at? more) := by
  induction path generalizing j with
  | nil => rfl
  | cons step path ih =>
    cases step <;> cases j <;> try rfl
    case index.array i items =>
      rw [List.cons_append, at?, at?, Option.bind_assoc]
      exact congrArg _ (funext ih)
    case key.object name members =>
      rw [List.cons_append, at?, at?, Option.bind_assoc]
      exact congrArg _ (funext fun m => ih m.2)

theorem at?_mapNumbers (f : Number → Number) (path : List Step) (j : Json) :
    at? path (j.mapNumbers f) = (at? path j).map (mapNumbers f) := by
  induction path generalizing j with
  | nil => rfl
  | cons step path ih =>
    cases step with
    | index i =>
      cases j with
      | array items =>
        rw [mapNumbers, mapNumbersItems_eq_map, at?, at?, List.getElem?_map]
        cases items[i]? with
        | none => rfl
        | some j => exact ih j
      | _ => rfl
    | key name =>
      cases j with
      | object members =>
        rw [mapNumbers, mapNumbersMembers_eq_map, at?, at?, List.find?_map]
        have hname : ((fun m : String × Json => decide (m.1 = name)) ∘
            fun m : String × Json => (m.1, m.2.mapNumbers f)) = fun m => decide (m.1 = name) := rfl
        rw [hname]
        cases members.find? fun m : String × Json => decide (m.1 = name) with
        | none => rfl
        | some m => exact ih m.2
      | _ => rfl

namespace Written

theorem reading_eq_array {w : Written} {items : List Json}
    (h : w.reading = (Json.array items).reading) :
    ∃ ws, w = .array ws ∧ ws.map reading = items.map Json.reading := by
  rw [Json.reading, Json.readingItems_eq_map] at h
  cases w with
  | array ws =>
    rw [reading, readingItems_eq_map] at h
    exact ⟨ws, rfl, (Reading.array.inj h).1⟩
  | _ => cases h

theorem reading_eq_object {w : Written} {members : List (String × Json)}
    (h : w.reading = (Json.object members).reading) :
    ∃ ws, w = .object ws ∧ ws.map (fun m => (m.1.text, m.2.reading)) =
      members.map fun m => (.ok m.1, m.2.reading) := by
  rw [Json.reading, Json.readingMembers_eq_map] at h
  cases w with
  | object ws =>
    rw [reading, readingMembers_eq_map] at h
    exact ⟨ws, rfl, (Reading.object.inj h).1⟩
  | _ => cases h

theorem exists_item {ws : List Written} {items : List Json} {i : Nat} {item : Json}
    (hws : ws.map reading = items.map Json.reading) (hitem : items[i]? = some item) :
    ∃ before value after, ws = before ++ value :: after ∧ before.length = i ∧
      value.reading = item.reading := by
  have hreading : (ws.map reading)[i]? = some item.reading := by
    rw [hws, List.getElem?_map, hitem]
    rfl
  rw [List.getElem?_map] at hreading
  obtain ⟨value, hvalue, hread⟩ := Option.map_eq_some_iff.mp hreading
  obtain ⟨hi, rfl⟩ := List.getElem?_eq_some_iff.mp hvalue
  refine ⟨ws.take i, ws[i], ws.drop (i + 1), ?_, List.length_take_of_le (Nat.le_of_lt hi), hread⟩
  rw [← List.drop_eq_getElem_cons hi, List.take_append_drop]

theorem exists_member {ws : List (StringToken × Written)} {members : List (String × Json)}
    {name : String} {m : String × Json}
    (hws : ws.map (fun v => (v.1.text, v.2.reading)) = members.map fun m => (.ok m.1, m.2.reading))
    (hm : members.find? (fun m : String × Json => m.1 = name) = some m) :
    ∃ before key value after, ws = before ++ (key, value) :: after ∧ key.text = .ok name ∧
      value.reading = m.2.reading := by
  obtain ⟨hname, before, after, rfl, -⟩ := List.find?_eq_some_iff_append.mp hm
  rw [List.map_append, List.map_cons] at hws
  obtain ⟨first, rest, rfl, -, hrest⟩ := List.map_eq_append_iff.mp hws
  obtain ⟨⟨key, value⟩, last, rfl, hmember, -⟩ := List.map_eq_cons_iff.mp hrest
  obtain ⟨hkey, hvalue⟩ := Prod.mk.inj hmember
  obtain rfl : m.1 = name := by simpa using hname
  exact ⟨first, key, value, last, rfl, hkey, hvalue⟩

/-- What stands at a place can be exchanged there for anything. -/
theorem exists_differ {w : Written} {j k : Json} {path : List Step} (h : w.reading = j.reading)
    (hk : at? path j = some k) :
    ∃ part, part.reading = k.reading ∧ ∀ part', ∃ w', Differ part part' path w w' := by
  induction path generalizing w j with
  | nil =>
    cases hk
    exact ⟨w, h, fun part' => ⟨part', .here⟩⟩
  | cons step path ih =>
    cases step with
    | index i =>
      cases j with
      | array items =>
        obtain ⟨item, hitem, hvalueAt⟩ := Option.bind_eq_some_iff.mp hk
        obtain ⟨ws, rfl, hws⟩ := reading_eq_array h
        obtain ⟨before, value, after, rfl, rfl, hvalue⟩ := exists_item hws hitem
        obtain ⟨part, hpart, hdiffer⟩ := ih hvalue hvalueAt
        refine ⟨part, hpart, fun part' => ?_⟩
        obtain ⟨v', hv'⟩ := hdiffer part'
        exact ⟨_, .item hv'⟩
      | _ => cases hk
    | key name =>
      cases j with
      | object members =>
        obtain ⟨m, hm, hvalueAt⟩ := Option.bind_eq_some_iff.mp hk
        obtain ⟨ws, rfl, hws⟩ := reading_eq_object h
        obtain ⟨before, key, value, after, rfl, hkey, hvalue⟩ := exists_member hws hm
        obtain ⟨part, hpart, hdiffer⟩ := ih hvalue hvalueAt
        refine ⟨part, hpart, fun part' => ?_⟩
        obtain ⟨v', hv'⟩ := hdiffer part'
        exact ⟨_, .member hkey hv'⟩
      | _ => cases hk

theorem exists_nulls {w : Written} {j : Json} {path : List Step} (h : w.reading = j.reading)
    (hpath : (at? path j).isSome) : ∃ w', w.Nulls path w' := by
  obtain ⟨k, hk⟩ := Option.isSome_iff_exists.mp hpath
  obtain ⟨part, -, hdiffer⟩ := exists_differ h hk
  obtain ⟨w', hw'⟩ := hdiffer .null
  exact ⟨w', part, hw'⟩

theorem exists_removes {w : Written} {j : Json} {path : List Step} {name : String}
    (h : w.reading = j.reading) (hpath : (at? (path ++ [.key name]) j).isSome) :
    ∃ w', w.Removes (path ++ [.key name]) w' := by
  obtain ⟨value, hvalue⟩ := Option.isSome_iff_exists.mp hpath
  rw [at?_append] at hvalue
  obtain ⟨k, hk, hvalue⟩ := Option.bind_eq_some_iff.mp hvalue
  obtain ⟨part, hpart, hdiffer⟩ := exists_differ h hk
  cases k with
  | object members =>
    obtain ⟨m, hm, -⟩ := Option.bind_eq_some_iff.mp hvalue
    obtain ⟨ws, rfl, hws⟩ := reading_eq_object hpart
    obtain ⟨before, key, value, after, rfl, hkey, -⟩ := exists_member hws hm
    obtain ⟨w', hw'⟩ := hdiffer (.object (before ++ after))
    exact ⟨w', .member hkey hw'⟩
  | _ => cases hvalue

end Written

end Json

end GoldenRecord

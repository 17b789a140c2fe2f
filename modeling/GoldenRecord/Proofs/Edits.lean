import GoldenRecord.Proofs.Accepted
import GoldenRecord.Proofs.Golden
import Mathlib.Logic.Relation

namespace GoldenRecord

open Json (Fault Reading Breakage Written StringToken)
open Json.Reading

namespace Fields

/-- The field that takes a name: its place, whether it may be left out, and its shape. -/
def find? (key : String) : Fields → Option (Nat × Presence × Schema)
  | .nil => none
  | .cons name otherName presence s rest =>
    if key = name ∨ otherName = some key then some (0, presence, s)
    else (rest.find? key).map fun found => (found.1 + 1, found.2)

def IsMissing (fields : Fields) (place : Nat) (members : List (StringToken × Written)) : Prop :=
  ∀ m ∈ members, ∀ name found, m.1.text = .ok name → fields.find? name = some found →
    found.1 ≠ place

end Fields

/-- An edit at one place of a value that is read by some schema. -/
inductive Schema.Edit : Schema → Written → Written → Prop
  /-- Inside an item of a list. -/
  | item {s : Schema} {before after : List Written} {w w' : Written} (h : Edit s w w') :
      Edit (.list s) (.array (before ++ w :: after)) (.array (before ++ w' :: after))
  /-- Inside a member of a record. -/
  | member {fields : Fields} {before after : List (StringToken × Written)} {key : StringToken}
      {name : String} {place : Nat} {presence : Presence} {s : Schema} {w w' : Written}
      (hkey : key.text = .ok name) (hfound : fields.find? name = some (place, presence, s))
      (h : Edit s w w') :
      Edit (.record fields) (.object (before ++ (key, w) :: after))
        (.object (before ++ (key, w') :: after))
  /-- The members of a record in another order. -/
  | permute {fields : Fields} {members members' : List (StringToken × Written)}
      (h : members.Perm members') : Edit (.record fields) (.object members) (.object members')
  /-- A member of a name that no field takes, with any value. Keys that stand for no text are no
  names. -/
  | insert {fields : Fields} {before after : List (StringToken × Written)} {key : StringToken}
      {name : String} {w : Written} (hkey : key.text = .ok name)
      (hunknown : fields.find? name = none) :
      Edit (.record fields) (.object (before ++ after)) (.object (before ++ (key, w) :: after))
  /-- An optional field that is missing, written as null. -/
  | addNull {fields : Fields} {before after : List (StringToken × Written)} {key : StringToken}
      {name : String} {place : Nat} {presence : Presence} {s : Schema}
      (hkey : key.text = .ok name)
      (hfound : fields.find? name = some (place, presence, .optional s))
      (hpresence : presence ≠ .required) (hmissing : fields.IsMissing place (before ++ after)) :
      Edit (.record fields) (.object (before ++ after)) (.object (before ++ (key, .null) :: after))
  /-- An optional field that is null, left out. -/
  | dropNull {fields : Fields} {before after : List (StringToken × Written)} {key : StringToken}
      {name : String} {place : Nat} {presence : Presence} {s : Schema}
      (hkey : key.text = .ok name)
      (hfound : fields.find? name = some (place, presence, .optional s))
      (hpresence : presence ≠ .required) :
      Edit (.record fields) (.object (before ++ (key, .null) :: after)) (.object (before ++ after))
  /-- A member under another name that is taken like its own. -/
  | rename {fields : Fields} {before after : List (StringToken × Written)} {key key' : StringToken}
      {name name' : String} {w : Written} (hkey : key.text = .ok name)
      (hkey' : key'.text = .ok name') (hsame : fields.find? name' = fields.find? name) :
      Edit (.record fields) (.object (before ++ (key, w) :: after))
        (.object (before ++ (key', w) :: after))

namespace Fields

theorem find?_own {key name : String} {otherName : Option String} {presence : Presence}
    {s : Schema} {rest : Fields} (h : key = name ∨ otherName = some key) :
    (Fields.cons name otherName presence s rest).find? key = some (0, presence, s) :=
  if_pos h

theorem find?_other {key name : String} {otherName : Option String} {presence : Presence}
    {s : Schema} {rest : Fields} (h : ¬ (key = name ∨ otherName = some key)) :
    (Fields.cons name otherName presence s rest).find? key =
      (rest.find? key).map fun found => (found.1 + 1, found.2) :=
  if_neg h

theorem store_rename : (fields : Fields) → {key key' : String} →
    fields.find? key' = fields.find? key → ∀ r slots,
    fields.store key' r slots = fields.store key r slots
  | .nil, _, _, _, _, () => rfl
  | .cons name otherName presence s rest, key, key', h, r, (slot, slots) => by
    by_cases hown : key = name ∨ otherName = some key
    · by_cases hown' : key' = name ∨ otherName = some key'
      · unfold store
        rw [if_pos hown, if_pos hown']
      · rw [find?_own hown, find?_other hown'] at h
        obtain ⟨found, -, heq⟩ := Option.map_eq_some_iff.mp h
        cases heq
    · by_cases hown' : key' = name ∨ otherName = some key'
      · rw [find?_own hown', find?_other hown] at h
        obtain ⟨found, -, heq⟩ := Option.map_eq_some_iff.mp h.symm
        cases heq
      · rw [find?_other hown, find?_other hown'] at h
        have hrest : rest.find? key' = rest.find? key :=
          Option.map_injective (fun a b hab => by simpa [Prod.ext_iff] using hab) h
        rw [store_other hown, store_other hown', rest.store_rename hrest]

theorem store_unknown : (fields : Fields) → {key : String} → fields.find? key = none →
    ∀ {r : Reading}, r.skip = .ok () → ∀ slots, fields.store key r slots = .ok slots
  | .nil, _, _, _, hr, () => hr
  | .cons name otherName presence s rest, key, h, r, hr, (slot, slots) => by
    by_cases hown : key = name ∨ otherName = some key
    · rw [find?_own hown] at h
      cases h
    · rw [find?_other hown, Option.map_eq_none_iff] at h
      rw [store_other hown, rest.store_unknown h hr]
      rfl

/-- Every field that may not be left out was read. -/
def AreFilled : (fields : Fields) → fields.Slots → Prop
  | .nil, _ => True
  | .cons _ _ presence _ rest, (slot, slots) =>
    (presence = .required → slot ≠ none) ∧ rest.AreFilled slots

/-- A member of a known name is refused because its field was read before, or its value is put to the
other ones, and its field is the only one that was missing without it. -/
theorem store_found : (fields : Fields) → {key : String} → {found : Nat × Presence × Schema} →
    fields.find? key = some found → (slots : fields.Slots) →
    (∀ r, fields.store key r slots = .error .mismatch) ∨
      ∃ (put : found.2.2.Data → fields.Slots) (others : Prop),
        (∀ r, fields.store key r slots = (found.2.2.decode r).map put) ∧
        (∀ v, fields.AreFilled (put v) ↔ others) ∧
        (fields.AreFilled slots ↔ found.2.1 ≠ .required ∧ others)
  | .nil, _, _, hfound, _ => nomatch hfound
  | .cons name otherName presence s rest, key, found, hfound, (slot, slots) => by
    by_cases hown : key = name ∨ otherName = some key
    · rw [find?_own hown] at hfound
      cases hfound
      cases slot with
      | some v =>
        refine .inl fun r => ?_
        unfold store
        rw [if_pos hown]
      | none =>
        refine .inr ⟨fun v => (some v, slots), rest.AreFilled slots, fun r => ?_, ?_, ?_⟩
        · unfold store
          rw [if_pos hown]
        · simp [AreFilled]
        · simp [AreFilled]
    · rw [find?_other hown] at hfound
      obtain ⟨later, hlater, rfl⟩ := Option.map_eq_some_iff.mp hfound
      rcases rest.store_found hlater slots with hoccupied | ⟨put, others, hput, hfilled, hfree⟩
      · refine .inl fun r => ?_
        rw [store_other hown, hoccupied r]
        rfl
      · refine .inr ⟨fun v => (slot, put v), (presence = .required → slot ≠ none) ∧ others,
          fun r => ?_, fun v => and_congr_right fun _ => hfilled v, ?_⟩
        · rw [store_other hown, hput r]
          cases later.2.2.decode r <;> rfl
        · exact (and_congr_right fun _ => hfree).trans and_left_comm

theorem store_congr {fields : Fields} {key : String} {found : Nat × Presence × Schema}
    (hfound : fields.find? key = some found) {r r' : Reading}
    (hread : ∀ v, found.2.2.decode r = .ok v → found.2.2.decode r' = .ok v)
    {slots after : fields.Slots} (h : fields.store key r slots = .ok after) :
    fields.store key r' slots = .ok after := by
  rcases fields.store_found hfound slots with hoccupied | ⟨put, others, hput, -, -⟩
  · cases (hoccupied r).symm.trans h
  · rw [hput] at h ⊢
    obtain ⟨v, hv, rfl⟩ := map_ok_iff.mp h
    exact map_ok_iff.mpr ⟨v, hread v hv, rfl⟩

def IsFree : (fields : Fields) → Nat → fields.Slots → Prop
  | .nil, _, _ => True
  | .cons _ _ _ _ _, 0, (slot, _) => slot = none
  | .cons _ _ _ _ rest, place + 1, (_, slots) => rest.IsFree place slots

theorem isFree_empty : (fields : Fields) → (place : Nat) → fields.IsFree place fields.emptySlots
  | .nil, _ => trivial
  | .cons _ _ _ _ _, 0 => rfl
  | .cons _ _ _ _ rest, place + 1 => rest.isFree_empty place

theorem isFree_store : (fields : Fields) → {key : String} → {place : Nat} →
    (∀ found, fields.find? key = some found → found.1 ≠ place) → ∀ {r : Reading}
    {slots after : fields.Slots}, fields.store key r slots = .ok after →
    fields.IsFree place slots → fields.IsFree place after
  | .nil, _, _, _, _, _, _, _, _ => trivial
  | .cons name otherName presence s rest, key, place, hplace, r, (slot, slots), after, h, hfree => by
    by_cases hown : key = name ∨ otherName = some key
    · obtain ⟨-, v, -, rfl⟩ := (store_own hown).mp h
      cases place with
      | zero => exact absurd rfl (hplace _ (find?_own hown))
      | succ place => exact hfree
    · rw [store_other hown] at h
      obtain ⟨last, hlast, rfl⟩ := map_ok_iff.mp h
      cases place with
      | zero => exact hfree
      | succ place =>
        refine rest.isFree_store (fun found hfound hsame => ?_) hlast hfree
        refine hplace (found.1 + 1, found.2) ?_ (congrArg (· + 1) hsame)
        rw [find?_other hown, hfound]
        rfl

theorem store_null : (fields : Fields) → {key : String} → {place : Nat} → {presence : Presence} →
    {s : Schema} → fields.find? key = some (place, presence, .optional s) →
    ∀ {slots : fields.Slots}, fields.IsFree place slots →
    ∃ after, fields.store key .null slots = .ok after
  | .nil, _, _, _, _, hfound, _, _ => nomatch hfound
  | .cons name otherName _ t rest, key, place, presence, s, hfound, (slot, slots), hfree => by
    by_cases hown : key = name ∨ otherName = some key
    · rw [find?_own hown] at hfound
      cases hfound
      cases (show slot = none from hfree)
      exact ⟨_, (store_own hown).mpr ⟨rfl, none, rfl, rfl⟩⟩
    · rw [find?_other hown] at hfound
      obtain ⟨⟨later, presence, t⟩, hlater, heq⟩ := Option.map_eq_some_iff.mp hfound
      cases heq
      obtain ⟨last, hlast⟩ := rest.store_null hlater (show rest.IsFree later slots from hfree)
      exact ⟨(slot, last), by rw [store_other hown, hlast]; rfl⟩

theorem complete_null : (fields : Fields) → {key : String} → {place : Nat} →
    {presence : Presence} → {s : Schema} → presence ≠ .required →
    fields.find? key = some (place, presence, .optional s) → ∀ {slots after : fields.Slots},
    fields.store key .null slots = .ok after → fields.complete after = fields.complete slots
  | .nil, _, _, _, _, _, hfound, _, _, _ => nomatch hfound
  | .cons name otherName _ t rest, key, place, presence, s, hpresence, hfound, (slot, slots), after,
      h => by
    by_cases hown : key = name ∨ otherName = some key
    · rw [find?_own hown] at hfound
      cases hfound
      obtain ⟨rfl, v, hv, rfl⟩ := (store_own hown).mp h
      cases hv
      simp only [complete, if_neg hpresence]
      rfl
    · rw [find?_other hown] at hfound
      obtain ⟨⟨later, presence, t⟩, hlater, heq⟩ := Option.map_eq_some_iff.mp hfound
      cases heq
      rw [store_other hown] at h
      obtain ⟨last, hlast, rfl⟩ := map_ok_iff.mp h
      have hrest := rest.complete_null hpresence hlater hlast
      simp only [complete, hrest]

variable {fields : Fields} {slots last : fields.Slots}
  {before after : List (Except Fault String × Reading)}

theorem isFree_storeAll {place : Nat} {members : List (Except Fault String × Reading)}
    (hplace : ∀ m ∈ members, ∀ name found, m.1 = .ok name → fields.find? name = some found →
      found.1 ≠ place) (h : fields.storeAll slots members = .ok last)
    (hfree : fields.IsFree place slots) : fields.IsFree place last :=
  storeAll_preserves (fun m hm {key _ _} hkey =>
    fields.isFree_store fun found => hplace m hm key found hkey) h hfree

/-- A member that is stored like another one can stand in its place. -/
theorem storeAll_replace {key key' : String} {r r' : Reading}
    (hmember : ∀ {slots next}, fields.store key r slots = .ok next →
      fields.store key' r' slots = .ok next)
    (h : fields.storeAll slots (before ++ (.ok key, r) :: after) = .ok last) :
    fields.storeAll slots (before ++ (.ok key', r') :: after) = .ok last := by
  obtain ⟨between, hbefore, h⟩ := storeAll_append_iff.mp h
  obtain ⟨_, next, hkey, hnext, hafter⟩ := storeAll_cons_iff.mp h
  cases hkey
  exact storeAll_append_iff.mpr ⟨between, hbefore,
    storeAll_cons_iff.mpr ⟨key', next, rfl, hmember hnext, hafter⟩⟩

theorem storeAll_insert {key : String} {r : Reading}
    (hmember : ∀ slots, fields.store key r slots = .ok slots)
    (h : fields.storeAll slots (before ++ after) = .ok last) :
    fields.storeAll slots (before ++ (.ok key, r) :: after) = .ok last := by
  obtain ⟨between, hbefore, hafter⟩ := storeAll_append_iff.mp h
  exact storeAll_append_iff.mpr ⟨between, hbefore,
    storeAll_cons_iff.mpr ⟨key, between, rfl, hmember between, hafter⟩⟩

theorem storeAll_middle_iff {key : String} {r : Reading} :
    fields.storeAll slots (before ++ (.ok key, r) :: after) = .ok last ↔
      ∃ between, fields.storeAll slots (before ++ after) = .ok between ∧
        fields.store key r between = .ok last := by
  have hperm : (before ++ (.ok key, r) :: after).Perm (before ++ after ++ [(.ok key, r)]) :=
    List.perm_middle.trans (List.perm_append_singleton _ _).symm
  have hlast : fields.storeAll slots (before ++ after ++ [(.ok key, r)]) = .ok last ↔
      ∃ between, fields.storeAll slots (before ++ after) = .ok between ∧
        fields.store key r between = .ok last := by
    rw [storeAll_append_iff]
    refine exists_congr fun between => and_congr_right fun _ => ?_
    rw [storeAll_cons]
    exact bind_ok_iff.trans ⟨fun ⟨next, hnext, heq⟩ => by cases heq; exact hnext,
      fun h => ⟨last, h, rfl⟩⟩
  exact ⟨fun h => hlast.mp (storeAll_perm hperm h), fun h => storeAll_perm hperm.symm (hlast.mpr h)⟩

end Fields

namespace Schema

theorem decode_written_array {s : Schema} {items : List Written} {vs : List s.Data} :
    (Schema.list s).decode (Written.array items).reading = .ok vs ↔
      (items.map Written.reading).mapM s.decode = .ok vs := by
  rw [Written.reading, Written.readingItems_eq_map, decode]
  refine bind_ok_iff.trans ⟨fun ⟨ws, hws, h⟩ => ?_, fun h => ⟨vs, h, rfl⟩⟩
  cases h
  exact hws

theorem decode_written_object {fields : Fields} {members : List (StringToken × Written)}
    {vs : fields.Data} :
    (Schema.record fields).decode (Written.object members).reading = .ok vs ↔
      ∃ slots, fields.storeAll fields.emptySlots (members.map fun m => (m.1.text, m.2.reading)) =
          .ok slots ∧ fields.complete slots = .ok vs := by
  rw [Written.reading, Written.readingMembers_eq_map, decode_object]
  exact bind_ok_iff

/-- No edit changes what is read, if anything is. -/
theorem Edit.decode {s : Schema} {w w' : Written} (h : s.Edit w w') {v : s.Data}
    (hread : s.decode w.reading = .ok v) : s.decode w'.reading = .ok v := by
  induction h with
  | item h ih =>
    rw [decode_written_array, List.map_append, List.map_cons, mapM_middle_iff] at hread ⊢
    obtain ⟨firsts, v, lasts, hfirsts, hv, hlasts, rfl⟩ := hread
    exact ⟨firsts, v, lasts, hfirsts, ih hv, hlasts, rfl⟩
  | @member fields before after key name place presence s w w' hkey hfound h ih =>
    rw [decode_written_object, List.map_append, List.map_cons, hkey] at hread ⊢
    obtain ⟨slots, hslots, hread⟩ := hread
    exact ⟨slots, Fields.storeAll_replace (Fields.store_congr hfound fun v => ih) hslots, hread⟩
  | permute h =>
    rw [decode_written_object] at hread ⊢
    obtain ⟨slots, hslots, hread⟩ := hread
    exact ⟨slots, Fields.storeAll_perm (h.map _) hslots, hread⟩
  | @insert fields before after key name w hkey hunknown =>
    rw [decode_written_object, List.map_append] at hread ⊢
    rw [List.map_cons, hkey]
    obtain ⟨slots, hslots, hread⟩ := hread
    exact ⟨slots,
      Fields.storeAll_insert (fields.store_unknown hunknown w.skip_reading) hslots, hread⟩
  | @addNull fields before after key name place presence s hkey hfound hpresence hmissing =>
    rw [decode_written_object] at hread ⊢
    obtain ⟨slots, hslots, hread⟩ := hread
    have hplace : ∀ m ∈ (before ++ after).map fun m => (m.1.text, m.2.reading), ∀ name found,
        m.1 = .ok name → fields.find? name = some found → found.1 ≠ place :=
      List.forall_mem_map.mpr hmissing
    have hfree := Fields.isFree_storeAll hplace hslots (fields.isFree_empty place)
    obtain ⟨last, hlast⟩ := fields.store_null hfound hfree
    rw [List.map_append] at hslots
    refine ⟨last, ?_, (fields.complete_null hpresence hfound hlast).trans hread⟩
    rw [List.map_append, List.map_cons, hkey]
    exact Fields.storeAll_middle_iff.mpr ⟨slots, hslots, hlast⟩
  | @dropNull fields before after key name place presence s hkey hfound hpresence =>
    rw [decode_written_object, List.map_append] at hread ⊢
    rw [List.map_cons, hkey] at hread
    obtain ⟨last, hlast, hread⟩ := hread
    obtain ⟨slots, hslots, hstored⟩ := Fields.storeAll_middle_iff.mp hlast
    exact ⟨slots, hslots, (fields.complete_null hpresence hfound hstored).symm.trans hread⟩
  | @rename fields before after key key' name name' w hkey hkey' hsame =>
    rw [decode_written_object, List.map_append, List.map_cons] at hread ⊢
    rw [hkey] at hread
    rw [hkey']
    obtain ⟨slots, hslots, hread⟩ := hread
    refine ⟨slots, Fields.storeAll_replace (fun {slots next} h => ?_) hslots, hread⟩
    rw [fields.store_rename hsame]
    exact h

theorem decode_of_edits {s : Schema} {w w' : Written} (h : Relation.ReflTransGen s.Edit w w')
    {v : s.Data} (hread : s.decode w.reading = .ok v) : s.decode w'.reading = .ok v := by
  induction h with
  | refl => exact hread
  | tail _ hedit ih => exact hedit.decode ih

end Schema

namespace Tree

/-- What a golden file is loaded as depends on its content only. Any text of any edited form of what
it says is loaded as the same document, wherever it is kept. -/
theorem loadGolden_of_edits {t : Tree} {p : Path} {d : Document} (h : t.loadGolden p = .ok d) :
    ∃ b, t.readFile p = .ok b ∧ (∃ w : Written, w.IsText b) ∧
      ∀ w w' : Written, w.IsText b → Relation.ReflTransGen Schema.document.Edit w w' →
        ∀ b', w'.IsText b' → ∀ (u : Tree) (q : Path), u.readFile q = .ok b' →
          u.loadGolden q = .ok d := by
  obtain ⟨b, hfile, hb⟩ := loadGolden_ok_iff.mp h
  refine ⟨b, hfile, Recorded.exists_written_of_ofBytes? hb, ?_⟩
  intro w w' hw hedits b' hw' u q hfile'
  have hread : Recorded.ofReading? w.reading = .ok d :=
    (Recorded.ofBytes?_of_isText hw).symm.trans hb
  obtain ⟨data, hdata, hd⟩ := map_ok_iff.mp hread
  have hread' : Recorded.ofReading? w'.reading = .ok d :=
    map_ok_iff.mpr ⟨data, Schema.decode_of_edits hedits hdata, hd⟩
  exact loadGolden_ok_iff.mpr ⟨b', hfile', (Recorded.ofBytes?_of_isText hw').trans hread'⟩

theorem loadGolden_of_edited_page :
    let key := StringToken.ofText
    let zero : Written := .number
      ⟨false, ⟨[48], by simp, List.forall_mem_singleton.mpr rfl⟩, none, none, fun _ => rfl⟩
    let empty : List (StringToken × Written) :=
      [(key "chars", .array []), (key "words", .array []), (key "text", .string (key "")),
        (key "lines", .array []), (key "rects", .array []), (key "tables", .array [])]
    let source := (key "source", Written.string (key "a.pdf"))
    let version := Written.string (key "1")
    let w : Written := .object [source, (key "pdfplumber_version", version),
      (key "pages", .array [.object ((key "page_number", zero) :: (key "width", .null) :: empty)])]
    let w' : Written := .object [
      (key "pages", .array [.object ((key "page_number", zero) :: (key "height", .null) ::
        (key "note", .array [.object [(key "width", zero)], .null]) :: empty)]),
      (key "extractor_version", version), source]
    let d : Document :=
      { source := "a.pdf", extractorVersion := "1"
        pages := [{ pageNumber := 0, width := none, height := none, chars := [], words := []
                    text := "", lines := [], rects := [], tables := [] }] }
    let t : Tree :=
      { objects := [(["a.json"], .file (w.render [])), (["b.json"], .file (w'.render [32, 10]))]
        nodup := by simp }
    t.loadGolden ⟨"a.json"⟩ = .ok d ∧ Relation.ReflTransGen Schema.document.Edit w w' ∧
      t.loadGolden ⟨"b.json"⟩ = .ok d := by
  intro key zero empty source version w w' d t
  have hload : t.loadGolden ⟨"a.json"⟩ = .ok d := by
    have hread : Recorded.ofReading? w.reading = .ok d := by
      simp only [w, source, version, empty, zero, key, Written.reading, Written.readingMembers,
        Written.readingItems, StringToken.text_ofText]
      rfl
    have hw : w.IsText (w.render []) := w.isText_render (by decide)
    exact loadGolden_ok_iff.mpr ⟨_, rfl, (Recorded.ofBytes?_of_isText hw).trans hread⟩
  have hedits : Relation.ReflTransGen Schema.document.Edit w w' := by
    have hname : ∀ name, (key name).text = .ok name := StringToken.text_ofText
    let width := (key "width", Written.null)
    let height := (key "height", Written.null)
    let number := (key "page_number", zero)
    let note := (key "note", Written.array [.object [(key "width", zero)], .null])
    have hdrop : Schema.page.Edit (.object (number :: width :: empty)) (.object (number :: empty)) :=
      @Schema.Edit.dropNull _ [number] empty _ _ _ _ _ (hname "width") rfl (by decide)
    have hadd : Schema.page.Edit (.object (number :: empty)) (.object (number :: height :: empty)) := by
      refine @Schema.Edit.addNull _ [number] empty _ _ _ _ _ (hname "height") rfl (by decide) ?_
      intro m hm name found hkey hfound
      simp only [List.singleton_append, List.mem_cons, List.not_mem_nil, or_false, empty, number] at hm
      rcases hm with rfl | rfl | rfl | rfl | rfl | rfl | rfl <;>
        cases (hname _).symm.trans hkey <;> cases hfound <;> decide
    have hinsert : Schema.page.Edit (.object (number :: height :: empty))
        (.object (number :: height :: note :: empty)) :=
      @Schema.Edit.insert _ [number, height] empty _ _ _ (hname "note") rfl
    let whole (name : String) (page : Written) : Written :=
      .object [(key "pages", .array [page]), (key name, version), source]
    have hpermute : Schema.document.Edit w
        (whole "pdfplumber_version" (.object (number :: width :: empty))) :=
      .permute (List.reverse_perm _).symm
    have hrename : ∀ page, Schema.document.Edit (whole "pdfplumber_version" page)
        (whole "extractor_version" page) := fun page =>
      @Schema.Edit.rename _ [_] [_] _ _ _ _ _ (hname "pdfplumber_version")
        (hname "extractor_version") rfl
    have hinside : ∀ {page page'}, Schema.page.Edit page page' →
        Schema.document.Edit (whole "extractor_version" page) (whole "extractor_version" page') :=
      fun h => @Schema.Edit.member _ [] [_, _] _ _ _ _ _ _ _ (hname "pages") rfl
        (@Schema.Edit.item _ [] [] _ _ h)
    exact ((((Relation.ReflTransGen.single hpermute).tail (hrename _)).tail (hinside hdrop)).tail
      (hinside hadd)).tail (hinside hinsert)
  refine ⟨hload, hedits, ?_⟩
  obtain ⟨b, hfile, -, hall⟩ := loadGolden_of_edits hload
  cases hfile
  exact hall w w' (w.isText_render (by decide)) hedits _
    (w'.isText_render (by decide)) t _ rfl

end Tree

end GoldenRecord

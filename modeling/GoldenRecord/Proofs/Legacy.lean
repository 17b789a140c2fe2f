import GoldenRecord.Proofs.Golden
import GoldenRecord.Proofs.Nesting

namespace GoldenRecord

open Json (Reading)

namespace Json

def without (names : List String) : Json → Json
  | .object members => .object (members.filter fun m => m.1 ∉ names)
  | j => j

def atMember (name : String) (g : Json → Json) : Json → Json
  | .object members => .object (members.map fun m => if m.1 = name then (m.1, g m.2) else m)
  | j => j

def eachItem (g : Json → Json) : Json → Json
  | .array items => .array (items.map g)
  | j => j

def member (j : Json) (name : String) : Json :=
  match j with
  | .object members => ((members.find? (·.1 = name)).map (·.2)).getD .null
  | _ => .null

/-- A change of a value that does not look at its numbers. -/
def IsStructural (g : Json → Json) : Prop := ∀ f j, g (mapNumbers f j) = mapNumbers f (g j)

namespace IsStructural

variable {g : Json → Json}

theorem without (names : List String) : IsStructural (without names) := by
  intro f j
  cases j with
  | object members =>
    simp only [Json.without, mapNumbers, mapNumbersMembers_eq_map, List.filter_map]
    rfl
  | _ => rfl

theorem atMember (name : String) (hg : IsStructural g) : IsStructural (atMember name g) := by
  intro f j
  cases j with
  | object members =>
    simp only [Json.atMember, mapNumbers, mapNumbersMembers_eq_map, List.map_map]
    refine congrArg Json.object (List.map_congr_left fun m _ => ?_)
    by_cases hname : m.1 = name
    · simp only [Function.comp_apply, if_pos hname, hg f m.2]
    · simp only [Function.comp_apply, if_neg hname]
  | _ => rfl

theorem eachItem (hg : IsStructural g) : IsStructural (eachItem g) := by
  intro f j
  cases j with
  | array items =>
    simp only [Json.eachItem, mapNumbers, mapNumbersItems_eq_map, List.map_map]
    exact congrArg Json.array (List.map_congr_left fun j _ => hg f j)
  | _ => rfl

theorem member (name : String) : IsStructural (member · name) := by
  intro f j
  cases j with
  | object members =>
    simp only [Json.member, mapNumbers, mapNumbersMembers_eq_map, List.find?_map]
    change ((Option.map _ (members.find? fun m => m.1 = name)).map _).getD _ = _
    cases members.find? fun m => m.1 = name with
    | none => rfl
    | some m => rfl
  | _ => rfl

end IsStructural

/-- A box as the array of its corners. -/
def flattenBox (j : Json) : Json :=
  .array [j.member "x0", j.member "top", j.member "x1", j.member "bottom"]

def eraseChar (j : Json) : Json := j.without ["doctop", "upright"]

def eraseWord (j : Json) : Json := j.without ["doctop"]

def eraseTable (j : Json) : Json := j.atMember "bbox" flattenBox

def erasePage (j : Json) : Json :=
  (((j.without ["text", "lines", "rects"]).atMember "chars" (eachItem eraseChar)).atMember "words"
    (eachItem eraseWord)).atMember "tables" (eachItem eraseTable)

/-- What the legacy profile leaves of a document. -/
def eraseDocument (j : Json) : Json :=
  (j.without ["extractor_version"]).atMember "pages" (eachItem erasePage)

theorem flattenBox_isStructural : IsStructural flattenBox := by
  intro f j
  simp only [flattenBox, mapNumbers, mapNumbersItems, IsStructural.member _ f j]

theorem erasePage_isStructural : IsStructural erasePage := by
  intro f j
  have hchars : IsStructural (atMember "chars" (eachItem eraseChar)) :=
    .atMember _ (.eachItem (.without _))
  have hwords : IsStructural (atMember "words" (eachItem eraseWord)) :=
    .atMember _ (.eachItem (.without _))
  have htables : IsStructural (atMember "tables" (eachItem eraseTable)) :=
    .atMember _ (.eachItem (.atMember _ flattenBox_isStructural))
  unfold erasePage
  rw [IsStructural.without _ f j, hchars f, hwords f, htables f]

theorem eraseDocument_isStructural : IsStructural eraseDocument := by
  intro f j
  have hpages : IsStructural (atMember "pages" (eachItem erasePage)) :=
    .atMember _ (.eachItem erasePage_isStructural)
  unfold eraseDocument
  rw [IsStructural.without _ f j, hpages f]

end Json

open Json

theorem CharRecord.eraseChar_toJson (c : CharRecord) :
    (Recorded.toJson c).eraseChar = Schema.legacyChar.encode c.legacy := rfl

theorem WordRecord.eraseWord_toJson (w : WordRecord) :
    (Recorded.toJson w).eraseWord = Schema.legacyWord.encode w.legacy := rfl

theorem TableRecord.eraseTable_toJson (t : TableRecord) :
    (Recorded.toJson t).eraseTable = Schema.legacyTable.encode t.legacy := rfl

theorem eachItem_encode {α : Type} [Recorded α] {s : Schema} {narrow : α → s.Data} {g : Json → Json}
    (h : ∀ v : α, g (Recorded.toJson v) = s.encode (narrow v)) (vs : List α) :
    eachItem g ((Schema.list (Recorded.schema α)).encode (vs.map Recorded.toData)) =
      (Schema.list s).encode (vs.map narrow) := by
  change Json.array (((vs.map Recorded.toData).map (Recorded.schema α).encode).map g) =
    .array ((vs.map narrow).map s.encode)
  simp only [List.map_map]
  exact congrArg Json.array (List.map_congr_left fun v _ => h v)

theorem PageRecord.erasePage_toJson (p : PageRecord) :
    (Recorded.toJson p).erasePage = Schema.legacyPage.encode p.legacy := by
  have hchars := eachItem_encode CharRecord.eraseChar_toJson p.chars
  have hwords := eachItem_encode WordRecord.eraseWord_toJson p.words
  have htables := eachItem_encode TableRecord.eraseTable_toJson p.tables
  have hpage : Schema.legacyPage.encode p.legacy = .object
      [("page_number", .number (.ofNat p.pageNumber)),
        ("width", (Schema.optional .real).encode p.width),
        ("height", (Schema.optional .real).encode p.height),
        ("chars", (Schema.list .legacyChar).encode (p.chars.map CharRecord.legacy)),
        ("words", (Schema.list .legacyWord).encode (p.words.map WordRecord.legacy)),
        ("tables", (Schema.list .legacyTable).encode (p.tables.map TableRecord.legacy))] := rfl
  rw [hpage, ← hchars, ← hwords, ← htables]
  rfl

theorem Document.eraseDocument_toJson (d : Document) :
    (d.toJson .full).eraseDocument = d.toJson .legacy := by
  have hpages := eachItem_encode PageRecord.erasePage_toJson d.pages
  have hdocument : d.toJson .legacy = .object
      [("source", .string d.source),
        ("pages", (Schema.list .legacyPage).encode (d.pages.map PageRecord.legacy))] := rfl
  rw [hdocument, ← hpages]
  rfl

namespace Fields

variable {keys : List String}

/-- Every field that was read was among some keys. -/
def FilledFrom (keys : List String) : (fields : Fields) → fields.Slots → Prop
  | .nil, _ => True
  | .cons name otherName _ _ rest, (slot, slots) =>
    (slot.isSome = true → ∃ key ∈ keys, key = name ∨ otherName = some key) ∧
      rest.FilledFrom keys slots

/-- Every required field is among some keys, under one of its names. -/
def AreSupplied (keys : List String) : Fields → Prop
  | .nil => True
  | .cons name otherName presence _ rest =>
    (presence = .required → ∃ key ∈ keys, key = name ∨ otherName = some key) ∧
      rest.AreSupplied keys

theorem filledFrom_empty (fields : Fields) : fields.FilledFrom keys fields.emptySlots := by
  cases fields with
  | nil => trivial
  | cons name otherName presence s rest =>
    have hrest := rest.filledFrom_empty
    exact ⟨fun hread => absurd hread (by simp), hrest⟩

theorem filledFrom_of_store : (fields : Fields) → {key : String} → {r : Reading} →
    {before after : fields.Slots} → key ∈ keys → fields.store key r before = .ok after →
    fields.FilledFrom keys before → fields.FilledFrom keys after
  | .nil, _, _, _, _, _, _, _ => trivial
  | .cons name otherName _ _ rest, key, _, (slot, slots), _, hkey, hstore, hbefore => by
    by_cases hown : key = name ∨ otherName = some key
    · obtain ⟨-, v, -, rfl⟩ := (store_own hown).mp hstore
      exact ⟨fun _ => ⟨key, hkey, hown⟩, hbefore.2⟩
    · rw [store_other hown] at hstore
      obtain ⟨later, hlater, rfl⟩ := map_ok_iff.mp hstore
      exact ⟨hbefore.1, rest.filledFrom_of_store hkey hlater hbefore.2⟩

theorem filledFrom_of_storeAll {fields : Fields} {members : List (String × Json)}
    {before after : fields.Slots} (hkeys : ∀ m ∈ members, m.1 ∈ keys)
    (hbefore : fields.FilledFrom keys before)
    (h : fields.storeAll before (readingMembers members) = .ok after) :
    fields.FilledFrom keys after := by
  rw [readingMembers_eq_map] at h
  refine storeAll_preserves (fun m hm {key _ _} hkey => ?_) h hbefore
  obtain ⟨member, hmember, rfl⟩ := List.mem_map.mp hm
  cases hkey
  exact fields.filledFrom_of_store (hkeys member hmember)

theorem areSupplied_of_complete : (fields : Fields) → {slots : fields.Slots} →
    {vs : fields.Data} → fields.FilledFrom keys slots → fields.complete slots = .ok vs →
    fields.AreSupplied keys
  | .nil, _, _, _, _ => trivial
  | .cons _ _ _ _ rest, (slot, slots), (v, vs), hfilled, h => by
    obtain ⟨hv, hvs⟩ := complete_ok h
    refine ⟨fun hrequired => hfilled.1 ?_, rest.areSupplied_of_complete hfilled.2 hvs⟩
    rcases hv with hslot | ⟨-, hpresence, -⟩
    · exact Option.isSome_of_eq_some hslot
    · exact absurd hrequired hpresence

end Fields

theorem Schema.areSupplied_of_decode {fields : Fields} {members : List (String × Json)}
    {vs : fields.Data} (h : (Schema.record fields).decode (Json.object members).reading = .ok vs) :
    fields.AreSupplied (members.map (·.1)) := by
  rw [reading, Schema.decode_object] at h
  obtain ⟨slots, hslots, hcomplete⟩ := bind_ok_iff.mp h
  have hfilled := Fields.filledFrom_of_storeAll (fun m hm => List.mem_map_of_mem hm)
    fields.filledFrom_empty hslots
  exact fields.areSupplied_of_complete hfilled hcomplete

namespace Document

/-- A document is not read from what the legacy profile writes: there is no version in it. -/
theorem ofGoldenBytes?_legacy (d : Document) :
    ∃ f, ofGoldenBytes? (d.goldenBytes .legacy) = .error f := by
  cases h : ofGoldenBytes? (d.goldenBytes .legacy) with
  | error f => exact ⟨f, rfl⟩
  | ok e =>
    obtain ⟨r, htext, hread⟩ := Recorded.ofBytes?_ok h
    have hreading := htext.symm.trans (d.toJson .legacy).ofBytes_pretty
    obtain ⟨rfl, -⟩ := Prod.mk.inj hreading
    obtain ⟨data, hdata, -⟩ := map_ok_iff.mp hread
    obtain ⟨-, hversion, -⟩ := Schema.areSupplied_of_decode hdata
    obtain ⟨key, hkey, hname⟩ := hversion rfl
    have hnone : ∀ key ∈ ["source", "pages"],
        ¬ (key = "extractor_version" ∨ some "pdfplumber_version" = some key) := by decide
    exact absurd hname (hnone key hkey)

/-- The legacy text of a document says what its full text says, parts of it left out and nothing
moved. It is never loaded. -/
theorem legacy_erases_full (d : Document) :
    (∃ full, Json.ofBytes? (d.goldenBytes .full) = .ok full ∧
      Json.ofBytes? (d.goldenBytes .legacy) = .ok full.eraseDocument) ∧
    ∀ (t : Tree) (p : Path), t.readFile p = .ok (d.goldenBytes .legacy) →
      ∃ f, t.loadGolden p = .error (.json f) := by
  constructor
  · have hfull : Json.ofBytes? (d.goldenBytes .full) = .ok (d.toJson .full).reread :=
      Schema.ofBytes?_encode rfl (by decide) (Recorded.toData d)
    have hlegacy : Json.ofBytes? (d.goldenBytes .legacy) = .ok (d.toJson .legacy).reread :=
      Schema.ofBytes?_encode rfl (by decide) d.legacy
    have herase : (d.toJson .full).reread.eraseDocument = (d.toJson .legacy).reread := by
      unfold reread
      rw [eraseDocument_isStructural, d.eraseDocument_toJson]
    exact ⟨_, hfull, herase ▸ hlegacy⟩
  · intro t p hfile
    obtain ⟨f, hf⟩ := d.ofGoldenBytes?_legacy
    refine ⟨f, ?_⟩
    unfold Tree.loadGolden
    simp only [hfile, hf]

end Document

end GoldenRecord

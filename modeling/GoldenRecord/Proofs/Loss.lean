import GoldenRecord.Proofs.Edits
import GoldenRecord.Proofs.Json.Place
import GoldenRecord.Proofs.Reread

namespace GoldenRecord

open Json (Fault Reading Step StringToken Written)
open Json.Reading

namespace Fields

theorem complete_of_areFilled : (fields : Fields) → {slots : fields.Slots} →
    fields.AreFilled slots → ∃ vs, fields.complete slots = .ok vs
  | .nil, (), _ => ⟨(), rfl⟩
  | .cons _ _ presence s rest, (slot, slots), h => by
    obtain ⟨vs, hvs⟩ := rest.complete_of_areFilled h.2
    cases slot with
    | some v => exact ⟨(v, vs), by simp only [complete, hvs]; rfl⟩
    | none =>
      have hpresence : presence ≠ .required := fun e => h.1 e rfl
      exact ⟨(s.blank, vs), by simp only [complete, hvs, if_neg hpresence]; rfl⟩

theorem complete_of_not_areFilled : (fields : Fields) → {slots : fields.Slots} →
    ¬ fields.AreFilled slots → fields.complete slots = .error .mismatch
  | .nil, _, h => absurd trivial h
  | .cons _ _ presence s rest, (slot, slots), h => by
    by_cases hrest : rest.AreFilled slots
    · have hown : presence = .required ∧ slot = none := by
        by_cases hpresence : presence = .required
        · refine ⟨hpresence, Classical.byContradiction fun hsome => h ⟨fun _ => hsome, hrest⟩⟩
        · exact absurd ⟨fun e => absurd e hpresence, hrest⟩ h
      obtain ⟨rfl, rfl⟩ := hown
      rfl
    · have hlater := rest.complete_of_not_areFilled hrest
      cases slot with
      | some v =>
        simp only [complete, hlater]
        rfl
      | none =>
        simp only [complete, hlater]
        split <;> rfl

theorem areFilled_of_complete {fields : Fields} {slots : fields.Slots} {vs : fields.Data}
    (h : fields.complete slots = .ok vs) : fields.AreFilled slots := by
  refine Classical.byContradiction fun hmissing => ?_
  cases (fields.complete_of_not_areFilled hmissing).symm.trans h

section Member

variable {fields : Fields} {key : String} {found : Nat × Presence × Schema} {r r' : Reading}
  {slots after : fields.Slots}

/-- A member that cannot be read is refused where another one was stored. -/
theorem store_error (hfound : fields.find? key = some found) {e : Fault}
    (herror : ∀ v, found.2.2.decode r = .ok v → found.2.2.decode r' = .error e)
    (h : fields.store key r slots = .ok after) : fields.store key r' slots = .error e := by
  rcases fields.store_found hfound slots with hoccupied | ⟨put, others, hput, -, -⟩
  · cases (hoccupied r).symm.trans h
  · rw [hput] at h ⊢
    obtain ⟨v, hv, -⟩ := map_ok_iff.mp h
    rw [herror v hv]
    rfl

/-- A member that can be read is stored where another one was, and fills the same field. -/
theorem store_change (hfound : fields.find? key = some found)
    (hread : ∀ v, found.2.2.decode r = .ok v → ∃ v', found.2.2.decode r' = .ok v')
    (h : fields.store key r slots = .ok after) : ∃ after', fields.store key r' slots = .ok after' ∧
      (fields.AreFilled after → fields.AreFilled after') := by
  rcases fields.store_found hfound slots with hoccupied | ⟨put, others, hput, hfilled, -⟩
  · cases (hoccupied r).symm.trans h
  · rw [hput] at h
    obtain ⟨v, hv, rfl⟩ := map_ok_iff.mp h
    obtain ⟨v', hv'⟩ := hread v hv
    refine ⟨put v', ?_, ((hfilled v).trans (hfilled v').symm).mp⟩
    rw [hput, hv']
    rfl

theorem areFilled_of_store (hfound : fields.find? key = some found)
    (h : fields.store key r slots = .ok after) (hafter : fields.AreFilled after) :
    fields.AreFilled slots ↔ found.2.1 ≠ .required := by
  rcases fields.store_found hfound slots with hoccupied | ⟨put, others, hput, hfilled, hfree⟩
  · cases (hoccupied r).symm.trans h
  · rw [hput] at h
    obtain ⟨v, -, rfl⟩ := map_ok_iff.mp h
    exact hfree.trans (and_iff_left ((hfilled v).mp hafter))

end Member

variable {fields : Fields} {slots last : fields.Slots}
  {before after : List (Except Fault String × Reading)} {key : String} {r r' : Reading}

theorem storeAll_error {e : Fault}
    (hmember : ∀ {between next}, fields.store key r between = .ok next →
      fields.store key r' between = .error e)
    (h : fields.storeAll slots (before ++ (.ok key, r) :: after) = .ok last) :
    fields.storeAll slots (before ++ (.ok key, r') :: after) = .error e := by
  obtain ⟨between, hbefore, h⟩ := storeAll_append_iff.mp h
  obtain ⟨_, next, hkey, hnext, -⟩ := storeAll_cons_iff.mp h
  cases hkey
  have hfirst : fields.storeAll slots (before ++ (.ok key, r') :: after) =
      fields.storeAll slots before >>= (fields.storeAll · ((.ok key, r') :: after)) :=
    List.foldlM_append
  rw [hfirst, hbefore]
  change fields.storeAll between _ = _
  rw [storeAll_cons, hmember hnext]
  rfl

/-- A member that is stored where another one was leaves the rest of an object to be stored as well. -/
theorem storeAll_change
    (hmember : ∀ {between next}, fields.store key r between = .ok next →
      ∃ next', fields.store key r' between = .ok next' ∧
        (fields.AreFilled next → fields.AreFilled next'))
    (h : fields.storeAll slots (before ++ (.ok key, r) :: after) = .ok last) :
    ∃ last', fields.storeAll slots (before ++ (.ok key, r') :: after) = .ok last' ∧
      (fields.AreFilled last → fields.AreFilled last') := by
  obtain ⟨between, hothers, hlast⟩ := storeAll_middle_iff.mp h
  obtain ⟨last', hlast', hfill⟩ := hmember hlast
  exact ⟨last', storeAll_middle_iff.mpr ⟨between, hothers, hlast'⟩, hfill⟩

end Fields

namespace Schema

def step? : Schema → Step → Option (Presence × Schema)
  | .list s, .index _ => some (.required, s)
  | .record fields, .key name => (fields.find? name).map (·.2)
  | _, _ => none

def place? (found : Presence × Schema) : List Step → Option (Presence × Schema)
  | [] => some found
  | step :: path => (found.2.step? step).bind fun next => place? next path

theorem place?_append (found : Presence × Schema) (path more : List Step) :
    place? found (path ++ more) = (place? found path).bind fun next => place? next more := by
  induction path generalizing found with
  | nil => rfl
  | cons step path ih =>
    rw [List.cons_append, place?, place?, Option.bind_assoc]
    exact congrArg _ (funext ih)

theorem step?_index {s : Schema} {i : Nat} {found : Presence × Schema}
    (h : s.step? (.index i) = some found) : s = .list found.2 := by
  cases s with
  | list s =>
    cases h
    rfl
  | _ => cases h

theorem step?_key {s : Schema} {name : String} {found : Presence × Schema}
    (h : s.step? (.key name) = some found) :
    ∃ fields place, s = .record fields ∧ fields.find? name = some (place, found) := by
  cases s with
  | record fields =>
    obtain ⟨⟨place, _⟩, hfound, rfl⟩ := Option.map_eq_some_iff.mp h
    exact ⟨fields, place, rfl, hfound⟩
  | _ => cases h

theorem decode_array_error {s : Schema} {items : List Written} {e : Fault}
    (h : (items.map Written.reading).mapM s.decode = .error e) :
    (Schema.list s).decode (Written.array items).reading = .error e := by
  rw [Written.reading, Written.readingItems_eq_map, decode, h]
  rfl

theorem decode_object_eq (fields : Fields) (members : List (StringToken × Written)) :
    (Schema.record fields).decode (Written.object members).reading =
      fields.storeAll fields.emptySlots (members.map fun m => (m.1.text, m.2.reading)) >>=
        fields.complete := by
  rw [Written.reading, Written.readingMembers_eq_map, decode_object]

end Schema

namespace Json.Written

variable {part part' w w' : Written} {path : List Step} {found place : Presence × Schema}

/-- A part that is refused where it stands makes the whole refused. -/
theorem Differ.decode_error {e : Fault} (h : Differ part part' path w w')
    (hplace : Schema.place? found path = some place)
    (hpart : ∀ u, place.2.decode part.reading = .ok u →
      place.2.decode part'.reading = .error e) {v : found.2.Data}
    (hread : found.2.decode w.reading = .ok v) : found.2.decode w'.reading = .error e := by
  induction h generalizing found with
  | here =>
    cases hplace
    exact hpart v hread
  | item h ih =>
    obtain ⟨next, hstep, hnext⟩ := Option.bind_eq_some_iff.mp hplace
    obtain ⟨presence, s⟩ := found
    obtain rfl := Schema.step?_index hstep
    rw [Schema.decode_written_array, List.map_append, List.map_cons] at hread
    refine Schema.decode_array_error ?_
    rw [List.map_append, List.map_cons]
    exact mapM_error (fun u hu => ih hnext hu) hread
  | member hkey h ih =>
    obtain ⟨next, hstep, hnext⟩ := Option.bind_eq_some_iff.mp hplace
    obtain ⟨presence, s⟩ := found
    obtain ⟨fields, index, rfl, hfound⟩ := Schema.step?_key hstep
    obtain ⟨slots, hslots, -⟩ := Schema.decode_written_object.mp hread
    rw [List.map_append, List.map_cons, hkey] at hslots
    rw [Schema.decode_object_eq, List.map_append, List.map_cons, hkey,
      Fields.storeAll_error (Fields.store_error hfound fun u hu => ih hnext hu) hslots]
    rfl

/-- A part that is read where it stands leaves the whole to be read. -/
theorem Differ.decode_ok (h : Differ part part' path w w')
    (hplace : Schema.place? found path = some place)
    (hpart : ∀ u, place.2.decode part.reading = .ok u → ∃ u', place.2.decode part'.reading = .ok u')
    {v : found.2.Data} (hread : found.2.decode w.reading = .ok v) :
    ∃ v', found.2.decode w'.reading = .ok v' := by
  induction h generalizing found with
  | here =>
    cases hplace
    exact hpart v hread
  | item h ih =>
    obtain ⟨next, hstep, hnext⟩ := Option.bind_eq_some_iff.mp hplace
    obtain ⟨presence, s⟩ := found
    obtain rfl := Schema.step?_index hstep
    rw [Schema.decode_written_array, List.map_append, List.map_cons] at hread
    obtain ⟨firsts, u, lasts, hfirsts, hu, hlasts, -⟩ := mapM_middle_iff.mp hread
    obtain ⟨u', hu'⟩ := ih hnext hu
    refine ⟨firsts ++ u' :: lasts, Schema.decode_written_array.mpr ?_⟩
    rw [List.map_append, List.map_cons]
    exact mapM_middle_iff.mpr ⟨firsts, u', lasts, hfirsts, hu', hlasts, rfl⟩
  | member hkey h ih =>
    obtain ⟨next, hstep, hnext⟩ := Option.bind_eq_some_iff.mp hplace
    obtain ⟨presence, s⟩ := found
    obtain ⟨fields, index, rfl, hfound⟩ := Schema.step?_key hstep
    obtain ⟨slots, hslots, hcomplete⟩ := Schema.decode_written_object.mp hread
    rw [List.map_append, List.map_cons, hkey] at hslots
    obtain ⟨last, hlast, hfill⟩ :=
      Fields.storeAll_change (Fields.store_change hfound fun u hu => ih hnext hu) hslots
    obtain ⟨vs, hvs⟩ := fields.complete_of_areFilled (hfill (Fields.areFilled_of_complete hcomplete))
    refine ⟨vs, Schema.decode_written_object.mpr ⟨last, ?_, hvs⟩⟩
    rw [List.map_append, List.map_cons, hkey, hlast]

/-- The object that a member is in, and the field that takes it. -/
theorem place?_member {name : String} (h : Schema.place? found (path ++ [.key name]) = some place) :
    ∃ presence fields index, Schema.place? found path = some (presence, .record fields) ∧
      fields.find? name = some (index, place) := by
  rw [Schema.place?_append] at h
  obtain ⟨⟨presence, s⟩, hobject, h⟩ := Option.bind_eq_some_iff.mp h
  obtain ⟨next, hstep, hnext⟩ := Option.bind_eq_some_iff.mp h
  cases hnext
  obtain ⟨fields, index, rfl, hfound⟩ := Schema.step?_key hstep
  exact ⟨presence, fields, index, hobject, hfound⟩

/-- A record that lost a value it requires is of the wrong shape. -/
theorem decode_of_required (h : w.Nulls path w' ∨ w.Removes path w') {s : Schema}
    (hplace : Schema.place? found path = some (.required, s))
    (hnull : s.decode .null = .error .mismatch) {v : found.2.Data}
    (hread : found.2.decode w.reading = .ok v) : found.2.decode w'.reading = .error .mismatch := by
  rcases h with ⟨part, h⟩ | h
  · exact h.decode_error hplace (fun _ _ => hnull) hread
  · obtain ⟨hkey, h⟩ := h
    obtain ⟨presence, fields, index, hobject, hfound⟩ := place?_member hplace
    refine h.decode_error hobject (fun u hu => ?_) hread
    obtain ⟨slots, hslots, hcomplete⟩ := Schema.decode_written_object.mp hu
    rw [List.map_append, List.map_cons, hkey] at hslots
    obtain ⟨between, hothers, hstored⟩ := Fields.storeAll_middle_iff.mp hslots
    have hfilled := Fields.areFilled_of_complete hcomplete
    have hmissing : ¬ fields.AreFilled between :=
      fun h => (Fields.areFilled_of_store hfound hstored hfilled).mp h rfl
    rw [Schema.decode_object_eq, List.map_append, hothers]
    exact fields.complete_of_not_areFilled hmissing

theorem decode_of_omissible (h : w.Nulls path w' ∨ w.Removes path w')
    (hplace : Schema.place? found path = some place) (hpresence : place.1 ≠ .required)
    (hnull : ∃ u, place.2.decode .null = .ok u) {v : found.2.Data}
    (hread : found.2.decode w.reading = .ok v) : ∃ v', found.2.decode w'.reading = .ok v' := by
  rcases h with ⟨part, h⟩ | h
  · exact h.decode_ok hplace (fun _ _ => hnull) hread
  · obtain ⟨hkey, h⟩ := h
    obtain ⟨presence, fields, index, hobject, hfound⟩ := place?_member hplace
    refine h.decode_ok hobject (fun u hu => ?_) hread
    obtain ⟨slots, hslots, hcomplete⟩ := Schema.decode_written_object.mp hu
    rw [List.map_append, List.map_cons, hkey] at hslots
    obtain ⟨between, hothers, hstored⟩ := Fields.storeAll_middle_iff.mp hslots
    have hfilled := Fields.areFilled_of_complete hcomplete
    obtain ⟨vs, hvs⟩ := fields.complete_of_areFilled
      ((Fields.areFilled_of_store hfound hstored hfilled).mpr hpresence)
    exact ⟨vs, Schema.decode_written_object.mpr ⟨between, by rw [List.map_append, hothers], hvs⟩⟩

end Json.Written

/-- The members of an object that it always has. -/
def Collection.required : Collection → List String
  | .chars => ["text", "fontname", "upright"]
  | .words => ["text"]
  | .lines => []
  | .rects => ["stroke", "fill"]
  | .tables => ["bbox", "rows"]

def Collection.measures : Collection → List Measure
  | .chars => [.x0, .top, .x1, .bottom, .size, .doctop]
  | .words => [.x0, .top, .x1, .bottom, .doctop]
  | .lines => [.x0, .top, .x1, .bottom, .linewidth]
  | .rects => [.x0, .top, .x1, .bottom, .linewidth]
  | .tables => [.x0, .top, .x1, .bottom]

namespace Document

/-- The places of what a document cannot be without. -/
inductive IsRequired : List Step → Prop
  | member {name : String} (h : name ∈ ["source", "extractor_version", "pages"]) :
      IsRequired [.key name]
  | page (i : Nat) : IsRequired [.key "pages", .index i]
  | pageMember (i : Nat) {name : String} (h : name ∈ ["page_number", "chars", "words", "text",
      "lines", "rects", "tables"]) : IsRequired [.key "pages", .index i, .key name]
  | object (i : Nat) (c : Collection) (j : Nat) :
      IsRequired [.key "pages", .index i, .key c.name, .index j]
  | objectMember (i : Nat) (c : Collection) (j : Nat) {name : String} (h : name ∈ c.required) :
      IsRequired [.key "pages", .index i, .key c.name, .index j, .key name]
  | row (i j k : Nat) : IsRequired [.key "pages", .index i, .key "tables", .index j, .key "rows",
      .index k]
  | cell (i j k l : Nat) : IsRequired [.key "pages", .index i, .key "tables", .index j,
      .key "rows", .index k, .index l]

/-- The places of the numbers that may be unknown. -/
inductive IsMeasure : List Step → Prop
  | page (i : Nat) {m : Measure} (h : m ∈ [.width, .height]) :
      IsMeasure [.key "pages", .index i, .key m.name]
  | object (i : Nat) (c : Collection) (j : Nat) {m : Measure} (h : m ∈ c.measures) :
      IsMeasure (.key "pages" :: .index i :: .key c.name :: .index j ::
        (c.boxPath ++ [.key m.name]))

theorem place?_of_isRequired {path : List Step} (h : IsRequired path) :
    ∃ s, Schema.place? (.required, .document) path = some (.required, s) ∧
      s.decode .null = .error .mismatch := by
  cases h with
  | member h =>
    simp only [List.mem_cons, List.not_mem_nil, or_false] at h
    rcases h with rfl | rfl | rfl <;> exact ⟨_, rfl, rfl⟩
  | page i => exact ⟨_, rfl, rfl⟩
  | pageMember i h =>
    simp only [List.mem_cons, List.not_mem_nil, or_false] at h
    rcases h with rfl | rfl | rfl | rfl | rfl | rfl | rfl <;> exact ⟨_, rfl, rfl⟩
  | object i c j => cases c <;> exact ⟨_, rfl, rfl⟩
  | objectMember i c j h =>
    cases c <;> simp only [Collection.required, List.mem_cons, List.not_mem_nil, or_false] at h
    case chars => rcases h with rfl | rfl | rfl <;> exact ⟨_, rfl, rfl⟩
    case words => subst h; exact ⟨_, rfl, rfl⟩
    case rects => rcases h with rfl | rfl <;> exact ⟨_, rfl, rfl⟩
    case tables => rcases h with rfl | rfl <;> exact ⟨_, rfl, rfl⟩
  | row i j k => exact ⟨_, rfl, rfl⟩
  | cell i j k l => exact ⟨_, rfl, rfl⟩

theorem place?_of_isMeasure {path : List Step} (h : IsMeasure path) :
    Schema.place? (.required, .document) path = some (.omissible, .optional .real) := by
  cases h with
  | page i h =>
    simp only [List.mem_cons, List.not_mem_nil, or_false] at h
    rcases h with rfl | rfl <;> rfl
  | object i c j h =>
    cases c <;> simp only [Collection.measures, List.mem_cons, List.not_mem_nil, or_false] at h
    case chars => rcases h with rfl | rfl | rfl | rfl | rfl | rfl <;> rfl
    case words => rcases h with rfl | rfl | rfl | rfl | rfl <;> rfl
    case lines => rcases h with rfl | rfl | rfl | rfl | rfl <;> rfl
    case rects => rcases h with rfl | rfl | rfl | rfl | rfl <;> rfl
    case tables => rcases h with rfl | rfl | rfl | rfl <;> rfl

end Document

namespace Tree

/-- Whatever a golden file loses that its document cannot be without, at any depth, it is refused as of
the wrong shape. Without any of its numbers it is loaded. -/
theorem loadGolden_of_loss {d : Document} (hfinite : ∀ v ∈ Recorded.numbers d, v.isFinite = true)
    (hpages : ∀ p ∈ d.pages, p.pageNumber < 2 ^ 64) :
    (∃ w : Written, w.IsText (d.goldenBytes .full)) ∧
    ∀ w : Written, w.IsText (d.goldenBytes .full) →
      (∀ path, (Json.at? path (d.toJson .full)).isSome → ∃ w', w.Nulls path w') ∧
      (∀ path name, (Json.at? (path ++ [.key name]) (d.toJson .full)).isSome →
        ∃ w', w.Removes (path ++ [.key name]) w') ∧
      ∀ path w', w.Nulls path w' ∨ w.Removes path w' →
        ∀ b, w'.IsText b → ∀ (t : Tree) (p : Path), t.readFile p = .ok b →
          (Document.IsRequired path → t.loadGolden p = .error (.json .mismatch)) ∧
          (Document.IsMeasure path → ∃ e, t.loadGolden p = .ok e) := by
  have hload := Document.ofGoldenBytes?_reread (d.isWritable_iff.mpr ⟨hfinite, hpages⟩)
  refine ⟨Recorded.exists_written_of_ofBytes? hload, fun w hw => ?_⟩
  have hreading : w.reading = ((d.toJson .full).mapNumbers Json.Number.reread).reading :=
    congrArg Prod.fst ((w.ofBytes_eq hw).symm.trans (Json.ofBytes_pretty (d.toJson .full)))
  have hpresent : ∀ {path}, (Json.at? path (d.toJson .full)).isSome →
      (Json.at? path ((d.toJson .full).mapNumbers Json.Number.reread)).isSome := fun h => by
    rwa [Json.at?_mapNumbers, Option.isSome_map]
  refine ⟨fun path h => Written.exists_nulls hreading (hpresent h),
    fun path name h => Written.exists_removes hreading (hpresent h), ?_⟩
  intro path w' hloss b hb t p hfile
  obtain ⟨data, hdata, -⟩ := map_ok_iff.mp ((Recorded.ofBytes?_of_isText hw).symm.trans hload)
  have hread : Document.ofGoldenBytes? b = Recorded.ofReading? w'.reading :=
    Recorded.ofBytes?_of_isText hb
  constructor
  · intro hrequired
    obtain ⟨s, hplace, hnull⟩ := Document.place?_of_isRequired hrequired
    have herror : Schema.document.decode w'.reading = .error .mismatch :=
      Written.decode_of_required hloss hplace hnull hdata
    have hrefused : Document.ofGoldenBytes? b = .error .mismatch :=
      hread.trans (congrArg (fun data => data.map (Recorded.ofData : _ → Document)) herror)
    unfold loadGolden
    simp only [hfile, hrefused]
  · intro hmeasure
    obtain ⟨data', hdata'⟩ := Written.decode_of_omissible hloss
      (Document.place?_of_isMeasure hmeasure) (by decide) ⟨none, rfl⟩ hdata
    exact ⟨Recorded.ofData data', loadGolden_ok_iff.mpr
      ⟨b, hfile, hread.trans (map_ok_iff.mpr ⟨data', hdata', rfl⟩)⟩⟩

theorem loadGolden_of_lost_cell :
    let d : Document :=
      { source := "a.pdf", extractorVersion := "1"
        pages := [{ pageNumber := 0, width := some (.ofInt 612), height := none, chars := []
                    words := [], text := "", lines := [], rects := []
                    tables := [{ bbox := ⟨none, none, none, none⟩, rows := [["", "b"]] }] }] }
    let cell : List Step := [.key "pages", .index 0, .key "tables", .index 0, .key "rows", .index 0,
      .index 1]
    let width : List Step := [.key "pages", .index 0, .key "width"]
    (∀ v ∈ Recorded.numbers d, v.isFinite = true) ∧ (∀ p ∈ d.pages, p.pageNumber < 2 ^ 64) ∧
      ∃ w w' w'' : Written, w.IsText (d.goldenBytes .full) ∧ w.Nulls cell w' ∧ w.Removes width w'' ∧
        let t : Tree :=
          { objects := [(["a.json"], .file (w'.render [])), (["b.json"], .file (w''.render []))]
            nodup := by simp }
        t.loadGolden ⟨"a.json"⟩ = .error (.json .mismatch) ∧
          ∃ e, t.loadGolden ⟨"b.json"⟩ = .ok e := by
  intro d cell width
  have hfinite : ∀ v ∈ Recorded.numbers d, v.isFinite = true := by decide +kernel
  have hpages : ∀ p ∈ d.pages, p.pageNumber < 2 ^ 64 := by decide +kernel
  obtain ⟨⟨w, hw⟩, hall⟩ := loadGolden_of_loss hfinite hpages
  obtain ⟨hnulls, hremoves, hverdict⟩ := hall w hw
  obtain ⟨w', hw'⟩ := hnulls cell rfl
  obtain ⟨w'', hw''⟩ := hremoves [.key "pages", .index 0] "width" rfl
  let t : Tree :=
    { objects := [(["a.json"], .file (w'.render [])), (["b.json"], .file (w''.render []))]
      nodup := by simp }
  refine ⟨hfinite, hpages, w, w', w'', hw, hw', hw'', ?_, ?_⟩
  · exact (hverdict cell w' (.inl hw') _ (w'.isText_render (by decide)) t _ rfl).1 (.cell 0 0 0 1)
  · exact (hverdict width w'' (.inr hw'') _ (w''.isText_render (by decide)) t _ rfl).2
      (.page 0 (m := .width) (by decide))

end Tree

end GoldenRecord

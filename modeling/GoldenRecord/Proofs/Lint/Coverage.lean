import GoldenRecord.Profile
import GoldenRecord.Proofs.Lint.Spots

namespace GoldenRecord

def CharRecord.number? (c : CharRecord) : Measure → Option Binary64
  | .x0 => c.x0
  | .top => c.top
  | .x1 => c.x1
  | .bottom => c.bottom
  | .size => c.size
  | .doctop => c.doctop
  | _ => none

def WordRecord.number? (w : WordRecord) : Measure → Option Binary64
  | .x0 => w.x0
  | .top => w.top
  | .x1 => w.x1
  | .bottom => w.bottom
  | .doctop => w.doctop
  | _ => none

def LineRecord.number? (l : LineRecord) : Measure → Option Binary64
  | .x0 => l.x0
  | .top => l.top
  | .x1 => l.x1
  | .bottom => l.bottom
  | .linewidth => l.linewidth
  | _ => none

def RectRecord.number? (r : RectRecord) : Measure → Option Binary64
  | .x0 => r.x0
  | .top => r.top
  | .x1 => r.x1
  | .bottom => r.bottom
  | .linewidth => r.linewidth
  | _ => none

def TableRecord.number? (t : TableRecord) : Measure → Option Binary64
  | .x0 => t.bbox.x0
  | .top => t.bbox.top
  | .x1 => t.bbox.x1
  | .bottom => t.bbox.bottom
  | _ => none

namespace PageRecord

/-- The objects of one collection, each as what is known of its measures. -/
def objects (p : PageRecord) : Collection → List (Measure → Option Binary64)
  | .chars => p.chars.map CharRecord.number?
  | .words => p.words.map WordRecord.number?
  | .lines => p.lines.map LineRecord.number?
  | .rects => p.rects.map RectRecord.number?
  | .tables => p.tables.map TableRecord.number?

/-- A number of the page itself or of an object on it. -/
def number? (p : PageRecord) : Option (Collection × Nat) → Measure → Option Binary64
  | none, .width => p.width
  | none, .height => p.height
  | none, _ => none
  | some (c, j), m => (p.objects c)[j]?.bind fun f => f m

end PageRecord

/-- The number at a spot, if there is one. -/
def Document.number? (d : Document) (s : Spot) : Option Binary64 := do
  let p ← d.pages[s.page]?
  let m ← s.measure
  p.number? s.item m

namespace Json

/-- A number stands at a path in a value. -/
def HasNumber (n : Number) : List Step → Json → Prop
  | [], .number m => m = n
  | .index i :: path, .array items => ∃ j, items[i]? = some j ∧ HasNumber n path j
  | .key name :: path, .object members => ∃ j, (name, j) ∈ members ∧ HasNumber n path j
  | _, _ => False

variable {n : Number} {path : List Step}

@[simp] theorem hasNumber_null : ¬ HasNumber n path .null := by
  unfold HasNumber
  split <;> simp_all

@[simp] theorem hasNumber_bool {b : Bool} : ¬ HasNumber n path (.bool b) := by
  unfold HasNumber
  split <;> simp_all

@[simp] theorem hasNumber_string {s : String} : ¬ HasNumber n path (.string s) := by
  unfold HasNumber
  split <;> simp_all

theorem hasNumber_number {m : Number} : HasNumber n path (.number m) ↔ path = [] ∧ m = n := by
  cases path with
  | nil => simp [HasNumber]
  | cons s path => cases s <;> simp [HasNumber]

theorem hasNumber_array {α : Type} {g : α → Json} {xs : List α} :
    HasNumber n path (.array (xs.map g)) ↔
      ∃ i x rest, path = .index i :: rest ∧ xs[i]? = some x ∧ HasNumber n rest (g x) := by
  constructor
  · intro h
    cases path with
    | nil => cases h
    | cons s rest =>
      cases s with
      | index i =>
        obtain ⟨j, hj, h⟩ := h
        obtain ⟨x, hx, rfl⟩ := Option.map_eq_some_iff.mp (List.getElem?_map ▸ hj)
        exact ⟨i, x, rest, rfl, hx, h⟩
      | key name => cases h
  · rintro ⟨i, x, rest, rfl, hx, h⟩
    exact ⟨g x, by rw [List.getElem?_map, hx]; rfl, h⟩

theorem hasNumber_object {members : List (String × Json)} :
    HasNumber n path (.object members) ↔
      ∃ member ∈ members, ∃ rest, path = .key member.1 :: rest ∧ HasNumber n rest member.2 := by
  constructor
  · intro h
    cases path with
    | nil => cases h
    | cons s rest =>
      cases s with
      | index i => cases h
      | key name =>
        obtain ⟨j, hj, h⟩ := h
        exact ⟨(name, j), hj, rest, rfl, h⟩
  · rintro ⟨⟨name, j⟩, hj, rest, rfl, h⟩
    exact ⟨j, hj, h⟩

/-- Of the numbers that may be missing those are written that are known and finite. -/
theorem hasNumber_optional {v : Option Binary64} :
    HasNumber n path ((Schema.optional .real).encode v) ↔
      path = [] ∧ ∃ x, v = some (.finite x) ∧ n = .real x := by
  cases v with
  | none => simp [Schema.encode]
  | some w =>
    cases w with
    | finite x =>
      change HasNumber n path (.number (.real x)) ↔ _
      simp [hasNumber_number, eq_comm]
    | infinite b =>
      change HasNumber n path .null ↔ _
      simp
    | nan =>
      change HasNumber n path .null ↔ _
      simp

theorem exists_last_step {s : Step} {q : Prop} :
    (∃ rest, path = s :: rest ∧ rest = [] ∧ q) ↔ path = [s] ∧ q := by
  constructor
  · rintro ⟨rest, hpath, rfl, hq⟩
    exact ⟨hpath, hq⟩
  · rintro ⟨hpath, hq⟩
    exact ⟨[], hpath, rfl, hq⟩

theorem hasNumber_field {name : String} {v : Option Binary64} :
    (∃ rest, path = .key name :: rest ∧ HasNumber n rest ((Schema.optional .real).encode v)) ↔
      path = [.key name] ∧ ∃ x, v = some (.finite x) ∧ n = .real x := by
  simp only [hasNumber_optional, exists_last_step]

/-- The numbers in a value are those of some measures, each a member of its name, some way down. -/
def IsMeasuredBy (f : Measure → Option Binary64) (below : List Step) (j : Json) : Prop :=
  ∀ n path, HasNumber n path j ↔
    ∃ m x, path = below ++ [.key m.name] ∧ f m = some (.finite x) ∧ n = .real x

end Json

theorem Measure.exists_iff {p : Measure → Prop} : (∃ m, p m) ↔ p .width ∨ p .height ∨ p .x0 ∨
    p .top ∨ p .x1 ∨ p .bottom ∨ p .size ∨ p .doctop ∨ p .linewidth := by
  constructor
  · rintro ⟨m, hm⟩
    cases m <;> simp [hm]
  · rintro (h | h | h | h | h | h | h | h | h) <;> exact ⟨_, h⟩

theorem Collection.exists_iff {p : Collection → Prop} :
    (∃ c, p c) ↔ p .chars ∨ p .words ∨ p .lines ∨ p .rects ∨ p .tables := by
  constructor
  · rintro ⟨c, hc⟩
    cases c <;> simp [hc]
  · rintro (h | h | h | h | h) <;> exact ⟨_, h⟩

open Json

theorem CharRecord.isMeasuredBy_toJson (c : CharRecord) :
    (Recorded.toJson c).IsMeasuredBy c.number? [] := by
  intro n path
  have hjson : Recorded.toJson c = .object
      [("text", .string c.text), ("x0", (Schema.optional .real).encode c.x0),
        ("top", (Schema.optional .real).encode c.top), ("x1", (Schema.optional .real).encode c.x1),
        ("bottom", (Schema.optional .real).encode c.bottom), ("fontname", .string c.fontname),
        ("size", (Schema.optional .real).encode c.size),
        ("doctop", (Schema.optional .real).encode c.doctop), ("upright", .bool c.upright)] := rfl
  rw [hjson, hasNumber_object, Measure.exists_iff]
  simp [hasNumber_field, number?, Measure.name]

theorem WordRecord.isMeasuredBy_toJson (w : WordRecord) :
    (Recorded.toJson w).IsMeasuredBy w.number? [] := by
  intro n path
  have hjson : Recorded.toJson w = .object
      [("text", .string w.text), ("x0", (Schema.optional .real).encode w.x0),
        ("top", (Schema.optional .real).encode w.top), ("x1", (Schema.optional .real).encode w.x1),
        ("bottom", (Schema.optional .real).encode w.bottom),
        ("doctop", (Schema.optional .real).encode w.doctop)] := rfl
  rw [hjson, hasNumber_object, Measure.exists_iff]
  simp [hasNumber_field, number?, Measure.name]

theorem LineRecord.isMeasuredBy_toJson (l : LineRecord) :
    (Recorded.toJson l).IsMeasuredBy l.number? [] := by
  intro n path
  have hjson : Recorded.toJson l = .object
      [("x0", (Schema.optional .real).encode l.x0), ("top", (Schema.optional .real).encode l.top),
        ("x1", (Schema.optional .real).encode l.x1),
        ("bottom", (Schema.optional .real).encode l.bottom),
        ("linewidth", (Schema.optional .real).encode l.linewidth)] := rfl
  rw [hjson, hasNumber_object, Measure.exists_iff]
  simp [hasNumber_field, number?, Measure.name]

theorem RectRecord.isMeasuredBy_toJson (r : RectRecord) :
    (Recorded.toJson r).IsMeasuredBy r.number? [] := by
  intro n path
  have hjson : Recorded.toJson r = .object
      [("x0", (Schema.optional .real).encode r.x0), ("top", (Schema.optional .real).encode r.top),
        ("x1", (Schema.optional .real).encode r.x1),
        ("bottom", (Schema.optional .real).encode r.bottom),
        ("linewidth", (Schema.optional .real).encode r.linewidth), ("stroke", .bool r.stroke),
        ("fill", .bool r.fill)] := rfl
  rw [hjson, hasNumber_object, Measure.exists_iff]
  simp [hasNumber_field, number?, Measure.name]

theorem TableRecord.isMeasuredBy_bbox (t : TableRecord) :
    (Recorded.toJson t.bbox).IsMeasuredBy t.number? [] := by
  intro n path
  have hjson : Recorded.toJson t.bbox = .object
      [("x0", (Schema.optional .real).encode t.bbox.x0),
        ("top", (Schema.optional .real).encode t.bbox.top),
        ("x1", (Schema.optional .real).encode t.bbox.x1),
        ("bottom", (Schema.optional .real).encode t.bbox.bottom)] := rfl
  rw [hjson, hasNumber_object, Measure.exists_iff]
  simp [hasNumber_field, number?, Measure.name]

/-- A table has no numbers outside its box: its cells are text. -/
theorem TableRecord.isMeasuredBy_toJson (t : TableRecord) :
    (Recorded.toJson t).IsMeasuredBy t.number? [.key "bbox"] := by
  intro n path
  have hjson : Recorded.toJson t = .object
      [("bbox", Recorded.toJson t.bbox),
        ("rows", .array (t.rows.map fun row => .array (row.map Json.string)))] := rfl
  have hrows : ∀ rest, ¬ HasNumber n rest
      (.array (t.rows.map fun row => .array (row.map Json.string))) := by
    simp [hasNumber_array]
  rw [hjson, hasNumber_object]
  simp only [List.mem_cons, List.not_mem_nil, exists_eq_or_imp, or_false, exists_eq_left, hrows,
    and_false, exists_false, t.isMeasuredBy_bbox n _]
  constructor
  · rintro ⟨_, rfl, m, x, rfl, hx, rfl⟩
    exact ⟨m, x, rfl, hx, rfl⟩
  · rintro ⟨m, x, rfl, hx, rfl⟩
    exact ⟨_, rfl, m, x, rfl, hx, rfl⟩

theorem encode_list {α : Type} [Recorded α] (xs : List α) :
    (Schema.list (Recorded.schema α)).encode (xs.map Recorded.toData) =
      .array (xs.map Recorded.toJson) := by
  change Json.array ((xs.map Recorded.toData).map (Recorded.schema α).encode) = _
  rw [List.map_map]
  rfl

theorem hasNumber_objects {α : Type} [Recorded α] {f : α → Measure → Option Binary64}
    (c : Collection) (h : ∀ x : α, (Recorded.toJson x).IsMeasuredBy (f x) c.boxPath) (xs : List α)
    {n : Number} {path : List Step} :
    (∃ rest, path = .key c.name :: rest ∧ HasNumber n rest (.array (xs.map Recorded.toJson))) ↔
      ∃ j m y, (path = Spot.itemPath (some (c, j)) ++ Spot.measurePath (some m) ∧ n = .real y) ∧
        ((xs.map f)[j]?.bind fun g => g m) = some (.finite y) := by
  constructor
  · rintro ⟨_, rfl, hnumber⟩
    obtain ⟨j, x, rest, rfl, hx, hnumber⟩ := hasNumber_array.mp hnumber
    obtain ⟨m, y, rfl, hy, rfl⟩ := (h x n rest).mp hnumber
    refine ⟨j, m, y, ⟨rfl, rfl⟩, ?_⟩
    rw [List.getElem?_map, hx]
    exact hy
  · rintro ⟨j, m, y, ⟨rfl, rfl⟩, hy⟩
    obtain ⟨g, hg, hy⟩ := Option.bind_eq_some_iff.mp hy
    rw [List.getElem?_map] at hg
    obtain ⟨x, hx, rfl⟩ := Option.map_eq_some_iff.mp hg
    exact ⟨_, rfl, hasNumber_array.mpr ⟨j, x, _, rfl, hx, (h x _ _).mpr ⟨m, y, rfl, hy, rfl⟩⟩⟩

namespace PageRecord

theorem exists_number_iff (p : PageRecord) {q : Option (Collection × Nat) → Measure → Finite → Prop} :
    (∃ item m x, q item m x ∧ p.number? item m = some (.finite x)) ↔
      (∃ x, q none .width x ∧ p.width = some (.finite x)) ∨
      (∃ x, q none .height x ∧ p.height = some (.finite x)) ∨
      ∃ c j m x, q (some (c, j)) m x ∧
        ((p.objects c)[j]?.bind fun f => f m) = some (.finite x) := by
  constructor
  · rintro ⟨item, m, x, hq, hx⟩
    cases item with
    | some item => exact .inr (.inr ⟨item.1, item.2, m, x, hq, hx⟩)
    | none =>
      cases m with
      | width => exact .inl ⟨x, hq, hx⟩
      | height => exact .inr (.inl ⟨x, hq, hx⟩)
      | _ => cases hx
  · rintro (⟨x, hq, hx⟩ | ⟨x, hq, hx⟩ | ⟨c, j, m, x, hq, hx⟩)
    · exact ⟨none, .width, x, hq, hx⟩
    · exact ⟨none, .height, x, hq, hx⟩
    · exact ⟨some (c, j), m, x, hq, hx⟩

theorem toJson_eq (p : PageRecord) : Recorded.toJson p = .object
    [("page_number", .number (.ofNat p.pageNumber)),
      ("width", (Schema.optional .real).encode p.width),
      ("height", (Schema.optional .real).encode p.height),
      ("chars", .array (p.chars.map Recorded.toJson)),
      ("words", .array (p.words.map Recorded.toJson)), ("text", .string p.text),
      ("lines", .array (p.lines.map Recorded.toJson)),
      ("rects", .array (p.rects.map Recorded.toJson)),
      ("tables", .array (p.tables.map Recorded.toJson))] := by
  rw [← encode_list p.chars, ← encode_list p.words, ← encode_list p.lines, ← encode_list p.rects,
    ← encode_list p.tables]
  rfl

theorem hasNumber_toJson (p : PageRecord) {n : Number} {path : List Step} :
    HasNumber n path (Recorded.toJson p) ↔
      (path = [.key "page_number"] ∧ n = .ofNat p.pageNumber) ∨
      ∃ item m x, (path = Spot.itemPath item ++ Spot.measurePath (some m) ∧ n = .real x) ∧
        p.number? item m = some (.finite x) := by
  have hsize : ∀ (m : Measure) (v : Option Binary64),
      (path = [.key m.name] ∧ ∃ x, v = some (.finite x) ∧ n = .real x) ↔
        ∃ x, (path = Spot.itemPath none ++ Spot.measurePath (some m) ∧ n = .real x) ∧
          v = some (.finite x) := by
    intro m v
    constructor
    · rintro ⟨hpath, x, hv, hn⟩
      exact ⟨x, ⟨hpath, hn⟩, hv⟩
    · rintro ⟨x, ⟨hpath, hn⟩, hv⟩
      exact ⟨hpath, x, hv, hn⟩
  -- both sides become the members that hold numbers, in written order; the text of the page drops out
  rw [exists_number_iff, Collection.exists_iff, toJson_eq, hasNumber_object]
  simp only [List.mem_cons, List.not_mem_nil, exists_eq_or_imp, or_false, exists_eq_left,
    hasNumber_number, exists_last_step, hasNumber_field, hasNumber_string, and_false, exists_false,
    false_or]
  refine or_congr (and_congr_right fun _ => eq_comm) (or_congr (hsize .width _)
    (or_congr (hsize .height _) (or_congr ?_ (or_congr ?_ (or_congr ?_ (or_congr ?_ ?_))))))
  · exact hasNumber_objects .chars CharRecord.isMeasuredBy_toJson p.chars
  · exact hasNumber_objects .words WordRecord.isMeasuredBy_toJson p.words
  · exact hasNumber_objects .lines LineRecord.isMeasuredBy_toJson p.lines
  · exact hasNumber_objects .rects RectRecord.isMeasuredBy_toJson p.rects
  · exact hasNumber_objects .tables TableRecord.isMeasuredBy_toJson p.tables

end PageRecord

namespace Document

theorem number?_eq_some_iff (d : Document) {s : Spot} {v : Binary64} :
    d.number? s = some v ↔
      ∃ p m, d.pages[s.page]? = some p ∧ s.measure = some m ∧ p.number? s.item m = some v := by
  unfold number?
  cases d.pages[s.page]? <;> cases s.measure <;> simp

/-- Every number of a document in its full form is the number of a page or the number at a spot. -/
theorem hasNumber_toJson (d : Document) {n : Number} {path : List Step} :
    HasNumber n path (d.toJson .full) ↔
      (∃ i p, path = [.key "pages", .index i, .key "page_number"] ∧ d.pages[i]? = some p ∧
        n = .ofNat p.pageNumber) ∨
      ∃ s x, path = s.path ∧ d.number? s = some (.finite x) ∧ n = .real x := by
  have hjson : d.toJson .full = .object
      [("source", .string d.source), ("extractor_version", .string d.extractorVersion),
        ("pages", .array (d.pages.map Recorded.toJson))] := by
    rw [← encode_list d.pages]
    rfl
  rw [hjson, hasNumber_object]
  simp only [List.mem_cons, List.not_mem_nil, exists_eq_or_imp, or_false, exists_eq_left,
    hasNumber_string, and_false, exists_false, false_or, hasNumber_array,
    PageRecord.hasNumber_toJson]
  constructor
  · rintro ⟨_, rfl, i, p, _, rfl, hp, ⟨rfl, hn⟩ | ⟨item, m, x, ⟨rfl, rfl⟩, hx⟩⟩
    · exact .inl ⟨i, p, rfl, hp, hn⟩
    · exact .inr ⟨⟨i, item, some m⟩, x, rfl, (d.number?_eq_some_iff).mpr ⟨p, m, hp, rfl, hx⟩, rfl⟩
  · rintro (⟨i, p, rfl, hp, hn⟩ | ⟨s, x, rfl, hs, rfl⟩)
    · exact ⟨_, rfl, i, p, _, rfl, hp, .inl ⟨rfl, hn⟩⟩
    · obtain ⟨p, m, hp, hm, hx⟩ := (d.number?_eq_some_iff).mp hs
      refine ⟨_, rfl, s.page, p, _, rfl, hp, .inr ⟨s.item, m, x, ⟨?_, rfl⟩, hx⟩⟩
      rw [hm]

end Document

end GoldenRecord

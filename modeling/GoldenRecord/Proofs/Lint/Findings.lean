import GoldenRecord.Proofs.Lint.Coverage

namespace GoldenRecord

/-- The rules that a document breaks, and where: a number has more than four decimals, the ends of a
box are the wrong way round, or a page is not numbered by its position. -/
inductive Document.Breaks (d : Document) : Spot → Breach → Prop where
  | precision {s : Spot} {v : Binary64} : d.number? s = some v →
      4 < Coordinate.decimalPlaces v → d.Breaks s (.precision v)
  | invertedX {page : Nat} {item : Option (Collection × Nat)} {x0 x1 : Binary64} :
      d.number? ⟨page, item, some .x0⟩ = some x0 → d.number? ⟨page, item, some .x1⟩ = some x1 →
      x1.lt x0 = true → d.Breaks ⟨page, item, none⟩ (.invertedX x0 x1)
  | invertedY {page : Nat} {item : Option (Collection × Nat)} {top bottom : Binary64} :
      d.number? ⟨page, item, some .top⟩ = some top →
      d.number? ⟨page, item, some .bottom⟩ = some bottom →
      bottom.lt top = true → d.Breaks ⟨page, item, none⟩ (.invertedY top bottom)
  | pageNumber {i : Nat} {p : PageRecord} : d.pages[i]? = some p → p.pageNumber ≠ i →
      d.Breaks ⟨i, none, none⟩ (.pageNumber i p.pageNumber)

open Json (HasNumber Step pathChars)

/-- No rule is broken: the numbers that are written have at most four decimals, those of the pages
apart, no box is the wrong way round and every page is numbered by its position. -/
structure Document.KeepsRules (d : Document) : Prop where
  numbers : ∀ (path : List Step) (n : Json.Number), HasNumber n path (d.toJson .full) →
    path.getLast? ≠ some (.key "page_number") → Coordinate.decimalPlaces n.toBinary64 ≤ 4
  boxesX : ∀ {page : Nat} {item : Option (Collection × Nat)} {x0 x1 : Binary64},
    d.number? ⟨page, item, some .x0⟩ = some x0 → d.number? ⟨page, item, some .x1⟩ = some x1 →
      x1.lt x0 = false
  boxesY : ∀ {page : Nat} {item : Option (Collection × Nat)} {top bottom : Binary64},
    d.number? ⟨page, item, some .top⟩ = some top →
      d.number? ⟨page, item, some .bottom⟩ = some bottom → bottom.lt top = false
  pages : ∀ {i : Nat} {p : PageRecord}, d.pages[i]? = some p → p.pageNumber = i

namespace Collection

def all : List Collection := [.chars, .words, .lines, .rects, .tables]

theorem mem_all (c : Collection) : c ∈ all := by cases c <;> decide

/-- The place of a collection in the record of a page, behind the page's own numbers. -/
def rank : Collection → Nat
  | .chars => 1
  | .words => 2
  | .lines => 3
  | .rects => 4
  | .tables => 5

end Collection

namespace Breach

inductive Kind where
  | precision
  | invertedX
  | invertedY
  | pageNumber
deriving DecidableEq, Repr

def kind : Breach → Kind
  | .precision _ => .precision
  | .invertedX _ _ => .invertedX
  | .invertedY _ _ => .invertedY
  | .pageNumber _ _ => .pageNumber

end Breach

/-- The place of a number in its record. The directions of a box are looked at behind its corners, as
the seventh and the eighth. -/
def Measure.rank : Measure → Nat
  | .width => 1
  | .height => 2
  | .x0 => 3
  | .top => 4
  | .x1 => 5
  | .bottom => 6
  | .size => 9
  | .doctop => 10
  | .linewidth => 11

namespace Spot

/-- The place of the page or object that a spot is part of. -/
def place (s : Spot) : List Nat :=
  match s.item with
  | none => [s.page, 0, 0]
  | some (c, j) => [s.page, c.rank, j]

/-- The place of a finding in its document: the page, the collection, the object, the rule. -/
def position (s : Spot) : Breach.Kind → List Nat
  | .pageNumber => s.place ++ [0]
  | .precision => s.place ++ [(s.measure.map Measure.rank).getD 0]
  | .invertedX => s.place ++ [7]
  | .invertedY => s.place ++ [8]

end Spot

def Violation.position (v : Violation) : List Nat := v.spot.position v.breach.kind

namespace Lint

def object (s : Spot) (f : Measure → Option Binary64) : List Violation :=
  number s .width (f .width) ++ number s .height (f .height) ++
    box s ⟨f .x0, f .top, f .x1, f .bottom⟩ ++ number s .size (f .size) ++
    number s .doctop (f .doctop) ++ number s .linewidth (f .linewidth)

theorem char_eq (s : Spot) (c : CharRecord) : char s c = object s c.number? := by
  simp [char, object, number, CharRecord.number?]

theorem word_eq (s : Spot) (w : WordRecord) : word s w = object s w.number? := by
  simp [word, object, number, WordRecord.number?]

theorem line_eq (s : Spot) (l : LineRecord) : line s l = object s l.number? := by
  simp [line, object, number, LineRecord.number?]

theorem rect_eq (s : Spot) (r : RectRecord) : rect s r = object s r.number? := by
  simp [rect, object, number, RectRecord.number?]

theorem table_eq (s : Spot) (t : TableRecord) : table s t = object s t.number? := by
  simp [table, object, number, TableRecord.number?]

theorem items_eq {α : Type} {check : Spot → α → List Violation} {f : α → Measure → Option Binary64}
    (h : ∀ s x, check s x = object s (f x)) (page : Nat) (c : Collection) (xs : List α) :
    items page c check xs = items page c object (xs.map f) := by
  simp only [items, List.zipIdx_map, List.flatMap_map, h]
  rfl

def own (i : Nat) (p : PageRecord) : List Violation :=
  (if p.pageNumber = i then [] else [⟨{ page := i }, .pageNumber i p.pageNumber⟩]) ++
    object { page := i } (p.number? none)

theorem page_eq (i : Nat) (p : PageRecord) :
    page i p = own i p ++ Collection.all.flatMap fun c => items i c object (p.objects c) := by
  -- the page is an object with a size and no box
  have hsize : object { page := i } (p.number? none) =
      number { page := i } .width p.width ++ number { page := i } .height p.height := by
    simp [object, box, inverted, PageRecord.number?, number]
  unfold page own
  rw [hsize, items_eq char_eq, items_eq word_eq, items_eq line_eq, items_eq rect_eq,
    items_eq table_eq]
  simp [Collection.all, PageRecord.objects]

variable {s : Spot} {v : Violation}

theorem mem_number {m : Measure} {w : Option Binary64} : v ∈ number s m w ↔
    ∃ x, w = some x ∧ 4 < Coordinate.decimalPlaces x ∧
      v = ⟨{ s with measure := some m }, .precision x⟩ := by
  cases w with
  | none => simp [number]
  | some x =>
    by_cases hx : 4 < Coordinate.decimalPlaces x
    · have hfound : Coordinate.decimals < Coordinate.decimalPlaces x := hx
      simp [number, hfound, hx]
    · have hfound : ¬ Coordinate.decimals < Coordinate.decimalPlaces x := hx
      simp [number, hfound, hx]

theorem inverted_eq_some {low high : Option Binary64} {x y : Binary64} :
    inverted low high = some (x, y) ↔ low = some x ∧ high = some y ∧ y.lt x = true := by
  constructor
  · intro h
    unfold inverted at h
    split at h
    next =>
      split at h
      next hlt =>
        cases h
        exact ⟨rfl, rfl, hlt⟩
      next => cases h
    next => cases h
  · rintro ⟨rfl, rfl, hlt⟩
    exact if_pos hlt

theorem mem_object {f : Measure → Option Binary64} : v ∈ object s f ↔
    (∃ m x, f m = some x ∧ 4 < Coordinate.decimalPlaces x ∧
      v = ⟨{ s with measure := some m }, .precision x⟩) ∨
    (∃ x y, f .x0 = some x ∧ f .x1 = some y ∧ y.lt x = true ∧ v = ⟨s, .invertedX x y⟩) ∨
    ∃ x y, f .top = some x ∧ f .bottom = some y ∧ y.lt x = true ∧ v = ⟨s, .invertedY x y⟩ := by
  have hparts : v ∈ object s f ↔ (∃ m, v ∈ number s m (f m)) ∨
      (∃ x y, inverted (f .x0) (f .x1) = some (x, y) ∧ ⟨s, .invertedX x y⟩ = v) ∨
      ∃ x y, inverted (f .top) (f .bottom) = some (x, y) ∧ ⟨s, .invertedY x y⟩ = v := by
    simp only [object, box, List.mem_append, List.mem_map, Option.mem_toList, Prod.exists,
      Measure.exists_iff]
    grind
  simp only [hparts, mem_number, inverted_eq_some, and_assoc, @eq_comm _ _ v]

theorem object_none : object s (fun _ => none) = [] := rfl

theorem mem_items_object {page : Nat} {c : Collection} {fs : List (Measure → Option Binary64)} :
    v ∈ items page c object fs ↔
      ∃ j f, fs[j]? = some f ∧ v ∈ object { page, item := some (c, j) } f := by
  simp only [items, List.mem_flatMap, Prod.exists, List.mk_mem_zipIdx_iff_getElem?]
  constructor
  · rintro ⟨f, j, hf, hv⟩
    exact ⟨j, f, hf, hv⟩
  · rintro ⟨j, f, hf, hv⟩
    exact ⟨f, j, hf, hv⟩

theorem mem_page {i : Nat} {p : PageRecord} : v ∈ page i p ↔
    (p.pageNumber ≠ i ∧ v = ⟨{ page := i }, .pageNumber i p.pageNumber⟩) ∨
    ∃ item, v ∈ object { page := i, item } (p.number? item) := by
  rw [page_eq, own, List.mem_append, List.mem_append, or_assoc]
  refine or_congr (by split <;> simp_all) ?_
  constructor
  · rintro (hv | hv)
    · exact ⟨none, hv⟩
    · obtain ⟨c, -, hv⟩ := List.mem_flatMap.mp hv
      obtain ⟨j, f, hf, hv⟩ := mem_items_object.mp hv
      have hnumbers : p.number? (some (c, j)) = f := by
        funext m
        rw [PageRecord.number?, hf, Option.bind_some]
      exact ⟨some (c, j), hnumbers ▸ hv⟩
  · rintro ⟨item, hv⟩
    cases item with
    | none => exact .inl hv
    | some item =>
      obtain ⟨c, j⟩ := item
      refine .inr (List.mem_flatMap.mpr ⟨c, c.mem_all, mem_items_object.mpr ?_⟩)
      -- where there is no such object there are no numbers, so nothing could be found
      cases hf : (p.objects c)[j]? with
      | none =>
        have hnumbers : p.number? (some (c, j)) = fun _ => none := by
          funext m
          rw [PageRecord.number?, hf, Option.bind_none]
        rw [hnumbers, object_none] at hv
        cases hv
      | some f =>
        have hnumbers : p.number? (some (c, j)) = f := by
          funext m
          rw [PageRecord.number?, hf, Option.bind_some]
        exact ⟨j, f, hf, hnumbers ▸ hv⟩

theorem number_positions (s : Spot) (m : Measure) (w : Option Binary64) :
    ((number s m w).map Violation.position).Sublist [s.place ++ [m.rank]] := by
  cases w with
  | none => exact List.nil_sublist _
  | some x =>
    unfold number
    dsimp only
    split
    next => exact List.Sublist.refl _
    next => exact List.nil_sublist _

theorem option_positions {α : Type} (position : List Nat) {g : α → Violation}
    (h : ∀ x, (g x).position = position) (o : Option α) :
    ((o.toList.map g).map Violation.position).Sublist [position] := by
  cases o with
  | none => exact List.nil_sublist _
  | some x => exact h x ▸ List.Sublist.refl _

theorem box_positions (s : Spot) (b : Box) : ((box s b).map Violation.position).Sublist
    ([3, 4, 5, 6, 7, 8].map fun r => s.place ++ [r]) := by
  simp only [box, List.map_append]
  exact (((((number_positions s .x0 _).append (number_positions s .top _)).append
    (number_positions s .x1 _)).append (number_positions s .bottom _)).append
    (option_positions (s.position .invertedX) (fun _ => rfl) _)).append
    (option_positions (s.position .invertedY) (fun _ => rfl) _)

/-- The findings at one object stand in the order of its record. -/
theorem object_positions (s : Spot) (f : Measure → Option Binary64) :
    ((object s f).map Violation.position).Sublist
      ([1, 2, 3, 4, 5, 6, 7, 8, 9, 10, 11].map fun r => s.place ++ [r]) := by
  simp only [object, List.map_append]
  exact (((((number_positions s .width _).append (number_positions s .height _)).append
    (box_positions s _)).append (number_positions s .size _)).append
    (number_positions s .doctop _)).append (number_positions s .linewidth _)

theorem own_positions (i : Nat) (p : PageRecord) :
    ((own i p).map Violation.position).Sublist
      ([0, 1, 2, 3, 4, 5, 6, 7, 8, 9, 10, 11].map fun r => [i, 0, 0] ++ [r]) := by
  have hnumbering : (List.map Violation.position (if p.pageNumber = i then []
      else [⟨{ page := i }, .pageNumber i p.pageNumber⟩])).Sublist [[i, 0, 0] ++ [0]] := by
    split
    next => exact List.nil_sublist _
    next => exact List.Sublist.refl _
  unfold own
  rw [List.map_append]
  exact hnumbering.append (object_positions { page := i } _)

/-- Findings whose positions are all below one place stand in order if the last parts of the
positions do. -/
theorem pairwise_of_positions {vs : List Violation} {place : List Nat} {ranks : List Nat}
    (h : (vs.map Violation.position).Sublist (ranks.map fun r => place ++ [r]))
    (hranks : ranks.Pairwise (· < ·)) : vs.Pairwise fun v w => v.position < w.position := by
  refine List.pairwise_map.mp (List.Pairwise.sublist h (List.pairwise_map.mpr ?_))
  exact hranks.imp fun hlt => List.append_left_lt (List.cons_lt_cons_iff.mpr (.inl hlt))

theorem object_sorted (s : Spot) (f : Measure → Option Binary64) :
    (object s f).Pairwise fun v w => v.position < w.position :=
  pairwise_of_positions (object_positions s f) (by decide)

theorem own_sorted (i : Nat) (p : PageRecord) :
    (own i p).Pairwise fun v w => v.position < w.position :=
  pairwise_of_positions (own_positions i p) (by decide)

theorem place_of_mem_object {f : Measure → Option Binary64} (h : v ∈ object s f) :
    v.spot.place = s.place := by
  rcases mem_object.mp h with ⟨m, x, -, -, rfl⟩ | ⟨x, y, -, -, -, rfl⟩ | ⟨x, y, -, -, -, rfl⟩ <;> rfl

theorem place_of_mem_own {i : Nat} {p : PageRecord} (h : v ∈ own i p) :
    v.spot.place = [i, 0, 0] := by
  rcases List.mem_append.mp h with h | h
  · split at h
    next => cases h
    next =>
      cases List.mem_singleton.mp h
      rfl
  · exact place_of_mem_object h

theorem place_of_mem_items {i : Nat} {c : Collection} {fs : List (Measure → Option Binary64)}
    (h : v ∈ items i c object fs) : ∃ j, v.spot.place = [i, c.rank, j] := by
  obtain ⟨j, f, -, hv⟩ := mem_items_object.mp h
  exact ⟨j, place_of_mem_object hv⟩

theorem place_of_mem_page {i : Nat} {p : PageRecord} (h : v ∈ page i p) :
    ∃ b c, v.spot.place = [i, b, c] := by
  rcases mem_page.mp h with ⟨-, rfl⟩ | ⟨item, hv⟩
  · exact ⟨0, 0, rfl⟩
  · cases item with
    | none => exact ⟨0, 0, place_of_mem_object hv⟩
    | some item => exact ⟨item.1.rank, item.2, place_of_mem_object hv⟩

end Lint

theorem Spot.exists_position (s : Spot) (k : Breach.Kind) : ∃ r, s.position k = s.place ++ [r] := by
  cases k <;> exact ⟨_, rfl⟩

/-- Of two findings at different places the one at the earlier place comes first. -/
theorem Violation.position_lt_of_place {v w : Violation} {a b c a' b' c' : Nat}
    (hv : v.spot.place = [a, b, c]) (hw : w.spot.place = [a', b', c'])
    (h : a < a' ∨ a = a' ∧ (b < b' ∨ b = b' ∧ c < c')) : v.position < w.position := by
  obtain ⟨r, hr⟩ := v.spot.exists_position v.breach.kind
  obtain ⟨r', hr'⟩ := w.spot.exists_position w.breach.kind
  unfold position
  rw [hr, hr', hv, hw]
  simp only [List.cons_append, List.cons_lt_cons_iff]
  omega

theorem pairwise_zipIdx {α : Type} (xs : List α) : xs.zipIdx.Pairwise fun a b => a.2 < b.2 :=
  List.pairwise_map.mp (List.zipIdx_map_snd 0 xs ▸ List.pairwise_lt_range' 1)

namespace Lint

theorem items_sorted (i : Nat) (c : Collection) (fs : List (Measure → Option Binary64)) :
    (items i c object fs).Pairwise fun v w => v.position < w.position := by
  refine List.pairwise_flatMap.mpr ⟨fun _ _ => object_sorted _ _, ?_⟩
  refine (pairwise_zipIdx fs).imp fun hlt v hv w hw => ?_
  exact Violation.position_lt_of_place (place_of_mem_object hv) (place_of_mem_object hw)
    (.inr ⟨rfl, .inr ⟨rfl, hlt⟩⟩)

theorem page_sorted (i : Nat) (p : PageRecord) :
    (page i p).Pairwise fun v w => v.position < w.position := by
  have hcollections : Collection.all.Pairwise fun c c' => c.rank < c'.rank := by decide
  rw [page_eq]
  refine List.pairwise_append.mpr ⟨own_sorted i p, List.pairwise_flatMap.mpr
    ⟨fun c _ => items_sorted i c _, hcollections.imp fun hlt v hv w hw => ?_⟩, fun v hv w hw => ?_⟩
  · obtain ⟨j, hj⟩ := place_of_mem_items hv
    obtain ⟨k, hk⟩ := place_of_mem_items hw
    exact Violation.position_lt_of_place hj hk (.inr ⟨rfl, .inl hlt⟩)
  · obtain ⟨c, -, hw⟩ := List.mem_flatMap.mp hw
    obtain ⟨j, hj⟩ := place_of_mem_items hw
    have hpositive : 0 < c.rank := by cases c <;> decide
    exact Violation.position_lt_of_place (place_of_mem_own hv) hj (.inr ⟨rfl, .inl hpositive⟩)

end Lint

namespace Document

theorem number?_of_page {d : Document} {i : Nat} {p : PageRecord} (hp : d.pages[i]? = some p)
    {item : Option (Collection × Nat)} {m : Measure} :
    d.number? ⟨i, item, some m⟩ = p.number? item m := by
  unfold number?
  rw [hp]
  rfl

/-- The lint finds all that is broken, and only that. -/
theorem mem_violations_iff (d : Document) {v : Violation} :
    v ∈ d.violations ↔ d.Breaks v.spot v.breach := by
  have hpages : v ∈ d.violations ↔ ∃ i p, d.pages[i]? = some p ∧ v ∈ Lint.page i p := by
    simp only [violations, List.mem_flatMap, Prod.exists, List.mk_mem_zipIdx_iff_getElem?]
    constructor
    · rintro ⟨p, i, hp, hv⟩
      exact ⟨i, p, hp, hv⟩
    · rintro ⟨i, p, hp, hv⟩
      exact ⟨p, i, hp, hv⟩
  simp only [hpages, Lint.mem_page, Lint.mem_object]
  constructor
  · rintro ⟨i, p, hp, ⟨hnumber, rfl⟩ | ⟨item, hv⟩⟩
    · exact .pageNumber hp hnumber
    · simp only [← number?_of_page hp] at hv
      rcases hv with ⟨m, x, hx, hplaces, rfl⟩ | ⟨x, y, hx, hy, hlt, rfl⟩ | ⟨x, y, hx, hy, hlt, rfl⟩
      · exact .precision hx hplaces
      · exact .invertedX hx hy hlt
      · exact .invertedY hx hy hlt
  · obtain ⟨⟨page, item, measure⟩, breach⟩ := v
    intro h
    cases h with
    | precision hx hplaces =>
      obtain ⟨p, m, hp, rfl, hx⟩ := d.number?_eq_some_iff.mp hx
      exact ⟨page, p, hp, .inr ⟨item, .inl ⟨m, _, hx, hplaces, rfl⟩⟩⟩
    | invertedX hx hy hlt =>
      obtain ⟨p, _, hp, -⟩ := d.number?_eq_some_iff.mp hx
      rw [number?_of_page hp] at hx hy
      exact ⟨page, p, hp, .inr ⟨item, .inr (.inl ⟨_, _, hx, hy, hlt, rfl⟩)⟩⟩
    | invertedY hx hy hlt =>
      obtain ⟨p, _, hp, -⟩ := d.number?_eq_some_iff.mp hx
      rw [number?_of_page hp] at hx hy
      exact ⟨page, p, hp, .inr ⟨item, .inr (.inr ⟨_, _, hx, hy, hlt, rfl⟩)⟩⟩
    | pageNumber hp hnumber => exact ⟨_, _, hp, .inl ⟨hnumber, rfl⟩⟩

/-- The findings are listed in the order in which the document is written. -/
theorem violations_sorted (d : Document) :
    d.violations.Pairwise fun v w => v.position < w.position := by
  refine List.pairwise_flatMap.mpr ⟨fun _ _ => Lint.page_sorted _ _, ?_⟩
  refine (pairwise_zipIdx d.pages).imp fun hlt v hv w hw => ?_
  obtain ⟨b, c, hplace⟩ := Lint.place_of_mem_page hv
  obtain ⟨b', c', hplace'⟩ := Lint.place_of_mem_page hw
  exact Violation.position_lt_of_place hplace hplace' (.inl hlt)

/-- No two findings are of the same kind and have the same place written to them. -/
theorem violations_nodup (d : Document) :
    (d.violations.map fun v => (v.spot.text, v.breach.kind)).Nodup := by
  refine List.pairwise_map.mpr (d.violations_sorted.imp fun {v w} hlt heq => ?_)
  obtain ⟨htext, hkind⟩ := Prod.mk.inj heq
  have hsame : v.position = w.position := by
    unfold Violation.position
    rw [Spot.text_inj htext, hkind]
  exact List.lt_irrefl _ (hsame ▸ hlt)

/-- A number at a spot is a number of the full form, and no page number. -/
theorem exists_hasNumber {d : Document} {s : Spot} {v : Binary64} (hv : d.number? s = some v)
    (hplaces : 4 < Coordinate.decimalPlaces v) :
    ∃ path n, HasNumber n path (d.toJson .full) ∧ path.getLast? ≠ some (.key "page_number") ∧
      n.toBinary64 = v := by
  obtain ⟨p, m, hp, hm, -⟩ := d.number?_eq_some_iff.mp hv
  have hpath : s.path = (.key "pages" :: .index s.page :: Spot.itemPath s.item) ++ [.key m.name] := by
    simp [Spot.path, Spot.measurePath, hm]
  have hname : m.name ≠ "page_number" := by cases m <;> decide
  cases v with
  | finite x =>
    refine ⟨s.path, .real x, d.hasNumber_toJson.mpr (.inr ⟨s, x, rfl, hv, rfl⟩), ?_, rfl⟩
    rw [hpath, List.getLast?_concat]
    simpa using hname
  | infinite b => cases hplaces
  | nan => cases hplaces

theorem violations_eq_nil_iff (d : Document) : d.violations = [] ↔ d.KeepsRules := by
  have hnone : d.violations = [] ↔ ∀ s b, ¬ d.Breaks s b := by
    rw [List.eq_nil_iff_forall_not_mem]
    constructor
    · exact fun h s b hbreaks => h ⟨s, b⟩ (d.mem_violations_iff.mpr hbreaks)
    · exact fun h v hv => h _ _ (d.mem_violations_iff.mp hv)
  rw [hnone]
  constructor
  · intro h
    refine ⟨fun path n hn hlast => ?_, fun hx0 hx1 => ?_, fun htop hbottom => ?_, fun hp => ?_⟩
    · rcases d.hasNumber_toJson.mp hn with ⟨i, p, rfl, -, -⟩ | ⟨s, x, -, hx, rfl⟩
      · exact absurd rfl hlast
      · exact Nat.not_lt.mp fun hplaces => h _ _ (.precision hx hplaces)
    · exact Bool.eq_false_iff.mpr fun hlt => h _ _ (.invertedX hx0 hx1 hlt)
    · exact Bool.eq_false_iff.mpr fun hlt => h _ _ (.invertedY htop hbottom hlt)
    · exact Classical.byContradiction fun hnumber => h _ _ (.pageNumber hp hnumber)
  · intro h s b hbreaks
    cases hbreaks with
    | precision hv hplaces =>
      obtain ⟨path, n, hn, hlast, rfl⟩ := exists_hasNumber hv hplaces
      exact absurd hplaces (Nat.not_lt.mpr (h.numbers path n hn hlast))
    | invertedX hx0 hx1 hlt => exact absurd hlt (Bool.eq_false_iff.mp (h.boxesX hx0 hx1))
    | invertedY htop hbottom hlt => exact absurd hlt (Bool.eq_false_iff.mp (h.boxesY htop hbottom))
    | pageNumber hp hnumber => exact hnumber (h.pages hp)

/-- The lint is exact. Its findings are what is broken, in the order in which the document is
written; a finding is told by the text of its spot and its kind, which no other finding has; the text
of a spot is the path to it, and all numbers of the full form but those of the pages stand at spots.
So nothing is found just where the document keeps to the rules. -/
theorem violations_exact (d : Document) :
    (∀ v, v ∈ d.violations ↔ d.Breaks v.spot v.breach) ∧
    d.violations.Pairwise (fun v w => v.position < w.position) ∧
    (d.violations.map fun v => (v.spot.text, v.breach.kind)).Nodup ∧
    (∀ s : Spot, '.' :: s.text.toList = pathChars s.path) ∧
    (∀ path n, HasNumber n path (d.toJson .full) ↔
      (∃ i p, path = [.key "pages", .index i, .key "page_number"] ∧ d.pages[i]? = some p ∧
        n = .ofNat p.pageNumber) ∨
      ∃ s x, path = s.path ∧ d.number? s = some (.finite x) ∧ n = .real x) ∧
    (d.violations = [] ↔ d.KeepsRules) :=
  ⟨fun _ => d.mem_violations_iff, d.violations_sorted, d.violations_nodup, Spot.text_eq,
    fun _ _ => d.hasNumber_toJson, d.violations_eq_nil_iff⟩

/-- One object may have several findings, and a page may be out of place with nothing on it. -/
example :
    let glyph : CharRecord :=
      { text := "x", x0 := some (.ofDecimal false 5123456 (-6)), top := some (.ofInt 1)
        x1 := some (.ofInt 2), bottom := some (.ofInt 2), fontname := ""
        size := some (.ofInt 10), doctop := none, upright := true }
    let page (number : Nat) (chars : List CharRecord) : PageRecord :=
      { pageNumber := number, width := some (.ofInt 612), height := some (.ofInt 792), chars
        words := [], text := "", lines := [], rects := [], tables := [] }
    let d : Document :=
      { source := "a.pdf", extractorVersion := "1", pages := [page 0 [glyph], page 2 []] }
    d.violations.map (fun v => (v.spot.text, v.breach.kind)) =
      [("pages[0].chars[0].x0", .precision), ("pages[0].chars[0]", .invertedX),
        ("pages[1]", .pageNumber)] := by
  decide +kernel

end Document

end GoldenRecord

import GoldenRecord.Lint
import GoldenRecord.Proofs.Json.Literal

namespace GoldenRecord

namespace Json

/-- One step down into a container. -/
inductive Step where
  | index (i : Nat)
  | key (name : String)
deriving DecidableEq, Repr

namespace Step

def chars : Step → List Char
  | .index i => '[' :: (Nat.toDigits 10 i ++ [']'])
  | .key name => '.' :: name.toList

/-- The characters that do not start a step. -/
def isInner (c : Char) : Bool := c != '.' && c != '['

def IsPlain : Step → Prop
  | .index _ => True
  | .key name => name.toList.all isInner = true

instance : (s : Step) → Decidable s.IsPlain
  | .index _ => inferInstanceAs (Decidable True)
  | .key _ => inferInstanceAs (Decidable (_ = true))

end Step

/-- A path as text, the first key marked by a point as well. -/
def pathChars (path : List Step) : List Char := path.flatMap Step.chars

theorem pathChars_cons (s : Step) (path : List Step) :
    pathChars (s :: path) = s.chars ++ pathChars path := List.flatMap_cons

theorem pathChars_append (path path' : List Step) :
    pathChars (path ++ path') = pathChars path ++ pathChars path' := List.flatMap_append

theorem pathChars_head (path : List Step) : ∀ c ∈ (pathChars path).head?, Step.isInner c = false := by
  intro c hc
  cases path with
  | nil => cases hc
  | cons s path =>
    rw [pathChars_cons] at hc
    cases s with
    | index i => cases hc; rfl
    | key name => cases hc; rfl

/-- There is one place where the characters of a class come to their end. -/
theorem append_inj_of_class {p : Char → Bool} {xs ys rest rest' : List Char}
    (hxs : ∀ c ∈ xs, p c = true) (hys : ∀ c ∈ ys, p c = true)
    (hrest : ∀ c ∈ rest.head?, p c = false) (hrest' : ∀ c ∈ rest'.head?, p c = false)
    (h : xs ++ rest = ys ++ rest') : xs = ys ∧ rest = rest' := by
  have hstop : ∀ {zs : List Char}, (∀ c ∈ zs.head?, p c = false) → zs.takeWhile p = [] := by
    intro zs hzs
    cases zs with
    | nil => rfl
    | cons z zs => exact List.takeWhile_cons_of_neg (by simp [hzs z rfl])
  have htake : xs = ys := by
    have hboth := congrArg (List.takeWhile p) h
    rwa [List.takeWhile_append_of_pos hxs, List.takeWhile_append_of_pos hys, hstop hrest,
      hstop hrest', List.append_nil, List.append_nil] at hboth
  subst htake
  exact ⟨rfl, List.append_cancel_left h⟩

theorem toDigits_inj {i j : Nat} (h : Nat.toDigits 10 i = Nat.toDigits 10 j) : i = j := by
  rw [← Nat.ofDigitChars_ten_toDigits (n := i), h, Nat.ofDigitChars_ten_toDigits]

/-- A step can be told from the text of a path that starts with it. -/
theorem Step.chars_append_inj {s s' : Step} {path path' : List Step} (hs : s.IsPlain)
    (hs' : s'.IsPlain) (h : s.chars ++ pathChars path = s'.chars ++ pathChars path') :
    s = s' ∧ pathChars path = pathChars path' := by
  cases s with
  | index i =>
    cases s' with
    | index j =>
      have htail := (List.cons.inj h).2
      simp only [List.append_eq, List.append_assoc, List.singleton_append] at htail
      obtain ⟨hdigits, hrest⟩ := append_inj_of_class (Bytes.areDigits_toDigits i)
        (Bytes.areDigits_toDigits j) (by simp) (by simp) htail
      exact ⟨congrArg index (toDigits_inj hdigits), (List.cons.inj hrest).2⟩
    | key name => cases h
  | key name =>
    cases s' with
    | index j => cases h
    | key name' =>
      obtain ⟨hname, hrest⟩ := append_inj_of_class (List.all_eq_true.mp hs)
        (List.all_eq_true.mp hs') (pathChars_head path) (pathChars_head path') (List.cons.inj h).2
      exact ⟨congrArg key (String.toList_injective hname), hrest⟩

/-- A path of plain steps is determined by its text. -/
theorem pathChars_inj {path path' : List Step} (hpath : ∀ s ∈ path, s.IsPlain)
    (hpath' : ∀ s ∈ path', s.IsPlain) (h : pathChars path = pathChars path') : path = path' := by
  -- on the first path; a step ends where no inner character follows, so both paths lose the same one
  induction path generalizing path' with
  | nil =>
    cases path' with
    | nil => rfl
    | cons s' path' => cases s' <;> cases h
  | cons s path ih =>
    cases path' with
    | nil => cases s <;> cases h
    | cons s' path' =>
      rw [List.forall_mem_cons] at hpath hpath'
      rw [pathChars_cons, pathChars_cons] at h
      obtain ⟨rfl, hrest⟩ := Step.chars_append_inj hpath.1 hpath'.1 h
      rw [ih hpath.2 hpath'.2 hrest]

end Json

namespace Collection

/-- From an object down to its numbers. -/
def boxPath : Collection → List Json.Step
  | .tables => [.key "bbox"]
  | _ => []

theorem name_inj {c c' : Collection} (h : c.name = c'.name) : c = c' := by
  cases c <;> cases c' <;> first | rfl | exact absurd h (by decide)

theorem isPlain_name (c : Collection) : (Json.Step.key c.name).IsPlain := by
  cases c <;> decide

theorem isPlain_boxPath (c : Collection) : ∀ s ∈ c.boxPath, s.IsPlain := by
  cases c <;> decide

theorem toList_suffix (c : Collection) : c.suffix.toList = Json.pathChars c.boxPath := by
  cases c <;> decide

end Collection

namespace Measure

theorem name_inj {m m' : Measure} (h : m.name = m'.name) : m = m' := by
  cases m <;> cases m' <;> first | rfl | exact absurd h (by decide)

theorem isPlain_name (m : Measure) : (Json.Step.key m.name).IsPlain := by
  cases m <;> decide

end Measure

namespace Spot

open Json (Step pathChars pathChars_cons pathChars_append)

def itemPath : Option (Collection × Nat) → List Step
  | some (c, j) => .key c.name :: .index j :: c.boxPath
  | none => []

def measurePath : Option Measure → List Step
  | some m => [.key m.name]
  | none => []

/-- The way down from the root of a document in its full form. -/
def path (s : Spot) : List Step :=
  .key "pages" :: .index s.page :: (itemPath s.item ++ measurePath s.measure)

theorem toList_item (c : Collection) (j : Nat) :
    ("." ++ c.name ++ "[" ++ toString j ++ "]" ++ c.suffix).toList =
      pathChars (itemPath (some (c, j))) := by
  simp [itemPath, pathChars_cons, Step.chars, Collection.toList_suffix]

theorem toList_measure (m : Measure) :
    ("." ++ m.name).toList = pathChars (measurePath (some m)) := by
  simp [measurePath, Step.chars, pathChars]

theorem text_eq (s : Spot) : '.' :: s.text.toList = pathChars s.path := by
  obtain ⟨page, item, measure⟩ := s
  have hroot : ∀ (itemText measureText : String), itemText.toList = pathChars (itemPath item) →
      measureText.toList = pathChars (measurePath measure) →
      '.' :: ("pages[" ++ toString page ++ "]" ++ itemText ++ measureText).toList =
        pathChars (path ⟨page, item, measure⟩) := by
    intro itemText measureText hitem hmeasure
    simp [path, pathChars_cons, pathChars_append, Step.chars, hitem, hmeasure]
  cases item with
  | none =>
    cases measure with
    | none => exact hroot "" "" rfl rfl
    | some m => exact hroot "" _ rfl (toList_measure m)
  | some item =>
    cases measure with
    | none => exact hroot _ "" (toList_item item.1 item.2) rfl
    | some m => exact hroot _ _ (toList_item item.1 item.2) (toList_measure m)

theorem itemPath_append_inj {item item' : Option (Collection × Nat)} {m m' : Option Measure}
    (h : itemPath item ++ measurePath m = itemPath item' ++ measurePath m') :
    item = item' ∧ measurePath m = measurePath m' := by
  have hshort : ∀ {c : Collection} {j : Nat} {rest : List Step} {m : Option Measure},
      measurePath m ≠ .key c.name :: .index j :: rest := by
    intro c j rest m hm
    cases m with
    | none => cases hm
    | some m => cases (List.cons.inj hm).2
  cases item with
  | none =>
    cases item' with
    | none => exact ⟨rfl, h⟩
    | some item' => exact absurd h hshort
  | some item =>
    cases item' with
    | none => exact absurd h.symm hshort
    | some item' =>
      obtain ⟨c, j⟩ := item
      obtain ⟨c', j'⟩ := item'
      obtain ⟨hc, htail⟩ := List.cons.inj h
      obtain ⟨hj, hrest⟩ := List.cons.inj htail
      obtain rfl := Collection.name_inj (Step.key.inj hc)
      obtain rfl := Step.index.inj hj
      exact ⟨rfl, List.append_cancel_left hrest⟩

theorem measurePath_inj {m m' : Option Measure} (h : measurePath m = measurePath m') : m = m' := by
  cases m with
  | none =>
    cases m' with
    | none => rfl
    | some m' => cases h
  | some m =>
    cases m' with
    | none => cases h
    | some m' =>
      have hname : m.name = m'.name := by simpa [measurePath] using h
      rw [Measure.name_inj hname]

theorem path_inj {s s' : Spot} (h : s.path = s'.path) : s = s' := by
  obtain ⟨page, item, m⟩ := s
  obtain ⟨page', item', m'⟩ := s'
  obtain ⟨hpage, hrest⟩ := List.cons.inj (List.cons.inj h).2
  obtain ⟨hitem, hm⟩ := itemPath_append_inj hrest
  exact (Spot.mk.injEq ..).mpr ⟨Step.index.inj hpage, hitem, measurePath_inj hm⟩

theorem isPlain_path (s : Spot) : ∀ step ∈ s.path, step.IsPlain := by
  obtain ⟨page, item, measure⟩ := s
  have hitem : ∀ step ∈ itemPath item, step.IsPlain := by
    cases item with
    | none => exact fun _ h => absurd h List.not_mem_nil
    | some item =>
      exact List.forall_mem_cons.mpr ⟨item.1.isPlain_name,
        List.forall_mem_cons.mpr ⟨trivial, item.1.isPlain_boxPath⟩⟩
  have hmeasure : ∀ step ∈ measurePath measure, step.IsPlain := by
    cases measure with
    | none => exact fun _ h => absurd h List.not_mem_nil
    | some m => exact List.forall_mem_singleton.mpr m.isPlain_name
  have hpages : (Step.key "pages").IsPlain := by decide
  exact List.forall_mem_cons.mpr ⟨hpages, List.forall_mem_cons.mpr ⟨trivial,
    List.forall_mem_append.mpr ⟨hitem, hmeasure⟩⟩⟩

theorem text_inj {s s' : Spot} (h : s.text = s'.text) : s = s' := by
  have hchars : pathChars s.path = pathChars s'.path := by rw [← text_eq, ← text_eq, h]
  exact path_inj (Json.pathChars_inj s.isPlain_path s'.isPlain_path hchars)

end Spot

end GoldenRecord

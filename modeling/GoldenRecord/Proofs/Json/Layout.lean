import GoldenRecord.Proofs.Json.Reread
import GoldenRecord.Proofs.Json.Written

namespace GoldenRecord

namespace Json

open Bytes Reading

mutual

def reals : Json → List Finite
  | .number (.real x) => [x]
  | .array items => realsItems items
  | .object members => realsMembers members
  | _ => []

def realsItems : List Json → List Finite
  | [] => []
  | j :: rest => j.reals ++ realsItems rest

def realsMembers : List (String × Json) → List Finite
  | [] => []
  | (_, j) :: rest => j.reals ++ realsMembers rest

end

/-- The blanks between the tokens of a written value: before an item or a key of a container at a
level, before the end of that container if it is not empty, and behind a colon. -/
structure Layout where
  item : Nat → List Char
  closing : Nat → List Char
  colon : List Char

namespace Layout

def compact : Layout := ⟨fun _ => [], fun _ => [], []⟩

def indented : Layout := ⟨fun level => lineBreak (level + 1), lineBreak, [' ']⟩

variable (L : Layout)

mutual

def chars (level : Nat) : Json → List Char
  | .array items => '[' :: itemChars level true items
  | .object members => '\x7b' :: memberChars level true members
  | j => j.compactChars

def itemChars (level : Nat) (first : Bool) : List Json → List Char
  | [] => (if first then [] else L.closing level) ++ [']']
  | j :: rest =>
    (if first then [] else [',']) ++
      (L.item level ++ (chars (level + 1) j ++ itemChars level false rest))

def memberChars (level : Nat) (first : Bool) : List (String × Json) → List Char
  | [] => (if first then [] else L.closing level) ++ ['\x7d']
  | (key, j) :: rest =>
    (if first then [] else [',']) ++
      (L.item level ++ (quoted key ++ ':' ::
        (L.colon ++ (chars (level + 1) j ++ memberChars level false rest))))

end

mutual

theorem compact_chars (level : Nat) : (j : Json) → compact.chars level j = j.compactChars
  | .null | .bool _ | .number _ | .string _ => rfl
  | .array items => congrArg ('[' :: ·) (compact_itemChars level items)
  | .object members => congrArg ('\x7b' :: ·) (compact_memberChars level members)

theorem compact_itemChars (level : Nat) : (items : List Json) →
    compact.itemChars level true items = compactItems items
  | [] => rfl
  | [j] => congrArg (· ++ [']']) (compact_chars (level + 1) j)
  | j :: k :: rest => by
    have hrest := compact_itemChars level (k :: rest)
    change compact.chars (level + 1) j ++ ',' :: compact.itemChars level true (k :: rest) = _
    rw [hrest, compact_chars (level + 1) j]
    rfl

theorem compact_memberChars (level : Nat) : (members : List (String × Json)) →
    compact.memberChars level true members = compactMembers members
  | [] => rfl
  | [(key, j)] =>
    congrArg (fun cs => quoted key ++ ':' :: (cs ++ ['\x7d'])) (compact_chars (level + 1) j)
  | (key, j) :: m :: rest => by
    have hrest := compact_memberChars level (m :: rest)
    change quoted key ++ ':' ::
      (compact.chars (level + 1) j ++ ',' :: compact.memberChars level true (m :: rest)) = _
    rw [hrest, compact_chars (level + 1) j]
    rfl

end

mutual

theorem indented_chars (level : Nat) : (j : Json) → indented.chars level j = j.prettyChars level
  | .null | .bool _ | .number _ | .string _ => rfl
  | .array [] | .object [] => rfl
  | .array (j :: rest) => congrArg ('[' :: ·) (indented_itemChars level (j :: rest))
  | .object (m :: rest) => congrArg ('\x7b' :: ·) (indented_memberChars level (m :: rest))

theorem indented_itemChars (level : Nat) : (items : List Json) →
    indented.itemChars level true items = prettyItems level items
  | [] => rfl
  | [j] =>
    congrArg (fun cs => lineBreak (level + 1) ++ (cs ++ (lineBreak level ++ [']'])))
      (indented_chars (level + 1) j)
  | j :: k :: rest => by
    have hrest := indented_itemChars level (k :: rest)
    change lineBreak (level + 1) ++
      (indented.chars (level + 1) j ++ ',' :: indented.itemChars level true (k :: rest)) = _
    rw [hrest, indented_chars (level + 1) j]
    rfl

theorem indented_memberChars (level : Nat) : (members : List (String × Json)) →
    indented.memberChars level true members = prettyMembers level members
  | [] => rfl
  | [(key, j)] =>
    congrArg
      (fun cs => lineBreak (level + 1) ++ (quoted key ++ ':' :: ' ' ::
        (cs ++ (lineBreak level ++ ['\x7d']))))
      (indented_chars (level + 1) j)
  | (key, j) :: m :: rest => by
    have hrest := indented_memberChars level (m :: rest)
    change lineBreak (level + 1) ++ (quoted key ++ ':' :: ' ' ::
      (indented.chars (level + 1) j ++ ',' :: indented.memberChars level true (m :: rest))) = _
    rw [hrest, indented_chars (level + 1) j]
    rfl

end

def AreBlanks (cs : List Char) : Prop := ∀ c ∈ cs, c = ' ' ∨ c = '\n'

structure IsBlank (L : Layout) : Prop where
  item : ∀ level, AreBlanks (L.item level)
  closing : ∀ level, AreBlanks (L.closing level)
  colon : AreBlanks L.colon

theorem areBlanks_nil : AreBlanks [] := fun _ hc => absurd hc List.not_mem_nil

theorem areBlanks_lineBreak (level : Nat) : AreBlanks (lineBreak level) := by
  intro c hc
  rcases List.mem_cons.mp hc with rfl | hc
  · exact .inr rfl
  · exact .inl (List.eq_of_mem_replicate hc)

theorem compact_isBlank : compact.IsBlank :=
  ⟨fun _ => areBlanks_nil, fun _ => areBlanks_nil, areBlanks_nil⟩

theorem indented_isBlank : indented.IsBlank :=
  ⟨fun level => areBlanks_lineBreak (level + 1), areBlanks_lineBreak, fun _ hc =>
    .inl (List.mem_singleton.mp hc)⟩

variable {L}

theorem AreBlanks.isGap {cs : List Char} (h : AreBlanks cs) : Written.IsGap (ofChars cs) := by
  intro b hb
  obtain ⟨c, hc, hbc⟩ := List.mem_flatMap.mp hb
  rcases h c hc with rfl | rfl <;> cases List.mem_singleton.mp hbc <;> rfl

theorem isSeparator_item (hL : L.IsBlank) (level : Nat) (first : Bool) :
    Written.IsSeparator first
      (ofChars (if first then [] else [',']) ++ ofChars (L.item level)) := by
  cases first with
  | true => exact .first (hL.item level).isGap
  | false => exact .next (fun b hb => absurd hb List.not_mem_nil) (hL.item level).isGap

theorem isGap_closing (hL : L.IsBlank) (level : Nat) (first : Bool) :
    Written.IsGap (ofChars (if first then [] else L.closing level)) := by
  cases first with
  | true => exact areBlanks_nil.isGap
  | false => exact (hL.closing level).isGap

mutual

/-- A value that is laid out is written so that it is read back. -/
theorem exists_written (hL : L.IsBlank) (level : Nat) : (j : Json) → ∃ w : Written,
    w.reading = j.reread.reading ∧ Written.IsValueText w (ofChars (L.chars level j))
  | .null => ⟨.null, rfl, .null⟩
  | .bool true => ⟨.bool true, rfl, .true⟩
  | .bool false => ⟨.bool false, rfl, .false⟩
  | .number n => by
    obtain ⟨token, hbytes, hnumber⟩ := n.exists_token
    refine ⟨.number token, congrArg Reading.number hnumber, ?_⟩
    have htext := Written.IsValueText.number token
    rw [hbytes] at htext
    exact htext
  | .string s => by
    refine ⟨.string (.ofText s), congrArg Reading.string (StringToken.text_ofText s), ?_⟩
    have htext := Written.IsValueText.string (.ofText s)
    rw [StringToken.bytes_ofText] at htext
    exact htext
  | .array items => by
    obtain ⟨ws, hreading, htext⟩ := exists_writtenItems hL level true items
    exact ⟨.array ws, congrArg (Reading.array · none) hreading, .array htext⟩
  | .object members => by
    obtain ⟨ws, hreading, htext⟩ := exists_writtenMembers hL level true members
    exact ⟨.object ws, congrArg (Reading.object · none) hreading, .object htext⟩

theorem exists_writtenItems (hL : L.IsBlank) (level : Nat) (first : Bool) :
    (items : List Json) → ∃ ws,
    Written.readingItems ws = readingItems (mapNumbersItems Number.reread items) ∧
      Written.AreItemsText first ws (ofChars (L.itemChars level first items))
  | [] => by
    refine ⟨[], rfl, ?_⟩
    rw [itemChars, ofChars_append]
    exact .nil (isGap_closing hL level first)
  | j :: items => by
    obtain ⟨w, hvalue, hw⟩ := exists_written hL (level + 1) j
    obtain ⟨ws, hitems, hws⟩ := exists_writtenItems hL level false items
    refine ⟨w :: ws, congr (congrArg List.cons hvalue) hitems, ?_⟩
    have htext : ofChars (L.itemChars level first (j :: items)) =
        ofChars (if first then [] else [',']) ++ ofChars (L.item level) ++
          (ofChars (L.chars (level + 1) j) ++ ofChars (L.itemChars level false items)) := by
      simp only [itemChars, ofChars_append, List.append_assoc]
    rw [htext]
    exact .cons (isSeparator_item hL level first) hw hws

theorem exists_writtenMembers (hL : L.IsBlank) (level : Nat) (first : Bool) :
    (members : List (String × Json)) → ∃ ws,
    Written.readingMembers ws = readingMembers (mapNumbersMembers Number.reread members) ∧
      Written.AreMembersText first ws (ofChars (L.memberChars level first members))
  | [] => by
    refine ⟨[], rfl, ?_⟩
    rw [memberChars, ofChars_append]
    exact .nil (isGap_closing hL level first)
  | (key, j) :: members => by
    obtain ⟨w, hvalue, hw⟩ := exists_written hL (level + 1) j
    obtain ⟨ws, hmembers, hws⟩ := exists_writtenMembers hL level false members
    have hkey : (StringToken.ofText key).text = .ok key := StringToken.text_ofText key
    refine ⟨(.ofText key, w) :: ws, congr (congrArg List.cons (Prod.ext hkey hvalue)) hmembers, ?_⟩
    have htext : ofChars (L.memberChars level first ((key, j) :: members)) =
        ofChars (if first then [] else [',']) ++ ofChars (L.item level) ++
          ((StringToken.ofText key).bytes ++ ([] ++ 58 :: (ofChars L.colon ++
            (ofChars (L.chars (level + 1) j) ++ ofChars (L.memberChars level false members))))) := by
      rw [StringToken.bytes_ofText]
      simp only [memberChars, ofChars_append, ofChars_cons, List.append_assoc, List.nil_append]
      rfl
    rw [htext]
    exact .cons (isSeparator_item hL level first) areBlanks_nil.isGap hL.colon.isGap hw hws

end

/-- The text of a value holds what that value is read to, and nothing else. -/
theorem ofBytes_chars (hL : L.IsBlank) (level : Nat) (j : Json) :
    Reading.ofBytes (ofChars (L.chars level j)) = (j.reread.reading, false) := by
  obtain ⟨w, hreading, hw⟩ := exists_written hL level j
  rw [← hreading]
  exact w.ofBytes_eq hw.isText

end Layout

mutual

theorem reread_eq : (j : Json) → (∀ x ∈ j.reals, x.IsReadNearest) → j.reread = j
  | .null, _ | .bool _, _ | .string _, _ => rfl
  | .number (.int _ _), _ => rfl
  | .number (.real x), h =>
    congrArg (fun y => Json.number (.real y)) (Finite.reread_of_isReadNearest (h x List.mem_cons_self))
  | .array items, h => congrArg Json.array (rereadItems_eq items h)
  | .object members, h => congrArg Json.object (rereadMembers_eq members h)

theorem rereadItems_eq : (items : List Json) → (∀ x ∈ realsItems items, x.IsReadNearest) →
    mapNumbersItems Number.reread items = items
  | [], _ => rfl
  | j :: rest, h => by
    have hj : j.mapNumbers Number.reread = j :=
      reread_eq j fun x hx => h x (List.mem_append_left _ hx)
    rw [mapNumbersItems, hj, rereadItems_eq rest fun x hx => h x (List.mem_append_right _ hx)]

theorem rereadMembers_eq : (members : List (String × Json)) →
    (∀ x ∈ realsMembers members, x.IsReadNearest) →
    mapNumbersMembers Number.reread members = members
  | [], _ => rfl
  | (key, j) :: rest, h => by
    have hj : j.mapNumbers Number.reread = j :=
      reread_eq j fun x hx => h x (List.mem_append_left _ hx)
    rw [mapNumbersMembers, hj, rereadMembers_eq rest fun x hx => h x (List.mem_append_right _ hx)]

end

theorem ofBytes_compact {j : Json} (h : ∀ x ∈ j.reals, x.IsReadNearest) :
    Reading.ofBytes (.ofText j.compact) = (j.reading, false) := by
  have htext : Bytes.ofText j.compact = ofChars (Layout.compact.chars 0 j) := by
    rw [compact, Layout.compact_chars, ofText, String.toList_ofList]
  rw [htext, Layout.ofBytes_chars Layout.compact_isBlank, j.reread_eq h]

/-- The indented form is read, with its doubles where reading takes them. -/
theorem ofBytes_pretty (j : Json) :
    Reading.ofBytes (.ofText j.pretty) = (j.reread.reading, false) := by
  have htext : Bytes.ofText j.pretty = ofChars (Layout.indented.chars 0 j) := by
    rw [pretty, Layout.indented_chars, ofText, String.toList_ofList]
  rw [htext]
  exact Layout.ofBytes_chars Layout.indented_isBlank 0 j

end Json

end GoldenRecord

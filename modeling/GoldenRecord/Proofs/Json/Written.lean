import GoldenRecord.Json.Reading
import GoldenRecord.Proofs.Json.Token

namespace GoldenRecord

namespace Json

open Bytes Reading

theorem readingItems_eq_map (items : List Json) : readingItems items = items.map reading := by
  induction items with
  | nil => rfl
  | cons j rest ih => rw [readingItems, ih, List.map_cons]

theorem readingMembers_eq_map (members : List (String × Json)) :
    readingMembers members = members.map fun m => (.ok m.1, m.2.reading) := by
  induction members with
  | nil => rfl
  | cons m rest ih => rw [readingMembers, ih, List.map_cons]

theorem skipBlank_token {b : UInt8} {text : Bytes} (h : Reading.isBlank b = false) :
    skipBlank (b :: text) = b :: text := by
  unfold skipBlank
  rw [List.dropWhile_cons_of_neg (by simp [h])]

/-- A byte that a value can begin with. -/
def BeginsValue (b : UInt8) : Prop :=
  b = 34 ∨ b = 91 ∨ b = 123 ∨ b = 110 ∨ b = 116 ∨ b = 102 ∨ b = 45 ∨ isDigit b = true

theorem BeginsValue.token {b : UInt8} (h : BeginsValue b) :
    Reading.isBlank b = false ∧ b ≠ 93 := by
  unfold BeginsValue at h
  rcases h with rfl | rfl | rfl | rfl | rfl | rfl | rfl | hdigit
  iterate 7 exact ⟨by decide, by decide⟩
  have hrange := isDigit_iff.mp hdigit
  refine ⟨?_, ?_⟩
  · simp only [Reading.isBlank, Bool.or_eq_false_iff, decide_eq_false_iff_not]
    refine ⟨⟨⟨?_, ?_⟩, ?_⟩, ?_⟩ <;> rintro rfl <;> exact absurd hrange (by decide)
  · rintro rfl
    exact absurd hrange (by decide)

/-- A value that begins like a number is the number at the head of the text. -/
theorem scanValue_numeral (fuel : Nat) {b : UInt8} {tail rest : Bytes}
    {value : Except Fault Number} (hb : b = 45 ∨ isDigit b = true)
    (hscan : scanNumber (b :: tail) = .ok (value, rest)) :
    scanValue (fuel + 1) (b :: tail) = (.number value, rest) := by
  have hvalue : BeginsValue b := by rcases hb with rfl | hb <;> simp [BeginsValue, *]
  have hother : b ≠ 34 ∧ b ≠ 91 ∧ b ≠ 123 ∧ b ≠ 110 ∧ b ≠ 116 ∧ b ≠ 102 := by
    rcases hb with rfl | hdigit
    · decide
    · have hrange := isDigit_iff.mp hdigit
      refine ⟨?_, ?_, ?_, ?_, ?_, ?_⟩ <;> rintro rfl <;> exact absurd hrange (by decide)
  obtain ⟨h34, h91, h123, h110, h116, h102⟩ := hother
  unfold scanValue
  rw [skipBlank_token hvalue.token.1]
  dsimp only
  rw [if_neg h34, if_neg h91, if_neg h123, if_neg h110, if_neg h116, if_neg h102, if_pos hb, hscan]

theorem endsNumber_cons {b : UInt8} {rest : Bytes}
    (h : isDigit b = false ∧ b ≠ 46 ∧ b ≠ 101 ∧ b ≠ 69) : EndsNumber (b :: rest) := by
  rintro a ⟨⟩
  exact h

/-- A value as it is written, without the blanks between its tokens. -/
inductive Written where
  | null
  | bool (b : Bool)
  | number (n : NumberToken)
  | string (s : StringToken)
  | array (items : List Written)
  | object (members : List (StringToken × Written))

namespace Written

mutual

def reading : Written → Reading
  | .null => .null
  | .bool b => .bool b
  | .number n => .number n.literal.number
  | .string s => .string s.text
  | .array items => .array (readingItems items) none
  | .object members => .object (readingMembers members) none

def readingItems : List Written → List Reading
  | [] => []
  | w :: rest => w.reading :: readingItems rest

def readingMembers : List (StringToken × Written) → List (Except Fault String × Reading)
  | [] => []
  | (key, w) :: rest => (key.text, w.reading) :: readingMembers rest

end

theorem readingItems_eq_map (items : List Written) : readingItems items = items.map reading := by
  induction items with
  | nil => rfl
  | cons w rest ih => rw [readingItems, ih, List.map_cons]

theorem readingMembers_eq_map (members : List (StringToken × Written)) :
    readingMembers members = members.map fun m => (m.1.text, m.2.reading) := by
  induction members with
  | nil => rfl
  | cons m rest ih => rw [readingMembers, ih, List.map_cons]

def IsGap (gap : Bytes) : Prop := ∀ b ∈ gap, Reading.isBlank b = true

instance (gap : Bytes) : Decidable (IsGap gap) :=
  decidable_of_iff (gap.all Reading.isBlank = true) List.all_eq_true

/-- What stands before an item: blanks, and a comma if it is not the first one. -/
inductive IsSeparator : Bool → Bytes → Prop
  | first {gap : Bytes} (h : IsGap gap) : IsSeparator true gap
  | next {before gap : Bytes} (hbefore : IsGap before) (h : IsGap gap) :
      IsSeparator false (before ++ 44 :: gap)

mutual

/-- A text of a value, with no blanks around it. -/
inductive IsValueText : Written → Bytes → Prop
  | null : IsValueText .null [110, 117, 108, 108]
  | true : IsValueText (.bool true) [116, 114, 117, 101]
  | false : IsValueText (.bool false) [102, 97, 108, 115, 101]
  | number (n : NumberToken) : IsValueText (.number n) n.bytes
  | string (s : StringToken) : IsValueText (.string s) s.bytes
  | array {items : List Written} {text : Bytes} (h : AreItemsText true items text) :
      IsValueText (.array items) (91 :: text)
  | object {members : List (StringToken × Written)} {text : Bytes}
      (h : AreMembersText true members text) : IsValueText (.object members) (123 :: text)

/-- A text of the items from the first one on, or of what follows an item, with the bracket at the
end. -/
inductive AreItemsText : Bool → List Written → Bytes → Prop
  | nil {first : Bool} {gap : Bytes} (hgap : IsGap gap) : AreItemsText first [] (gap ++ [93])
  | cons {first : Bool} {separator text more : Bytes} {w : Written} {items : List Written}
      (hseparator : IsSeparator first separator) (hw : IsValueText w text)
      (hmore : AreItemsText false items more) :
      AreItemsText first (w :: items) (separator ++ (text ++ more))

/-- A text of the members from the first one on, or of what follows a member, with the brace at the
end. -/
inductive AreMembersText : Bool → List (StringToken × Written) → Bytes → Prop
  | nil {first : Bool} {gap : Bytes} (hgap : IsGap gap) : AreMembersText first [] (gap ++ [125])
  | cons {first : Bool} {separator before after text more : Bytes} {key : StringToken}
      {w : Written} {members : List (StringToken × Written)}
      (hseparator : IsSeparator first separator) (hbefore : IsGap before) (hafter : IsGap after)
      (hw : IsValueText w text) (hmore : AreMembersText false members more) :
      AreMembersText first ((key, w) :: members)
        (separator ++ (key.bytes ++ (before ++ 58 :: (after ++ (text ++ more)))))

end

/-- A whole text that writes a value. -/
def IsText (w : Written) (b : Bytes) : Prop :=
  ∃ before text after, IsGap before ∧ w.IsValueText text ∧ IsGap after ∧
    b = before ++ (text ++ after)

variable {gap text rest : Bytes}

theorem skipBlank_gap (h : IsGap gap) (text : Bytes) : skipBlank (gap ++ text) = skipBlank text :=
  List.dropWhile_append_of_pos h

theorem scanValue_gap (h : IsGap gap) (fuel : Nat) (text : Bytes) :
    scanValue fuel (gap ++ text) = scanValue fuel text := by
  cases fuel with
  | zero => rfl
  | succ fuel =>
    unfold scanValue
    rw [skipBlank_gap h]

theorem endsNumber_gap (h : IsGap gap) (hrest : EndsNumber rest) : EndsNumber (gap ++ rest) := by
  cases gap with
  | nil => exact hrest
  | cons b gap =>
    have hb := h b List.mem_cons_self
    simp only [Reading.isBlank, Bool.or_eq_true, decide_eq_true_eq] at hb
    rcases hb with ((rfl | rfl) | rfl) | rfl <;> exact endsNumber_cons (by decide)

theorem AreItemsText.endsNumber {items : List Written} (h : AreItemsText false items text)
    (rest : Bytes) : EndsNumber (text ++ rest) := by
  cases h with
  | nil hgap =>
    rw [List.append_assoc]
    exact endsNumber_gap hgap (endsNumber_cons (by decide))
  | cons hseparator hw hmore =>
    cases hseparator with
    | next hbefore hgap =>
      rw [List.append_assoc, List.append_assoc]
      exact endsNumber_gap hbefore (endsNumber_cons (by decide))

theorem AreMembersText.endsNumber {members : List (StringToken × Written)}
    (h : AreMembersText false members text) (rest : Bytes) : EndsNumber (text ++ rest) := by
  cases h with
  | nil hgap =>
    rw [List.append_assoc]
    exact endsNumber_gap hgap (endsNumber_cons (by decide))
  | cons hseparator hbefore hafter hw hmore =>
    cases hseparator with
    | next hfirst hgap =>
      rw [List.append_assoc, List.append_assoc]
      exact endsNumber_gap hfirst (endsNumber_cons (by decide))

/-- A text of a value begins with a byte that a value can begin with. -/
theorem IsValueText.head {w : Written} (h : IsValueText w text) :
    ∃ b tail, text = b :: tail ∧ BeginsValue b := by
  cases h with
  | number n =>
    obtain ⟨b, tail, htext, hb⟩ := n.bytes_head
    exact ⟨b, tail, htext, by rcases hb with rfl | hb <;> simp [BeginsValue, *]⟩
  | null => exact ⟨110, _, rfl, by simp [BeginsValue]⟩
  | true => exact ⟨116, _, rfl, by simp [BeginsValue]⟩
  | false => exact ⟨102, _, rfl, by simp [BeginsValue]⟩
  | string s => exact ⟨34, _, rfl, by simp [BeginsValue]⟩
  | array h => exact ⟨91, _, rfl, by simp [BeginsValue]⟩
  | object h => exact ⟨123, _, rfl, by simp [BeginsValue]⟩

theorem IsValueText.length_pos {w : Written} (h : IsValueText w text) : 0 < text.length := by
  obtain ⟨b, tail, rfl, -⟩ := h.head
  exact Nat.succ_pos _

theorem AreItemsText.length_pos {first : Bool} {items : List Written}
    (h : AreItemsText first items text) : 0 < text.length := by
  cases h with
  | nil hgap => simp
  | cons hseparator hw hmore =>
    have hvalue := hw.length_pos
    simp only [List.length_append]
    omega

theorem AreMembersText.length_pos {first : Bool} {members : List (StringToken × Written)}
    (h : AreMembersText first members text) : 0 < text.length := by
  cases h with
  | nil hgap => simp
  | cons hseparator hbefore hafter hw hmore =>
    have hvalue := hw.length_pos
    simp only [List.length_append, List.length_cons]
    omega

theorem scanItems_nil (hgap : IsGap gap) (fuel : Nat) (first : Bool) (rest : Bytes) :
    scanItems (fuel + 1) first (gap ++ [93] ++ rest) = ([], none, rest) := by
  have hend : skipBlank (gap ++ [93] ++ rest) = 93 :: rest := by
    rw [List.append_assoc, skipBlank_gap hgap]
    exact skipBlank_token (by decide)
  unfold scanItems
  rw [hend]
  rfl

theorem scanMembers_nil (hgap : IsGap gap) (fuel : Nat) (first : Bool) (rest : Bytes) :
    scanMembers (fuel + 1) first (gap ++ [125] ++ rest) = ([], none, rest) := by
  have hend : skipBlank (gap ++ [125] ++ rest) = 125 :: rest := by
    rw [List.append_assoc, skipBlank_gap hgap]
    exact skipBlank_token (by decide)
  unfold scanMembers
  rw [hend]
  rfl

/-- Behind what stands before it, an item is read, and then what follows it. -/
theorem scanItems_cons {first : Bool} {separator last : Bytes} {b : UInt8} (hb : BeginsValue b)
    (hseparator : IsSeparator first separator) {fuel : Nat} {r : Reading} {rs : List Reading}
    (hvalue : scanValue fuel (b :: text) = (r, rest))
    (hmore : scanItems fuel false rest = (rs, none, last)) :
    scanItems (fuel + 1) first (separator ++ b :: text) = (r :: rs, none, last) := by
  unfold scanItems
  cases hseparator with
  | first hgap =>
    rw [skipBlank_gap hgap, skipBlank_token hb.token.1]
    simp only [hb.token.2, if_false, true_or, if_true, hvalue, hmore]
  | next hbefore hgap =>
    rw [List.append_assoc, skipBlank_gap hbefore, List.cons_append, skipBlank_token (by decide)]
    dsimp only
    rw [if_neg (by decide), if_pos (.inr rfl)]
    simp only [Bool.false_eq_true, if_false, scanValue_gap hgap, hvalue, hmore]

/-- Behind what stands before it, a key is read, then its value, and then what follows. -/
theorem scanMembers_cons {first : Bool} {separator before after last : Bytes}
    (hseparator : IsSeparator first separator) (hbefore : IsGap before) (hafter : IsGap after)
    (key : StringToken) {fuel : Nat} {r : Reading} {rs : List (Except Fault String × Reading)}
    (hvalue : scanValue fuel text = (r, rest))
    (hmore : scanMembers fuel false rest = (rs, none, last)) :
    scanMembers (fuel + 1) first
        (separator ++ 34 :: (key.body ++ 34 :: (before ++ 58 :: (after ++ text)))) =
      ((key.text, r) :: rs, none, last) := by
  have hquote : ∀ more, skipBlank (34 :: more) = 34 :: more := fun _ => skipBlank_token (by decide)
  have hcolon : skipBlank (before ++ 58 :: (after ++ text)) = 58 :: (after ++ text) := by
    rw [skipBlank_gap hbefore]
    exact skipBlank_token (by decide)
  have hkey := key.scanText_bytes (before ++ 58 :: (after ++ text))
  unfold scanMembers
  cases hseparator with
  | first hgap =>
    rw [skipBlank_gap hgap, hquote]
    dsimp only
    rw [if_neg (by decide), if_pos (.inl rfl)]
    simp only [if_true, hquote, hkey, hcolon, scanValue_gap hafter, hvalue, hmore]
  | next hfirst hgap =>
    rw [List.append_assoc, skipBlank_gap hfirst, List.cons_append, skipBlank_token (by decide)]
    dsimp only
    rw [if_neg (by decide), if_pos (.inr rfl)]
    simp only [Bool.false_eq_true, if_false, skipBlank_gap hgap, hquote, if_true, hkey, hcolon,
      scanValue_gap hafter, hvalue, hmore]

mutual

/-- Every text of a value is read to its reading, wherever it stands. -/
theorem IsValueText.scanValue_eq {w : Written} {text : Bytes} (h : IsValueText w text)
    {fuel : Nat} {rest : Bytes} (hfuel : text.length < fuel) (hrest : EndsNumber rest) :
    scanValue fuel (text ++ rest) = (w.reading, rest) := by
  obtain ⟨fuel, rfl⟩ := Nat.exists_eq_add_one_of_ne_zero (Nat.ne_zero_of_lt hfuel)
  cases h with
  | null => rfl
  | true => rfl
  | false => rfl
  | number n =>
    have hscan := n.scanNumber_bytes hrest
    obtain ⟨b, tail, htext, hb⟩ := n.bytes_head
    rw [htext, List.cons_append] at hscan ⊢
    exact scanValue_numeral fuel hb hscan
  | string s =>
    have hscan := s.scanText_bytes rest
    have htext : s.bytes ++ rest = 34 :: (s.body ++ 34 :: rest) := by simp [StringToken.bytes]
    rw [htext]
    unfold scanValue
    rw [skipBlank_token (by decide)]
    simp only [if_true, scanString, hscan, reading]
  | @array items text h =>
    have hitems := h.scanItems_eq (Nat.lt_of_succ_lt_succ hfuel) rest
    rw [List.cons_append]
    unfold scanValue
    rw [skipBlank_token (by decide)]
    dsimp only
    rw [if_neg (by decide), if_pos rfl, hitems]
    rfl
  | @object members text h =>
    have hmembers := h.scanMembers_eq (Nat.lt_of_succ_lt_succ hfuel) rest
    rw [List.cons_append]
    unfold scanValue
    rw [skipBlank_token (by decide)]
    dsimp only
    rw [if_neg (by decide), if_neg (by decide), if_pos rfl, hmembers]
    rfl

theorem AreItemsText.scanItems_eq {first : Bool} {items : List Written} {text : Bytes}
    (h : AreItemsText first items text) {fuel : Nat} (hfuel : text.length < fuel) (rest : Bytes) :
    scanItems fuel first (text ++ rest) = (readingItems items, none, rest) := by
  obtain ⟨fuel, rfl⟩ := Nat.exists_eq_add_one_of_ne_zero (Nat.ne_zero_of_lt hfuel)
  cases h with
  | nil hgap => exact scanItems_nil hgap fuel first rest
  | @cons _ separator text more w items hseparator hw hmore =>
    have hlength := hw.length_pos
    have hend := hmore.length_pos
    simp only [List.length_append] at hfuel
    have hlt : text.length < fuel := by omega
    have hrest : more.length < fuel := by omega
    have hvalue := hw.scanValue_eq hlt (hmore.endsNumber rest)
    have hitems := hmore.scanItems_eq hrest rest
    obtain ⟨b, tail, rfl, hb⟩ := hw.head
    have hscan := scanItems_cons hb hseparator hvalue hitems
    rw [List.append_assoc, List.append_assoc]
    exact hscan

theorem AreMembersText.scanMembers_eq {first : Bool} {members : List (StringToken × Written)}
    {text : Bytes} (h : AreMembersText first members text) {fuel : Nat}
    (hfuel : text.length < fuel) (rest : Bytes) :
    scanMembers fuel first (text ++ rest) = (readingMembers members, none, rest) := by
  obtain ⟨fuel, rfl⟩ := Nat.exists_eq_add_one_of_ne_zero (Nat.ne_zero_of_lt hfuel)
  cases h with
  | nil hgap => exact scanMembers_nil hgap fuel first rest
  | @cons _ separator before after text more key w members hseparator hbefore hafter hw hmore =>
    have hlength := hw.length_pos
    have hend := hmore.length_pos
    simp only [List.length_append, List.length_cons] at hfuel
    have hlt : text.length < fuel := by omega
    have hrest : more.length < fuel := by omega
    have hvalue := hw.scanValue_eq hlt (hmore.endsNumber rest)
    have hmembers := hmore.scanMembers_eq hrest rest
    have hscan := scanMembers_cons hseparator hbefore hafter key hvalue hmembers
    have htext : separator ++ (key.bytes ++ (before ++ 58 :: (after ++ (text ++ more)))) ++ rest =
        separator ++ 34 :: (key.body ++ 34 :: (before ++ 58 :: (after ++ (text ++ (more ++ rest))))) := by
      simp [StringToken.bytes]
    rw [htext]
    exact hscan

end

theorem IsValueText.isText {w : Written} (h : IsValueText w text) : w.IsText text :=
  ⟨[], text, [], by decide, h, by decide, (List.append_nil _).symm⟩

/-- Every text that writes a value holds its reading and nothing else. -/
theorem ofBytes_eq {w : Written} {b : Bytes} (h : w.IsText b) :
    Reading.ofBytes b = (w.reading, false) := by
  obtain ⟨before, text, after, hbefore, htext, hafter, rfl⟩ := h
  have hends : EndsNumber after := by
    rw [← List.append_nil after]
    exact endsNumber_gap hafter fun b hb => absurd hb (by simp)
  have hend : skipBlank after = [] := by
    rw [← List.append_nil after, skipBlank_gap hafter]
    rfl
  have hscan : ∀ fuel, text.length < fuel →
      scanValue fuel (before ++ (text ++ after)) = (w.reading, after) := fun fuel hfuel =>
    (scanValue_gap hbefore fuel _).trans (htext.scanValue_eq hfuel hends)
  unfold Reading.ofBytes
  rw [hscan _ (by simp only [List.length_append]; omega)]
  simp only [hend]
  rfl

mutual

/-- A written value can be passed over, whatever its parts stand for. -/
theorem skip_reading : (w : Written) → w.reading.skip = .ok ()
  | .null | .bool _ | .number _ | .string _ => rfl
  | .array items => by
    simp only [reading, Reading.skip, skipItems_readingItems items]
    rfl
  | .object members => by
    simp only [reading, Reading.skip, skipMembers_readingMembers members]
    rfl

theorem skipItems_readingItems : (items : List Written) → skipItems (readingItems items) = .ok ()
  | [] => rfl
  | w :: rest => by
    simp only [readingItems, skipItems, skip_reading w, skipItems_readingItems rest]
    rfl

theorem skipMembers_readingMembers : (members : List (StringToken × Written)) →
    skipMembers (readingMembers members) = .ok ()
  | [] => rfl
  | (_, w) :: rest => by
    simp only [readingMembers, skipMembers, skip_reading w, skipMembers_readingMembers rest]
    rfl

end

def separator (gap : Bytes) (first : Bool) : Bytes := if first then gap else gap ++ 44 :: gap

mutual

/-- A value written with one gap wherever blanks may stand. -/
def render (gap : Bytes) : Written → Bytes
  | .null => [110, 117, 108, 108]
  | .bool true => [116, 114, 117, 101]
  | .bool false => [102, 97, 108, 115, 101]
  | .number n => n.bytes
  | .string s => s.bytes
  | .array items => 91 :: renderItems gap true items
  | .object members => 123 :: renderMembers gap true members

def renderItems (gap : Bytes) (first : Bool) : List Written → Bytes
  | [] => gap ++ [93]
  | w :: rest => separator gap first ++ (render gap w ++ renderItems gap false rest)

def renderMembers (gap : Bytes) (first : Bool) : List (StringToken × Written) → Bytes
  | [] => gap ++ [125]
  | (key, w) :: rest =>
    separator gap first ++ (key.bytes ++ (gap ++ 58 :: (gap ++
      (render gap w ++ renderMembers gap false rest))))

end

theorem isSeparator_separator (h : IsGap gap) (first : Bool) :
    IsSeparator first (separator gap first) := by
  cases first with
  | true => exact .first h
  | false => exact .next h h

mutual

theorem isValueText_render (h : IsGap gap) : (w : Written) → IsValueText w (w.render gap)
  | .null => .null
  | .bool true => .true
  | .bool false => .false
  | .number n => .number n
  | .string s => .string s
  | .array items => .array (areItemsText_render h true items)
  | .object members => .object (areMembersText_render h true members)

theorem areItemsText_render (h : IsGap gap) (first : Bool) : (items : List Written) →
    AreItemsText first items (renderItems gap first items)
  | [] => .nil h
  | w :: rest =>
    .cons (isSeparator_separator h first) (isValueText_render h w)
      (areItemsText_render h false rest)

theorem areMembersText_render (h : IsGap gap) (first : Bool) :
    (members : List (StringToken × Written)) →
    AreMembersText first members (renderMembers gap first members)
  | [] => .nil h
  | (_, w) :: rest =>
    .cons (isSeparator_separator h first) h h (isValueText_render h w)
      (areMembersText_render h false rest)

end

/-- Every value has a text, with any blanks between its tokens. -/
theorem isText_render (h : IsGap gap) (w : Written) : w.IsText (w.render gap) :=
  (isValueText_render h w).isText

end Written

end Json

end GoldenRecord

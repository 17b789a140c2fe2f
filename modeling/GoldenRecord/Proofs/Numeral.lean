import GoldenRecord.Proofs.Json.Number

namespace GoldenRecord

namespace Text

variable {before cs after : List Char}

theorem dropWhile_isBlank (hbefore : ∀ c ∈ before, isBlank c = true)
    (hcs : ∀ c ∈ cs.head?, isBlank c = false) : (before ++ cs).dropWhile isBlank = cs := by
  rw [List.dropWhile_append_of_pos hbefore]
  cases cs with
  | nil => rfl
  | cons c cs => exact List.dropWhile_cons_of_neg (by simp [hcs c rfl])

theorem trim_padded (hbefore : ∀ c ∈ before, isBlank c = true)
    (hafter : ∀ c ∈ after, isBlank c = true) (hne : cs ≠ [])
    (hcs : ∀ c ∈ cs, isBlank c = false) : trim (before ++ (cs ++ after)) = cs := by
  have hhead : ∀ c ∈ (cs ++ after).head?, isBlank c = false := by
    obtain ⟨first, more, rfl⟩ := List.exists_cons_of_ne_nil hne
    rintro c ⟨⟩
    exact hcs first List.mem_cons_self
  have hlast : ∀ c ∈ cs.reverse.head?, isBlank c = false :=
    fun c hc => hcs c (List.mem_reverse.mp (List.mem_of_head? hc))
  have hreversed : ∀ c ∈ after.reverse, isBlank c = true :=
    fun c hc => hafter c (List.mem_reverse.mp hc)
  unfold trim
  rw [dropWhile_isBlank hbefore hhead, List.reverse_append, dropWhile_isBlank hreversed hlast,
    List.reverse_reverse]

end Text

namespace Numeral

open Json Bytes

theorem takeWhile_isDigit {digits rest : Bytes} (hd : ∀ b ∈ digits, isDigit b = true)
    (hr : EndsDigits rest) : (digits ++ rest).takeWhile isDigit = digits ∧
      (digits ++ rest).dropWhile isDigit = rest := by
  rw [List.takeWhile_append_of_pos hd, List.dropWhile_append_of_pos hd]
  cases rest with
  | nil => simp
  | cons b rest => simp [hr b rfl]

theorem readPower_exponentBytes (e : Option ExponentToken) :
    readPower (exponentBytes e) = some ((e.map (·.power)).getD 0) := by
  cases e with
  | none => rfl
  | some e =>
    have hsplit := splitSign_signBytes e.sign e.digits.isDigit [] e.digits.ne_nil
    rw [List.append_nil] at hsplit
    have hdigits : ¬ (e.digits.bytes.isEmpty || !e.digits.bytes.all isDigit) = true := by
      simpa [e.digits.ne_nil] using e.digits.isDigit
    unfold exponentBytes ExponentToken.bytes readPower
    dsimp only
    rw [if_pos e.mark_cases, hsplit]
    dsimp only
    rw [if_neg hdigits]
    rfl

theorem readUnsigned_token (n : NumberToken) :
    readUnsigned n.negative (n.whole.bytes ++ (fractionBytes n.fraction ++ exponentBytes n.exponent)) =
      some n.literal.numeral := by
  have hnone : EndsNumber [] := by simp [EndsNumber]
  have hends := fractionBytes_ends n.fraction n.exponent hnone
  have hexponent := exponentBytes_ends n.exponent hnone
  rw [List.append_nil] at hends hexponent
  obtain ⟨htake, hdrop⟩ := takeWhile_isDigit n.whole.isDigit hends
  have hwhole : n.whole.bytes.isEmpty = false := by simpa using n.whole.ne_nil
  unfold readUnsigned
  dsimp only
  rw [htake, hdrop]
  unfold Literal.numeral NumberToken.literal
  cases n.fraction with
  | none =>
    have hpower := readPower_exponentBytes n.exponent
    rw [fractionBytes, List.nil_append]
    generalize exponentBytes n.exponent = rest at hexponent hpower ⊢
    split
    next => exact absurd rfl (hexponent 46 rfl).2
    next => simp [hwhole, hpower]
  | some digits =>
    obtain ⟨htake, hdrop⟩ := takeWhile_isDigit digits.isDigit fun b hb => (hexponent b hb).1
    rw [fractionBytes, List.cons_append]
    simp [htake, hdrop, hwhole, readPower_exponentBytes]

/-- Text that writes a number of the grammar between blanks is read to the double nearest to it. -/
theorem ofText?_token {n : NumberToken} {before cs after : List Char}
    (hbefore : ∀ c ∈ before, Text.isBlank c = true) (hafter : ∀ c ∈ after, Text.isBlank c = true)
    (hcs : ∀ c ∈ cs, Text.isBlank c = false) (hbytes : n.bytes = ofChars cs) :
    ofText? (String.ofList (before ++ (cs ++ after))) = some n.literal.numeral.toBinary64 := by
  have hne : cs ≠ [] := by
    rintro rfl
    obtain ⟨b, tail, hb, -⟩ := n.bytes_head
    rw [hb] at hbytes
    cases hbytes
  have hsign : n.bytes = signBytes (if n.negative then some true else none) ++
      (n.whole.bytes ++ (fractionBytes n.fraction ++ exponentBytes n.exponent)) := by
    unfold NumberToken.bytes
    cases n.negative <;> rfl
  have hnegative : (if n.negative then some true else none).getD false = n.negative := by
    cases n.negative <;> rfl
  unfold ofText?
  rw [String.toList_ofList, Text.trim_padded hbefore hafter hne hcs, ← hbytes, hsign,
    splitSign_signBytes _ n.whole.isDigit _ n.whole.ne_nil, hnegative]
  dsimp only
  rw [readUnsigned_token]

end Numeral

namespace Json

open Bytes

theorem isBlank_of_isDigit {c : Char} (h : c.isDigit = true) : Text.isBlank c = false := by
  obtain ⟨hlow, hup⟩ := Char.isDigit_iff_toNat.mp h
  have hlow : 48 ≤ c.toNat := hlow
  have hup : c.toNat ≤ 57 := hup
  unfold Text.isBlank
  simp only [Bool.or_eq_false_iff, Bool.and_eq_false_iff, beq_eq_false_iff_ne, decide_eq_false_iff_not]
  omega

theorem Spelling.isBlank_chars {s : Spelling} (h : s.IsValid) :
    ∀ c ∈ s.chars, Text.isBlank c = false := by
  have hsign : ∀ c ∈ signChars s.negative, Text.isBlank c = false := by
    unfold signChars
    split
    next => exact List.forall_mem_singleton.mpr (by decide)
    next => simp
  have hfraction : ∀ c ∈ fractionChars s.fraction, Text.isBlank c = false := by
    unfold fractionChars
    split
    next ds hds =>
      exact List.forall_mem_cons.mpr
        ⟨by decide, fun c hc => isBlank_of_isDigit ((h.fraction ds hds).1 c hc)⟩
    next => simp
  have hpower : ∀ c ∈ powerChars s.power, Text.isBlank c = false := by
    unfold powerChars
    split
    next =>
      refine List.forall_mem_cons.mpr ⟨by decide, List.forall_mem_cons.mpr ⟨?_, fun c hc => ?_⟩⟩
      · split <;> decide
      · exact isBlank_of_isDigit (areDigits_toDigits _ c hc)
    next => simp
  unfold chars
  simp only [List.forall_mem_append]
  exact ⟨hsign, fun c hc => isBlank_of_isDigit (h.whole c hc), hfraction, hpower⟩

namespace Number

/-- The parts that are written of a number. -/
def spelling : Number → Spelling
  | .int i _ => intSpelling i
  | .real x => x.spelling

theorem spelling_chars (n : Number) : n.spelling.chars = n.chars := by
  cases n with
  | int i hi => exact intSpelling_chars i
  | real x => exact x.spelling_chars

theorem spelling_isValid (n : Number) : n.spelling.IsValid := by
  cases n with
  | int i hi => exact intSpelling_isValid i
  | real x => exact x.spelling_isValid

/-- Whole numbers are rounded in the same way, whether read as digits or converted. -/
theorem intSpelling_value (i : Int) : (intSpelling i).literal.numeral.toBinary64 = .ofInt i := by
  have hdigits : Nat.ofDigitChars 10 (Nat.toDigits 10 i.natAbs) 0 = i.natAbs :=
    Nat.ofDigitChars_ten_toDigits
  rw [Decimal.Spelling.numeral_eq (intSpelling_isValid i)]
  change Binary64.ofDecimal (decide (i < 0))
    (Nat.ofDigitChars 10 (Nat.toDigits 10 i.natAbs ++ []) 0) 0 = _
  rw [List.append_nil, hdigits, Binary64.ofDecimal_eq]
  change Binary64.ofRank _ (Binary64.nearestRank (i.natAbs * 1 * Binary64.unitsPerOne) 1) = _
  rw [Nat.mul_one]
  rfl

theorem spelling_value (n : Number) : n.spelling.literal.numeral.toBinary64 = n.toBinary64 := by
  cases n with
  | int i hi => exact intSpelling_value i
  | real x => exact x.spelling_value

/-- The text of a number is read to the number, with any blanks around it. -/
theorem ofText?_padded (n : Number) {before after : List Char}
    (hbefore : ∀ c ∈ before, Text.isBlank c = true) (hafter : ∀ c ∈ after, Text.isBlank c = true) :
    Numeral.ofText? (String.ofList (before ++ (n.chars ++ after))) = some n.toBinary64 := by
  obtain ⟨token, hbytes, hliteral⟩ := n.spelling_isValid.exists_token
  rw [← spelling_chars, Numeral.ofText?_token hbefore hafter
    (Spelling.isBlank_chars n.spelling_isValid) hbytes, hliteral, spelling_value]

end Number

end Json

end GoldenRecord

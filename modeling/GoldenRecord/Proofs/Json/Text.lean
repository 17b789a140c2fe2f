import GoldenRecord.Json.Printer
import GoldenRecord.Proofs.Json.Literal

namespace GoldenRecord

namespace Bytes

/-- The byte of an ASCII character stands for itself, and all bytes of any other character lie
above ASCII. -/
theorem utf8EncodeChar_cases (c : Char) :
    (c.toNat < 128 ∧ String.utf8EncodeChar c = [UInt8.ofNat c.toNat]) ∨
      (128 ≤ c.toNat ∧ ∀ b ∈ String.utf8EncodeChar c, 128 ≤ b.toNat) := by
  by_cases hc : c.toNat < 128
  · exact .inl ⟨hc, utf8EncodeChar_ascii hc⟩
  · refine .inr ⟨by omega, fun b hb => ?_⟩
    have hval : ¬ c.val.toNat ≤ 127 := fun h => hc (Nat.lt_succ_of_le h)
    unfold String.utf8EncodeChar at hb
    dsimp only at hb
    rw [if_neg hval] at hb
    generalize c.val.toNat = v at hb
    obtain ⟨n, rfl, hn⟩ : ∃ n, b = UInt8.ofNat n ∧ 128 ≤ n ∧ n < 256 := by
      split at hb
      next =>
        simp only [List.mem_cons, List.not_mem_nil, or_false] at hb
        rcases hb with rfl | rfl <;> exact ⟨_, rfl, by omega⟩
      next =>
        split at hb
        next =>
          simp only [List.mem_cons, List.not_mem_nil, or_false] at hb
          rcases hb with rfl | rfl | rfl <;> exact ⟨_, rfl, by omega⟩
        next =>
          simp only [List.mem_cons, List.not_mem_nil, or_false] at hb
          rcases hb with rfl | rfl | rfl | rfl <;> exact ⟨_, rfl, by omega⟩
    rw [UInt8.toNat_ofNat']
    omega

end Bytes

namespace Json

open Bytes

/-- A byte of a string that stands for itself. -/
def IsPlainByte (b : UInt8) : Prop := 32 ≤ b.toNat ∧ b ≠ 34 ∧ b ≠ 92

theorem readText_plain {acc rest : Bytes} {b : UInt8} (h : IsPlainByte b) :
    readText acc (b :: rest) = readText (b :: acc) rest := by
  obtain ⟨hlow, hquote, hback⟩ := h
  have hnot : ¬ b < 32 := by
    rw [UInt8.lt_iff_toNat_lt]
    exact Nat.not_lt.mpr hlow
  rw [readText]
  · rw [if_neg hnot]
  · exact hquote
  all_goals
    intros
    contradiction

theorem skipText_plain {rest : Bytes} {b : UInt8} (h : IsPlainByte b) :
    skipText (b :: rest) = skipText rest := by
  obtain ⟨hlow, hquote, hback⟩ := h
  have hnot : ¬ b < 32 := by
    rw [UInt8.lt_iff_toNat_lt]
    exact Nat.not_lt.mpr hlow
  rw [skipText]
  · rw [if_neg hnot]
  · exact hquote
  all_goals
    intros
    contradiction

theorem readText_plains {bs : Bytes} (h : ∀ b ∈ bs, IsPlainByte b) (acc rest : Bytes) :
    readText acc (bs ++ rest) = readText (bs.reverse ++ acc) rest := by
  induction bs generalizing acc with
  | nil => rfl
  | cons b bs ih =>
    rw [List.cons_append, readText_plain (h b List.mem_cons_self),
      ih (fun a ha => h a (List.mem_cons_of_mem b ha)), List.reverse_cons, List.append_assoc,
      List.singleton_append]

theorem ne_unit_of_letter {e x : UInt8} (he : simpleEscape? e = some x) : e ≠ 117 := by
  rintro rfl
  cases he

theorem readText_letter {e x : UInt8} (he : simpleEscape? e = some x) (acc rest : Bytes) :
    readText acc (92 :: e :: rest) = readText (x :: acc) rest := by
  rw [readText]
  · rw [he]
  · intro _ _ _ _ _ h
    exact absurd h (ne_unit_of_letter he)
  · exact ne_unit_of_letter he

theorem readText_unit {a b c d : UInt8} {n : Nat} (hn : hexUnit? a b c d = some n) (hlow : isLowSurrogate n = false)
    (hhigh : isHighSurrogate n = false) (acc rest : Bytes) :
    readText acc (92 :: 117 :: a :: b :: c :: d :: rest) = readText (pushChar acc n) rest := by
  rw [readText]
  simp only [hn, hlow, hhigh, Bool.false_eq_true, if_false]

/-- An escape sequence that stands for an ASCII character. -/
inductive Escape : Bytes → Nat → Prop
  | letter {e : UInt8} {n : Nat} (h : e ≠ 117) (he : simpleEscape? e = some (UInt8.ofNat n)) :
      Escape [92, e] n
  | unit {a b c d : UInt8} {n : Nat} (hn : n < 128) (h : hexUnit? a b c d = some n) :
      Escape [92, 117, a, b, c, d] n

theorem pushChar_ascii (acc : Bytes) {n : Nat} (h : n < 128) :
    pushChar acc n = UInt8.ofNat n :: acc := by
  have hvalid : n.isValidChar := .inl (by omega)
  have hnat : (Char.ofNat n).toNat = n := by
    unfold Char.ofNat
    rw [dif_pos hvalid]
    rfl
  unfold pushChar
  rw [utf8EncodeChar_ascii (by omega), hnat]
  rfl

theorem Escape.readText_eq {bs : Bytes} {n : Nat} (h : Escape bs n) (acc rest : Bytes) :
    readText acc (bs ++ rest) = readText (UInt8.ofNat n :: acc) rest := by
  cases h with
  | letter _ hvalue => exact readText_letter hvalue acc rest
  | unit hn hvalue =>
    have hlow : isLowSurrogate n = false := by simp [isLowSurrogate]; omega
    have hhigh : isHighSurrogate n = false := by simp [isHighSurrogate]; omega
    have hunit := readText_unit hvalue hlow hhigh acc rest
    rw [pushChar_ascii acc hn] at hunit
    exact hunit

theorem hexDigit?_hexDigitChar : ∀ n < 16,
    (hexDigitChar n).toNat < 128 ∧ hexDigit? (UInt8.ofNat (hexDigitChar n).toNat) = some n := by
  decide

theorem escape_control {c : Char} (h : c.toNat < 32) : Escape (ofChars (escapeChar c)) c.toNat := by
  have hquote : c ≠ '"' := by
    rintro rfl
    exact absurd h (by decide)
  have hback : c ≠ '\\' := by
    rintro rfl
    exact absurd h (by decide)
  unfold escapeChar
  rw [if_neg hquote, if_neg hback, if_pos h]
  generalize c.toNat = n at h ⊢
  split
  next h8 => subst h8; exact .letter (e := 98) (by decide) (by decide)
  next =>
    split
    next h9 => subst h9; exact .letter (e := 116) (by decide) (by decide)
    next =>
      split
      next h10 => subst h10; exact .letter (e := 110) (by decide) (by decide)
      next =>
        split
        next h12 => subst h12; exact .letter (e := 102) (by decide) (by decide)
        next =>
          split
          next h13 => subst h13; exact .letter (e := 114) (by decide) (by decide)
          next =>
            obtain ⟨hhigh, hhighValue⟩ := hexDigit?_hexDigitChar (n / 16) (by omega)
            obtain ⟨hlow, hlowValue⟩ := hexDigit?_hexDigitChar (n % 16) (by omega)
            have hbytes : ofChars ['\\', 'u', '0', '0', hexDigitChar (n / 16), hexDigitChar (n % 16)] =
                [92, 117, 48, 48, UInt8.ofNat (hexDigitChar (n / 16)).toNat,
                  UInt8.ofNat (hexDigitChar (n % 16)).toNat] := by
              simp only [ofChars, List.flatMap_cons, List.flatMap_nil, utf8EncodeChar_ascii hhigh,
                utf8EncodeChar_ascii hlow]
              rfl
            rw [hbytes]
            refine .unit (by omega) ?_
            have hzero : hexDigit? 48 = some 0 := by decide
            simp only [hexUnit?, hzero, hhighValue, hlowValue, Option.bind_eq_bind,
              Option.bind_some, Option.pure_def, Option.some.injEq]
            omega

/-- A written character is either escaped or stands for itself. -/
theorem escapeChar_cases (c : Char) :
    Escape (ofChars (escapeChar c)) c.toNat ∧ c.toNat < 128 ∨
      escapeChar c = [c] ∧ ∀ b ∈ ofChars [c], IsPlainByte b := by
  by_cases hcontrol : c.toNat < 32
  · exact .inl ⟨escape_control hcontrol, by omega⟩
  by_cases hquote : c = '"'
  · subst hquote
    exact .inl ⟨.letter (e := 34) (by decide) (by decide), by decide⟩
  by_cases hback : c = '\\'
  · subst hback
    exact .inl ⟨.letter (e := 92) (by decide) (by decide), by decide⟩
  refine .inr ⟨by rw [escapeChar, if_neg hquote, if_neg hback, if_neg hcontrol], fun b hb => ?_⟩
  have hchar : b ∈ String.utf8EncodeChar c := by simpa [ofChars] using hb
  rcases utf8EncodeChar_cases c with ⟨hlt, hbytes⟩ | ⟨hge, hbytes⟩
  · rw [hbytes, List.mem_singleton] at hchar
    have hb : b.toNat = c.toNat := by
      rw [hchar, UInt8.toNat_ofNat']
      omega
    refine ⟨by omega, fun h => hquote ?_, fun h => hback ?_⟩
    · exact Char.toNat_inj.mp (by rw [← hb, h]; rfl)
    · exact Char.toNat_inj.mp (by rw [← hb, h]; rfl)
  · have hb := hbytes b hchar
    refine ⟨by omega, ?_, ?_⟩ <;> rintro rfl <;> exact absurd hb (by decide)

theorem readText_escapeChar (c : Char) (acc rest : Bytes) :
    readText acc (ofChars (escapeChar c) ++ rest) = readText ((ofChars [c]).reverse ++ acc) rest := by
  rcases escapeChar_cases c with ⟨hescape, hlt⟩ | ⟨hself, hplain⟩
  · rw [hescape.readText_eq, ofChars_cons, utf8EncodeChar_ascii hlt]
    rfl
  · rw [hself, readText_plains hplain]

theorem readText_escaped (cs : List Char) (acc rest : Bytes) :
    readText acc (ofChars (cs.flatMap escapeChar) ++ rest) =
      readText ((ofChars cs).reverse ++ acc) rest := by
  induction cs generalizing acc with
  | nil => rfl
  | cons c cs ih =>
    rw [List.flatMap_cons, ofChars_append, List.append_assoc, readText_escapeChar, ih,
      ← List.append_assoc, ← List.reverse_append, ← ofChars_append, List.singleton_append]

end Json

end GoldenRecord

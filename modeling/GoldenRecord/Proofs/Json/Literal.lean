import GoldenRecord.Json.Literal
import GoldenRecord.Proofs.Binary64.Shortest

namespace GoldenRecord

namespace Bytes

@[simp] theorem ofChars_nil : ofChars [] = [] := rfl

@[simp] theorem ofChars_append (cs ds : List Char) : ofChars (cs ++ ds) = ofChars cs ++ ofChars ds :=
  List.flatMap_append

theorem ofChars_cons (c : Char) (cs : List Char) :
    ofChars (c :: cs) = String.utf8EncodeChar c ++ ofChars cs := rfl

theorem utf8EncodeChar_ascii {c : Char} (h : c.toNat < 128) :
    String.utf8EncodeChar c = [UInt8.ofNat c.toNat] := by
  have hle : c.val.toNat ≤ 0x7f := Nat.le_of_lt_succ h
  unfold String.utf8EncodeChar
  exact if_pos hle

theorem isDigit_iff {b : UInt8} : isDigit b = true ↔ 48 ≤ b.toNat ∧ b.toNat ≤ 57 := by
  simp [isDigit, UInt8.le_iff_toNat_le]

theorem utf8EncodeChar_digit {c : Char} (h : c.isDigit = true) :
    ∃ b, String.utf8EncodeChar c = [b] ∧ isDigit b = true ∧ b.toNat = c.toNat := by
  obtain ⟨hlow, hup⟩ := Char.isDigit_iff_toNat.mp h
  have hlow' : 48 ≤ c.toNat := hlow
  have hup' : c.toNat ≤ 57 := hup
  have hb : (UInt8.ofNat c.toNat).toNat = c.toNat := by
    rw [UInt8.toNat_ofNat']
    omega
  exact ⟨UInt8.ofNat c.toNat, utf8EncodeChar_ascii (by omega), isDigit_iff.mpr (by omega), hb⟩

def AreDigits (cs : List Char) : Prop := ∀ c ∈ cs, c.isDigit = true

theorem areDigits_append {cs ds : List Char} : AreDigits (cs ++ ds) ↔ AreDigits cs ∧ AreDigits ds := by
  simp [AreDigits, or_imp, forall_and]

theorem areDigits_toDigits (n : Nat) : AreDigits (Nat.toDigits 10 n) :=
  fun _ hc => Nat.isDigit_of_mem_toDigits (by decide) (by decide) hc

theorem areDigits_zeros (n : Nat) : AreDigits (List.replicate n '0') := by
  intro c hc
  rw [List.eq_of_mem_replicate hc]
  decide

theorem AreDigits.tail {c : Char} {cs : List Char} (h : AreDigits (c :: cs)) : AreDigits cs :=
  fun d hd => h d (List.mem_cons_of_mem c hd)

theorem isDigit_of_areDigits {cs : List Char} (h : AreDigits cs) :
    ∀ b ∈ ofChars cs, isDigit b = true := by
  intro b hb
  obtain ⟨c, hc, hbc⟩ := List.mem_flatMap.mp hb
  obtain ⟨d, hd, hdigit, -⟩ := utf8EncodeChar_digit (h c hc)
  rw [hd, List.mem_singleton] at hbc
  rwa [hbc]

theorem length_ofChars {cs : List Char} (h : AreDigits cs) : (ofChars cs).length = cs.length := by
  induction cs with
  | nil => rfl
  | cons c cs ih =>
    obtain ⟨b, hb, -⟩ := utf8EncodeChar_digit (h c List.mem_cons_self)
    rw [ofChars_cons, hb, List.length_append, ih h.tail]
    simp [Nat.add_comm]

theorem digitsValue_ofChars {cs : List Char} (h : AreDigits cs) :
    digitsValue (ofChars cs) = Nat.ofDigitChars 10 cs 0 := by
  have hfold : ∀ n, (ofChars cs).foldl (fun n b => n * 10 + (b.toNat - 48)) n =
      Nat.ofDigitChars 10 cs n := by
    induction cs with
    | nil => simp
    | cons c cs ih =>
      intro n
      obtain ⟨b, hb, -, hbc⟩ := utf8EncodeChar_digit (h c List.mem_cons_self)
      rw [ofChars_cons, hb, List.singleton_append, List.foldl_cons, ih h.tail, hbc,
        Nat.ofDigitChars_cons, Nat.mul_comm n 10]
      rfl
  exact hfold 0

theorem toDigits_head {n : Nat} (h : (Nat.toDigits 10 n).head? = some '0') : n = 0 := by
  induction n using Nat.strongRecOn with
  | ind n ih =>
    rw [Nat.toDigits_eq_if (by decide)] at h
    split at h
    next hlt =>
      have hc : n.digitChar = '0' := by simpa using h
      exact Nat.digitChar_eq_zero.mp hc
    next hge =>
      have hhead : (Nat.toDigits 10 (n / 10)).head? = some '0' := by
        rw [List.head?_append] at h
        cases hd : (Nat.toDigits 10 (n / 10)).head? with
        | none => exact absurd (List.head?_eq_none_iff.mp hd) Nat.toDigits_ne_nil
        | some c => simpa [hd] using h
      have := ih (n / 10) (by omega) hhead
      omega

theorem ofChars_ne_nil {cs : List Char} (h : AreDigits cs) (hne : cs ≠ []) : ofChars cs ≠ [] := by
  intro hnil
  have hlength := length_ofChars h
  rw [hnil] at hlength
  exact hne (List.eq_nil_of_length_eq_zero hlength.symm)

end Bytes

namespace Json

open Bytes

/-- A text that does not go on with a digit. -/
def EndsDigits (rest : Bytes) : Prop := ∀ b ∈ rest.head?, isDigit b = false

/-- A text that goes on with nothing that belongs to a number. -/
def EndsNumber (rest : Bytes) : Prop :=
  ∀ b ∈ rest.head?, isDigit b = false ∧ b ≠ 46 ∧ b ≠ 101 ∧ b ≠ 69

theorem EndsNumber.endsDigits {rest : Bytes} (h : EndsNumber rest) : EndsDigits rest :=
  fun b hb => (h b hb).1

theorem scanDigits_eq {digits rest : Bytes} (hd : ∀ b ∈ digits, isDigit b = true)
    (hne : digits ≠ []) (hr : EndsDigits rest) :
    scanDigits (digits ++ rest) = .ok (digits, rest) := by
  have htake : rest.takeWhile isDigit = [] ∧ rest.dropWhile isDigit = rest := by
    cases rest with
    | nil => exact ⟨rfl, rfl⟩
    | cons b more =>
      have hb := hr b rfl
      simp [hb]
  cases digits with
  | nil => exact absurd rfl hne
  | cons b digits =>
    have hb := hd b List.mem_cons_self
    have hds : ∀ a ∈ digits, isDigit a = true := fun a ha => hd a (List.mem_cons_of_mem b ha)
    rw [List.cons_append]
    unfold scanDigits
    dsimp only
    rw [if_pos hb, List.takeWhile_append_of_pos hds, List.dropWhile_append_of_pos hds, htake.1,
      htake.2, List.append_nil]

/-- The digits before the point: a zero in front stands alone. -/
theorem scanWhole_digits {digits rest : Bytes} (hd : ∀ b ∈ digits, isDigit b = true)
    (hne : digits ≠ []) (hzero : digits.head? = some 48 → digits.length = 1)
    (hr : EndsDigits rest) : scanWhole (digits ++ rest) = .ok (digits, rest) := by
  have hlead : ¬ (digits.head? = some 48 ∧ digits.length ≠ 1) :=
    fun ⟨hhead, hlength⟩ => hlength (hzero hhead)
  unfold scanWhole
  rw [scanDigits_eq hd hne hr]
  exact if_neg hlead

theorem scanFraction_none {rest : Bytes} (hr : ∀ b ∈ rest.head?, b ≠ 46) :
    scanFraction rest = .ok (none, rest) := by
  unfold scanFraction
  split
  next more => exact absurd rfl (hr 46 rfl)
  next => rfl

theorem scanFraction_digits {digits rest : Bytes} (hd : ∀ b ∈ digits, isDigit b = true)
    (hne : digits ≠ []) (hr : EndsDigits rest) :
    scanFraction (46 :: (digits ++ rest)) = .ok (some digits, rest) := by
  change (scanDigits (digits ++ rest)).map (fun scanned => (some scanned.1, scanned.2)) = _
  rw [scanDigits_eq hd hne hr]
  rfl

theorem scanPower_none {rest : Bytes} (hr : EndsNumber rest) : scanPower rest = .ok (none, rest) := by
  cases rest with
  | nil => rfl
  | cons e rest =>
    obtain ⟨-, -, he, hE⟩ := hr e rfl
    unfold scanPower
    dsimp only
    rw [if_neg (by simp [he, hE])]

def signBytes : Option Bool → Bytes
  | none => []
  | some true => [45]
  | some false => [43]

theorem splitSign_signBytes (sign : Option Bool) {digits : Bytes}
    (hd : ∀ b ∈ digits, isDigit b = true) (rest : Bytes) (hne : digits ≠ []) :
    Numeral.splitSign (signBytes sign ++ (digits ++ rest)) =
      (sign.getD false, digits ++ rest) := by
  cases sign with
  | some negative => cases negative <;> rfl
  | none =>
    obtain ⟨b, more, rfl⟩ := List.exists_cons_of_ne_nil hne
    have hrange := isDigit_iff.mp (hd b List.mem_cons_self)
    have hminus : b ≠ 45 := by
      rintro rfl
      exact absurd hrange (by decide)
    have hplus : b ≠ 43 := by
      rintro rfl
      exact absurd hrange (by decide)
    simp only [signBytes, List.nil_append, List.cons_append, Numeral.splitSign, if_neg hminus,
      if_neg hplus, Option.getD_none]

/-- An exponent counts with its sign; one without a sign is positive. -/
theorem scanPower_digits {mark : UInt8} (hmark : mark = 101 ∨ mark = 69) (sign : Option Bool)
    {digits rest : Bytes} (hd : ∀ b ∈ digits, isDigit b = true) (hne : digits ≠ [])
    (hr : EndsDigits rest) :
    scanPower (mark :: (signBytes sign ++ (digits ++ rest))) =
      .ok (some (if sign.getD false then -(digitsValue digits : Int) else digitsValue digits),
        rest) := by
  unfold scanPower
  dsimp only
  rw [if_pos hmark, splitSign_signBytes sign hd rest hne]
  simp only [scanDigits_eq hd hne hr, bind, Except.bind, pure, Except.pure]

theorem scanLiteral_parts (negative : Bool) {text more last rest whole : Bytes}
    {fraction : Option Bytes} {power : Option Int} (hwhole : scanWhole text = .ok (whole, more))
    (hfraction : scanFraction more = .ok (fraction, last))
    (hpower : scanPower last = .ok (power, rest)) :
    scanLiteral ((if negative then [45] else []) ++ text) =
      .ok (⟨negative, whole, fraction, power⟩, rest) := by
  unfold scanLiteral
  cases negative with
  | true =>
    rw [if_pos rfl, List.singleton_append]
    simp only [hwhole, hfraction, hpower, bind, Except.bind, pure, Except.pure]
  | false =>
    rw [if_neg (by decide), List.nil_append]
    split
    next negative rest' hsign =>
      split at hsign
      next => cases hwhole
      next =>
        cases hsign
        simp only [hwhole, hfraction, hpower, bind, Except.bind, pure, Except.pure]

end Json

end GoldenRecord

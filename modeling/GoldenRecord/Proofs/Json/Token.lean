import GoldenRecord.Proofs.Json.Text

namespace GoldenRecord

namespace Json

open Bytes

structure Digits where
  bytes : Bytes
  ne_nil : bytes ≠ []
  isDigit : ∀ b ∈ bytes, Bytes.isDigit b = true

/-- A power of ten as it is written; its sign may be left out. -/
structure ExponentToken where
  capital : Bool
  sign : Option Bool
  digits : Digits

/-- A number as it is written. -/
structure NumberToken where
  negative : Bool
  whole : Digits
  fraction : Option Digits
  exponent : Option ExponentToken
  leading : whole.bytes.head? = some 48 → whole.bytes.length = 1

/-- What may stand between the quotes of a string. -/
inductive IsStringBody : Bytes → Prop
  | nil : IsStringBody []
  | plain {b : UInt8} {body : Bytes} (hb : IsPlainByte b) (h : IsStringBody body) :
      IsStringBody (b :: body)
  | letter {e c : UInt8} {body : Bytes} (he : simpleEscape? e = some c) (h : IsStringBody body) :
      IsStringBody (92 :: e :: body)
  | unit {a b c d : UInt8} {n : Nat} {body : Bytes} (hn : hexUnit? a b c d = some n)
      (h : IsStringBody body) : IsStringBody (92 :: 117 :: a :: b :: c :: d :: body)

/-- A string as it is written. -/
structure StringToken where
  body : Bytes
  isBody : IsStringBody body

def ExponentToken.bytes (e : ExponentToken) : Bytes :=
  (if e.capital then 69 else 101) :: (signBytes e.sign ++ e.digits.bytes)

theorem ExponentToken.mark_cases (e : ExponentToken) :
    (if e.capital then (69 : UInt8) else 101) = 101 ∨ (if e.capital then (69 : UInt8) else 101) = 69 := by
  cases e.capital
  · exact .inl rfl
  · exact .inr rfl

def ExponentToken.power (e : ExponentToken) : Int :=
  if e.sign.getD false then -(digitsValue e.digits.bytes : Int) else digitsValue e.digits.bytes

def fractionBytes : Option Digits → Bytes
  | none => []
  | some digits => 46 :: digits.bytes

def exponentBytes : Option ExponentToken → Bytes
  | none => []
  | some e => e.bytes

namespace NumberToken

variable (n : NumberToken)

def bytes : Bytes :=
  (if n.negative then [45] else []) ++
    (n.whole.bytes ++ (fractionBytes n.fraction ++ exponentBytes n.exponent))

/-- What the number says, however it is spelled. -/
def literal : Literal :=
  ⟨n.negative, n.whole.bytes, n.fraction.map (·.bytes), n.exponent.map (·.power)⟩

end NumberToken

def StringToken.bytes (s : StringToken) : Bytes := 34 :: (s.body ++ [34])

/-- The text a string stands for. Bytes that are no UTF-8 and surrogates without their other half
stand for no text. -/
def StringToken.text (s : StringToken) : Except Fault String :=
  (readText [] (s.body ++ [34])).map (·.1)

theorem ExponentToken.scanPower_bytes (e : ExponentToken) {rest : Bytes} (hr : EndsNumber rest) :
    scanPower (e.bytes ++ rest) = .ok (some e.power, rest) := by
  have hscan := scanPower_digits e.mark_cases e.sign e.digits.isDigit e.digits.ne_nil hr.endsDigits
  rw [bytes, List.cons_append, List.append_assoc]
  exact hscan

section Chars

variable {cs : List Char}

def Digits.ofChars (h : AreDigits cs) (hne : cs ≠ []) : Digits :=
  ⟨Bytes.ofChars cs, ofChars_ne_nil h hne, isDigit_of_areDigits h⟩

/-- A zero in front stands alone in bytes if it does in characters. -/
theorem Digits.ofChars_leading (h : AreDigits cs) (hne : cs ≠ [])
    (hzero : cs.head? = some '0' → cs.length = 1) (hhead : (ofChars h hne).bytes.head? = some 48) :
    (ofChars h hne).bytes.length = 1 := by
  refine (length_ofChars h).trans (hzero ?_)
  cases cs with
  | nil => exact absurd rfl hne
  | cons c cs =>
    obtain ⟨b, hb, -, hbc⟩ := utf8EncodeChar_digit (h c List.mem_cons_self)
    change (Bytes.ofChars (c :: cs)).head? = some 48 at hhead
    rw [ofChars_cons, hb, List.singleton_append, List.head?_cons] at hhead
    have hc : c = '0' := Char.toNat_inj.mp (by rw [← hbc, Option.some.inj hhead]; rfl)
    rw [hc]
    rfl

end Chars

section Parts

variable {rest : Bytes}

theorem scanPower_exponentBytes (e : Option ExponentToken) (hr : EndsNumber rest) :
    scanPower (exponentBytes e ++ rest) = .ok (e.map (·.power), rest) := by
  cases e with
  | none => exact scanPower_none hr
  | some e => exact e.scanPower_bytes hr

/-- An exponent ends the digits before it, and is no fraction. -/
theorem exponentBytes_ends (e : Option ExponentToken) (hr : EndsNumber rest) :
    ∀ b ∈ (exponentBytes e ++ rest).head?, isDigit b = false ∧ b ≠ 46 := by
  cases e with
  | none => exact fun b hb => ⟨(hr b hb).1, (hr b hb).2.1⟩
  | some e =>
    rintro b ⟨⟩
    cases e.capital <;> decide

theorem scanFraction_fractionBytes (f : Option Digits) (e : Option ExponentToken)
    (hr : EndsNumber rest) :
    scanFraction (fractionBytes f ++ (exponentBytes e ++ rest)) =
      .ok (f.map (·.bytes), exponentBytes e ++ rest) := by
  have hends := exponentBytes_ends e hr
  cases f with
  | none => exact scanFraction_none fun b hb => (hends b hb).2
  | some digits =>
    exact scanFraction_digits digits.isDigit digits.ne_nil fun b hb => (hends b hb).1

theorem fractionBytes_ends (f : Option Digits) (e : Option ExponentToken) (hr : EndsNumber rest) :
    EndsDigits (fractionBytes f ++ (exponentBytes e ++ rest)) := by
  cases f with
  | none => exact fun b hb => (exponentBytes_ends e hr b hb).1
  | some digits =>
    rintro b ⟨⟩
    decide

end Parts

namespace NumberToken

variable (n : NumberToken) {rest : Bytes}

theorem bytes_head : ∃ b tail, n.bytes = b :: tail ∧ (b = 45 ∨ isDigit b = true) := by
  unfold bytes
  split
  next => exact ⟨45, _, rfl, .inl rfl⟩
  next =>
    obtain ⟨b, more, hb⟩ := List.exists_cons_of_ne_nil n.whole.ne_nil
    refine ⟨b, _, by rw [hb]; rfl, .inr (n.whole.isDigit b ?_)⟩
    rw [hb]
    exact List.mem_cons_self

theorem scanLiteral_bytes (hr : EndsNumber rest) :
    scanLiteral (n.bytes ++ rest) = .ok (n.literal, rest) := by
  have hwhole := scanWhole_digits n.whole.isDigit n.whole.ne_nil n.leading
    (fractionBytes_ends n.fraction n.exponent hr)
  have hfraction := scanFraction_fractionBytes n.fraction n.exponent hr
  have hpower := scanPower_exponentBytes n.exponent hr
  have htext : n.bytes ++ rest = (if n.negative then [45] else []) ++
      (n.whole.bytes ++ (fractionBytes n.fraction ++ (exponentBytes n.exponent ++ rest))) := by
    simp only [bytes, List.append_assoc]
  rw [htext]
  exact scanLiteral_parts n.negative hwhole hfraction hpower

theorem scanNumber_bytes (hr : EndsNumber rest) :
    scanNumber (n.bytes ++ rest) = .ok (n.literal.number, rest) := by
  unfold scanNumber
  rw [n.scanLiteral_bytes hr]
  rfl

end NumberToken

section Strings

variable {a b c d : UInt8} {n : Nat}

theorem isLowSurrogate_of_high (h : isHighSurrogate n = true) : isLowSurrogate n = false := by
  simp only [isHighSurrogate, Bool.and_eq_true, decide_eq_true_eq] at h
  simp only [isLowSurrogate, Bool.and_eq_false_iff, decide_eq_false_iff_not]
  omega

/-- A second half without a first one. -/
theorem readText_low (hn : hexUnit? a b c d = some n) (hlow : isLowSurrogate n = true)
    (acc rest : Bytes) :
    readText acc (92 :: 117 :: a :: b :: c :: d :: rest) = .error .malformed := by
  rw [readText]
  simp only [hn, hlow, if_true]

/-- A first half with something else behind it. -/
theorem readText_high {e : UInt8} {more : Bytes} (hn : hexUnit? a b c d = some n)
    (hhigh : isHighSurrogate n = true)
    (hmore : e ≠ 92 ∨ ∃ f last, more = f :: last ∧ f ≠ 117) (acc : Bytes) :
    readText acc (92 :: 117 :: a :: b :: c :: d :: e :: more) = .error .malformed := by
  have hlow := isLowSurrogate_of_high hhigh
  rw [readText]
  simp only [hn, hlow, hhigh, Bool.false_eq_true, if_false, if_true]
  split
  next h => cases h
  next h =>
    cases h
    rcases hmore with he | ⟨f, last, hnil, -⟩
    · rw [if_neg he]
    · cases hnil
  next h =>
    cases h
    rcases hmore with he | ⟨f, last, hcons, hf⟩
    · exact absurd rfl he
    · cases hcons
      exact absurd rfl hf
  next h =>
    cases h
    rcases hmore with he | ⟨f, last, hcons, hf⟩
    · exact absurd rfl he
    · cases hcons
      exact absurd rfl hf
  next => rfl

/-- Two halves make one character. -/
theorem readText_pair {a' b' c' d' : UInt8} {m : Nat} (hn : hexUnit? a b c d = some n)
    (hhigh : isHighSurrogate n = true) (hm : hexUnit? a' b' c' d' = some m) (acc rest : Bytes) :
    readText acc
        (92 :: 117 :: a :: b :: c :: d :: 92 :: 117 :: a' :: b' :: c' :: d' :: rest) =
      if isLowSurrogate m then
        readText (pushChar acc (0x10000 + (n - 0xD800) * 0x400 + (m - 0xDC00))) rest
      else .error .malformed := by
  have hlow := isLowSurrogate_of_high hhigh
  rw [readText]
  simp only [hn, hlow, hhigh, hm, Bool.false_eq_true, if_false, if_true]

/-- A string is read up to its closing quote, whatever follows it. -/
theorem readText_body {body : Bytes} (h : IsStringBody body) (acc : Bytes) :
    ∃ text : Except Fault String,
      ∀ rest, readText acc (body ++ 34 :: rest) = text.map (·, rest) := by
  cases h with
  | nil =>
    cases htext : toText? acc.reverse with
    | none => exact ⟨.error .malformed, fun rest => by rw [List.nil_append, readText, htext]; rfl⟩
    | some text => exact ⟨.ok text, fun rest => by rw [List.nil_append, readText, htext]; rfl⟩
  | @plain b body hb h =>
    obtain ⟨text, htext⟩ := readText_body h (b :: acc)
    exact ⟨text, fun rest => (readText_plain hb).trans (htext rest)⟩
  | @letter e x body he h =>
    obtain ⟨text, htext⟩ := readText_body h (x :: acc)
    exact ⟨text, fun rest => (readText_letter he acc _).trans (htext rest)⟩
  | @unit a b c d n body hn h =>
    cases hlow : isLowSurrogate n with
    | true => exact ⟨.error .malformed, fun rest => readText_low hn hlow acc _⟩
    | false =>
    cases hhigh : isHighSurrogate n with
    | false =>
      obtain ⟨text, htext⟩ := readText_body h (pushChar acc n)
      exact ⟨text, fun rest => (readText_unit hn hlow hhigh acc _).trans (htext rest)⟩
    | true =>
      -- What follows a first half decides whether it is one of a pair.
      cases h with
      | nil => exact ⟨.error .malformed, fun rest => readText_high hn hhigh (.inl (by decide)) acc⟩
      | plain hb h => exact ⟨.error .malformed, fun rest => readText_high hn hhigh (.inl hb.2.2) acc⟩
      | @letter e x body he h =>
        exact ⟨.error .malformed, fun rest => readText_high hn hhigh
          (.inr ⟨_, _, rfl, ne_unit_of_letter he⟩) acc⟩
      | @unit a' b' c' d' m body hm h =>
        cases hpair : isLowSurrogate m with
        | false =>
          refine ⟨.error .malformed, fun rest => (readText_pair hn hhigh hm acc _).trans ?_⟩
          rw [hpair]
          rfl
        | true =>
          obtain ⟨text, htext⟩ :=
            readText_body h (pushChar acc (0x10000 + (n - 0xD800) * 0x400 + (m - 0xDC00)))
          refine ⟨text, fun rest => (readText_pair hn hhigh hm acc _).trans ?_⟩
          rw [hpair]
          exact htext rest
termination_by body.length

theorem skipText_body {body : Bytes} (h : IsStringBody body) (rest : Bytes) :
    skipText (body ++ 34 :: rest) = .ok rest := by
  induction h with
  | nil => rw [List.nil_append, skipText]
  | plain hb h ih => exact (skipText_plain hb).trans ih
  | @letter e x body he h ih =>
    rw [List.cons_append, List.cons_append, skipText]
    · simp only [he, Option.isSome_some, if_true, ih]
    · intro _ _ _ _ _ h
      exact absurd h (ne_unit_of_letter he)
    · exact ne_unit_of_letter he
  | unit hn h ih =>
    simp only [List.cons_append]
    rw [skipText]
    simp only [hn, Option.isSome_some, if_true, ih]

/-- Scanning a string finds its text, and what follows the closing quote. -/
theorem StringToken.scanText_bytes (s : StringToken) (rest : Bytes) :
    scanText (s.body ++ 34 :: rest) = (s.text, .ok rest) := by
  obtain ⟨text, htext⟩ := readText_body s.isBody []
  have hself : s.text = text := by
    rw [StringToken.text, htext []]
    cases text <;> rfl
  unfold scanText
  rw [htext rest, skipText_body s.isBody, hself]
  cases text <;> rfl

theorem IsStringBody.append {first second : Bytes} (hfirst : IsStringBody first)
    (hsecond : IsStringBody second) : IsStringBody (first ++ second) := by
  induction hfirst with
  | nil => exact hsecond
  | plain hb h ih => exact .plain hb ih
  | letter he h ih => exact .letter he ih
  | unit hn h ih => exact .unit hn ih

theorem isStringBody_plains {body : Bytes} (h : ∀ b ∈ body, IsPlainByte b) :
    IsStringBody body := by
  induction body with
  | nil => exact .nil
  | cons b body ih =>
    exact .plain (h b List.mem_cons_self) (ih fun a ha => h a (List.mem_cons_of_mem b ha))

theorem Escape.isStringBody {bs : Bytes} (h : Escape bs n) : IsStringBody bs := by
  cases h with
  | letter _ he => exact .letter he .nil
  | unit _ hn => exact .unit hn .nil

theorem isStringBody_escaped (cs : List Char) : IsStringBody (ofChars (cs.flatMap escapeChar)) := by
  induction cs with
  | nil => exact .nil
  | cons c cs ih =>
    rw [List.flatMap_cons, ofChars_append]
    refine IsStringBody.append ?_ ih
    rcases escapeChar_cases c with ⟨hescape, -⟩ | ⟨hself, hplain⟩
    · exact hescape.isStringBody
    · rw [hself]
      exact isStringBody_plains hplain

/-- A text with no more escapes than it needs. -/
def StringToken.ofText (s : String) : StringToken :=
  ⟨ofChars (s.toList.flatMap escapeChar), isStringBody_escaped s.toList⟩

theorem StringToken.text_ofText (s : String) : (ofText s).text = .ok s := by
  have htext : toText? (ofChars s.toList) = some s := toText?_ofText s
  unfold text ofText
  rw [readText_escaped, List.append_nil, readText, List.reverse_reverse, htext]
  rfl

theorem StringToken.bytes_ofText (s : String) : (ofText s).bytes = ofChars (quoted s) := by
  rw [quoted, ofChars_cons, ofChars_append]
  rfl

end Strings

end Json

end GoldenRecord

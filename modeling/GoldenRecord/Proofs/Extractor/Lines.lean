import GoldenRecord.Extractor.Bridge
import GoldenRecord.Proofs.Json.Layout

namespace GoldenRecord

namespace Json

open Bytes

def ArePrintable (cs : List Char) : Prop := ∀ c ∈ cs, 32 ≤ c.toNat

instance (cs : List Char) : Decidable (ArePrintable cs) :=
  decidable_of_iff (cs.all (fun c => 32 ≤ c.toNat) = true) (by simp [ArePrintable])

@[simp] theorem arePrintable_append {cs ds : List Char} :
    ArePrintable (cs ++ ds) ↔ ArePrintable cs ∧ ArePrintable ds :=
  List.forall_mem_append

@[simp] theorem arePrintable_cons {c : Char} {cs : List Char} :
    ArePrintable (c :: cs) ↔ 32 ≤ c.toNat ∧ ArePrintable cs :=
  List.forall_mem_cons

@[simp] theorem arePrintable_nil : ArePrintable [] := fun _ hc => absurd hc List.not_mem_nil

theorem arePrintable_digits {cs : List Char} (h : AreDigits cs) : ArePrintable cs := by
  intro c hc
  have hdigit := h c hc
  simp only [Char.isDigit, Bool.and_eq_true, decide_eq_true_eq, ge_iff_le] at hdigit
  exact Nat.le_trans (by decide) (UInt32.le_iff_toNat_le.mp hdigit.1)

theorem arePrintable_escapeChar (c : Char) : ArePrintable (escapeChar c) := by
  have hhex : ∀ n < 16, 32 ≤ (hexDigitChar n).toNat := by decide
  unfold escapeChar
  split
  next => decide
  next =>
    split
    next => decide
    next =>
      split
      next hcontrol =>
        have hhigh := hhex (c.toNat / 16) (by omega)
        have hlow := hhex (c.toNat % 16) (by omega)
        -- the named escapes, and then the numbered one
        repeat' split
        · decide
        · decide
        · decide
        · decide
        · decide
        · have hmarked : ArePrintable ['\\', 'u', '0', '0'] := by decide
          exact arePrintable_append.mpr ⟨hmarked, by simpa using ⟨hhigh, hlow⟩⟩
      next hcontrol => simpa using hcontrol

theorem arePrintable_quoted (s : String) : ArePrintable (quoted s) := by
  have hbody : ArePrintable (s.toList.flatMap escapeChar) := by
    intro c hc
    obtain ⟨d, -, hd⟩ := List.mem_flatMap.mp hc
    exact arePrintable_escapeChar d c hd
  exact arePrintable_cons.mpr ⟨by decide, arePrintable_append.mpr ⟨hbody, by decide⟩⟩

theorem Spelling.arePrintable_chars {s : Spelling} (h : s.IsValid) : ArePrintable s.chars := by
  have hsign : ArePrintable (signChars s.negative) := by
    unfold signChars
    split <;> decide
  have hfraction : ArePrintable (fractionChars s.fraction) := by
    unfold fractionChars
    split
    next ds hds => exact arePrintable_cons.mpr ⟨by decide, arePrintable_digits (h.fraction ds hds).1⟩
    next => exact arePrintable_nil
  have hpower : ArePrintable (powerChars s.power) := by
    unfold powerChars
    split
    next =>
      refine arePrintable_cons.mpr ⟨by decide, arePrintable_cons.mpr ⟨?_, ?_⟩⟩
      · split <;> decide
      · exact arePrintable_digits (areDigits_toDigits _)
    next => exact arePrintable_nil
  simp [chars, hsign, hfraction, hpower, arePrintable_digits h.whole]

theorem Number.arePrintable_chars (n : Number) : ArePrintable n.chars := by
  cases n with
  | int i hi =>
    rw [chars, ← intSpelling_chars]
    exact Spelling.arePrintable_chars (intSpelling_isValid i)
  | real x =>
    rw [chars, ← x.spelling_chars]
    exact Spelling.arePrintable_chars x.spelling_isValid

mutual

theorem arePrintable_compactChars : (j : Json) → ArePrintable j.compactChars
  | .null | .bool true | .bool false => by decide
  | .number n => n.arePrintable_chars
  | .string s => arePrintable_quoted s
  | .array items => arePrintable_cons.mpr ⟨by decide, arePrintable_compactItems items⟩
  | .object members => arePrintable_cons.mpr ⟨by decide, arePrintable_compactMembers members⟩

theorem arePrintable_compactItems : (items : List Json) → ArePrintable (compactItems items)
  | [] => by decide
  | [j] => by simp [compactItems, arePrintable_compactChars j]
  | j :: k :: rest => by
    simp [compactItems, arePrintable_compactChars j, arePrintable_compactItems (k :: rest)]

theorem arePrintable_compactMembers : (members : List (String × Json)) →
    ArePrintable (compactMembers members)
  | [] => by decide
  | [(key, j)] => by simp [compactMembers, arePrintable_quoted, arePrintable_compactChars j]
  | (key, j) :: m :: rest => by
    simp [compactMembers, arePrintable_quoted, arePrintable_compactChars j,
      arePrintable_compactMembers (m :: rest)]

end

theorem ArePrintable.bytes {cs : List Char} (h : ArePrintable cs) :
    ∀ b ∈ ofChars cs, 32 ≤ b.toNat := by
  intro b hb
  obtain ⟨c, hc, hb⟩ := List.mem_flatMap.mp hb
  have hprintable := h c hc
  rcases utf8EncodeChar_cases c with ⟨hlt, hbytes⟩ | ⟨-, hbytes⟩
  · rw [hbytes, List.mem_singleton] at hb
    rw [hb, UInt8.toNat_ofNat']
    omega
  · have := hbytes b hb
    omega

theorem compact_bytes (j : Json) : ∀ b ∈ Bytes.ofText j.compact, 32 ≤ b.toNat := by
  rw [compact, ofText, String.toList_ofList]
  exact (arePrintable_compactChars j).bytes

end Json

namespace Bytes

theorem linesWithEnds_append {line : Bytes} (h : 10 ∉ line) (rest : Bytes) :
    linesWithEnds (line ++ 10 :: rest) = (line ++ [10]) :: linesWithEnds rest := by
  induction line with
  | nil => rfl
  | cons b line ih =>
    have hb : b ≠ 10 := (List.ne_of_not_mem_cons h).symm
    rw [List.cons_append, linesWithEnds, if_neg hb, ih (List.not_mem_of_not_mem_cons h)]
    rfl

theorem trimLineEnd_append {line : Bytes} (h : line.getLast? ≠ some 13) :
    trimLineEnd (line ++ [10]) = line := by
  unfold trimLineEnd
  rw [List.getLast?_concat, if_pos rfl, List.dropLast_concat]
  exact if_neg h

def ofLines (all : List Bytes) : Bytes := all.flatMap fun line => line ++ [10]

/-- Lines without control characters are found again in their text. -/
theorem lines_ofLines {all : List Bytes} (h : ∀ line ∈ all, ∀ b ∈ line, 32 ≤ b.toNat) :
    lines (ofLines all) = all := by
  induction all with
  | nil => rfl
  | cons line all ih =>
    have hline := h line List.mem_cons_self
    have hfeed : 10 ∉ line := fun hmem => absurd (hline 10 hmem) (by decide)
    have hreturn : line.getLast? ≠ some 13 := fun hlast =>
      absurd (hline 13 (List.mem_of_getLast? hlast)) (by decide)
    have htext : ofLines (line :: all) = line ++ 10 :: ofLines all := by simp [ofLines]
    have hrest := ih fun line hmem => h line (List.mem_cons_of_mem _ hmem)
    unfold lines at hrest ⊢
    rw [htext, linesWithEnds_append hfeed, List.map_cons, trimLineEnd_append hreturn, hrest]

end Bytes

end GoldenRecord

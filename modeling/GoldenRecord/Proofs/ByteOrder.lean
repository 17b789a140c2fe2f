import GoldenRecord.Bytes

namespace GoldenRecord

namespace Bytes

/-- Numbers are in the order of their digits, here the lowest ones in base 64. -/
theorem digits_lt {m n : Nat} (h : m < n) :
    m / 262144 < n / 262144 ∨ m / 262144 = n / 262144 ∧
      (m / 4096 % 64 < n / 4096 % 64 ∨ m / 4096 % 64 = n / 4096 % 64 ∧
        (m / 64 % 64 < n / 64 % 64 ∨ m / 64 % 64 = n / 64 % 64 ∧ m % 64 < n % 64)) := by
  omega

theorem utf8EncodeChar_lt {c d : Char} (h : c < d) (rest more : Bytes) :
    String.utf8EncodeChar c ++ rest < String.utf8EncodeChar d ++ more := by
  have hlt : c.val.toNat < d.val.toNat := UInt32.lt_iff_toNat_lt.mp (Char.lt_def.mp h)
  have hd : d.val.toNat < 0x110000 := by
    rcases d.valid with hv | ⟨-, hv⟩
    · exact Nat.lt_trans hv (by decide)
    · exact hv
  simp only [String.utf8EncodeChar]
  generalize c.val.toNat = m at hlt
  generalize d.val.toNat = n at hlt hd
  have hdigits := digits_lt hlt
  -- the first byte tells how many there are, and orders characters of different lengths
  repeat' split
  all_goals
    simp (disch := omega) only [List.cons_append, List.nil_append, List.cons_lt_cons_iff,
      UInt8.lt_iff_toNat_lt, ← UInt8.toNat_inj, UInt8.toNat_ofNat', Nat.mod_eq_of_lt,
      Nat.add_lt_add_iff_right, Nat.add_right_cancel_iff]
  all_goals omega

theorem ofChars_lt {cs ds : List Char} (h : cs < ds) : ofChars cs < ofChars ds := by
  induction cs generalizing ds with
  | nil =>
    cases ds with
    | nil => exact absurd h (List.lt_irrefl _)
    | cons d ds =>
      have hpos : 0 < (ofChars (d :: ds)).length := by
        rw [ofChars, List.flatMap_cons, List.length_append, String.length_utf8EncodeChar]
        have hsize := Char.utf8Size_pos d
        omega
      cases hbytes : ofChars (d :: ds) with
      | nil => simp [hbytes] at hpos
      | cons b rest => exact List.nil_lt_cons b rest
  | cons c cs ih =>
    cases ds with
    | nil => cases h
    | cons d ds =>
      rw [ofChars, ofChars, List.flatMap_cons, List.flatMap_cons]
      rcases List.cons_lt_cons_iff.mp h with hcd | ⟨rfl, hrest⟩
      · exact utf8EncodeChar_lt hcd _ _
      · exact List.append_left_lt (ih hrest)

theorem ofText_lt {s t : String} (h : s < t) : ofText s < ofText t := by
  have hlist : s.toList < t.toList := h
  exact ofChars_lt hlist

end Bytes

end GoldenRecord

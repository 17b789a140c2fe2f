import GoldenRecord.Proofs.Json.Written
import GoldenRecord.Proofs.Outcome

namespace GoldenRecord

namespace Json

open Bytes Reading

theorem scanDigits_ok {b digits rest : Bytes} (h : scanDigits b = .ok (digits, rest)) :
    ∃ d : Digits, d.bytes = digits ∧ b = digits ++ rest := by
  cases b with
  | nil => cases h
  | cons b more =>
    unfold scanDigits at h
    dsimp only at h
    split at h
    next hb =>
      cases h
      refine ⟨⟨b :: more.takeWhile isDigit, by simp, ?_⟩, rfl, ?_⟩
      · intro a ha
        rcases List.mem_cons.mp ha with rfl | ha
        · exact hb
        · exact List.all_eq_true.mp List.all_takeWhile a ha
      · rw [List.cons_append, List.takeWhile_append_dropWhile]
    next => cases h

theorem scanWhole_ok {b whole rest : Bytes} (h : scanWhole b = .ok (whole, rest)) :
    ∃ d : Digits, d.bytes = whole ∧ b = whole ++ rest ∧
      (d.bytes.head? = some 48 → d.bytes.length = 1) := by
  obtain ⟨⟨digits, more⟩, hdigits, h⟩ := bind_ok_iff.mp h
  obtain ⟨d, rfl, hb⟩ := scanDigits_ok hdigits
  dsimp only at h
  split at h
  next => cases h
  next hlead =>
    cases h
    exact ⟨d, rfl, hb, fun hhead => Decidable.byContradiction fun hlength => hlead ⟨hhead, hlength⟩⟩

theorem scanFraction_ok {b rest : Bytes} {fraction : Option Bytes}
    (h : scanFraction b = .ok (fraction, rest)) :
    ∃ f : Option Digits, b = fractionBytes f ++ rest := by
  unfold scanFraction at h
  split at h
  next more =>
    obtain ⟨⟨digits, last⟩, hdigits, h⟩ := map_ok_iff.mp h
    cases h
    obtain ⟨d, rfl, rfl⟩ := scanDigits_ok hdigits
    exact ⟨some d, rfl⟩
  next =>
    cases h
    exact ⟨none, rfl⟩

theorem signBytes_splitSign (b : Bytes) :
    ∃ sign, b = signBytes sign ++ (Numeral.splitSign b).2 := by
  cases b with
  | nil => exact ⟨none, rfl⟩
  | cons b more =>
    unfold Numeral.splitSign
    dsimp only
    split
    next hb => exact ⟨some true, by rw [hb]; rfl⟩
    next =>
      split
      next hb => exact ⟨some false, by rw [hb]; rfl⟩
      next => exact ⟨none, rfl⟩

theorem scanPower_ok {b rest : Bytes} {power : Option Int}
    (h : scanPower b = .ok (power, rest)) :
    ∃ e : Option ExponentToken, b = exponentBytes e ++ rest := by
  cases b with
  | nil =>
    cases h
    exact ⟨none, rfl⟩
  | cons mark more =>
    unfold scanPower at h
    dsimp only at h
    split at h
    next hmark =>
      obtain ⟨⟨digits, last⟩, hdigits, h⟩ := bind_ok_iff.mp h
      cases h
      obtain ⟨d, rfl, hd⟩ := scanDigits_ok hdigits
      obtain ⟨sign, hsign⟩ := signBytes_splitSign more
      rw [hd] at hsign
      refine ⟨some ⟨mark = 69, sign, d⟩, ?_⟩
      rw [hsign, exponentBytes, ExponentToken.bytes, List.cons_append, List.append_assoc]
      rcases hmark with rfl | rfl <;> rfl
    next =>
      cases h
      exact ⟨none, rfl⟩

theorem scanNumber_ok {b rest : Bytes} {value : Except Fault Number}
    (h : scanNumber b = .ok (value, rest)) : ∃ n : NumberToken, b = n.bytes ++ rest := by
  obtain ⟨⟨literal, last⟩, hliteral, h⟩ := map_ok_iff.mp h
  cases h
  unfold scanLiteral at hliteral
  split at hliteral
  next negative text hsign =>
    obtain ⟨⟨whole, more⟩, hwhole, hliteral⟩ := bind_ok_iff.mp hliteral
    obtain ⟨⟨fraction, more'⟩, hfraction, hliteral⟩ := bind_ok_iff.mp hliteral
    obtain ⟨⟨power, more''⟩, hpower, hliteral⟩ := bind_ok_iff.mp hliteral
    cases hliteral
    obtain ⟨d, rfl, rfl, hlead⟩ := scanWhole_ok hwhole
    obtain ⟨f, rfl⟩ := scanFraction_ok hfraction
    obtain ⟨e, rfl⟩ := scanPower_ok hpower
    have hnumber : ∃ n : NumberToken, (if negative then [45] else []) ++
        (d.bytes ++ (fractionBytes f ++ (exponentBytes e ++ rest))) = n.bytes ++ rest :=
      ⟨⟨negative, d, f, e, hlead⟩, by simp only [NumberToken.bytes, List.append_assoc]⟩
    split at hsign
    next =>
      cases hsign
      exact hnumber
    next =>
      cases hsign
      exact hnumber

theorem skipText_ok {b rest : Bytes} (h : skipText b = .ok rest) :
    ∃ s : StringToken, b = s.body ++ 34 :: rest := by
  fun_induction skipText b with
  | case1 => cases h
  | case2 =>
    cases h
    exact ⟨⟨[], .nil⟩, rfl⟩
  | case3 => cases h
  | case4 a b c d more hunit ih =>
    obtain ⟨s, rfl⟩ := ih h
    obtain ⟨n, hn⟩ := Option.isSome_iff_exists.mp hunit
    exact ⟨⟨_, .unit hn s.isBody⟩, rfl⟩
  | case5 => cases h
  | case6 => cases h
  | case7 e more _ _ hletter ih =>
    obtain ⟨s, rfl⟩ := ih h
    obtain ⟨x, hx⟩ := Option.isSome_iff_exists.mp hletter
    exact ⟨⟨_, .letter hx s.isBody⟩, rfl⟩
  | case8 => cases h
  | case9 => cases h
  | case10 b more hquote hnil hunit hback hother hlow ih =>
    obtain ⟨s, rfl⟩ := ih h
    have hback : b ≠ 92 := by
      rintro rfl
      cases hbody : s.body ++ 34 :: rest with
      | nil => exact hnil rfl hbody
      | cons e last => exact hother e last rfl hbody
    have hplain : IsPlainByte b :=
      ⟨Nat.not_lt.mp fun hb => hlow (UInt8.lt_iff_toNat_lt.mpr hb), hquote, hback⟩
    exact ⟨⟨_, .plain hplain s.isBody⟩, rfl⟩

/-- A string that can be passed over is one, whether or not it stands for text. -/
theorem scanText_ok {b rest : Bytes} {text : Except Fault String}
    (h : scanText b = (text, .ok rest)) : ∃ s : StringToken, b = s.body ++ 34 :: rest :=
  skipText_ok (congrArg Prod.snd h)

namespace Reading

theorem checkEnding_ok_iff {ending : Option Breakage} {select : Breakage → Fault} :
    checkEnding ending select = .ok () ↔ ending = none := by
  cases ending <;> simp [checkEnding]

theorem skip_array {items : List Reading} {ending : Option Breakage} :
    (Reading.array items ending).skip = .ok () ↔ skipItems items = .ok () ∧ ending = none := by
  rw [skip, andThen_ok_iff, checkEnding_ok_iff]

theorem skip_object {members : List (Except Fault String × Reading)} {ending : Option Breakage} :
    (Reading.object members ending).skip = .ok () ↔
      skipMembers members = .ok () ∧ ending = none := by
  rw [skip, andThen_ok_iff, checkEnding_ok_iff]

theorem skipItems_cons {r : Reading} {items : List Reading} :
    skipItems (r :: items) = .ok () ↔ r.skip = .ok () ∧ skipItems items = .ok () := andThen_ok_iff

theorem skipMembers_cons {key : Except Fault String} {r : Reading}
    {members : List (Except Fault String × Reading)} :
    skipMembers ((key, r) :: members) = .ok () ↔ r.skip = .ok () ∧ skipMembers members = .ok () :=
  andThen_ok_iff

end Reading

namespace Written

theorem scanWord_ok {word r : Reading} {letters b rest : Bytes}
    (h : scanWord word letters b = (r, rest)) (hr : r.skip = .ok ()) :
    r = word ∧ b = letters ++ rest := by
  induction letters generalizing b with
  | nil =>
    cases h
    exact ⟨rfl, rfl⟩
  | cons w letters ih =>
    cases b with
    | nil =>
      cases h
      cases hr
    | cons b more =>
      unfold scanWord at h
      split at h
      next hb =>
        obtain ⟨rfl, rfl⟩ := ih h
        exact ⟨rfl, by rw [hb]; rfl⟩
      next =>
        cases h
        cases hr

theorem scanString_ok {b rest : Bytes} {r : Reading} (h : scanString b = (r, rest))
    (hr : r.skip = .ok ()) : ∃ s : StringToken, b = s.body ++ 34 :: rest := by
  unfold scanString at h
  split at h
  next hscan =>
    cases h
    exact scanText_ok hscan
  next =>
    cases h
    cases hr
  next =>
    cases h
    cases hr

theorem gap_of_skipBlank {text more : Bytes} (h : skipBlank text = more) :
    ∃ gap, IsGap gap ∧ text = gap ++ more := by
  refine ⟨text.takeWhile Reading.isBlank, fun b hb => ?_, ?_⟩
  · exact List.all_eq_true.mp List.all_takeWhile b hb
  · rw [← h, skipBlank, List.takeWhile_append_dropWhile]

/-- What a scan of one value, of items and of members went over is the text of them. -/
structure ScansGrammar (fuel : Nat) : Prop where
  value : ∀ {text rest r}, scanValue fuel text = (r, rest) → r.skip = .ok () →
    ∃ gap w more, IsGap gap ∧ IsValueText w more ∧ text = gap ++ (more ++ rest)
  items : ∀ {first text rest rs}, scanItems fuel first text = (rs, none, rest) →
    skipItems rs = .ok () → ∃ ws more, AreItemsText first ws more ∧ text = more ++ rest
  members : ∀ {first text rest rs}, scanMembers fuel first text = (rs, none, rest) →
    skipMembers rs = .ok () → ∃ ws more, AreMembersText first ws more ∧ text = more ++ rest

variable {fuel : Nat} {first : Bool} {text rest : Bytes}

theorem ScansGrammar.value_succ (ih : ScansGrammar fuel) {r : Reading}
    (h : scanValue (fuel + 1) text = (r, rest)) (hr : r.skip = .ok ()) :
    ∃ gap w more, IsGap gap ∧ IsValueText w more ∧ text = gap ++ (more ++ rest) := by
  unfold scanValue at h
  split at h
  next =>
    cases h
    cases hr
  next b tail hskip =>
    obtain ⟨gap, hgap, rfl⟩ := gap_of_skipBlank hskip
    suffices hvalue : ∃ w more, IsValueText w more ∧ b :: tail = more ++ rest by
      obtain ⟨w, more, hw, htail⟩ := hvalue
      exact ⟨gap, w, more, hgap, hw, by rw [htail]⟩
    split at h
    next hb =>
      obtain ⟨s, rfl⟩ := scanString_ok h hr
      exact ⟨.string s, _, .string s, by simp [hb, StringToken.bytes]⟩
    next =>
    split at h
    next hb =>
      obtain ⟨hitems, hrest⟩ := Prod.mk.inj h
      rw [← hitems] at hr
      obtain ⟨hskipped, hending⟩ := skip_array.mp hr
      obtain ⟨ws, more, hws, rfl⟩ := ih.items (Prod.ext rfl (Prod.ext hending hrest)) hskipped
      exact ⟨.array ws, _, .array hws, by rw [hb]; rfl⟩
    next =>
    split at h
    next hb =>
      obtain ⟨hmembers, hrest⟩ := Prod.mk.inj h
      rw [← hmembers] at hr
      obtain ⟨hskipped, hending⟩ := skip_object.mp hr
      obtain ⟨ws, more, hws, rfl⟩ := ih.members (Prod.ext rfl (Prod.ext hending hrest)) hskipped
      exact ⟨.object ws, _, .object hws, by rw [hb]; rfl⟩
    next =>
    split at h
    next hb =>
      obtain ⟨-, rfl⟩ := scanWord_ok h hr
      exact ⟨.null, _, .null, by rw [hb]; rfl⟩
    next =>
    split at h
    next hb =>
      obtain ⟨-, rfl⟩ := scanWord_ok h hr
      exact ⟨.bool true, _, .true, by rw [hb]; rfl⟩
    next =>
    split at h
    next hb =>
      obtain ⟨-, rfl⟩ := scanWord_ok h hr
      exact ⟨.bool false, _, .false, by rw [hb]; rfl⟩
    next =>
    split at h
    next =>
      split at h
      next hscan =>
        cases h
        obtain ⟨n, hn⟩ := scanNumber_ok hscan
        exact ⟨.number n, _, .number n, hn⟩
      next =>
        cases h
        cases hr
    next =>
      cases h
      cases hr

/-- Blanks behind the place where an item may begin belong to what stands before it. -/
theorem isSeparator_of_gap {b : UInt8} {tail gap gap' more : Bytes} (hgap : IsGap gap)
    (hfirst : first = true ∨ b = 44) (hgap' : IsGap gap')
    (htail : (if first then b :: tail else tail) = gap' ++ more) :
    ∃ separator, IsSeparator first separator ∧ gap ++ b :: tail = separator ++ more := by
  cases first with
  | true =>
    have hboth : IsGap (gap ++ gap') := List.forall_mem_append.mpr ⟨hgap, hgap'⟩
    rw [if_pos rfl] at htail
    exact ⟨gap ++ gap', .first hboth, by rw [htail, List.append_assoc]⟩
  | false =>
    rw [if_neg (by decide)] at htail
    refine ⟨gap ++ 44 :: gap', .next hgap hgap', ?_⟩
    rw [hfirst.resolve_left (by decide), htail, List.append_assoc, List.cons_append]

theorem ScansGrammar.items_succ (ih : ScansGrammar fuel) {rs : List Reading}
    (h : scanItems (fuel + 1) first text = (rs, none, rest)) (hr : skipItems rs = .ok ()) :
    ∃ ws more, AreItemsText first ws more ∧ text = more ++ rest := by
  unfold scanItems at h
  split at h
  next => cases h
  next b tail hskip =>
    obtain ⟨gap, hgap, rfl⟩ := gap_of_skipBlank hskip
    split at h
    next hb =>
      cases h
      exact ⟨[], _, .nil hgap, by simp [hb]⟩
    next =>
    split at h
    next hfirst =>
      obtain ⟨hitems, hmore⟩ := Prod.mk.inj h
      rw [← hitems] at hr
      obtain ⟨hvalue, hitems⟩ := skipItems_cons.mp hr
      obtain ⟨ws, more, hws, hmid⟩ := ih.items (Prod.ext rfl hmore) hitems
      obtain ⟨gap', w, value, hgap', hw, htail⟩ := ih.value rfl hvalue
      obtain ⟨separator, hseparator, htext⟩ := isSeparator_of_gap hgap hfirst hgap' htail
      refine ⟨w :: ws, _, .cons hseparator hw hws, ?_⟩
      rw [htext, hmid]
      simp only [List.append_assoc]
    next => cases h

theorem ScansGrammar.members_succ (ih : ScansGrammar fuel)
    {rs : List (Except Fault String × Reading)}
    (h : scanMembers (fuel + 1) first text = (rs, none, rest)) (hr : skipMembers rs = .ok ()) :
    ∃ ws more, AreMembersText first ws more ∧ text = more ++ rest := by
  unfold scanMembers at h
  split at h
  next => cases h
  next b tail hskip =>
    obtain ⟨gap, hgap, rfl⟩ := gap_of_skipBlank hskip
    split at h
    next hb =>
      cases h
      exact ⟨[], _, .nil hgap, by simp [hb]⟩
    next =>
    split at h
    next hfirst =>
      split at h
      next => cases h
      next q body hquote =>
        obtain ⟨gap', hgap', htail⟩ := gap_of_skipBlank hquote
        obtain ⟨separator, hseparator, htext⟩ := isSeparator_of_gap hgap hfirst hgap' htail
        split at h
        next hq =>
          split at h
          next hkey =>
            obtain ⟨key, rfl⟩ := scanText_ok hkey
            split at h
            next =>
              cases h
              cases hr
            next c value hcolon =>
              obtain ⟨before, hbefore, rfl⟩ := gap_of_skipBlank hcolon
              split at h
              next hc =>
                obtain ⟨hmembers, hmore⟩ := Prod.mk.inj h
                rw [← hmembers] at hr
                obtain ⟨hvalue, hmembers⟩ := skipMembers_cons.mp hr
                obtain ⟨ws, more, hws, hmid⟩ := ih.members (Prod.ext rfl hmore) hmembers
                obtain ⟨after, w, written, hafter, hw, htail⟩ := ih.value rfl hvalue
                rw [hmid] at htail
                refine ⟨(key, w) :: ws, _, .cons hseparator hbefore hafter hw hws, ?_⟩
                rw [htext, hq, hc, htail]
                simp [StringToken.bytes]
              next =>
                cases h
                cases hr
          next => cases h
          next => cases h
        next => cases h
    next => cases h

theorem scansGrammar (fuel : Nat) : ScansGrammar fuel := by
  induction fuel with
  | zero =>
    refine ⟨fun h hr => ?_, fun h => ?_, fun h => ?_⟩
    · cases h
      cases hr
    · cases h
    · cases h
  | succ fuel ih => exact ⟨ih.value_succ, ih.items_succ, ih.members_succ⟩

/-- The texts that can be passed over, with nothing behind their value, are those of the grammar. -/
theorem isText_iff {b : Bytes} :
    (∃ w : Written, w.IsText b) ↔
      (Reading.ofBytes b).1.skip = .ok () ∧ (Reading.ofBytes b).2 = false := by
  constructor
  · rintro ⟨w, hw⟩
    rw [w.ofBytes_eq hw]
    exact ⟨w.skip_reading, rfl⟩
  · rintro ⟨hskip, htrailing⟩
    obtain ⟨r, rest, hscan⟩ : ∃ r rest, scanValue (2 * b.length + 2) b = (r, rest) :=
      ⟨_, _, rfl⟩
    have hbytes : Reading.ofBytes b = (r, !(skipBlank rest).isEmpty) := by
      unfold Reading.ofBytes
      rw [hscan]
    rw [hbytes] at hskip htrailing
    obtain ⟨gap, w, text, hgap, hw, htext⟩ := (scansGrammar _).value hscan hskip
    have hend : skipBlank rest = [] := by simpa using htrailing
    obtain ⟨after, hafter, hrest⟩ := gap_of_skipBlank hend
    rw [List.append_nil] at hrest
    exact ⟨w, gap, text, after, hgap, hw, hafter, by rw [htext, hrest]⟩

end Written

end Json

end GoldenRecord

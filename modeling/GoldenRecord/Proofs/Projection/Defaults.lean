import GoldenRecord.Projection
import GoldenRecord.Proofs.Coordinate
import GoldenRecord.Proofs.Writable

namespace GoldenRecord

open Binary64

theorem Coordinate.rounded_zero : rounded .zero = .zero := by
  have hzero : roundedRank .zero = 0 := roundedRank_zero rfl
  unfold rounded Finite.unsignedZero Finite.isZero
  rw [if_pos (beq_iff_eq.mpr hzero)]

theorem Coordinate.roundValue_zero : roundValue .zero = some .zero := by
  refine roundValue_eq_some.mpr ⟨.zero, rfl, ?_⟩
  rw [rounded_zero, Binary64.zero]

namespace Value

variable {v : Value}

/-- Text that reads as an infinity or as no number. -/
def IsNonFinite (v : Value) : Prop :=
  ∃ s w, v.json = .string s ∧ Numeral.ofText? s = some w ∧ w.isFinite = false

theorem isFinite_toBinary64 (n : Json.Number) : n.toBinary64.isFinite = true := by
  cases n with
  | int i hi => exact isFinite_ofInt hi
  | real x => rfl

/-- Numbers are finite, so only text reads as anything else. -/
theorem isNonFinite_iff : v.IsNonFinite ↔ ∃ w, v.number? = some w ∧ w.isFinite = false := by
  unfold IsNonFinite number?
  constructor
  · rintro ⟨s, w, hs, hw, hfinite⟩
    rw [hs]
    exact ⟨w, hw, hfinite⟩
  · rintro ⟨w, hw, hfinite⟩
    split at hw
    next n hn =>
      cases hw
      rw [isFinite_toBinary64] at hfinite
      cases hfinite
    next s hs => exact ⟨s, w, hs, hw, hfinite⟩
    next => cases hw

end Value

namespace Attributes

variable {a : Attributes} {key : String} {keys : List String} {x : Finite}

/-- The finite number that an attribute reads as; any other attribute is malformed. -/
def finite? (a : Attributes) (key : String) : Option Finite :=
  match a.number? key with
  | some (.finite x) => some x
  | _ => none

def IsNonFinite (a : Attributes) (key : String) : Prop := ∃ v, a.get? key = some v ∧ v.IsNonFinite

/-- The first attribute that is well-formed. -/
def firstFinite? (a : Attributes) (keys : List String) : Option Finite := keys.findSome? a.finite?

/-- The first attribute that reads as a number at all does not read as a finite one. -/
def LeadsNonFinite (a : Attributes) (keys : List String) : Prop :=
  ∃ before key after, keys = before ++ key :: after ∧ a.IsNonFinite key ∧
    ∀ k ∈ before, a.number? k = none

theorem finite?_eq_some : a.finite? key = some x ↔ a.number? key = some (.finite x) := by
  unfold finite?
  cases h : a.number? key with
  | none => simp
  | some w => cases w <;> simp

theorem isNonFinite_iff : a.IsNonFinite key ↔ ∃ w, a.number? key = some w ∧ w.isFinite = false := by
  unfold IsNonFinite number?
  cases a.get? key with
  | none => simp
  | some v => simp [Value.isNonFinite_iff]

/-- An attribute is no number, a finite one, or one that has no coordinate. -/
theorem number?_cases (a : Attributes) (key : String) :
    (a.number? key = none ∧ a.finite? key = none ∧ ¬ a.IsNonFinite key) ∨
    (∃ x, a.number? key = some (.finite x) ∧ a.finite? key = some x ∧ ¬ a.IsNonFinite key) ∨
    (∃ w, a.number? key = some w ∧ Coordinate.roundValue w = none ∧ a.finite? key = none ∧
      a.IsNonFinite key) := by
  rw [isNonFinite_iff]
  unfold finite?
  cases h : a.number? key with
  | none => exact .inl (by simp)
  | some w =>
    cases w with
    | finite x => exact .inr (.inl ⟨x, rfl, rfl, by simp [isFinite]⟩)
    | infinite negative => exact .inr (.inr ⟨_, rfl, rfl, rfl, _, rfl, rfl⟩)
    | nan => exact .inr (.inr ⟨_, rfl, rfl, rfl, _, rfl, rfl⟩)

theorem leadsNonFinite_cons : a.LeadsNonFinite (key :: keys) ↔
    a.IsNonFinite key ∨ a.number? key = none ∧ a.LeadsNonFinite keys := by
  constructor
  · rintro ⟨before, k, after, hkeys, hk, hbefore⟩
    cases before with
    | nil =>
      cases hkeys
      exact .inl hk
    | cons first before =>
      cases hkeys
      rw [List.forall_mem_cons] at hbefore
      exact .inr ⟨hbefore.1, before, k, after, rfl, hk, hbefore.2⟩
  · rintro (hk | ⟨hnone, before, k, after, rfl, hk, hbefore⟩)
    · exact ⟨[], key, keys, rfl, hk, by simp⟩
    · exact ⟨key :: before, k, after, rfl, hk, List.forall_mem_cons.mpr ⟨hnone, hbefore⟩⟩

theorem not_leadsNonFinite_nil : ¬ a.LeadsNonFinite [] := by
  rintro ⟨before, key, after, hkeys, -⟩
  simp at hkeys

theorem leadsNonFinite_singleton : a.LeadsNonFinite [key] ↔ a.IsNonFinite key := by
  rw [leadsNonFinite_cons, or_iff_left fun h => not_leadsNonFinite_nil h.2]

theorem numberOf?_cons_none (h : a.number? key = none) :
    a.numberOf? (key :: keys) = a.numberOf? keys := List.findSome?_cons_of_isNone (by rw [h]; rfl)

theorem numberOf?_cons_some {w : Binary64} (h : a.number? key = some w) :
    a.numberOf? (key :: keys) = some w := by
  unfold numberOf?
  rw [List.findSome?_cons_of_isSome (by rw [h]; rfl), h]

theorem firstFinite?_cons_none (h : a.finite? key = none) :
    a.firstFinite? (key :: keys) = a.firstFinite? keys :=
  List.findSome?_cons_of_isNone (by rw [h]; rfl)

theorem firstFinite?_cons_some (h : a.finite? key = some x) :
    a.firstFinite? (key :: keys) = some x := by
  unfold firstFinite?
  rw [List.findSome?_cons_of_isSome (by rw [h]; rfl), h]

/-- The rounded number under the first of some names, 0 if there is none: the attributes before the
first number are passed over, and that number decides whether there is a result. -/
theorem roundValue_numberOf? (a : Attributes) (keys : List String) (r : Binary64) :
    Coordinate.roundValue ((a.numberOf? keys).getD .zero) = some r ↔
      ¬ a.LeadsNonFinite keys ∧
        r = .finite (((a.firstFinite? keys).map Coordinate.rounded).getD .zero) := by
  induction keys with
  | nil =>
    have hnone : a.numberOf? [] = none ∧ a.firstFinite? [] = none := ⟨rfl, rfl⟩
    rw [hnone.1, hnone.2, Option.getD_none, Coordinate.roundValue_zero, Option.some.injEq,
      and_iff_right not_leadsNonFinite_nil, Option.map_none, Option.getD_none, Binary64.zero, eq_comm]
  | cons key keys ih =>
    rw [leadsNonFinite_cons]
    rcases a.number?_cases key with ⟨hnumber, hfinite, hnot⟩ | ⟨x, hnumber, hfinite, hnot⟩ |
      ⟨w, hnumber, hround, hfinite, hnonFinite⟩
    · rw [numberOf?_cons_none hnumber, firstFinite?_cons_none hfinite, or_iff_right hnot,
        and_iff_right hnumber, ih]
    · have hleads : ¬ (a.IsNonFinite key ∨ a.number? key = none ∧ a.LeadsNonFinite keys) := by
        simp [hnot, hnumber]
      rw [numberOf?_cons_some hnumber, firstFinite?_cons_some hfinite, and_iff_right hleads,
        Option.getD_some, Option.map_some, Option.getD_some, Coordinate.roundValue_eq_some]
      simp
    · rw [numberOf?_cons_some hnumber, Option.getD_some, hround]
      simp [hnonFinite]

theorem numberOf?_singleton (a : Attributes) (key : String) : a.numberOf? [key] = a.number? key := by
  unfold numberOf?
  rw [List.findSome?_cons]
  cases a.number? key <;> rfl

theorem firstFinite?_singleton (a : Attributes) (key : String) :
    a.firstFinite? [key] = a.finite? key := by
  unfold firstFinite?
  rw [List.findSome?_cons]
  cases a.finite? key <;> rfl

theorem size_eq_some_iff (a : Attributes) (r : Binary64) : a.size = some r ↔
    ¬ a.IsNonFinite "size" ∧ r = .finite (((a.finite? "size").map Coordinate.rounded).getD .zero) := by
  unfold size
  rw [← numberOf?_singleton, roundValue_numberOf?, leadsNonFinite_singleton, firstFinite?_singleton]

/-- The position in the document is decided by the first of two names that holds a number. -/
theorem doctop_eq_some_iff (a : Attributes) (r : Binary64) : a.doctop = some r ↔
    ∃ x, (a.finite? "doctop" = some x ∨
        a.finite? "doctop" = none ∧ ¬ a.IsNonFinite "doctop" ∧ a.finite? "top" = some x) ∧
      r = .finite (Coordinate.rounded x) := by
  unfold doctop
  rw [Coordinate.round_eq_some]
  rcases a.number?_cases "doctop" with ⟨hnumber, hfinite, hnot⟩ | ⟨x, hnumber, hfinite, hnot⟩ |
    ⟨w, hnumber, hround, hfinite, hnonFinite⟩
  · simp [hnumber, hfinite, hnot, finite?_eq_some]
  · simp [hnumber, hfinite]
  · have hnot : ∀ x, w ≠ .finite x := by
      rintro x rfl
      cases hround
    simp [hnumber, hfinite, hnonFinite, hnot]

/-- The defaults of projected numbers, with the fields that stay null. A size that is missing or no
number is 0; a line width is the first well-formed one of three names, or 0; the position in the
document falls back to the one on the page. Where the attribute that decides is text that reads as
an infinity or as no number, the field is null. -/
theorem defaults_unless_nonFinite (a : Attributes) (r : Binary64) :
    (a.toChar.size = some r ↔ ¬ a.IsNonFinite "size" ∧
      r = .finite (((a.finite? "size").map Coordinate.rounded).getD .zero)) ∧
    (a.toLine.linewidth = some r ↔ ¬ a.LeadsNonFinite ["linewidth", "line_width", "lw"] ∧
      r = .finite (((a.firstFinite? ["linewidth", "line_width", "lw"]).map
        Coordinate.rounded).getD .zero)) ∧
    a.toRect.linewidth = a.toLine.linewidth ∧
    (a.toChar.doctop = some r ↔
      ∃ x, (a.finite? "doctop" = some x ∨
          a.finite? "doctop" = none ∧ ¬ a.IsNonFinite "doctop" ∧ a.finite? "top" = some x) ∧
        r = .finite (Coordinate.rounded x)) ∧
    a.toWord.doctop = a.toChar.doctop :=
  ⟨a.size_eq_some_iff r, a.roundValue_numberOf? linewidthKeys r, rfl, a.doctop_eq_some_iff r, rfl⟩

/-- The defaults do not reach text that reads as an infinity or as no number. -/
theorem defaults_lost_to_nonFinite :
    (¬ ∀ a : Attributes, a.toChar.size ≠ none ∧
      (a.finite? "size" = none → a.toChar.size = some .zero)) ∧
    (¬ ∀ a : Attributes, a.toLine.linewidth ≠ none) ∧
    ¬ ∀ (a : Attributes) (x : Finite), a.finite? "doctop" = none → a.finite? "top" = some x →
      a.toWord.doctop = some (.finite (Coordinate.rounded x)) := by
  let a : Attributes := .ofList [("doctop", .ofJson (.string "1e999")),
    ("linewidth", .ofJson (.string "nan")), ("lw", .ofJson (.number (.int 2 (by decide)))),
    ("size", .ofJson (.string "inf")), ("top", .ofJson (.number (.real .zero)))]
  have hsize : a.toChar.size = none := by decide +kernel
  have hlinewidth : a.toLine.linewidth = none := by decide +kernel
  have hdoctop : a.toWord.doctop = none := by decide +kernel
  have hmissing : a.finite? "doctop" = none := by decide +kernel
  have htop : a.finite? "top" = some .zero := by decide +kernel
  refine ⟨fun h => (h a).1 hsize, fun h => h a hlinewidth, fun h => ?_⟩
  have hfallback := h a .zero hmissing htop
  rw [hdoctop] at hfallback
  cases hfallback

end Attributes

end GoldenRecord

import GoldenRecord.Json.Printer
import GoldenRecord.Projection
import GoldenRecord.Proofs.Numeral
import Mathlib.Data.List.Forall2

namespace GoldenRecord

/-- What projection looks for in an attribute: a truth value, a number, or a text or mere presence. -/
inductive Aspect where
  | flag
  | number
  | scalar
deriving DecidableEq

namespace Aspect

/-- Blanks may stand around a number that is written as text. -/
def allowsAround (aspect : Aspect) (c : Char) : Bool := aspect = .number ∧ Text.isBlank c

/-- An attribute that is missing or null. -/
def isNothing (v : Option Value) : Bool := v.all (·.isNull)

/-- Two ways to report the same attribute. -/
inductive Alike (aspect : Aspect) : Option Value → Option Value → Prop
  | same (v : Option Value) : Alike aspect v v
  | nothing {v w : Option Value} (hv : isNothing v = true) (hw : isNothing w = true) : Alike aspect v w
  | written {v w : Value} {n : Json.Number} (before after : String) (haspect : aspect ≠ .flag)
      (hbefore : ∀ c ∈ before.toList, aspect.allowsAround c = true)
      (hafter : ∀ c ∈ after.toList, aspect.allowsAround c = true) (hv : v.json = .number n)
      (hw : w.json = .string (before ++ (Json.number n).compact ++ after)) :
      Alike aspect (some v) (some w)
  | symm {v w : Option Value} (h : Alike aspect v w) : Alike aspect w v

def given (v : Option Value) : Option Value := v.filter (!·.isNull)

variable {aspect : Aspect} {v w : Option Value}

theorem given_of_isNothing (h : isNothing v = true) : given v = none := by
  cases v with
  | none => rfl
  | some v =>
    have hnull : v.isNull = true := h
    simp [given, hnull]

theorem given_of_number {v : Value} {n : Json.Number} (h : v.json = .number n) :
    given (some v) = some v := by simp [given, Value.isNull, h]

theorem given_of_string {v : Value} {s : String} (h : v.json = .string s) :
    given (some v) = some v := by simp [given, Value.isNull, h]

theorem Alike.isSome_given (h : Alike aspect v w) : (given v).isSome = (given w).isSome := by
  induction h with
  | same => rfl
  | nothing hv hw => rw [given_of_isNothing hv, given_of_isNothing hw]
  | written _ _ _ _ _ hv hw => rw [given_of_number hv, given_of_string hw]; rfl
  | symm _ ih => exact ih.symm

/-- A number is read from its text, blanks around it or not. -/
theorem Alike.number?_eq (h : Alike aspect v w) :
    (given v).bind Value.number? = (given w).bind Value.number? := by
  induction h with
  | same => rfl
  | nothing hv hw => rw [given_of_isNothing hv, given_of_isNothing hw]
  | @written v w n before after _ hbefore hafter hv hw =>
    have hblank : ∀ s : String, (∀ c ∈ s.toList, aspect.allowsAround c = true) →
        ∀ c ∈ s.toList, Text.isBlank c = true :=
      fun s hs c hc => (of_decide_eq_true (hs c hc)).2
    have htext : before ++ (Json.number n).compact ++ after =
        String.ofList (before.toList ++ (n.chars ++ after.toList)) := by
      apply String.toList_inj.mp
      simp [Json.compact, Json.compactChars]
    rw [given_of_number hv, given_of_string hw, Option.bind_some, Option.bind_some]
    unfold Value.number?
    rw [hv, hw, htext]
    exact (n.ofText?_padded (hblank before hbefore) (hblank after hafter)).symm
  | symm _ ih => exact ih.symm

/-- A number stands for its text where nothing may stand around it. -/
theorem Alike.text?_eq (h : Alike .scalar v w) :
    (given v).bind Value.text? = (given w).bind Value.text? := by
  induction h with
  | same => rfl
  | nothing hv hw => rw [given_of_isNothing hv, given_of_isNothing hw]
  | @written v w n before after _ hbefore hafter hv hw =>
    have hempty : ∀ s : String, (∀ c ∈ s.toList, Aspect.scalar.allowsAround c = true) → s = "" := by
      intro s hs
      refine String.toList_eq_nil_iff.mp (List.eq_nil_iff_forall_not_mem.mpr fun c hc => ?_)
      cases (of_decide_eq_true (hs c hc)).1
    rw [hempty before hbefore, hempty after hafter, String.empty_append, String.append_empty] at hw
    rw [given_of_number hv, given_of_string hw, Option.bind_some, Option.bind_some]
    unfold Value.text?
    rw [hv, hw]
    rfl
  | symm _ ih => exact ih.symm

theorem Alike.flag?_eq (h : Alike .flag v w) :
    (given v).bind Value.flag? = (given w).bind Value.flag? := by
  induction h with
  | same => rfl
  | nothing hv hw => rw [given_of_isNothing hv, given_of_isNothing hw]
  | written _ _ haspect => exact absurd rfl haspect
  | symm _ ih => exact ih.symm

end Aspect

namespace Attributes

/-- The attributes that projection reads. -/
def aspects : List (String × Aspect) :=
  [("text", .scalar), ("fontname", .scalar), ("x0", .number), ("top", .number), ("x1", .number),
    ("bottom", .number), ("size", .number), ("doctop", .number), ("linewidth", .number),
    ("line_width", .number), ("lw", .number), ("upright", .flag), ("stroke", .flag),
    ("fill", .flag), ("stroking_color", .scalar), ("non_stroking_color", .scalar)]

/-- Two objects that report the same, whatever else they carry. -/
def Alike (a b : Attributes) : Prop := ∀ e ∈ aspects, e.2.Alike (a.find? e.1) (b.find? e.1)

namespace Alike

variable {a b : Attributes}

theorem number?_eq (h : a.Alike b) (key : String) (hkey : (key, .number) ∈ aspects) :
    a.number? key = b.number? key := (h _ hkey).number?_eq

theorem text?_eq (h : a.Alike b) (key : String) (hkey : (key, .scalar) ∈ aspects) :
    a.text? key = b.text? key := (h _ hkey).text?_eq

theorem flag?_eq (h : a.Alike b) (key : String) (hkey : (key, .flag) ∈ aspects) :
    a.flag? key = b.flag? key := (h _ hkey).flag?_eq

theorem isPresent_eq (h : a.Alike b) (key : String) (hkey : (key, .scalar) ∈ aspects) :
    a.isPresent key = b.isPresent key := (h _ hkey).isSome_given

theorem coordinate_eq (h : a.Alike b) (key : String) (hkey : (key, .number) ∈ aspects) :
    a.coordinate key = b.coordinate key := congrArg Coordinate.round (h.number?_eq key hkey)

theorem linewidth_eq (h : a.Alike b) : a.linewidth = b.linewidth := by
  have hnumbers : a.numberOf? linewidthKeys = b.numberOf? linewidthKeys := by
    have h₁ := h.number?_eq "linewidth" (by decide)
    have h₂ := h.number?_eq "line_width" (by decide)
    have h₃ := h.number?_eq "lw" (by decide)
    simp only [numberOf?, linewidthKeys, List.findSome?_cons, List.findSome?_nil, h₁, h₂, h₃]
  unfold linewidth
  rw [hnumbers]

theorem doctop_eq (h : a.Alike b) : a.doctop = b.doctop := by
  unfold doctop
  rw [h.number?_eq "doctop" (by decide), h.number?_eq "top" (by decide)]

theorem toChar_eq (h : a.Alike b) : a.toChar = b.toChar := by
  unfold toChar size
  rw [h.text?_eq "text" (by decide), h.coordinate_eq "x0" (by decide),
    h.coordinate_eq "top" (by decide), h.coordinate_eq "x1" (by decide),
    h.coordinate_eq "bottom" (by decide), h.text?_eq "fontname" (by decide),
    h.number?_eq "size" (by decide), h.doctop_eq,
    h.flag?_eq "upright" (by decide)]

theorem toWord_eq (h : a.Alike b) : a.toWord = b.toWord := by
  unfold toWord
  rw [h.text?_eq "text" (by decide), h.coordinate_eq "x0" (by decide),
    h.coordinate_eq "top" (by decide), h.coordinate_eq "x1" (by decide),
    h.coordinate_eq "bottom" (by decide), h.doctop_eq]

theorem toLine_eq (h : a.Alike b) : a.toLine = b.toLine := by
  unfold toLine
  rw [h.coordinate_eq "x0" (by decide), h.coordinate_eq "top" (by decide),
    h.coordinate_eq "x1" (by decide), h.coordinate_eq "bottom" (by decide),
    h.linewidth_eq]

theorem toRect_eq (h : a.Alike b) : a.toRect = b.toRect := by
  unfold toRect
  rw [h.coordinate_eq "x0" (by decide), h.coordinate_eq "top" (by decide),
    h.coordinate_eq "x1" (by decide), h.coordinate_eq "bottom" (by decide),
    h.linewidth_eq, h.flag?_eq "stroke" (by decide),
    h.isPresent_eq "stroking_color" (by decide),
    h.flag?_eq "fill" (by decide),
    h.isPresent_eq "non_stroking_color" (by decide)]

end Alike

end Attributes

namespace RawTable

/-- Two cells that report the same; an empty one may be null. -/
inductive CellAlike : Value → Value → Prop
  | alike {v w : Value} (h : Aspect.scalar.Alike (some v) (some w)) : CellAlike v w
  | emptied {v w : Value} (hv : v.json = .null) (hw : w.json = .string "") : CellAlike v w
  | filled {v w : Value} (hv : v.json = .string "") (hw : w.json = .null) : CellAlike v w

/-- Two tables that report the same. Of the corners only four are looked at. -/
structure Alike (t u : RawTable) : Prop where
  bbox : ∀ place < 4, Aspect.number.Alike t.bbox[place]? u.bbox[place]?
  rows : List.Forall₂ (List.Forall₂ CellAlike) t.rows u.rows

variable {t u : RawTable}

/-- A null is no number and no text, so nothing is lost when it is passed over. -/
theorem bind_given {α : Type} {read : Value → Option α}
    (hnull : ∀ v : Value, v.json = .null → read v = none) (v : Option Value) :
    (Aspect.given v).bind read = v.bind read := by
  cases v with
  | none => rfl
  | some v =>
    by_cases hv : v.isNull = true
    · have hjson : v.json = .null := by
        unfold Value.isNull at hv
        split at hv
        next h => exact h
        next => cases hv
      simp [Aspect.given, hv, hnull v hjson]
    · have hgiven : Aspect.given (some v) = some v := by simp [Aspect.given, hv]
      rw [hgiven]

theorem Alike.corner_eq (h : t.Alike u) {place : Nat} (hplace : place < 4) :
    t.corner place = u.corner place := by
  have hnumber := (h.bbox place hplace).number?_eq
  have hnull : ∀ v : Value, v.json = .null → v.number? = none := by
    intro v hv
    unfold Value.number?
    rw [hv]
  rw [bind_given hnull, bind_given hnull] at hnumber
  exact congrArg Coordinate.round hnumber

theorem CellAlike.text_eq {v w : Value} (h : CellAlike v w) : v.text?.getD "" = w.text?.getD "" := by
  have hnull : ∀ v : Value, v.json = .null → v.text? = none := by
    intro v hv
    unfold Value.text?
    rw [hv]
  have hstring : ∀ v : Value, v.json = .string "" → v.text? = some "" := by
    intro v hv
    unfold Value.text?
    rw [hv]
  cases h with
  | alike h =>
    have htext := h.text?_eq
    rw [bind_given hnull, bind_given hnull] at htext
    exact congrArg (·.getD "") htext
  | emptied hv hw => rw [hnull v hv, hstring w hw]; rfl
  | filled hv hw => rw [hstring v hv, hnull w hw]; rfl

theorem map_eq_of_forall₂ {α β : Type} {r : α → α → Prop} {f : α → β}
    (hf : ∀ x y, r x y → f x = f y) {xs ys : List α} (h : List.Forall₂ r xs ys) :
    xs.map f = ys.map f := by
  have hequal : List.Forall₂ Eq (xs.map f) (ys.map f) :=
    List.forall₂_map_left_iff.mpr (List.forall₂_map_right_iff.mpr (h.imp hf))
  rwa [List.forall₂_eq_eq_eq] at hequal

theorem Alike.toTable_eq (h : t.Alike u) : t.toTable = u.toTable := by
  have hrow : ∀ row other, List.Forall₂ CellAlike row other →
      (row.map fun cell => cell.text?.getD "") = other.map fun cell => cell.text?.getD "" :=
    fun _ _ => map_eq_of_forall₂ fun _ _ h => h.text_eq
  have hrows := map_eq_of_forall₂ hrow h.rows
  unfold toTable
  rw [h.corner_eq (by decide : 0 < 4), h.corner_eq (by decide : 1 < 4),
    h.corner_eq (by decide : 2 < 4), h.corner_eq (by decide : 3 < 4), hrows]

end RawTable

/-- Records do not depend on how attributes, corners and cells are written. -/
theorem projection_of_alike :
    (∀ a b : Attributes, a.Alike b → a.toChar = b.toChar ∧ a.toWord = b.toWord ∧
      a.toLine = b.toLine ∧ a.toRect = b.toRect) ∧
    ∀ t u : RawTable, t.Alike u → t.toTable = u.toTable :=
  ⟨fun _ _ h => ⟨h.toChar_eq, h.toWord_eq, h.toLine_eq, h.toRect_eq⟩, fun _ _ h => h.toTable_eq⟩

/-- The width 1e16 as a number and as text between blanks, and an empty cell. -/
theorem projection_of_width_as_text :
    let wide : Finite := ⟨false, 4846369599423283200, by decide⟩
    let a : Attributes := ⟨[("fontname", .ofJson (.number (.int 7 (by decide)))),
      ("linewidth", .null), ("lw", .ofJson (.number (.real wide))), ("note", .null)], by decide⟩
    let b : Attributes := ⟨[("fontname", .ofJson (.string "7")),
      ("lw", .ofJson (.string "\u2003 1e+16\n"))], by decide⟩
    let t : RawTable := ⟨[.ofJson (.number (.int 18446744073709551615 (by decide))), .null], [[.null]]⟩
    let u : RawTable := ⟨[.ofJson (.string " 18446744073709551615")], [[.ofJson (.string "")]]⟩
    a.Alike b ∧ t.Alike u ∧ a.toChar = b.toChar ∧ a.toLine = b.toLine ∧ t.toTable = u.toTable := by
  intro wide a b t u
  have hwide : (Json.number (.real wide)).compact = "1e+16" := by decide +kernel
  have hblanks : ∀ {aspect : Aspect} {s : String}, s.toList.all aspect.allowsAround = true →
      ∀ c ∈ s.toList, aspect.allowsAround c = true := List.all_eq_true.mp
  have hfont : Aspect.scalar.Alike (some (.ofJson (.number (.int 7 (by decide)))))
      (some (.ofJson (.string "7"))) :=
    .written "" "" (by decide) (hblanks rfl) (hblanks rfl) rfl rfl
  have hlw : Aspect.number.Alike (some (.ofJson (.number (.real wide))))
      (some (.ofJson (.string "\u2003 1e+16\n"))) :=
    .written "\u2003 " "\n" (by decide) (hblanks (by decide)) (hblanks (by decide)) rfl
      (by rw [hwide]; rfl)
  have hcorner : Aspect.number.Alike
      (some (.ofJson (.number (.int 18446744073709551615 (by decide)))))
      (some (.ofJson (.string " 18446744073709551615"))) :=
    .written " " "" (by decide) (hblanks (by decide)) (hblanks rfl) rfl rfl
  have hothers : ∀ e ∈ Attributes.aspects, e = ("fontname", .scalar) ∨ e = ("lw", .number) ∨
      Aspect.isNothing (a.find? e.1) = true ∧ Aspect.isNothing (b.find? e.1) = true := by
    decide +kernel
  have hobjects : a.Alike b := by
    intro e he
    rcases hothers e he with rfl | rfl | ⟨ha, hb⟩
    · exact hfont
    · exact hlw
    · exact .nothing ha hb
  have htables : t.Alike u := by
    refine ⟨fun place hplace => ?_, .cons (.cons (.emptied rfl rfl) .nil) .nil⟩
    match place, hplace with
    | 0, _ => exact hcorner
    | 1, _ => exact .nothing rfl rfl
    | 2, _ | 3, _ => exact .same none
  obtain ⟨hchar, -, hline, -⟩ := projection_of_alike.1 a b hobjects
  exact ⟨hobjects, htables, hchar, hline, projection_of_alike.2 t u htables⟩

end GoldenRecord

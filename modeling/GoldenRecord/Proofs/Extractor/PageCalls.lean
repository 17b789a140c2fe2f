import GoldenRecord.Proofs.Extractor.Containment
import Mathlib.Data.List.Induction

namespace GoldenRecord

namespace View

def empty : (w : View) → w.Data
  | .chars => []
  | .words => []
  | .text => none
  | .lines => []
  | .rects => []
  | .tables => []

/-- The name under which failures of a view are recorded; those of the tables have a place of their
own. -/
def key? : View → Option String
  | .chars => some "chars"
  | .words => some "words"
  | .text => some "text"
  | .lines => some "lines"
  | .rects => some "rects"
  | .tables => none

/-- The answer of a view to a call, by the number of earlier calls for it: a recorded failure comes
first, then the data, then nothing more. -/
def answer (w : View) (failure : Option Failure) (data : w.Data) : Nat → Except Failure w.Data
  | 0 => failure.elim (.ok data) .error
  | 1 => .ok (if failure.isSome then data else w.empty)
  | _ + 2 => .ok w.empty

/-- The answers of one view among those of all. -/
def answersIn (w : View) (answers : List ((v : View) × Except Failure v.Data)) :
    List (Except Failure w.Data) :=
  answers.filterMap fun a => if h : a.1 = w then some (h ▸ a.2) else none

theorem eq_of_key? {v w : View} {name : String} (hv : v.key? = some name)
    (hw : w.key? = some name) : v = w := by
  rw [← hw] at hv
  cases v <;> cases w <;> first | rfl | exact absurd hv (by decide)

end View

namespace RawPage

def ask (p : RawPage) : (w : View) → Except Failure w.Data × RawPage
  | .chars => p.takeChars
  | .words => p.takeWords
  | .text => p.takeText
  | .lines => p.takeLines
  | .rects => p.takeRects
  | .tables => p.takeTables

def serve (p : RawPage) : List View → List ((w : View) × Except Failure w.Data) × RawPage
  | [] => ([], p)
  | w :: calls => (⟨w, (p.ask w).1⟩ :: ((p.ask w).2.serve calls).1, ((p.ask w).2.serve calls).2)

def recorded (p : RawPage) : (w : View) → w.Data
  | .chars => p.chars
  | .words => p.words
  | .text => p.text
  | .lines => p.lines
  | .rects => p.rects
  | .tables => p.tables

def fault? (p : RawPage) (w : View) : Option Failure :=
  match w.key? with
  | some name =>
    (p.viewErrors.find? name).map fun message => .page p.index (name ++ ": " ++ message)
  | none => p.tableError.map (.tables p.index)

def withoutData (p : RawPage) : View → RawPage
  | .chars => { p with chars := [] }
  | .words => { p with words := [] }
  | .text => { p with text := none }
  | .lines => { p with lines := [] }
  | .rects => { p with rects := [] }
  | .tables => { p with tables := [] }

def withoutFault (p : RawPage) (w : View) : RawPage :=
  match w.key? with
  | some name => { p with viewErrors := p.viewErrors.erase name }
  | none => { p with tableError := none }

variable {p : RawPage} {v w : View}

theorem view_eq {α : Type} (p : RawPage) (name : String) (take : RawPage → α × RawPage) :
    p.view name take =
      match (p.viewErrors.find? name).map fun message =>
        Failure.page p.index (name ++ ": " ++ message) with
      | some f => (.error f, { p with viewErrors := p.viewErrors.erase name })
      | none => (.ok (take p).1, (take p).2) := by
  unfold view
  cases p.viewErrors.find? name <;> rfl

/-- A call gives out the failure of the view and takes it away, or else its data. -/
theorem ask_eq (p : RawPage) (w : View) :
    p.ask w = match p.fault? w with
      | some f => (.error f, p.withoutFault w)
      | none => (.ok (p.recorded w), p.withoutData w) := by
  cases w with
  | chars => exact p.view_eq "chars" fun q => (q.chars, { q with chars := [] })
  | words => exact p.view_eq "words" fun q => (q.words, { q with words := [] })
  | text => exact p.view_eq "text" fun q => (q.text, { q with text := none })
  | lines => exact p.view_eq "lines" fun q => (q.lines, { q with lines := [] })
  | rects => exact p.view_eq "rects" fun q => (q.rects, { q with rects := [] })
  | tables =>
    obtain ⟨_, _, _, _, _, _, _, _, _, tableError, _⟩ := p
    cases tableError <;> rfl

section Parts

theorem fault?_withoutData (p : RawPage) (v w : View) : (p.withoutData w).fault? v = p.fault? v := by
  cases w <;> rfl

theorem recorded_withoutFault (p : RawPage) (v w : View) :
    (p.withoutFault w).recorded v = p.recorded v := by
  cases w <;> cases v <;> rfl

theorem recorded_withoutData (p : RawPage) (v w : View) :
    (p.withoutData w).recorded v = if v = w then v.empty else p.recorded v := by
  cases v <;> cases w <;> rfl

theorem fault?_withoutFault (p : RawPage) (v w : View) :
    (p.withoutFault w).fault? v = if v = w then none else p.fault? v := by
  by_cases h : v = w
  · subst h
    rw [if_pos rfl]
    unfold withoutFault fault?
    cases hv : v.key? with
    | none => rfl
    | some name => simp [TextMap.find?_erase]
  · rw [if_neg h]
    unfold withoutFault fault?
    cases hw : w.key? with
    | none =>
      cases hv : v.key? with
      | none => cases v <;> cases w <;> simp_all [View.key?]
      | some name => rfl
    | some other =>
      cases hv : v.key? with
      | none => rfl
      | some name =>
        have hne : name ≠ other := fun e => h (View.eq_of_key? (e ▸ hv) hw)
        simp only [TextMap.find?_erase, if_neg hne]
        rfl

theorem withoutData_comm (p : RawPage) (v w : View) :
    (p.withoutData v).withoutData w = (p.withoutData w).withoutData v := by
  cases v <;> cases w <;> rfl

theorem withoutFault_withoutData (p : RawPage) (v w : View) :
    (p.withoutData v).withoutFault w = (p.withoutFault w).withoutData v := by
  cases v <;> cases w <;> rfl

theorem withoutFault_comm (p : RawPage) (v w : View) :
    (p.withoutFault v).withoutFault w = (p.withoutFault w).withoutFault v := by
  unfold withoutFault
  cases v.key? with
  | none => cases w.key? <;> rfl
  | some name =>
    cases w.key? with
    | none => rfl
    | some other => simp only [TextMap.erase_comm]

end Parts

section Calls

theorem ask_answer (p : RawPage) (w : View) :
    (p.ask w).1 = w.answer (p.fault? w) (p.recorded w) 0 := by
  rw [ask_eq]
  cases p.fault? w <;> rfl

theorem ask_page (p : RawPage) (w : View) :
    (p.ask w).2 = if (p.fault? w).isSome then p.withoutFault w else p.withoutData w := by
  rw [ask_eq]
  cases p.fault? w <;> rfl

theorem ask_other (p : RawPage) (h : v ≠ w) :
    (p.ask w).2.fault? v = p.fault? v ∧ (p.ask w).2.recorded v = p.recorded v := by
  rw [ask_page]
  split
  next => exact ⟨by rw [fault?_withoutFault, if_neg h], p.recorded_withoutFault v w⟩
  next => exact ⟨p.fault?_withoutData v w, by rw [recorded_withoutData, if_neg h]⟩

/-- The view itself has no failure any more, and no data unless a failure came first. -/
theorem ask_own (p : RawPage) (w : View) :
    (p.ask w).2.fault? w = none ∧
      (p.ask w).2.recorded w = if (p.fault? w).isSome then p.recorded w else w.empty := by
  rw [ask_page]
  split
  next => exact ⟨by rw [fault?_withoutFault, if_pos rfl], p.recorded_withoutFault w w⟩
  next h =>
    refine ⟨?_, by rw [recorded_withoutData, if_pos rfl]⟩
    rw [fault?_withoutData]
    simpa using h

/-- A call for a view moves its own answers one step on, and those of no other view. -/
theorem answer_ask (p : RawPage) (v w : View) (k : Nat) :
    v.answer ((p.ask w).2.fault? v) ((p.ask w).2.recorded v) k =
      v.answer (p.fault? v) (p.recorded v) ([w].count v + k) := by
  by_cases h : v = w
  · subst h
    obtain ⟨hfault, hdata⟩ := p.ask_own v
    rw [hfault, hdata, List.count_singleton_self, Nat.add_comm]
    match k with
    | 0 => rfl
    | 1 => rfl
    | _ + 2 => rfl
  · obtain ⟨hfault, hdata⟩ := p.ask_other h
    have hnone : [w].count v = 0 := List.count_eq_zero.mpr (by simpa using h)
    rw [hfault, hdata, hnone, Nat.zero_add]

/-- It does not matter which of two views is asked for first. -/
theorem ask_comm (p : RawPage) (v w : View) :
    ((p.ask v).2.ask w).2 = ((p.ask w).2.ask v).2 := by
  by_cases h : v = w
  · rw [h]
  · rw [ask_page (p.ask v).2, ask_page (p.ask w).2, (p.ask_other (Ne.symm h)).1,
      (p.ask_other h).1, ask_page p v, ask_page p w]
    cases (p.fault? v).isSome <;> cases (p.fault? w).isSome
    · exact p.withoutData_comm v w
    · exact p.withoutFault_withoutData v w
    · exact (p.withoutFault_withoutData w v).symm
    · exact p.withoutFault_comm v w

end Calls

section Runs

theorem serve_append (p : RawPage) (calls more : List View) :
    p.serve (calls ++ more) =
      ((p.serve calls).1 ++ ((p.serve calls).2.serve more).1, ((p.serve calls).2.serve more).2) := by
  induction calls generalizing p with
  | nil => rfl
  | cons w calls ih => simp only [List.cons_append, serve, ih]

theorem length_serve (p : RawPage) (calls : List View) : (p.serve calls).1.length = calls.length := by
  induction calls generalizing p with
  | nil => rfl
  | cons w calls ih => rw [serve, List.length_cons, List.length_cons, ih]

/-- After some calls, a view goes on where its own ones have left it. -/
theorem answer_serve (p : RawPage) (w : View) (calls : List View) (k : Nat) :
    w.answer ((p.serve calls).2.fault? w) ((p.serve calls).2.recorded w) k =
      w.answer (p.fault? w) (p.recorded w) (calls.count w + k) := by
  induction calls generalizing p with
  | nil => rw [List.count_nil, Nat.zero_add]; rfl
  | cons v calls ih =>
    have hcount : (v :: calls).count w = [v].count w + calls.count w := by
      rw [← List.singleton_append, List.count_append]
    rw [serve, ih, answer_ask, hcount, Nat.add_assoc]

theorem serve_at (p : RawPage) (before : List View) (w : View) (after : List View) :
    (p.serve (before ++ w :: after)).1[before.length]? =
      some ⟨w, w.answer (p.fault? w) (p.recorded w) (before.count w)⟩ := by
  have hlength := p.length_serve before
  rw [serve_append, List.getElem?_append_right (Nat.le_of_eq hlength), hlength, Nat.sub_self, serve,
    List.getElem?_cons_zero, ask_answer, answer_serve, Nat.add_zero]

theorem answersIn_serve (p : RawPage) (w : View) (calls : List View) :
    w.answersIn (p.serve calls).1 =
      (List.range (calls.count w)).map (w.answer (p.fault? w) (p.recorded w)) := by
  induction calls using List.reverseRecOn with
  | nil => rfl
  | append_singleton calls v ih =>
    rw [serve_append, View.answersIn, List.filterMap_append]
    change w.answersIn (p.serve calls).1 ++ w.answersIn [⟨v, ((p.serve calls).2.ask v).1⟩] = _
    rw [ih, List.count_append]
    by_cases h : v = w
    · subst h
      rw [List.count_singleton_self, List.range_succ, List.map_append, ask_answer, answer_serve]
      simp [View.answersIn]
    · have hnone : [v].count w = 0 := List.count_eq_zero.mpr (by simpa using Ne.symm h)
      rw [hnone]
      simp [View.answersIn, h]

/-- What is left of a page does not depend on the order of the calls. -/
theorem serve_perm {calls others : List View} (h : calls.Perm others) (p : RawPage) :
    (p.serve calls).2 = (p.serve others).2 := by
  induction h generalizing p with
  | nil => rfl
  | cons w _ ih => exact ih (p.ask w).2
  | swap v w calls =>
    change (((p.ask w).2.ask v).2.serve calls).2 = (((p.ask v).2.ask w).2.serve calls).2
    rw [ask_comm]
  | trans _ _ ih ih' => exact (ih p).trans (ih' p)

end Runs

/-- The answer to a call for a view is determined by what is recorded of that view and by the number
of earlier calls for it: a recorded failure first, then the data, then nothing more. So calls in any
two orders leave the same page, and each view gives the same answers one after the other, if each
view is asked for as often in the one as in the other. -/
theorem serve_interleaved (p : RawPage) :
    (∀ before w after, (p.serve (before ++ w :: after)).1[before.length]? =
      some ⟨w, w.answer (p.fault? w) (p.recorded w) (before.count w)⟩) ∧
    ∀ calls others : List View, (∀ w, calls.count w = others.count w) →
      (p.serve calls).2 = (p.serve others).2 ∧
      ∀ w : View, w.answersIn (p.serve calls).1 = w.answersIn (p.serve others).1 := by
  refine ⟨p.serve_at, fun calls others hcount => ⟨?_, fun w => ?_⟩⟩
  · exact serve_perm (List.perm_iff_count.mpr hcount) p
  · rw [answersIn_serve, answersIn_serve, hcount w]

/-- A page whose text fails at first, asked for it three times, before or after another view. -/
theorem serve_interleaved_of_failed_text :
    let p : RawPage :=
      { pageNumber := 2, text := some "cover", viewErrors := .ofList [("text", "no font")] }
    let calls : List View := [.text, .chars, .text, .text]
    let others : List View := [.chars, .text, .text, .text]
    (∀ w, calls.count w = others.count w) ∧ (p.serve calls).2 = (p.serve others).2 ∧
      (p.serve calls).1[2]? = some ⟨.text, .ok (some "cover")⟩ ∧
      View.text.answersIn (p.serve others).1 =
        [.error (.page 1 "text: no font"), .ok (some "cover"), .ok none] := by
  intro p calls others
  have hcount : ∀ w, calls.count w = others.count w := by
    intro w
    cases w <;> rfl
  obtain ⟨hat, hsame⟩ := p.serve_interleaved
  obtain ⟨hpage, hanswers⟩ := hsame calls others hcount
  refine ⟨hcount, hpage, hat [.text, .chars] .text [.text], ?_⟩
  rw [← hanswers .text]
  rfl

end RawPage

end GoldenRecord

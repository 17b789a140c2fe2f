import GoldenRecord.Extractor.Session
import GoldenRecord.Proofs.Batch.Isolation

namespace GoldenRecord

namespace Session

variable {m : MemoryExtractor}

namespace Call

def opens (m : MemoryExtractor) : Call → Bool
  | .openDocument _ p => (m.openDocument p).isOk
  | _ => false

def releases? : Call → Option Nat
  | .close i => some i
  | .drop i => some i
  | _ => none

theorem releases?_of_opens {call : Call} (h : call.opens m = true) : call.releases? = none := by
  cases call with
  | openDocument t p => rfl
  | nextPage i => cases h
  | close i => cases h
  | drop i => cases h

end Call

section Calls

variable {calls : List Call} {call : Call} {i : Nat}

def openings (m : MemoryExtractor) (calls : List Call) : Nat := calls.countP (Call.opens m)

/-- A handle was closed or let go by one of the calls, after it had been given out. -/
def IsReleased (m : MemoryExtractor) (calls : List Call) (i : Nat) : Prop :=
  ∃ k < calls.length, i < openings m (calls.take k) ∧ (calls[k]?).bind Call.releases? = some i

instance (m : MemoryExtractor) (calls : List Call) (i : Nat) : Decidable (IsReleased m calls i) :=
  inferInstanceAs (Decidable (∃ k < calls.length,
    i < openings m (calls.take k) ∧ (calls[k]?).bind Call.releases? = some i))

theorem openings_concat (m : MemoryExtractor) (calls : List Call) (call : Call) :
    openings m (calls ++ [call]) = openings m calls + if call.opens m then 1 else 0 := by
  simp [openings, List.countP_append, List.countP_singleton]

theorem lt_openings_of_isReleased (h : IsReleased m calls i) : i < openings m calls := by
  obtain ⟨k, -, hi, -⟩ := h
  have hle : openings m (calls.take k) ≤ openings m calls := (List.take_sublist k calls).countP_le
  omega

theorem isReleased_concat_iff :
    IsReleased m (calls ++ [call]) i ↔
      IsReleased m calls i ∨ (i < openings m calls ∧ call.releases? = some i) := by
  constructor
  · rintro ⟨k, hk, hi, hcall⟩
    rw [List.length_append, List.length_singleton] at hk
    by_cases hlast : k = calls.length
    · subst hlast
      exact .inr ⟨by simpa using hi, by simpa using hcall⟩
    · have hk : k < calls.length := by omega
      rw [List.take_append_of_le_length (Nat.le_of_lt hk)] at hi
      rw [List.getElem?_append_left hk] at hcall
      exact .inl ⟨k, hk, hi, hcall⟩
  · rintro (⟨k, hk, hi, hcall⟩ | ⟨hi, hcall⟩)
    · have hlater : k < (calls ++ [call]).length := by
        rw [List.length_append]
        omega
      refine ⟨k, hlater, ?_, ?_⟩
      · rwa [List.take_append_of_le_length (Nat.le_of_lt hk)]
      · rwa [List.getElem?_append_left hk]
    · exact ⟨calls.length, by simp, by simpa using hi, by simpa using hcall⟩

/-- Which of the handles given out so far were released. -/
def released (m : MemoryExtractor) (calls : List Call) : List Bool :=
  (List.range (openings m calls)).map fun i => decide (IsReleased m calls i)

theorem released_concat_of_opens (h : call.opens m = true) :
    released m (calls ++ [call]) = released m calls ++ [false] := by
  have hsame : ∀ i, IsReleased m (calls ++ [call]) i ↔ IsReleased m calls i :=
    fun i => isReleased_concat_iff.trans (by simp [Call.releases?_of_opens h])
  have hnew : ¬ IsReleased m calls (openings m calls) :=
    fun hr => Nat.lt_irrefl _ (lt_openings_of_isReleased hr)
  simp [released, openings_concat, h, List.range_succ, hsame, hnew]

theorem released_concat_of_not_opens (h : call.opens m = false) :
    released m (calls ++ [call]) =
      match call.releases? with
      | none => released m calls
      | some i => (released m calls).set i true := by
  apply List.ext_getElem?
  intro j
  have hcount : openings m (calls ++ [call]) = openings m calls := by simp [openings_concat, h]
  unfold released
  rw [hcount]
  cases hcall : call.releases? with
  | none => simp [isReleased_concat_iff, hcall]
  | some i =>
    by_cases hj : j < openings m calls
    · by_cases hij : i = j
      · subst hij
        simp [isReleased_concat_iff, hcall, hj]
      · simp [isReleased_concat_iff, hcall, hj, hij]
    · simp [hj]

end Calls

section Marks

variable {s : Session m.toExtractor} {i : Nat}

/-- Whether what is left of a handle counts as released. -/
def isDone : Option m.toExtractor.Handle → Bool
  | none => true
  | some d => !MemoryDocument.isOpen d

/-- The same of all handles given out. -/
def marks (s : Session m.toExtractor) : List Bool := s.handles.map isDone

theorem marks_of_held {d : m.toExtractor.Handle} (h : s.held i = some d) :
    s.marks[i]? = some (isDone (some d)) := by
  have hi : s.handles[i]? = some (some d) := Option.join_eq_some_iff.mp h
  simp [marks, hi]

theorem set_of_getElem? {α : Type} {l : List α} {a : α} (h : ∀ b, l[i]? = some b → b = a) :
    l.set i a = l := by
  apply List.ext_getElem?
  intro j
  rw [List.getElem?_set]
  by_cases hij : i = j
  · subst hij
    rw [if_pos rfl]
    split
    next hi => rw [List.getElem?_eq_getElem hi, h _ (List.getElem?_eq_getElem hi)]
    next hi => rw [List.getElem?_eq_none (Nat.le_of_not_lt hi)]
  · rw [if_neg hij]

/-- A handle that the client no longer has, or never had, has nothing more to release. -/
theorem marks_of_not_held (h : s.held i = none) : s.marks.set i true = s.marks := by
  apply set_of_getElem?
  intro b hb
  rw [marks, List.getElem?_map] at hb
  cases hi : s.handles[i]? with
  | none => simp [hi] at hb
  | some handle =>
    have hgone : handle = none := by simpa [held, hi] using h
    rw [hi, hgone] at hb
    exact (Option.some.inj hb).symm

theorem marks_set (i : Nat) (handle : Option m.toExtractor.Handle) (state : Nat) :
    marks ⟨s.handles.set i handle, state⟩ = s.marks.set i (isDone handle) := List.map_set

theorem isDone_release (d : MemoryDocument) :
    isDone (m := m) (some d.release.1) = true := by
  cases h : d.isOpen <;> simp [isDone, MemoryDocument.release, h]

theorem isDone_nextPage (d : MemoryDocument) :
    isDone (m := m) (some d.nextPage.2) = isDone (m := m) (some d) := by
  unfold MemoryDocument.nextPage
  cases d.pages <;> rfl

theorem release_count (d : MemoryDocument) :
    d.release.2 = if isDone (m := m) (some d) then 0 else 1 := by
  cases h : d.isOpen <;> simp [isDone, MemoryDocument.release, h]

/-- What a call does: it gives out a handle, or releases one that the client has, or neither. -/
theorem call_cases (s : Session m.toExtractor) (c : Call) :
    (c.opens m = true ∧ ∃ d : m.toExtractor.Handle, isDone (some d) = false ∧
      s.call c = ⟨s.handles ++ [some d], s.state⟩) ∨
    (c.opens m = false ∧ (∀ i ∈ c.releases?, s.held i = none) ∧
      (s.call c).marks = s.marks ∧ (s.call c).state = s.state) ∨
    (c.opens m = false ∧ ∃ i d handle, c.releases? = some i ∧ s.held i = some d ∧
      isDone handle = true ∧
      s.call c = ⟨s.handles.set i handle, s.state + (MemoryDocument.release d).2⟩) := by
  cases c with
  | openDocument t p =>
    cases ho : m.openDocument p with
    | error f =>
      have hcall : s.call (.openDocument t p) = s := call_unopened (congrArg (·, s.state) ho)
      have hopens : (Call.openDocument t p).opens m = false := by
        simp [Call.opens, ho, Except.isOk, Except.toBool]
      exact .inr (.inl ⟨hopens, by simp [Call.releases?], by rw [hcall], by rw [hcall]⟩)
    | ok d =>
      have hnew : isDone (m := m) (some d) = false := by
        obtain ⟨pages, fits, -, rfl⟩ := m.openDocument_ok ho
        rfl
      have hopens : (Call.openDocument t p).opens m = true := by
        simp [Call.opens, ho, Except.isOk, Except.toBool]
      exact .inl ⟨hopens, d, hnew, call_opened (congrArg (·, s.state) ho)⟩
  | nextPage i =>
    refine .inr (.inl ⟨rfl, by simp [Call.releases?], ?_⟩)
    cases hd : s.held i with
    | none => exact ⟨by rw [call_nextPage_of_not_held hd], by rw [call_nextPage_of_not_held hd]⟩
    | some d =>
      rw [call_nextPage hd rfl]
      -- a handle that has gone on by a page is as open as it was
      refine ⟨(marks_set i _ _).trans (set_of_getElem? fun b hb => ?_), rfl⟩
      rw [marks_of_held hd] at hb
      exact (Option.some.inj hb).symm.trans (isDone_nextPage d).symm
  | close i =>
    cases hd : s.held i with
    | none =>
      have hcall : s.call (.close i) = s := call_close_of_not_held hd
      exact .inr (.inl ⟨rfl, fun _ hi => by cases hi; exact hd, by rw [hcall], by rw [hcall]⟩)
    | some d => exact .inr (.inr ⟨rfl, i, d, _, rfl, hd, isDone_release d, call_close hd rfl⟩)
  | drop i =>
    cases hd : s.held i with
    | none =>
      have hcall : s.call (.drop i) = s := call_drop_of_not_held hd
      exact .inr (.inl ⟨rfl, fun _ hi => by cases hi; exact hd, by rw [hcall], by rw [hcall]⟩)
    | some d => exact .inr (.inr ⟨rfl, i, d, none, rfl, hd, rfl, call_drop hd⟩)

theorem marks_call (s : Session m.toExtractor) (c : Call) :
    (s.call c).marks =
      if c.opens m then s.marks ++ [false]
      else match c.releases? with
        | none => s.marks
        | some i => s.marks.set i true := by
  rcases s.call_cases c with ⟨ho, d, hd, hcall⟩ | ⟨ho, hgone, hmarks, -⟩ |
    ⟨ho, i, d, handle, hi, -, hdone, hcall⟩
  · rw [hcall, if_pos ho, ← hd]
    exact List.map_append
  · rw [hmarks, if_neg (by simp [ho])]
    cases hi : c.releases? with
    | none => rfl
    | some i => exact (marks_of_not_held (hgone i hi)).symm
  · rw [hcall, if_neg (by simp [ho]), hi, marks_set, hdone]

/-- Releasing a handle counts it, unless it was counted before. -/
theorem count_release {d : m.toExtractor.Handle} (hd : s.held i = some d)
    (h : s.state = s.marks.count true) :
    s.state + (MemoryDocument.release d).2 = (s.marks.set i true).count true := by
  obtain ⟨hi, hmark⟩ := List.getElem?_eq_some_iff.mp (marks_of_held hd)
  have hadded : (MemoryDocument.release d).2 = if isDone (some d) then 0 else 1 := release_count d
  rw [List.count_set hi, hmark]
  cases hdone : isDone (some d) with
  | false =>
    simp only [hdone, Bool.false_eq_true, if_false] at hadded
    simp only [beq_self_eq_true, if_true, Bool.false_beq, Bool.not_true, Bool.false_eq_true, if_false]
    omega
  | true =>
    simp only [hdone, if_true] at hadded
    have hmem : true ∈ s.marks := List.mem_of_getElem? ((marks_of_held hd).trans (by rw [hdone]))
    have hpos : 0 < s.marks.count true := List.count_pos_iff.mpr hmem
    simp only [beq_self_eq_true, if_true]
    omega

/-- The extractor keeps count of the handles that were released. -/
theorem counted_call {c : Call} (h : s.state = s.marks.count true) :
    (s.call c).state = (s.call c).marks.count true := by
  rcases s.call_cases c with ⟨ho, d, -, hcall⟩ | ⟨-, -, hmarks, hstate⟩ |
    ⟨-, i, d, handle, -, hd, hdone, hcall⟩
  · have hmarks : (s.call c).marks = s.marks ++ [false] := by rw [marks_call, if_pos ho]
    rw [hmarks, hcall, h]
    simp
  · rw [hstate, hmarks, h]
  · rw [hcall, marks_set, hdone]
    exact count_release hd h

end Marks

/-- Calls that follow others release what they are to release, and it is counted. -/
theorem run_released {s : Session m.toExtractor} {before : List Call}
    (hmarks : s.marks = released m before) (hcount : s.state = s.marks.count true)
    (calls : List Call) :
    (s.run calls).marks = released m (before ++ calls) ∧
      (s.run calls).state = (s.run calls).marks.count true := by
  induction calls generalizing s before with
  | nil => exact ⟨by rw [List.append_nil]; exact hmarks, hcount⟩
  | cons c rest ih =>
    have hnext : (s.call c).marks = released m (before ++ [c]) := by
      rw [marks_call, hmarks]
      cases ho : c.opens m with
      | true => exact (released_concat_of_opens ho).symm
      | false => exact (released_concat_of_not_opens ho).symm
    rw [List.append_cons]
    exact ih hnext (counted_call hcount)

end Session

def MemoryExtractor.hasPages (m : MemoryExtractor) (name : String) : Bool :=
  match m.recordings.find? name with
  | some (.pages _ _) => true
  | _ => false

theorem MemoryExtractor.isOk_openDocument {m : MemoryExtractor} {p : Path} {name : String}
    (h : p.fileName? = some name) : (m.openDocument p).isOk = m.hasPages name := by
  unfold openDocument hasPages
  rw [h, Option.getD_some]
  cases m.recordings.find? name with
  | none => rfl
  | some recording => cases recording <;> rfl

namespace Batch

variable {m : MemoryExtractor} {c : Config}

/-- Whether handling an input opens a document. -/
def opensInput (m : MemoryExtractor) (c : Config) (p : Path) : Bool :=
  !c.isSkipped p && (m.openDocument p).isOk

theorem processFile_state (m : MemoryExtractor) (c : Config) (p : Path) (w : World Nat) :
    (processFile m.toExtractor c p w).2.state =
      w.state + if opensInput m c p then 1 else 0 := by
  unfold processFile opensInput
  cases hs : c.isSkipped p with
  | true => simp
  | false =>
    rw [m.extract_eq]
    cases m.answer p with
    | error s => cases s <;> simp
    | ok d =>
      dsimp only
      cases w.tree.writeAtomic (c.artifact p) (d.goldenBytes c.profile) with
      | mk written tree => cases written <;> simp

/-- A run over some inputs that comes to an end has released a handle for each document it opened. -/
theorem processAll_state {written inputs : List Path} {w w' : World Nat} {entries : List Entry}
    (h : processAll m.toExtractor c written inputs w = (.ok entries, w')) :
    w'.state = w.state + inputs.countP (opensInput m c) := by
  induction inputs generalizing written w entries with
  | nil => cases h; rfl
  | cons p rest ih =>
    obtain ⟨outcome, after, more, hhandle, hrest, -⟩ := processAll_cons_ok h
    obtain ⟨-, -, hstate⟩ := handle_ok hhandle
    have hfile := processFile_state m c p w
    have hlater := ih hrest
    rw [List.countP_cons]
    omega

end Batch

/-- The number of released handles, on recorded documents. Whatever calls a client makes, it is that of
the handles that were given out and then closed or let go, no matter how often. After a run with a
report it is that of the discovered inputs which are not on the skip list and have recorded pages. -/
theorem released_handles (m : MemoryExtractor) :
    (∀ calls, ((Session.start m.toExtractor 0).run calls).handles.length =
        Session.openings m calls ∧
      ((Session.start m.toExtractor 0).run calls).state =
        (List.range (Session.openings m calls)).countP fun i => Session.IsReleased m calls i) ∧
    ∀ (c : Batch.Config) (t : Tree) r w, Batch.run m.toExtractor c ⟨t, 0⟩ = (.ok r, w) →
      ∃ inputs, Batch.discover t c c.inputs = .ok inputs ∧
        w.state = inputs.countP fun p => !c.skips.contains p.sourceName && m.hasPages p.sourceName := by
  constructor
  · intro calls
    have hstart : (Session.start m.toExtractor 0).marks = Session.released m [] := rfl
    obtain ⟨hmarks, hcount⟩ := Session.run_released hstart rfl calls
    rw [List.nil_append] at hmarks
    constructor
    · have hlength := congrArg List.length hmarks
      simpa [Session.marks, Session.released] using hlength
    · rw [hcount, hmarks, Session.released, List.count_eq_countP, List.countP_map]
      exact List.countP_congr fun i _ => by simp
  · intro c t r w h
    obtain ⟨inputs, tree, hd, -, hp⟩ := Batch.run_ok h
    refine ⟨inputs, hd, ?_⟩
    rw [Batch.processAll_state hp, Nat.zero_add]
    refine List.countP_congr fun p hp => ?_
    have hname := Batch.sourceName_of_accepts (Batch.mem_discover hd hp)
    rw [Batch.opensInput, Batch.Config.isSkipped, MemoryExtractor.isOk_openDocument hname]

end GoldenRecord

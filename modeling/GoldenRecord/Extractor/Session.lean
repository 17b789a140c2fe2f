import GoldenRecord.Extractor.Basic

namespace GoldenRecord

/-- A call of a client. Handles are numbered from 0 in the order in which they were given out. -/
inductive Session.Call where
  | openDocument (t : Tree) (p : Path)
  | nextPage (handle : Nat)
  | close (handle : Nat)
  | drop (handle : Nat)

variable {State : Type}

structure Session (e : Extractor State) where
  /-- The handles given out so far; those let go leave a gap. -/
  handles : List (Option e.Handle)
  state : State

namespace Session

variable {e : Extractor State}

def start (e : Extractor State) (state : State) : Session e := ⟨[], state⟩

def held (s : Session e) (i : Nat) : Option e.Handle := s.handles[i]?.join

/-- A call about a handle that the client does not have is none. -/
def call (s : Session e) : Call → Session e
  | .openDocument t p =>
    match e.openDocument t p s.state with
    | (.error _, state) => { s with state }
    | (.ok h, state) => ⟨s.handles ++ [some h], state⟩
  | .nextPage i =>
    match s.held i with
    | none => s
    | some h =>
      let ((_, h), state) := e.nextPage h s.state
      ⟨s.handles.set i (some h), state⟩
  | .close i =>
    match s.held i with
    | none => s
    | some h =>
      let ((_, h), state) := e.close h s.state
      ⟨s.handles.set i (some h), state⟩
  | .drop i =>
    match s.held i with
    | none => s
    | some h => ⟨s.handles.set i none, (e.drop h s.state).2⟩

def run (s : Session e) (calls : List Call) : Session e := calls.foldl call s

variable {s : Session e} {state : State} {i : Nat} {h h' : e.Handle}

theorem call_opened {t : Tree} {p : Path} (ho : e.openDocument t p s.state = (.ok h, state)) :
    s.call (.openDocument t p) = ⟨s.handles ++ [some h], state⟩ := by
  simp only [call, ho]

theorem call_unopened {t : Tree} {p : Path} {f : Failure}
    (ho : e.openDocument t p s.state = (.error f, state)) :
    s.call (.openDocument t p) = { s with state } := by
  simp only [call, ho]

theorem call_nextPage {page : Except Failure (Option e.Page)} (hi : s.held i = some h)
    (hn : e.nextPage h s.state = ((page, h'), state)) :
    s.call (.nextPage i) = ⟨s.handles.set i (some h'), state⟩ := by
  simp only [call, hi, hn]

theorem call_close {closed : Except Stop Unit} (hi : s.held i = some h)
    (hc : e.close h s.state = ((closed, h'), state)) :
    s.call (.close i) = ⟨s.handles.set i (some h'), state⟩ := by
  simp only [call, hi, hc]

theorem call_drop (hi : s.held i = some h) :
    s.call (.drop i) = ⟨s.handles.set i none, (e.drop h s.state).2⟩ := by
  simp only [call, hi]

theorem call_nextPage_of_not_held (hi : s.held i = none) : s.call (.nextPage i) = s := by
  simp only [call, hi]

theorem call_close_of_not_held (hi : s.held i = none) : s.call (.close i) = s := by
  simp only [call, hi]

theorem call_drop_of_not_held (hi : s.held i = none) : s.call (.drop i) = s := by
  simp only [call, hi]

end Session

end GoldenRecord

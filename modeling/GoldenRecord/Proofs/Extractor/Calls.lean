import GoldenRecord.Proofs.Extractor.Bridge

namespace GoldenRecord

theorem pageLines_append {index : Nat} {lines more : List Bytes} {pages others : List RawPage}
    (h : PageLines index lines pages) (h' : PageLines (index + pages.length) more others) :
    PageLines index (lines ++ more) (pages ++ others) := by
  induction h with
  | nil => exact h'
  | @cons index line lines p pages hp _ ih =>
    refine .cons hp (ih ?_)
    rw [List.length_cons, ← Nat.add_assoc] at h'
    rwa [Nat.add_right_comm]

theorem pageLine_unique {index : Nat} {line : Bytes} {p q : RawPage} (h : PageLine index line p)
    (h' : PageLine index line q) : p = q :=
  Except.ok.inj ((pageLine_toPage h).symm.trans (pageLine_toPage h'))

theorem pageLines_getElem? {index k : Nat} {lines : List Bytes} {pages : List RawPage} {p : RawPage}
    (h : PageLines index lines pages) (hk : pages[k]? = some p) :
    ∃ line, lines[k]? = some line ∧ PageLine (index + k) line p := by
  induction h generalizing k with
  | nil => simp at hk
  | @cons index line lines q pages hq _ ih =>
    cases k with
    | zero =>
      obtain rfl : q = p := by simpa using hk
      exact ⟨line, rfl, hq⟩
    | succ k =>
      obtain ⟨line', hline', hp⟩ := ih (by simpa using hk)
      rw [Nat.add_assoc, Nat.add_comm 1] at hp
      exact ⟨line', by simpa using hline', hp⟩

namespace BridgeDocument

variable {d left : BridgeDocument} {answer : Except Failure (Option RawPage)}

def serve : Nat → BridgeDocument → List (Except Failure (Option RawPage)) × BridgeDocument
  | 0, d => ([], d)
  | n + 1, d => (d.nextPage.1 :: (serve n d.nextPage.2).1, (serve n d.nextPage.2).2)

/-- Several calls to close in a row. There is none after one that does not come back. -/
def closes : Nat → BridgeDocument → List (Except Stop Unit) × BridgeDocument
  | 0, d => ([], d)
  | m + 1, d =>
    match halt? d.close.1 with
    | some _ => ([d.close.1], d.close.2)
    | none => (d.close.1 :: (closes m d.close.2).1, (closes m d.close.2).2)

def handed (answers : List (Except Failure (Option RawPage))) : List RawPage :=
  answers.filterMap fun answer =>
    match answer with
    | .ok page => page
    | .error _ => none

def decodes (line : Bytes) : Bool :=
  match Message.ofLine? line with
  | .ok (.page _) => true
  | .ok (.failure _) => true
  | _ => false

theorem decodes_of_pageLine {index : Nat} {line : Bytes} {p : RawPage} (h : PageLine index line p) :
    decodes line = true := by
  cases h with
  | page hm => simp [decodes, hm]
  | failure hm => simp [decodes, hm]

theorem pageLine_or_fault (index : Nat) (line : Bytes) :
    (∃ p, PageLine index line p) ∨
      decodes line = false ∧ ∃ f, Message.ofLine? line >>= (·.toPage? index) = .error f := by
  cases hm : Message.ofLine? line with
  | error f => exact .inr ⟨by simp [decodes, hm], f, rfl⟩
  | ok m =>
    cases m with
    | header h => exact .inr ⟨by simp [decodes, hm], _, rfl⟩
    | page p => exact .inl ⟨p, .page hm⟩
    | failure r => exact .inl ⟨_, .failure hm⟩

/-- What a call for a page does to a document that has not handed out more pages than announced. -/
inductive Called (d : BridgeDocument) : Except Failure (Option RawPage) → BridgeDocument → Prop
  | all : d.pagesRead = d.pageCount → Called d (.ok none) d
  | page {line : Bytes} {lines : List Bytes} {p : RawPage} : d.pagesRead < d.pageCount →
      d.lines = line :: lines → PageLine d.pagesRead line p →
      Called d (.ok (some p)) { d with lines, pagesRead := d.pagesRead + 1 }
  | fault {line : Bytes} {lines : List Bytes} {f : Failure} : d.pagesRead < d.pageCount →
      d.lines = line :: lines → decodes line = false → Called d (.error f) { d with lines }
  | ended {f : Failure} : d.pagesRead < d.pageCount → d.lines = [] → Called d (.error f) d

theorem called_nextPage (h : d.pagesRead ≤ d.pageCount) : Called d d.nextPage.1 d.nextPage.2 := by
  rcases Nat.eq_or_lt_of_le h with hall | hmore
  · rw [nextPage_of_all (Nat.le_of_eq hall.symm)]
    exact .all hall
  · cases hl : d.lines with
    | nil =>
      rw [nextPage_of_end hmore hl]
      exact .ended hmore hl
    | cons line lines =>
      rcases pageLine_or_fault d.pagesRead line with ⟨p, hp⟩ | ⟨hline, f, hf⟩
      · rw [nextPage_of_page hmore hl (pageLine_toPage hp)]
        exact .page hmore hl hp
      · rw [nextPage_of_fault hmore hl hf]
        exact .fault hmore hl hline

/-- A document after calls that handed out some pages. -/
structure Served (d left : BridgeDocument) (pages : List RawPage) : Prop where
  pageCount : left.pageCount = d.pageCount
  status : left.status = d.status
  ends : left.ends = d.ends
  isClosed : left.isClosed = d.isClosed
  pagesRead : left.pagesRead = d.pagesRead + pages.length
  bounded : left.pagesRead ≤ left.pageCount
  lines : ∃ used, d.lines = used ++ left.lines ∧
    PageLines d.pagesRead (used.filter decodes) pages

theorem Served.refl (h : d.pagesRead ≤ d.pageCount) : Served d d [] :=
  ⟨rfl, rfl, rfl, rfl, rfl, h, [], rfl, .nil⟩

theorem Served.trans {next : BridgeDocument} {pages more : List RawPage} (h : Served d next pages)
    (h' : Served next left more) : Served d left (pages ++ more) := by
  obtain ⟨used, hlines, hpages⟩ := h.lines
  obtain ⟨used', hlines', hmore⟩ := h'.lines
  have hread := h.pagesRead
  have hread' := h'.pagesRead
  refine ⟨h'.pageCount.trans h.pageCount, h'.status.trans h.status, h'.ends.trans h.ends,
    h'.isClosed.trans h.isClosed, ?_, h'.bounded, used ++ used', ?_, ?_⟩
  · rw [List.length_append]
    omega
  · rw [hlines, hlines', List.append_assoc]
  · rw [hread] at hmore
    rw [List.filter_append]
    exact pageLines_append hpages hmore

theorem served_nextPage (h : d.pagesRead ≤ d.pageCount) :
    Served d d.nextPage.2 (handed [d.nextPage.1]) := by
  have hcall := called_nextPage h
  generalize d.nextPage.1 = answer at hcall
  generalize d.nextPage.2 = next at hcall
  cases hcall with
  | all => exact .refl h
  | ended => exact .refl h
  | @fault line lines f hmore hl hline =>
    refine ⟨rfl, rfl, rfl, rfl, rfl, h, [line], hl, ?_⟩
    rw [List.filter_cons_of_neg (by simp [hline])]
    exact .nil
  | @page line lines p hmore hl hp =>
    refine ⟨rfl, rfl, rfl, rfl, rfl, hmore, [line], hl, ?_⟩
    rw [List.filter_cons_of_pos (decodes_of_pageLine hp)]
    exact .cons hp .nil

theorem handed_cons (answer : Except Failure (Option RawPage))
    (answers : List (Except Failure (Option RawPage))) :
    handed (answer :: answers) = handed [answer] ++ handed answers :=
  List.filterMap_append (l := [answer])

theorem served_serve (n : Nat) (h : d.pagesRead ≤ d.pageCount) :
    Served d (serve n d).2 (handed (serve n d).1) := by
  induction n generalizing d with
  | zero => exact .refl h
  | succ n ih =>
    have hcall := served_nextPage h
    rw [serve, handed_cons]
    exact hcall.trans (ih hcall.bounded)

theorem serve_of_all (h : d.pagesRead = d.pageCount) (m : Nat) :
    serve m d = (List.replicate m (.ok none), d) := by
  induction m with
  | zero => rfl
  | succ m ih => rw [serve, nextPage_of_all (Nat.le_of_eq h.symm), ih, List.replicate_succ]

theorem nextPage_none_iff (h : d.pagesRead ≤ d.pageCount) :
    d.nextPage.1 = .ok none ↔ d.pagesRead = d.pageCount := by
  have hcall := called_nextPage h
  generalize d.nextPage.1 = answer at hcall
  generalize d.nextPage.2 = next at hcall
  cases hcall with
  | all hall => simp [hall]
  | page hmore => simp [Nat.ne_of_lt hmore]
  | fault hmore => simp [Nat.ne_of_lt hmore]
  | ended hmore => simp [Nat.ne_of_lt hmore]

/-- A failing call uses up the next line, if there is one, and changes nothing else. -/
theorem nextPage_of_error {f : Failure} (h : d.pagesRead ≤ d.pageCount)
    (hf : d.nextPage.1 = .error f) : d.nextPage.2 = { d with lines := d.lines.tail } := by
  have hcall := called_nextPage h
  rw [hf] at hcall
  generalize d.nextPage.2 = next at hcall
  cases hcall with
  | fault hmore hl => rw [hl, List.tail_cons]
  | ended hmore hl => rw [hl, List.tail_nil, ← hl]

theorem closes_succ (h : halt? d.close.1 = none) (m : Nat) :
    (closes (m + 1) d).1 = d.close.1 :: (closes m d.close.2).1 := by
  rw [closes, h]

theorem closes_of_closed (h : d.isClosed = true) (m : Nat) :
    (closes m d).1 = List.replicate m (.ok ()) := by
  induction m with
  | zero => rfl
  | succ m ih =>
    have hk : halt? d.close.1 = none := by rw [close_of_closed h]; rfl
    rw [closes_succ hk, close_of_closed h, ih, List.replicate_succ]

/-- A first call that comes back is followed by calls that do nothing. -/
theorem closes_of_answer {closed : Except Stop Unit} (hk : halt? closed = none)
    (hc : d.close = (closed, { d with isClosed := true })) (m : Nat) :
    (closes (m + 1) d).1 = closed :: List.replicate m (.ok ()) := by
  rw [closes_succ (by rw [hc]; exact hk), hc, closes_of_closed rfl]

theorem closes_of_open (ho : d.isClosed = false) (h : d.pagesRead ≤ d.pageCount) (m : Nat) :
    (closes (m + 1) d).1 =
      if d.pagesRead = d.pageCount ∧ d.ends d.lines = false then [.error (.halted .waiting)]
      else
        (if d.pagesRead = d.pageCount ∧ ¬ d.status.succeeded then
            .error (.failed (.extractor (.exited d.status)))
          else .ok ()) :: List.replicate m (.ok ()) := by
  rcases Nat.eq_or_lt_of_le h with hall | hmore
  · cases hends : d.ends d.lines with
    | false =>
      rw [if_pos ⟨hall, rfl⟩, closes, close_of_waiting ho hall hends]
      rfl
    | true =>
      rw [if_neg (by simp), closes_of_answer ?_ (close_of_end ho hall hends)]
      · cases d.status.succeeded <;> simp [hall]
      · cases d.status.succeeded <;> rfl
  · have hne : ¬ d.pagesRead = d.pageCount := Nat.ne_of_lt hmore
    rw [if_neg (hne ·.1), if_neg (hne ·.1), closes_of_answer rfl (close_of_unread ho hmore)]

end BridgeDocument

namespace BridgeExtractor

open BridgeDocument

variable {b : BridgeExtractor} {t : Tree} {path : Path} {run : ChildRun} {d : BridgeDocument}

/-- A document is opened by a header, and nothing of it was handed out yet. -/
theorem openDocument_ok (hrun : b.child t path = .ok run) (h : b.openDocument t path = .ok d) :
    ∃ first rest header, run.output.lines = first :: rest ∧
      Message.ofLine? first = .ok (.header header) ∧
      d = run.opened header rest 0 := by
  unfold openDocument at h
  rw [hrun] at h
  dsimp only at h
  unfold openRun at h
  split at h
  next => cases h
  next first rest hl =>
    split at h
    next => cases h
    next header hm => exact ⟨first, rest, header, hl, hm, (Except.ok.inj h).symm⟩
    next => cases h
    next => cases h

/-- Any number of calls for a page on an open document, and then some to close it. Never more pages
are handed out than the header announces. A call says that there are no more exactly if that many were
handed out, and then all further ones do, and use up nothing. A failing call uses up at most a line.
The page at a position is what the line at that position stands for, among those behind the header that
stand for one. If all announced pages were handed out, the first call to close waits for the child:
it does not come back while the child does not, and else fails exactly if the child did not succeed.
No other call to close fails. -/
theorem serve_open_document (hrun : b.child t path = .ok run) (h : b.openDocument t path = .ok d) :
    ∃ first rest header, run.output.lines = first :: rest ∧
      Message.ofLine? first = .ok (.header header) ∧ d.pageCount = header.pageCount ∧
      ∀ n, let pages := handed (serve n d).1
        let left := (serve n d).2
        pages.length ≤ header.pageCount ∧
        (left.nextPage.1 = .ok none ↔ pages.length = header.pageCount) ∧
        (pages.length = header.pageCount → ∀ m, serve m left = (List.replicate m (.ok none), left)) ∧
        (∀ f, left.nextPage.1 = .error f → left.nextPage.2 = { left with lines := left.lines.tail }) ∧
        (∃ used, rest = used ++ left.lines ∧ (used.filter decodes).length = pages.length) ∧
        (∀ k p, pages[k]? = some p →
          ∃ line, (rest.filter decodes)[k]? = some line ∧ PageLine k line p) ∧
        ∀ m, (closes (m + 1) left).1 =
          if pages.length = header.pageCount ∧ run.ends left.lines = false then
            [.error (.halted .waiting)]
          else
            (if pages.length = header.pageCount ∧ ¬ run.status.succeeded then
                .error (.failed (.extractor (.exited run.status)))
              else .ok ()) :: List.replicate m (.ok ()) := by
  obtain ⟨first, rest, header, hl, hm, rfl⟩ := openDocument_ok hrun h
  refine ⟨first, rest, header, hl, hm, rfl, fun n => ?_⟩
  have hserved := served_serve (d := run.opened header rest 0) n (Nat.zero_le _)
  dsimp only
  generalize handed (serve n _).1 = pages at hserved ⊢
  generalize (serve n _).2 = left at hserved ⊢
  have hread : left.pagesRead = pages.length := hserved.pagesRead.trans (Nat.zero_add _)
  have hcount : left.pageCount = header.pageCount := hserved.pageCount
  have hstatus : left.status = run.status := hserved.status
  have hends : left.ends = run.ends := hserved.ends
  have hbound := hserved.bounded
  obtain ⟨used, hlines, hserves⟩ := hserved.lines
  have hrest : rest = used ++ left.lines := hlines
  have hpages : PageLines 0 (used.filter decodes) pages := hserves
  rw [← hcount, ← hread]
  refine ⟨hbound, nextPage_none_iff hbound, fun hall m => serve_of_all hall m,
    fun f hf => nextPage_of_error hbound hf, ⟨used, hrest, ?_⟩, fun k p hk => ?_, fun m => ?_⟩
  · rw [pageLines_length hpages, hread]
  · obtain ⟨line, hline, hp⟩ := pageLines_getElem? hpages hk
    obtain ⟨hlt, -⟩ := List.getElem?_eq_some_iff.mp hline
    refine ⟨line, ?_, by rwa [Nat.zero_add] at hp⟩
    rw [hrest, List.filter_append, List.getElem?_append_left hlt, hline]
  · rw [closes_of_open hserved.isClosed hbound, hstatus, hends]

namespace Sample

/-- A line that is no message comes before the one page, and the child fails in the end. -/
def strayRun : ChildRun where
  output :=
    Bytes.ofText ("[\"open\",\"1\",1]\n" ++ "bye\n" ++ "[\"error\",null,\"lost\"]\n")
  status := .code 1

def strayBridge : BridgeExtractor := ⟨"replay", fun _ _ => .ok strayRun⟩

def strayLines : List Bytes := [Bytes.ofText "bye", Bytes.ofText "[\"error\",null,\"lost\"]"]

def strayDocument : BridgeDocument where
  lines := strayLines
  status := .code 1
  ends _ := true
  version := "1"
  pageCount := 1

theorem strayRun_lines : strayRun.output.lines = Bytes.ofText "[\"open\",\"1\",1]" :: strayLines := by
  decide +kernel

theorem stray_opened : strayBridge.openDocument .empty ⟨"a.pdf"⟩ = .ok strayDocument := by
  have hrun : strayBridge.child .empty ⟨"a.pdf"⟩ = .ok strayRun := rfl
  unfold openDocument
  rw [hrun]
  dsimp only
  rw [openRun_of_header strayRun_lines header_read]
  rfl

theorem stray_evaluated :
    strayLines.filter decodes = [Bytes.ofText "[\"error\",null,\"lost\"]"] ∧
      (handed (serve 2 strayDocument).1).length = 1 := by decide +kernel

end Sample

theorem serve_open_document_of_stray_line :
    Sample.strayBridge.child .empty ⟨"a.pdf"⟩ = .ok Sample.strayRun ∧
      Sample.strayBridge.openDocument .empty ⟨"a.pdf"⟩ = .ok Sample.strayDocument ∧
      handed (serve 2 Sample.strayDocument).1 = [.unavailable 1 "lost"] ∧
      (serve 2 Sample.strayDocument).2.nextPage.1 = .ok none ∧
      (closes 2 (serve 2 Sample.strayDocument).2).1 =
        [.error (.failed (.extractor (.exited (.code 1)))), .ok ()] := by
  have hrun : Sample.strayBridge.child .empty ⟨"a.pdf"⟩ = .ok Sample.strayRun := rfl
  obtain ⟨first, rest, header, hl, hm, hcount, hcalls⟩ := serve_open_document hrun Sample.stray_opened
  obtain ⟨-, hrest⟩ := List.cons.inj (Sample.strayRun_lines.symm.trans hl)
  obtain ⟨-, hnone, -, -, -, hpage, hclose⟩ := hcalls 2
  obtain ⟨hlines, hlength⟩ := Sample.stray_evaluated
  have hall : (handed (serve 2 Sample.strayDocument).1).length = header.pageCount :=
    hlength.trans hcount
  refine ⟨hrun, Sample.stray_opened, ?_, hnone.mpr hall, ?_⟩
  · obtain ⟨p, hp⟩ := List.length_eq_one_iff.mp hlength
    obtain ⟨line, hline, hread⟩ := hpage 0 p (by rw [hp]; rfl)
    rw [← hrest, hlines, List.getElem?_cons_zero] at hline
    rw [← Option.some.inj hline] at hread
    rw [hp, pageLine_unique hread (.failure Sample.failure_read)]
    rfl
  · have hfailed : ¬ Sample.strayRun.status.succeeded = true := Bool.false_ne_true
    rw [hclose 1, if_neg (Bool.noConfusion ·.2), if_pos ⟨hall, hfailed⟩]
    rfl

end BridgeExtractor

end GoldenRecord

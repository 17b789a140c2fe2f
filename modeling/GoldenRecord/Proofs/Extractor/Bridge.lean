import GoldenRecord.Proofs.Extraction
import GoldenRecord.Proofs.Extractor.Lines

namespace GoldenRecord

inductive LineFault (line : Bytes) : Failure → Prop
  | notText : Bytes.toText? line = none → LineFault line (.file .notText)
  | malformed {text : String} {fault : Json.Fault} : Bytes.toText? line = some text →
      Json.ofBytes? line >>= Message.ofJson? = .error fault →
      LineFault line (.extractor (.malformedMessage fault))

theorem ofLine?_error_iff {line : Bytes} {f : Failure} :
    Message.ofLine? line = .error f ↔ LineFault line f := by
  unfold Message.ofLine?
  constructor
  · intro h
    split at h
    next ht => cases h; exact .notText ht
    next text ht =>
      split at h
      next => cases h
      next fault hm => cases h; exact .malformed ht hm
  · intro h
    cases h with
    | notText ht => rw [ht]
    | malformed ht hm => rw [ht]; dsimp only; rw [hm]

/-- The page that the line at a position stands for: its own, or none in place of one that the
child could not produce. -/
inductive PageLine (index : Nat) (line : Bytes) : RawPage → Prop
  | page {p : RawPage} : Message.ofLine? line = .ok (.page p) → PageLine index line p
  | failure {r : ErrorReport} : Message.ofLine? line = .ok (.failure r) →
      PageLine index line (.unavailable (r.pageNumber.getD (index + 1)) r.message)

/-- Lines in a row that stand for pages. -/
inductive PageLines : Nat → List Bytes → List RawPage → Prop
  | nil {index : Nat} : PageLines index [] []
  | cons {index : Nat} {line : Bytes} {lines : List Bytes} {p : RawPage} {pages : List RawPage} :
      PageLine index line p → PageLines (index + 1) lines pages →
      PageLines index (line :: lines) (p :: pages)

/-- A header on the first line that announces more pages than there can be room for. -/
inductive Overflows : List Bytes → Prop
  | intro {first : Bytes} {rest : List Bytes} {header : Header} :
      Message.ofLine? first = .ok (.header header) → Document.maxPages < header.pageCount →
      Overflows (first :: rest)

/-- A header and a line for every page that it announces, whatever comes after them. -/
inductive Delivers : List Bytes → Header → List RawPage → Prop
  | intro {first : Bytes} {lines extra : List Bytes} {header : Header} {pages : List RawPage} :
      Message.ofLine? first = .ok (.header header) → PageLines 0 lines pages →
      pages.length = header.pageCount → Delivers (first :: (lines ++ extra)) header pages

/-- The first line that does not fit, and the failure of a document with such a line. -/
inductive FirstFault (path : Path) : List Bytes → Failure → Prop
  | noHeader {first : Bytes} {rest : List Bytes} {f : Failure} :
      LineFault first f → FirstFault path (first :: rest) f
  | notOpened {first : Bytes} {rest : List Bytes} {r : ErrorReport} :
      Message.ofLine? first = .ok (.failure r) →
      FirstFault path (first :: rest) (.cannotOpen path r.message)
  | pageFirst {first : Bytes} {rest : List Bytes} {p : RawPage} :
      Message.ofLine? first = .ok (.page p) →
      FirstFault path (first :: rest) (.extractor .pageBeforeHeader)
  | noPage {first line : Bytes} {lines rest : List Bytes} {header : Header} {pages : List RawPage}
      {f : Failure} : Message.ofLine? first = .ok (.header header) → PageLines 0 lines pages →
      pages.length < header.pageCount → LineFault line f →
      FirstFault path (first :: (lines ++ line :: rest)) f
  | secondHeader {first line : Bytes} {lines rest : List Bytes} {header second : Header}
      {pages : List RawPage} : Message.ofLine? first = .ok (.header header) →
      PageLines 0 lines pages → pages.length < header.pageCount →
      Message.ofLine? line = .ok (.header second) →
      FirstFault path (first :: (lines ++ line :: rest)) (.extractor .secondHeader)
  | truncated {first : Bytes} {lines : List Bytes} {header : Header} {pages : List RawPage} :
      Message.ofLine? first = .ok (.header header) → PageLines 0 lines pages →
      pages.length < header.pageCount →
      FirstFault path (first :: lines) (.extractor (.stopped pages.length header.pageCount))

theorem overflows_iff {first : Bytes} {rest : List Bytes} {header : Header}
    (hm : Message.ofLine? first = .ok (.header header)) :
    Overflows (first :: rest) ↔ Document.maxPages < header.pageCount := by
  constructor
  · intro h
    cases h with
    | intro hm' hmax =>
      cases hm.symm.trans hm'
      exact hmax
  · exact .intro hm

theorem overflows_of_delivers {lines : List Bytes} {header : Header} {pages : List RawPage}
    (h : Delivers lines header pages) (hmax : Document.maxPages < header.pageCount) :
    Overflows lines := by
  cases h with
  | intro hm _ _ => exact .intro hm hmax

theorem pageLines_length {index : Nat} {lines : List Bytes} {pages : List RawPage}
    (h : PageLines index lines pages) : lines.length = pages.length := by
  induction h with
  | nil => rfl
  | cons _ _ ih => simp [ih]

theorem delivers_congr {lines lines' : List Bytes} {header : Header} {pages : List RawPage}
    (h : Delivers lines header pages)
    (htake : lines'.take (header.pageCount + 1) = lines.take (header.pageCount + 1)) :
    Delivers lines' header pages := by
  cases h with
  | @intro first taken extra _ _ hm hpages hlength =>
    have hn : taken.length = header.pageCount := (pageLines_length hpages).trans hlength
    have hhead : lines'.take (header.pageCount + 1) = first :: taken := by
      rw [htake, ← hn, List.take_succ_cons, List.take_left]
    have hlines : lines' = first :: (taken ++ lines'.drop (header.pageCount + 1)) := by
      rw [← List.cons_append, ← hhead, List.take_append_drop]
    rw [hlines]
    exact .intro hm hpages hlength

theorem pageLine_toPage {index : Nat} {line : Bytes} {p : RawPage} (h : PageLine index line p) :
    Message.ofLine? line >>= (·.toPage? index) = .ok p := by
  cases h with
  | page hm => rw [hm]; rfl
  | failure hm => rw [hm]; rfl

/-- From any position on, lines either stand for all pages that are missing, or they stop being
pages before. -/
theorem pageLines_or_stop (missing index : Nat) (lines : List Bytes) :
    (∃ taken extra pages, lines = taken ++ extra ∧ PageLines index taken pages ∧
      pages.length = missing) ∨
    ∃ taken rest pages, lines = taken ++ rest ∧ PageLines index taken pages ∧
      pages.length < missing ∧ ∀ line ∈ rest.head?, ∀ p, ¬ PageLine (index + taken.length) line p := by
  induction missing generalizing index lines with
  | zero => exact .inl ⟨[], lines, [], rfl, .nil, rfl⟩
  | succ missing ih =>
    by_cases hpage : ∃ line rest p, lines = line :: rest ∧ PageLine index line p
    · obtain ⟨line, rest, p, rfl, hp⟩ := hpage
      rcases ih (index + 1) rest with ⟨taken, extra, pages, rfl, hpages, hlength⟩ |
        ⟨taken, more, pages, rfl, hpages, hlength, hstop⟩
      · exact .inl ⟨line :: taken, extra, p :: pages, rfl, .cons hp hpages, by simp [hlength]⟩
      · have hindex : index + (line :: taken).length = index + 1 + taken.length := by
          simp only [List.length_cons]
          omega
        refine .inr ⟨line :: taken, more, p :: pages, rfl, .cons hp hpages, ?_, ?_⟩
        · simpa using hlength
        · simpa only [hindex] using hstop
    · refine .inr ⟨[], lines, [], rfl, .nil, by simp, ?_⟩
      intro line hline p hp
      obtain ⟨rest, rfl⟩ := List.head?_eq_some_iff.mp hline
      exact hpage ⟨line, rest, p, rfl, hp⟩

/-- A stream is silent, a document, or has a first line that does not fit. -/
theorem delivers_or_fault (path : Path) (lines : List Bytes) :
    lines = [] ∨ (∃ header pages, Delivers lines header pages) ∨ ∃ f, FirstFault path lines f := by
  cases lines with
  | nil => exact .inl rfl
  | cons first rest =>
    refine .inr ?_
    cases hm : Message.ofLine? first with
    | error f => exact .inr ⟨f, .noHeader (ofLine?_error_iff.mp hm)⟩
    | ok m =>
      cases m with
      | page p => exact .inr ⟨_, .pageFirst hm⟩
      | failure r => exact .inr ⟨_, .notOpened hm⟩
      | header header =>
        rcases pageLines_or_stop header.pageCount 0 rest with
          ⟨taken, extra, pages, rfl, hpages, hlength⟩ | ⟨taken, more, pages, rfl, hpages, hlength, hstop⟩
        · exact .inl ⟨header, pages, .intro hm hpages hlength⟩
        · refine .inr ?_
          cases more with
          | nil => exact ⟨_, by simpa using FirstFault.truncated hm hpages hlength⟩
          | cons line more =>
            cases hl : Message.ofLine? line with
            | error f => exact ⟨f, .noPage hm hpages hlength (ofLine?_error_iff.mp hl)⟩
            | ok m =>
              cases m with
              | header second => exact ⟨_, .secondHeader hm hpages hlength hl⟩
              | page p => exact absurd (.page hl) (hstop line rfl p)
              | failure r => exact absurd (.failure hl) (hstop line rfl _)

namespace ChildRun

/-- A child that delivers its pages, and there is room for them. -/
structure Serves (run : ChildRun) (header : Header) (pages : List RawPage) : Prop where
  delivers : Delivers run.output.lines header pages
  fits : header.pageCount ≤ Document.maxPages

def extra (run : ChildRun) (header : Header) : List Bytes :=
  run.output.lines.drop (header.pageCount + 1)

/-- An open document of the child, with some lines left after some pages. -/
def opened (run : ChildRun) (header : Header) (lines : List Bytes) (index : Nat) :
    BridgeDocument where
  lines := lines
  status := run.status
  ends := run.ends
  version := header.version
  pageCount := header.pageCount
  pagesRead := index

end ChildRun

theorem Child.buffered_blocked {output line : Bytes} {status : ExitStatus}
    (h : takenSize ≤ line.length) : (buffered output status).ends [line] = false :=
  decide_eq_false (Nat.not_le.mpr (Nat.lt_succ_of_le h))

namespace BridgeDocument

variable {d : BridgeDocument} {line : Bytes} {lines : List Bytes} {p : RawPage} {f : Failure}

theorem nextPage_of_page (hread : d.pagesRead < d.pageCount) (hl : d.lines = line :: lines)
    (hp : Message.ofLine? line >>= (·.toPage? d.pagesRead) = .ok p) :
    d.nextPage = (.ok (some p), { d with lines, pagesRead := d.pagesRead + 1 }) := by
  unfold nextPage
  rw [if_neg (by omega), hl]
  dsimp only
  rw [hp]

theorem nextPage_of_fault (hread : d.pagesRead < d.pageCount) (hl : d.lines = line :: lines)
    (hf : Message.ofLine? line >>= (·.toPage? d.pagesRead) = .error f) :
    d.nextPage = (.error f, { d with lines }) := by
  unfold nextPage
  rw [if_neg (by omega), hl]
  dsimp only
  rw [hf]

theorem nextPage_of_end (hread : d.pagesRead < d.pageCount) (hl : d.lines = []) :
    d.nextPage = (.error (.extractor (.stopped d.pagesRead d.pageCount)), d) := by
  unfold nextPage
  rw [if_neg (by omega), hl]

theorem nextPage_of_all (hread : d.pageCount ≤ d.pagesRead) : d.nextPage = (.ok none, d) := by
  unfold nextPage
  rw [if_pos hread]

theorem close_of_closed (h : d.isClosed = true) : d.close = (.ok (), d) := by
  unfold close
  rw [if_pos h]

theorem close_of_unread (ho : d.isClosed = false) (hread : d.pagesRead < d.pageCount) :
    d.close = (.ok (), { d with isClosed := true }) := by
  unfold close
  simp only [ho, hread, Bool.false_eq_true, if_false, if_true]

theorem close_of_waiting (ho : d.isClosed = false) (hall : d.pagesRead = d.pageCount)
    (hends : d.ends d.lines = false) :
    d.close = (.error (.halted .waiting), { d with isClosed := true }) := by
  unfold close
  simp only [ho, hall, hends, Nat.lt_irrefl, Bool.false_eq_true, if_false, if_true]

/-- The status of a child that comes to its end counts. -/
theorem close_of_end (ho : d.isClosed = false) (hall : d.pagesRead = d.pageCount)
    (hends : d.ends d.lines = true) :
    d.close =
      (if d.status.succeeded then .ok () else .error (.failed (.extractor (.exited d.status))),
        { d with isClosed := true }) := by
  unfold close
  rw [ho]
  dsimp only
  cases d.status.succeeded <;> simp [hall, hends]

end BridgeDocument

namespace Message

def header? : Message → Option Header
  | header h => some h
  | _ => none

theorem header?_eq_some {m : Message} {h : Header} : m.header? = some h ↔ m = .header h := by
  cases m <;> simp [header?]

def page? : Message → Option RawPage
  | page p => some p
  | _ => none

theorem page?_eq_some {m : Message} {p : RawPage} : m.page? = some p ↔ m = .page p := by
  cases m <;> simp [page?]

def failure? : Message → Option ErrorReport
  | failure r => some r
  | _ => none

theorem failure?_eq_some {m : Message} {r : ErrorReport} :
    m.failure? = some r ↔ m = .failure r := by
  cases m <;> simp [failure?]

theorem ofLine?_eq_header {line : Bytes} {h : Header}
    (hread : (ofLine? line).map header? = .ok (some h)) : ofLine? line = .ok (.header h) := by
  obtain ⟨m, hm, hheader⟩ := map_ok_iff.mp hread
  rw [hm, header?_eq_some.mp hheader]

theorem ofLine?_eq_failure {line : Bytes} {r : ErrorReport}
    (hread : (ofLine? line).map failure? = .ok (some r)) : ofLine? line = .ok (.failure r) := by
  obtain ⟨m, hm, hreport⟩ := map_ok_iff.mp hread
  rw [hm, failure?_eq_some.mp hreport]

end Message

namespace BridgeExtractor

variable {b : BridgeExtractor} {t : Tree} {path : Path} {status : ExitStatus}
  {ends : List Bytes → Bool} {version : String} {n index : Nat} {taken rest : List Bytes}
  {pages : List RawPage} {f : Failure}

/-- Lines of pages are read one after the other; what comes after them is up to the rest. -/
theorem collect_pageLines (run : ChildRun) (header : Header)
    {result : Except Failure (List PageRecord)} {last : BridgeDocument}
    (hpages : PageLines index taken pages) (hn : index + pages.length ≤ header.pageCount)
    (hrest : b.toExtractor.collect (run.opened header rest (index + pages.length))
      (index + pages.length) () = ((result, last), ())) :
    b.toExtractor.collect (run.opened header (taken ++ rest) index) index () =
      ((result.map ((pages.mapIdx fun j q => q.record (index + j)) ++ ·), last), ()) := by
  induction hpages with
  | @nil index =>
    have hmap : result.map (([].mapIdx fun j (q : RawPage) => q.record (index + j)) ++ ·) =
        result := by
      cases result <;> rfl
    rw [hmap]
    exact hrest
  | @cons index line lines p pages hline hpages ih =>
    have hindex : index + (p :: pages).length = index + 1 + pages.length := by
      simp only [List.length_cons]
      omega
    rw [hindex] at hn hrest
    have hmore : index < header.pageCount := by omega
    have hnext : (run.opened header (line :: lines ++ rest) index).nextPage =
        (.ok (some p), run.opened header (lines ++ rest) (index + 1)) :=
      BridgeDocument.nextPage_of_page hmore rfl (pageLine_toPage hline)
    have hserved : b.toExtractor.nextPage (run.opened header (line :: lines ++ rest) index) () =
        ((.ok (some p), run.opened header (lines ++ rest) (index + 1)), ()) :=
      congrArg (·, ()) hnext
    obtain ⟨left, hv⟩ := p.views_extract index ()
    have hlater := ih hn hrest
    rw [mapIdx_from_cons fun i (q : RawPage) => q.record i]
    cases result with
    | ok more => exact Extractor.collect_of_page hserved hv hlater
    | error f => exact Extractor.collect_of_later_error hserved hv hlater

def document (path : Path) (header : Header) (pages : List RawPage) : Document where
  source := path.sourceName
  extractorVersion := header.version
  pages := pages.mapIdx fun index p => ((RawPage.views Unit).extract p index ()).1.1

theorem document_eq (path : Path) (header : Header) (pages : List RawPage) :
    document path header pages =
      { source := path.sourceName, extractorVersion := header.version
        pages := pages.mapIdx fun index p => p.record index } := by
  unfold document
  congr 2
  funext index p
  obtain ⟨left, hv⟩ := p.views_extract index ()
  rw [hv]

theorem extract_of_unopened {run : ChildRun} (hrun : b.child t path = .ok run)
    (hopen : openRun path run = .error f) :
    (b.toExtractor.extract t path ()).1 = .error (.failed f) := by
  have ho : b.openDocument t path = .error f := by
    unfold openDocument
    rw [hrun]
    exact hopen
  have ho' : b.toExtractor.openDocument t path () = (.error f, ()) := congrArg (·, ()) ho
  rw [Extractor.extract_of_unopened ho']

theorem openRun_of_header {run : ChildRun} {first : Bytes} {lines : List Bytes} {header : Header}
    (hl : run.output.lines = first :: lines) (hm : Message.ofLine? first = .ok (.header header)) :
    openRun path run = .ok (run.opened header lines 0) := by
  unfold openRun
  rw [hl]
  dsimp only
  rw [hm]
  rfl

theorem openDocument_of_header {run : ChildRun} {first : Bytes} {lines : List Bytes}
    {header : Header} (hrun : b.child t path = .ok run) (hl : run.output.lines = first :: lines)
    (hm : Message.ofLine? first = .ok (.header header)) :
    b.toExtractor.openDocument t path () = (.ok (run.opened header lines 0), ()) := by
  have ho : b.openDocument t path = .ok (run.opened header lines 0) := by
    unfold openDocument
    rw [hrun]
    exact openRun_of_header hl hm
  exact congrArg (·, ()) ho

/-- A child that is too busy printing to come to its end is waited for. -/
theorem extract_of_serves {run : ChildRun} {header : Header} (hrun : b.child t path = .ok run)
    (h : run.Serves header pages) :
    (b.toExtractor.extract t path ()).1 =
      if run.ends (run.extra header) = false then .error (.halted .waiting)
      else if run.status.succeeded then .ok (document path header pages)
      else .error (.failed (.extractor (.exited run.status))) := by
  obtain ⟨hdelivers, hfits⟩ := h
  unfold ChildRun.extra
  generalize hlines : run.output.lines = lines at hdelivers
  cases hdelivers with
  | @intro first taken extra _ _ hm hpages hlength =>
    have hextra : (first :: (taken ++ extra)).drop (header.pageCount + 1) = extra := by
      rw [List.drop_succ_cons, ← hlength, ← pageLines_length hpages, List.drop_left]
    rw [hextra]
    have ho := openDocument_of_header hrun hlines hm
    have hread : 0 + pages.length = header.pageCount := by omega
    have hnext : (run.opened header extra (0 + pages.length)).nextPage =
        (.ok none, run.opened header extra (0 + pages.length)) :=
      BridgeDocument.nextPage_of_all (Nat.le_of_eq hread.symm)
    have hend : b.toExtractor.collect (run.opened header extra (0 + pages.length))
        (0 + pages.length) () = ((.ok [], run.opened header extra (0 + pages.length)), ()) :=
      Extractor.collect_of_end (congrArg (·, ()) hnext)
    have hc := collect_pageLines run header hpages (Nat.le_of_eq hread) hend
    have hcount : ((pages.mapIdx fun j (q : RawPage) => q.record (0 + j)) ++ []).length =
        header.pageCount := by simpa using hlength
    have ha := Extractor.assemble_of_pages header.pageCount path.sourceName rfl hfits hc
    rw [if_pos hcount] at ha
    cases hends : run.ends extra with
    | false =>
      have hclose := BridgeDocument.close_of_waiting
        (d := run.opened header extra (0 + pages.length)) rfl hread hends
      rw [Extractor.extract_of_halted_close ho ha rfl (congrArg (·, ()) hclose), if_pos rfl]
    | true =>
      have hclose := BridgeDocument.close_of_end
        (d := run.opened header extra (0 + pages.length)) rfl hread hends
      have hk : halt? (if run.status.succeeded then .ok ()
          else .error (.failed (.extractor (.exited run.status))) : Except Stop Unit) = none := by
        cases run.status.succeeded <;> rfl
      rw [Extractor.extract_of_opened ho ha (congrArg (·, ()) hclose) rfl hk, document_eq]
      simp only [List.append_nil, Nat.zero_add, ChildRun.opened]
      cases run.status.succeeded <;> rfl

theorem extract_of_overflows {run : ChildRun} (hrun : b.child t path = .ok run)
    (h : Overflows run.output.lines) :
    (b.toExtractor.extract t path ()).1 = .error (.halted .overflow) := by
  generalize hlines : run.output.lines = lines at h
  cases h with
  | intro hm hmax =>
    rw [Extractor.extract_of_overflow (openDocument_of_header hrun hlines hm) hmax]

theorem extract_of_pages_error {run : ChildRun} {first : Bytes} {header : Header}
    {last : BridgeDocument} (hrun : b.child t path = .ok run)
    (hl : run.output.lines = first :: (taken ++ rest))
    (hm : Message.ofLine? first = .ok (.header header)) (hno : ¬ Overflows run.output.lines)
    (hpages : PageLines 0 taken pages) (hn : pages.length < header.pageCount)
    (hnext : (run.opened header rest pages.length).nextPage = (.error f, last))
    (ho : last.isClosed = false) (hread : last.pagesRead < last.pageCount) :
    (b.toExtractor.extract t path ()).1 = .error (.failed f) := by
  have hopen := openDocument_of_header hrun hl hm
  rw [hl, overflows_iff hm, Nat.not_lt] at hno
  have hend : b.toExtractor.collect (run.opened header rest (0 + pages.length))
      (0 + pages.length) () = ((.error f, last), ()) := by
    rw [Nat.zero_add]
    exact Extractor.collect_of_error (congrArg (·, ()) hnext)
  have hc := collect_pageLines run header hpages (by omega) hend
  have ha := Extractor.assemble_of_error path.sourceName hno hc
  have hclose := congrArg (·, ()) (BridgeDocument.close_of_unread ho hread)
  exact congrArg Prod.fst (Extractor.extract_of_opened hopen ha hclose rfl rfl)

theorem extract_of_firstFault {run : ChildRun} (hrun : b.child t path = .ok run)
    (h : FirstFault path run.output.lines f) (hno : ¬ Overflows run.output.lines) :
    (b.toExtractor.extract t path ()).1 = .error (.failed f) := by
  generalize hlines : run.output.lines = lines at h
  cases h with
  | noHeader hf =>
    exact extract_of_unopened hrun (by simp only [openRun, hlines, ofLine?_error_iff.mpr hf])
  | notOpened hm => exact extract_of_unopened hrun (by simp only [openRun, hlines, hm])
  | pageFirst hm => exact extract_of_unopened hrun (by simp only [openRun, hlines, hm])
  | @noPage first line taken rest header pages _ hm hpages hn hf =>
    have hnext : Message.ofLine? line >>= (·.toPage? pages.length) = .error f := by
      rw [ofLine?_error_iff.mpr hf]
      rfl
    exact extract_of_pages_error hrun hlines hm hno hpages hn
      (BridgeDocument.nextPage_of_fault hn rfl hnext) rfl hn
  | @secondHeader first line taken rest header second pages hm hpages hn hsecond =>
    have hnext : Message.ofLine? line >>= (·.toPage? pages.length) =
        .error (.extractor .secondHeader) := by
      rw [hsecond]
      rfl
    exact extract_of_pages_error hrun hlines hm hno hpages hn
      (BridgeDocument.nextPage_of_fault hn rfl hnext) rfl hn
  | @truncated first taken header pages hm hpages hn =>
    rw [← List.append_nil taken] at hlines
    exact extract_of_pages_error hrun hlines hm hno hpages hn
      (BridgeDocument.nextPage_of_end hn rfl) rfl hn

theorem extract_of_silence {run : ChildRun} (hrun : b.child t path = .ok run)
    (h : run.output.lines = []) :
    (b.toExtractor.extract t path ()).1 =
      .error (.failed (.cannotOpen path
        ("oracle exited without output (" ++ run.status.text ++ ")"))) := by
  refine extract_of_unopened hrun ?_
  unfold openRun
  rw [h]

/-- A stream is silent, announces too many pages, has a line that does not fit, or is served. -/
theorem extract_cases {run : ChildRun} (hrun : b.child t path = .ok run) :
    (run.output.lines = [] ∧ (b.toExtractor.extract t path ()).1 =
      .error (.failed (.cannotOpen path
        ("oracle exited without output (" ++ run.status.text ++ ")")))) ∨
    (Overflows run.output.lines ∧
      (b.toExtractor.extract t path ()).1 = .error (.halted .overflow)) ∨
    (∃ f, (FirstFault path run.output.lines f ∧ ¬ Overflows run.output.lines) ∧
      (b.toExtractor.extract t path ()).1 = .error (.failed f)) ∨
    ∃ header pages, run.Serves header pages ∧
      (run.ends (run.extra header) = false ∧
          (b.toExtractor.extract t path ()).1 = .error (.halted .waiting) ∨
        run.ends (run.extra header) = true ∧ run.status.succeeded = true ∧
          (b.toExtractor.extract t path ()).1 = .ok (document path header pages) ∨
        run.ends (run.extra header) = true ∧ run.status.succeeded = false ∧
          (b.toExtractor.extract t path ()).1 =
            .error (.failed (.extractor (.exited run.status)))) := by
  by_cases hover : Overflows run.output.lines
  · exact .inr (.inl ⟨hover, extract_of_overflows hrun hover⟩)
  · rcases delivers_or_fault path run.output.lines with hl | ⟨header, pages, hd⟩ | ⟨f, hf⟩
    · exact .inl ⟨hl, extract_of_silence hrun hl⟩
    · have hs : run.Serves header pages :=
        ⟨hd, Nat.not_lt.mp fun hmax => hover (overflows_of_delivers hd hmax)⟩
      refine .inr (.inr (.inr ⟨header, pages, hs, ?_⟩))
      rw [extract_of_serves hrun hs]
      cases run.ends (run.extra header) <;> cases run.status.succeeded <;> simp
    · exact .inr (.inr (.inl ⟨f, ⟨hf, hover⟩, extract_of_firstFault hrun hf hover⟩))

theorem extract_ok_iff {run : ChildRun} (hrun : b.child t path = .ok run) (d : Document) :
    (b.toExtractor.extract t path ()).1 = .ok d ↔
      ∃ header pages, run.Serves header pages ∧ run.ends (run.extra header) = true ∧
        run.status.succeeded = true ∧ d = document path header pages := by
  constructor
  · intro h
    have hcases := extract_cases hrun
    rw [h] at hcases
    rcases hcases with ⟨-, hx⟩ | ⟨-, hx⟩ | ⟨_, -, hx⟩ |
      ⟨header, pages, hs, ⟨-, hx⟩ | ⟨hends, hok, hx⟩ | ⟨-, -, hx⟩⟩ <;> cases hx
    exact ⟨header, pages, hs, hends, hok, rfl⟩
  · rintro ⟨header, pages, hs, hends, hok, rfl⟩
    rw [extract_of_serves hrun hs, hends, hok]
    rfl

theorem extract_failed_iff {run : ChildRun} (hrun : b.child t path = .ok run) (f : Failure) :
    (b.toExtractor.extract t path ()).1 = .error (.failed f) ↔
      (run.output.lines = [] ∧
        f = .cannotOpen path ("oracle exited without output (" ++ run.status.text ++ ")")) ∨
      (FirstFault path run.output.lines f ∧ ¬ Overflows run.output.lines) ∨
      (∃ header pages, run.Serves header pages ∧ run.ends (run.extra header) = true) ∧
        run.status.succeeded = false ∧ f = .extractor (.exited run.status) := by
  constructor
  · intro h
    have hcases := extract_cases hrun
    rw [h] at hcases
    rcases hcases with ⟨hl, hx⟩ | ⟨-, hx⟩ | ⟨f, hf, hx⟩ |
      ⟨header, pages, hs, ⟨-, hx⟩ | ⟨-, -, hx⟩ | ⟨hends, hfailed, hx⟩⟩ <;> cases hx
    · exact .inl ⟨hl, rfl⟩
    · exact .inr (.inl hf)
    · exact .inr (.inr ⟨⟨header, pages, hs, hends⟩, hfailed, rfl⟩)
  · rintro (⟨hl, rfl⟩ | ⟨hf, hno⟩ | ⟨⟨header, pages, hs, hends⟩, hfailed, rfl⟩)
    · exact extract_of_silence hrun hl
    · exact extract_of_firstFault hrun hf hno
    · rw [extract_of_serves hrun hs, hends, hfailed]
      rfl

theorem extract_overflow_iff {run : ChildRun} (hrun : b.child t path = .ok run) :
    (b.toExtractor.extract t path ()).1 = .error (.halted .overflow) ↔
      Overflows run.output.lines := by
  refine ⟨fun h => ?_, extract_of_overflows hrun⟩
  have hcases := extract_cases hrun
  rw [h] at hcases
  rcases hcases with ⟨-, hx⟩ | ⟨hover, -⟩ | ⟨_, -, hx⟩ |
    ⟨_, _, -, ⟨-, hx⟩ | ⟨-, -, hx⟩ | ⟨-, -, hx⟩⟩
  · cases hx
  · exact hover
  all_goals cases hx

theorem extract_waiting_iff {run : ChildRun} (hrun : b.child t path = .ok run) :
    (b.toExtractor.extract t path ()).1 = .error (.halted .waiting) ↔
      ∃ header pages, run.Serves header pages ∧ run.ends (run.extra header) = false := by
  constructor
  · intro h
    have hcases := extract_cases hrun
    rw [h] at hcases
    rcases hcases with ⟨-, hx⟩ | ⟨-, hx⟩ | ⟨_, -, hx⟩ |
      ⟨header, pages, hs, ⟨hends, hx⟩ | ⟨-, -, hx⟩ | ⟨-, -, hx⟩⟩ <;> cases hx
    exact ⟨header, pages, hs, hends⟩
  · rintro ⟨header, pages, hs, hends⟩
    rw [extract_of_serves hrun hs, if_pos hends]

theorem extract_congr {run run' : ChildRun} {header : Header} {pages : List RawPage}
    {other : BridgeExtractor} {tree : Tree} (hrun : b.child t path = .ok run)
    (hother : other.child tree path = .ok run') (hs : run.Serves header pages)
    (hstatus : run'.status = run.status)
    (htake : run'.output.lines.take (header.pageCount + 1) =
      run.output.lines.take (header.pageCount + 1))
    (hends : run'.ends (run'.extra header) = run.ends (run.extra header)) :
    (other.toExtractor.extract tree path ()).1 = (b.toExtractor.extract t path ()).1 := by
  have hs' : run'.Serves header pages := ⟨delivers_congr hs.delivers htake, hs.fits⟩
  rw [extract_of_serves hrun hs, extract_of_serves hother hs', hstatus, hends]

/-- A child is answered with a document exactly if it serves one, comes to its end with the lines that
nobody asks for, and succeeds. Any other stream is answered with the failure of its first line that
does not fit, whatever the status; the status counts if there is no such line. There is no answer at
all to a header that announces too many pages, or if the child does not come to its end. What is
printed after the announced pages matters to nothing else. -/
theorem extract_iff_delivers {run : ChildRun} (hrun : b.child t path = .ok run) :
    (∀ d, (b.toExtractor.extract t path ()).1 = .ok d ↔
      ∃ header pages, run.Serves header pages ∧ run.ends (run.extra header) = true ∧
        run.status.succeeded = true ∧ d = document path header pages) ∧
    (∀ f, (b.toExtractor.extract t path ()).1 = .error (.failed f) ↔
      (run.output.lines = [] ∧
        f = .cannotOpen path ("oracle exited without output (" ++ run.status.text ++ ")")) ∨
      (FirstFault path run.output.lines f ∧ ¬ Overflows run.output.lines) ∨
      (∃ header pages, run.Serves header pages ∧ run.ends (run.extra header) = true) ∧
        run.status.succeeded = false ∧ f = .extractor (.exited run.status)) ∧
    ((b.toExtractor.extract t path ()).1 = .error (.halted .overflow) ↔
      Overflows run.output.lines) ∧
    ((b.toExtractor.extract t path ()).1 = .error (.halted .waiting) ↔
      ∃ header pages, run.Serves header pages ∧ run.ends (run.extra header) = false) ∧
    ∀ header pages, run.Serves header pages →
      ∀ (other : BridgeExtractor) (tree : Tree) (run' : ChildRun),
        other.child tree path = .ok run' → run'.status = run.status →
        run'.output.lines.take (header.pageCount + 1) =
          run.output.lines.take (header.pageCount + 1) →
        run'.ends (run'.extra header) = run.ends (run.extra header) →
        (other.toExtractor.extract tree path ()).1 = (b.toExtractor.extract t path ()).1 :=
  ⟨extract_ok_iff hrun, extract_failed_iff hrun, extract_overflow_iff hrun,
    extract_waiting_iff hrun, fun _ _ hs _ _ _ hother hstatus htake hends =>
      extract_congr hrun hother hs hstatus htake hends⟩

namespace Sample

/-- A stream with a page that could not be produced, and a line that nobody asked for. -/
def output : Bytes :=
  Bytes.ofText ("[\"open\",\"1\",1]\n" ++ "[\"error\",null,\"lost\"]\n" ++ "bye\n")

def bridge : BridgeExtractor := ⟨"replay", fun _ _ => .ok { output, status := .code 0 }⟩

theorem output_lines : output.lines =
    [Bytes.ofText "[\"open\",\"1\",1]", Bytes.ofText "[\"error\",null,\"lost\"]",
      Bytes.ofText "bye"] := by decide +kernel

theorem header_read :
    Message.ofLine? (Bytes.ofText "[\"open\",\"1\",1]") = .ok (.header ⟨"1", 1⟩) :=
  Message.ofLine?_eq_header (by decide +kernel)

theorem failure_read : Message.ofLine? (Bytes.ofText "[\"error\",null,\"lost\"]") =
    .ok (.failure ⟨none, "lost"⟩) :=
  Message.ofLine?_eq_failure (by decide +kernel)

end Sample

theorem extract_of_stream_with_extra_line :
    (Sample.bridge.toExtractor.extract .empty ⟨"a.pdf"⟩ ()).1 =
      .ok (document ⟨"a.pdf"⟩ ⟨"1", 1⟩ [.unavailable 1 "lost"]) := by
  refine ((extract_iff_delivers rfl).1 _).mpr
    ⟨⟨"1", 1⟩, [.unavailable 1 "lost"], ⟨?_, by decide⟩, rfl, rfl, rfl⟩
  change Delivers Sample.output.lines _ _
  rw [Sample.output_lines]
  exact .intro Sample.header_read (.cons (.failure Sample.failure_read) .nil) rfl

namespace Sample

def hugeLine : Bytes := Bytes.ofText "[\"open\",\"1\",18446744073709551615]"

/-- Announces more pages than there can be room for, and prints none of them. -/
def hugeRun : ChildRun := Child.buffered (.ofLines [hugeLine]) (.code 0)

def emptyLine : Bytes := Bytes.ofText "[\"open\",\"1\",0]"

/-- One byte too many for those that are taken in any case. -/
def longLine : Bytes := List.replicate Child.takenSize 97

/-- Announces no pages, and then prints a long line. -/
def busyRun : ChildRun := Child.buffered (.ofLines [emptyLine, longLine]) (.code 0)

def printing (run : ChildRun) : BridgeExtractor := ⟨"replay", fun _ _ => .ok run⟩

theorem hugeRun_lines : hugeRun.output.lines = [hugeLine] :=
  Bytes.lines_ofLines (by decide +kernel)

theorem busyRun_lines : busyRun.output.lines = [emptyLine, longLine] := by
  have hempty : ∀ b ∈ emptyLine, 32 ≤ b.toNat := by decide +kernel
  have hlong : ∀ b ∈ longLine, 32 ≤ b.toNat := by
    intro b hb
    rw [List.eq_of_mem_replicate hb]
    decide
  exact Bytes.lines_ofLines (by simpa using ⟨hempty, hlong⟩)

theorem hugeLine_read : Message.ofLine? hugeLine = .ok (.header ⟨"1", 18446744073709551615⟩) :=
  Message.ofLine?_eq_header (by decide +kernel)

theorem emptyLine_read : Message.ofLine? emptyLine = .ok (.header ⟨"1", 0⟩) :=
  Message.ofLine?_eq_header (by decide +kernel)

theorem busyRun_blocked : busyRun.ends (busyRun.extra ⟨"1", 0⟩) = false := by
  have hextra : busyRun.extra ⟨"1", 0⟩ = [longLine] := by
    unfold ChildRun.extra
    rw [busyRun_lines, List.drop_succ_cons, List.drop_zero]
  rw [hextra]
  exact Child.buffered_blocked (Nat.le_of_eq List.length_replicate.symm)

end Sample

/-- A stream that stops short is not answered at all if it announces too many pages, and neither is a
document that a child delivers if it prints on behind it. -/
theorem extract_of_unanswered_streams :
    (FirstFault ⟨"a.pdf"⟩ Sample.hugeRun.output.lines
        (.extractor (.stopped 0 18446744073709551615)) ∧
      ((Sample.printing Sample.hugeRun).toExtractor.extract .empty ⟨"a.pdf"⟩ ()).1 =
        .error (.halted .overflow)) ∧
    Delivers Sample.busyRun.output.lines ⟨"1", 0⟩ [] ∧ Sample.busyRun.status.succeeded = true ∧
      ((Sample.printing Sample.busyRun).toExtractor.extract .empty ⟨"a.pdf"⟩ ()).1 =
        .error (.halted .waiting) := by
  have hdelivers : Delivers Sample.busyRun.output.lines ⟨"1", 0⟩ [] := by
    rw [Sample.busyRun_lines]
    exact .intro Sample.emptyLine_read .nil rfl
  refine ⟨⟨?_, extract_of_overflows rfl ?_⟩, hdelivers, rfl, ?_⟩
  · rw [Sample.hugeRun_lines]
    exact .truncated Sample.hugeLine_read .nil (by decide)
  · rw [Sample.hugeRun_lines]
    exact .intro Sample.hugeLine_read (by decide)
  · rw [extract_of_serves rfl ⟨hdelivers, Nat.zero_le _⟩, if_pos Sample.busyRun_blocked]

end BridgeExtractor

end GoldenRecord

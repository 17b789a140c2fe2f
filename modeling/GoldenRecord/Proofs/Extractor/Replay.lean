import GoldenRecord.Proofs.Extractor.Bridge
import GoldenRecord.Proofs.Nesting

namespace GoldenRecord

namespace Json

theorem depthMembers_perm {members members' : List (String × Json)} (h : members.Perm members') :
    depthMembers members = depthMembers members' := by
  induction h with
  | nil => rfl
  | cons m _ ih => simp only [depthMembers, ih]
  | swap m m' members => simp only [depthMembers, Nat.max_left_comm]
  | trans _ _ ih₁ ih₂ => exact ih₁.trans ih₂

/-- Compact JSON that is not nested too deeply is read back as a whole. -/
theorem ofBytes?_compact {j : Json} (hreals : ∀ x ∈ j.reals, x.IsReadNearest)
    (hdepth : j.depth ≤ depthLimit) : ofBytes? (.ofText j.compact) = .ok j :=
  ofBytes?_of_reading (ofBytes_compact hreals) hdepth

end Json

namespace Schema

def isRecord : Schema → Bool
  | .record _ => true
  | _ => false

def memberNames : Schema → List String
  | .record fields => fields.names
  | _ => []

theorem encode_keys {s : Schema} (hs : s.isRecord = true) {v : s.Data}
    {members : List (String × Json)} (h : s.encode v = .object members) :
    ∀ m ∈ members, m.1 ∈ s.memberNames := by
  cases s with
  | record fields =>
    cases h
    exact fields.encode_keys v
  | _ => cases hs

theorem decode_perm {s : Schema} (hs : s.isRecord = true) {v : s.Data}
    {members members' : List (String × Json)} (h : members.Perm members')
    (hread : s.decode (Json.object members).reading = .ok v) :
    s.decode (Json.object members').reading = .ok v := by
  cases s with
  | record fields =>
    rw [Json.reading, decode_object] at hread ⊢
    obtain ⟨slots, hslots, hread⟩ := bind_ok_iff.mp hread
    have hperm : (Json.readingMembers members).Perm (Json.readingMembers members') := by
      rw [Json.readingMembers_eq_map, Json.readingMembers_eq_map]
      exact h.map _
    exact bind_ok_iff.mpr ⟨slots, Fields.storeAll_perm hperm hslots, hread⟩
  | _ => cases hs

end Schema

namespace Message

/-- A line that holds a record as a message: its compact JSON with the kind of the message as one
more member, the members in any order. -/
def IsLine (kind : String) (content : Json) (line : Bytes) : Prop :=
  ∃ members sent, content = .object members ∧
    sent.Perm (("kind", .string kind) :: members) ∧ line = .ofText (Json.object sent).compact

def tagged (kind : String) (content : Json) : Json :=
  match content with
  | .object members => .object (("kind", .string kind) :: members)
  | j => j

theorem isLine_tagged {kind : String} {content : Json} {members : List (String × Json)}
    (h : content = .object members) : IsLine kind content (.ofText (tagged kind content).compact) := by
  subst h
  exact ⟨members, _, rfl, .refl _, rfl⟩

theorem ofLine?_compact {j : Json} {m : Message}
    (h : Json.ofBytes? (.ofChars j.compactChars) >>= ofJson? = .ok m) :
    ofLine? (.ofText j.compact) = .ok m := by
  have htext : Bytes.ofText j.compact = .ofChars j.compactChars :=
    congrArg Bytes.ofChars String.toList_ofList
  unfold ofLine?
  rw [Bytes.toText?_ofText, htext]
  simp only [h]

theorem IsLine.printable {kind : String} {content : Json} {line : Bytes}
    (h : IsLine kind content line) : ∀ b ∈ line, 32 ≤ b.toNat := by
  obtain ⟨members, sent, -, -, rfl⟩ := h
  exact Json.compact_bytes _

/-- The kind is taken out of an object, and the other members stay. -/
theorem ofJson?_sent {kind : String} {members sent : List (String × Json)}
    (hsent : sent.Perm (("kind", .string kind) :: members)) (hkind : ∀ m ∈ members, m.1 ≠ "kind") :
    ∃ others, members.Perm others ∧ ofJson? (.object sent) = ofContent? kind (.object others) := by
  have hnone : members.filter (·.1 == "kind") = [] :=
    List.filter_eq_nil_iff.mpr fun m hm => by simpa using hkind m hm
  have hall : members.filter (·.1 != "kind") = members :=
    List.filter_eq_self.mpr fun m hm => by simpa using hkind m hm
  have hfound : sent.filter (·.1 == "kind") = [("kind", .string kind)] := by
    refine List.perm_singleton.mp ?_
    have hperm := hsent.filter (·.1 == "kind")
    rwa [List.filter_cons_of_pos (by rfl), hnone] at hperm
  refine ⟨sent.filter (·.1 != "kind"), ?_, ?_⟩
  · have hperm := hsent.filter (·.1 != "kind")
    rw [List.filter_cons_of_neg (by simp), hall] at hperm
    exact hperm.symm
  · simp only [ofJson?, hfound]

theorem ofLine?_sent {α : Type} [Recorded α] {kind : String} {v : α} {line : Bytes} {m : Message}
    (hline : IsLine kind (Recorded.toJson v) line)
    (hrecord : (Recorded.schema α).isRecord = true)
    (hkind : "kind" ∉ (Recorded.schema α).memberNames)
    (hunambiguous : (Recorded.schema α).isUnambiguous = true)
    (hwritable : Recorded.IsWritable v) (hnearest : Recorded.IsReadNearest v)
    (hdepth : (Recorded.toJson v).depth ≤ Json.depthLimit)
    (hcontent : ∀ content, Recorded.ofJson? content = .ok (Recorded.ofData (Recorded.toData v) : α) →
      ofContent? kind content = .ok m) :
    ofLine? line = .ok m := by
  obtain ⟨members, sent, hmembers, hsent, rfl⟩ := hline
  have hkeys : ∀ m ∈ members, m.1 ≠ "kind" := fun m hm hname =>
    hkind (hname ▸ Schema.encode_keys hrecord hmembers m hm)
  have hreals : ∀ x ∈ (Json.object sent).reals, x.IsReadNearest := by
    intro x hx
    obtain ⟨m, hm, hx⟩ := Json.mem_realsMembers.mp hx
    rcases List.mem_cons.mp (hsent.mem_iff.mp hm) with rfl | hm
    · cases hx
    · refine Recorded.isReadNearest_reals hwritable hnearest x ?_
      rw [hmembers]
      exact Json.mem_realsMembers.mpr ⟨m, hm, hx⟩
  have hlevels : (Json.object sent).depth ≤ Json.depthLimit := by
    have hlevel : Json.depthMembers (("kind", .string kind) :: members) = Json.depthMembers members :=
      Nat.zero_max _
    rw [hmembers] at hdepth
    rw [Json.depth, Json.depthMembers_perm hsent, hlevel]
    exact hdepth
  obtain ⟨others, hothers, hjson⟩ := ofJson?_sent hsent hkeys
  have hread : Recorded.ofJson? (.object others) = .ok (Recorded.ofData (Recorded.toData v) : α) := by
    have hdecode : (Recorded.schema α).decode (Json.object members).reading =
        .ok (Recorded.toData v) := by
      rw [← hmembers]
      exact (Recorded.schema α).decode_encode hunambiguous _ hwritable
    unfold Recorded.ofJson? Recorded.ofReading?
    rw [Schema.decode_perm hrecord hothers hdecode]
    rfl
  unfold ofLine?
  rw [Bytes.toText?_ofText, Json.ofBytes?_compact hreals hlevels]
  simp only [bind, Except.bind, hjson, hcontent _ hread]

theorem ofLine?_header {h : Header} {line : Bytes} (hline : IsLine "open" (Recorded.toJson h) line)
    (hcount : h.pageCount < 2 ^ 64) : ofLine? line = .ok (.header h) := by
  have hdepth : (Recorded.toJson h).depth = 1 := rfl
  refine ofLine?_sent hline rfl (by decide) (by decide) ⟨trivial, hcount, trivial⟩
    (fun x hx => absurd hx List.not_mem_nil) (by rw [hdepth]; decide) fun content hcontent => ?_
  unfold ofContent?
  rw [if_pos rfl, hcontent]
  rfl

theorem ofLine?_failure {r : ErrorReport} {line : Bytes}
    (hline : IsLine "error" (Recorded.toJson r) line) (hnumber : ∀ n ∈ r.pageNumber, n < 2 ^ 64) :
    ofLine? line = .ok (.failure r) := by
  obtain ⟨pageNumber, message⟩ := r
  have hdepth : (Recorded.toJson (ErrorReport.mk pageNumber message)).depth = 1 := by
    cases pageNumber <;> rfl
  have hnumbers : Recorded.numbers (ErrorReport.mk pageNumber message) = [] := by
    cases pageNumber <;> rfl
  refine ofLine?_sent hline rfl (by decide) (by decide) ⟨hnumber, trivial, trivial⟩
    (fun x hx => ?_) (by rw [hdepth]; decide) fun content hcontent => ?_
  · rw [hnumbers] at hx
    exact absurd hx List.not_mem_nil
  · unfold ofContent?
    rw [if_neg (by decide), if_neg (by decide), if_pos rfl, hcontent]
    rfl

end Message

theorem RawTable.ofData_toData (t : RawTable) : Recorded.ofData (Recorded.toData t) = t := rfl

namespace RawPage

theorem ofData_toData (p : RawPage) : Recorded.ofData (Recorded.toData p) = p := by
  obtain ⟨pageNumber, width, height, chars, words, text, lines, rects, tables, tableError,
    viewErrors⟩ := p
  change RawPage.mk pageNumber width height chars words text lines rects
    ((tables.map Recorded.toData).map Recorded.ofData) tableError viewErrors = _
  rw [Recorded.map_ofData_toData RawTable.ofData_toData]

/-- A page that can be written as JSON, and that the reader is willing to read: its size is finite
or absent, its number fits a 64-bit word, and it is not nested too deeply. -/
structure IsSendable (p : RawPage) : Prop where
  pageNumber : p.pageNumber < 2 ^ 64
  width : ∀ v ∈ p.width, v.isFinite = true
  height : ∀ v ∈ p.height, v.isFinite = true
  depth : (Recorded.toJson p).depth ≤ Json.depthLimit

theorem IsSendable.isWritable {p : RawPage} (h : p.IsSendable) : Recorded.IsWritable p :=
  ⟨h.pageNumber, h.width, h.height, fun _ _ _ _ => trivial, fun _ _ _ _ => trivial,
    fun _ _ => trivial, fun _ _ _ _ => trivial, fun _ _ _ _ => trivial,
    fun _ _ => ⟨fun _ _ => trivial, fun _ _ _ _ => trivial, trivial⟩, fun _ _ => trivial,
    fun _ _ => trivial, trivial⟩

/-- A line that the page at a position is sent on: the page itself or, for a page that could not be
produced, the report of that. -/
def IsLine (p : RawPage) (index : Nat) (line : Bytes) : Prop :=
  Message.IsLine "page" (Recorded.toJson p) line ∨
    ∃ r : ErrorReport, p = .unavailable (r.pageNumber.getD (index + 1)) r.message ∧
      Message.IsLine "error" (Recorded.toJson r) line

variable {p : RawPage} {index : Nat} {line : Bytes}

theorem IsLine.printable (h : p.IsLine index line) : ∀ b ∈ line, 32 ≤ b.toNat := by
  rcases h with h | ⟨r, -, h⟩ <;> exact h.printable

theorem isLine_pair {q : RawPage} {next : Bytes} (hp : p.IsLine 0 line) (hq : q.IsLine 1 next) :
    ∀ (i : Nat) (r : RawPage) (l : Bytes), [p, q][i]? = some r → [line, next][i]? = some l →
      r.IsLine i l
  | 0, _, _, rfl, rfl => hp
  | 1, _, _, rfl, rfl => hq

theorem IsSendable.ofLine?_page (hp : p.IsSendable) (hnearest : Recorded.IsReadNearest p)
    (hline : Message.IsLine "page" (Recorded.toJson p) line) :
    Message.ofLine? line = .ok (.page p) := by
  refine Message.ofLine?_sent hline rfl (by decide) (by decide) hp.isWritable hnearest hp.depth
    fun content hcontent => ?_
  unfold Message.ofContent?
  rw [if_neg (by decide), if_pos rfl, hcontent, ofData_toData]
  rfl

theorem IsSendable.pageLine (hp : p.IsSendable) (hnearest : Recorded.IsReadNearest p)
    (hline : p.IsLine index line) : PageLine index line p := by
  rcases hline with hline | ⟨⟨pageNumber, message⟩, rfl, hline⟩
  · exact .page (hp.ofLine?_page hnearest hline)
  · refine .failure (Message.ofLine?_failure hline fun n hn => ?_)
    cases hn
    exact hp.pageNumber

end RawPage

/-- Lines that recorded pages are sent on stand for these pages. -/
theorem pageLines_of_sent {index : Nat} {lines : List Bytes} {pages : List RawPage}
    (hpages : ∀ p ∈ pages, p.IsSendable ∧ Recorded.IsReadNearest p)
    (hlength : lines.length = pages.length)
    (hlines : ∀ (i : Nat) (p : RawPage) (line : Bytes), pages[i]? = some p →
      lines[i]? = some line → p.IsLine (index + i) line) :
    PageLines index lines pages := by
  induction pages generalizing index lines with
  | nil =>
    cases List.eq_nil_of_length_eq_zero hlength
    exact .nil
  | cons p pages ih =>
    obtain ⟨line, lines, rfl⟩ := List.exists_cons_of_length_eq_add_one hlength
    obtain ⟨hp, hnearest⟩ := hpages p List.mem_cons_self
    refine .cons (hp.pageLine hnearest (hlines 0 p line rfl rfl)) ?_
    refine ih (fun q hq => hpages q (List.mem_cons_of_mem p hq)) (Nat.succ.inj hlength) ?_
    intro i q l hq hl
    have hposition : index + 1 + i = index + (i + 1) := by omega
    exact hposition ▸ hlines (i + 1) q l hq hl

def Extractor.answers {State : Type} (e : Extractor State) :
    Nat → e.Handle → State → List (Except Failure (Option e.Page))
  | 0, _, _ => []
  | n + 1, h, s =>
    let ((answer, h), s) := e.nextPage h s
    answer :: e.answers n h s

/-- The answers of a handle that serves some pages: page after page, and then that there is none. -/
def servedAnswers (pages : List RawPage) (n : Nat) : List (Except Failure (Option RawPage)) :=
  (List.range n).map fun i => .ok pages[i]?

theorem servedAnswers_nil (n : Nat) : servedAnswers [] (n + 1) = .ok none :: servedAnswers [] n := by
  unfold servedAnswers
  rw [List.range_succ_eq_map, List.map_cons, List.map_map]
  rfl

theorem servedAnswers_cons (p : RawPage) (pages : List RawPage) (n : Nat) :
    servedAnswers (p :: pages) (n + 1) = .ok (some p) :: servedAnswers pages n := by
  unfold servedAnswers
  rw [List.range_succ_eq_map, List.map_cons, List.map_map]
  rfl

theorem MemoryExtractor.answers_eq (m : MemoryExtractor) (version : String) (pageCount : Nat)
    (isOpen : Bool) (pages : List RawPage) (n released : Nat) :
    m.toExtractor.answers n (MemoryDocument.mk version pageCount pages isOpen) released =
      servedAnswers pages n := by
  induction n generalizing pages with
  | zero => rfl
  | succ n ih =>
    cases pages with
    | nil =>
      rw [servedAnswers_nil, ← ih []]
      rfl
    | cons p pages =>
      rw [servedAnswers_cons, ← ih pages]
      rfl

theorem MemoryExtractor.answers_of_recording (m : MemoryExtractor) (t : Tree) (path : Path)
    (released : Nat) {pages : List RawPage} {fits : pages.length ≤ Document.maxPages}
    (h : m.recordings.find? (path.fileName?.getD "") = some (.pages pages fits)) :
    ∃ recorded, m.toExtractor.openDocument t path released = (.ok recorded, released) ∧
      ∀ n, m.toExtractor.answers n recorded released = servedAnswers pages n := by
  have hopened : m.openDocument path =
      .ok { version := m.version, pageCount := pages.length, pages } := by
    unfold openDocument
    rw [h]
  exact ⟨_, congrArg (·, released) hopened,
    fun n => m.answers_eq m.version pages.length true pages n released⟩

namespace BridgeExtractor

theorem answers_eq (b : BridgeExtractor) (run : ChildRun) {header : Header} {index : Nat}
    {lines : List Bytes} {pages : List RawPage} (hpages : PageLines index lines pages)
    (hcount : index + pages.length = header.pageCount) (n : Nat) :
    b.toExtractor.answers n (run.opened header lines index) () = servedAnswers pages n := by
  induction n generalizing index lines pages with
  | zero => rfl
  | succ n ih =>
    cases hpages with
    | nil =>
      have hnext : (run.opened header [] index).nextPage = (.ok none, run.opened header [] index) :=
        BridgeDocument.nextPage_of_all (Nat.le_of_eq hcount.symm)
      have hlater := ih .nil hcount
      rw [servedAnswers_nil, ← hlater]
      change (BridgeDocument.nextPage _).1 :: b.toExtractor.answers n (BridgeDocument.nextPage _).2 () = _
      rw [hnext]
    | @cons _ line lines p pages hline hrest =>
      have hlength : index + 1 + pages.length = header.pageCount := by
        rw [← hcount, List.length_cons]
        omega
      have hmore : index < header.pageCount := by omega
      have hnext : (run.opened header (line :: lines) index).nextPage =
          (.ok (some p), run.opened header lines (index + 1)) :=
        BridgeDocument.nextPage_of_page hmore rfl (pageLine_toPage hline)
      rw [servedAnswers_cons, ← ih hrest hlength]
      change (BridgeDocument.nextPage _).1 :: b.toExtractor.answers n (BridgeDocument.nextPage _).2 () = _
      rw [hnext]

theorem answers_of_stream (b : BridgeExtractor) (t : Tree) (path : Path) {run : ChildRun}
    {first : Bytes} {lines : List Bytes} {header : Header} {pages : List RawPage}
    (hrun : b.child t path = .ok run) (houtput : run.output.lines = first :: lines)
    (hfirst : Message.ofLine? first = .ok (.header header)) (hpages : PageLines 0 lines pages)
    (hcount : pages.length = header.pageCount) :
    ∃ replayed, b.toExtractor.openDocument t path () = (.ok replayed, ()) ∧
      ∀ n, b.toExtractor.answers n replayed () = servedAnswers pages n :=
  ⟨_, openDocument_of_header hrun houtput hfirst,
    fun n => b.answers_eq run hpages ((Nat.zero_add _).trans hcount) n⟩

/-- A child that prints a header and recorded pages below it, each on a line of its own, and that
succeeds, answers every call for a page as the recording does, and makes the same document, as long
as the reader takes the numbers of the pages for what they were written for. -/
theorem replay_eq_recording (b : BridgeExtractor) (m : MemoryExtractor) (t : Tree) (path : Path)
    (pages : List RawPage) (first : Bytes) (lines : List Bytes) (run : ChildRun) (released : Nat)
    (fits : pages.length ≤ Document.maxPages)
    (hrecorded : m.recordings.find? (path.fileName?.getD "") = some (.pages pages fits))
    (hpages : ∀ p ∈ pages, p.IsSendable ∧ Recorded.IsReadNearest p)
    (hfirst : Message.IsLine "open" (Recorded.toJson (Header.mk m.version pages.length)) first)
    (hlength : lines.length = pages.length)
    (hlines : ∀ (i : Nat) (p : RawPage) (line : Bytes), pages[i]? = some p →
      lines[i]? = some line → p.IsLine i line)
    (hchild : b.child t path = .ok run) (hprinted : run.output = .ofLines (first :: lines))
    (hstatus : run.status.succeeded = true) :
    (∃ replayed recorded, b.toExtractor.openDocument t path () = (.ok replayed, ()) ∧
      m.toExtractor.openDocument t path released = (.ok recorded, released) ∧
      ∀ n, b.toExtractor.answers n replayed () = servedAnswers pages n ∧
        m.toExtractor.answers n recorded released = servedAnswers pages n) ∧
    ∃ d, (b.toExtractor.extract t path ()).1 = .ok d ∧
      (m.toExtractor.extract t path released).1 = .ok d := by
  have hsent : PageLines 0 lines pages :=
    pageLines_of_sent hpages hlength (by simpa only [Nat.zero_add] using hlines)
  have hheader := Message.ofLine?_header hfirst (Nat.lt_of_le_of_lt fits (by decide))
  have hprintable : ∀ line ∈ first :: lines, ∀ b ∈ line, 32 ≤ b.toNat := by
    intro line hline
    rcases List.mem_cons.mp hline with rfl | hline
    · exact hfirst.printable
    · obtain ⟨i, hi⟩ := List.mem_iff_getElem?.mp hline
      obtain ⟨hlt, -⟩ := List.getElem?_eq_some_iff.mp hi
      obtain ⟨p, hp⟩ : ∃ p, pages[i]? = some p := ⟨_, List.getElem?_eq_getElem (hlength ▸ hlt)⟩
      exact (hlines i p line hp hi).printable
  have houtput : run.output.lines = first :: lines := by
    rw [hprinted, Bytes.lines_ofLines hprintable]
  obtain ⟨replayed, hreplayed, hbridge⟩ := b.answers_of_stream t path hchild houtput hheader hsent rfl
  obtain ⟨recorded, hopened, hmemory⟩ := m.answers_of_recording t path released hrecorded
  refine ⟨⟨replayed, recorded, hreplayed, hopened, fun n => ⟨hbridge n, hmemory n⟩⟩,
    document path ⟨m.version, pages.length⟩ pages, ?_, ?_⟩
  · have hserves : run.Serves ⟨m.version, pages.length⟩ pages := by
      refine ⟨?_, fits⟩
      rw [houtput, ← List.append_nil lines]
      exact .intro hheader hsent rfl
    -- nothing is left for the child to print
    have hends : run.ends (run.extra ⟨m.version, pages.length⟩) = true := by
      unfold ChildRun.extra
      rw [houtput, List.drop_eq_nil_of_le (by simp [hlength])]
      exact run.ends_nil
    rw [extract_of_serves hchild hserves, hends, hstatus]
    rfl
  · rw [m.extract_eq, document_eq]
    unfold MemoryExtractor.answer MemoryExtractor.openDocument
    rw [hrecorded]
    rfl

theorem replay_of_page_and_report :
    let page : RawPage :=
      { pageNumber := 7, width := some (.ofDecimal false 6125 (-1)), text := some "\"\n"
        chars := [.ofList [("text", .ofJson (.string "é"))]]
        viewErrors := .ofList [("words", "blown up")] }
    let lost : ErrorReport := ⟨none, "lost"⟩
    let pages := [page, .unavailable 2 "lost"]
    let first := Bytes.ofText (Message.tagged "open" (Recorded.toJson (Header.mk "1" 2))).compact
    let pageLine := Bytes.ofText (Message.tagged "page" (Recorded.toJson page)).compact
    let lostLine := Bytes.ofText (Message.tagged "error" (Recorded.toJson lost)).compact
    let m : MemoryExtractor := { version := "1", recordings := .ofList [("a.pdf", .pages pages)] }
    let run := Child.buffered (.ofLines [first, pageLine, lostLine]) (.code 0)
    let b : BridgeExtractor := ⟨"printer", fun _ _ => .ok run⟩
    (∀ p ∈ pages, p.IsSendable ∧ Recorded.IsReadNearest p) ∧
      ∃ d, (b.toExtractor.extract .empty ⟨"a.pdf"⟩ ()).1 = .ok d ∧
        (m.toExtractor.extract .empty ⟨"a.pdf"⟩ 0).1 = .ok d := by
  intro page lost pages first pageLine lostLine m run b
  have hpage : page.IsSendable ∧ Recorded.IsReadNearest page :=
    ⟨⟨by decide, by decide +kernel, by decide +kernel, by decide +kernel⟩, by decide +kernel⟩
  have hlost : (RawPage.unavailable 2 "lost").IsSendable ∧
      Recorded.IsReadNearest (RawPage.unavailable 2 "lost") :=
    ⟨⟨by decide, by decide, by decide, by decide +kernel⟩, by decide +kernel⟩
  have hpages : ∀ p ∈ pages, p.IsSendable ∧ Recorded.IsReadNearest p :=
    List.forall_mem_cons.mpr ⟨hpage, List.forall_mem_singleton.mpr hlost⟩
  have hfirst : Message.IsLine "open" (Recorded.toJson (Header.mk "1" 2)) first :=
    Message.isLine_tagged rfl
  have hpageLine : page.IsLine 0 pageLine := .inl (Message.isLine_tagged rfl)
  have hlostLine : (RawPage.unavailable 2 "lost").IsLine 1 lostLine :=
    .inr ⟨lost, rfl, Message.isLine_tagged rfl⟩
  have hreplay := replay_eq_recording b m .empty ⟨"a.pdf"⟩ pages first [pageLine, lostLine] run
    0 (by decide) rfl hpages hfirst (Eq.refl 2) (RawPage.isLine_pair hpageLine hlostLine) rfl rfl rfl
  exact ⟨hpages, hreplay.2⟩

/-- The width here lies between two doubles once its digits are read as a whole number, and the
reader takes the other one. -/
theorem replay_of_inexact_width :
    let page : RawPage := { width := some (.ofDecimal false 225179981368524775 (-2)) }
    let first := Bytes.ofText (Message.tagged "open" (Recorded.toJson (Header.mk "1" 1))).compact
    let sent := Message.tagged "page" (Recorded.toJson page)
    let line := Bytes.ofText sent.compact
    let m : MemoryExtractor := { version := "1", recordings := .ofList [("a.pdf", .pages [page])] }
    let run := Child.buffered (.ofLines [first, line]) (.code 0)
    let b : BridgeExtractor := ⟨"printer", fun _ _ => .ok run⟩
    page.IsSendable ∧ Message.IsLine "open" (Recorded.toJson (Header.mk "1" 1)) first ∧
      page.IsLine 0 line ∧
      ∃ replayed recorded, b.toExtractor.openDocument .empty ⟨"a.pdf"⟩ () = (.ok replayed, ()) ∧
        m.toExtractor.openDocument .empty ⟨"a.pdf"⟩ 0 = (.ok recorded, 0) ∧
        b.toExtractor.answers 1 replayed () ≠ m.toExtractor.answers 1 recorded 0 := by
  intro page first sent line m run b
  have hfirst : Message.IsLine "open" (Recorded.toJson (Header.mk "1" 1)) first :=
    Message.isLine_tagged rfl
  have hline : Message.IsLine "page" (Recorded.toJson page) line := Message.isLine_tagged rfl
  have houtput : (Bytes.ofLines [first, line]).lines = [first, line] :=
    Bytes.lines_ofLines <|
      List.forall_mem_cons.mpr ⟨hfirst.printable, List.forall_mem_singleton.mpr hline.printable⟩
  have hread : (Json.ofBytes? (.ofChars sent.compactChars) >>= Message.ofJson?).map (fun m =>
      m.page?.any fun q => decide (q.width ≠ page.width)) = .ok true := by decide +kernel
  have hheader := Message.ofLine?_header hfirst (by decide)
  have hpages : m.recordings.find? ((Path.mk "a.pdf").fileName?.getD "") = some (.pages [page]) :=
    rfl
  obtain ⟨recorded, hrecorded, hmemory⟩ := m.answers_of_recording .empty ⟨"a.pdf"⟩ 0 hpages
  obtain ⟨m', hq, hany⟩ := map_ok_iff.mp hread
  obtain ⟨q, hpage', hwidth⟩ := (Option.any_eq_true _ _).mp hany
  obtain rfl := Message.page?_eq_some.mp hpage'
  have hpage : Message.ofLine? line = .ok (.page q) := Message.ofLine?_compact hq
  obtain ⟨replayed, hreplayed, hbridge⟩ := b.answers_of_stream .empty ⟨"a.pdf"⟩ rfl
    houtput hheader (.cons (.page hpage) .nil) rfl
  have hdiffer : ∀ p : RawPage, servedAnswers [q] 1 = servedAnswers [p] 1 → q.width = p.width := by
    rintro p hsame
    cases hsame
    rfl
  refine ⟨⟨by decide, by decide +kernel, by decide +kernel, by decide +kernel⟩, hfirst,
    .inl hline, replayed, recorded, hreplayed, hrecorded, fun hsame => ?_⟩
  rw [hbridge, hmemory] at hsame
  exact of_decide_eq_true hwidth (hdiffer page hsame)

end BridgeExtractor

end GoldenRecord

import GoldenRecord.Proofs.Extraction

namespace GoldenRecord

/-- A step beside a value that it does not touch. -/
def besides {σ τ α : Type} (x : StateM σ α) : StateM (σ × τ) α :=
  fun s => ((x s.1).1, ((x s.1).2, s.2))

/-- The same views, beside a value that they do not touch. -/
def Views.besides {Page State : Type} (τ : Type) (v : Views Page State) : Views Page (State × τ) where
  width := v.width
  height := v.height
  chars p := GoldenRecord.besides (v.chars p)
  words p := GoldenRecord.besides (v.words p)
  text p := GoldenRecord.besides (v.text p)
  lines p := GoldenRecord.besides (v.lines p)
  rects p := GoldenRecord.besides (v.rects p)
  tables p := GoldenRecord.besides (v.tables p)

theorem Views.besides_extract {Page State τ : Type} (v : Views Page State) (p : Page) (index : Nat) :
    (v.besides τ).extract p index = GoldenRecord.besides (v.extract p index) := rfl

namespace Extractor

variable {State : Type}

/-- The same extractor, with a list of the paths it was asked to open. Nothing else can be asked of it
without an open document, so it has not touched what is not listed. -/
def logged (e : Extractor State) : Extractor (State × List Path) where
  Handle := e.Handle
  Page := e.Page
  views := e.views.besides (List Path)
  openDocument t p := fun (s, opened) =>
    let (document, s) := e.openDocument t p s
    (document, s, opened ++ [p])
  version := e.version
  pageCount := e.pageCount
  nextPage h := besides (e.nextPage h)
  close h := besides (e.close h)
  drop h := besides (e.drop h)
  remaining := e.remaining
  nextPage_remaining h s p hp := e.nextPage_remaining h s.1 p hp

variable (e : Extractor State) (opened : List Path)

theorem logged_collect (h : e.Handle) (index : Nat) (s : State) :
    e.logged.collect h index (s, opened) =
      ((e.collect h index s).1, ((e.collect h index s).2, opened)) := by
  induction hn : e.remaining h using Nat.strongRecOn generalizing h index s with
  | ind n ih =>
    cases hs : e.nextPage h s with
    | mk served s₁ =>
      obtain ⟨result, h₁⟩ := served
      have hlogged : e.logged.nextPage h (s, opened) = ((result, h₁), (s₁, opened)) := by
        simp [logged, besides, hs]
      cases result with
      | error f =>
        rw [collect_of_error hs, collect_of_error hlogged]
        rfl
      | ok page? =>
        cases page? with
        | none =>
          rw [collect_of_end hs, collect_of_end hlogged]
          rfl
        | some p =>
          have hless := e.nextPage_remaining h s p (by rw [hs])
          rw [hs, hn] at hless
          cases hv : e.views.extract p index s₁ with
          | mk extracted s₂ =>
            obtain ⟨page, rest⟩ := extracted
            have hviews : e.logged.views.extract p index (s₁, opened) =
                ((page, rest), (s₂, opened)) := by
              change (e.views.besides (List Path)).extract p index (s₁, opened) = _
              rw [Views.besides_extract, besides, hv]
            have hlater := ih _ hless h₁ (index + 1) s₂ rfl
            cases hc : e.collect h₁ (index + 1) s₂ with
            | mk collected s₃ =>
              rw [hc] at hlater
              obtain ⟨f | pages, h₂⟩ := collected
              · rw [collect_of_later_error hs hv hc, collect_of_later_error hlogged hviews hlater]
                rfl
              · rw [collect_of_page hs hv hc, collect_of_page hlogged hviews hlater]
                rfl

theorem logged_assemble (h : e.Handle) (source : String) (s : State) :
    e.logged.assemble h source (s, opened) =
      ((e.assemble h source s).1, ((e.assemble h source s).2, opened)) := by
  by_cases hmax : Document.maxPages < e.pageCount h
  · rw [assemble_of_overflow source hmax]
    exact assemble_of_overflow source hmax
  · have hfits : e.pageCount h ≤ Document.maxPages := Nat.not_lt.mp hmax
    have hfits' : e.logged.pageCount h ≤ Document.maxPages := hfits
    have hlogged := e.logged_collect opened h 0 s
    cases hc : e.collect h 0 s with
    | mk collected s₁ =>
      rw [hc] at hlogged
      obtain ⟨f | pages, h₁⟩ := collected
      · rw [assemble_of_error source hfits hc, assemble_of_error source hfits' hlogged]
        rfl
      · rw [assemble_of_pages _ source rfl hfits hc, assemble_of_pages _ source rfl hfits' hlogged]
        rfl

/-- A document is opened once, and its path is noted; what comes of it is the same. -/
theorem logged_extract (t : Tree) (p : Path) (s : State) :
    e.logged.extract t p (s, opened) =
      ((e.extract t p s).1, ((e.extract t p s).2, opened ++ [p])) := by
  cases ho : e.openDocument t p s with
  | mk answer s₁ =>
    have hopened : e.logged.openDocument t p (s, opened) = (answer, (s₁, opened ++ [p])) := by
      simp [logged, ho]
    cases answer with
    | error f => rw [extract_of_unopened ho, extract_of_unopened hopened]
    | ok h =>
      have hassembled := e.logged_assemble (opened ++ [p]) h p.sourceName s₁
      cases ha : e.assemble h p.sourceName s₁ with
      | mk assembled s₂ =>
        obtain ⟨document, h₁⟩ := assembled
        rw [ha] at hassembled
        cases hd : halt? document with
        | some halt =>
          obtain rfl := halt?_eq_some.mp hd
          rw [extract_of_halted_pages ho ha, extract_of_halted_pages hopened hassembled]
          cases halt <;> rfl
        | none =>
          cases hc : e.close h₁ s₂ with
          | mk closing s₃ =>
            obtain ⟨closed, h₂⟩ := closing
            have hclosed : e.logged.close h₁ (s₂, opened ++ [p]) =
                ((closed, h₂), (s₃, opened ++ [p])) := by
              simp [logged, besides, hc]
            cases hk : halt? closed with
            | some halt =>
              obtain rfl := halt?_eq_some.mp hk
              rw [extract_of_halted_close ho ha hd hc,
                extract_of_halted_close hopened hassembled hd hclosed]
              cases halt <;> rfl
            | none =>
              rw [extract_of_opened ho ha hc hd hk,
                extract_of_opened hopened hassembled hclosed hd hk]
              rfl

end Extractor

end GoldenRecord

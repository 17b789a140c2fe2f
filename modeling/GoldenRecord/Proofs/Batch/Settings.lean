import GoldenRecord.Batch.Builder
import GoldenRecord.Proofs.TextMap
import Mathlib.Data.List.Induction
import Mathlib.Data.List.TakeWhile

namespace GoldenRecord

namespace NameSet

theorem contains_insert (s : NameSet) (name k : String) :
    (s.insert name).contains k = true ↔ k = name ∨ s.contains k = true := by
  unfold contains insert
  rw [TextMap.find?_insert]
  split
  next h => simp [h]
  next h => simp [h]

theorem insert_comm (s : NameSet) (name other : String) :
    (s.insert name).insert other = (s.insert other).insert name := by
  refine TextMap.ext_find? fun k => ?_
  unfold insert
  simp only [TextMap.find?_insert]
  split <;> split <;> rfl

theorem contains_ofList (names : List String) (k : String) :
    (ofList names).contains k = true ↔ k ∈ names := by
  unfold contains ofList
  rw [TextMap.isSome_find?_ofList]
  simp

theorem mem_toList (s : NameSet) (k : String) : k ∈ s.toList ↔ s.contains k = true := by
  unfold contains
  rw [Option.isSome_iff_exists]
  constructor
  · intro h
    obtain ⟨e, he, rfl⟩ := List.mem_map.mp h
    exact ⟨e.2, TextMap.find?_eq_some_iff.mpr he⟩
  · rintro ⟨u, h⟩
    exact List.mem_map.mpr ⟨(k, u), TextMap.find?_eq_some_iff.mp h, rfl⟩

theorem contains_union (s t : NameSet) (k : String) :
    (s.union t).contains k = true ↔ s.contains k = true ∨ t.contains k = true := by
  have hfold : ∀ (names : List String) (s : NameSet),
      (names.foldl insert s).contains k = true ↔ s.contains k = true ∨ k ∈ names := by
    intro names
    induction names with
    | nil => simp
    | cons name names ih =>
      intro s
      rw [List.foldl_cons, ih, contains_insert, List.mem_cons, or_assoc, or_left_comm]
  rw [union, hfold, mem_toList]

end NameSet

namespace Batch

namespace Setting

/-- What a setting is about. -/
inductive Kind where
  | inputs
  | extension
  | skip
  | defaultSkips
  | profile
  | missing
deriving DecidableEq

def kind : Setting → Kind
  | .input _ => .inputs
  | .inputs _ => .inputs
  | .extension _ => .extension
  | .skip _ => .skip
  | .defaultSkips _ => .defaultSkips
  | .profile _ => .profile
  | .missing _ => .missing

def directories : Setting → List Path
  | .input p => [p]
  | .inputs ps => ps
  | _ => []

def skipped? : Setting → Option String
  | .skip name => some name
  | _ => none

def extension? : Setting → Option String
  | .extension e => some e
  | _ => none

def enabled? : Setting → Option Bool
  | .defaultSkips enabled => some enabled
  | _ => none

def profile? : Setting → Option Profile
  | .profile p => some p
  | _ => none

def missing? : Setting → Option MissingPolicy
  | .missing m => some m
  | _ => none

def last? {α : Type} (value? : Setting → Option α) (settings : List Setting) : Option α :=
  (settings.filterMap value?).getLast?

theorem last?_append_singleton {α : Type} (value? : Setting → Option α) (settings : List Setting)
    (s : Setting) : last? value? (settings ++ [s]) = (value? s).or (last? value? settings) := by
  unfold last?
  rw [List.filterMap_append]
  cases h : value? s with
  | none => simp [h]
  | some a => simp [h]

theorem last?_map {α β : Type} (value? : Setting → Option α) (f : α → β)
    (settings : List Setting) :
    last? (fun s => (value? s).map f) settings = (last? value? settings).map f := by
  unfold last?
  rw [← List.getLast?_map, List.map_filterMap]

end Setting

namespace Builder

variable {b : Builder} {s s' : Setting}

theorem configure_append_singleton (b : Builder) (settings : List Setting) (s : Setting) :
    b.configure (settings ++ [s]) = (b.configure settings).apply s :=
  List.foldl_append

/-- A part of the builder that each setting either replaces or leaves alone has the value set
last. -/
theorem configure_last {α : Type} (part : Builder → α) (value? : Setting → Option α)
    (hstep : ∀ b s, part (b.apply s) = (value? s).getD (part b)) (b : Builder)
    (settings : List Setting) :
    part (b.configure settings) = (Setting.last? value? settings).getD (part b) := by
  induction settings using List.reverseRecOn with
  | nil => rfl
  | append_singleton settings s ih =>
    rw [configure_append_singleton, hstep, ih, Setting.last?_append_singleton]
    cases value? s <;> rfl

theorem configure_output (b : Builder) (settings : List Setting) :
    (b.configure settings).output = b.output := by
  induction settings using List.reverseRecOn with
  | nil => rfl
  | append_singleton settings s ih =>
    rw [configure_append_singleton, ← ih]
    cases s <;> rfl

theorem configure_extension (b : Builder) (settings : List Setting) :
    (b.configure settings).extension =
      ((Setting.last? Setting.extension? settings).map trimDots).getD b.extension := by
  rw [← Setting.last?_map]
  exact configure_last Builder.extension _ (fun _ s => by cases s <;> rfl) b settings

theorem configure_withDefaultSkips (b : Builder) (settings : List Setting) :
    (b.configure settings).withDefaultSkips =
      (Setting.last? Setting.enabled? settings).getD b.withDefaultSkips :=
  configure_last Builder.withDefaultSkips _ (fun _ s => by cases s <;> rfl) b settings

theorem configure_profile (b : Builder) (settings : List Setting) :
    (b.configure settings).profile = (Setting.last? Setting.profile? settings).getD b.profile :=
  configure_last Builder.profile _ (fun _ s => by cases s <;> rfl) b settings

theorem configure_missing (b : Builder) (settings : List Setting) :
    (b.configure settings).missing = (Setting.last? Setting.missing? settings).getD b.missing :=
  configure_last Builder.missing _ (fun _ s => by cases s <;> rfl) b settings

theorem apply_inputs (b : Builder) (s : Setting) :
    (b.apply s).inputs = b.inputs ++ s.directories := by
  cases s with
  | input p => rfl
  | inputs ps => rfl
  | _ => exact (List.append_nil b.inputs).symm

theorem configure_inputs (b : Builder) (settings : List Setting) :
    (b.configure settings).inputs = b.inputs ++ settings.flatMap Setting.directories := by
  induction settings using List.reverseRecOn with
  | nil => exact (List.append_nil b.inputs).symm
  | append_singleton settings s ih =>
    rw [configure_append_singleton, apply_inputs, ih, List.flatMap_append, List.append_assoc,
      List.flatMap_singleton]

theorem contains_apply (b : Builder) (s : Setting) (name : String) :
    (b.apply s).skips.contains name = true ↔
      b.skips.contains name = true ∨ s.skipped? = some name := by
  cases s with
  | skip other =>
    rw [apply, NameSet.contains_insert, Setting.skipped?, Option.some.injEq]
    constructor
    · rintro (h | h)
      · exact .inr h.symm
      · exact .inl h
    · rintro (h | h)
      · exact .inr h
      · exact .inl h.symm
  | _ => simp [apply, Setting.skipped?]

theorem contains_configure (b : Builder) (settings : List Setting) (name : String) :
    (b.configure settings).skips.contains name = true ↔
      b.skips.contains name = true ∨ name ∈ settings.filterMap Setting.skipped? := by
  induction settings using List.reverseRecOn with
  | nil => simp [configure]
  | append_singleton settings s ih =>
    rw [configure_append_singleton, contains_apply, ih, List.filterMap_append, List.mem_append]
    simp [or_assoc]

theorem contains_build (b : Builder) (name : String) :
    b.build.skips.contains name = true ↔
      b.skips.contains name = true ∨ name ∈ defaultSkips ∧ b.withDefaultSkips = true := by
  unfold build
  cases b.withDefaultSkips with
  | false => simp
  | true => simp [NameSet.contains_union, NameSet.contains_ofList]

theorem trimDots_spec (e : String) :
    (∃ n, e.toList = List.replicate n '.' ++ (trimDots e).toList) ∧
      (trimDots e).toList.head? ≠ some '.' := by
  unfold trimDots
  rw [String.toList_ofList]
  constructor
  · refine ⟨(e.toList.takeWhile (· == '.')).length, ?_⟩
    have hdots : e.toList.takeWhile (· == '.') =
        List.replicate (e.toList.takeWhile (· == '.')).length '.' :=
      List.eq_replicate_iff.mpr ⟨rfl, fun c hc => by simpa using List.mem_takeWhile_imp hc⟩
    rw [← hdots, List.takeWhile_append_dropWhile]
  · intro h
    have hnot := List.head?_dropWhile_not (· == '.') e.toList
    rw [h] at hnot
    simp at hnot

section Order

theorem apply_comm (b : Builder) (h : s.kind ≠ s'.kind ∨ s.kind = .skip ∧ s'.kind = .skip) :
    (b.apply s).apply s' = (b.apply s').apply s := by
  cases s with
  | skip name =>
    cases s' with
    | skip other => simp only [apply, NameSet.insert_comm b.skips name other]
    | _ => rfl
  | _ => cases s' <;> first | rfl | simp [Setting.kind] at h

theorem configure_exchange (b : Builder) (before after : List Setting)
    (h : ∀ b : Builder, (b.apply s).apply s' = (b.apply s').apply s) :
    b.configure (before ++ s :: s' :: after) = b.configure (before ++ s' :: s :: after) := by
  unfold configure
  simp only [List.foldl_append, List.foldl_cons, h]

/-- Two settings that add directories keep the order of the directories. -/
theorem build_exchange_directories (b : Builder) (before after : List Setting)
    (h : s.kind = .inputs) (h' : s'.kind = .inputs) :
    (b.configure (before ++ s :: s' :: after)).build =
        (b.configure (before ++ s' :: s :: after)).build ↔
      s.directories ++ s'.directories = s'.directories ++ s.directories := by
  constructor
  · intro hsame
    have hinputs := congrArg Config.inputs hsame
    simp only [build, configure_inputs, List.flatMap_append, List.flatMap_cons,
      List.append_cancel_left_eq] at hinputs
    rw [← List.append_assoc, ← List.append_assoc] at hinputs
    exact List.append_cancel_right hinputs
  · intro hsame
    refine congrArg build (b.configure_exchange before after fun b => ?_)
    have hadds : ∀ (b : Builder) (t : Setting), t.kind = .inputs →
        b.apply t = { b with inputs := b.inputs ++ t.directories } := by
      intro b t ht
      cases t <;> first | rfl | simp [Setting.kind] at ht
    rw [hadds _ s' h', hadds _ s h, hadds _ s h, hadds _ s' h']
    simp only [List.append_assoc, hsame]

end Order

/-- The configuration that settings lead to: the directories in the order in which they were added;
the names that were skipped, with the default names unless these were switched off last; the
extension set last, without dots in front, and the profile and the policy set last. Settings of
different kinds next to each other can be exchanged, and so can two that skip a name; two that add
directories can only if that adds the same directories in the same order. -/
theorem build_configure (output : Path) (settings : List Setting) :
    let c := (configure { output } settings).build
    (c.output = output ∧ c.inputs = settings.flatMap Setting.directories ∧
      (∀ name, c.skips.contains name = true ↔
        name ∈ settings.filterMap Setting.skipped? ∨
          name ∈ defaultSkips ∧ (Setting.last? Setting.enabled? settings).getD true = true) ∧
      (match Setting.last? Setting.extension? settings with
        | some e => (∃ n, e.toList = List.replicate n '.' ++ c.extension.toList) ∧
            c.extension.toList.head? ≠ some '.'
        | none => c.extension = defaultExtension) ∧
      c.profile = (Setting.last? Setting.profile? settings).getD .full ∧
      c.missing = (Setting.last? Setting.missing? settings).getD .fatal) ∧
    ∀ before s s' after, settings = before ++ s :: s' :: after →
      (s.kind ≠ s'.kind ∨ s.kind = .skip ∧ s'.kind = .skip →
        (configure { output } (before ++ s' :: s :: after)).build = c) ∧
      (s.kind = .inputs → s'.kind = .inputs →
        ((configure { output } (before ++ s' :: s :: after)).build = c ↔
          s.directories ++ s'.directories = s'.directories ++ s.directories)) := by
  intro c
  refine ⟨⟨configure_output _ settings, ?_, fun name => ?_, ?_, configure_profile _ settings,
    configure_missing _ settings⟩, ?_⟩
  · exact (configure_inputs _ settings).trans (List.nil_append _)
  · rw [contains_build, contains_configure, configure_withDefaultSkips]
    have hnone : NameSet.contains .empty name = false := rfl
    simp [hnone]
  · have hextension : c.extension =
        ((Setting.last? Setting.extension? settings).map trimDots).getD defaultExtension :=
      configure_extension _ settings
    cases h : Setting.last? Setting.extension? settings with
    | none => simpa [h] using hextension
    | some e =>
      rw [h] at hextension
      rw [hextension]
      exact trimDots_spec e
  · rintro before s s' after rfl
    refine ⟨fun h => ?_, fun h h' => ?_⟩
    · exact (congrArg build (configure_exchange _ before after fun b => b.apply_comm h)).symm
    · rw [← build_exchange_directories { output } before after h h']
      exact eq_comm

/-- A default name that is skipped by name, before or after the default names are switched off. -/
theorem build_configure_of_skipped_default :
    let start : Builder := { output := ⟨"golden"⟩ }
    let settings : List Setting :=
      [.input ⟨"a"⟩, .inputs [⟨"b"⟩, ⟨"c"⟩], .skip "empty.pdf", .defaultSkips false,
        .extension "..PDF"]
    let others : List Setting :=
      [.input ⟨"a"⟩, .inputs [⟨"b"⟩, ⟨"c"⟩], .defaultSkips false, .skip "empty.pdf",
        .extension "..PDF"]
    let c := (start.configure settings).build
    (Setting.skip "empty.pdf").kind ≠ (Setting.defaultSkips false).kind ∧
      (start.configure others).build = c ∧ c.skips.toList = ["empty.pdf"] ∧ c.extension = "PDF" ∧
      (start.configure [.inputs [⟨"b"⟩, ⟨"c"⟩], .input ⟨"a"⟩]).build ≠
        (start.configure [.input ⟨"a"⟩, .inputs [⟨"b"⟩, ⟨"c"⟩]]).build := by
  intro start settings others c
  have hkinds : (Setting.skip "empty.pdf").kind ≠ (Setting.defaultSkips false).kind := by decide
  have hmoved := (build_configure ⟨"golden"⟩ settings).2 [.input ⟨"a"⟩, .inputs [⟨"b"⟩, ⟨"c"⟩]]
    (.skip "empty.pdf") (.defaultSkips false) [.extension "..PDF"] rfl
  have horder := (build_configure ⟨"golden"⟩ [.input ⟨"a"⟩, .inputs [⟨"b"⟩, ⟨"c"⟩]]).2 []
    (.input ⟨"a"⟩) (.inputs [⟨"b"⟩, ⟨"c"⟩]) [] rfl
  refine ⟨hkinds, hmoved.1 (.inl hkinds), by decide +kernel, by decide +kernel, fun h => ?_⟩
  exact absurd ((horder.2 rfl rfl).mp h) (by decide)

end Builder

end Batch

end GoldenRecord

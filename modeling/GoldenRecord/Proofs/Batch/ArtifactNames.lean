import GoldenRecord.Proofs.Batch.Listing

namespace GoldenRecord

namespace Path

theorem components_join (base : Path) {name : String} (hn : IsPlainName name) :
    (base.join name).components = base.components ++ [name] := by
  have hkept : [name].filter (fun piece => !isIdle piece) = [name] := by simp [hn.notIdle]
  by_cases hb : base.text = ""
  · have hempty : base.components = [] := by
      rw [components, pieceNames, hb]
      decide
    have hsingle : (base.join name).pieceNames = [name] := by
      simp [join, hb, pieceNames, pieces_of_no_slash hn.noSlash]
    rw [hempty, components, hsingle, hkept]
    rfl
  · obtain ⟨pieces, hpieces, hbase⟩ := pieceNames_join hn hb
    have hfront : base.components = pieces.filter fun piece => !isIdle piece := by
      rcases hbase with hbase | hbase
      · rw [components, hbase]
      · rw [components, hbase, List.filter_append]
        simp [isIdle]
    rw [components, hpieces, List.filter_append, hkept, hfront]

end Path

namespace Batch

variable {c : Config} {t : Tree} {p q : Path}

theorem names_of_accepts (h : c.accepts t p = true) :
    ∃ stem, stem ≠ "" ∧ '.' ∉ c.extension.toList ∧
      p.fileName? = some (stem ++ "." ++ c.extension) ∧ Config.artifactName p = stem ++ ".json" := by
  have hext := (accepts_iff.mp h).1
  obtain ⟨stem, hrecord, hname, hne⟩ := Config.artifactName_of_extension hext
  obtain ⟨-, -, -, hdot⟩ := (Path.extension?_eq_some_iff hname).mp hext
  exact ⟨stem, fun hempty => hne (by simp [hempty]), hdot, hname, hrecord⟩

theorem fileName?_artifact (c : Config) (hp : p.fileName?.isSome) :
    (c.artifact p).fileName? = some (Config.artifactName p) :=
  Path.fileName?_join c.output (Config.artifactName_isPlain hp)

theorem extension?_artifact (h : c.accepts t p = true) :
    (c.artifact p).extension? = some "json" := by
  obtain ⟨stem, hne, -, -, hrecord⟩ := names_of_accepts h
  rw [Path.extension?_eq_some_iff (fileName?_artifact c (fileName?_isSome_of_accepts h)), hrecord]
  exact ⟨stem, hne, by rw [String.append_assoc]; rfl, by decide⟩

/-- Inputs share a record exactly if they share a name. -/
theorem artifact_eq_iff (hp : c.accepts t p = true) (hq : c.accepts t q = true) :
    c.artifact p = c.artifact q ↔ p.fileName? = q.fileName? := by
  refine ⟨fileName?_eq_of_artifact hp hq, fun h => ?_⟩
  have hstem : p.stem? = q.stem? := by rw [Path.stem?, Path.stem?, h]
  have hsource : p.sourceName = q.sourceName := by
    rw [sourceName_of_accepts hp, sourceName_of_accepts hq] at h
    exact Option.some.inj h
  rw [Config.artifact, Config.artifact, Config.artifactName, Config.artifactName, hstem, hsource]

/-- The record of a discovered input is directly inside the output directory, and has the name of the
input with `json` in place of the extension. Two discovered inputs have one record exactly if they have
one name. If `json` is not the extension of the inputs, no record has that extension, and none has the
name or the place of anything that is ever discovered by it. -/
theorem discover_artifacts {inputs : List Path} (h : discover t c c.inputs = .ok inputs) :
    (∀ p ∈ inputs, ∃ stem, stem ≠ "" ∧ '.' ∉ c.extension.toList ∧
      p.fileName? = some (stem ++ "." ++ c.extension) ∧
      c.artifact p = c.output.join (stem ++ ".json") ∧
      (c.artifact p).isAbsolute = c.output.isAbsolute ∧
      (c.artifact p).components = c.output.components ++ [stem ++ ".json"] ∧
      ∀ (u : Tree) b l, u.IsAt c.output b → u.locate (c.artifact p) = .ok l →
        l = b ++ [stem ++ ".json"]) ∧
    (∀ p ∈ inputs, ∀ q ∈ inputs, c.artifact p = c.artifact q ↔ p.fileName? = q.fileName?) ∧
    (c.extension ≠ "json" → ∀ p ∈ inputs, (c.artifact p).extension? ≠ some c.extension ∧
      ∀ (u : Tree) (other : Config) directories found, other.extension = c.extension →
        discover u other directories = .ok found → ∀ q ∈ found,
          q.fileName? ≠ (c.artifact p).fileName? ∧
          ∀ l, u.locate q = .ok l → u.locate (c.artifact p) ≠ .ok l) := by
  have haccepts := fun p hp => mem_discover (p := p) h hp
  refine ⟨fun p hp => ?_, fun p hp q hq => artifact_eq_iff (haccepts p hp) (haccepts q hq),
    fun hjson p hp => ?_⟩
  · obtain ⟨stem, hne, hdot, hname, hrecord⟩ := names_of_accepts (haccepts p hp)
    have hsome := fileName?_isSome_of_accepts (haccepts p hp)
    have hplain := Config.artifactName_isPlain hsome
    rw [hrecord] at hplain
    have hartifact : c.artifact p = c.output.join (stem ++ ".json") := by
      rw [Config.artifact, hrecord]
    refine ⟨stem, hne, hdot, hname, hartifact, ?_, ?_, fun u b l hb hl => ?_⟩
    · rw [hartifact, Path.isAbsolute_join hplain]
    · rw [hartifact, Path.components_join c.output hplain]
    · rw [← hrecord]
      exact Config.locate_artifact hb hsome hl
  · have hrecord := extension?_artifact (haccepts p hp)
    have hinput := (accepts_iff.mp (haccepts p hp)).1
    refine ⟨fun he => hjson (Option.some.inj (he.symm.trans hrecord)), ?_⟩
    intro u other directories found hother hfound q hq
    have hext := (accepts_iff.mp (mem_discover hfound hq)).1
    rw [hother] at hext
    refine ⟨fun hname => hjson ?_, fun l hl hplace => hjson ?_⟩
    · have hsame : (c.artifact p).extension? = q.extension? := by
        rw [Path.extension?, Path.extension?, hname]
      exact Option.some.inj ((hext.symm.trans hsame.symm).trans hrecord)
    · exact Config.extension_of_locate hext hinput hl hplace

end Batch

end GoldenRecord

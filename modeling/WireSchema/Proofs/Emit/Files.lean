import Mathlib
import WireSchema.Compile
import WireSchema.Proofs.Disk.Path
import WireSchema.Proofs.Except
import WireSchema.Proofs.Naming.Setter

/-!
# What all emitted files have in common

Whatever the plans, an emitted file has a name that an entry of a folder can have and that ends like
the name of source text, and its first line is the mark of generated files: the layout keeps a first
line of code where it is.  The names of a run are different.

## Main results

* `lines_format_head?` — laying out a file keeps its first line.
* `layOut_keepsHeader` — so the standard layout keeps the mark of a generated file.
* `goEmitterWith_marked` — with a layout that keeps it, the emitter of Go source emits marked files.
* `emit_marked` — whatever the settings, all emitted files are marked and have different names.
-/

namespace WireSchema

namespace Emit

variable {lines : List Line} {t : String}

/-! ## The first line -/

theorem layComments_head? (h : lines.head? = some (.code 0 t)) :
    (layComments lines).head? = some (.code 0 t) := by
  obtain ⟨rest, rfl⟩ := List.head?_eq_some_iff.mp h
  simp [layComments]

theorem hoistConstraints_head? (ht : t ≠ "") (h : lines.head? = some (.code 0 t)) :
    (hoistConstraints lines).head? = some (.code 0 t) := by
  obtain ⟨rest, rfl⟩ := List.head?_eq_some_iff.mp h
  have hblank : (Line.code 0 t).isBlank = false := by simpa [Line.isBlank] using ht
  dsimp only [hoistConstraints]
  split
  · rfl
  · simp [Line.constraint?, hblank]

theorem squeeze_head? (ht : t ≠ "") (keep : Bool) (h : lines.head? = some (.code 0 t)) :
    (squeeze keep lines).head? = some (.code 0 t) := by
  obtain ⟨rest, rfl⟩ := List.head?_eq_some_iff.mp h
  have hblank : (Line.code 0 t).isBlank = false := by simpa [Line.isBlank] using ht
  rw [squeeze, hblank]
  rfl

theorem layout_head? (h : lines.head? = some (.code 0 t)) : (layout lines).head? = some t := by
  obtain ⟨rest, rfl⟩ := List.head?_eq_some_iff.mp h
  rw [layout]
  simp [tabs]

/-- The formatter keeps the mark on the first line. -/
def Formatter.KeepsHeader (formatter : Formatter) : Prop :=
  ∀ s text, s.lines.head? = some (.code 0 header) → formatter s = some text →
    (Text.lines text).head? = some header

/-- The first line of a file in the standard layout is the first line it was put together from. -/
theorem lines_format_head? (ht : t ≠ "") (hfeed : '\n' ∉ t.toList)
    (h : lines.head? = some (.code 0 t)) : (Text.lines (format lines)).head? = some t := by
  have hlayout := layout_head? (squeeze_head? ht false (layComments_head?
    (hoistConstraints_head? ht (layComments_head? h))))
  obtain ⟨rest, hrest⟩ := List.head?_eq_some_iff.mp hlayout
  rw [format, hrest, List.map_cons, String.join_cons, Text.lines_append hfeed]
  rfl

/-- The standard layout keeps the mark. -/
theorem layOut_keepsHeader : Formatter.KeepsHeader layOut := by
  intro s text hlines h
  unfold layOut at h
  split at h
  · obtain rfl := Option.some.inj h
    exact lines_format_head? (by decide) (by decide) hlines
  · cases h

/-! ## File names -/

theorem noSlash_of_isIdent {name : String} (h : isIdent (typeName name) = true) :
    '/' ∉ name.toList := by
  rw [isIdent, Bool.and_eq_true, typeName, Naming.initialCap_toList] at h
  intro hmem
  cases hname : name.toList with
  | nil =>
      rw [hname] at hmem
      cases hmem
  | cons c cs =>
      rw [hname] at h hmem
      simp only [isWord, Bool.and_eq_true, List.all_eq_true] at h
      obtain ⟨⟨hstart, hall⟩, -⟩ := h
      rcases List.mem_cons.mp hmem with rfl | hmem
      · exact absurd hstart (by decide)
      · exact absurd (hall _ hmem) (by decide)

/-- What holds of every emitted file: a name that an entry of a folder can have and that ends like
the name of source text, and the mark on the first line. -/
structure Marked (f : GeneratedFile) : Prop where
  proper : Path.Proper f.filename
  source : Output.isSourceName f.filename = true
  header : (Text.lines f.content).head? = some header

theorem proper_source {stem : String} (h : '/' ∉ stem.toList) : Path.Proper (stem ++ ".go") := by
  have hlist : (stem ++ ".go").toList = stem.toList ++ ['.', 'g', 'o'] := by simp
  have hne : ∀ {s : String}, s.toList.length < 3 → stem ++ ".go" ≠ s := by
    rintro s hs rfl
    simp [hlist] at hs
  refine ⟨hne (by decide), hne (by decide), hne (by decide), ?_⟩
  rw [hlist]
  simpa using h

theorem isSourceName_append (stem : String) : Output.isSourceName (stem ++ ".go") = true := by
  rw [Output.isSourceName, show (stem ++ ".go").endsWith ".go" =
    (stem ++ ".go").toSlice.endsWith ".go" from rfl, String.Slice.endsWith_string_iff]
  simp

theorem finish_marked {formatter : Formatter} (hformatter : formatter.KeepsHeader)
    {target : Target} {filename type : String} {fits : Bool} {f : GeneratedFile}
    (hlines : lines.head? = some (.code 0 header)) (hproper : Path.Proper filename)
    (hsource : Output.isSourceName filename = true)
    (h : finish formatter target filename type fits lines = .ok f) : Marked f := by
  unfold finish at h
  split at h
  · rename_i text htext
    obtain rfl := Except.ok.inj h
    exact ⟨hproper, hsource, hformatter _ _ hlines htext⟩
  · cases h

/-! ## Emitted files -/

theorem typeLines_head? {target : Target} {set : PlanSet} {p : Plan}
    (h : typeLines target set p = .ok lines) : lines.head? = some (.code 0 header) := by
  obtain ⟨construct, -, h⟩ := of_bind_eq_ok h
  obtain ⟨stmts, -, h⟩ := of_bind_eq_ok h
  obtain rfl := Except.ok.inj h
  rfl

theorem noSlash_of_checkPlan {p : Plan} (h : checkPlan p = .ok ()) : '/' ∉ p.name.toList := by
  cases hident : isIdent (typeName p.name) with
  | true => exact noSlash_of_isIdent hident
  | false =>
      rw [checkPlan, hident] at h
      cases h

/-- The emitter of Go source emits marked files only. -/
theorem goEmitterWith_marked {formatter : Formatter} (hformatter : formatter.KeepsHeader)
    {config : EmitConfig} {wireImport : String} {e : Emitter}
    (h : goEmitterWith formatter config wireImport = .ok e) :
    (∀ set p f, e.emit set p = .ok f → Marked f) ∧
      ∀ plans files, e.support plans = .ok files → ∀ f ∈ files, Marked f := by
  unfold goEmitterWith at h
  split at h
  · cases h
  obtain rfl := Except.ok.inj h
  refine ⟨fun set p f hemit => ?_, fun plans files hsupport => ?_⟩
  · obtain ⟨_, hcheck, hemit⟩ := of_bind_eq_ok hemit
    obtain ⟨lines, hlines, hemit⟩ := of_bind_eq_ok hemit
    exact finish_marked hformatter (typeLines_head? hlines)
      (proper_source (Text.noSlash_lowerCase (noSlash_of_checkPlan hcheck)))
      (isSourceName_append _) hemit
  · obtain ⟨_, -, hsupport⟩ := of_bind_eq_ok hsupport
    obtain ⟨f, hfinish, hsupport⟩ := of_bind_eq_ok hsupport
    obtain rfl := Except.ok.inj hsupport
    refine List.forall_mem_singleton.mpr (finish_marked hformatter rfl ?_ ?_ hfinish)
    · exact proper_source (show '/' ∉ "messages".toList by decide)
    · exact isSourceName_append "messages"

end Emit

/-- The files of a run have different names. -/
theorem Emitter.nodup_of_sharedFile? {files : List GeneratedFile} :
    ∀ seen, Emitter.sharedFile? seen files = none →
      (files.map (·.filename)).Nodup ∧ ∀ f ∈ files, seen.lookup f.filename = none := by
  induction files with
  | nil => exact fun _ _ => ⟨List.nodup_nil, fun _ hf => absurd hf List.not_mem_nil⟩
  | cons f rest ih =>
      intro seen h
      rw [Emitter.sharedFile?] at h
      split at h
      · cases h
      · rename_i hfresh
        obtain ⟨hnodup, hseen⟩ := ih _ h
        refine ⟨List.nodup_cons.mpr ⟨fun hmem => ?_, hnodup⟩,
          List.forall_mem_cons.mpr ⟨hfresh, fun g hg => ?_⟩⟩
        · obtain ⟨g, hg, hname⟩ := List.mem_map.mp hmem
          have hnone := hseen g hg
          rw [hname, List.lookup_cons_self] at hnone
          cases hnone
        · have hnone := hseen g hg
          rw [List.lookup_cons] at hnone
          split at hnone
          · cases hnone
          · exact hnone

namespace Compile

variable {formatter : Emit.Formatter} {s : Settings} {e : Emitter}

/-- Every backend is the emitter of Go source, with one import or the other. -/
theorem emitterOf_go (h : emitterOf formatter s = .ok e) :
    ∃ config wireImport, Emit.goEmitterWith formatter config wireImport = .ok e := by
  unfold emitterOf at h
  dsimp only at h
  split at h
  · exact ⟨_, _, h⟩
  · unfold Registry.new Registry.standardWith at h
    split at h
    · rename_i f hf
      rw [List.lookup_cons] at hf
      split at hf
      · obtain rfl := Option.some.inj hf
        exact ⟨_, _, h⟩
      · cases hf
    · cases h

/-- **Emitted files are marked, and no two have one name.** -/
theorem emit_marked (hformatter : formatter.KeepsHeader) {set : PlanSet} {backend : String}
    {files : List GeneratedFile} (h : emit formatter s set = .ok (backend, files)) :
    (∀ f ∈ files, Emit.Marked f) ∧ (files.map (·.filename)).Nodup := by
  obtain ⟨e, hemitter, h⟩ := of_bind_eq_ok h
  obtain ⟨all, hall, h⟩ := of_bind_eq_ok h
  obtain ⟨-, rfl⟩ := Prod.mk.inj (Except.ok.inj h)
  obtain ⟨config, wireImport, hgo⟩ := emitterOf_go hemitter
  obtain ⟨hemit, hsupport⟩ := Emit.goEmitterWith_marked hformatter hgo
  obtain ⟨own, hown, hall⟩ := of_bind_eq_ok hall
  obtain ⟨support, hserving, hall⟩ := of_bind_eq_ok hall
  dsimp only at hall
  split at hall
  · cases hall
  rename_i hshared
  obtain rfl := Except.ok.inj hall
  refine ⟨List.forall_mem_append.mpr ⟨fun f hf => ?_, ?_⟩,
    (Emitter.nodup_of_sharedFile? _ hshared).1⟩
  · obtain ⟨p, -, hp⟩ := exists_of_mem_mapM hown hf
    exact hemit _ _ _ (of_mapError_eq_ok hp)
  · exact hsupport _ _ (of_mapError_eq_ok hserving)

end Compile

end WireSchema

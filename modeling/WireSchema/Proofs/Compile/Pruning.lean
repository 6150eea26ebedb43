import Mathlib
import WireSchema.Proofs.Compile.Effects
import WireSchema.Proofs.Emit.Files
import WireSchema.Proofs.Output.Progress

/-!
# Pruning is exact

After a run that prunes and writes, the generated source files in the output folder are the emitted
ones.  Folders, files of other names and files without the mark of generated ones are as before, and
the run lists exactly the entries that disappeared.

## Main results

* `compileWith_writes` — a run whose emission succeeds writes if the paths it uses lead somewhere.
* `compile_prunes_exactly` — pruning is exact, for every disk and every run that writes.
-/

namespace WireSchema

namespace Output

open Disk (Frame)

variable {dir name : String} {content : List UInt8} {names : List String}
  {files : List GeneratedFile} {d d₁ d₂ d₃ : Disk}

/-- The first line of a file is a text, and trimmed it is the mark of generated files. -/
def HasHeader (content : List UInt8) : Prop :=
  (Text.ofBytes? (firstLine content)).map Text.trim = some Emit.header

theorem isGenerated_iff : isGenerated content = true ↔ HasHeader content := by
  unfold isGenerated HasHeader
  cases Text.ofBytes? (firstLine content) <;> simp

/-- The first line of a text is the first line of its bytes. -/
theorem firstLine_bytesOf {s t : String} (ht : 0x0a ∉ Text.bytesOf t)
    (h : (Text.lines s).head? = some t) : firstLine (Text.bytesOf s) = Text.bytesOf t := by
  have hfront := Text.toList_of_lines_head? h
  have hsplit : s.toList = t.toList ++ s.toList.dropWhile (· != '\n') := by
    rw [hfront, List.takeWhile_append_dropWhile]
  rw [firstLine, Text.bytesOf, hsplit, List.flatMap_append, ← Text.bytesOf,
    List.takeWhile_append_of_pos fun b hb => bne_iff_ne.mpr (ne_of_mem_of_not_mem hb ht)]
  cases hrest : s.toList.dropWhile (· != '\n') with
  | nil => simp
  | cons c cs =>
      have hc : c = '\n' := by
        have hhead := List.head?_dropWhile_not (· != '\n') s.toList
        rw [hrest] at hhead
        simpa using hhead
      rw [hc, List.flatMap_cons]
      exact List.append_nil _

theorem hasHeader_bytes {f : GeneratedFile} (h : Emit.Marked f) : HasHeader f.bytes := by
  have hbytes : 0x0a ∉ Text.bytesOf Emit.header := by
    rw [Text.bytesOf_eq]
    decide +kernel
  rw [HasHeader, GeneratedFile.bytes, firstLine_bytesOf hbytes h.header, Text.bytesOf_eq]
  decide +kernel

theorem isStale_file_iff {keep : List String} : isStale keep name (.file content) = true ↔
    isSourceName name = true ∧ name ∉ keep ∧ HasHeader content := by
  simp [isStale, isGenerated_iff, and_assoc]

theorem keptNames_eq (h : ∀ f ∈ files, Emit.Marked f) :
    keptNames files = files.map (·.filename) :=
  List.map_congr_left fun f hf => Path.clean_proper (h f hf).proper

/-- A folder that was pruned and made sure of, and then had files written to it. -/
structure Refreshed (dir : String) (files : List GeneratedFile) (names : List String)
    (d d₁ d₂ d₃ : Disk) : Prop where
  marked : ∀ f ∈ files, Emit.Marked f
  pruned : Pruned dir (files.map (·.filename)) names d d₁
  made : Disk.makeFolders dir d₁ = (.ok (), d₂)
  written : Written dir files d₂ d₃

namespace Refreshed

variable (h : Refreshed dir files names d d₁ d₂ d₃)
include h

theorem made_frame : Frame (fun _ => False) (Disk.OnTheWay dir) d₁ d₂ := by
  have hwithin := Disk.makeFolders_within (W := fun _ => False) dir d₁
  rwa [h.made] at hwithin

/-- What is neither pruned nor written over is kept. -/
theorem entry_kept {n : Disk.Node} (hentry : d.entry? dir name = some n) (hpruned : name ∉ names)
    (hwritten : name ∉ files.map (·.filename)) : d₃.entry? dir name = some n := by
  have hremoved := h.pruned.removed.frame.kept _ _ (mt places_below.mp hpruned) hentry
  have hmade := h.made_frame.kept _ _ not_false hremoved
  exact h.written.frame.kept _ _ (mt places_below.mp hwritten) hmade

/-- A file that is not written was there before, and was not pruned. -/
theorem file_before (hfile : d₃.entry? dir name = some (.file content))
    (hwritten : name ∉ files.map (·.filename)) :
    d.entry? dir name = some (.file content) ∧ name ∉ names := by
  have hmade := (h.written.frame.file (mt places_below.mp hwritten)).mp hfile
  have hremoved := (h.made_frame.file not_false).mp hmade
  have hpruned : name ∉ names := fun hmem => by
    have hgone := h.pruned.removed.gone name hmem
    rw [Disk.entry?, hremoved] at hgone
    cases hgone
  exact ⟨(h.pruned.removed.frame.file (mt places_below.mp hpruned)).mp hremoved, hpruned⟩

/-- No folder has the name of a file that is written. -/
theorem not_written_of_folder (hentry : d.entry? dir name = some .folder) :
    name ∉ files.map (·.filename) := by
  intro hmem
  obtain ⟨f, hf, rfl⟩ := List.mem_map.mp hmem
  have hpruned : f.filename ∉ names := fun hstale => by
    obtain ⟨content, hfile, -⟩ := h.pruned.stale _ hstale
    rw [hentry] at hfile
    cases hfile
  have hremoved := h.pruned.removed.frame.kept _ _ (mt places_below.mp hpruned) hentry
  exact h.written.noFolder f hf (h.made_frame.kept _ _ not_false hremoved)

/-- If something was pruned the folder was there, and there was none to make. -/
theorem made_eq (hne : names ≠ []) : d₂ = d₁ := by
  have hfolders : ∀ l, d.node? l = some .folder → d₁.node? l = some .folder := fun l hl => by
    refine h.pruned.removed.frame.kept l _ ?_ hl
    rintro ⟨name, hname, rfl⟩
    obtain ⟨content, hfile, -⟩ := h.pruned.stale name hname
    rw [Disk.entry?, hl] at hfile
    cases hfile
  have hfind := Disk.find_kept hfolders (h.pruned.found hne)
  have hmade := h.made
  rw [Disk.makeFolders_of_find hfind] at hmade
  exact (Prod.mk.inj hmade).2.symm

/-- What is pruned is gone for good. -/
theorem pruned_gone (hname : name ∈ names) : d₃.entry? dir name = none := by
  obtain ⟨content, -, hstale⟩ := h.pruned.stale name hname
  have hwritten := (isStale_file_iff.mp hstale).2.1
  have hgone := h.pruned.removed.gone name hname
  -- The frame of making folders allows one at a pruned name; that none was made rules it out.
  rw [← h.made_eq (List.ne_nil_of_mem hname)] at hgone
  rw [← hgone]
  exact h.written.frame.eq (mt places_below.mp hwritten) (not_noDeeper_below dir name)

/-- The generated source files of the folder are the written ones. -/
theorem generated_iff
    (hfound : d.find dir = .ok .folder ∨ ∀ name, d.entry? dir name = none) :
    isSourceName name = true ∧ HasHeader content ∧ d₃.entry? dir name = some (.file content) ↔
      ∃ f ∈ files, f.filename = name ∧ f.bytes = content := by
  constructor
  · rintro ⟨hsource, hheader, hfile⟩
    by_cases hwritten : name ∈ files.map (·.filename)
    · obtain ⟨f, hf, rfl⟩ := List.mem_map.mp hwritten
      rw [h.written.content f hf] at hfile
      exact ⟨f, hf, rfl, by simpa using hfile⟩
    · -- Pruning passes over a folder that is not found, so such a folder must hold nothing.
      obtain ⟨hbefore, hpruned⟩ := h.file_before hfile hwritten
      rcases hfound with hfound | hempty
      · exact absurd (h.pruned.complete hfound name content hbefore
          (isStale_file_iff.mpr ⟨hsource, hwritten, hheader⟩)) hpruned
      · rw [hempty] at hbefore
        cases hbefore
  · rintro ⟨f, hf, rfl, rfl⟩
    have hmarked := h.marked f hf
    exact ⟨hmarked.source, hasHeader_bytes hmarked, h.written.content f hf⟩

/-- What is no generated source file stays, unless a file is written over it. -/
theorem other_kept {n : Disk.Node} (hentry : d.entry? dir name = some n)
    (hother : n = .folder ∨ isSourceName name = false ∨
      (∀ content, n = .file content → ¬ HasHeader content) ∧ name ∉ files.map (·.filename)) :
    d₃.entry? dir name = some n := by
  have hpruned : name ∉ names := fun hmem => by
    obtain ⟨content, hfile, hstale⟩ := h.pruned.stale name hmem
    obtain ⟨hsource, -, hheader⟩ := isStale_file_iff.mp hstale
    obtain rfl := Option.some.inj (hentry.symm.trans hfile)
    rcases hother with hfolder | hname | ⟨hplain, -⟩
    · cases hfolder
    · rw [hsource] at hname
      cases hname
    · exact hplain content rfl hheader
  refine h.entry_kept hentry hpruned ?_
  rcases hother with rfl | hname | ⟨-, hwritten⟩
  · exact h.not_written_of_folder hentry
  · intro hmem
    obtain ⟨f, hf, rfl⟩ := List.mem_map.mp hmem
    rw [(h.marked f hf).source] at hname
    cases hname
  · exact hwritten

/-- The listed names are those of the entries that disappeared. -/
theorem mem_pruned_iff :
    name ∈ names ↔ (d.entry? dir name).isSome ∧ d₃.entry? dir name = none := by
  constructor
  · intro hname
    obtain ⟨content, hfile, -⟩ := h.pruned.stale name hname
    exact ⟨by rw [hfile]; rfl, h.pruned_gone hname⟩
  · rintro ⟨hbefore, hafter⟩
    obtain ⟨n, hn⟩ := Option.isSome_iff_exists.mp hbefore
    by_contra hpruned
    by_cases hwritten : name ∈ files.map (·.filename)
    · obtain ⟨f, hf, rfl⟩ := List.mem_map.mp hwritten
      rw [h.written.content f hf] at hafter
      cases hafter
    · rw [h.entry_kept hn hpruned hwritten] at hafter
      cases hafter

end Refreshed

end Output

namespace Compile

open Output (HasHeader)

variable {formatter : Emit.Formatter} {s : Settings} {o : Outcome}

/-- A run that writes has pruned before, if asked to. -/
theorem writeOut_written (hprune : s.prune = true) (hunwritten : o.result.written = false)
    (h : (writeOut s o).result.written = true) :
    ∃ names d₁, Output.prune s.outputDir o.result.files o.disk = (.ok names, d₁) ∧
      Output.write s.outputDir o.result.files d₁ = (.ok (), (writeOut s o).disk) ∧
      (writeOut s o).result.pruned = names ∧ (writeOut s o).result.files = o.result.files := by
  unfold writeOut at h ⊢
  dsimp only at h ⊢
  rw [if_pos hprune] at h ⊢
  rcases hp : (Output.prune s.outputDir o.result.files).run o.disk with ⟨e | names, d₁⟩
  · rw [hp] at h
    rw [hunwritten] at h
    cases h
  · rw [hp] at h
    dsimp only at h ⊢
    rcases hw : (Output.write s.outputDir o.result.files).run d₁ with ⟨e | u, d₂⟩
    · rw [hw] at h
      dsimp only at h
      rw [hunwritten] at h
      cases h
    · exact ⟨names, d₁, hp, hw, rfl, rfl⟩

theorem compileWith_refreshed (hformatter : formatter.KeepsHeader) {cancelled : Bool} {m : Model}
    {d : Disk} (hd : d.Sound) (hprune : s.prune = true)
    (hwritten : (compileWith formatter cancelled s m d).result.written = true) :
    ∃ d₁ d₂, Output.Refreshed s.outputDir (compileWith formatter cancelled s m d).result.files
      (compileWith formatter cancelled s m d).result.pruned d d₁ d₂
      (compileWith formatter cancelled s m d).disk := by
  have hending := compileWith_ending formatter cancelled s m d
  generalize compileWith formatter cancelled s m d = o at hending hwritten ⊢
  cases hending with
  | stopped _ hunwritten =>
      rw [hunwritten] at hwritten
      cases hwritten
  | unemitted _ _ hunwritten _ =>
      rw [hunwritten] at hwritten
      cases hwritten
  | @emitted o set backend hdisk hunwritten hfiles =>
      rw [checkRejected_result] at hwritten ⊢
      rw [checkRejected_disk]
      cases hdry : s.dryRun with
      | true =>
          rw [hdry, if_pos rfl, hunwritten] at hwritten
          cases hwritten
      | false =>
          rw [hdry, if_neg Bool.false_ne_true] at hwritten
          rw [if_neg Bool.false_ne_true]
          obtain ⟨names, d₁, hpruned, hwrite, rfl, hsame⟩ :=
            writeOut_written hprune hunwritten hwritten
          rw [hdisk] at hpruned
          rw [hsame]
          obtain ⟨hmarked, hnodup⟩ := emit_marked hformatter hfiles
          obtain ⟨d₂, hmade, hwritten'⟩ :=
            Output.write_ok (fun f hf => (hmarked f hf).proper) hnodup hwrite
          have hstale := Output.prune_ok hd hpruned
          rw [Output.keptNames_eq hmarked] at hstale
          exact ⟨d₁, d₂, hmarked, hstale, hmade, hwritten'⟩

/-! ## Runs that write -/

/-- What a run emits: the name of the backend and the files. -/
def emission (formatter : Emit.Formatter) (cancelled : Bool) (s : Settings) (m : Model) :
    Except Error (String × List GeneratedFile) :=
  let r := Resolve.run .standard Resolve.defaultSuggestions m
  match r.errorText? with
  | some t => .error (.unresolved t)
  | none => do
      let set ← plan cancelled s.sizeMethods r.model
      (emit formatter s set).mapError .notEmitted

/-- A run whose emission succeeds writes unless it is dry. -/
theorem compileWith_of_emission {cancelled : Bool} {m : Model} {d : Disk} {backend : String}
    {files : List GeneratedFile} (h : emission formatter cancelled s m = .ok (backend, files)) :
    ∃ o : Outcome, o.disk = d ∧ o.result.files = files ∧
      compileWith formatter cancelled s m d =
        checkRejected (if s.dryRun then o else writeOut s o) := by
  unfold emission at h
  dsimp only at h
  split at h
  · cases h
  rename_i hresolved
  obtain ⟨set, hplan, h⟩ := of_bind_eq_ok h
  have hemit := of_mapError_eq_ok h
  rw [compileWith]
  simp only [hresolved, hplan, finish, hemit]
  refine ⟨_, ?_, ?_, rfl⟩ <;> rfl

/-- **A run whose emission succeeds writes, if every path it uses leads somewhere**: the output
folder is found, each file can be written under its name, and each stale file is reached. -/
theorem compileWith_writes {cancelled : Bool} {m : Model} {d : Disk} {backend : String}
    {files : List GeneratedFile} (hd : d.Sound)
    (hemission : emission formatter cancelled s m = .ok (backend, files)) (hdry : s.dryRun = false)
    (hfind : d.find s.outputDir = .ok .folder)
    (hreach : ∀ f ∈ files, Output.Reaches d s.outputDir f.filename)
    (hplace : s.prune = true → ∀ name content, d.entry? s.outputDir name = some (.file content) →
      Output.isStale (Output.keptNames files) name (.file content) = true →
      ∃ l, d.locate (Path.join s.outputDir name) = .ok l) :
    (compileWith formatter cancelled s m d).result.written = true ∧
      (compileWith formatter cancelled s m d).result.files = files := by
  obtain ⟨o, rfl, rfl, hcompile⟩ := compileWith_of_emission (d := d) hemission
  rw [hcompile, checkRejected_result, hdry, if_neg Bool.false_ne_true]
  obtain ⟨names, d₁, hpruned, hsame⟩ : ∃ names d₁,
      (if s.prune then (Output.prune s.outputDir o.result.files).run o.disk
        else (.ok [], o.disk)) = (.ok names, d₁) ∧ Disk.SameFolders o.disk d₁ := by
    cases hprune : s.prune with
    | true => exact Output.prune_succeeds hd hfind (hplace hprune)
    | false => exact ⟨[], o.disk, rfl, fun _ => Iff.rfl⟩
  obtain ⟨d₂, hwrite⟩ := Output.write_succeeds (hsame.find hfind)
    fun f hf => (hreach f hf).sameFolders hsame
  have hrun : (Output.write s.outputDir o.result.files).run d₁ = (.ok (), d₂) := hwrite
  simp only [writeOut, hpruned, hrun, and_self]

/-! ## Runs that prune -/

/-- **Pruning is exact.**  On any disk whose output folder is found, or holds nothing, let a run
prune and write, in any layout that keeps the mark of generated files.  Then the generated source
files in the output folder are the emitted files, each with its content; a folder, a file of another
name, and a file without the mark that no emitted file replaces are as before; and the run lists
each entry that disappeared once, and no other. -/
theorem compile_prunes_exactly (formatter : Emit.Formatter) (hformatter : formatter.KeepsHeader)
    (cancelled : Bool) (s : Settings) (m : Model) (d : Disk) (hd : d.Sound)
    (hprune : s.prune = true)
    (hfound : d.find s.outputDir = .ok .folder ∨ ∀ name, d.entry? s.outputDir name = none)
    (hwritten : (compileWith formatter cancelled s m d).result.written = true) :
    (∀ name content,
      Output.isSourceName name = true ∧ HasHeader content ∧
        (compileWith formatter cancelled s m d).disk.entry? s.outputDir name =
          some (.file content) ↔
      ∃ f ∈ (compileWith formatter cancelled s m d).result.files,
        f.filename = name ∧ f.bytes = content) ∧
    (∀ name n, d.entry? s.outputDir name = some n →
      (n = .folder ∨ Output.isSourceName name = false ∨
        (∀ content, n = .file content → ¬ HasHeader content) ∧
          name ∉ (compileWith formatter cancelled s m d).result.files.map (·.filename)) →
      (compileWith formatter cancelled s m d).disk.entry? s.outputDir name = some n) ∧
    (compileWith formatter cancelled s m d).result.pruned.Nodup ∧
    ∀ name, name ∈ (compileWith formatter cancelled s m d).result.pruned ↔
      (d.entry? s.outputDir name).isSome ∧
        (compileWith formatter cancelled s m d).disk.entry? s.outputDir name = none := by
  obtain ⟨d₁, d₂, h⟩ := compileWith_refreshed hformatter hd hprune hwritten
  exact ⟨fun _ _ => h.generated_iff hfound, fun _ _ => h.other_kept, h.pruned.nodup,
    fun _ => h.mem_pruned_iff⟩

/-- Settings that prune. -/
def pruningSettings : Settings := { Settings.standard with prune := true }

/-- A file that was written by hand; its first line is no text. -/
def handwritten : List UInt8 := 0xff :: Text.bytesOf ("package pdu\n" ++ Emit.header ++ "\n")

/-- A disk with a file to write again, a stale one, and entries that are to stay. -/
def usedDisk : Disk :=
  ⟨[ (⟨false, ["generated", "sub.go"]⟩, .folder),
     (⟨false, ["generated", "notes.txt"]⟩, .file (Text.bytesOf Emit.header)),
     (⟨false, ["generated", "hand.go"]⟩, .file handwritten),
     (⟨false, ["generated", "stale.go"]⟩, .file (Text.bytesOf ("  " ++ Emit.header ++ "\n"))),
     (⟨false, ["generated", "pdu.go"]⟩,
      .file (Text.bytesOf (Emit.header ++ "\n\npackage old\n"))),
     (⟨false, ["generated"]⟩, .folder) ]⟩

theorem usedDisk_sound : usedDisk.Sound := by
  have hpaths : ∀ e ∈ usedDisk.nodes, e.1 = Location.ofPath (Text.joinWith "/" e.1.names) := by
    decide +kernel
  refine ⟨by decide +kernel, fun e he => ?_, by decide +kernel⟩
  rw [hpaths e he]
  exact Path.simple_simplify _

/-- The run below emits two files. -/
theorem emission_emptyPdu :
    ∃ backend files, emission Emit.layOut false pruningSettings emptyPdu = .ok (backend, files) ∧
      files.map (·.filename) = ["pdu.go", "messages.go"] := by
  have hnames : (emission Emit.layOut false pruningSettings emptyPdu).toOption.map
      (fun p => p.2.map (·.filename)) = some ["pdu.go", "messages.go"] := by
    decide +kernel
  cases hemission : emission Emit.layOut false pruningSettings emptyPdu with
  | error e =>
      rw [hemission] at hnames
      cases hnames
  | ok p =>
      rw [hemission] at hnames
      exact ⟨p.1, p.2, rfl, Option.some.inj hnames⟩

theorem usedDisk_reaches :
    ∀ name ∈ ["pdu.go", "messages.go"],
      Output.Reaches usedDisk pruningSettings.outputDir name := by
  have haround : ∀ name ∈ ["pdu.go", "messages.go"],
      usedDisk.find (Path.parent (Path.join pruningSettings.outputDir name)) = .ok .folder := by
    decide +kernel
  have hbare : ∀ name ∈ ["pdu.go", "messages.go"],
      Path.trimSlashes (Path.join pruningSettings.outputDir name) =
        Path.join pruningSettings.outputDir name := by
    decide +kernel
  have hplace : ∀ name ∈ ["pdu.go", "messages.go"],
      usedDisk.locate (Path.join pruningSettings.outputDir name) =
          .ok ⟨false, ["generated", name]⟩ ∧
        usedDisk.node? ⟨false, ["generated", name]⟩ ≠ some .folder := by
    decide +kernel
  exact fun name hname => ⟨haround name hname, hbare name hname, _, hplace name hname⟩

/-- What lies in the output folder of the disk can be reached. -/
theorem usedDisk_locate {name : String} {content : List UInt8}
    (h : usedDisk.entry? pruningSettings.outputDir name = some (.file content)) :
    ∃ l, usedDisk.locate (Path.join pruningSettings.outputDir name) = .ok l := by
  have hall : ∀ e ∈ usedDisk.nodes,
      (usedDisk.locate
        (Path.join pruningSettings.outputDir (e.1.names.getLast?.getD ""))).isOk = true := by
    decide +kernel
  have hmem := (usedDisk_sound.node?_eq_some_iff (Disk.isOuter_of_file h)).mp h
  have hok := hall _ hmem
  rw [show ((Location.ofPath pruningSettings.outputDir).below name).names.getLast?.getD "" = name by
    simp [Location.below]] at hok
  cases hl : usedDisk.locate (Path.join pruningSettings.outputDir name) with
  | error f =>
      rw [hl] at hok
      cases hok
  | ok l => exact ⟨l, rfl⟩

theorem compile_prunes_exactly_used :
    usedDisk.Sound ∧ pruningSettings.prune = true ∧
      usedDisk.find pruningSettings.outputDir = .ok .folder ∧
      ∃ o, o = compile false pruningSettings emptyPdu usedDisk ∧ o.result.written = true ∧
        (∃ f ∈ o.result.files, f.filename = "pdu.go" ∧
          o.disk.entry? pruningSettings.outputDir "pdu.go" = some (.file f.bytes)) ∧
        o.disk.entry? pruningSettings.outputDir "stale.go" = none ∧
        o.disk.entry? pruningSettings.outputDir "hand.go" = some (.file handwritten) ∧
        o.disk.entry? pruningSettings.outputDir "notes.txt" =
          some (.file (Text.bytesOf Emit.header)) ∧
        o.disk.entry? pruningSettings.outputDir "sub.go" = some .folder := by
  have hsound := usedDisk_sound
  have hfound : usedDisk.find pruningSettings.outputDir = .ok .folder := by decide +kernel
  obtain ⟨backend, files, hemission, hnames⟩ := emission_emptyPdu
  obtain ⟨hwritten, hfiles⟩ := compileWith_writes hsound hemission rfl hfound
    (fun f hf => usedDisk_reaches _ (hnames ▸ List.mem_map_of_mem hf))
    fun _ name content hfile _ => usedDisk_locate hfile
  obtain ⟨hgenerated, hkept, -, hpruned⟩ := compile_prunes_exactly Emit.layOut
    Emit.layOut_keepsHeader false pruningSettings emptyPdu usedDisk hsound rfl (Or.inl hfound)
    hwritten
  obtain ⟨d₁, d₂, hrun⟩ := compileWith_refreshed Emit.layOut_keepsHeader hsound rfl hwritten
  refine ⟨hsound, rfl, hfound, _, rfl, hwritten, ?_⟩
  unfold compile
  generalize compileWith Emit.layOut false pruningSettings emptyPdu usedDisk = o at *
  obtain rfl := hfiles
  rw [hnames] at hkept
  have hpdu : "pdu.go" ∈ o.result.files.map (·.filename) := by
    rw [hnames]
    decide
  obtain ⟨f, hf, hname⟩ := List.mem_map.mp hpdu
  have hstale : "stale.go" ∈ o.result.pruned := by
    refine hrun.pruned.complete hfound "stale.go" (Text.bytesOf ("  " ++ Emit.header ++ "\n")) ?_ ?_
    · decide +kernel
    · rw [hnames]
      decide +kernel
  have hplain : ∀ content, Disk.Node.file handwritten = .file content → ¬ HasHeader content := by
    rintro content hcontent
    obtain rfl := Disk.Node.file.inj hcontent
    unfold HasHeader
    decide +kernel
  refine ⟨⟨f, hf, hname, ((hgenerated _ _).mpr ⟨f, hf, hname, rfl⟩).2.2⟩, ((hpruned _).mp hstale).2,
    hkept _ _ ?_ (Or.inr (Or.inr ⟨hplain, ?_⟩)), hkept _ _ ?_ (Or.inr (Or.inl ?_)),
    hkept _ _ ?_ (Or.inl rfl)⟩ <;> decide +kernel

end Compile

end WireSchema

import Mathlib
import WireSchema.Compile
import WireSchema.Proofs.Disk.Frame

/-!
# What a run does to the disk

A run leaves the disk alone until it knows what to emit.  From then on there are two ways to change
it: the draft of a text that could not be laid out is kept, and emitted files are written.  A dry
run does not write, but it keeps drafts like any other.

## Main results

* `compileWith_ending` — how a run ends, and with which disk.
* `compile_dryRun` — a dry run changes nothing on the disk but the draft it keeps.
* `dryRun_keeps_draft` — some dry run leaves a draft behind.
-/

namespace WireSchema

open Disk (Frame)

namespace Output

/-- Where the draft of a file is kept. -/
def draftPlace (dir filename : String) : Location :=
  Location.ofPath (Path.join dir (draftName filename))

/-- Keeping a draft changes at most its place, and makes folders on the way of the output folder. -/
theorem keepDraft_frame (dir filename text : String) (d : Disk) :
    Frame (· = draftPlace dir filename) (Disk.OnTheWay dir) d (keepDraft dir filename text d) := by
  unfold keepDraft
  split
  · exact .refl d
  · exact (Disk.Action.Respects.bind (Disk.makeFolders_within dir)
      fun _ => Disk.write_within _ _) d

end Output

namespace Compile

variable {formatter : Emit.Formatter} {s : Settings} {set : PlanSet} {o : Outcome} {d : Disk}
  {m : Model} {cancelled : Bool}

@[simp] theorem checkRejected_disk (o : Outcome) : (checkRejected o).disk = o.disk := by
  unfold checkRejected
  split <;> rfl

@[simp] theorem checkRejected_result (o : Outcome) : (checkRejected o).result = o.result := by
  unfold checkRejected
  split <;> rfl

/-- How a run ends that starts on the disk `d`: it stops before it emits, or emission fails and may
keep a draft, or files are emitted, and written unless settings say otherwise. -/
inductive Ending (formatter : Emit.Formatter) (s : Settings) (d : Disk) : Outcome → Prop
  | stopped {o : Outcome} (disk : o.disk = d) (unwritten : o.result.written = false) :
      Ending formatter s d o
  | unemitted {o : Outcome} (e : Emit.Error) (disk : o.disk = keepDraft s e d)
      (unwritten : o.result.written = false) (failed : o.error? = some (.notEmitted e)) :
      Ending formatter s d o
  | emitted {o : Outcome} (set : PlanSet) (backend : String) (disk : o.disk = d)
      (unwritten : o.result.written = false)
      (files : emit formatter s set = .ok (backend, o.result.files)) :
      Ending formatter s d (checkRejected (if s.dryRun then o else writeOut s o))

theorem finish_ending (hdisk : o.disk = d) (hwritten : o.result.written = false) :
    Ending formatter s d (finish formatter s set o) := by
  unfold finish
  split
  · rename_i e hemit
    exact .unemitted e (by rw [← hdisk]) hwritten rfl
  · rename_i backend files hemit
    exact .emitted (o := { o with
        result := { o.result with files }
        log := o.log ++ [emittedEntry backend files] }) set backend hdisk hwritten hemit

theorem compileWith_ending (formatter : Emit.Formatter) (cancelled : Bool) (s : Settings)
    (m : Model) (d : Disk) : Ending formatter s d (compileWith formatter cancelled s m d) := by
  unfold compileWith
  dsimp only
  split
  · exact .stopped rfl rfl
  split
  · exact .stopped rfl rfl
  · exact finish_ending rfl rfl

/-- The file whose text could not be laid out, and the text, if the run failed because of that. -/
def Outcome.malformed? (o : Outcome) : Option (String × String) :=
  match o.error? with
  | some (.notEmitted e) => e.malformed?
  | _ => none

/-- **A dry run changes nothing on the disk but the draft it keeps.**  Unless a text could not be
laid out the disk is the same, however the run ends.  If one could not, what changes is the draft of
that file, and at most folders come on the way of the output folder. -/
theorem compile_dryRun (cancelled : Bool) (s : Settings) (m : Model) (d : Disk)
    (hdry : s.dryRun = true) :
    ((compile cancelled s m d).malformed? = none → (compile cancelled s m d).disk = d) ∧
    ∀ filename text, (compile cancelled s m d).malformed? = some (filename, text) →
      Frame (· = Output.draftPlace s.outputDir filename) (Disk.OnTheWay s.outputDir) d
        (compile cancelled s m d).disk := by
  have hending : Ending Emit.layOut s d (compile cancelled s m d) :=
    compileWith_ending Emit.layOut cancelled s m d
  generalize compile cancelled s m d = o at hending ⊢
  cases hending with
  | stopped hdisk _ =>
      refine ⟨fun _ => hdisk, fun _ _ _ => ?_⟩
      rw [hdisk]
      exact .refl d
  | unemitted e hdisk _ herror =>
      have hmalformed : o.malformed? = e.malformed? := by
        rw [Outcome.malformed?, herror]
      rw [hdisk, hmalformed]
      refine ⟨fun hlaid => ?_, fun filename text hdraft => ?_⟩
      · rw [keepDraft, hlaid]
      · rw [keepDraft, hdraft]
        exact Output.keepDraft_frame s.outputDir filename text d
  | @emitted o _ _ hdisk _ _ =>
      rw [if_pos hdry, checkRejected_disk, hdisk]
      exact ⟨fun _ => rfl, fun _ _ _ => .refl d⟩

/-- A schema with one empty message type. -/
def emptyPdu : Model := { classes := [{ name := "Pdu" }] }

/-- A dry run. -/
def drySettings : Settings := { Settings.standard with dryRun := true }

/-- A dry run that emits an import that is no source text. -/
def quotedImport : Settings := { drySettings with wireImport := "q\"q" }

/-- A disk with one file in the output folder. -/
def notedDisk : Disk := .ofFiles [("generated/notes.txt", "keep")]

theorem compile_dryRun_pdu :
    drySettings.dryRun = true ∧ (compile false drySettings emptyPdu notedDisk).error? = none ∧
      (compile false drySettings emptyPdu notedDisk).disk = notedDisk ∧
      quotedImport.dryRun = true ∧
      (compile false quotedImport emptyPdu notedDisk).disk.node?
        ⟨false, ["generated", "notes.txt"]⟩ = some (.file (Text.bytesOf "keep")) := by
  have hsuccess : (compile false drySettings emptyPdu notedDisk).error? = none := by
    decide +kernel
  have hunchanged := (compile_dryRun false drySettings emptyPdu notedDisk rfl).1
    (by rw [Outcome.malformed?, hsuccess])
  -- Only the name of the file is evaluated; the frame is the same for every text.
  obtain ⟨text, htext⟩ : ∃ text, (compile false quotedImport emptyPdu notedDisk).malformed? =
      some ("pdu.go", text) := by
    have hname : (compile false quotedImport emptyPdu notedDisk).malformed?.map (·.1) =
        some "pdu.go" := by
      decide +kernel
    obtain ⟨⟨filename, text⟩, hmalformed, rfl⟩ := Option.map_eq_some_iff.mp hname
    exact ⟨text, hmalformed⟩
  have hframe := (compile_dryRun false quotedImport emptyPdu notedDisk rfl).2 "pdu.go" text htext
  refine ⟨rfl, hsuccess, hunchanged, rfl, hframe.kept _ _ (by decide +kernel) (by decide +kernel)⟩

/-- Dry runs do not leave every disk as it was: the draft is kept. -/
theorem dryRun_keeps_draft :
    ¬ ∀ (cancelled : Bool) (s : Settings) (m : Model) (d : Disk), s.dryRun = true →
      (compile cancelled s m d).disk = d := by
  intro hkept
  have hdisk := hkept false quotedImport emptyPdu .empty rfl
  have hdraft : (compile false quotedImport emptyPdu .empty).disk.nodes.length = 2 := by
    decide +kernel
  rw [hdisk] at hdraft
  cases hdraft

end Compile

end WireSchema

import Mathlib
import WireSchema.Proofs.Output.Folder

/-!
# When nothing fails

Pruning and writing an output folder that is found succeed if every path they use leads somewhere:
whether it does depends on the folders of the disk only, and neither of the two changes those.
-/

namespace WireSchema

namespace Disk

variable {d d' d'' : Disk} {p : String} {l : Location}

/-- Two disks with the same folders. -/
def SameFolders (d d' : Disk) : Prop := ∀ k, d'.node? k = some .folder ↔ d.node? k = some .folder

theorem SameFolders.locate (h : SameFolders d d') (hl : d.locate p = .ok l) :
    d'.locate p = .ok l := by
  obtain ⟨hne, hbad, hwalk⟩ := locate_eq_ok_iff.mp hl
  exact locate_eq_ok_iff.mpr ⟨hne, hbad, walk_kept (fun k hk => (h k).mpr hk) hwalk⟩

theorem SameFolders.find (h : SameFolders d d') (hfind : d.find p = .ok .folder) :
    d'.find p = .ok .folder :=
  find_kept (fun k hk => (h k).mpr hk) hfind

theorem sameFolders_put (hl : d.node? l ≠ some .folder) (content : List UInt8) :
    SameFolders d (d.put l (.file content)) := by
  intro k
  rw [node?_put (isOuter_eq_false hl)]
  by_cases hk : k = l
  · subst hk
    simp [hl]
  · rw [if_neg hk]

theorem sameFolders_erase (hl : d.node? l ≠ some .folder) : SameFolders d (d.erase l) := by
  intro k
  rw [node?_erase (isOuter_eq_false hl)]
  by_cases hk : k = l
  · subst hk
    simp [hl]
  · rw [if_neg hk]

end Disk

namespace Output

open Disk (SameFolders)

variable {dir name : String} {keep names : List String} {entries : List (String × Disk.Node)}
  {d d' : Disk} {files : List GeneratedFile}

/-- A file can be written under a name: its folder is found, and its path leads to a place that is
no folder. -/
structure Reaches (d : Disk) (dir name : String) : Prop where
  around : d.find (Path.parent (Path.join dir name)) = .ok .folder
  bare : Path.trimSlashes (Path.join dir name) = Path.join dir name
  place : ∃ l, d.locate (Path.join dir name) = .ok l ∧ d.node? l ≠ some .folder

theorem Reaches.sameFolders (h : Reaches d dir name) (hd : SameFolders d d') :
    Reaches d' dir name := by
  obtain ⟨l, hl, hfolder⟩ := h.place
  exact ⟨hd.find h.around, h.bare, l, hd.locate hl, fun hthere => hfolder ((hd l).mp hthere)⟩

theorem placed_of_ok {α : Type} {wrap : Disk.Error → Error} {a : Disk.Action Disk.Error α} {x : α}
    (h : a d = (.ok x, d')) : placed wrap a d = (.ok x, d') := by
  unfold placed
  rw [show a.run d = (.ok x, d') from h]
  rfl

theorem change_of_ok {ε : Type} {f : Disk → Except ε Disk} (h : f d = .ok d') :
    Disk.change f d = (.ok (), d') := by
  rw [Disk.change, h]

theorem writeFile_succeeds {f : GeneratedFile} (h : Reaches d dir f.filename) :
    ∃ d', writeFile dir f d = (.ok (), d') ∧ SameFolders d d' := by
  obtain ⟨l, hl, hfolder⟩ := h.place
  have hwrite : d.write (Path.join dir f.filename) f.bytes = .ok (d.put l (.file f.bytes)) := by
    rw [Disk.write, h.bare, hl]
    exact if_neg (not_or.mpr ⟨not_not.mpr rfl, hfolder⟩)
  refine ⟨_, ?_, Disk.sameFolders_put hfolder f.bytes⟩
  exact (Disk.Action.bind_of_ok (placed_of_ok (Disk.makeFolders_of_find h.around))).trans
    (placed_of_ok (change_of_ok hwrite))

/-- Writing succeeds if the folder is found and a file can be written under every name. -/
theorem write_succeeds (hfind : d.find dir = .ok .folder)
    (hreach : ∀ f ∈ files, Reaches d dir f.filename) :
    ∃ d', write dir files d = (.ok (), d') := by
  have hfiles : ∃ d', files.forM (writeFile dir) d = (.ok (), d') := by
    clear hfind
    induction files generalizing d with
    | nil => exact ⟨d, rfl⟩
    | cons f rest ih =>
        obtain ⟨hf, hrest⟩ := List.forall_mem_cons.mp hreach
        obtain ⟨d₁, hfirst, hsame⟩ := writeFile_succeeds hf
        obtain ⟨d₂, hmore⟩ := ih fun g hg => (hrest g hg).sameFolders hsame
        exact ⟨d₂, (Disk.Action.bind_of_ok hfirst).trans hmore⟩
  obtain ⟨d', hfiles⟩ := hfiles
  exact ⟨d', (Disk.Action.bind_of_ok (placed_of_ok (Disk.makeFolders_of_find hfind))).trans hfiles⟩

/-- Removing a stale entry whose path leads somewhere succeeds, and leaves the other entries. -/
theorem remove_succeeds {content : List UInt8} {l : Location} (hdir : dir ≠ "")
    (hname : Path.Proper name) (hfile : d.entry? dir name = some (.file content))
    (hplace : d.locate (Path.join dir name) = .ok l) :
    ∃ d', d.remove (Path.join dir name) = .ok d' ∧ SameFolders d d' ∧
      ∀ other, other ≠ name → d'.entry? dir other = d.entry? dir other := by
  have hl : l = (Location.ofPath dir).below name :=
    (Disk.locate_ok hplace).trans (Location.ofPath_join hdir hname)
  have hnode : d.node? l = some (.file content) := hl ▸ hfile
  refine ⟨d.erase l, by rw [Disk.remove, hplace]; simp only [hnode], ?_, fun other hne => ?_⟩
  · exact Disk.sameFolders_erase (by simp [hnode])
  · rw [Disk.entry?, Disk.node?_erase (Disk.isOuter_of_file hnode), hl, if_neg (by simpa using hne)]
    rfl

theorem file_of_isStale {n : Disk.Node} (h : isStale keep name n = true) :
    ∃ content, n = .file content := by
  cases n with
  | folder => cases h
  | file content => exact ⟨content, rfl⟩

/-- Pruning succeeds if the path of every stale entry leads somewhere. -/
theorem pruneEntries_succeeds (hdir : dir ≠ "") (hproper : ∀ e ∈ entries, Path.Proper e.1)
    (hdistinct : (entries.map (·.1)).Nodup)
    (hthere : ∀ e ∈ entries, d.entry? dir e.1 = some e.2)
    (hplace : ∀ e ∈ entries, isStale keep e.1 e.2 = true →
      ∃ l, d.locate (Path.join dir e.1) = .ok l) :
    ∃ names d', pruneEntries dir keep entries d = (.ok names, d') ∧ SameFolders d d' := by
  induction entries generalizing d with
  | nil => exact ⟨[], d, rfl, fun _ => Iff.rfl⟩
  | cons e rest ih =>
      obtain ⟨name, n⟩ := e
      obtain ⟨hname, hproper'⟩ := List.forall_mem_cons.mp hproper
      obtain ⟨hfresh, hdistinct'⟩ := List.nodup_cons.mp hdistinct
      obtain ⟨hentry, hthere'⟩ := List.forall_mem_cons.mp hthere
      obtain ⟨hfirst, hplace'⟩ := List.forall_mem_cons.mp hplace
      rw [pruneEntries]
      by_cases hstale : isStale keep name n = true
      · rw [if_pos hstale]
        obtain ⟨content, rfl⟩ := file_of_isStale hstale
        obtain ⟨l, hl⟩ := hfirst hstale
        obtain ⟨d₁, hremove, hsame, hothers⟩ := remove_succeeds hdir hname hentry hl
        -- The names differ, so the other entries are still there after this one is removed.
        obtain ⟨more, d₂, hmore, hsame'⟩ := ih (d := d₁) hproper' hdistinct'
          (fun e he => by
            have hne : e.1 ≠ name := fun heq => hfresh (List.mem_map.mpr ⟨e, he, heq⟩)
            rw [hothers e.1 hne, hthere' e he])
          fun e he hstale' => (hplace' e he hstale').imp fun _ => hsame.locate
        refine ⟨name :: more, d₂, ?_, fun k => (hsame' k).trans (hsame k)⟩
        refine (Disk.Action.bind_of_ok (placed_of_ok (change_of_ok hremove))).trans ?_
        exact (Disk.Action.bind_of_ok hmore).trans rfl
      · rw [if_neg hstale]
        exact ih hproper' hdistinct' hthere' hplace'

/-- Pruning a folder that is found succeeds if the paths of its stale files lead somewhere. -/
theorem prune_succeeds (hd : d.Sound) (hfind : d.find dir = .ok .folder)
    (hplace : ∀ name content, d.entry? dir name = some (.file content) →
      isStale (keptNames files) name (.file content) = true →
      ∃ l, d.locate (Path.join dir name) = .ok l) :
    ∃ names d', prune dir files d = (.ok names, d') ∧ SameFolders d d' := by
  have hdir : dir ≠ "" := by
    obtain ⟨l, hl, -⟩ := Disk.find_eq_ok_iff.mp hfind
    exact (Disk.locate_eq_ok_iff.mp hl).1
  have hstale : ∀ e ∈ d.entries (Location.ofPath dir), isStale (keptNames files) e.1 e.2 = true →
      ∃ l, d.locate (Path.join dir e.1) = .ok l := fun e he hstale => by
    obtain ⟨content, hn⟩ := file_of_isStale hstale
    rw [hn] at hstale
    exact hplace e.1 content (hn ▸ (hd.mem_entries he).2) hstale
  obtain ⟨names, d', hprune, hsame⟩ := pruneEntries_succeeds hdir
    (fun e he => (hd.mem_entries he).1) (hd.nodup_entries _) (fun e he => (hd.mem_entries he).2)
    hstale
  refine ⟨names, d', ?_, hsame⟩
  rw [← hprune]
  refine Disk.Action.bind_of_ok ?_
  rw [Disk.look, Disk.list_of_find hfind]

end Output

end WireSchema

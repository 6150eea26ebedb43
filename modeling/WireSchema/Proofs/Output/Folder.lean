import Mathlib
import WireSchema.Output
import WireSchema.Proofs.Disk.Sound

/-!
# What pruning and writing do to an output folder

Pruning a folder removes exactly its stale files and says which; writing files to it puts each at
its name, where no folder was.  Neither changes anything else, up to new folders around.

## Main results

* `prune_ok` — what pruning did, as `Pruned` says.
* `write_ok` — what writing did, as `Written` says.
-/

namespace WireSchema

namespace Disk

/-- What a folder has under a name. -/
def entry? (d : Disk) (dir name : String) : Option Node :=
  d.node? ((Location.ofPath dir).below name)

theorem list_ok {d : Disk} {p : String} {entries : List (String × Node)}
    (h : d.list p = .ok entries) :
    d.find p = .ok .folder ∧ entries = d.entries (Location.ofPath p) := by
  unfold list at h
  split at h
  · rename_i l hfind hl
    exact ⟨hfind, by rw [← locate_ok hl, Except.ok.inj h]⟩
  · cases h
  · cases h
  · cases h

theorem list_of_find {d : Disk} {p : String} (h : d.find p = .ok .folder) :
    d.list p = .ok (d.entries (Location.ofPath p)) := by
  obtain ⟨l, hl, -⟩ := find_eq_ok_iff.mp h
  rw [list, h, hl, ← locate_ok hl]

end Disk

namespace Output

open Disk (Frame)

variable {dir : String} {keep names : List String} {entries : List (String × Disk.Node)}
  {d d' d'' : Disk} {files : List GeneratedFile}

section Placed

variable {α : Type} {wrap : Disk.Error → Error} {a : Disk.Action Disk.Error α}

theorem placed_ok {x : α} (h : placed wrap a d = (.ok x, d')) : a d = (.ok x, d') := by
  unfold placed at h
  rcases hrun : a.run d with ⟨e | y, e'⟩
  · rw [hrun] at h
    cases h
  · rw [hrun] at h
    cases h
    exact hrun

end Placed

/-! ## Pruning -/

/-- The names of the stale files among entries. -/
def staleNames (keep : List String) (entries : List (String × Disk.Node)) : List String :=
  (entries.filter fun e => isStale keep e.1 e.2).map (·.1)

/-- The places of names in a folder. -/
def Places (dir : String) (names : List String) (l : Location) : Prop :=
  ∃ name ∈ names, l = (Location.ofPath dir).below name

theorem places_below {name : String} :
    Places dir names ((Location.ofPath dir).below name) ↔ name ∈ names := by
  simp [Places]

/-- The files of a folder with the given names are gone, and nothing else has changed. -/
structure Removed (dir : String) (names : List String) (d d' : Disk) : Prop where
  gone : ∀ name ∈ names, d'.entry? dir name = none
  frame : Frame (Places dir names) (fun _ => False) d d'

theorem Removed.cons {name : String} (hfirst : Removed dir [name] d d')
    (hrest : Removed dir names d' d'') : Removed dir (name :: names) d d'' where
  gone := by
    refine List.forall_mem_cons.mpr ⟨?_, hrest.gone⟩
    -- Nothing says that names differ, so the name may come again in the rest.
    by_cases hmem : name ∈ names
    · exact hrest.gone name hmem
    · have hnone := hfirst.gone name List.mem_cons_self
      rw [← hnone]
      exact hrest.frame.eq (fun hplace => hmem (places_below.mp hplace)) not_false
  frame := by
    refine (hfirst.frame.mono ?_ fun _ => id).trans (hrest.frame.mono ?_ fun _ => id)
    · rintro l ⟨other, hother, rfl⟩
      exact ⟨other, List.mem_cons.mpr (Or.inl (List.mem_singleton.mp hother)), rfl⟩
    · rintro l ⟨other, hother, rfl⟩
      exact ⟨other, List.mem_cons_of_mem _ hother, rfl⟩

theorem remove_removed {name : String} (hdir : dir ≠ "") (hname : Path.Proper name)
    (h : d.remove (Path.join dir name) = .ok d') : Removed dir [name] d d' := by
  obtain ⟨⟨content, hfile⟩, rfl⟩ := Disk.remove_ok h
  rw [Location.ofPath_join hdir hname] at hfile ⊢
  have hinner := Disk.isOuter_of_file hfile
  refine ⟨fun other hother => ?_, (Frame.erase hinner).mono ?_ fun _ => id⟩
  · obtain rfl := List.mem_singleton.mp hother
    rw [Disk.entry?, Disk.node?_erase hinner, if_pos rfl]
  · rintro l rfl
    exact ⟨name, List.mem_cons_self, rfl⟩

/-- Pruning removes the stale files among the entries and lists them. -/
theorem pruneEntries_ok (hdir : dir ≠ "") (hproper : ∀ e ∈ entries, Path.Proper e.1)
    (h : pruneEntries dir keep entries d = (.ok names, d')) :
    names = staleNames keep entries ∧ Removed dir names d d' := by
  induction entries generalizing d names with
  | nil =>
      cases h
      exact ⟨rfl, fun _ hname => absurd hname List.not_mem_nil, .refl _⟩
  | cons e rest ih =>
      obtain ⟨name, n⟩ := e
      obtain ⟨hname, hrest⟩ := List.forall_mem_cons.mp hproper
      rw [pruneEntries] at h
      by_cases hstale : isStale keep name n = true
      · rw [if_pos hstale] at h
        obtain ⟨u, d₁, hremove, h⟩ := Disk.Action.of_bind_ok h
        obtain ⟨more, d₂, hmore, h⟩ := Disk.Action.of_bind_ok h
        cases h
        obtain ⟨rfl, hremoved⟩ := ih hrest hmore
        have hfirst := remove_removed hdir hname (Disk.change_ok (placed_ok hremove))
        refine ⟨?_, hfirst.cons hremoved⟩
        rw [staleNames, staleNames, List.filter_cons_of_pos (by exact hstale), List.map_cons]
      · rw [if_neg hstale] at h
        obtain ⟨rfl, hremoved⟩ := ih hrest h
        refine ⟨?_, hremoved⟩
        rw [staleNames, staleNames, List.filter_cons_of_neg (by exact hstale)]

/-- What pruning a folder did: `names` are its stale files, and they are gone. -/
structure Pruned (dir : String) (keep names : List String) (d d' : Disk) : Prop where
  nodup : names.Nodup
  stale : ∀ name ∈ names, ∃ content, d.entry? dir name = some (.file content) ∧
    isStale keep name (.file content) = true
  removed : Removed dir names d d'
  /-- All stale files are removed from a folder that is found. -/
  complete : d.find dir = .ok .folder → ∀ name content,
    d.entry? dir name = some (.file content) → isStale keep name (.file content) = true →
    name ∈ names
  /-- From a folder that is not found nothing is removed. -/
  found : names ≠ [] → d.find dir = .ok .folder

theorem staleNames_nodup (h : (entries.map (·.1)).Nodup) : (staleNames keep entries).Nodup :=
  h.sublist (List.filter_sublist.map _)

theorem mem_staleNames {name : String} : name ∈ staleNames keep entries ↔
    ∃ content, (name, .file content) ∈ entries ∧ isStale keep name (.file content) = true := by
  rw [staleNames, List.mem_map]
  constructor
  · rintro ⟨⟨other, n⟩, hmem, rfl⟩
    obtain ⟨hentry, hstale⟩ := List.mem_filter.mp hmem
    cases n with
    | folder => cases hstale
    | file content => exact ⟨content, hentry, hstale⟩
  · rintro ⟨content, hentry, hstale⟩
    exact ⟨_, List.mem_filter.mpr ⟨hentry, hstale⟩, rfl⟩

theorem prune_ok (hd : d.Sound) (h : prune dir files d = (.ok names, d')) :
    Pruned dir (keptNames files) names d d' := by
  obtain ⟨entries, d₁, hlook, h⟩ := Disk.Action.of_bind_ok h
  obtain ⟨hentries, rfl⟩ := Prod.mk.inj hlook
  dsimp only at hentries
  split at hentries
  · rename_i listed hlist
    obtain rfl := Except.ok.inj hentries
    obtain ⟨hfind, rfl⟩ := Disk.list_ok hlist
    have hdir : dir ≠ "" := by
      obtain ⟨l, hl, -⟩ := Disk.find_eq_ok_iff.mp hfind
      exact (Disk.locate_eq_ok_iff.mp hl).1
    obtain ⟨rfl, hremoved⟩ := pruneEntries_ok hdir (fun e he => (hd.mem_entries he).1) h
    refine ⟨staleNames_nodup (hd.nodup_entries _), fun name hname => ?_, hremoved,
      fun _ name content hfile hstale => ?_, fun _ => hfind⟩
    · obtain ⟨content, hentry, hstale⟩ := mem_staleNames.mp hname
      exact ⟨content, (hd.mem_entries hentry).2, hstale⟩
    · exact mem_staleNames.mpr ⟨content, hd.entry_of_file hfile, hstale⟩
  · rename_i hlist
    split at hentries
    · obtain rfl := Except.ok.inj hentries
      cases h
      refine ⟨List.nodup_nil, fun _ hname => absurd hname List.not_mem_nil,
        ⟨fun _ hname => absurd hname List.not_mem_nil, .refl _⟩, fun hfind => ?_,
        fun hne => absurd rfl hne⟩
      rw [Disk.list_of_find hfind] at hlist
      cases hlist
    · cases hentries

/-! ## Writing -/

/-- Places no deeper than a folder. -/
def NoDeeper (dir : String) (l : Location) : Prop :=
  l.names.length ≤ (Location.ofPath dir).names.length

theorem not_noDeeper_below (dir name : String) :
    ¬ NoDeeper dir ((Location.ofPath dir).below name) := by
  simp [NoDeeper, Location.below]

/-- What writing files to a folder did: each is there under its name, where no folder was, and
nothing else has changed, up to new folders around. -/
structure Written (dir : String) (files : List GeneratedFile) (d d' : Disk) : Prop where
  content : ∀ f ∈ files, d'.entry? dir f.filename = some (.file f.bytes)
  noFolder : ∀ f ∈ files, d.entry? dir f.filename ≠ some .folder
  frame : Frame (Places dir (files.map (·.filename))) (NoDeeper dir) d d'

theorem writeFile_ok {f : GeneratedFile} (hdir : dir ≠ "") (hname : Path.Proper f.filename)
    (h : writeFile dir f d = (.ok (), d')) : Written dir [f] d d' := by
  obtain ⟨u, d₁, hfolders, hwrite⟩ := Disk.Action.of_bind_ok h
  have hplace := Location.ofPath_join hdir hname
  have haround : Frame (fun _ => False) (NoDeeper dir) d d₁ := by
    have hwithin := Disk.makeFolders_within (W := fun _ => False)
      (Path.parent (Path.join dir f.filename)) d
    rw [placed_ok hfolders] at hwithin
    refine hwithin.mono (fun _ => id) ?_
    rintro l ⟨q, hq, rfl⟩
    exact Location.length_parent_join_le hdir hname hq
  obtain ⟨hfolder, rfl⟩ := Disk.write_ok (Disk.change_ok (placed_ok hwrite))
  rw [hplace] at hfolder ⊢
  have hinner := Disk.isOuter_eq_false hfolder
  refine ⟨?_, ?_, (haround.mono (fun _ => False.elim) fun _ => id).trans
    ((Frame.put_file hinner _).mono ?_ fun _ => id)⟩
  · refine List.forall_mem_singleton.mpr ?_
    rw [Disk.entry?, Disk.node?_put hinner, if_pos rfl]
  · exact List.forall_mem_singleton.mpr fun hthere => hfolder (haround.kept _ _ not_false hthere)
  · rintro l rfl
    exact places_below.mpr List.mem_cons_self

theorem Written.cons {f : GeneratedFile} (hfirst : Written dir [f] d d')
    (hrest : Written dir files d' d'') (hfresh : f.filename ∉ files.map (·.filename)) :
    Written dir (f :: files) d d'' where
  content := by
    refine List.forall_mem_cons.mpr ⟨?_, hrest.content⟩
    exact hrest.frame.kept _ _ (fun hplace => hfresh (places_below.mp hplace))
      (hfirst.content f List.mem_cons_self)
  noFolder := by
    refine List.forall_mem_cons.mpr ⟨hfirst.noFolder f List.mem_cons_self, fun g hg hthere => ?_⟩
    refine hrest.noFolder g hg (hfirst.frame.kept _ _ (fun hplace => hfresh ?_) hthere)
    have heq : g.filename = f.filename := List.mem_singleton.mp (places_below.mp hplace)
    exact heq ▸ List.mem_map_of_mem hg
  frame := by
    refine (hfirst.frame.mono ?_ fun _ => id).trans (hrest.frame.mono ?_ fun _ => id)
    · rintro l ⟨name, hname, rfl⟩
      exact places_below.mpr (List.mem_cons.mpr (Or.inl (List.mem_singleton.mp hname)))
    · rintro l ⟨name, hname, rfl⟩
      exact places_below.mpr (List.mem_cons_of_mem _ hname)

theorem writeFiles_ok (hdir : dir ≠ "") (hproper : ∀ f ∈ files, Path.Proper f.filename)
    (hnodup : (files.map (·.filename)).Nodup) (h : files.forM (writeFile dir) d = (.ok (), d')) :
    Written dir files d d' := by
  induction files generalizing d with
  | nil =>
      cases h
      exact ⟨fun _ hf => absurd hf List.not_mem_nil, fun _ hf => absurd hf List.not_mem_nil,
        .refl _⟩
  | cons f rest ih =>
      obtain ⟨hname, hrest⟩ := List.forall_mem_cons.mp hproper
      obtain ⟨hfresh, hnodup⟩ := List.nodup_cons.mp hnodup
      obtain ⟨u, d₁, hfirst, h⟩ := Disk.Action.of_bind_ok h
      exact (writeFile_ok hdir hname hfirst).cons (ih hrest hnodup h) hfresh

/-- Writing makes the folder first, which has to have a path. -/
theorem write_ok (hproper : ∀ f ∈ files, Path.Proper f.filename)
    (hnodup : (files.map (·.filename)).Nodup) (h : write dir files d = (.ok (), d'')) :
    ∃ d', Disk.makeFolders dir d = (.ok (), d') ∧ Written dir files d' d'' := by
  obtain ⟨u, d', hfolder, h⟩ := Disk.Action.of_bind_ok h
  have hmade := placed_ok hfolder
  have hdir : dir ≠ "" := by
    rintro rfl
    rw [Disk.makeFolders_empty] at hmade
    cases hmade
  exact ⟨d', hmade, writeFiles_ok hdir hproper hnodup h⟩

end Output

end WireSchema

import Mathlib
import WireSchema.Proofs.Disk.Frame

/-!
# Sound disks

On a sound disk each place is held once, under a name that an entry of a folder can have, and what
is always there is not held at all.  A disk made from files is sound.  The entries of a folder are
then exactly the places below it that hold something.

## Main results

* `Sound.mem_entries`, `Sound.entry_of_file` — what a folder lists is what lies below it.
* `sound_ofFiles` — a disk made from files is sound.
-/

namespace WireSchema

namespace Path

/-- The last part of a simple way leads back only if all parts do. -/
theorem Simple.eq_dots {absolute : Bool} {way : List String} (h : Simple absolute (".." :: way)) :
    ∀ part ∈ way, part = ".." := by
  induction way with
  | nil => exact fun part hpart => absurd hpart List.not_mem_nil
  | cons last rest ih =>
      cases h with
      | cons hrest hlonger _ =>
          by_cases hlast : last = ".."
          · subst hlast
            exact List.forall_mem_cons.mpr ⟨rfl, ih hrest⟩
          · have hlength := congrArg List.length hlonger
            simp [Path.step, hlast] at hlength
            omega

/-- The last part of a simple way that does not only lead back is a name. -/
theorem Simple.proper {absolute : Bool} {way : List String} {name : String}
    (h : Simple absolute (name :: way)) (hinner : ¬ ∀ part ∈ name :: way, part = "..") :
    Proper name := by
  cases h with
  | cons hway hlonger hslash =>
      have hblank : ¬(name = "" ∨ name = ".") := fun hblank => by
        rw [step_blank hblank] at hlonger
        exact absurd (congrArg List.length hlonger) (by simp)
      obtain ⟨hempty, hdot⟩ := not_or.mp hblank
      refine ⟨hempty, hdot, fun hdots => hinner ?_, hslash⟩
      subst hdots
      exact List.forall_mem_cons.mpr ⟨rfl, (Simple.cons hway hlonger hslash).eq_dots⟩

end Path

namespace Disk

variable {d : Disk} {l m : Location} {n : Node}

/-- Each place is held once, by a simple way, and the outer folders are not held. -/
structure Sound (d : Disk) : Prop where
  distinct : (d.nodes.map (·.1)).Nodup
  simple : ∀ e ∈ d.nodes, Path.Simple e.1.absolute e.1.names.reverse
  inner : ∀ e ∈ d.nodes, e.1.isOuter = false

theorem lookup_eq_some_iff {nodes : List (Location × Node)} (h : (nodes.map (·.1)).Nodup) :
    nodes.lookup l = some n ↔ (l, n) ∈ nodes := by
  rw [List.lookup_eq_some_iff]
  constructor
  · rintro ⟨before, after, rfl, -⟩
    simp
  · intro hmem
    obtain ⟨before, after, rfl⟩ := List.append_of_mem hmem
    refine ⟨before, after, rfl, fun e he => ?_⟩
    rw [List.map_append, List.nodup_append] at h
    have hne := h.2.2 e.1 (List.mem_map_of_mem he) l (by simp)
    simpa using hne.symm

/-- The places that hold something, apart from the outer folders, are the ones the disk lists. -/
theorem Sound.node?_eq_some_iff (h : d.Sound) (hl : l.isOuter = false) :
    d.node? l = some n ↔ (l, n) ∈ d.nodes := by
  rw [node?, hl]
  exact lookup_eq_some_iff h.distinct

/-- The entry of a folder that a held place is. -/
def entryOf (l : Location) : Location × Node → Option (String × Node) := fun (m, n) =>
  match m.names.reverse with
  | name :: above =>
      if m.absolute = l.absolute ∧ above.reverse = l.names then some (name, n) else none
  | [] => none

theorem entries_perm (d : Disk) (l : Location) :
    (d.entries l).Perm (d.nodes.filterMap (entryOf l)) :=
  List.mergeSort_perm _ _

theorem entryOf_eq_some_iff {l : Location} {e : Location × Node} {entry : String × Node} :
    entryOf l e = some entry ↔ e = (l.below entry.1, entry.2) := by
  obtain ⟨m, n⟩ := e
  obtain ⟨absolute, names⟩ := m
  obtain ⟨name, k⟩ := entry
  rcases List.eq_nil_or_concat names with rfl | ⟨above, last, hnames⟩
  · simp [entryOf, Location.below]
  · rw [List.concat_eq_append] at hnames
    subst hnames
    have hreverse : (above ++ [last]).reverse = last :: above.reverse := by simp
    simp only [entryOf, hreverse, List.reverse_reverse]
    split
    · rename_i hhere
      obtain ⟨rfl, rfl⟩ := hhere
      simp [Location.below]
    · rename_i hhere
      refine iff_of_false (by simp) fun heq => hhere ?_
      obtain ⟨hplace, -⟩ := Prod.mk.inj heq
      obtain ⟨habs, hnames⟩ := Location.mk.inj hplace
      exact ⟨habs, (List.append_inj' hnames rfl).1⟩

/-- What a folder lists is what lies below it, under names that entries can have. -/
theorem Sound.mem_entries (h : d.Sound) {entry : String × Node} (he : entry ∈ d.entries l) :
    Path.Proper entry.1 ∧ d.node? (l.below entry.1) = some entry.2 := by
  obtain ⟨e, hmem, hentry⟩ := List.mem_filterMap.mp ((entries_perm d l).subset he)
  obtain rfl := entryOf_eq_some_iff.mp hentry
  have hinner := h.inner _ hmem
  refine ⟨?_, (h.node?_eq_some_iff hinner).mpr hmem⟩
  have hsimple := h.simple _ hmem
  rw [show (l.below entry.1).names.reverse = entry.1 :: l.names.reverse by
    simp [Location.below]] at hsimple
  refine hsimple.proper fun hall => ?_
  rw [Location.isOuter, List.all_eq_false] at hinner
  obtain ⟨part, hpart, hne⟩ := hinner
  exact hne (by simpa using hall part (by simpa [Location.below, or_comm] using hpart))

/-- A file below a folder is listed. -/
theorem Sound.entry_of_file (h : d.Sound) {name : String} {content : List UInt8}
    (hfile : d.node? (l.below name) = some (.file content)) :
    (name, .file content) ∈ d.entries l := by
  refine (entries_perm d l).mem_iff.mpr
    (List.mem_filterMap.mpr ⟨_, ?_, entryOf_eq_some_iff.mpr rfl⟩)
  exact (h.node?_eq_some_iff (isOuter_of_file hfile)).mp hfile

theorem Sound.nodup_entries (h : d.Sound) (l : Location) : ((d.entries l).map (·.1)).Nodup := by
  refine ((entries_perm d l).map _).nodup_iff.mpr ?_
  have hdistinct := h.distinct
  rw [List.Nodup, List.pairwise_map] at hdistinct ⊢
  rw [List.pairwise_filterMap]
  refine hdistinct.imp fun {e e'} hne entry hentry entry' hentry' hname => hne ?_
  rw [entryOf_eq_some_iff.mp hentry, entryOf_eq_some_iff.mp hentry', hname]

/-! ## Operations keep a disk sound -/

theorem sound_empty : empty.Sound :=
  ⟨List.nodup_nil, fun _ he => absurd he List.not_mem_nil, fun _ he => absurd he List.not_mem_nil⟩

theorem Sound.erase (h : d.Sound) (l : Location) : (d.erase l).Sound where
  distinct := h.distinct.sublist (List.filter_sublist.map _)
  simple e he := h.simple e (List.mem_of_mem_filter he)
  inner e he := h.inner e (List.mem_of_mem_filter he)

theorem Sound.put (h : d.Sound) {p : String} (hinner : (Location.ofPath p).isOuter = false)
    (n : Node) : (d.put (Location.ofPath p) n).Sound where
  distinct := by
    refine List.nodup_cons.mpr ⟨fun hmem => ?_, (h.erase _).distinct⟩
    obtain ⟨e, he, heq⟩ := List.mem_map.mp hmem
    exact absurd heq (by simpa using List.of_mem_filter he)
  simple := List.forall_mem_cons.mpr ⟨Path.simple_simplify p, (h.erase _).simple⟩
  inner := List.forall_mem_cons.mpr ⟨hinner, (h.erase _).inner⟩

/-- Whatever is sound stays sound. -/
def SoundKept (d d' : Disk) : Prop := d.Sound → d'.Sound

instance : IsPreorder Disk SoundKept where
  refl _ := id
  trans _ _ _ h h' := h' ∘ h

theorem write_sound (p : String) (content : List UInt8) :
    (change (·.write p content)).Respects SoundKept := by
  refine .change fun d d' h hsound => ?_
  obtain ⟨hfolder, rfl⟩ := write_ok h
  exact hsound.put (isOuter_eq_false hfolder) _

theorem makeFolders_sound (p : String) : (makeFolders p).Respects SoundKept := by
  refine .forM fun q _ => .change fun d d' h hsound => ?_
  rcases ensureFolder_ok h with rfl | ⟨hnone, rfl⟩
  · exact hsound
  · exact hsound.put (isOuter_of_none hnone) _

/-- **A disk made from files is sound.** -/
theorem sound_ofFiles (files : List (String × String)) : (ofFiles files).Sound := by
  unfold ofFiles
  refine List.foldlRecOn files _ sound_empty fun d hsound f _ => ?_
  obtain ⟨path, content⟩ := f
  dsimp only
  split
  · exact (Action.Respects.bind (makeFolders_sound _) fun _ => write_sound _ _) d hsound
  · exact makeFolders_sound path d hsound

end Disk
end WireSchema

import Mathlib
import WireSchema.Proofs.Disk.Path

/-!
# What an operation leaves alone

`Disk.Frame W F` relates two disks that agree outside the places `W`, up to folders that came, at
places `F`, where nothing was.  Operations of the disk relate the disk before to the disk after in
this way, and so do actions put together from them, whether they succeed or stop halfway
(`Action.Within`).

## Main results

* `makeFolders_within` — making folders only adds folders, and only on the way of the path.
* `makeFolders_of_find` — a folder that is found is not made again, nor is any on its way.
* `write_ok`, `remove_ok` — writing and removing a file change one place.
-/

namespace WireSchema

namespace Disk

variable {d d' : Disk} {l m : Location} {n : Node} {p q : String}

/-! ## Where operations lead -/

theorem foldl_step (l : Location) (steps : List String) :
    steps.foldl Location.step l =
      { l with names := (steps.foldl (Path.step l.absolute) l.names.reverse).reverse } := by
  induction steps generalizing l with
  | nil => simp
  | cons part rest ih =>
      rw [List.foldl_cons, ih, List.foldl_cons, Location.step, List.reverse_reverse]

/-- Where parts lead they lead without looking. -/
theorem walk_ok {steps : List String} (h : d.walk l steps = .ok m) :
    m = steps.foldl Location.step l := by
  induction steps generalizing l with
  | nil =>
      obtain rfl := Except.ok.inj h
      rfl
  | cons part rest ih =>
      rw [walk] at h
      split at h
      · cases h
      · cases h
      · split at h
        · cases h
        · exact ih h

theorem locate_ok (h : d.locate p = .ok l) : l = Location.ofPath p := by
  unfold locate at h
  split at h
  · cases h
  split at h
  · cases h
  rw [walk_ok h, foldl_step]
  rfl

/-! ## Filling and emptying a place -/

theorem lookup_filter (nodes : List (Location × Node)) (l m : Location) :
    (nodes.filter fun e => e.1 != l).lookup m = if m = l then none else nodes.lookup m := by
  induction nodes with
  | nil => simp
  | cons e nodes ih =>
      obtain ⟨k, n⟩ := e
      by_cases hk : k = l
      · subst hk
        rw [List.filter_cons_of_neg (by simp), ih]
        by_cases hm : m = k
        · simp [hm]
        · have hbeq : (m == k) = false := by simpa using hm
          simp [hm, List.lookup_cons, hbeq]
      · rw [List.filter_cons_of_pos (by simpa using hk), List.lookup_cons, List.lookup_cons, ih]
        by_cases hm : m = k
        · simp [hm, hk]
        · have hbeq : (m == k) = false := by simpa using hm
          simp [hbeq]

theorem node?_of_isOuter (h : l.isOuter = true) : d.node? l = some .folder := by
  rw [node?, if_pos h]

theorem isOuter_eq_false (h : d.node? l ≠ some .folder) : l.isOuter = false :=
  Bool.eq_false_iff.mpr fun houter => h (node?_of_isOuter houter)

theorem isOuter_of_file {content : List UInt8} (h : d.node? l = some (.file content)) :
    l.isOuter = false :=
  isOuter_eq_false (d := d) (by simp [h])

theorem isOuter_of_none (h : d.node? l = none) : l.isOuter = false :=
  isOuter_eq_false (d := d) (by simp [h])

theorem node?_erase (hl : l.isOuter = false) (m : Location) :
    (d.erase l).node? m = if m = l then none else d.node? m := by
  unfold node? erase
  by_cases hm : m = l
  · subst hm
    rw [hl, lookup_filter]
    simp
  · rw [lookup_filter, if_neg hm, if_neg hm]

theorem node?_put (hl : l.isOuter = false) (n : Node) (m : Location) :
    (d.put l n).node? m = if m = l then some n else d.node? m := by
  by_cases hm : m = l
  · subst hm
    simp [node?, put, hl]
  · have hbeq : (m == l) = false := by simpa using hm
    have herase := node?_erase (d := d) hl m
    rw [if_neg hm] at herase
    rw [if_neg hm, ← herase]
    simp [node?, put, List.lookup_cons, hbeq]

/-! ## Frames -/

/-- Outside the places `W` a disk keeps what it holds; where nothing was, at most folders came, and
only at the places `F`. -/
structure Frame (W F : Location → Prop) (d d' : Disk) : Prop where
  kept : ∀ l n, ¬ W l → d.node? l = some n → d'.node? l = some n
  new : ∀ l, ¬ W l → d.node? l = none →
    d'.node? l = none ∨ F l ∧ d'.node? l = some .folder

namespace Frame

variable {W W' F F' : Location → Prop} {d d' d'' : Disk}

theorem refl (d : Disk) : Frame W F d d := ⟨fun _ _ _ h => h, fun _ _ h => Or.inl h⟩

theorem trans (h : Frame W F d d') (h' : Frame W F d' d'') : Frame W F d d'' where
  kept l n hW hn := h'.kept l n hW (h.kept l n hW hn)
  new l hW hn := by
    rcases h.new l hW hn with hnone | ⟨hF, hfolder⟩
    · exact h'.new l hW hnone
    · exact Or.inr ⟨hF, h'.kept l _ hW hfolder⟩

theorem mono (h : Frame W F d d') (hW : ∀ l, W l → W' l) (hF : ∀ l, F l → F' l) :
    Frame W' F' d d' where
  kept l n hl := h.kept l n fun hw => hl (hW l hw)
  new l hl hn := (h.new l (fun hw => hl (hW l hw)) hn).imp_right fun ⟨hf, hn'⟩ => ⟨hF l hf, hn'⟩

instance : IsPreorder Disk (Frame W F) where
  refl := refl
  trans _ _ _ := trans

/-- Outside of both, a frame changes nothing. -/
theorem eq (h : Frame W F d d') (hW : ¬ W l) (hF : ¬ F l) : d'.node? l = d.node? l := by
  cases hn : d.node? l with
  | some n => exact h.kept l n hW hn
  | none => exact (h.new l hW hn).resolve_right fun ⟨hf, _⟩ => hF hf

/-- A frame puts files at places it writes only. -/
theorem file (h : Frame W F d d') (hW : ¬ W l) {content : List UInt8} :
    d'.node? l = some (.file content) ↔ d.node? l = some (.file content) := by
  refine ⟨fun hfile => ?_, h.kept l _ hW⟩
  cases hn : d.node? l with
  | some n => rw [← h.kept l n hW hn, hfile]
  | none =>
      rcases h.new l hW hn with hnone | ⟨-, hfolder⟩
      · rw [hnone] at hfile
        cases hfile
      · rw [hfolder] at hfile
        cases hfile

theorem put_file (hl : l.isOuter = false) (content : List UInt8) :
    Frame (· = l) F d (d.put l (.file content)) where
  kept m n hm hn := by rwa [node?_put hl, if_neg hm]
  new m hm hn := Or.inl (by rwa [node?_put hl, if_neg hm])

theorem put_folder (hl : l.isOuter = false) (hn : d.node? l = none) (hF : F l) :
    Frame W F d (d.put l .folder) where
  kept m n _ hm := by
    have hne : m ≠ l := by
      rintro rfl
      rw [hn] at hm
      cases hm
    rwa [node?_put hl, if_neg hne]
  new m _ hm := by
    by_cases heq : m = l
    · subst heq
      exact Or.inr ⟨hF, by rw [node?_put hl, if_pos rfl]⟩
    · exact Or.inl (by rwa [node?_put hl, if_neg heq])

theorem erase (hl : l.isOuter = false) : Frame (· = l) F d (d.erase l) where
  kept m n hm hn := by rwa [node?_erase hl, if_neg hm]
  new m hm hn := Or.inl (by rwa [node?_erase hl, if_neg hm])

end Frame

/-! ## Operations -/

theorem write_ok {content : List UInt8} (h : d.write p content = .ok d') :
    d.node? (Location.ofPath p) ≠ some .folder ∧
      d' = d.put (Location.ofPath p) (.file content) := by
  unfold write at h
  split at h
  · cases h
  · rename_i l hl
    split at h
    · cases h
    · rename_i hcase
      obtain ⟨htrim, hfolder⟩ := not_or.mp hcase
      rw [not_ne_iff.mp htrim] at hl
      obtain rfl := locate_ok hl
      exact ⟨hfolder, (Except.ok.inj h).symm⟩

theorem remove_ok (h : d.remove p = .ok d') :
    (∃ content, d.node? (Location.ofPath p) = some (.file content)) ∧
      d' = d.erase (Location.ofPath p) := by
  unfold remove at h
  split at h
  · cases h
  · rename_i l hl
    obtain rfl := locate_ok hl
    split at h
    · rename_i content hn
      exact ⟨⟨content, hn⟩, (Except.ok.inj h).symm⟩
    · cases h
    · cases h

theorem makeFolder_ok (h : d.makeFolder p = .ok d') :
    d.node? (Location.ofPath p) = none ∧ d' = d.put (Location.ofPath p) .folder := by
  unfold makeFolder at h
  split at h
  · cases h
  · rename_i l hl
    rw [← Location.ofPath_trimSlashes, ← locate_ok hl]
    split at h
    · cases h
    · rename_i hnone
      exact ⟨by simpa using hnone, (Except.ok.inj h).symm⟩

theorem ensureFolder_ok (h : d.ensureFolder p = .ok d') :
    d' = d ∨ (d.node? (Location.ofPath p) = none ∧ d' = d.put (Location.ofPath p) .folder) := by
  unfold ensureFolder at h
  split at h
  · exact Or.inl (Except.ok.inj h).symm
  · cases h
  · exact Or.inr (makeFolder_ok h)

/-! ## Actions -/

section Action

variable {ε α β : Type} {W W' F F' : Location → Prop}

theorem Action.bind_of_ok {x : Action ε α} {f : α → Action ε β} {a : α}
    (h : x d = (.ok a, d')) : (x >>= f) d = f a d' := by
  simp only [bind, ExceptT.bind, ExceptT.mk, StateT.bind, h]
  rfl

theorem Action.bind_of_error {x : Action ε α} {f : α → Action ε β} {e : ε}
    (h : x d = (.error e, d')) : (x >>= f) d = (.error e, d') := by
  simp only [bind, ExceptT.bind, ExceptT.mk, StateT.bind, h]
  rfl

/-- An action in two steps that succeeds, step by step. -/
theorem Action.of_bind_ok {x : Action ε α} {f : α → Action ε β} {b : β} {d'' : Disk}
    (h : (x >>= f) d = (.ok b, d'')) : ∃ a d', x d = (.ok a, d') ∧ f a d' = (.ok b, d'') := by
  rcases hx : x d with ⟨e | a, d'⟩
  · rw [Action.bind_of_error hx] at h
    cases h
  · exact ⟨a, d', rfl, by rwa [Action.bind_of_ok hx] at h⟩

theorem change_ok {f : Disk → Except ε Disk} {u : Unit} (h : change f d = (.ok u, d')) :
    f d = .ok d' := by
  unfold change at h
  split at h
  · rename_i d'' hf
    obtain ⟨-, rfl⟩ := Prod.mk.inj h
    exact hf
  · cases h

/-- However an action ends, the disk before it is related to the disk after it. -/
def Action.Respects (R : Disk → Disk → Prop) (a : Action ε α) : Prop := ∀ d : Disk, R d (a d).2

namespace Action.Respects

variable {R : Disk → Disk → Prop}

variable [IsPreorder Disk R]

theorem pure (a : α) : Respects R (Pure.pure a : Action ε α) := fun d => refl d

theorem bind {x : Action ε α} {f : α → Action ε β} (hx : x.Respects R)
    (hf : ∀ a, (f a).Respects R) : (x >>= f).Respects R := by
  intro d
  have hstep := hx d
  rcases hrun : x d with ⟨e | a, d'⟩
  · -- A step that fails ends the run with the disk it left.
    rw [hrun] at hstep
    rwa [bind_of_error hrun]
  · rw [hrun] at hstep
    rw [bind_of_ok hrun]
    exact IsTrans.trans _ _ _ hstep (hf a d')

theorem forM {f : α → Action ε Unit} {as : List α} (h : ∀ a ∈ as, (f a).Respects R) :
    (as.forM f).Respects R := by
  induction as with
  | nil => exact pure ()
  | cons a as ih =>
      obtain ⟨ha, has⟩ := List.forall_mem_cons.mp h
      exact bind ha fun _ => ih has

theorem change {f : Disk → Except ε Disk} (h : ∀ d d', f d = .ok d' → R d d') :
    (Disk.change f).Respects R := by
  intro d
  unfold Disk.change
  split
  · rename_i d' hf
    exact h d d' hf
  · exact refl d

end Action.Respects

/-- However an action ends, it stays within a frame. -/
abbrev Action.Within (W F : Location → Prop) (a : Action ε α) : Prop := a.Respects (Frame W F)

/-- Writing a file changes at most its place. -/
theorem write_within (p : String) (content : List UInt8) :
    (change (·.write p content)).Within (· = Location.ofPath p) F := by
  refine .change fun d d' h => ?_
  obtain ⟨hfolder, rfl⟩ := write_ok h
  exact .put_file (isOuter_eq_false hfolder) content

/-- The places on the way of a path. -/
def OnTheWay (p : String) (l : Location) : Prop := ∃ q ∈ Path.ancestry p, l = Location.ofPath q

/-- **Making folders only adds folders, and only on the way of the path.** -/
theorem makeFolders_within (p : String) : (makeFolders p).Within W (OnTheWay p) := by
  refine .forM fun q hq => .change fun d d' h => ?_
  rcases ensureFolder_ok h with rfl | ⟨hnone, rfl⟩
  · exact .refl _
  · exact .put_folder (isOuter_of_none hnone) hnone ⟨q, hq, rfl⟩

end Action

/-! ## Folders that are there -/

theorem walk_append {xs ys : List String} (h : d.walk l (xs ++ ys) = .ok m) :
    ∃ k, d.walk l xs = .ok k ∧ d.walk k ys = .ok m := by
  induction xs generalizing l with
  | nil => exact ⟨l, rfl, h⟩
  | cons part rest ih =>
      rw [List.cons_append, walk] at h
      rw [walk]
      split at h
      · cases h
      · cases h
      · split at h
        · cases h
        · rename_i hfolder hlength
          rw [if_neg hlength]
          exact ih h

/-- Where a way goes on there is a folder. -/
theorem folder_of_walk {part : String} {rest : List String}
    (h : d.walk l (part :: rest) = .ok m) : d.node? l = some .folder := by
  rw [walk] at h
  split at h
  · cases h
  · cases h
  · assumption

/-- A way stays open as long as folders stay. -/
theorem walk_kept (hd : ∀ k, d.node? k = some .folder → d'.node? k = some .folder)
    {steps : List String} (h : d.walk l steps = .ok m) : d'.walk l steps = .ok m := by
  induction steps generalizing l with
  | nil => exact h
  | cons part rest ih =>
      have hfolder := folder_of_walk h
      rw [walk, hfolder] at h
      rw [walk, hd l hfolder]
      simp only at h ⊢
      split at h
      · cases h
      · rename_i hlength
        rw [if_neg hlength]
        exact ih h

theorem locate_eq_ok_iff :
    d.locate p = .ok l ↔
      p ≠ "" ∧ '\x00' ∉ p.toList ∧ d.walk ⟨Path.isAbsolute p, []⟩ (Path.parts p) = .ok l := by
  unfold locate
  split
  · rename_i hempty
    simp [String.isEmpty_iff.mp hempty]
  · rename_i hempty
    have hne : p ≠ "" := fun heq => hempty (String.isEmpty_iff.mpr heq)
    split
    · rename_i hbad
      have hmem : '\x00' ∈ p.toList := by simpa using hbad
      simp [hmem]
    · rename_i hbad
      have hmem : '\x00' ∉ p.toList := by simpa using hbad
      simp [hne, hmem]

theorem find_eq_ok_iff : d.find p = .ok n ↔ ∃ l, d.locate p = .ok l ∧ d.node? l = some n := by
  unfold find
  cases d.locate p with
  | error f => simp [bind, Except.bind]
  | ok l => cases hn : d.node? l <;> simp [bind, Except.bind, hn, pure, Except.pure, throw]

/-- A folder that is found stays found as long as folders stay. -/
theorem find_kept (hd : ∀ k, d.node? k = some .folder → d'.node? k = some .folder)
    (h : d.find p = .ok .folder) : d'.find p = .ok .folder := by
  obtain ⟨l, hl, hn⟩ := find_eq_ok_iff.mp h
  obtain ⟨hne, hbad, hwalk⟩ := locate_eq_ok_iff.mp hl
  exact find_eq_ok_iff.mpr ⟨l, locate_eq_ok_iff.mpr ⟨hne, hbad, walk_kept hd hwalk⟩, hd l hn⟩

/-- All folders on the way of a folder that is found are found. -/
theorem find_of_mem_ancestry (h : d.find p = .ok .folder) (hq : q ∈ Path.ancestry p) :
    d.find q = .ok .folder := by
  rcases Path.cut_of_mem_ancestry hq with rfl | ⟨hne, after, rfl⟩
  · exact h
  obtain ⟨l, hl, -⟩ := find_eq_ok_iff.mp h
  obtain ⟨-, hbad, hwalk⟩ := locate_eq_ok_iff.mp hl
  rw [Path.parts_append, String.append_assoc, Path.isAbsolute_append hne] at hwalk
  obtain ⟨k, hk, hrest⟩ := walk_append hwalk
  -- Behind the slash there is always a part, so the walk looked at the place it came to.
  obtain ⟨part, rest, hafter⟩ := List.exists_cons_of_ne_nil (Path.parts_ne_nil after)
  rw [hafter] at hrest
  refine find_eq_ok_iff.mpr
    ⟨k, locate_eq_ok_iff.mpr ⟨hne, fun hmem => hbad ?_, hk⟩, folder_of_walk hrest⟩
  simp [hmem]

/-- **A folder that is found is not made again, nor is any on its way.** -/
theorem makeFolders_of_find (h : d.find p = .ok .folder) : makeFolders p d = (.ok (), d) := by
  have hall : ∀ q ∈ Path.ancestry p, d.ensureFolder q = .ok d := fun q hq => by
    rw [ensureFolder, find_of_mem_ancestry h hq]
  unfold makeFolders
  generalize Path.ancestry p = way at hall
  induction way with
  | nil => rfl
  | cons q qs ih =>
      obtain ⟨hq, hqs⟩ := List.forall_mem_cons.mp hall
      have hstep : (change (ensureFolder · q) : Action Error Unit) d = (.ok (), d) := by
        rw [change, hq]
      exact (Action.bind_of_ok hstep).trans (ih hqs)

/-- There is no folder without a name to make. -/
theorem makeFolders_empty : makeFolders "" d = (.error ⟨"mkdir", "", .missing⟩, d) := by
  have hstep : (change (ensureFolder · "") : Action Error Unit) d =
      (.error ⟨"mkdir", "", .missing⟩, d) := rfl
  exact Action.bind_of_error hstep

end Disk
end WireSchema

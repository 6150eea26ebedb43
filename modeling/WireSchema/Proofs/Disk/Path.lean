import Mathlib
import WireSchema.Disk
import WireSchema.Proofs.Text.Split
import WireSchema.Proofs.Text.Trim

/-!
# Where paths lead

On a disk without shortcuts a path leads, unless something is in the way, to a place that can be
told from its text alone.  `Location.ofPath` is that place.  Simplifying a path does not change it,
and a path joined with a name leads to that name in the folder at the first path.

## Main results

* `simplify_clean` — simplifying a path twice is simplifying it once.
* `ofPath_join` — a joined path leads to the entry of its name.
* `length_simplify_le` — a path leads no deeper than the number of its parts that are names.
* `parts_of_mem_ancestry` — the parts of a path on the way are parts of the whole path.
-/

namespace WireSchema

namespace Path

/-! ## Parts -/

/-- A name that an entry of a folder can have. -/
structure Proper (name : String) : Prop where
  nonempty : name ≠ ""
  notDot : name ≠ "."
  notDots : name ≠ ".."
  noSlash : '/' ∉ name.toList

theorem parts_of_noSlash {s : String} (h : '/' ∉ s.toList) : parts s = [s] := by
  have hpieces : Text.splitBy (· == '/') s.toList = [s.toList] := by
    rw [Text.splitBy_eq_splitOnP]
    refine List.splitOnP_eq_singleton fun c hc => ?_
    simpa using fun heq : c = '/' => h (heq ▸ hc)
  rw [parts, hpieces, List.map_singleton, String.ofList_toList]

theorem parts_append (s t : String) : parts (s ++ "/" ++ t) = parts s ++ parts t := by
  have hlist : (s ++ "/" ++ t).toList = s.toList ++ '/' :: t.toList := by simp
  rw [parts, hlist, Text.splitBy_eq_splitOnP, List.splitOnP_append_cons _ _ rfl, List.map_append,
    parts, parts, Text.splitBy_eq_splitOnP, Text.splitBy_eq_splitOnP]

theorem parts_ne_nil (s : String) : parts s ≠ [] := by
  rw [parts, Text.splitBy_eq_splitOnP]
  exact mt List.map_eq_nil_iff.mp (List.splitOnP_ne_nil _ _)

theorem noSlash_of_mem_parts {s part : String} (h : part ∈ parts s) : '/' ∉ part.toList := by
  obtain ⟨piece, hpiece, rfl⟩ := List.mem_map.mp h
  rw [String.toList_ofList]
  exact fun hmem => by simpa using Text.of_mem_splitBy piece hpiece '/' hmem

theorem parts_joinWith (names : List String) (hne : names ≠ [])
    (h : ∀ name ∈ names, '/' ∉ name.toList) : parts (Text.joinWith "/" names) = names := by
  induction names with
  | nil => exact absurd rfl hne
  | cons name rest ih =>
      have hname := parts_of_noSlash (h name List.mem_cons_self)
      by_cases hrest : rest = []
      · rw [hrest, Text.joinWith, String.intercalate_singleton, hname]
      · rw [Text.joinWith, String.intercalate_cons_of_ne_nil hrest, parts_append, hname,
          ← Text.joinWith, ih hrest fun n hn => h n (List.mem_cons_of_mem _ hn)]
        rfl

theorem isAbsolute_append {s : String} (h : s ≠ "") (t : String) :
    isAbsolute (s ++ t) = isAbsolute s := by
  have hlist : s.toList ≠ [] := fun hnil => h (by simpa using hnil)
  obtain ⟨c, cs, hcs⟩ := List.exists_cons_of_ne_nil hlist
  simp [isAbsolute, hcs]

/-! ## Simple ways -/

variable {absolute : Bool} {way : List String} {part name : String}

theorem step_blank (h : part = "" ∨ part = ".") : step absolute way part = way := by
  simp only [step, if_pos h]

theorem step_name (hblank : ¬(part = "" ∨ part = ".")) (hback : part ≠ "..") :
    step absolute way part = part :: way := by
  simp only [step, if_neg hblank, if_neg hback]

theorem step_proper (h : Proper name) : step absolute way name = name :: way :=
  step_name (not_or.mpr ⟨h.nonempty, h.notDot⟩) h.notDots

/-- A way, last part first, that every part makes longer. -/
inductive Simple (absolute : Bool) : List String → Prop
  | nil : Simple absolute []
  | cons {part : String} {way : List String} (rest : Simple absolute way)
      (longer : step absolute way part = part :: way) (noSlash : '/' ∉ part.toList) :
      Simple absolute (part :: way)

namespace Simple

theorem step (h : Simple absolute way) (hpart : '/' ∉ part.toList) :
    Simple absolute (Path.step absolute way part) := by
  by_cases hnone : part = "" ∨ part = "."
  · rwa [step_blank hnone]
  by_cases hback : part = ".."
  · subst hback
    cases h with
    | nil =>
        cases absolute with
        | true => exact .nil
        | false => exact .cons .nil rfl (by decide)
    | @cons last rest hrest hlonger hslash =>
        by_cases hlast : last = ".."
        · subst hlast
          exact .cons (.cons hrest hlonger hslash) (by simp [Path.step]) (by decide)
        · simpa [Path.step, hlast] using hrest
  · have hlonger : Path.step absolute way part = part :: way := step_name hnone hback
    rw [hlonger]
    exact .cons h hlonger hpart

theorem foldl (h : Simple absolute way) {steps : List String}
    (hsteps : ∀ part ∈ steps, '/' ∉ part.toList) :
    Simple absolute (steps.foldl (Path.step absolute) way) := by
  induction steps generalizing way with
  | nil => exact h
  | cons part rest ih =>
      obtain ⟨hpart, hrest⟩ := List.forall_mem_cons.mp hsteps
      exact ih (h.step hpart) hrest

/-- Following a simple way from its beginning leads along it. -/
theorem foldl_reverse (h : Simple absolute way) :
    way.reverse.foldl (Path.step absolute) [] = way := by
  induction h with
  | nil => rfl
  | cons _ longer _ ih =>
      rw [List.reverse_cons, List.foldl_append, ih, List.foldl_cons, longer, List.foldl_nil]

theorem noSlash (h : Simple absolute way) : ∀ part ∈ way, '/' ∉ part.toList := by
  induction h with
  | nil => exact fun part hpart => by cases hpart
  | cons _ _ hslash ih => exact List.forall_mem_cons.mpr ⟨hslash, ih⟩

theorem nonempty (h : Simple absolute way) : ∀ part ∈ way, part ≠ "" := by
  induction h with
  | nil => exact fun part hpart => by cases hpart
  | @cons part way _ longer _ ih =>
      refine List.forall_mem_cons.mpr ⟨?_, ih⟩
      rintro rfl
      simp [Path.step] at longer

end Simple

/-- What is left of a path is a simple way. -/
theorem simple_simplify (p : String) : Simple (isAbsolute p) (simplify p).reverse := by
  rw [simplify, List.reverse_reverse]
  exact Simple.nil.foldl fun _ => noSlash_of_mem_parts

theorem noSlash_simplify {p name : String} (h : name ∈ simplify p) : '/' ∉ name.toList :=
  (simple_simplify p).noSlash name (List.mem_reverse.mpr h)

theorem foldl_simplify (p : String) :
    (simplify p).foldl (step (isAbsolute p)) [] = (simplify p).reverse := by
  simpa using (simple_simplify p).foldl_reverse

/-! ## Simplified paths -/

theorem joinWith_ne_empty {names : List String} (hne : names ≠ []) (h : ∀ n ∈ names, n ≠ "") :
    Text.joinWith "/" names ≠ "" := by
  obtain ⟨name, rest, rfl⟩ := List.exists_cons_of_ne_nil hne
  have hname := h name List.mem_cons_self
  by_cases hrest : rest = []
  · rwa [hrest, Text.joinWith, String.intercalate_singleton]
  · rw [Text.joinWith, String.intercalate_cons_of_ne_nil hrest]
    simp [String.append_eq_empty_iff, hname]

theorem isAbsolute_joinWith {names : List String} (hne : names ≠ []) (h : ∀ n ∈ names, n ≠ "")
    (hslash : ∀ n ∈ names, '/' ∉ n.toList) : isAbsolute (Text.joinWith "/" names) = false := by
  obtain ⟨name, rest, rfl⟩ := List.exists_cons_of_ne_nil hne
  have hname : isAbsolute name = false := by
    have hnot := hslash name List.mem_cons_self
    unfold isAbsolute
    cases hlist : name.toList with
    | nil => rfl
    | cons c cs =>
        rw [hlist] at hnot
        simpa using fun heq : c = '/' => hnot (heq ▸ List.mem_cons_self)
  by_cases hrest : rest = []
  · rwa [hrest, Text.joinWith, String.intercalate_singleton]
  · rw [Text.joinWith, String.intercalate_cons_of_ne_nil hrest, String.append_assoc,
      isAbsolute_append (h name List.mem_cons_self), hname]

/-- The text of a simplified path: its names behind a slash, or its names, or a dot. -/
theorem clean_cases (p : String) :
    (isAbsolute p = true ∧ clean p = "/" ++ Text.joinWith "/" (simplify p)) ∨
    (isAbsolute p = false ∧ simplify p = [] ∧ clean p = ".") ∨
    (isAbsolute p = false ∧ simplify p ≠ [] ∧ clean p = Text.joinWith "/" (simplify p)) := by
  cases habs : isAbsolute p with
  | true => exact Or.inl ⟨rfl, by simp [clean, habs]⟩
  | false =>
      by_cases hnil : simplify p = []
      · refine Or.inr (Or.inl ⟨rfl, hnil, ?_⟩)
        simp [clean, habs, hnil, Text.joinWith]
      · have hbody := joinWith_ne_empty hnil fun n hn =>
          (simple_simplify p).nonempty n (List.mem_reverse.mpr hn)
        have hfalse : (Text.joinWith "/" (simplify p)).isEmpty = false :=
          Bool.eq_false_iff.mpr fun hempty => hbody (String.isEmpty_iff.mp hempty)
        exact Or.inr (Or.inr ⟨rfl, hnil, by simp [clean, habs, hfalse]⟩)

theorem parts_slash (s : String) : parts ("/" ++ s) = "" :: parts s := by
  have happend := parts_append "" s
  rwa [String.empty_append] at happend

/-- The parts of a simplified path lead along its names, and no other part is a name. -/
theorem parts_clean (p : String) :
    parts (clean p) = simplify p ∨ parts (clean p) = "" :: simplify p ∨
      (simplify p = [] ∧ ∀ part ∈ parts (clean p), part = "" ∨ part = ".") := by
  have hslash : ∀ n ∈ simplify p, '/' ∉ n.toList := fun n => noSlash_simplify
  rcases clean_cases p with ⟨-, hclean⟩ | ⟨-, hnil, hclean⟩ | ⟨-, hne, hclean⟩
  · rw [hclean, parts_slash]
    by_cases hnil : simplify p = []
    · refine Or.inr (Or.inr ⟨hnil, ?_⟩)
      rw [hnil]
      decide
    · exact Or.inr (Or.inl (by rw [parts_joinWith _ hnil hslash]))
  · refine Or.inr (Or.inr ⟨hnil, ?_⟩)
    rw [hclean]
    decide
  · exact Or.inl (by rw [hclean, parts_joinWith _ hne hslash])

theorem isAbsolute_clean (p : String) : isAbsolute (clean p) = isAbsolute p := by
  rcases clean_cases p with ⟨habs, hclean⟩ | ⟨habs, -, hclean⟩ | ⟨habs, hne, hclean⟩
  · rw [hclean, isAbsolute_append (by decide), habs]
    decide
  · rw [hclean, habs]
    decide
  · rw [hclean, habs]
    exact isAbsolute_joinWith hne
      (fun n hn => (simple_simplify p).nonempty n (List.mem_reverse.mpr hn))
      fun n => noSlash_simplify

theorem foldl_step_blank (absolute : Bool) (steps way : List String)
    (h : ∀ part ∈ steps, part = "" ∨ part = ".") : steps.foldl (step absolute) way = way := by
  induction steps with
  | nil => rfl
  | cons part rest ih =>
      obtain ⟨hpart, hrest⟩ := List.forall_mem_cons.mp h
      rw [List.foldl_cons, step_blank hpart, ih hrest]

/-- **Simplifying a path twice is simplifying it once.** -/
theorem simplify_clean (p : String) : simplify (clean p) = simplify p := by
  have hfold := foldl_simplify p
  rw [simplify, isAbsolute_clean]
  rcases parts_clean p with hparts | hparts | ⟨hnil, hparts⟩
  · rw [hparts, hfold, List.reverse_reverse]
  · rw [hparts, List.foldl_cons, step_blank (Or.inl rfl), hfold, List.reverse_reverse]
  · rw [foldl_step_blank _ _ _ hparts, hnil]
    rfl

/-- A name is its own simplest path. -/
theorem clean_proper {name : String} (h : Proper name) : clean name = name := by
  have hsimple : simplify name = [name] := by
    rw [simplify, parts_of_noSlash h.noSlash, List.foldl_cons, step_proper h, List.foldl_nil,
      List.reverse_singleton]
  have hjoin : Text.joinWith "/" [name] = name := by
    rw [Text.joinWith, String.intercalate_singleton]
  have habs : isAbsolute (Text.joinWith "/" [name]) = false :=
    isAbsolute_joinWith (List.cons_ne_nil _ _) (List.forall_mem_singleton.mpr h.nonempty)
      (List.forall_mem_singleton.mpr h.noSlash)
  rw [hjoin] at habs
  rcases clean_cases name with ⟨htrue, -⟩ | ⟨-, hnil, -⟩ | ⟨-, -, hclean⟩
  · rw [habs] at htrue
    cases htrue
  · rw [hsimple] at hnil
    cases hnil
  · rw [hclean, hsimple, hjoin]

/-! ## How deep a path leads -/

/-- How many parts are names. -/
def named (steps : List String) : Nat := steps.countP fun part => part ≠ "" ∧ part ≠ "."

theorem named_append (steps more : List String) :
    named (steps ++ more) = named steps + named more :=
  List.countP_append

theorem named_cons (part : String) (steps : List String) :
    named (part :: steps) = named [part] + named steps :=
  named_append [part] steps

theorem length_step_le : (step absolute way part).length ≤ way.length + named [part] := by
  by_cases hblank : part = "" ∨ part = "."
  · rw [step_blank hblank]
    exact Nat.le_add_right _ _
  have hone : named [part] = 1 := by
    obtain ⟨hempty, hdot⟩ := not_or.mp hblank
    simp [named, hempty, hdot]
  rw [hone]
  by_cases hback : part = ".."
  · simp only [step, if_neg hblank, if_pos hback]
    split
    · split <;> simp
    · split
      · simp
      · simp only [List.length_cons]
        omega
  · simp [step_name hblank hback]

theorem length_foldl_step_le (absolute : Bool) (way steps : List String) :
    (steps.foldl (step absolute) way).length ≤ way.length + named steps := by
  induction steps generalizing way with
  | nil => exact Nat.le_refl _
  | cons part rest ih =>
      have hstep : (step absolute way part).length ≤ way.length + named [part] := length_step_le
      have hrest := ih (step absolute way part)
      rw [List.foldl_cons, named_cons]
      omega

/-- A path leads no deeper than the number of its parts that are names. -/
theorem length_simplify_le (p : String) : (simplify p).length ≤ named (parts p) := by
  have hle := length_foldl_step_le (isAbsolute p) [] (parts p)
  simpa [simplify] using hle

theorem named_le_length (steps : List String) : named steps ≤ steps.length :=
  List.countP_le_length

/-- A simplified path has no more parts that are names than it leads deep. -/
theorem named_parts_clean_le (p : String) : named (parts (clean p)) ≤ (simplify p).length := by
  rcases parts_clean p with hparts | hparts | ⟨-, hparts⟩
  · rw [hparts]
    exact named_le_length _
  · rw [hparts]
    have hnone : named ("" :: simplify p) = named (simplify p) := by simp [named]
    rw [hnone]
    exact named_le_length _
  · have hzero : named (parts (clean p)) = 0 := by
      refine List.countP_eq_zero.mpr fun part hpart => ?_
      rcases hparts part hpart with rfl | rfl <;> simp
    omega

/-- The text up to the last slash has the parts of the whole but the last, and an empty one. -/
theorem parts_upToSlash (p : String) :
    parts (String.ofList (p.toList.reverse.dropWhile (· ≠ '/')).reverse) =
      (parts p).dropLast ++ [""] := by
  have htext := List.takeWhile_append_dropWhile (p := (· ≠ '/')) (l := p.toList.reverse)
  generalize hafter : p.toList.reverse.takeWhile (· ≠ '/') = after at htext
  have hnone : ∀ c ∈ after.reverse, (c == '/') = false := by
    intro c hc
    rw [← hafter, List.mem_reverse] at hc
    simpa using List.mem_takeWhile_imp hc
  cases hbefore : p.toList.reverse.dropWhile (· ≠ '/') with
  | nil =>
      have hp : p.toList = after.reverse := by
        rw [hbefore, List.append_nil] at htext
        rw [htext, List.reverse_reverse]
      rw [parts, parts, hp, Text.splitBy_eq_splitOnP after.reverse,
        List.splitOnP_eq_singleton hnone]
      rfl
  | cons c before =>
      have hc : c = '/' := by
        have hhead := List.head?_dropWhile_not (· ≠ '/') p.toList.reverse
        rw [hbefore] at hhead
        simpa using hhead
      have hp : p.toList = before.reverse ++ '/' :: after.reverse := by
        rw [hbefore, hc] at htext
        rw [← List.reverse_reverse p.toList, ← htext]
        simp
      simp only [parts, hp, String.toList_ofList, List.reverse_cons, hc, Text.splitBy_eq_splitOnP]
      rw [List.splitOnP_append_cons _ _ rfl, List.splitOnP_append_cons _ _ rfl,
        List.splitOnP_eq_singleton hnone]
      simp

/-! ## Joined paths -/

section Join

variable {dir name : String}

theorem join_eq_clean (hdir : dir ≠ "") (hname : name ≠ "") :
    join dir name = clean (dir ++ "/" ++ name) := by
  have hdir' : dir.isEmpty = false :=
    Bool.eq_false_iff.mpr fun hempty => hdir (String.isEmpty_iff.mp hempty)
  have hname' : name.isEmpty = false :=
    Bool.eq_false_iff.mpr fun hempty => hname (String.isEmpty_iff.mp hempty)
  rw [join, hdir', hname']
  rfl

theorem isAbsolute_join (hdir : dir ≠ "") (hname : Proper name) :
    isAbsolute (join dir name) = isAbsolute dir := by
  rw [join_eq_clean hdir hname.nonempty, isAbsolute_clean, String.append_assoc,
    isAbsolute_append hdir]

theorem simplify_join (hdir : dir ≠ "") (hname : Proper name) :
    simplify (join dir name) = simplify dir ++ [name] := by
  have habs : isAbsolute (dir ++ "/" ++ name) = isAbsolute dir := by
    rw [String.append_assoc, isAbsolute_append hdir]
  rw [join_eq_clean hdir hname.nonempty, simplify_clean, simplify, simplify, habs, parts_append,
    parts_of_noSlash hname.noSlash, List.foldl_append, List.foldl_cons, step_proper hname,
    List.foldl_nil, List.reverse_cons]

theorem named_dropLast_parts_join_le (hdir : dir ≠ "") (hname : Proper name) :
    named (parts (join dir name)).dropLast ≤ (simplify dir).length := by
  have hsimple : simplify (dir ++ "/" ++ name) = simplify dir ++ [name] := by
    rw [← simplify_clean, ← join_eq_clean hdir hname.nonempty, simplify_join hdir hname]
  rw [join_eq_clean hdir hname.nonempty]
  rcases parts_clean (dir ++ "/" ++ name) with hparts | hparts | ⟨hnil, -⟩
  · rw [hparts, hsimple, List.dropLast_concat]
    exact named_le_length _
  · rw [hparts, hsimple, ← List.cons_append, List.dropLast_concat, named_cons]
    exact (Nat.zero_add _).trans_le (named_le_length _)
  · rw [hsimple] at hnil
    exact absurd hnil (List.append_ne_nil_of_right_ne_nil _ (List.cons_ne_nil _ _))

end Join

/-! ## Slashes at the end -/

theorem trimEnd_append_replicate (c : Char) (cs : List Char) :
    ∃ k, cs = Text.trimEnd (· == c) cs ++ List.replicate k c := by
  obtain ⟨trail, hcs, htrail⟩ := Text.exists_trimEnd_append (· == c) cs
  have hall : trail = List.replicate trail.length c :=
    List.eq_replicate_iff.mpr ⟨rfl, fun x hx => eq_of_beq (htrail x hx)⟩
  exact ⟨trail.length, hcs.trans (congrArg _ hall)⟩

/-- Only slashes are left out, and never all of a path. -/
theorem trimSlashes_append (p : String) :
    ∃ k, p = trimSlashes p ++ String.ofList (List.replicate k '/') ∧
      (trimSlashes p = "" → p = "") := by
  obtain ⟨k, hk⟩ := trimEnd_append_replicate '/' p.toList
  by_cases hbody : Text.trimEnd (· == '/') p.toList = []
  · rw [hbody, List.nil_append] at hk
    cases k with
    | zero =>
        have hp : p = "" := by simpa using hk
        subst hp
        exact ⟨0, by decide, fun _ => rfl⟩
    | succ k =>
        have habs : isAbsolute p = true := by
          rw [isAbsolute, hk]
          rfl
        have htrim : trimSlashes p = "/" := by simp [trimSlashes, hbody, habs]
        rw [htrim]
        refine ⟨k, String.toList_injective (by simpa [List.replicate_succ] using hk), ?_⟩
        exact fun hslash => absurd hslash (by decide)
  · have htrim : trimSlashes p = String.ofList (Text.trimEnd (· == '/') p.toList) := by
      simp [trimSlashes, hbody]
    rw [htrim]
    refine ⟨k, String.toList_injective (by simpa using hk), fun hempty => absurd ?_ hbody⟩
    simpa using congrArg String.toList hempty

theorem isAbsolute_trimSlashes (p : String) : isAbsolute (trimSlashes p) = isAbsolute p := by
  obtain ⟨k, hp, hempty⟩ := trimSlashes_append p
  by_cases htrim : trimSlashes p = ""
  · rw [htrim, hempty htrim]
  · conv_rhs => rw [hp]
    rw [isAbsolute_append htrim]

theorem simplify_trimSlashes (p : String) : simplify (trimSlashes p) = simplify p := by
  obtain ⟨k, hp, -⟩ := trimSlashes_append p
  have hparts : parts p = parts (trimSlashes p) ++ List.replicate k "" := by
    conv_lhs => rw [hp]
    rw [parts, String.toList_append, String.toList_ofList, Text.splitBy_append_seps rfl,
      List.map_append, List.map_replicate]
    rfl
  have hblank : ∀ part ∈ List.replicate k "", part = "" ∨ part = "." :=
    fun part hpart => Or.inl (List.eq_of_mem_replicate hpart)
  rw [simplify, simplify, hparts, List.foldl_append, isAbsolute_trimSlashes,
    foldl_step_blank _ _ _ hblank]

/-! ## The way of a path -/

/-- A path on the way ends where a part of the whole path does. -/
theorem cut_of_mem_ancestryFrom (cs : List Char) :
    ∀ (seen : List Char) (q : String), q ∈ ancestryFrom seen cs →
      q.toList = seen.reverse ++ cs ∨
        q ≠ "" ∧ ∃ after, seen.reverse ++ cs = q.toList ++ '/' :: after := by
  induction cs with
  | nil =>
      intro seen q hq
      obtain rfl := List.mem_singleton.mp hq
      simp
  | cons c cs ih =>
      intro seen q hq
      rw [ancestryFrom] at hq
      rcases List.mem_append.mp hq with hhere | hlater
      · split at hhere
        · rename_i hcut
          obtain ⟨rfl, hseen, -⟩ := hcut
          obtain rfl := List.mem_singleton.mp hhere
          rw [String.toList_ofList]
          refine Or.inr ⟨fun hempty => ?_, cs, rfl⟩
          have hnil : seen = [] := by simpa using congrArg String.toList hempty
          simp [hnil] at hseen
        · cases hhere
      · have hrest := ih (c :: seen) q hlater
        rwa [List.reverse_cons, List.append_assoc, List.singleton_append] at hrest

/-- A path on the way is the whole path, or what stands before one of its slashes. -/
theorem cut_of_mem_ancestry {p q : String} (h : q ∈ ancestry p) :
    q = p ∨ q ≠ "" ∧ ∃ after, p = q ++ "/" ++ after := by
  rcases cut_of_mem_ancestryFrom p.toList [] q h with hwhole | ⟨hne, after, hafter⟩
  · exact Or.inl (String.toList_injective hwhole)
  · refine Or.inr ⟨hne, String.ofList after, String.toList_injective ?_⟩
    simpa using hafter

/-- The parts of a path on the way are parts of the whole path. -/
theorem parts_of_mem_ancestry {p q : String} (h : q ∈ ancestry p) :
    ∃ rest, parts p = parts q ++ rest := by
  rcases cut_of_mem_ancestry h with rfl | ⟨-, after, rfl⟩
  · exact ⟨[], (List.append_nil _).symm⟩
  · exact ⟨_, parts_append q after⟩

end Path

/-! ## Places -/

namespace Location

/-- Where a path leads if nothing is in the way. -/
def ofPath (p : String) : Location := ⟨Path.isAbsolute p, Path.simplify p⟩

/-- The entry of a name in a folder. -/
def below (l : Location) (name : String) : Location := { l with names := l.names ++ [name] }

@[simp] theorem below_inj {l : Location} {a b : String} : l.below a = l.below b ↔ a = b := by
  simp [below]

/-- **A joined path leads to the entry of its name.** -/
theorem ofPath_join {dir name : String} (hdir : dir ≠ "") (hname : Path.Proper name) :
    ofPath (Path.join dir name) = (ofPath dir).below name := by
  rw [ofPath, Path.isAbsolute_join hdir hname, Path.simplify_join hdir hname]
  rfl

/-- A path and the path without the slashes at its end lead to one place. -/
theorem ofPath_trimSlashes (p : String) : ofPath (Path.trimSlashes p) = ofPath p := by
  rw [ofPath, ofPath, Path.isAbsolute_trimSlashes, Path.simplify_trimSlashes]

/-- No folder on the way to an entry of a folder lies deeper than the folder. -/
theorem length_parent_join_le {dir name : String} (hdir : dir ≠ "") (hname : Path.Proper name)
    {q : String} (hq : q ∈ Path.ancestry (Path.parent (Path.join dir name))) :
    (ofPath q).names.length ≤ (ofPath dir).names.length := by
  let before : String :=
    String.ofList ((Path.join dir name).toList.reverse.dropWhile (· ≠ '/')).reverse
  obtain ⟨rest, hrest⟩ := Path.parts_of_mem_ancestry hq
  -- Names are counted, since parts that lead back keep texts on the way from being compared.
  calc (Path.simplify q).length
      ≤ Path.named (Path.parts q) := Path.length_simplify_le q
    _ ≤ Path.named (Path.parts (Path.clean before)) := by
        rw [show Path.parts (Path.clean before) = Path.parts q ++ rest from hrest,
          Path.named_append]
        exact Nat.le_add_right _ _
    _ ≤ (Path.simplify before).length := Path.named_parts_clean_le before
    _ ≤ Path.named (Path.parts before) := Path.length_simplify_le before
    _ = Path.named (Path.parts (Path.join dir name)).dropLast := by
        rw [Path.parts_upToSlash, Path.named_append]
        rfl
    _ ≤ (Path.simplify dir).length := Path.named_dropLast_parts_join_le hdir hname

end Location

end WireSchema

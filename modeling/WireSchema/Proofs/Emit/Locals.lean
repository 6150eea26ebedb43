import Mathlib
import WireSchema.Proofs.Emit.Members
import WireSchema.Proofs.Emit.Words
import WireSchema.Proofs.Message.Runtime
import WireSchema.Proofs.Plan.Pairing
import WireSchema.Proofs.Plan.Total

/-!
# The local variables of the reading method

The method that reads a message declares variables on its way: one for every count that a list needs
later, one for the vetted length of every list of numbers.  They are named after the fields.  A
program in which a variable is declared twice, used before it is declared or never used is refused,
so the names and the order of the lines have to fit.

Names fit because stored fields are checked against one another: two fields whose names differ only
in the case of their first letter are stored under one name.  The order fits because a plan is
sound: the count of a list is kept, and read before the list.

What a line declares and uses is read off its words; `accesses_ofStep` says which steps of a plan
this comes from.

## Main results

* `scoped_decode` — no variable is declared twice or used before its declaration.
* `declared_decode_iff`, `used_of_declared` — every variable belongs to a list, and is used.
* `readStmts_locals` — the lines of the reading method of an accepted plan.
-/

namespace WireSchema

open Plan (Field DecodeStep)

namespace Emit

/-! ## Accesses to local variables -/

/-- A step in the life of a local variable. -/
inductive Access where
  | declare (v : String)
  | use (v : String)
  deriving DecidableEq, Repr

/-- What a line does to some variables, in order: a declaration comes after its right side. -/
def CodeLine.accesses (vars : List String) (c : CodeLine) : List Access :=
  (c.uses.filter vars.contains).map .use ++ c.local?.toList.map .declare

/-- The variables that are declared, in order. -/
def declared (as : List Access) : List String :=
  as.filterMap fun
    | .declare v => some v
    | .use _ => none

/-- Accesses that can be made in order where the variables of `scope` are declared: what is declared
is new, and what is used has been declared. -/
def Scoped : (scope : List String) → List Access → Prop
  | _, [] => True
  | scope, .declare v :: rest => v ∉ scope ∧ Scoped (v :: scope) rest
  | scope, .use v :: rest => v ∈ scope ∧ Scoped scope rest

theorem mem_declared {as : List Access} {v : String} : v ∈ declared as ↔ .declare v ∈ as := by
  rw [declared, List.mem_filterMap]
  constructor
  · rintro ⟨a, ha, heq⟩
    cases a with
    | declare w => exact Option.some.inj heq ▸ ha
    | use w => cases heq
  · exact fun h => ⟨_, h, rfl⟩

theorem declared_append (as bs : List Access) : declared (as ++ bs) = declared as ++ declared bs :=
  List.filterMap_append

theorem scoped_append {scope : List String} {as bs : List Access} :
    Scoped scope (as ++ bs) ↔ Scoped scope as ∧ Scoped ((declared as).reverse ++ scope) bs := by
  induction as generalizing scope with
  | nil => exact (true_and _).symm ▸ Iff.rfl
  | cons a as ih =>
      cases a with
      | declare v =>
          have hscope : (declared (.declare v :: as)).reverse ++ scope =
              (declared as).reverse ++ v :: scope := by
            rw [show declared (.declare v :: as) = v :: declared as from rfl, List.reverse_cons,
              List.append_assoc, List.singleton_append]
          rw [List.cons_append, Scoped, Scoped, ih, hscope, and_assoc]
      | use v =>
          rw [List.cons_append, Scoped, Scoped, ih, and_assoc]
          rfl

/-- What is declared in order is declared once, and new. -/
theorem Scoped.fresh {scope : List String} {as : List Access} (h : Scoped scope as) :
    (declared as).Nodup ∧ (declared as).Disjoint scope := by
  induction as generalizing scope with
  | nil => exact ⟨List.nodup_nil, List.disjoint_nil_left _⟩
  | cons a as ih =>
      cases a with
      | declare v =>
          obtain ⟨hnodup, hdisjoint⟩ := ih h.2
          obtain ⟨hnew, hrest⟩ := List.disjoint_cons_right.mp hdisjoint
          exact ⟨List.nodup_cons.mpr ⟨hnew, hnodup⟩, List.disjoint_cons_left.mpr ⟨h.1, hrest⟩⟩
      | use v => exact ih h.2

/-! ## The names of local variables -/

section Names

variable {f g : String}

theorem getLast?_countVar (f : String) : (countVar f).toList.getLast? = some 't' := by
  simp [countVar]

theorem getLast?_lengthVar (f : String) : (lengthVar f).toList.getLast? = some 'n' := by
  simp [lengthVar]

theorem countVar_ne_lengthVar (f g : String) : countVar f ≠ lengthVar g := by
  intro h
  have hlast := getLast?_countVar f
  rw [h, getLast?_lengthVar] at hlast
  exact absurd hlast (by decide)

theorem lowerFirst_of_countVar (h : countVar f = countVar g) :
    Naming.lowerFirst f = Naming.lowerFirst g := by
  simpa [countVar] using h

theorem lowerFirst_of_lengthVar (h : lengthVar f = lengthVar g) :
    Naming.lowerFirst f = Naming.lowerFirst g := by
  simpa [lengthVar] using h

/-- Fields of an accepted plan differ beyond the case of their first letter. -/
theorem NamesFit.field_unique {p : Plan} (h : NamesFit p) {f g : Field} (hf : f ∈ p.fields)
    (hg : g ∈ p.fields) (hname : Naming.lowerFirst f.name = Naming.lowerFirst g.name) : f = g := by
  refine List.inj_on_of_nodup_map h.stored hf hg ?_
  show fieldIdent f.name = fieldIdent g.name
  rw [fieldIdent, hname, ← fieldIdent]

/-- A stored field is a word before it is escaped. -/
theorem isWord_lowerFirst (h : isIdent (fieldIdent f) = true) :
    isWord (Naming.lowerFirst f).toList = true := by
  have hescaped : ∀ s ∈ constructName :: keywords, isWord s.toList = true := by decide
  dsimp only [fieldIdent] at h
  split at h
  · rename_i hmem
    refine hescaped _ ?_
    rw [Bool.or_eq_true, List.contains_iff_mem, beq_iff_eq] at hmem
    exact List.mem_cons.mpr hmem.symm
  · exact (Bool.and_eq_true_iff.mp h).1

/-- Words with an ending that no keyword has are identifiers. -/
theorem isIdent_of_ending {s t : String} (hs : isWord s.toList = true) (ht : isWord t.toList = true)
    (hfree : ∀ k ∈ keywords, ¬ t.toList <:+ k.toList) : isIdent (s ++ t) = true := by
  have hword : isWord (s ++ t).toList = true := by
    rw [String.toList_append]
    exact isWord_append hs ht
  have hnew : s ++ t ∉ keywords := fun hmem => by
    refine hfree _ hmem ?_
    rw [String.toList_append]
    exact List.suffix_append _ _
  rw [isIdent, hword]
  simpa using hnew

end Names

/-! ## Steps -/

/-- What the statement of a step does to local variables. -/
def stepAccesses : DecodeStep → List Access
  | .count f _ _ discard => if discard then [] else [.declare (countVar f)]
  | .variableList _ (.message _) n => [.use (countVar n)]
  | .variableList f (.primitive _) n =>
      [.use (countVar n), .declare (lengthVar f), .use (lengthVar f), .use (lengthVar f)]
  | .parent _ | .primitive .. | .reference .. | .fixedList .. => []

/-- What a step declares is named after its field. -/
theorem declared_stepAccesses {step : DecodeStep} {v : String}
    (h : v ∈ declared (stepAccesses step)) :
    v = countVar step.field ∨ v = lengthVar step.field := by
  rw [mem_declared] at h
  cases step with
  | count f list t discard =>
      cases discard with
      | false =>
          left
          simpa [stepAccesses, DecodeStep.field] using h
      | true => cases h
  | variableList f e n =>
      cases e with
      | message type => simp [stepAccesses] at h
      | primitive t =>
          right
          simpa [stepAccesses, DecodeStep.field] using h
  | parent | primitive | reference | fixedList => cases h

section Sound

variable {p : Plan} {v : String}

theorem field_stepOf (p : Plan) (f : Field) : (p.stepOf f).field = f.name := by
  unfold Plan.stepOf Field.step
  split
  · split
    · split <;> rfl
    · rfl
  all_goals rfl

/-- Different fields declare different variables. -/
theorem NamesFit.declares_unique (h : NamesFit p) {f g : Field} (hf : f ∈ p.fields)
    (hg : g ∈ p.fields) (hvf : v ∈ declared (stepAccesses (p.stepOf f)))
    (hvg : v ∈ declared (stepAccesses (p.stepOf g))) : f = g := by
  have hvf := declared_stepAccesses hvf
  have hvg := declared_stepAccesses hvg
  rw [field_stepOf] at hvf hvg
  refine h.field_unique hf hg ?_
  rcases hvf with rfl | rfl <;> rcases hvg with hvg | hvg
  · exact lowerFirst_of_countVar hvg
  · exact absurd hvg (countVar_ne_lengthVar _ _)
  · exact absurd hvg.symm (countVar_ne_lengthVar _ _)
  · exact lowerFirst_of_lengthVar hvg

/-- A step that declares something is no parent's. -/
theorem ne_parent_of_declared {step : DecodeStep} (h : v ∈ declared (stepAccesses step))
    (name : String) : step ≠ .parent name := by
  rintro rfl
  cases h

/-- What a step declares has not been declared before. -/
theorem fresh_step (hp : p.Sound) (hfit : NamesFit p) {pre post : List DecodeStep}
    {step : DecodeStep} (hsplit : p.decode = pre ++ step :: post)
    (hv : v ∈ declared (stepAccesses step)) : v ∉ declared (pre.flatMap stepAccesses) := by
  obtain ⟨before, f, after, hfields, rfl, rfl, -⟩ :=
    hp.decode_split hsplit (ne_parent_of_declared hv)
  intro hdeclared
  rw [mem_declared, List.mem_flatMap] at hdeclared
  obtain ⟨earlier, hearlier, hvg⟩ := hdeclared
  rw [← mem_declared] at hvg
  obtain ⟨g, hg, rfl⟩ : ∃ g ∈ before, p.stepOf g = earlier := by
    rcases List.mem_append.mp hearlier with hparent | hfield
    · rw [Plan.parentSteps] at hparent
      split at hparent
      · exact absurd (List.mem_singleton.mp hparent) (ne_parent_of_declared hvg _)
      · cases hparent
    · exact List.mem_map.mp hfield
  have hmem : ∀ {k}, k ∈ p.wireFields → k ∈ p.fields := fun hk => (Plan.mem_wireFields.mp hk).1
  obtain rfl := hfit.declares_unique (hmem (by simp [hfields]))
    (hmem (by simp [hfields, hg])) hv hvg
  have hnodup := hp.wireFields_nodup
  rw [hfields, List.map_append, List.map_cons] at hnodup
  exact (List.nodup_append.mp hnodup).2.2 _ (List.mem_map_of_mem hg) _ List.mem_cons_self rfl

/-- The receiver of a method and the reader it is given. -/
def parameters : List String := ["m", "r"]

theorem notMem_parameters {step : DecodeStep} (h : v ∈ declared (stepAccesses step)) :
    v ∉ parameters := by
  have hlast : v.toList.getLast? ∈ [some 't', some 'n'] := by
    rcases declared_stepAccesses h with rfl | rfl
    · rw [getLast?_countVar]
      exact List.mem_cons_self
    · rw [getLast?_lengthVar]
      exact List.mem_cons_of_mem _ List.mem_cons_self
  have hparameters : ∀ w ∈ parameters, w.toList.getLast? ∉ [some 't', some 'n'] := by decide
  exact fun hmem => hparameters v hmem hlast

/-- The count of a list was declared when the list comes up. -/
theorem declared_count (hp : p.Sound) {pre post : List DecodeStep} {f n : String} {e : Element}
    (hsplit : p.decode = pre ++ .variableList f e n :: post) :
    countVar n ∈ declared (pre.flatMap stepAccesses) := by
  have hkept : 0 < pre.countP (·.keepsCount n) := hp.paired.list pre f e n post hsplit ▸ Nat.one_pos
  obtain ⟨step, hstep, hkeeps⟩ := List.countP_pos_iff.mp hkept
  obtain ⟨list, t, rfl⟩ := Plan.DecodeStep.keepsCount_iff.mp hkeeps
  exact mem_declared.mpr (List.mem_flatMap.mpr ⟨_, hstep, List.mem_singleton_self _⟩)

/-- One step: its accesses can be made after those before it. -/
theorem scoped_step (hp : p.Sound) (hfit : NamesFit p) {pre post : List DecodeStep}
    {step : DecodeStep} (hsplit : p.decode = pre ++ step :: post) :
    Scoped ((declared (pre.flatMap stepAccesses)).reverse ++ parameters) (stepAccesses step) := by
  have hnew : ∀ v ∈ declared (stepAccesses step),
      v ∉ (declared (pre.flatMap stepAccesses)).reverse ++ parameters := by
    intro v hv hmem
    rcases List.mem_append.mp hmem with hmem | hmem
    · exact fresh_step hp hfit hsplit hv (List.mem_reverse.mp hmem)
    · exact notMem_parameters hv hmem
  cases step with
  | count f list t discard =>
      cases discard with
      | true => trivial
      | false => exact ⟨hnew _ (List.mem_singleton_self _), trivial⟩
  | variableList f e n =>
      have hcount := List.mem_append_left parameters
        (List.mem_reverse.mpr (declared_count hp hsplit))
      cases e with
      | message type => exact ⟨hcount, trivial⟩
      | primitive t =>
          exact ⟨hcount, hnew _ (List.mem_singleton_self _), List.mem_cons_self,
            List.mem_cons_self, trivial⟩
  | parent | primitive | reference | fixedList => trivial

/-- **No variable of a reading method is declared twice or used before its declaration.** -/
theorem scoped_decode (hp : p.Sound) (hfit : NamesFit p) :
    Scoped parameters (p.decode.flatMap stepAccesses) := by
  suffices h : ∀ post pre, p.decode = pre ++ post →
      Scoped ((declared (pre.flatMap stepAccesses)).reverse ++ parameters)
        (post.flatMap stepAccesses) from h p.decode [] rfl
  intro post
  induction post with
  | nil => exact fun _ _ => trivial
  | cons step post ih =>
      intro pre hsplit
      rw [List.flatMap_cons, scoped_append]
      refine ⟨scoped_step hp hfit hsplit, ?_⟩
      have hnext := ih (pre ++ [step]) (by simp [hsplit])
      rwa [List.flatMap_append, List.flatMap_singleton, declared_append, List.reverse_append,
        List.append_assoc] at hnext

/-- The list of a count that is kept comes later. -/
theorem exists_list_of_count (hp : p.Sound) {k list : String} {t : Primitive}
    (h : .count k list t false ∈ p.decode) : ∃ f e, .variableList f e k ∈ p.decode := by
  obtain ⟨pre, post, hsplit⟩ := List.append_of_mem h
  have huses : 0 < post.countP (·.usesCount k) :=
    hp.paired.count pre k list t post hsplit ▸ Nat.one_pos
  obtain ⟨later, hlater, hk⟩ := List.countP_pos_iff.mp huses
  obtain ⟨f, e, rfl⟩ := Plan.DecodeStep.usesCount_iff.mp hk
  exact ⟨f, e, by simp [hsplit, hlater]⟩

/-- What is declared belongs to a list on the wire. -/
theorem declared_decode_iff (hp : p.Sound) : v ∈ declared (p.decode.flatMap stepAccesses) ↔
    ∃ l ∈ p.wireFields, l.shape = .variableList ∧
      (v = countVar l.countField ∨ v = lengthVar l.name ∧ ∃ t, l.elem = .primitive t) := by
  constructor
  · intro hv
    obtain ⟨step, hstep, hv⟩ := List.mem_flatMap.mp (mem_declared.mp hv)
    cases step with
    | count k list t discard =>
        cases discard with
        | true => cases hv
        | false =>
            obtain rfl : v = countVar k := by simpa [stepAccesses] using hv
            obtain ⟨f, e, hlist⟩ := exists_list_of_count hp hstep
            obtain ⟨l, hl, hof⟩ := hp.exists_wireField hlist (by simp)
            obtain ⟨hshape, -, -, hcount⟩ := Plan.Field.step_eq_variableList hof
            exact ⟨l, hl, hshape, .inl (by rw [hcount])⟩
    | variableList f e n =>
        obtain ⟨l, hl, hof⟩ := hp.exists_wireField hstep (by simp)
        obtain ⟨hshape, rfl, rfl, -⟩ := Plan.Field.step_eq_variableList hof
        refine ⟨l, hl, hshape, .inr ?_⟩
        cases helem : l.elem with
        | message type => simp [helem, stepAccesses] at hv
        | primitive t => exact ⟨by simpa [helem, stepAccesses] using hv, t, rfl⟩
    | parent | primitive | reference | fixedList => cases hv
  · rintro ⟨l, hl, hshape, hv⟩
    have hstep : .variableList l.name l.elem l.countField ∈ p.decode := by
      rw [← Plan.Field.step_variableList hshape]
      exact hp.decode ▸ List.mem_append_right _ (List.mem_map_of_mem hl)
    rcases hv with rfl | ⟨rfl, t, helem⟩
    · obtain ⟨pre, post, hsplit⟩ := List.append_of_mem hstep
      rw [hsplit, List.flatMap_append, declared_append]
      exact List.mem_append_left _ (declared_count hp hsplit)
    · rw [mem_declared, List.mem_flatMap]
      exact ⟨_, hstep, by simp [helem, stepAccesses]⟩

/-- **Every variable that is declared is used.** -/
theorem used_of_declared (hp : p.Sound) (hv : v ∈ declared (p.decode.flatMap stepAccesses)) :
    .use v ∈ p.decode.flatMap stepAccesses := by
  obtain ⟨l, hl, hshape, hv⟩ := (declared_decode_iff hp).mp hv
  refine List.mem_flatMap.mpr ⟨.variableList l.name l.elem l.countField, ?_, ?_⟩
  · rw [← Plan.Field.step_variableList hshape]
    exact hp.decode ▸ List.mem_append_right _ (List.mem_map_of_mem hl)
  · rcases hv with rfl | ⟨rfl, t, helem⟩
    · cases l.elem <;> exact List.mem_cons_self
    · simp [helem, stepAccesses]

/-- What a field declares is an identifier. -/
theorem isIdent_of_declared (hp : p.Sound) (hfit : NamesFit p)
    (hv : v ∈ declared (p.decode.flatMap stepAccesses)) : isIdent v = true := by
  obtain ⟨step, hstep, hv⟩ := List.mem_flatMap.mp (mem_declared.mp hv)
  rw [← mem_declared] at hv
  obtain ⟨f, hf, rfl⟩ := hp.exists_wireField hstep (ne_parent_of_declared hv)
  have hword := isWord_lowerFirst (hfit.idents f (Plan.mem_wireFields.mp hf).1).1
  have hnames := declared_stepAccesses hv
  rw [field_stepOf] at hnames
  rcases hnames with rfl | rfl
  · exact isIdent_of_ending hword (by decide) (by decide)
  · exact isIdent_of_ending hword (by decide) (by decide)

/-! ## Statements -/

/-- The count of a list of an accepted plan has a name. -/
theorem isEmpty_countField (hp : p.Sound) (hfit : NamesFit p) {l : Field} (hl : l ∈ p.fields)
    (hshape : l.shape = .variableList) : l.countField.isEmpty = false := by
  obtain ⟨-, k, hk, hname, -⟩ := hp.of_variableList hl hshape
  rw [← hname, Bool.eq_false_iff]
  intro hempty
  have hident := (hfit.idents k hk).1
  rw [String.isEmpty_iff.mp hempty] at hident
  exact absurd hident (by decide)

/-- Every step of an accepted plan has a statement. -/
theorem readStmts_total (hp : p.Sound) (hfit : NamesFit p) : ∃ stmts, readStmts p = .ok stmts := by
  refine Plan.mapM_total p.decode fun step hstep => ?_
  cases step with
  | fixedList f n e => cases e <;> exact ⟨_, rfl⟩
  | variableList f e n =>
      obtain ⟨l, hl, hof⟩ := hp.exists_wireField hstep (by simp)
      obtain ⟨hshape, -, -, rfl⟩ := Plan.Field.step_eq_variableList hof
      have hnamed := isEmpty_countField hp hfit (Plan.mem_wireFields.mp hl).1 hshape
      cases e <;> simp [ReadStmt.ofStep, hnamed]
  | parent | primitive | count | reference => exact ⟨_, rfl⟩

/-- The statement of a step that is there. -/
theorem exists_stmt {type : String} {steps : List DecodeStep} {stmts : List ReadStmt}
    (h : List.Forall₂ (fun step s => ReadStmt.ofStep type step = .ok s) steps stmts)
    {step : DecodeStep} (hstep : step ∈ steps) :
    ∃ s ∈ stmts, ReadStmt.ofStep type step = .ok s := by
  obtain ⟨i, hi⟩ := List.mem_iff_getElem?.mp hstep
  obtain ⟨s, hs, hof⟩ := Plan.forall₂_getElem? h hi
  exact ⟨s, List.mem_of_getElem? hs, hof⟩

end Sound

/-! ## The words of statements -/

section Words

/-- A variable of the kind that reading methods declare. -/
def IsLocal (v : String) : Prop := ∃ f, v = countVar f ∨ v = lengthVar f

/-- The words of a reading method that name neither a variable of it nor what it reads. -/
def fixedNames : List String :=
  [ "if", "err", "m", "r", "nil", "return", "for", "i", "range", "_", "append", "e", "uint64",
    "make", "0"]

variable {vars : List String} {type v : String} {step : DecodeStep} {s : ReadStmt}

theorem IsLocal.ending (h : IsLocal v) :
    "Count".toList <:+ v.toList ∨ "Len".toList <:+ v.toList := by
  obtain ⟨f, rfl | rfl⟩ := h
  · exact .inl (by simp [countVar])
  · exact .inr (by simp [lengthVar])

theorem IsLocal.head?_ne (h : IsLocal v) : v.toList.head? ≠ some 'N' := by
  have hlower : ∀ f t : String, t.toList.head? ≠ some 'N' →
      (Naming.lowerFirst f ++ t).toList.head? ≠ some 'N' := by
    intro f t ht
    rw [String.toList_append, Naming.lowerFirst_toList]
    cases f.toList with
    | nil => simpa using ht
    | cons c cs =>
        intro hhead
        have hc : Text.toLower c = 'N' := by simpa using hhead
        have hupper := Text.isUpper_toLower c
        rw [hc] at hupper
        exact absurd hupper (by decide)
  obtain ⟨f, rfl | rfl⟩ := h
  · exact hlower f "Count" (by decide)
  · exact hlower f "Len" (by decide)

theorem not_isLocal (h : ¬ ("Count".toList <:+ v.toList ∨ "Len".toList <:+ v.toList)) :
    ¬ IsLocal v := mt IsLocal.ending h

theorem not_isLocal_fixed (h : v ∈ fixedNames) : ¬ IsLocal v := by
  refine not_isLocal ?_
  revert v
  decide

theorem not_isLocal_typeName (k : Kind) : ¬ IsLocal k.typeName := by
  refine not_isLocal ?_
  cases k <;> decide

theorem not_isLocal_bytes (k : Kind) : ¬ IsLocal k.bytes.repr := by
  refine not_isLocal ?_
  cases k <;> decide

theorem not_isLocal_new (type : String) : ¬ IsLocal ("New" ++ type) := fun h =>
  h.head?_ne (by simp)

theorem fixed_notMem (hvars : ∀ v ∈ vars, IsLocal v) : ∀ w ∈ fixedNames, w ∉ vars :=
  fun w hw => mt (hvars w) (not_isLocal_fixed hw)

theorem bytes_notMem (hvars : ∀ v ∈ vars, IsLocal v) (k : Kind) : k.bytes.repr ∉ vars :=
  mt (hvars _) (not_isLocal_bytes k)

/-- What the lines of a step declare. -/
theorem locals_ofStep (h : ReadStmt.ofStep type step = .ok s) :
    locals s.code = declared (stepAccesses step) := by
  cases step with
  | count f list t discard =>
      cases h
      cases discard <;> rfl
  | fixedList f n e => cases e <;> cases h <;> rfl
  | variableList f e n =>
      unfold ReadStmt.ofStep at h
      dsimp only at h
      split at h
      · cases h
      · cases e <;> cases h <;> rfl
  | parent | primitive | reference =>
      cases h
      rfl

/-- What the lines of a step do to variables. -/
theorem accesses_ofStep (hvars : ∀ v ∈ vars, IsLocal v)
    (huse : ∀ v, .use v ∈ stepAccesses step → v ∈ vars) (h : ReadStmt.ofStep type step = .ok s) :
    s.code.flatMap (CodeLine.accesses vars) = stepAccesses step := by
  have hfixed := fixed_notMem hvars
  have hnew : ∀ c, "New" ++ c ∉ vars := fun c => mt (hvars _) (not_isLocal_new c)
  have htype : ∀ k : Kind, k.typeName ∉ vars := fun k => mt (hvars _) (not_isLocal_typeName k)
  simp only [fixedNames, List.forall_mem_cons] at hfixed
  cases step with
  | count f list t discard =>
      cases h
      cases discard <;>
        simp [ReadStmt.code, CodeLine.accesses, CodeLine.uses, CodeLine.local?, stepAccesses,
          hfixed]
  | fixedList f n e =>
      cases e <;> cases h <;>
        simp [ReadStmt.code, CodeLine.accesses, CodeLine.uses, CodeLine.local?, stepAccesses,
          hfixed]
  | variableList f e n =>
      have hn : countVar n ∈ vars := huse _ (by cases e <;> simp [stepAccesses])
      unfold ReadStmt.ofStep at h
      dsimp only at h
      split at h
      · cases h
      · cases e with
        | message c =>
            cases h
            simp [ReadStmt.code, CodeLine.accesses, CodeLine.uses, CodeLine.local?, stepAccesses,
              hfixed, hnew, hn]
        | primitive t =>
            cases h
            have hl : lengthVar f ∈ vars := huse _ (by simp [stepAccesses])
            simp [ReadStmt.code, CodeLine.accesses, CodeLine.uses, CodeLine.local?, stepAccesses,
              hfixed, htype, bytes_notMem hvars, hn, hl, Primitive.wireBytes]
  | parent | primitive | reference =>
      cases h
      simp [ReadStmt.code, CodeLine.accesses, CodeLine.uses, CodeLine.local?, stepAccesses, hfixed]

/-- The list that is read where a line asks for a length: the line after the declaration of a length
makes room for it, the line before the head of a loop clears it. -/
def listRead (pre : List CodeLine) (c : CodeLine) (post : List CodeLine) : Option String :=
  (if c.local?.isSome then post.head? else pre.getLast?).bind CodeLine.target?

theorem accessor_ne_count (k : Kind) : k.accessor ≠ "Count" := by cases k <;> decide

/-- Only the lines of a variable list ask for a length. -/
theorem list_ofStep (h : ReadStmt.ofStep type step = .ok s) {c : CodeLine} (hc : c ∈ s.code)
    (hasks : c.asks = true) : ∃ f e n, step = .variableList f e n := by
  have hsilent : ¬ ∀ d ∈ s.code, d.asks = false := fun hall => by
    rw [hall c hc] at hasks
    cases hasks
  cases step with
  | variableList f e n => exact ⟨f, e, n, rfl⟩
  | count f list t discard =>
      cases h
      cases discard <;>
        exact absurd (by simp [ReadStmt.code, CodeLine.asks, accessor_ne_count]) hsilent
  | fixedList f n e =>
      cases e <;> cases h <;>
        exact absurd (by simp [ReadStmt.code, CodeLine.asks, accessor_ne_count]) hsilent
  | parent | primitive | reference =>
      cases h
      exact absurd (by simp [ReadStmt.code, CodeLine.asks, accessor_ne_count]) hsilent

/-- A line that asks, between lines that do not. -/
theorem asking_unique (front : List CodeLine) {back pre post : List CodeLine} {ask c : CodeLine}
    (h : front ++ ask :: back = pre ++ c :: post) (hasks : c.asks = true)
    (hfront : ∀ d ∈ front, d.asks = false) (hback : ∀ d ∈ back, d.asks = false) :
    front = pre ∧ ask = c ∧ back = post := by
  have hsilent : ∀ lines : List CodeLine, (∀ d ∈ lines, d.asks = false) → c ∉ lines := by
    intro lines hlines hmem
    rw [hlines c hmem] at hasks
    cases hasks
  exact (List.append_cons_inj_of_notMem (hsilent _ hfront) (hsilent _ hback)).mp h

/-- One line of a variable list asks for a length; it uses the variable of the count. -/
theorem asked_ofStep (hvars : ∀ v ∈ vars, IsLocal v)
    (huse : ∀ v, .use v ∈ stepAccesses step → v ∈ vars) (h : ReadStmt.ofStep type step = .ok s)
    {pre post : List CodeLine} {c : CodeLine} (hsplit : s.code = pre ++ c :: post)
    (hasks : c.asks = true) :
    ∃ f e n, step = .variableList f e n ∧ c.uses.filter vars.contains = [countVar n] ∧
      ∀ before after, listRead (before ++ pre) c (post ++ after) = some (fieldIdent f) := by
  obtain ⟨f, e, n, rfl⟩ :=
    list_ofStep h (hsplit ▸ List.mem_append_right _ List.mem_cons_self) hasks
  have hfixed := fixed_notMem hvars
  simp only [fixedNames, List.forall_mem_cons] at hfixed
  have hn : countVar n ∈ vars := huse _ (by cases e <;> simp [stepAccesses])
  unfold ReadStmt.ofStep at h
  dsimp only at h
  split at h
  · cases h
  · cases e with
    | message t =>
        cases h
        -- the line before the loop clears the list
        obtain ⟨rfl, rfl, rfl⟩ := asking_unique [_] hsplit hasks (by simp [CodeLine.asks])
          (by simp [CodeLine.asks])
        refine ⟨f, _, n, rfl, ?_, fun before after => ?_⟩
        · simp [CodeLine.uses, CodeLine.local?, hfixed, hn]
        · simp [listRead, CodeLine.local?, CodeLine.target?]
    | primitive t =>
        cases h
        obtain ⟨rfl, rfl, rfl⟩ := asking_unique [] hsplit hasks (by simp)
          (by simp [CodeLine.asks, accessor_ne_count])
        refine ⟨f, _, n, rfl, ?_, fun before after => ?_⟩
        · simp [CodeLine.uses, CodeLine.local?, hfixed, bytes_notMem hvars, hn,
            Primitive.wireBytes]
        · simp [listRead, CodeLine.local?, CodeLine.target?]

end Words

/-! ## The words of a body -/

section Body

variable {vars : List String} {type v : String} {steps : List DecodeStep} {stmts : List ReadStmt}

theorem locals_body
    (h : List.Forall₂ (fun step s => ReadStmt.ofStep type step = .ok s) steps stmts) :
    locals (bodyCode stmts) = declared (steps.flatMap stepAccesses) := by
  induction h with
  | nil => rfl
  | cons hstep _ ih =>
      rw [List.flatMap_cons, declared_append, ← ih, ← locals_ofStep hstep]
      exact List.filterMap_append

theorem accesses_body (hvars : ∀ v ∈ vars, IsLocal v)
    (h : List.Forall₂ (fun step s => ReadStmt.ofStep type step = .ok s) steps stmts)
    (huse : ∀ step ∈ steps, ∀ v, .use v ∈ stepAccesses step → v ∈ vars) :
    (bodyCode stmts).flatMap (CodeLine.accesses vars) = steps.flatMap stepAccesses := by
  induction h with
  | nil => rfl
  | cons hstep _ ih =>
      obtain ⟨hfirst, hrest⟩ := List.forall_mem_cons.mp huse
      rw [List.flatMap_cons, ← ih hrest, ← accesses_ofStep hvars hfirst hstep,
        ← List.flatMap_append]
      rfl

/-- A line of a body is a line of a statement. -/
theorem body_split {pre post : List CodeLine} {c : CodeLine}
    (h : bodyCode stmts = pre ++ c :: post) :
    ∃ before s after front rest, stmts = before ++ s :: after ∧ s.code = front ++ c :: rest ∧
      pre = bodyCode before ++ front ∧ post = rest ++ bodyCode after := by
  induction stmts generalizing pre with
  | nil => simp [bodyCode] at h
  | cons s stmts ih =>
      rw [bodyCode_cons] at h
      have hlater : ∀ lines, bodyCode stmts = lines ++ c :: post → pre = s.code ++ lines →
          ∃ before s' after front rest, s :: stmts = before ++ s' :: after ∧
            s'.code = front ++ c :: rest ∧ pre = bodyCode before ++ front ∧
            post = rest ++ bodyCode after := by
        intro lines hlines hpre
        obtain ⟨before, s', after, front, rest, rfl, hcode, rfl, rfl⟩ := ih hlines
        exact ⟨s :: before, s', after, front, rest, rfl, hcode,
          by rw [hpre, bodyCode_cons, List.append_assoc], rfl⟩
      rcases List.append_eq_append_iff.mp h with ⟨lines, hpre, hlines⟩ | ⟨lines, hcode, hpost⟩
      · exact hlater lines hlines hpre
      · cases lines with
        | nil => exact hlater [] hpost.symm (by simpa using hcode.symm)
        | cons d lines =>
            obtain ⟨rfl, rfl⟩ := List.cons_eq_cons.mp hpost
            exact ⟨[], s, stmts, pre, lines, rfl, hcode, rfl, rfl⟩

end Body

/-- The types that the steps of a plan name. -/
def namedTypes (p : Plan) : List String :=
  p.decode.flatMap fun
    | .parent t | .variableList _ (.message t) _ => [typeName t]
    | _ => []

/-- The variables that a reading method could declare. -/
def possibleLocals (p : Plan) : List String :=
  p.fields.flatMap fun f => [countVar f.name, lengthVar f.name]

/-- How the lines of the reading method of a plan use local variables. -/
structure LocalsFit (p : Plan) (code : List CodeLine) : Prop where
  /-- There is one for the count of each list on the wire, and one for the length of each of these
  that holds numbers. -/
  locals : ∀ v, v ∈ locals code ↔ ∃ l ∈ p.wireFields, l.shape = .variableList ∧
    (v = countVar l.countField ∨ v = lengthVar l.name ∧ ∃ t, l.elem = .primitive t)
  ident : ∀ v ∈ Emit.locals code, isIdent v = true
  /-- They are different from each other, from the receiver and from the reader. -/
  distinct : (parameters ++ Emit.locals code).Nodup
  /-- A variable is declared once, and before it is used. -/
  ordered : Scoped parameters (code.flatMap (CodeLine.accesses (possibleLocals p)))
  used : ∀ v ∈ Emit.locals code, ∃ c ∈ code, v ∈ c.uses
  /-- Where a line asks for the length of a list it uses one variable, the one that the list's own
  count was read into. -/
  count : ∀ pre c post, code = pre ++ c :: post → c.asks = true →
    ∃ l ∈ p.fields, ∃ k ∈ p.fields, l.shape = .variableList ∧ l.countField = k.name ∧
      k.countOf = l.name ∧ listRead pre c post = some (fieldIdent l.name) ∧
      c.uses.filter (possibleLocals p).contains = [countVar k.name] ∧
      ∃ t, k.elem = .primitive t ∧
        codeLine 1 [[.word (countVar k.name), .mark " := "], readTokens t.kind.accessor] ∈ pre

section Plan

variable {p : Plan} {v : String} {stmts : List ReadStmt}

theorem isLocal_of_possible (h : v ∈ possibleLocals p) : IsLocal v := by
  obtain ⟨f, -, hv⟩ := List.mem_flatMap.mp h
  exact ⟨f.name, by simpa using hv⟩

/-- The names of a variable list on the wire are possible. -/
theorem possible_of_use (hp : p.Sound) {step : DecodeStep} (hstep : step ∈ p.decode)
    (hv : .use v ∈ stepAccesses step) : v ∈ possibleLocals p := by
  cases step with
  | variableList f e n =>
      obtain ⟨l, hl, hof⟩ := hp.exists_wireField hstep (by simp)
      obtain ⟨hshape, rfl, rfl, rfl⟩ := Plan.Field.step_eq_variableList hof
      have hlmem := (Plan.mem_wireFields.mp hl).1
      obtain ⟨-, k, hk, hname, -⟩ := hp.of_variableList hlmem hshape
      rw [← hname] at hv
      have hnames : v = countVar k.name ∨ v = lengthVar l.name := by
        cases helem : l.elem <;> simp [helem, stepAccesses] at hv <;> tauto
      rcases hnames with rfl | rfl
      · exact List.mem_flatMap.mpr ⟨k, hk, by simp⟩
      · exact List.mem_flatMap.mpr ⟨l, hlmem, by simp⟩
  | count f list t discard => cases discard <;> simp [stepAccesses] at hv
  | parent | primitive | reference | fixedList => cases hv

/-- The names of a field are words. -/
theorem NamesFit.letters (h : NamesFit p) {f : Field} (hf : f ∈ p.fields) :
    Token.isLetters (fieldIdent f.name) = true ∧ Token.isLetters (countVar f.name) = true ∧
      Token.isLetters (lengthVar f.name) = true := by
  have hident := (h.idents f hf).1
  have hword := isWord_lowerFirst hident
  refine ⟨Token.isLetters_of_isWord (Bool.and_eq_true_iff.mp hident).1,
    Token.isLetters_of_isWord ?_, Token.isLetters_of_isWord ?_⟩
  · rw [countVar, String.toList_append]
    exact isWord_append hword (by decide)
  · rw [lengthVar, String.toList_append]
    exact isWord_append hword (by decide)

/-- The statement of a step is put together from words, and from types that the step names. -/
theorem words_ofStep (hp : p.Sound) (hfit : NamesFit p) {step : DecodeStep}
    (hstep : step ∈ p.decode) {s : ReadStmt} (h : ReadStmt.ofStep p.name step = .ok s) :
    (∀ w ∈ s.words, Token.isLetters w = true) ∧ ∀ type ∈ s.types, type ∈ namedTypes p := by
  have hfield : (∀ name, step ≠ .parent name) → ∃ f ∈ p.fields, f.name = step.field := by
    intro hparent
    obtain ⟨f, hf, rfl⟩ := hp.exists_wireField hstep hparent
    exact ⟨f, (Plan.mem_wireFields.mp hf).1, (field_stepOf p f).symm⟩
  have hnamed : ∀ type, type ∈ namedTypes p ↔ ∃ step ∈ p.decode, type ∈ _ := fun _ =>
    List.mem_flatMap
  cases step with
  | parent t =>
      cases h
      refine ⟨by simp [ReadStmt.words], ?_⟩
      intro type htype
      exact (hnamed _).mpr ⟨_, hstep, htype⟩
  | variableList f e n =>
      obtain ⟨l, hl, hof⟩ := hp.exists_wireField hstep (by simp)
      obtain ⟨hshape, rfl, rfl, rfl⟩ := Plan.Field.step_eq_variableList hof
      have hlmem := (Plan.mem_wireFields.mp hl).1
      obtain ⟨-, k, hk, hname, -⟩ := hp.of_variableList hlmem hshape
      obtain ⟨hfieldWord, -, hlength⟩ := hfit.letters hlmem
      have hcount := (hfit.letters hk).2.1
      rw [hname] at hcount
      unfold ReadStmt.ofStep at h
      dsimp only at h
      split at h
      · cases h
      · cases helem : l.elem with
        | message t =>
            rw [helem] at h hstep
            cases h
            exact ⟨by simp [ReadStmt.words, hfieldWord, hcount],
              fun type htype => (hnamed _).mpr ⟨_, hstep, htype⟩⟩
        | primitive t =>
            rw [helem] at h
            cases h
            exact ⟨by simp [ReadStmt.words, hfieldWord, hcount, hlength], by simp [ReadStmt.types]⟩
  | count f list t discard =>
      obtain ⟨g, hg, rfl⟩ := hfield (by simp)
      obtain ⟨-, hcount, -⟩ := hfit.letters hg
      cases h
      cases discard <;>
        simp [ReadStmt.words, ReadStmt.types, Token.isLetters_accessor, hcount]
  | fixedList f n e =>
      obtain ⟨g, hg, rfl⟩ := hfield (by simp)
      obtain ⟨hword, -⟩ := hfit.letters hg
      cases e <;> cases h <;>
        simp [ReadStmt.words, ReadStmt.types, Token.isLetters_accessor, hword]
  | primitive | reference =>
      obtain ⟨g, hg, rfl⟩ := hfield (by simp)
      obtain ⟨hword, -⟩ := hfit.letters hg
      cases h
      simp [ReadStmt.words, ReadStmt.types, Token.isLetters_accessor, hword]

theorem fits_readStmts (hp : p.Sound) (hfit : NamesFit p) (h : readStmts p = .ok stmts) :
    ∀ c ∈ bodyCode stmts, c.Fits (namedTypes p) := by
  intro c hc
  obtain ⟨s, hs, hc⟩ := List.mem_flatMap.mp hc
  obtain ⟨step, hstep, hof⟩ := exists_of_mem_mapM h hs
  obtain ⟨hwords, htypes⟩ := words_ofStep hp hfit hstep hof
  exact s.fits hwords htypes c hc

/-- A list asks for its own length. -/
theorem list_of_asks (hp : p.Sound) (h : readStmts p = .ok stmts) {pre post : List CodeLine}
    {c : CodeLine} (hsplit : bodyCode stmts = pre ++ c :: post) (hasks : c.asks = true) :
    ∃ l ∈ p.fields, ∃ k ∈ p.fields, l.shape = .variableList ∧ l.countField = k.name ∧
      k.countOf = l.name ∧ listRead pre c post = some (fieldIdent l.name) ∧
      c.uses.filter (possibleLocals p).contains = [countVar k.name] ∧
      ∃ t, k.elem = .primitive t ∧
        codeLine 1 [[.word (countVar k.name), .mark " := "], readTokens t.kind.accessor] ∈ pre := by
  obtain ⟨before, s, after, front, rest, rfl, hcode, rfl, rfl⟩ := body_split hsplit
  have hfront := List.forall₂_take_append _ _ _ (mapM_ok h)
  have hback := List.forall₂_drop_append _ _ _ (mapM_ok h)
  cases hdrop : p.decode.drop before.length with
  | nil =>
      rw [hdrop] at hback
      cases hback
  | cons step later =>
      rw [hdrop] at hback
      obtain ⟨hof, -⟩ := List.forall₂_cons.mp hback
      have hdecode : p.decode = p.decode.take before.length ++ step :: later := by
        rw [← hdrop, List.take_append_drop]
      have hstep : step ∈ p.decode := hdecode ▸ List.mem_append_right _ List.mem_cons_self
      obtain ⟨f, e, n, rfl, huses, hread⟩ := asked_ofStep (fun _ => isLocal_of_possible)
        (fun _ => possible_of_use hp hstep) hof hcode hasks
      obtain ⟨earlier, l, _, hfields, hl, htake, -⟩ := hp.decode_split hdecode (by simp)
      obtain ⟨hshape, rfl, -, rfl⟩ := Plan.Field.step_eq_variableList hl
      obtain ⟨k, hk, hname, hstored, hcounts⟩ := hp.counted_wire hfields hshape
      obtain ⟨hlmem, hser⟩ := Plan.mem_wireFields.mp (by simp [hfields] : l ∈ p.wireFields)
      have hkmem := (Plan.mem_wireFields.mp (by simp [hfields, hk] : k ∈ p.wireFields)).1
      obtain ⟨t, helem, hkstep⟩ := hp.stepOf_eq_count hkmem hlmem hser hstored hcounts
      -- the statement of the count stands before that of the list
      have hcount : .count k.name k.countOf t false ∈ p.decode.take before.length := by
        rw [htake, ← hkstep]
        exact List.mem_append_right _ (List.mem_map_of_mem hk)
      obtain ⟨s', hs', hof'⟩ := exists_stmt hfront hcount
      cases hof'
      refine ⟨l, hlmem, k, hkmem, hshape, hname.symm, hcounts, hread _ _, hname ▸ huses, t, helem,
        ?_⟩
      exact List.mem_append_left _ (List.mem_flatMap.mpr ⟨_, hs', List.mem_singleton_self _⟩)

/-- The lines of the reading method of a sound plan with fitting names. -/
theorem localsFit (hp : p.Sound) (hfit : NamesFit p) (h : readStmts p = .ok stmts) :
    LocalsFit p (bodyCode stmts) := by
  have haccesses : ∀ {vars : List String}, (∀ v ∈ vars, IsLocal v) →
      (∀ step ∈ p.decode, ∀ v, .use v ∈ stepAccesses step → v ∈ vars) →
      (bodyCode stmts).flatMap (CodeLine.accesses vars) = p.decode.flatMap stepAccesses :=
    fun hvars huse => accesses_body hvars (mapM_ok h) huse
  have hbody := haccesses (fun _ => isLocal_of_possible) fun _ hstep _ => possible_of_use hp hstep
  have hlocals := locals_body (mapM_ok h)
  have hscoped := scoped_decode hp hfit
  obtain ⟨hnodup, hfresh⟩ := hscoped.fresh
  refine ⟨fun v => ?_, ?_, ?_, hbody ▸ hscoped, ?_, fun _ _ _ hsplit hasks =>
    list_of_asks hp h hsplit hasks⟩
  · rw [hlocals, declared_decode_iff hp]
  · rw [hlocals]
    exact fun v hv => isIdent_of_declared hp hfit hv
  · rw [hlocals]
    exact List.nodup_append'.mpr ⟨by decide, hnodup, hfresh.symm⟩
  · rw [hlocals]
    intro v hv
    have huse := used_of_declared hp hv
    rw [← hbody, List.mem_flatMap] at huse
    obtain ⟨c, hc, huse⟩ := huse
    refine ⟨c, hc, ?_⟩
    simp only [CodeLine.accesses, List.mem_append, List.mem_map, Option.mem_toList, reduceCtorEq,
      Access.use.injEq, and_false, exists_false, or_false, exists_eq_right] at huse
    exact List.mem_of_mem_filter huse

end Plan

/-- **Reading methods declare and use their variables in order.**  The lines of the method, blank
ones aside, are put together from words, and the variables among these fit. -/
theorem readStmts_locals {catalog : Catalog} {limit : Int} {raw : Model} {sized : Bool}
    {S : PlanSet} (hresolve : (Resolve.run catalog limit raw).succeeded = true)
    (hderive : PlanSet.derive sized (Resolve.run catalog limit raw).model = .ok S) :
    ∀ p ∈ S.accepted, checkPlan p = .ok () →
      ∃ stmts, readStmts p = .ok stmts ∧
        written (readLines stmts) = (bodyCode stmts).map CodeLine.line ∧
        (∀ c ∈ bodyCode stmts, c.Fits (namedTypes p)) ∧ LocalsFit p (bodyCode stmts) := by
  intro p hmem hcheck
  have hrt := Message.Runtime.ofSet_sound (Resolve.run_bound hresolve) hderive
  obtain ⟨i, hi⟩ := List.mem_iff_getElem?.mp hmem
  have hp : p.Sound := hrt.plan ((Message.Runtime.getElem?_plans_ofSet S i).trans hi)
  have hfit := checkPlan_eq_ok_iff.mp hcheck
  obtain ⟨stmts, hstmts⟩ := readStmts_total hp hfit
  exact ⟨stmts, hstmts, spelled stmts, fits_readStmts hp hfit hstmts,
    localsFit hp hfit hstmts⟩

/-- A type with a list of numbers, a list that stays off the wire and a list of messages; the count
of the first has the name of a keyword, that of the last the name of the receiver. -/
def delivery : Model where
  classes := [
    { name := "Part"
      attributes := [{ name := "weight", shape := some .primitive, type := "byte" }] },
    { name := "Delivery"
      parent := "Part"
      attributes := [
        { name := "Type", shape := some .primitive, type := "unsigned byte", isCount := true,
          counts := "marks" },
        { name := "m", shape := some .primitive, type := "unsigned short", isCount := true,
          counts := "parts" },
        { name := "k", shape := some .primitive, type := "unsigned byte", isCount := true,
          counts := "notes" },
        { name := "marks", shape := some .variableList, type := "unsigned short" },
        { name := "notes", shape := some .variableList, type := "byte", serialize := false },
        { name := "parts", shape := some .variableList, type := "Part" }] }]

/-- The delivery keeps two counts and one length. -/
theorem readStmts_locals_delivery : (Resolve.run .standard 3 delivery).succeeded = true ∧
    ∃ S, PlanSet.derive true (Resolve.run .standard 3 delivery).model = .ok S ∧
      ∃ p ∈ S.accepted, p.name = "Delivery" ∧ checkPlan p = .ok () ∧
        ∃ stmts, readStmts p = .ok stmts ∧
          written (readLines stmts) = (bodyCode stmts).map CodeLine.line ∧
          (∀ c ∈ bodyCode stmts, c.Fits (namedTypes p)) ∧ LocalsFit p (bodyCode stmts) ∧
          locals (bodyCode stmts) = ["typeCount", "mCount", "marksLen"] := by
  have hresolve : (Resolve.run .standard 3 delivery).succeeded = true := by decide +kernel
  have hrun : ((PlanSet.derive true (Resolve.run .standard 3 delivery).model).toOption.map
      fun S => S.accepted.any fun p => p.name == "Delivery" && checkPlan p == .ok () &&
        (readStmts p).toOption.map (fun stmts => locals (bodyCode stmts)) ==
          some ["typeCount", "mCount", "marksLen"]) = some true := by
    decide +kernel
  obtain ⟨S, hS, hany⟩ := Option.map_eq_some_iff.mp hrun
  simp only [List.any_eq_true, Bool.and_eq_true, beq_iff_eq, Option.map_eq_some_iff] at hany
  obtain ⟨p, hp, ⟨hname, hcheck⟩, read, hread, hlocals⟩ := hany
  have hderive := ok_of_toOption hS
  obtain ⟨stmts, hstmts, hlines, hwords, hfit⟩ :=
    readStmts_locals hresolve hderive p hp hcheck
  obtain rfl : read = stmts := Except.ok.inj ((ok_of_toOption hread).symm.trans hstmts)
  exact ⟨hresolve, S, hderive, p, hp, hname, hcheck, read, hstmts, hlines, hwords, hfit, hlocals⟩

end Emit

end WireSchema

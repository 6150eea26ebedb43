import Mathlib
import WireSchema.Proofs.Emit.Names

/-!
# The members of a generated type

The type of a plan declares its embedded parent, a stored field for every field that is no count,
the methods that every type has, and accessors.  Before it is emitted its names are checked: stored
fields against one another, and accessors against one another, the common methods and the parent.
The names of a plan that passes fit together as `NamesFit` says, and a plan whose names fit passes.

That leaves three clashes open.  The name of the parent is not checked against anything before it,
so it can be that of a common method.  Stored fields and methods are in two tables, so a stored
field can have the name of the parent or of a getter; its first letter excludes all other methods.
`Apart` says that none of them occurs, and then and only then the members are different identifiers.

## Main results

* `checkPlan_eq_ok_iff` — a plan passes just if its names fit.
* `members_distinct_iff` — the members of a plan that passes are different identifiers just if they
  are apart.
* `apart_of_letters` — names that start with letters of the basic alphabet are apart, unless the
  parent is a common method.
-/

namespace WireSchema

namespace Emit

/-! ## Claiming names -/

section Claims

variable {clash : String → String → String → Error} {taken out : Claims}

/-- A name can be claimed if it is free, and is taken then. -/
theorem claim_eq_ok_iff {name owner : String} {clash : String → Error} :
    taken.claim name owner clash = .ok out ↔
      name ∉ taken.map (·.1) ∧ out = (name, owner) :: taken := by
  have hfree : taken.lookup name = none ↔ name ∉ taken.map (·.1) := by
    rw [List.lookup_eq_none_iff]
    refine ⟨fun h hmem => ?_, fun h c hc => ?_⟩
    · obtain ⟨c, hc, rfl⟩ := List.mem_map.mp hmem
      simpa using h c hc
    · simpa using fun heq : name = c.1 => h (heq ▸ List.mem_map_of_mem hc)
  rw [← hfree, Claims.claim]
  cases taken.lookup name with
  | none => simp [eq_comm]
  | some other => simp

/-- Names can be claimed in order if they are different and free, and are all taken then. -/
theorem claimAll_eq_ok_iff {names : Claims} : claimAll clash taken names = .ok out ↔
    (names.map (·.1)).Nodup ∧ (names.map (·.1)).Disjoint (taken.map (·.1)) ∧
      out = names.reverse ++ taken := by
  induction names generalizing taken with
  | nil => simp [claimAll, eq_comm]
  | cons c rest ih =>
      obtain ⟨name, owner⟩ := c
      have hreverse : ((name, owner) :: rest).reverse ++ taken =
          rest.reverse ++ (name, owner) :: taken := by simp
      rw [claimAll, bind_eq_ok_iff, hreverse]
      simp only [claim_eq_ok_iff, ih, List.map_cons, List.nodup_cons, List.disjoint_cons_left]
      constructor
      · rintro ⟨next, ⟨hfree, rfl⟩, hnodup, hdisjoint, hout⟩
        rw [List.map_cons, List.disjoint_cons_right] at hdisjoint
        exact ⟨⟨hdisjoint.1, hnodup⟩, ⟨hfree, hdisjoint.2⟩, hout⟩
      · rintro ⟨⟨hnew, hnodup⟩, ⟨hfree, hdisjoint⟩, hout⟩
        exact ⟨_, ⟨hfree, rfl⟩, hnodup, List.disjoint_cons_right.mpr ⟨hnew, hdisjoint⟩, hout⟩

theorem claimAll_append {a b : Claims} :
    claimAll clash taken (a ++ b) = claimAll clash taken a >>= fun t => claimAll clash t b := by
  induction a generalizing taken with
  | nil => rfl
  | cons c rest ih =>
      obtain ⟨name, owner⟩ := c
      rw [List.cons_append, claimAll, claimAll, bind_assoc]
      simp only [ih]

/-- The fields of a plan pass if their names are identifiers, no two are stored under one name, and
their accessors can be claimed. -/
theorem checkFields_eq_ok_iff {type : String} {idents : Claims} {fields : List Plan.Field} :
    checkFields type clash idents taken fields = .ok out ↔
      (∀ f ∈ fields, isIdent (fieldIdent f.name) = true ∧ isIdent (exported f.name) = true) ∧
      (fields.map (fieldIdent ·.name)).Nodup ∧
      (fields.map (fieldIdent ·.name)).Disjoint (idents.map (·.1)) ∧
      claimAll clash taken (fields.flatMap accessorsOf) = .ok out := by
  induction fields generalizing idents taken with
  | nil => simp [checkFields, claimAll]
  | cons f rest ih =>
      rw [checkFields, List.flatMap_cons, claimAll_append, List.forall_mem_cons]
      cases isIdent (fieldIdent f.name) with
      | false => exact iff_of_false (fun h => by cases h) (fun h => by cases h.1.1.1)
      | true =>
        cases isIdent (exported f.name) with
        | false => exact iff_of_false (fun h => by cases h) (fun h => by cases h.1.1.2)
        | true =>
          simp only [Bool.not_true, Bool.or_self, Bool.false_eq_true, if_false, bind_eq_ok_iff,
            claim_eq_ok_iff, ih, List.map_cons, List.nodup_cons, List.disjoint_cons_left]
          constructor
          · rintro ⟨next, ⟨hfree, rfl⟩, t, hown, hwords, hnodup, hdisjoint, hrest⟩
            rw [List.map_cons, List.disjoint_cons_right] at hdisjoint
            exact ⟨⟨⟨trivial, trivial⟩, hwords⟩, ⟨hdisjoint.1, hnodup⟩, ⟨hfree, hdisjoint.2⟩, t,
              hown, hrest⟩
          · rintro ⟨⟨-, hwords⟩, ⟨hnew, hnodup⟩, ⟨hfree, hdisjoint⟩, t, hown, hrest⟩
            exact ⟨_, ⟨hfree, rfl⟩, t, hown, hwords, hnodup,
              List.disjoint_cons_right.mpr ⟨hnew, hdisjoint⟩, hrest⟩

end Claims

/-- The accessors that a plan claims names for, with what they are for. -/
def accessorsOfPlan (p : Plan) : Claims :=
  p.fields.flatMap accessorsOf ++ p.accessors.flatMap textAccessorsOf

/-- The names that are taken before those of the accessors, with their owners. -/
def reserved (p : Plan) : Claims :=
  if p.hasParent then (typeName p.parentName, "embedded parent") :: standardMethods
  else standardMethods

/-- What holds of the names of an accepted plan. -/
structure NamesFit (p : Plan) : Prop where
  type : isIdent (typeName p.name) = true
  idents : ∀ f ∈ p.fields, isIdent (fieldIdent f.name) = true ∧ isIdent (exported f.name) = true
  stored : (p.fields.map (fieldIdent ·.name)).Nodup
  accessors : ((accessorsOfPlan p).map (·.1)).Nodup
  free : ((accessorsOfPlan p).map (·.1)).Disjoint ((reserved p).map (·.1))

theorem checkPlan_eq (p : Plan) : checkPlan p =
    if isIdent (typeName p.name) then
      checkFields p.name (.methodClash p.name) [] (reserved p) p.fields >>= fun taken =>
        claimAll (.methodClash p.name) taken (p.accessors.flatMap textAccessorsOf) >>= fun _ =>
          .ok ()
    else .error (.badTypeName p.name) := by
  unfold checkPlan
  cases isIdent (typeName p.name) <;> rfl

/-- **A plan is accepted just if its names fit.** -/
theorem checkPlan_eq_ok_iff {p : Plan} : checkPlan p = .ok () ↔ NamesFit p := by
  rw [checkPlan_eq]
  constructor
  · intro h
    split at h
    · rename_i htype
      obtain ⟨taken, hfields, h⟩ := of_bind_eq_ok h
      obtain ⟨all, htexts, -⟩ := of_bind_eq_ok h
      obtain ⟨hwords, hnodup, -, hclaimed⟩ := checkFields_eq_ok_iff.mp hfields
      have hall : claimAll (.methodClash p.name) (reserved p) (accessorsOfPlan p) = .ok all := by
        rw [accessorsOfPlan, claimAll_append]
        exact bind_eq_ok_iff.mpr ⟨taken, hclaimed, htexts⟩
      obtain ⟨hdistinct, hfree, -⟩ := claimAll_eq_ok_iff.mp hall
      exact ⟨htype, hwords, hnodup, hdistinct, hfree⟩
    · cases h
  · intro h
    have hall : claimAll (.methodClash p.name) (reserved p) (accessorsOfPlan p) =
        .ok ((accessorsOfPlan p).reverse ++ reserved p) :=
      claimAll_eq_ok_iff.mpr ⟨h.accessors, h.free, rfl⟩
    rw [accessorsOfPlan, claimAll_append] at hall
    obtain ⟨taken, hclaimed, htexts⟩ := of_bind_eq_ok hall
    rw [if_pos h.type]
    refine bind_eq_ok_iff.mpr ⟨taken, checkFields_eq_ok_iff.mpr ⟨h.idents, h.stored, ?_, hclaimed⟩,
      bind_eq_ok_iff.mpr ⟨_, htexts, rfl⟩⟩
    exact List.disjoint_nil_right _

/-! ## Members -/

/-- The methods that a type has whatever its fields are. -/
def commonMethods (p : Plan) : List String :=
  constructName :: (["MarshalWire", "UnmarshalWire"] ++
    (if p.size?.isSome then ["MarshalledSize"] else []) ++ ["Equal"])

/-- The names that the type of a plan declares: its embedded parent, its stored fields and its
methods. -/
def members (p : Plan) (construct : List Line) (stmts : List ReadStmt) : List String :=
  (if p.hasParent then [typeName p.parentName] else []) ++
    (storedFields p).map (fieldIdent ·.name) ++ (methods p construct stmts).map (·.name)

section Members

variable {p : Plan} {construct : List Line} {stmts : List ReadStmt} {n : String}

theorem name_getter (f : Plan.Field) : (getter f).name = exported f.name := by
  unfold getter
  split <;> rfl

theorem names_accessorMethods (f : Plan.Field) :
    (accessorMethods f).map (·.name) = (accessorsOf f).map (·.1) := by
  unfold accessorMethods accessorsOf
  cases f.isCount <;> cases f.isVariableList <;>
    simp [name_getter, countGetter, setter, appender]

theorem names_textMethods (t : Plan.TextAccessor) :
    (textMethods t).map (·.name) = (textAccessorsOf t).map (·.1) := by
  simp [textMethods, textAccessorsOf, String.append_assoc]

/-- The methods of a type are the common ones and the accessors that were claimed. -/
theorem names_methods : ((methods p construct stmts).map (·.name)).Perm
    (commonMethods p ++ (accessorsOfPlan p).map (·.1)) := by
  have haccessors : (p.fields.flatMap accessorMethods ++ p.accessors.flatMap textMethods).map
      (·.name) = (accessorsOfPlan p).map (·.1) := by
    simp only [accessorsOfPlan, List.map_append, List.map_flatMap, names_accessorMethods,
      names_textMethods]
  have hsize : (p.size?.map sizeMethod).toList.map (·.name) =
      (if p.size?.isSome then ["MarshalledSize"] else []) := by
    cases p.size? <;> rfl
  have hmethods : (methods p construct stmts).map (·.name) =
      constructName :: ((accessorsOfPlan p).map (·.1) ++ (commonMethods p).tail) := by
    rw [← haccessors, commonMethods, List.tail_cons, ← hsize, methods]
    simp only [List.map_append, List.append_assoc]
    rfl
  rw [hmethods]
  exact List.perm_append_comm.cons _

theorem mem_members : n ∈ members p construct stmts ↔
    (p.hasParent = true ∧ n = typeName p.parentName) ∨
    (∃ f ∈ storedFields p, n = fieldIdent f.name) ∨
    n ∈ commonMethods p ∨ n ∈ (accessorsOfPlan p).map (·.1) := by
  have hparent : n ∈ (if p.hasParent then [typeName p.parentName] else []) ↔
      p.hasParent = true ∧ n = typeName p.parentName := by
    cases p.hasParent <;> simp
  have hstored : n ∈ (storedFields p).map (fieldIdent ·.name) ↔
      ∃ f ∈ storedFields p, n = fieldIdent f.name := by
    simp [eq_comm]
  rw [members, List.mem_append, List.mem_append, hparent, hstored, names_methods.mem_iff,
    List.mem_append, or_assoc]

/-- The accessors that were claimed, by what they are for. -/
theorem mem_accessorsOfPlan : n ∈ (accessorsOfPlan p).map (·.1) ↔
    (∃ f ∈ p.fields, n = exported f.name ∨ f.isCount = false ∧ (n = "Set" ++ exported f.name ∨
      f.isVariableList = true ∧ n = "Append" ++ exported f.name)) ∨
    ∃ t ∈ p.accessors, n = exported t.field ++ "Text" ∨
      n = "Set" ++ exported t.field ++ "Text" := by
  have hfield : ∀ f : Plan.Field, n ∈ (accessorsOf f).map (·.1) ↔ n = exported f.name ∨
      f.isCount = false ∧ (n = "Set" ++ exported f.name ∨
        f.isVariableList = true ∧ n = "Append" ++ exported f.name) := by
    intro f
    unfold accessorsOf
    cases f.isCount <;> cases f.isVariableList <;> simp
  have htext : ∀ t : Plan.TextAccessor, n ∈ (textAccessorsOf t).map (·.1) ↔
      n = exported t.field ++ "Text" ∨ n = "Set" ++ exported t.field ++ "Text" := by
    intro t
    simp [textAccessorsOf]
  simp only [accessorsOfPlan, List.map_append, List.map_flatMap, List.mem_append,
    List.mem_flatMap, hfield, htext]

theorem commonMethods_nodup (p : Plan) : (commonMethods p).Nodup := by
  unfold commonMethods
  cases p.size?.isSome <;> decide

theorem commonMethods_isIdent (p : Plan) : ∀ m ∈ commonMethods p, isIdent m = true := by
  unfold commonMethods
  cases p.size?.isSome <;> decide

/-- The common methods are reserved, and so is the name of the parent. -/
theorem commonMethods_reserved : ∀ m ∈ commonMethods p, m ∈ (reserved p).map (·.1) := by
  have hstandard : ∀ m ∈ commonMethods p, m ∈ standardMethods.map (·.1) := by
    unfold commonMethods
    cases p.size?.isSome <;> decide
  intro m hm
  unfold reserved
  split
  · exact List.mem_cons_of_mem _ (hstandard m hm)
  · exact hstandard m hm

theorem parent_reserved (h : p.hasParent = true) :
    typeName p.parentName ∈ (reserved p).map (·.1) := by
  rw [reserved, if_pos h]
  exact List.mem_cons_self

theorem fieldIdent_notMem_commonMethods (f : String) : fieldIdent f ∉ commonMethods p := by
  have hcommon : ∀ m ∈ (commonMethods p).tail, isCapitalized m = true := by
    unfold commonMethods
    cases p.size?.isSome <;> decide
  intro hmem
  rcases List.mem_cons.mp hmem with h | h
  · exact fieldIdent_ne_constructName f h
  · exact fieldIdent_ne_of_isCapitalized (hcommon _ h) rfl

/-- Of the accessors only getters can have the name of a stored field. -/
theorem fieldIdent_mem_accessorsOfPlan {f : String} :
    fieldIdent f ∈ (accessorsOfPlan p).map (·.1) ↔
      (∃ g ∈ p.fields, fieldIdent f = exported g.name) ∨
        ∃ t ∈ p.accessors, fieldIdent f = exported t.field ++ "Text" := by
  have hset : ∀ w, fieldIdent f ≠ "Set" ++ w := fun w =>
    fieldIdent_ne_of_isCapitalized (isCapitalized_append (by decide) w)
  have hsetText : ∀ w, fieldIdent f ≠ "Set" ++ w ++ "Text" := fun w =>
    fieldIdent_ne_of_isCapitalized
      (isCapitalized_append (isCapitalized_append (by decide) w) "Text")
  have happend : ∀ w, fieldIdent f ≠ "Append" ++ w := fun w =>
    fieldIdent_ne_of_isCapitalized (isCapitalized_append (by decide) w)
  rw [mem_accessorsOfPlan]
  simp only [hset, hsetText, happend, and_false, or_false]

/-- The methods of an accepted plan have different names. -/
theorem NamesFit.methods_nodup (h : NamesFit p) :
    ((methods p construct stmts).map (·.name)).Nodup := by
  rw [names_methods.nodup_iff, List.nodup_append']
  exact ⟨commonMethods_nodup p, h.accessors, fun m hm hclaimed =>
    h.free hclaimed (commonMethods_reserved m hm)⟩

theorem mem_names_methods : n ∈ (methods p construct stmts).map (·.name) ↔
    n ∈ commonMethods p ∨ n ∈ (accessorsOfPlan p).map (·.1) := by
  rw [names_methods.mem_iff, List.mem_append]

/-- Stored fields and methods of an accepted plan have different names, unless a stored field has
that of a getter. -/
theorem NamesFit.own_nodup_iff (h : NamesFit p) :
    ((storedFields p).map (fieldIdent ·.name) ++ (methods p construct stmts).map (·.name)).Nodup ↔
      ∀ f ∈ storedFields p, (∀ g ∈ p.fields, fieldIdent f.name ≠ exported g.name) ∧
        ∀ t ∈ p.accessors, fieldIdent f.name ≠ exported t.field ++ "Text" := by
  have hstored : ((storedFields p).map (fieldIdent ·.name)).Nodup :=
    h.stored.sublist (List.filter_sublist.map _)
  rw [List.nodup_append', and_iff_right hstored, and_iff_right h.methods_nodup]
  simp only [List.Disjoint, List.forall_mem_map, mem_names_methods,
    fieldIdent_notMem_commonMethods, fieldIdent_mem_accessorsOfPlan, false_or]
  simp

/-- All members of an accepted plan have different names, unless besides its parent has the name of
a common method or of a stored field. -/
theorem NamesFit.nodup_iff (h : NamesFit p) : (members p construct stmts).Nodup ↔
    (p.hasParent = true → typeName p.parentName ∉ commonMethods p ∧
      ∀ f ∈ storedFields p, fieldIdent f.name ≠ typeName p.parentName) ∧
    ∀ f ∈ storedFields p, (∀ g ∈ p.fields, fieldIdent f.name ≠ exported g.name) ∧
      ∀ t ∈ p.accessors, fieldIdent f.name ≠ exported t.field ++ "Text" := by
  rw [members, List.append_assoc]
  cases hp : p.hasParent with
  | false => simpa using h.own_nodup_iff
  | true =>
      have hfree := fun hclaimed => h.free hclaimed (parent_reserved hp)
      rw [if_pos rfl, List.singleton_append, List.nodup_cons, h.own_nodup_iff, List.mem_append,
        mem_names_methods, or_iff_left hfree, not_or, and_comm (a := ¬ _ ∈ List.map _ _)]
      simp

/-- All members of an accepted plan are identifiers, unless its parent or a getter of text is
none. -/
theorem NamesFit.isIdent_iff (h : NamesFit p) :
    (∀ n ∈ members p construct stmts, isIdent n = true) ↔
      (p.hasParent = true → isIdent (typeName p.parentName) = true) ∧
        ∀ t ∈ p.accessors, isIdent (exported t.field ++ "Text") = true := by
  constructor
  · refine fun hall => ⟨fun hp => ?_, fun t ht => ?_⟩
    · exact hall _ (mem_members.mpr (.inl ⟨hp, rfl⟩))
    · exact hall _ (mem_members.mpr (.inr (.inr (.inr
        (mem_accessorsOfPlan.mpr (.inr ⟨t, ht, .inl rfl⟩))))))
  · rintro ⟨hparent, htexts⟩ n hn
    rcases mem_members.mp hn with ⟨hp, rfl⟩ | ⟨f, hf, rfl⟩ | hn | hn
    · exact hparent hp
    · exact (h.idents f (List.mem_of_mem_filter hf)).1
    · exact commonMethods_isIdent p n hn
    · rcases mem_accessorsOfPlan.mp hn with
        ⟨f, hf, rfl | ⟨-, rfl | ⟨-, rfl⟩⟩⟩ | ⟨t, ht, rfl | rfl⟩
      · exact (h.idents f hf).2
      · exact isIdent_append (by decide) (by decide) (h.idents f hf).2
      · exact isIdent_append (by decide) (by decide) (h.idents f hf).2
      · exact htexts t ht
      · rw [String.append_assoc]
        exact isIdent_append (by decide) (by decide) (htexts t ht)

end Members

/-- The names of a type are apart: its parent is an identifier, no method that every type has and no
stored field; no stored field is a getter, of a field or of text; and the getters of text are
identifiers. -/
structure Apart (p : Plan) : Prop where
  parent : p.hasParent = true → isIdent (typeName p.parentName) = true ∧
    typeName p.parentName ∉ commonMethods p ∧
    ∀ f ∈ storedFields p, fieldIdent f.name ≠ typeName p.parentName
  getters : ∀ f ∈ storedFields p, ∀ g ∈ p.fields, fieldIdent f.name ≠ exported g.name
  texts : ∀ t ∈ p.accessors, isIdent (exported t.field ++ "Text") = true ∧
    ∀ f ∈ storedFields p, fieldIdent f.name ≠ exported t.field ++ "Text"

/-- Names that start with letters of the basic alphabet are apart, if texts are those of stored
fields and the parent is an identifier that is no method every type has. -/
theorem apart_of_letters {p : Plan} (h : checkPlan p = .ok ())
    (hletter : ∀ f ∈ storedFields p, startsWithLetter f.name = true)
    (htexts : ∀ t ∈ p.accessors, ∃ f ∈ storedFields p, f.name = t.field)
    (hparent : p.hasParent = true → isIdent (typeName p.parentName) = true ∧
      typeName p.parentName ∉ ["MarshalWire", "UnmarshalWire", "MarshalledSize", "Equal"]) :
    Apart p := by
  have hfit := checkPlan_eq_ok_iff.mp h
  have hcommon : ∀ m ∈ commonMethods p, m = constructName ∨
      m ∈ ["MarshalWire", "UnmarshalWire", "MarshalledSize", "Equal"] := by
    unfold commonMethods
    cases p.size?.isSome <;> decide
  have hsmall : isUncapitalized (typeName p.parentName) = false := isUncapitalized_exported _
  refine ⟨fun hp => ⟨(hparent hp).1, fun hmem => ?_, fun f hf => ?_⟩, fun f hf g _ => ?_,
    fun t ht => ?_⟩
  · rcases hcommon _ hmem with hconstruct | hmethod
    · rw [hconstruct] at hsmall
      exact absurd hsmall (by decide)
    · exact (hparent hp).2 hmethod
  · exact fieldIdent_ne_of_letter (hletter f hf) (isUncapitalized_exported _)
  · exact fieldIdent_ne_of_letter (hletter f hf) (isUncapitalized_exported _)
  · obtain ⟨f, hf, hname⟩ := htexts t ht
    have hcap : isCapitalized (exported t.field) = true :=
      hname ▸ isCapitalized_exported (hletter f hf)
    refine ⟨isIdent_append (hname ▸ (hfit.idents f (List.mem_of_mem_filter hf)).2) hcap (by decide),
      fun g _ => fieldIdent_ne_of_isCapitalized (isCapitalized_append hcap "Text")⟩

/-- **When the members of an accepted plan are different identifiers.** -/
theorem members_distinct_iff {p : Plan} (h : checkPlan p = .ok ()) (construct : List Line)
    (stmts : List ReadStmt) :
    ((members p construct stmts).Nodup ∧ ∀ n ∈ members p construct stmts, isIdent n = true) ↔
      Apart p := by
  have hfit := checkPlan_eq_ok_iff.mp h
  rw [hfit.nodup_iff, hfit.isIdent_iff]
  constructor
  · rintro ⟨⟨hparent, hfields⟩, hident, htexts⟩
    exact ⟨fun hp => ⟨hident hp, hparent hp⟩, fun f hf => (hfields f hf).1,
      fun t ht => ⟨htexts t ht, fun f hf => (hfields f hf).2 t ht⟩⟩
  · intro hapart
    exact ⟨⟨fun hp => (hapart.parent hp).2,
      fun f hf => ⟨hapart.getters f hf, fun t ht => (hapart.texts t ht).2 f hf⟩⟩,
      fun hp => (hapart.parent hp).1, fun t ht => (hapart.texts t ht).1⟩

/-- A field of bytes. -/
def byteField (name : String) (shape : Shape) (countOf countField : String) : Plan.Field where
  name
  shape
  elem := .primitive ⟨"unsigned byte", .uint8⟩
  length := 0
  comment := ""
  stored := countOf.isEmpty
  serialized := true
  countOf
  countField
  default? := none

/-- A type with a parent, a counted list, and a field whose name is reserved and that is used as
text. -/
def shelf : Plan where
  name := "shelf"
  parentName := "base"
  fields := [
    byteField "n" .primitive "items" "",
    byteField "items" .variableList "" "n",
    byteField "type" (.fixedList 4) "" ""]
  size? := some ⟨"base", []⟩
  accessors := [⟨"type", 4, ⟨"unsigned byte", .uint8⟩⟩]

/-- The shelf declares sixteen different identifiers. -/
theorem members_distinct_shelf : checkPlan shelf = .ok () ∧ (members shelf [] []).length = 16 ∧
    (members shelf [] []).Nodup ∧ ∀ n ∈ members shelf [] [], isIdent n = true := by
  have hcheck : checkPlan shelf = .ok () := by decide +kernel
  have hapart : Apart shelf :=
    apart_of_letters hcheck (by decide) (by decide) (by decide)
  exact ⟨hcheck, by decide +kernel, (members_distinct_iff hcheck [] []).mpr hapart⟩

/-- A type whose parent has the name of the method that compares. -/
def heir : Plan := { name := "Kid", parentName := "Equal" }

/-- A type with a field whose first character has no case. -/
def hidden : Plan := { name := "Pdu", fields := [byteField "_x" .primitive "" ""] }

/-- Both types pass, and declare a name twice. -/
theorem members_clash :
    (checkPlan heir = .ok () ∧ ¬ (members heir [] []).Nodup) ∧
      checkPlan hidden = .ok () ∧ ¬ (members hidden [] []).Nodup := by
  decide +kernel

end Emit

end WireSchema

import Mathlib
import WireSchema.Proofs.Emit.Members
import WireSchema.Proofs.Message.Initial

/-!
# Where generated constructors assign

An assignment of a plan names the type that declares its field, the plan's own or an ancestor.  A
message writes the field of that type's part.  The generated constructor calls the setter of the
field on the whole message instead, and the call reaches the nearest type up the chain of parents
that declares a member of that name.  The type that declares the field has just one such member, the
setter of the field.  A nearer type can have one too, since names are checked within one type only;
`Takes` lists the ways.  The call reaches the setter of the field just if no nearer type takes its
name.

## Main results

* `chain_of_ancestor` — the ancestors of a plan stand on its chain, and what is nearer is another
  type.
* `mem_members_setter` — when a type declares a member with the name of a setter.
* `assigned_selected_iff` — when the assignments of emitted plans reach the field they are meant
  for.
-/

namespace WireSchema

open Message (Runtime Receives)
open Plan (Field Assignment)

/-! ## Chains -/

namespace PlanSet

/-- The plan whose type declares the member that a call on a message of the plan `p` reaches: the
nearest one on the chain that declares one of this name. -/
def selected? (S : PlanSet) (p : Plan) (name : String) : Option Plan :=
  (S.chain p).find? fun q => (Emit.members q [] []).contains name

section Chain

variable {S : PlanSet} {rank : Nat → Nat} {i j : Nat} {p q : Plan}

/-- Ranks do not rise towards ancestors. -/
theorem rank_le_of_ancestor (hrank : (Runtime.ofSet S).Ranked rank)
    (h : (Runtime.ofSet S).Ancestor i j) : rank j ≤ rank i := by
  induction h with
  | self => exact le_rfl
  | up plan parent _ ih => exact ih.trans ((hrank _ _ plan).2 _ (.inl parent)).le

/-- The ancestors of a plan stand on its chain, and what is nearer is another type. -/
theorem chain_of_ancestor (hrt : (Runtime.ofSet S).Sound) (hrank : (Runtime.ofSet S).Ranked rank)
    (h : (Runtime.ofSet S).Ancestor i j) (hq : S.accepted[j]? = some q) :
    ∀ {fuel : Nat} {p : Plan}, S.accepted[i]? = some p → rank i ≤ fuel →
      ∃ nearer further, S.chainFrom fuel p = nearer ++ q :: further ∧
        ∀ n ∈ nearer, n ∈ S.accepted ∧ n.name ≠ q.name := by
  induction h with
  | self i =>
      intro fuel p hp _
      obtain rfl := Option.some.inj (hp.symm.trans hq)
      cases fuel with
      | zero => exact ⟨[], [], rfl, by simp⟩
      | succ fuel => exact ⟨[], _, rfl, by simp⟩
  | @up i j' k p' plan parent rest ih =>
      intro fuel p hp hfuel
      rw [Runtime.getElem?_plans_ofSet] at plan
      obtain rfl := Option.some.inj (hp.symm.trans plan)
      have hp' := (Runtime.getElem?_plans_ofSet S i).trans hp
      have hfall := (hrank i p hp').2 j' (.inl parent)
      obtain ⟨fuel, rfl⟩ : ∃ rest, fuel = rest + 1 := ⟨fuel - 1, by omega⟩
      -- a plan without a parent has no link, and the link of every other plan leads to a plan
      have hhas : p.hasParent = true := by
        by_contra hno
        rw [hrt.orphan hp' (by simpa using hno)] at parent
        cases parent
      obtain ⟨j'', r, hlink, hr⟩ := hrt.parent hp' hhas
      obtain rfl := Option.some.inj (parent.symm.trans hlink)
      rw [Runtime.getElem?_plans_ofSet] at hr
      have hle : rank j' ≤ fuel := by omega
      obtain ⟨nearer, further, hchain, hnearer⟩ := ih hq hr hle
      refine ⟨p :: nearer, further, ?_, List.forall_mem_cons.mpr ⟨⟨List.mem_of_getElem? hp, ?_⟩,
        hnearer⟩⟩
      · rw [chainFrom, parent, Option.bind_some, hr, List.cons_append, ← hchain]
      · exact fun hname => hrt.name_ne ((Runtime.getElem?_plans_ofSet S k).trans hq) hp'
          (lt_of_le_of_lt (rank_le_of_ancestor hrank rest) hfall) hname.symm

/-- A call reaches a type that declares its name just if no nearer type does. -/
theorem selected?_eq_some_iff {name : String} {nearer further : List Plan}
    (hchain : S.chain p = nearer ++ q :: further) (hne : ∀ n ∈ nearer, n.name ≠ q.name)
    (hq : name ∈ Emit.members q [] []) :
    S.selected? p name = some q ↔ ∀ n ∈ nearer, name ∉ Emit.members n [] [] := by
  rw [selected?, hchain, List.find?_append]
  constructor
  · intro h n hn hmem
    cases hfind : nearer.find? fun q => (Emit.members q [] []).contains name with
    | none => exact List.find?_eq_none.mp hfind n hn (by simpa using hmem)
    | some r =>
        rw [hfind, Option.some_or] at h
        obtain rfl := Option.some.inj h
        exact hne r (List.mem_of_find?_eq_some hfind) rfl
  · intro h
    have hnone : nearer.find? (fun q => (Emit.members q [] []).contains name) = none :=
      List.find?_eq_none.mpr fun n hn => by simpa using h n hn
    rw [hnone, Option.none_or, List.find?_cons_of_pos (by simpa using hq)]

end Chain

end PlanSet

namespace Emit

/-! ## The name of a setter -/

/-- The type of a plan takes the name of the setter of a field: it is the name of its parent, of a
getter, a setter, or a getter or setter of text. -/
inductive Takes (n : Plan) (field : String) : Prop where
  | parent (has : n.hasParent = true) (name : typeName n.parentName = "Set" ++ exported field)
  | getter (f : Field) (mem : f ∈ n.fields) (name : exported f.name = "Set" ++ exported field)
  | setter (f : Field) (mem : f ∈ n.fields) (uncounted : f.isCount = false)
      (name : exported f.name = exported field)
  | textGetter (t : Plan.TextAccessor) (mem : t ∈ n.accessors)
      (name : exported t.field ++ "Text" = "Set" ++ exported field)
  | textSetter (t : Plan.TextAccessor) (mem : t ∈ n.accessors)
      (name : exported t.field ++ "Text" = exported field)

section Setter

variable {n : Plan} {construct : List Line} {stmts : List ReadStmt} {field : String}

theorem set_append_inj {v w : String} : "Set" ++ v = "Set" ++ w ↔ v = w := by
  rw [← String.toList_inj, ← String.toList_inj, String.toList_append, String.toList_append,
    List.append_cancel_left_eq]

/-- No common method is called like a setter. -/
theorem set_notMem_commonMethods (w : String) : "Set" ++ w ∉ commonMethods n := by
  have hcommon : ∀ m ∈ commonMethods n, m.toList.head? ≠ some 'S' := by
    unfold commonMethods
    cases n.size?.isSome <;> decide
  exact fun hmem => hcommon _ hmem (by simp)

/-- When a type declares a member with the name of a setter. -/
theorem mem_members_setter :
    "Set" ++ exported field ∈ members n construct stmts ↔ Takes n field := by
  have hstored : ∀ f : Field, "Set" ++ exported field ≠ fieldIdent f.name := fun f =>
    (fieldIdent_ne_of_isCapitalized (isCapitalized_append (by decide) _)).symm
  have happend : ∀ f : Field, "Set" ++ exported field ≠ "Append" ++ exported f.name := by
    intro f h
    have hhead := congrArg (fun s => s.toList.head?) h
    simp at hhead
  rw [mem_members, mem_accessorsOfPlan]
  simp only [hstored, happend, set_notMem_commonMethods, set_append_inj, String.append_assoc,
    and_false, exists_false, false_or, or_false]
  constructor
  · rintro (⟨hp, h⟩ | ⟨f, hf, h | ⟨hcount, h⟩⟩ | ⟨t, ht, h | h⟩)
    · exact .parent hp h.symm
    · exact .getter f hf h.symm
    · exact .setter f hf hcount h.symm
    · exact .textGetter t ht h.symm
    · exact .textSetter t ht h.symm
  · rintro (⟨hp, h⟩ | ⟨f, hf, h⟩ | ⟨f, hf, hcount, h⟩ | ⟨t, ht, h⟩ | ⟨t, ht, h⟩)
    · exact .inl ⟨hp, h.symm⟩
    · exact .inr (.inl ⟨f, hf, .inl h.symm⟩)
    · exact .inr (.inl ⟨f, hf, .inr ⟨hcount, h.symm⟩⟩)
    · exact .inr (.inr ⟨t, ht, .inl h.symm⟩)
    · exact .inr (.inr ⟨t, ht, .inr h.symm⟩)

end Setter

/-! ## Emitted plans -/

section Emitted

variable {sized : Bool} {m : Model} {S : PlanSet} {p : Plan}

/-- The plans in order are the accepted ones. -/
theorem mem_plans (h : PlanSet.derive sized m = .ok S) : p ∈ S.plans ↔ p ∈ S.accepted := by
  obtain ⟨-, horder⟩ := Runtime.order_positions h
  rw [PlanSet.plans, List.mem_filterMap, List.mem_iff_getElem?]
  refine ⟨fun ⟨q, _, hq⟩ => ⟨q, hq⟩, fun ⟨q, hq⟩ => ⟨q, (horder q).mpr ?_, hq⟩⟩
  exact (List.getElem?_eq_some_iff.mp hq).1

/-- The names of emitted plans fit. -/
theorem namesFit_of_emitAll {config : EmitConfig} {wireImport : String} {e : Emitter}
    {files : List GeneratedFile} (hemitter : goEmitter config wireImport = .ok e)
    (h : e.emitAll S = .ok files) (hp : p ∈ S.plans) : NamesFit p := by
  unfold goEmitter goEmitterWith at hemitter
  split at hemitter
  · cases hemitter
  obtain rfl := Except.ok.inj hemitter
  obtain ⟨own, hown, -⟩ := of_bind_eq_ok h
  obtain ⟨k, hk⟩ := List.mem_iff_getElem?.mp hp
  obtain ⟨f, -, hf⟩ := Plan.forall₂_getElem? (mapM_ok hown) hk
  obtain ⟨_, hcheck, -⟩ := of_bind_eq_ok (of_mapError_eq_ok hf)
  exact checkPlan_eq_ok_iff.mp hcheck

/-- What is assigned is no count. -/
theorem isCount_of_receives {f : Field} {a : Assignment} (hp : p.Sound) (h : Receives p f a) :
    f.isCount = false := by
  have hstored := h.stored
  have hshape := h.shape
  cases hp.field f h.mem with
  | number _ _ _ _ hcountOf => simp [Field.isCount, hcountOf]
  | count _ _ _ _ hunstored => simp [hunstored] at hstored
  | reference _ hother | fixedList _ hother | variableList _ hother => simp [hother] at hshape

/-- The setter of a field is the only member of its name. -/
theorem NamesFit.count_setter (h : NamesFit p) {f : Field} (hf : f ∈ p.fields)
    (hcount : f.isCount = false) (construct : List Line) (stmts : List ReadStmt) :
    setter f ∈ methods p construct stmts ∧
      (members p construct stmts).count ("Set" ++ exported f.name) = 1 := by
  have hsetter : setter f ∈ methods p construct stmts := by
    have haccessor : setter f ∈ p.fields.flatMap accessorMethods :=
      List.mem_flatMap.mpr ⟨f, hf, by simp [accessorMethods, hcount]⟩
    simp [methods, haccessor]
  have hmethod : "Set" ++ exported f.name ∈ (methods p construct stmts).map (·.name) :=
    List.mem_map_of_mem (f := (·.name)) hsetter
  have hclaimed := (mem_names_methods.mp hmethod).resolve_left (set_notMem_commonMethods _)
  have hparent : "Set" ++ exported f.name ∉
      (if p.hasParent then [typeName p.parentName] else []) := by
    split
    · rename_i hp
      intro hmem
      exact h.free hclaimed (List.mem_singleton.mp hmem ▸ parent_reserved hp)
    · exact List.not_mem_nil
  have hstored : "Set" ++ exported f.name ∉ (storedFields p).map (fieldIdent ·.name) := by
    intro hmem
    obtain ⟨g, -, hg⟩ := List.mem_map.mp hmem
    exact fieldIdent_ne_of_isCapitalized (isCapitalized_append (by decide) _) hg
  refine ⟨hsetter, ?_⟩
  rw [members, List.count_append, List.count_append, List.count_eq_zero_of_not_mem hparent,
    List.count_eq_zero_of_not_mem hstored, List.count_eq_one_of_mem h.methods_nodup hmethod]

end Emitted

/-- **When generated constructors assign what is meant.** -/
theorem assigned_selected_iff {catalog : Catalog} {limit : Int} {raw : Model} {sized : Bool}
    {S : PlanSet} {config : EmitConfig} {wireImport : String} {e : Emitter}
    {files : List GeneratedFile}
    (hresolve : (Resolve.run catalog limit raw).succeeded = true)
    (hderive : PlanSet.derive sized (Resolve.run catalog limit raw).model = .ok S)
    (hemitter : goEmitter config wireImport = .ok e) (hemit : e.emitAll S = .ok files) :
    ∀ p ∈ S.plans, ∀ a ∈ p.assignments, ∃ nearer q further f,
      S.chain p = nearer ++ q :: further ∧ Receives q f a ∧ (∀ n ∈ nearer, n.name ≠ q.name) ∧
      (∀ construct stmts, setter f ∈ methods q construct stmts ∧
        (members q construct stmts).count ("Set" ++ exported a.field) = 1) ∧
      (S.selected? p ("Set" ++ exported a.field) = some q ↔ ∀ n ∈ nearer, ¬ Takes n a.field) := by
  have hm := Resolve.run_bound hresolve
  have hrt := Runtime.ofSet_sound hm hderive
  obtain ⟨rank, hrank⟩ := hrt.ranked
  intro p hp a ha
  obtain ⟨i, hi⟩ := List.mem_iff_getElem?.mp ((mem_plans hderive).mp hp)
  have hplan := (Runtime.getElem?_plans_ofSet S i).trans hi
  obtain ⟨j, hup, q, f, t, hq, howner, hf, hname, hshape, helem, hstored, hkind⟩ :=
    hrt.assignment hplan ha
  have hreceives : Receives q f a := ⟨howner, hf, hname, hshape, hstored, t, helem, hkind⟩
  have hcount := isCount_of_receives (hrt.plan hq) hreceives
  rw [Runtime.getElem?_plans_ofSet] at hq
  have hbound : rank i ≤ S.accepted.length := by
    have hlt := (hrank i p hplan).1
    rw [Runtime.ofSet, List.size_toArray] at hlt
    exact hlt.le
  obtain ⟨nearer, further, hchain, hnearer⟩ :=
    PlanSet.chain_of_ancestor hrt hrank hup hq hi hbound
  have hfit := namesFit_of_emitAll hemitter hemit
    ((mem_plans hderive).mpr (List.mem_of_getElem? hq))
  have hne : ∀ n ∈ nearer, n.name ≠ q.name := fun n hn => (hnearer n hn).2
  have hsole := hfit.count_setter hf hcount
  rw [hname] at hsole
  refine ⟨nearer, q, further, f, hchain, hreceives, hne, hsole, ?_⟩
  have hdeclares : "Set" ++ exported a.field ∈ members q [] [] :=
    List.count_pos_iff.mp ((hsole [] []).2 ▸ Nat.one_pos)
  rw [PlanSet.selected?_eq_some_iff hchain hne hdeclares]
  simp only [mem_members_setter]

/-- A type that sets two numbers of its parent, and has one of its own whose name differs from one
of them in the case of the first letter. -/
def cased : Model where
  classes := [
    { name := "Base"
      attributes := [
        { name := "flag", shape := some .primitive, type := "byte" },
        { name := "value", shape := some .primitive, type := "byte" }] },
    { name := "Kid"
      parent := "Base"
      attributes := [{ name := "Value", shape := some .primitive, type := "byte" }]
      initialValues := [
        { setter := "setFlag", value := "4" },
        { setter := "setValue", value := "5" }] }]

/-- Both assignments are meant for the parent; no other type takes the name of the first setter, and
a call of the second reaches the type itself. -/
def CasedFacts (S : PlanSet) : Prop :=
  ∃ p ∈ S.plans, p.name = "Kid" ∧
    (∃ a ∈ p.assignments, a.owner = "Base" ∧ a.field = "flag" ∧ ∀ n ∈ S.chain p,
      n.name = "Base" ∨ "Set" ++ exported "flag" ∉ members n [] []) ∧
    ∃ a ∈ p.assignments, a.owner = "Base" ∧ a.field = "value" ∧
      (S.selected? p ("Set" ++ exported "value")).map (·.name) = some "Kid"

instance (S : PlanSet) : Decidable (CasedFacts S) := by
  unfold CasedFacts
  infer_instance

theorem emitted_cased : (Resolve.run .standard 3 cased).succeeded = true ∧
    ∃ S e files, PlanSet.derive true (Resolve.run .standard 3 cased).model = .ok S ∧
      goEmitter ⟨"messages", true⟩ defaultWireImport = .ok e ∧ e.emitAll S = .ok files ∧
      CasedFacts S := by
  have hresolve : (Resolve.run .standard 3 cased).succeeded = true := by decide +kernel
  have hrun : ((PlanSet.derive true (Resolve.run .standard 3 cased).model).toOption.bind fun S =>
      (goEmitter ⟨"messages", true⟩ defaultWireImport).toOption.bind fun e =>
        (e.emitAll S).toOption.map fun _ => decide (CasedFacts S)) = some true := by
    decide +kernel
  simp only [Option.bind_eq_some_iff, Option.map_eq_some_iff, decide_eq_true_iff] at hrun
  obtain ⟨S, hderive, e, hemitter, files, hemit, hfacts⟩ := hrun
  exact ⟨hresolve, S, e, files, ok_of_toOption hderive, ok_of_toOption hemitter,
    ok_of_toOption hemit, hfacts⟩

/-- The kid assigns the flag of its parent, and the call reaches it. -/
theorem assigned_selected_cased : (Resolve.run .standard 3 cased).succeeded = true ∧
    ∃ S e files, PlanSet.derive true (Resolve.run .standard 3 cased).model = .ok S ∧
      goEmitter ⟨"messages", true⟩ defaultWireImport = .ok e ∧ e.emitAll S = .ok files ∧
      ∃ p ∈ S.plans, p.name = "Kid" ∧ ∃ a ∈ p.assignments, a.field = "flag" ∧ ∃ q f,
        S.selected? p ("Set" ++ exported a.field) = some q ∧ q.name = "Base" ∧ Receives q f a := by
  obtain ⟨hresolve, S, e, files, hderive, hemitter, hemit, p, hp, hname,
    ⟨a, ha, howner, hfield, hfree⟩, -⟩ := emitted_cased
  obtain ⟨nearer, q, further, f, hchain, hreceives, hne, -, hiff⟩ :=
    assigned_selected_iff hresolve hderive hemitter hemit p hp a ha
  have hq : q.name = "Base" := hreceives.owner.trans howner
  refine ⟨hresolve, S, e, files, hderive, hemitter, hemit, p, hp, hname, a, ha, hfield, q, f,
    hiff.mpr fun n hn htakes => ?_, hq, hreceives⟩
  rw [hfield] at htakes
  have hchained : n ∈ S.chain p := hchain ▸ List.mem_append_left _ hn
  exact (hfree n hchained).resolve_left (hq ▸ hne n hn) (mem_members_setter.mpr htakes)

/-- **A generated constructor may assign another field than a message does.**  A number of the
parent is meant, and the call reaches that of the type itself. -/
theorem assigned_elsewhere : (Resolve.run .standard 3 cased).succeeded = true ∧
    ∃ S e files, PlanSet.derive true (Resolve.run .standard 3 cased).model = .ok S ∧
      goEmitter ⟨"messages", true⟩ defaultWireImport = .ok e ∧ e.emitAll S = .ok files ∧
      ∃ p ∈ S.plans, ∃ a ∈ p.assignments, a.owner = "Base" ∧ a.field = "value" ∧
        (S.selected? p ("Set" ++ exported a.field)).map (·.name) = some "Kid" := by
  obtain ⟨hresolve, S, e, files, hderive, hemitter, hemit, p, hp, -, -, a, ha, howner, hfield,
    hselected⟩ := emitted_cased
  exact ⟨hresolve, S, e, files, hderive, hemitter, hemit, p, hp, a, ha, howner, hfield,
    hfield ▸ hselected⟩

end Emit

end WireSchema

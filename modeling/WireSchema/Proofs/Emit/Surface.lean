import Mathlib
import WireSchema.Proofs.Emit.Promotion
import WireSchema.Surface

/-!
# The surface of the generated package

The check of a generated package looks for every accepted type under the name that the schema gives
it, with a constructor and the methods all messages share.  The package declares the types with
capital first letters.  So the check finds what it looks for just if the schema writes the names
with capitals too; every other type is reported as missing, and nothing else is.

Functions and methods are looked up by halving an ordered list, which finds what is there.

## Main results

* `Surface.holds_iff` — an ordered list holds its members.
* `gaps_surface` — what the check misses in a package of some plans.
-/

namespace WireSchema

namespace Surface

/-! ## Looking up a name -/

/-- Before `lo` the names are below a name, from `hi` on they are not. -/
structure Splits (names : Array String) (name : String) (lo hi : Nat) : Prop where
  le : lo ≤ hi
  size : hi ≤ names.size
  below : ∀ i < lo, names.getD i "" < name
  above : ∀ i, hi ≤ i → i < names.size → ¬ names.getD i "" < name

/-- The names do not fall. -/
def Ordered (names : Array String) : Prop :=
  ∀ i j, i ≤ j → j < names.size → names.getD i "" ≤ names.getD j ""

section Search

variable {names : Array String} {name : String}

/-- One halving keeps the place between its bounds. -/
theorem Splits.halve {lo hi : Nat} (h : Splits names name lo hi) (hordered : Ordered names)
    (hlt : lo < hi) :
    (names.getD ((lo + hi) / 2) "" < name → Splits names name ((lo + hi) / 2 + 1) hi) ∧
      (¬ names.getD ((lo + hi) / 2) "" < name → Splits names name lo ((lo + hi) / 2)) := by
  have hmid : lo ≤ (lo + hi) / 2 ∧ (lo + hi) / 2 < hi := by omega
  have hsize := h.size
  constructor
  · intro hbelow
    refine ⟨by omega, hsize, fun i hi' => ?_, h.above⟩
    exact lt_of_le_of_lt (hordered i _ (by omega) (by omega)) hbelow
  · intro habove
    refine ⟨hmid.1, by omega, h.below, fun i hi' hlt' hbelow => habove ?_⟩
    exact lt_of_le_of_lt (hordered _ i hi' hlt') hbelow

/-- Halving ends at the first place where the names are not below the name. -/
theorem Splits.lowerBound (hordered : Ordered names) {fuel lo hi : Nat}
    (h : Splits names name lo hi) (hfuel : hi - lo < fuel) :
    Splits names name (lowerBound names name fuel lo hi) (lowerBound names name fuel lo hi) := by
  induction fuel generalizing lo hi with
  | zero => exact absurd hfuel (Nat.not_lt_zero _)
  | succ fuel ih =>
      rw [Surface.lowerBound]
      split
      · rename_i hlt
        obtain ⟨hup, hdown⟩ := h.halve hordered hlt
        dsimp only
        split
        · exact ih (hup ‹_›) (by omega)
        · exact ih (hdown ‹_›) (by omega)
      · rename_i hge
        obtain rfl : lo = hi := Nat.le_antisymm h.le (Nat.not_lt.mp hge)
        exact h

end Search

theorem getD_of_lt {names : List String} {i : Nat} (h : i < names.length) :
    names.toArray.getD i "" = names[i] := by
  rw [Array.getD_eq_getD_getElem?, List.getElem?_toArray, List.getElem?_eq_getElem h,
    Option.getD_some]

theorem ordered_of_pairwise {names : List String} (h : names.Pairwise (· ≤ ·)) :
    Ordered names.toArray := by
  intro i j hij hj
  rw [List.size_toArray] at hj
  rw [getD_of_lt hj, getD_of_lt (hij.trans_lt hj)]
  rcases hij.eq_or_lt with rfl | hlt
  · exact le_rfl
  · exact List.pairwise_iff_getElem.mp h i j _ hj hlt

/-- **An ordered list holds its members**, and nothing else. -/
theorem holds_iff {names : List String} (h : names.Pairwise (· ≤ ·)) {name : String} :
    holds names name = true ↔ name ∈ names := by
  have hwhole : Splits names.toArray name 0 names.toArray.size :=
    ⟨Nat.zero_le _, le_rfl, by simp, by omega⟩
  have hsplits := Splits.lowerBound (ordered_of_pairwise h) hwhole (Nat.lt_succ_self _)
  rw [holds, beq_iff_eq, List.getElem?_toArray]
  refine ⟨List.mem_of_getElem?, fun hmem => ?_⟩
  obtain ⟨j, hj, hname⟩ := List.mem_iff_getElem.mp hmem
  generalize lowerBound names.toArray name _ 0 _ = k at hsplits ⊢
  have hkj : k ≤ j := by
    by_contra hlt
    have hbelow := hsplits.below j (Nat.not_le.mp hlt)
    rw [getD_of_lt hj, hname] at hbelow
    exact lt_irrefl _ hbelow
  have hk : k < names.length := hkj.trans_lt hj
  have hle := ordered_of_pairwise h k j hkj hj
  have hge := hsplits.above k le_rfl hk
  rw [getD_of_lt hk] at hle hge
  rw [getD_of_lt hj, hname] at hle
  rw [List.getElem?_eq_getElem hk, le_antisymm hle (not_lt.mp hge)]

/-- A list put in order holds its members. -/
theorem holds_mergeSort {names : List String} {name : String} :
    holds names.mergeSort name = true ↔ name ∈ names := by
  rw [holds_iff (List.pairwise_mergeSort' (· ≤ ·) names), List.mem_mergeSort]

end Surface

namespace Emit

/-! ## What the generated files declare -/

/-- The record type of a plan, with methods that it gets from elsewhere, such as its parent. -/
def typeSurface (p : Plan) (promoted : List String) : Surface.TypeSurface where
  name := typeName p.name
  fields :=
    (if p.hasParent then [⟨typeName p.parentName, typeName p.parentName, true⟩] else []) ++
      (storedFields p).map fun f => ⟨fieldIdent f.name, storageType f, false⟩
  methods := ((methods p [] []).map (·.name) ++ promoted).mergeSort

/-- The package of some plans: their types, a constructor for each, and other functions. -/
def surface (path : String) (plans : List Plan) (promoted : Plan → List String)
    (others : List String) : Surface where
  path
  types := plans.map fun p => typeSurface p (promoted p)
  functions := (plans.map (constructorName ·.name) ++ others).mergeSort

section Package

variable {path : String} {plans : List Plan} {promoted : Plan → List String} {others : List String}
  {p : Plan} {withSize : Bool}

theorem type?_surface {name : String} {t : Surface.TypeSurface}
    (h : (surface path plans promoted others).type? name = some t) :
    ∃ p ∈ plans, t = typeSurface p (promoted p) ∧ typeName p.name = name := by
  rw [Surface.type?] at h
  obtain ⟨p, hp, rfl⟩ := List.mem_map.mp (List.mem_reverse.mp (List.mem_of_find?_eq_some h))
  have hname := List.find?_some h
  exact ⟨p, hp, rfl, beq_iff_eq.mp hname⟩

/-- A type is found under the name it is declared with. -/
theorem exists_type? (hp : p ∈ plans) (hname : typeName p.name = p.name) :
    ∃ t, (surface path plans promoted others).type? p.name = some t := by
  refine Option.isSome_iff_exists.mp (List.find?_isSome.mpr ⟨typeSurface p (promoted p), ?_, ?_⟩)
  · exact List.mem_reverse.mpr (List.mem_map_of_mem (f := fun p => typeSurface p (promoted p)) hp)
  · exact beq_iff_eq.mpr hname

/-- A type is not found under another name than that: the name would be capitalized, as all names of
types are, and then the type would be declared with it. -/
theorem type?_eq_none (hname : typeName p.name ≠ p.name) :
    (surface path plans promoted others).type? p.name = none := by
  refine Option.eq_none_iff_forall_ne_some.mpr fun t ht => hname ?_
  obtain ⟨q, -, -, hq⟩ := type?_surface ht
  rw [← hq]
  exact Naming.initialCap_initialCap q.name

/-- A declared type has every method the check asks for. -/
theorem holds_method (hsize : withSize = true → p.size?.isSome = true) {m : String}
    (hm : m ∈ Surface.messageMethods ++ if withSize then [Surface.sizeMethod] else []) :
    Surface.holds (typeSurface p (promoted p)).methods m = true := by
  refine Surface.holds_mergeSort.mpr (List.mem_append_left _ (mem_names_methods.mpr (.inl ?_)))
  rcases List.mem_append.mp hm with hmessage | hsized
  · have hcommon : ∀ m ∈ Surface.messageMethods, m ∈ commonMethods p := by
      unfold commonMethods
      cases p.size?.isSome <;> decide
    exact hcommon m hmessage
  · split at hsized
    · rename_i hwith
      rw [List.mem_singleton.mp hsized, commonMethods, hsize hwith]
      decide
    · cases hsized

/-- What the check misses of one plan. -/
theorem gapsOf_surface (hp : p ∈ plans)
    (hsize : withSize = true → ∀ q ∈ plans, q.size?.isSome = true) :
    (surface path plans promoted others).gapsOf withSize p.name =
      if typeName p.name = p.name then [] else [.type p.name] := by
  rw [Surface.gapsOf]
  split
  · rename_i hnone
    rw [if_neg]
    intro hname
    obtain ⟨t, ht⟩ : ∃ t, (surface path plans promoted others).type? p.name = some t :=
      exists_type? hp hname
    cases hnone.symm.trans ht
  · rename_i t ht
    obtain ⟨q, hq, rfl, hname⟩ := type?_surface ht
    have hdeclared : typeName p.name = p.name := by
      by_contra hne
      cases (type?_eq_none hne).symm.trans ht
    have hconstructor :
        Surface.holds (surface path plans promoted others).functions ("New" ++ p.name) = true := by
      refine Surface.holds_mergeSort.mpr (List.mem_append_left _ ?_)
      exact List.mem_map.mpr ⟨q, hq, congrArg ("New" ++ ·) hname⟩
    have hmethods : ∀ m ∈ Surface.messageMethods ++ (if withSize then [Surface.sizeMethod] else []),
        ¬ (!Surface.holds (typeSurface q (promoted q)).methods m) = true := fun m hm => by
      simp [holds_method (fun hwith => hsize hwith q hq) hm]
    rw [if_pos hdeclared]
    dsimp only
    rw [hconstructor, List.filter_eq_nil_iff.mpr hmethods]
    rfl

end Package

/-- **What the check misses in a generated package.**  Every type whose name in the schema is not
capitalized is missing, and nothing else; the check passes just if there is none.  Methods from
elsewhere and other functions make no difference. -/
theorem gaps_surface (path : String) (plans : List Plan) (promoted : Plan → List String)
    (others : List String) (withSize : Bool)
    (hsize : withSize = true → ∀ p ∈ plans, p.size?.isSome = true) :
    (surface path plans promoted others).gaps (plans.map (·.name)) withSize =
        (plans.flatMap fun p => if typeName p.name = p.name then [] else [.type p.name]) ∧
      ((surface path plans promoted others).gapText? (plans.map (·.name)) withSize = none ↔
        ∀ p ∈ plans, typeName p.name = p.name) := by
  have hgaps : (surface path plans promoted others).gaps (plans.map (·.name)) withSize =
      plans.flatMap fun p => if typeName p.name = p.name then [] else [.type p.name] := by
    rw [Surface.gaps, List.flatMap_map]
    exact List.flatMap_congr fun p hp => gapsOf_surface hp hsize
  refine ⟨hgaps, ?_⟩
  have hnone : (surface path plans promoted others).gapText? (plans.map (·.name)) withSize = none ↔
      (surface path plans promoted others).gaps (plans.map (·.name)) withSize = [] := by
    rw [Surface.gapText?]
    cases (surface path plans promoted others).gaps (plans.map (·.name)) withSize <;> simp
  rw [hnone, hgaps, List.flatMap_eq_nil_iff]
  refine forall₂_congr fun p _ => ?_
  by_cases hname : typeName p.name = p.name
  · simp [hname]
  · simp [hname]

/-- Capitalized types pass the check, with sizes. -/
theorem gaps_surface_cased :
    ∃ S, PlanSet.derive true (Resolve.run .standard 3 cased).model = .ok S ∧
    S.plans.map (·.name) = ["Base", "Kid"] ∧ (∀ p ∈ S.plans, p.size?.isSome = true) ∧
    (surface "pdu" S.plans (fun _ => []) []).gapText? (S.plans.map (·.name)) true = none := by
  have hrun : ((PlanSet.derive true (Resolve.run .standard 3 cased).model).toOption.map fun S =>
      decide (S.plans.map (·.name) = ["Base", "Kid"] ∧ ∀ p ∈ S.plans, p.size?.isSome = true)) =
        some true := by
    decide +kernel
  simp only [Option.map_eq_some_iff, decide_eq_true_iff] at hrun
  obtain ⟨S, hS, hnames, hsize⟩ := hrun
  refine ⟨S, ok_of_toOption hS, hnames, hsize,
    (gaps_surface "pdu" S.plans (fun _ => []) [] true fun _ => hsize).2.mpr fun p hp => ?_⟩
  have hcapital : ∀ name ∈ ["Base", "Kid"], typeName name = name := by decide +kernel
  exact hcapital _ (hnames ▸ List.mem_map_of_mem hp)

/-- A type whose name is not capitalized. -/
def small : Model where
  classes := [{ name := "pdu", attributes := [] }]

/-- **A package may fail its check as it was emitted.**  The type is declared with a capital, and
missed. -/
theorem emitted_missing : (Resolve.run .standard 3 small).succeeded = true ∧
    ∃ S e files, PlanSet.derive true (Resolve.run .standard 3 small).model = .ok S ∧
      goEmitter ⟨"pdu", true⟩ defaultWireImport = .ok e ∧ e.emitAll S = .ok files ∧
      (surface "pdu" S.plans (fun _ => []) []).gapText? (S.plans.map (·.name)) true =
        some "package pdu: type pdu is missing" := by
  have hresolve : (Resolve.run .standard 3 small).succeeded = true := by decide +kernel
  have hrun : ((PlanSet.derive true (Resolve.run .standard 3 small).model).toOption.bind fun S =>
      (goEmitter ⟨"pdu", true⟩ defaultWireImport).toOption.bind fun e =>
        (e.emitAll S).toOption.map fun _ =>
          (surface "pdu" S.plans (fun _ => []) []).gapText? (S.plans.map (·.name)) true) =
      some (some "package pdu: type pdu is missing") := by
    decide +kernel
  simp only [Option.bind_eq_some_iff, Option.map_eq_some_iff] at hrun
  obtain ⟨S, hderive, e, hemitter, files, hemit, hgap⟩ := hrun
  exact ⟨hresolve, S, e, files, ok_of_toOption hderive, ok_of_toOption hemitter,
    ok_of_toOption hemit, hgap⟩

end Emit

end WireSchema

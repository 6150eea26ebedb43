import WireSchema.Diagnostic
import WireSchema.Plan

/-!
# Checking message types

What a message type must satisfy to have a plan, apart from the fate of the types it uses: every
name is bound, every shape can be laid out, and the count of a serialized list is on the wire before
the list.
-/

namespace WireSchema.Plan

open Diagnostic (unknownType unresolvedCount unsupportedShape unknownSetter)

/-- An attribute whose type is not bound. -/
def unboundType (owner what : String) (a : Attribute) : Report :=
  .error unknownType (what ++ " " ++ Text.quoted a.type ++ " is not resolved") owner a.name

/-- The elements of a list must be of a known type. -/
def checkElement (owner : String) (a : Attribute) : Report :=
  if a.primitive?.isNone && a.class?.isNone then unboundType owner "list element type" a
  else .empty

/-- A fixed list has at least one element; as part of a size its elements must be numbers. -/
def checkFixedList (sized : Bool) (m : Model) (owner : String) (a : Attribute) (length : Int) :
    Report :=
  checkElement owner a ++
    (if length ≤ 0 then
      Report.error unsupportedShape
        ("fixed list length must be positive, got " ++ toString length) owner a.name
    else .empty) ++
    (match a.class? with
      | some i =>
          if sized then
            Report.error unsupportedShape
              ("fixed list of message type " ++ m.className i ++
                " has no closed-form size; use a variable list or disable size methods")
              owner a.name
          else .empty
      | none => .empty)

/-- The shape of an attribute can be laid out. -/
def checkShape (sized : Bool) (m : Model) (owner : String) (a : Attribute) : Report :=
  match a.shape with
  | none =>
      .error unsupportedShape
        "attribute kind (missing) is not one of primitive, class, fixed_list, variable_list"
        owner a.name
  | some .primitive =>
      if a.primitive?.isNone then unboundType owner "primitive type" a else .empty
  | some .reference =>
      if a.class?.isNone then unboundType owner "referenced type" a else .empty
  | some (.fixedList n) => checkFixedList sized m owner a n
  | some .variableList => checkElement owner a

/-- The variable list at `here` has its own count field in the same type, and if it is serialized
the count is on the wire before it. -/
def checkList (m : Model) (owner : String) (here : AttrRef) (a : Attribute) : Report :=
  let unbound :=
    Report.error unresolvedCount
      "variable list is not bound to exactly one count field of the same type" owner a.name
  match a.countField? with
  | none => unbound
  | some p =>
      match m.attribute? p with
      | none => unbound
      | some count =>
          if count.countedList? ≠ some here ∨ p.cls ≠ here.cls then unbound
          else if !a.serialize then .empty
          else if !count.serialize then
            .error unsupportedShape
              ("count field " ++ Text.quoted count.name ++
                " is not serialized, so the list length is unknown when decoding") owner a.name
          else if here.attr < p.attr then
            .error unsupportedShape
              ("count field " ++ Text.quoted count.name ++
                " is declared after the list, so the list length is unknown when decoding")
              owner a.name
          else .empty

/-- The count field at `here` is an integer and sizes exactly one list. -/
def checkCount (owner : String) (attributes : List Attribute) (here : AttrRef) (a : Attribute) :
    Report :=
  if a.countedList?.isNone then
    .error unresolvedCount "count field sizes no list" owner a.name
  else
    let lists := (attributes.filter fun l => l.isVariableList && l.countField? == some here).length
    (if 1 < lists then
      Report.error unresolvedCount ("count field sizes " ++ toString lists ++ " lists") owner a.name
    else .empty) ++
      (if !a.isPrimitive || (a.primitive?.map (!·.kind.isInteger)).getD false then
        Report.error unresolvedCount "count field must be an integer primitive" owner a.name
      else .empty)

/-- The counts and lists of the message type at `i`. -/
def checkCounts (m : Model) (i : Nat) (c : Class) : Report :=
  .join (c.attributes.mapIdx fun k a =>
    if a.isVariableList then checkList m c.name ⟨i, k⟩ a
    else if a.isCount then checkCount c.name c.attributes ⟨i, k⟩ a
    else .empty)

/-- Everything about the message type at `i` that does not depend on other types' plans. -/
def check (sized : Bool) (m : Model) (i : Nat) (c : Class) : Report :=
  (if c.hasParent && c.parentClass?.isNone then
    Report.error unknownType ("parent type " ++ Text.quoted c.parent ++ " is not resolved")
      c.name ""
  else .empty) ++
    .join (c.attributes.map (checkShape sized m c.name)) ++
    checkCounts m i c ++
    .join (c.initialValues.map fun v =>
      if v.target?.isNone then
        Report.error unknownSetter
          ("initial value setter " ++ Text.quoted v.setter ++ " is not bound") c.name v.setter
      else .empty)

end WireSchema.Plan

import WireSchema.Message.Store

/-!
# Comparing and measuring messages

Two messages are equal if they follow the same plan and agree on every compared field, parent parts
first.  Numbers are compared as numbers, so NaN differs from itself and the two zeros are equal.

The size of a message is computed from the size expression of its plan, without writing it.
-/

namespace WireSchema.Message

/-- Equality of two items; messages are compared by `same`. -/
def sameItem (same : Id → Id → Except Failure Bool) (e : Element) (a b : Item) :
    Except Failure Bool :=
  match e, a, b with
  | .message _, .message i, .message j => same i j
  | .message _, .scalar s, _ => .error (.badForm s.kind.typeName messageTypeName)
  | .message _, _, .scalar s => .error (.badForm s.kind.typeName messageTypeName)
  | .primitive _, .scalar s, .scalar t => .ok (s.sameNumber t)
  | .primitive _, a, b => .ok (a == b)

/-- Equality of two lists. -/
def sameItems (same : Id → Id → Except Failure Bool) (e : Element) :
    List Item → List Item → Except Failure Bool
  | [], [] => .ok true
  | a :: as, b :: bs => do
      if ← sameItem same e a b then sameItems same e as bs else return false
  | _, _ => .ok false

/-- Whether two messages agree on one field. -/
def agree (same : Id → Id → Except Failure Bool) (a b : Cell) (c : Plan.Comparison) :
    Except Failure Bool :=
  match c.rule with
  | .value =>
      match a.value? c.field, b.value? c.field with
      | some (.single (.scalar s)), some (.single (.scalar t)) => .ok (s.sameNumber t)
      | v, w => .ok (v == w)
  | .reference => do same (← a.message c.field) (← b.message c.field)
  | .fixedList _ | .variableList =>
      let xs := a.list c.field
      let ys := b.list c.field
      if xs.length ≠ ys.length then .ok false else sameItems same c.elem xs ys

/-- Whether two messages agree on all of some fields, asked in order. -/
def agreeAll (same : Id → Id → Except Failure Bool) (a b : Cell) :
    List Plan.Comparison → Except Failure Bool
  | [] => .ok true
  | c :: rest => do if ← agree same a b c then agreeAll same a b rest else return false

/-- Equality of two messages; messages in them are compared by `same`. -/
def equalWith (rt : Runtime) (st : Store) (same : Id → Id → Except Failure Bool) (i j : Id) :
    Except Failure Bool := do
  let a ← st.cell i
  let b ← st.cell j
  if a.plan ≠ b.plan then return false
  let p ← rt.planOf st i
  let parents ←
    if p.hasParent then
      match a.parent?, b.parent? with
      | some x, some y => same x y
      | x, y => .ok (x == y)
    else .ok true
  if parents then agreeAll same a b p.comparisons else return false

/-- Equality of two messages that nest at most `depth` deep. -/
def equalDepth (rt : Runtime) (st : Store) : (depth : Nat) → Id → Id → Except Failure Bool
  | 0, _, _ => .error (.of .tooDeep)
  | depth + 1, i, j => equalWith rt st (equalDepth rt st depth) i j

/-- Equality of two messages. -/
def equal (rt : Runtime) (st : Store) (i j : Id) : Except Failure Bool :=
  equalDepth rt st (st.size + 1) i j

/-- The sum of the sizes of the messages in a list. -/
def sizeItems (sizeOf : Id → Except Failure Int) : List Item → Except Failure Int
  | [] => .ok 0
  | .message id :: rest => do return (← sizeOf id) + (← sizeItems sizeOf rest)
  | .scalar s :: _ => .error (.badForm s.kind.typeName messageTypeName)

/-- What one term adds to the size of a message. -/
def termSize (sizeOf : Id → Except Failure Int) (c : Cell) (t : Plan.SizeTerm) :
    Except Failure Int :=
  match t.rule with
  | .static .. => .ok 0
  | .reference _ => do sizeOf (← c.message t.field)
  | .countTimesWidth bytes => .ok ((c.list t.field).length * bytes)
  | .elementSum .. => sizeItems sizeOf (c.list t.field)

/-- The sum of what some terms add. -/
def termSizes (sizeOf : Id → Except Failure Int) (c : Cell) :
    List Plan.SizeTerm → Except Failure Int
  | [] => .ok 0
  | t :: rest => do return (← termSize sizeOf c t) + (← termSizes sizeOf c rest)

/-- The size of a message; messages in it are measured by `sizeOf`. -/
def sizeWith (rt : Runtime) (st : Store) (sizeOf : Id → Except Failure Int) (id : Id) :
    Except Failure Int := do
  let p ← rt.planOf st id
  let c ← st.cell id
  let some s := p.size? | throw (.at_ p.name .noSize)
  let parent ←
    if s.parent.isEmpty then pure 0
    else
      match c.parent? with
      | some q => sizeOf q
      | none => throw .missingPart
  return s.fixed + parent + (← termSizes sizeOf c s.dynamic)

/-- The size of a message that nests at most `depth` deep. -/
def sizeDepth (rt : Runtime) (st : Store) : (depth : Nat) → Id → Except Failure Int
  | 0, _ => .error (.of .tooDeep)
  | depth + 1, id => sizeWith rt st (sizeDepth rt st depth) id

/-- The size of a message in bytes. -/
def size (rt : Runtime) (st : Store) (id : Id) : Except Failure Int :=
  sizeDepth rt st (st.size + 1) id

end WireSchema.Message

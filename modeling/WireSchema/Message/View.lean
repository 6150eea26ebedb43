import WireSchema.Message.Access

/-!
# Messages as trees

A view is a message without its store: everything it holds, spelled out.  Counts are shown as the
length of their list.  Messages that share a part have equal views of it.
-/

namespace WireSchema.Message

/-- A message or a value in it, spelled out. -/
inductive View where
  | scalar (s : Scalar)
  | list (items : List View)
  | message (type : String) (parent : Option View) (fields : List (String × View))

/-- The view of an item; messages are shown by `show_`. -/
def viewItem (show_ : Id → Except Failure View) : Item → Except Failure View
  | .scalar s => .ok (.scalar s)
  | .message id => show_ id

/-- The view of a value. -/
def viewValue (show_ : Id → Except Failure View) : Value → Except Failure View
  | .single i => viewItem show_ i
  | .list items => do return .list (← items.mapM (viewItem show_))

/-- The view of a message; messages in it are shown by `show_`. -/
def viewWith (rt : Runtime) (st : Store) (show_ : Id → Except Failure View) (id : Id) :
    Except Failure View := do
  let p ← rt.planOf st id
  let c ← st.cell id
  let parent ← c.parent?.mapM show_
  let fields ← p.fields.mapM fun f => do
    return (f.name, ← viewValue show_ (← getField rt st id f.name))
  return .message p.name parent fields

/-- The view of a message that nests at most `depth` deep. -/
def viewDepth (rt : Runtime) (st : Store) : (depth : Nat) → Id → Except Failure View
  | 0, _ => .error (.of .tooDeep)
  | depth + 1, id => viewWith rt st (viewDepth rt st depth) id

/-- The view of a message. -/
def view (rt : Runtime) (st : Store) (id : Id) : Except Failure View :=
  viewDepth rt st (st.size + 1) id

/-- The view of the value of a field. -/
def viewField (rt : Runtime) (st : Store) (id : Id) (field : String) : Except Failure View := do
  viewValue (view rt st) (← getField rt st id field)

end WireSchema.Message

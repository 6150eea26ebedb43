import Mathlib
import WireSchema.Proofs.Codec.Fresh
import WireSchema.Proofs.Message.Access
import WireSchema.Proofs.Message.Encode

/-!
# Text in messages

A field with a text accessor is a fixed list of signed or unsigned bytes.  Writing text into it
stores the bytes of the text, cut or padded with zeros to the length of the list, as numbers of that
kind; a byte from 128 on becomes negative in a signed list.  Reading the text and encoding the field
give the same bytes back, and so does copying the text into any list of the length without a message
around it.  Nothing else in any message is different afterwards.

## Main results

* `accessor_holdsText` — text accessors are for lists of bytes.
* `getField_put` — a write to one field of one part is seen in no other field.
* `setText_exact` — what writing text into a message does.
-/

namespace WireSchema

/-! ## Which lists hold text -/

namespace Plan

section Derive

variable {m : Model} {owner qualified : String} {a : Attribute} {part : Part}

/-- Text is kept in signed or unsigned bytes. -/
theorem holdsText_iff {t : Primitive} :
    holdsText t = true ↔ t.kind = .int8 ∨ t.kind = .uint8 := by
  unfold holdsText Primitive.bits
  cases t.kind <;> decide

theorem fixedListPart_holdsText {n : Int} {f : Field}
    (h : fixedListPart qualified a n f = .ok part) :
    ∀ x ∈ part.accessors, holdsText x.type = true := by
  unfold fixedListPart at h
  cases hunbound : a.primitive?.isNone && a.class?.isNone with
  | true =>
      rw [hunbound] at h
      cases h
  | false =>
      simp only [hunbound, Bool.false_eq_true, if_false, bind, Except.bind, pure, Except.pure,
        Except.ok.injEq] at h
      subst h
      intro x hx
      cases helem : f.elem with
      | message c => simp [helem] at hx
      | primitive t =>
          simp only [helem] at hx
          split at hx
          · rename_i hboth
            rw [List.mem_singleton.mp hx]
            exact (Bool.and_eq_true_iff.mp hboth).2
          · cases hx

theorem partOf_holdsText (hspec : PartSpec m a part) (h : partOf m owner a = .ok part) :
    ∀ x ∈ part.accessors, holdsText x.type = true := by
  intro x hx
  -- Only fixed lists have accessors.
  obtain ⟨-, hfixed, -⟩ := hspec.accessors x hx
  have hshape : a.shape = some (.fixedList x.length) := by rw [hspec.field.shape, hfixed]
  unfold partOf at h
  cases hfield : fieldOf m (owner ++ "." ++ a.name) a (.fixedList x.length) with
  | error e => simp [hshape, hfield, bind, Except.bind] at h
  | ok f =>
      simp only [hshape, hfield, bind, Except.bind] at h
      exact fixedListPart_holdsText h x hx

theorem derive_holdsText {sized : Bool} {c : Class} {p : Plan}
    (hbound : ∀ a ∈ c.attributes, Resolve.TypeBound m a)
    (hcount : ∀ a ∈ c.attributes, a.isCount = true → a.isPrimitive = true)
    (h : derive sized m c = .ok p) : ∀ x ∈ p.accessors, holdsText x.type = true := by
  obtain ⟨parts, assignments, hparts, -, rfl⟩ := derive_parts h
  intro x hx
  obtain ⟨part, hpart, hx⟩ := List.mem_flatMap.mp hx
  obtain ⟨a, ha, hok⟩ := exists_of_mem_mapM hparts hpart
  exact partOf_holdsText (partOf_spec (hbound a ha) (hcount a ha) hok) hok x hx

end Derive

end Plan

namespace Message

open Plan (Field TextAccessor EncodeStep)
open Resolve (Bound)

/-- **Text accessors are for lists of bytes.** -/
theorem accessor_holdsText {m : Model} {sized : Bool} {S : PlanSet} (hm : Bound m)
    (hderive : PlanSet.derive sized m = .ok S) {i : Nat} {p : Plan}
    (hp : (Runtime.ofSet S).plans[i]? = some p) {acc : TextAccessor} (hacc : acc ∈ p.accessors) :
    acc.type.kind = .int8 ∨ acc.type.kind = .uint8 := by
  rw [Runtime.getElem?_plans_ofSet] at hp
  obtain ⟨_, c, hmember⟩ := PlanSet.exists_member hderive hp
  obtain ⟨p₀, hp₀, rfl⟩ := hmember.derived
  have hc := List.mem_of_getElem? hmember.cls
  exact Plan.holdsText_iff.mp
    (Plan.derive_holdsText (hm.types c hc) (fun _ => hm.count_isPrimitive hc) hp₀ acc hacc)

/-! ## One field of one part -/

section Put

variable {rt : Runtime} {st : Store} {part : Id} {field : String} {v : Value}

theorem parent?_put (z : Id) : (st.put part field v).parent? z = st.parent? z := by
  rw [Store.parent?, Store.cell?_put]
  split
  · rw [Store.parent?]
    cases st.cell? z <;> rfl
  · rfl

theorem partsFrom_put (fuel : Nat) :
    ∀ z, (st.put part field v).partsFrom fuel z = st.partsFrom fuel z := by
  induction fuel with
  | zero => exact fun _ => rfl
  | succ fuel ih =>
      intro z
      rw [Store.partsFrom, Store.partsFrom, parent?_put]
      cases st.parent? z with
      | none => rfl
      | some q => exact congrArg (List.cons z) (ih q)

theorem parts_put (z : Id) : (st.put part field v).parts z = st.parts z := by
  rw [Store.parts, Store.parts, Store.size_put, partsFrom_put]

theorem owner?_put (z : Id) (g : String) :
    owner? rt (st.put part field v) z g = owner? rt st z g := by
  simp only [owner?, parts_put, planOf?_put]

theorem accessor_put (z : Id) (g : String) :
    accessor rt (st.put part field v) z g = accessor rt st z g := by
  simp only [accessor, parts_put, planOf?_put, Runtime.typeOf]

/-- **A write to one field of one part is seen in no other field**, if a list keeps its length,
which a count may tell. -/
theorem getField_put {c : Cell} (hc : st.cell? part = some c)
    (hlength : ((c.put field v).list field).length = (c.list field).length) {y : Id} {g : String}
    (hother : ∀ f, owner? rt st y g = some (part, f) → g ≠ field) :
    getField rt (st.put part field v) y g = getField rt st y g := by
  have hcount : ∀ l, ((c.put field v).list l).length = (c.list l).length := by
    intro l
    by_cases hl : l = field
    · rw [hl, hlength]
    · rw [Cell.list, Cell.list, Cell.value?_put_ne c hl]
  unfold getField
  rw [owner?_put]
  cases howner : owner? rt st y g with
  | none => simp only [Runtime.typeOf, planOf?_put]
  | some r =>
      obtain ⟨q, f⟩ := r
      by_cases hq : q = part
      · subst hq
        have hg := hother f howner
        simp only [Store.cell, Store.cell?_put_self hc, hc, bind, Except.bind, hcount,
          Cell.value?_put_ne c hg]
      · simp only [Store.cell, Store.cell?_put_ne st hq]

end Put

/-- Two stores differ in one field of one part at most: that part keeps its plan, its parent part
and its other values, every other message is the same, and every other field reads the same. -/
structure SameElsewhere (rt : Runtime) (st st' : Store) (part : Id) (field : String) : Prop where
  cell : ∀ c, st.cell? part = some c → ∃ c', st'.cell? part = some c' ∧ c'.plan = c.plan ∧
    c'.parent? = c.parent? ∧ ∀ g, g ≠ field → c'.value? g = c.value? g
  cells : ∀ z, z ≠ part → st'.cell? z = st.cell? z
  fields : ∀ y g, (∀ f, owner? rt st y g = some (part, f) → g ≠ field) →
    getField rt st' y g = getField rt st y g

theorem sameElsewhere_put {rt : Runtime} {st : Store} {part : Id} {field : String} {v : Value}
    {c : Cell} (hc : st.cell? part = some c)
    (hlength : ((c.put field v).list field).length = (c.list field).length) :
    SameElsewhere rt st (st.put part field v) part field where
  cell d hd := by
    refine ⟨d.put field v, Store.cell?_put_self hd field v, rfl, rfl, fun g hg => ?_⟩
    exact Cell.value?_put_ne d hg v
  cells z hz := Store.cell?_put_ne st hz field v
  fields _ _ hother := getField_put hc hlength hother

/-! ## Text in a part -/

section Text

variable {rt : Runtime} {st : Store} {x part : Id} {field : String} {acc : TextAccessor}
  {slots : List Scalar}

/-- The part with a text accessor, and the list that the accessor is for. -/
theorem WellTyped.accessor_part (hrt : rt.Sound) (hx : WellTyped rt st x)
    (h : accessor rt st x field = .ok (part, acc)) : ∃ p c f, st.cell? part = some c ∧
      CellTyped rt st p c ∧ acc ∈ p.accessors ∧ f ∈ p.fields ∧ f.name = field ∧
      f.shape = .fixedList acc.length ∧ f.elem = .primitive acc.type := by
  obtain ⟨hpart, hfield, p, hp, hacc⟩ := accessor_found h
  obtain ⟨c, hc, hplan⟩ := planOf?_eq.mp hp
  have hreach : Reach st x part :=
    (parts_region hx.typedOn st.size (.inl (Reach.refl st x)) hpart).resolve_right
      (Nat.not_le.mpr (Store.lt_size hc))
  obtain ⟨p', d, hd, hcell⟩ := hx part hreach
  obtain rfl : c = d := Option.some.inj (hc.symm.trans hd)
  obtain rfl : p' = p := Option.some.inj (hcell.plan.symm.trans hplan)
  obtain ⟨f, hf, hname, hshape, helem⟩ := (hrt.plan hplan).accessor acc hacc
  exact ⟨p', c, f, hc, hcell, hacc, hf, hname.trans hfield, hshape, helem⟩

/-- What is stored is what would be copied into the list itself. -/
theorem setText_eq (h : accessor rt st x field = .ok (part, acc))
    (hint : acc.type.kind.isInteger = true) (hslots : slots.length = acc.length.toNat)
    (s : List UInt8) : setText rt st x field s =
      .ok (st.put part field (.list ((Wire.copyText acc.type.kind slots s).map .scalar))) := by
  have hstored : (Wire.copyText .uint8 (List.replicate acc.length.toNat (.zero .uint8)) s).map
      (fun b => Item.scalar (.ofWord acc.type.kind b.toWord)) =
        (Wire.copyText acc.type.kind slots s).map .scalar := by
    simp only [Wire.copyText, List.length_replicate, hslots, List.map_map]
    exact List.map_congr_left fun b _ => congrArg Item.scalar (Wire.ofWord_toWord_byte hint b)
  rw [setText, h, ← hstored]
  rfl

theorem scalars_map (slots : List Scalar) : scalars (slots.map .scalar) = slots := by
  rw [scalars, List.filterMap_map]
  exact List.filterMap_some

/-- What was copied into the list is read as text. -/
theorem text_eq (h : accessor rt st x field = .ok (part, acc)) {c : Cell}
    (hc : st.cell? part = some c) (hbyte : acc.type.kind.bytes = 1)
    (hslots : slots.length = acc.length.toNat) {s : List UInt8}
    (hlist : c.list field = (Wire.copyText acc.type.kind slots s).map .scalar) :
    text rt st x field = .ok (Wire.fitText acc.length.toNat s) := by
  have hbytes : (Wire.copyText acc.type.kind slots s).map (·.toWord.toUInt8) =
      Wire.fitText acc.length.toNat s := by
    rw [Wire.copyText, hslots, List.map_map]
    exact (List.map_congr_left fun b _ => Wire.toUInt8_byte hbyte b).trans (List.map_id _)
  rw [text, h]
  simp only [bind, Except.bind, Store.cell, hc, hlist, scalars_map, hbytes, pure, Except.pure,
    Wire.fitText_of_length (Wire.length_fitText _ _)]

/-- Numbers of one byte are written as the bytes they are of. -/
theorem bytes_adds {t : Primitive} (hbyte : t.kind.bytes = 1) {emit : Id → Emit Unit}
    (bytes : List UInt8) :
    Adds ((bytes.map fun b => Item.scalar (.ofPattern t.kind b.toNat)).forM
      (writeItem emit (.primitive t))) bytes := by
  induction bytes with
  | nil => exact fun w => ⟨w, rfl, (List.append_nil _).symm⟩
  | cons b bytes ih =>
      intro w
      have hfirst : writeItem emit (.primitive t) (.scalar (.ofPattern t.kind b.toNat)) w =
          (.ok (), w.scalar (.ofPattern t.kind b.toNat)) := by
        simp [writeItem, writeScalar, Scalar.ofPattern]
      obtain ⟨w', hrest, hbytes⟩ := ih (w.scalar (.ofPattern t.kind b.toNat))
      refine ⟨w', (Action.run_bind_ok hfirst).trans hrest, ?_⟩
      simp [hbytes, Wire.scalarBytes_byte hbyte]

end Text

/-! ## Text in a message -/

/-- **Text accessors are byte-exact and local.**  Where a field of a message has an accessor, it is
a list of signed or unsigned bytes.  After text is written into it, reading it gives the bytes of
the text, cut or padded with zeros to the length of the list; if the field is serialized, its step
writes just these; nothing else is different; and copying the text into any list of that length
gives the same slots and the same bytes. -/
theorem setText_exact {catalog : Catalog} {limit : Int} {raw : Model} {sized : Bool} {S : PlanSet}
    (hresolve : (Resolve.run catalog limit raw).succeeded = true)
    (hderive : PlanSet.derive sized (Resolve.run catalog limit raw).model = .ok S)
    {st : Store} {x part : Id} {field : String} {acc : TextAccessor}
    (hx : WellTyped (.ofSet S) st x)
    (hacc : accessor (.ofSet S) st x field = .ok (part, acc)) (s : List UInt8) :
    let n := acc.length.toNat
    let bytes := s.take n ++ List.replicate (n - s.length) 0
    (acc.type.kind = .int8 ∨ acc.type.kind = .uint8) ∧ bytes.length = n ∧
    ∃ st' p f c', setText (.ofSet S) st x field s = .ok st' ∧
      text (.ofSet S) st' x field = .ok bytes ∧
      ((Runtime.ofSet S).planOf? st' part = some p ∧ f ∈ p.fields ∧ f.name = field ∧
        f.shape = .fixedList acc.length ∧ f.elem = .primitive acc.type ∧
        st'.cell? part = some c') ∧
      (f.serialized = true → .fixedList field acc.length f.elem ∈ p.encode ∧ ∀ emit,
        Adds (encodeStep emit c' (.fixedList field acc.length f.elem)) bytes) ∧
      SameElsewhere (.ofSet S) st st' part field ∧
      ∀ slots : List Scalar, slots.length = n →
        c'.list field = (Wire.copyText acc.type.kind slots s).map .scalar ∧
          Wire.textOf (Wire.copyText acc.type.kind slots s) = bytes := by
  intro n bytes
  have hm := Resolve.run_bound hresolve
  have hrt := Runtime.ofSet_sound hm hderive
  obtain ⟨p, c, f, hc, hcell, haccess, hf, hname, hshape, helem⟩ := hx.accessor_part hrt hacc
  have hp := hrt.plan hcell.plan
  have hkind := accessor_holdsText hm hderive hcell.plan haccess
  have hbyte : acc.type.kind.bytes = 1 := by
    rcases hkind with h | h <;> rw [h] <;> rfl
  have hint : acc.type.kind.isInteger = true := by
    rcases hkind with h | h <;> rw [h] <;> rfl
  -- The list has its length before the text is written, as it has afterwards.
  obtain ⟨-, hpos, hstored⟩ := fixedList_sound (hp.field f hf) hshape
  obtain ⟨v, hv, htyped⟩ := hcell.stored f hf hstored
  obtain ⟨items, rfl, hitems, -⟩ := htyped.fixedList hshape
  rw [hname] at hv
  have hbefore : (c.list field).length = n := by
    rw [list_of_value? hv]
    omega
  have hcopy : ∀ slots : List Scalar, slots.length = n → Wire.copyText acc.type.kind slots s =
      bytes.map fun b => .ofPattern acc.type.kind b.toNat := by
    rintro slots hslots
    rw [Wire.copyText, hslots]
    rfl
  have hblank : (List.replicate n (Scalar.zero acc.type.kind)).length = n := List.length_replicate
  let written := Wire.copyText acc.type.kind (List.replicate n (.zero acc.type.kind)) s
  have hlist : (c.put field (.list (written.map .scalar))).list field = written.map .scalar :=
    list_put_self field _
  have hcell' := Store.cell?_put_self hc field (.list (written.map .scalar))
  refine ⟨hkind, Wire.length_fitText n s, st.put part field (.list (written.map .scalar)), p, f,
    c.put field (.list (written.map .scalar)), setText_eq hacc hint hblank s,
    text_eq ((accessor_put x field).trans hacc) hcell' hbyte hblank hlist,
    ⟨(planOf?_put _ _ _ _ _).trans (planOf?_eq.mpr ⟨c, hc, hcell.plan⟩), hf, hname, hshape, helem,
      hcell'⟩,
    fun hser => ⟨?_, fun emit => ?_⟩, sameElsewhere_put hc ?_, fun slots hslots => ⟨?_, ?_⟩⟩
  · refine (mem_encode hp).mpr (.inr ⟨f, hf, hser, ?_⟩)
    rw [Field.step_fixedList hshape, hname]
    rfl
  · rw [helem, encodeStep, hlist]
    simp only [written, hcopy _ hblank, List.map_map]
    exact bytes_adds hbyte bytes
  · rw [hlist, hbefore, List.length_map, Wire.length_copyText, hblank]
  · rw [hlist, hcopy slots hslots]
    exact congrArg (List.map Item.scalar) (hcopy _ hblank)
  · rw [Wire.textOf_copyText hbyte, hslots]
    rfl

namespace Marked

/-- Things with a number, and in their parent part a mark of three signed bytes. -/
def schema : Model where
  classes := [
    { name := "Marked"
      attributes := [
        { name := "mark", shape := some (.fixedList 3), type := "byte", couldBeString := true }] },
    { name := "Thing"
      parent := "Marked"
      attributes := [{ name := "id", shape := some .primitive, type := "unsigned byte" }] }]

/-- The plans of the schema. -/
def plans : PlanSet :=
  ((PlanSet.derive true (Resolve.run .standard 3 schema).model).toOption).getD ⟨[], [], [], .empty⟩

/-- The runtime of the schema. -/
def runtime : Runtime := .ofSet plans

/-- The store with a new thing, which has the number 1 after its parent part. -/
def start : Store := (new runtime "Thing" .empty).2

/-- What the schema comes to: its plans, a new thing, and the accessor of its parent part. -/
theorem computed :
    (Resolve.run .standard 3 schema).succeeded = true ∧
      (PlanSet.derive true (Resolve.run .standard 3 schema).model).toOption.isSome = true ∧
      (new runtime "Thing" .empty).1.toOption = some 1 ∧
      (accessor runtime start 1 "mark").toOption = some (0, ⟨"mark", 3, ⟨"byte", .int8⟩⟩) := by
  decide +kernel

theorem resolves : (Resolve.run .standard 3 schema).succeeded = true := computed.1

theorem derives : PlanSet.derive true (Resolve.run .standard 3 schema).model = .ok plans :=
  ok_getD computed.2.1 _

theorem typed : WellTyped runtime start 1 := by
  obtain ⟨-, -, hnew, -⟩ := computed
  exact (new_fresh (Runtime.ofSet_sound (Resolve.run_bound resolves) derives)
    (Prod.ext (ok_of_toOption hnew) rfl)).typed

end Marked

/-- The byte 200 is stored as a negative number and comes back, and the mark is padded. -/
theorem setText_exact_mark : ∃ st',
    setText Marked.runtime Marked.start 1 "mark" [0x41, 0xc8] = .ok st' ∧
      text Marked.runtime st' 1 "mark" = .ok [0x41, 0xc8, 0] ∧
      SameElsewhere Marked.runtime Marked.start st' 0 "mark" ∧
      Wire.textOf (Wire.copyText .int8 (List.replicate 3 (.ofPattern .int8 7)) [0x41, 0xc8]) =
        [0x41, 0xc8, 0] := by
  obtain ⟨-, -, -, hacc⟩ := Marked.computed
  obtain ⟨-, -, st', _, _, _, hset, htext, -, -, hsame, hcopy⟩ := setText_exact Marked.resolves
    Marked.derives Marked.typed (ok_of_toOption hacc) [0x41, 0xc8]
  exact ⟨st', hset, htext, hsame, (hcopy _ rfl).2⟩

end Message

end WireSchema

import Mathlib
import WireSchema.Message.Construct
import WireSchema.Proofs.Message.Construct
import WireSchema.Proofs.Message.Scan

/-!
# What reading leaves in a message

`Reads` compares a store before and after something was read into a message: serialized fields hold
the content, in place or in new messages, and what is not serialized was not touched.  It is built
step by step.  A step writes to one slot of the message, a field or the parent part, and leaves
every other slot alone; so what earlier steps left is still there after later ones.

## Main results

* `Replaced.field`, `Replaced.parent` — a write to one slot leaves the others untouched.
* `StepReads.later`, `StepReads.earlier` — steps on other slots do not disturb a step.
* `Reads.shows` — a message shows the content that was read into it.
-/

namespace WireSchema.Message

open Plan (Field DecodeStep)
open Wire (maxListLength)

/-! ## Slots -/

/-- What a step writes to: a field, or the parent part. -/
def slot : DecodeStep → Option String
  | .parent _ => none
  | .primitive f _ | .count f _ _ _ | .reference f _ | .fixedList f _ _ | .variableList f _ _ =>
      some f

/-- A slot holds what it held before, and nothing below it was changed. -/
def Untouched (s t : Store) (c c' : Cell) : Option String → Prop
  | none => c'.parent? = c.parent? ∧ ∀ q, c.parent? = some q → SameFrom s t q
  | some f => c'.value? f = c.value? f ∧ ∀ v, c.value? f = some v → ∀ id ∈ v.ids, SameFrom s t id

section Slots

variable {s t u : Store} {c c' c'' : Cell} {x : Id}

theorem Untouched.refl (s : Store) (c : Cell) (σ : Option String) : Untouched s s c c σ := by
  cases σ with
  | none => exact ⟨rfl, fun q _ => SameFrom.refl s q⟩
  | some f => exact ⟨rfl, fun _ _ id _ => SameFrom.refl s id⟩

theorem Untouched.trans {σ : Option String} (h : Untouched s t c c' σ)
    (h' : Untouched t u c' c'' σ) : Untouched s u c c'' σ := by
  cases σ with
  | none =>
      refine ⟨h'.1.trans h.1, fun q hq => (h.2 q hq).trans (h'.2 q ?_)⟩
      rw [h.1, hq]
  | some f =>
      refine ⟨h'.1.trans h.1, fun v hv id hid => (h.2 v hv id hid).trans (h'.2 v ?_ id hid)⟩
      rw [h.1, hv]

/-- Below a message that was not changed no slot was touched. -/
theorem SameFrom.untouched (h : SameFrom s t x) (hc : s.cell? x = some c) (σ : Option String) :
    Untouched s t c c σ := by
  cases σ with
  | none => exact ⟨rfl, fun q hq => h.child hc (Cell.parent_mem_children hq)⟩
  | some f => exact ⟨rfl, fun v hv id hid => h.child hc (Cell.ids_subset_children hv hid)⟩

/-- **A write to a field leaves the other slots untouched.** -/
theorem Replaced.field {f : String} {v v' : Value} (h : Replaced s t x v.ids v'.ids)
    (hx : Unshared s x) (hcomplete : Complete s x) (hc : s.cell? x = some c)
    (hc' : t.cell? x = some (c.put f v')) (hv : c.value? f = some v) :
    Changed s t x ∧ ∀ σ, σ ≠ some f → Untouched s t c (c.put f v') σ := by
  obtain ⟨before, after, hold, hnew, hparent, hothers⟩ := Cell.children_put hv
  obtain ⟨hchanged, hsame⟩ := h.changed hx hcomplete hc hc' hold (hnew v')
  refine ⟨hchanged, fun σ hσ => ?_⟩
  cases σ with
  | none => exact ⟨rfl, fun q hq => hsame q (List.mem_append_left _ (hparent q hq))⟩
  | some g =>
      have hne : g ≠ f := fun heq => hσ (congrArg some heq)
      exact ⟨Cell.value?_put_ne c hne v', fun w hw id hid => hsame id (hothers g w hne hw hid)⟩

/-- A change below the parent part leaves the fields untouched. -/
theorem Replaced.parent {q : Id} (h : Replaced s t x [q] [q]) (hx : Unshared s x)
    (hcomplete : Complete s x) (hc : s.cell? x = some c) (hc' : t.cell? x = some c)
    (hq : c.parent? = some q) : Changed s t x ∧ ∀ σ, σ ≠ none → Untouched s t c c σ := by
  have hsplit : c.children = [] ++ [q] ++ c.fields.flatMap (·.2.ids) := by simp [Cell.children, hq]
  obtain ⟨hchanged, hsame⟩ := h.changed hx hcomplete hc hc' hsplit hsplit
  refine ⟨hchanged, fun σ hσ => ?_⟩
  cases σ with
  | none => exact absurd rfl hσ
  | some g =>
      refine ⟨rfl, fun v hv id hid => hsame id (List.mem_append_right _ ?_)⟩
      exact List.mem_flatMap.mpr ⟨(g, v), mem_of_value? hv, hid⟩

/-- Putting back the value that is there changes nothing. -/
theorem Cell.put_self {f : String} {v : Value} (h : c.value? f = some v) : c.put f v = c := by
  obtain ⟨i, p, fields⟩ := c
  have hfields : ∀ fields : List (String × Value), fields.lookup f = some v →
      putField f v fields = fields := by
    intro fields
    induction fields with
    | nil =>
        intro h
        cases h
    | cons e rest ih =>
        obtain ⟨n, w⟩ := e
        intro h
        rw [List.lookup_cons] at h
        rw [putField]
        by_cases hn : n = f
        · subst hn
          rw [beq_self_eq_true] at h
          rw [if_pos rfl, Option.some.inj h]
        · rw [beq_eq_false_iff_ne.mpr (Ne.symm hn)] at h
          rw [if_neg hn, ih h]
  simp only [Cell.put, hfields fields h]

end Slots

/-- The step of a field writes to it. -/
theorem slot_step {p : Plan} {f : Field} (h : f.Sound p) (discard : Bool) :
    slot (f.step discard) = some f.name := by
  cases h with
  | number t hshape helem hstored => simp [Field.step_number hshape helem hstored, slot]
  | count t l hshape helem hstored => simp [Field.step_count hshape helem hstored, slot]
  | reference type hshape helem => simp [Field.step_reference hshape, slot]
  | fixedList n hshape => simp [Field.step_fixedList hshape, slot]
  | variableList k hshape => simp [Field.step_variableList hshape, slot]

/-- Every step of a plan has a slot of its own. -/
theorem nodup_slots {p : Plan} (hp : p.Sound) : (p.decode.map slot).Nodup := by
  have hown : ((p.fields.filter (·.serialized)).map fun f => f.step (p.discardsCount f)).map slot =
      ((p.fields.filter (·.serialized)).map (·.name)).map some := by
    rw [List.map_map, List.map_map]
    exact List.map_congr_left fun f hf => slot_step (hp.field f (List.mem_filter.mp hf).1) _
  have hnames : ((p.fields.filter (·.serialized)).map (·.name)).Nodup :=
    hp.nodup.sublist (List.filter_sublist.map _)
  rw [hp.decode, List.map_append, hown]
  refine List.nodup_append.mpr ⟨?_, hnames.map (Option.some_injective _), ?_⟩
  · unfold Plan.parentSteps
    cases p.hasParent <;> simp
  · intro a ha b hb hab
    obtain ⟨n, -, rfl⟩ := List.mem_map.mp hb
    unfold Plan.parentSteps at ha
    cases hhas : p.hasParent with
    | false => simp [hhas] at ha
    | true =>
        simp only [hhas, if_true, List.map_cons, List.map_nil, List.mem_singleton, slot] at ha
        rw [ha] at hab
        cases hab

/-- A field that is not serialized has no step. -/
theorem slot_not_mem {p : Plan} (hp : p.Sound) {f : Field} (hf : f ∈ p.fields)
    (hser : f.serialized = false) : some f.name ∉ p.decode.map slot := by
  intro hmem
  obtain ⟨step, hstep, hslot⟩ := List.mem_map.mp hmem
  rcases (mem_decode hp).mp hstep with ⟨-, rfl⟩ | ⟨g, hg, hgser, rfl⟩
  · cases hslot
  · rw [slot_step (hp.field g hg)] at hslot
    have hsame := hp.field_unique hg hf (Option.some.inj hslot)
    rw [hsame, hser] at hgser
    cases hgser

/-! ## Reading -/

/-- A message was made by `new`, and then `inner` holds of it. -/
def MadeAnd (rt : Runtime) (inner : Store → Id → Content → Prop) (id : Id) (ct : Content) : Prop :=
  ∃ type s₁ s₂, new rt type s₁ = (.ok id, s₂) ∧ inner s₂ id ct

/-- What one step left in a message: `c` is the message before, `c'` after. -/
def StepReads (rt : Runtime) (inner : Store → Store → Id → Content → Prop) (s t : Store)
    (c c' : Cell) : DecodeStep → Content → Prop
  | .parent _, ct => c'.parent? = c.parent? ∧ ∃ q, c.parent? = some q ∧ inner s t q ct
  | .primitive f k, ct =>
      ∃ n, c'.value? f = some (.single (.scalar n)) ∧ ct = .number n ∧ n.kind = k.kind
  | .count _ _ k _, ct => ∃ n, ct = .number n ∧ n.kind = k.kind
  | .reference f _, ct => c'.value? f = c.value? f ∧
      ∃ id, c.value? f = some (.single (.message id)) ∧ inner s t id ct
  | .fixedList f _ e, ct => (∀ type, e = .message type → c'.value? f = c.value? f) ∧
      ∃ parts, ct = .group parts ∧ List.Forall₂ (ItemShows (inner s t) e) (c'.list f) parts
  | .variableList f e _, ct => ∃ parts, ct = .group parts ∧
      List.Forall₂ (ItemShows (MadeAnd rt fun s₂ => inner s₂ t) e) (c'.list f) parts

/-- Lists are as long as their counts say. -/
def Coherent (steps : List DecodeStep) (parts : List Content) : Prop :=
  ∀ l e f ct, (DecodeStep.variableList l e f, ct) ∈ steps.zip parts →
    ∃ xs, ct = .group xs ∧ xs.length ≤ maxListLength ∧
      ∃ list k n, (DecodeStep.count f list k false, Content.number n) ∈ steps.zip parts ∧
        xs.length = n.toWord.toNat

/-- Between two stores a content was read into a message, nesting at most `depth` deep; nothing
that is not serialized was touched. -/
def Reads (rt : Runtime) : (depth : Nat) → Store → Store → Id → Content → Prop
  | 0, _, _, _, _ => False
  | depth + 1, s, t, y, ct => ∃ p c c' parts, rt.plans[c.plan]? = some p ∧ s.cell? y = some c ∧
      t.cell? y = some c' ∧ c'.plan = c.plan ∧ ct = .group parts ∧ Coherent p.decode parts ∧
      List.Forall₂ (StepReads rt (Reads rt depth) s t c c') p.decode parts ∧
      ∀ f ∈ p.fields, f.serialized = false → Untouched s t c c' (some f.name)

section Reads

variable {rt : Runtime} {inner : Store → Store → Id → Content → Prop} {s t u : Store}
  {c c' c'' : Cell} {step : DecodeStep} {ct : Content}

theorem list_congr {f : String} (h : c'.value? f = c.value? f) : c'.list f = c.list f := by
  simp only [Cell.list, h]

/-- Messages in a list that was not touched. -/
theorem Untouched.list {f : String} (h : Untouched s t c c' (some f)) {id : Id}
    (hid : Item.message id ∈ c.list f) : SameFrom s t id := by
  obtain ⟨items, hv, hlist⟩ := Cell.value?_of_mem_list hid
  refine h.2 _ hv id (List.mem_flatMap.mpr ⟨.message id, hlist ▸ hid, ?_⟩)
  exact List.mem_singleton_self id

/-- What a step left is there until its slot is touched. -/
theorem StepReads.later (hinner : ∀ s id ct, SameFrom t u id → inner s t id ct → inner s u id ct)
    (h : StepReads rt inner s t c c' step ct) (hun : Untouched t u c' c'' (slot step)) :
    StepReads rt inner s u c c'' step ct := by
  cases step with
  | parent name =>
      obtain ⟨hsame, q, hq, hread⟩ := h
      exact ⟨hun.1.trans hsame, q, hq, hinner s q ct (hun.2 q (hsame.trans hq)) hread⟩
  | primitive f k =>
      obtain ⟨n, hv, hn⟩ := h
      exact ⟨n, hun.1.trans hv, hn⟩
  | count f list k discard => exact h
  | reference f cls =>
      obtain ⟨hsame, id, hv, hread⟩ := h
      refine ⟨hun.1.trans hsame, id, hv, hinner s id ct (hun.2 _ (hsame.trans hv) id ?_) hread⟩
      exact List.mem_singleton_self id
  | fixedList f n e =>
      obtain ⟨hsame, parts, hct, hitems⟩ := h
      refine ⟨fun type he => hun.1.trans (hsame type he), parts, hct, ?_⟩
      rw [list_congr hun.1]
      exact forall₂_itemShows_imp (fun id ct hid => hinner s id ct (hun.list hid)) hitems
  | variableList f e count =>
      obtain ⟨parts, hct, hitems⟩ := h
      refine ⟨parts, hct, ?_⟩
      rw [list_congr hun.1]
      refine forall₂_itemShows_imp (fun id ct hid => ?_) hitems
      rintro ⟨type, s₁, s₂, hnew, hread⟩
      exact ⟨type, s₁, s₂, hnew, hinner s₂ id ct (hun.list hid) hread⟩

/-- A step may as well have started when its slot was last touched. -/
theorem StepReads.earlier (hinner : ∀ id ct, SameFrom s t id → inner t u id ct → inner s u id ct)
    (h : StepReads rt inner t u c' c'' step ct) (hun : Untouched s t c c' (slot step)) :
    StepReads rt inner s u c c'' step ct := by
  cases step with
  | parent name =>
      obtain ⟨hsame, q, hq, hread⟩ := h
      rw [hun.1] at hq hsame
      exact ⟨hsame, q, hq, hinner q ct (hun.2 q hq) hread⟩
  | primitive f k => exact h
  | count f list k discard => exact h
  | reference f cls =>
      obtain ⟨hsame, id, hv, hread⟩ := h
      rw [hun.1] at hv hsame
      exact ⟨hsame, id, hv, hinner id ct (hun.2 _ hv id (List.mem_singleton_self id)) hread⟩
  | fixedList f n e =>
      obtain ⟨hsame, parts, hct, hitems⟩ := h
      refine ⟨fun type he => (hsame type he).trans hun.1, parts, hct, ?_⟩
      cases e with
      | primitive k =>
          refine hitems.imp fun i ct hi => hi.imp fun id heq _ => ?_
          rw [heq] at hi
          exact hi.elim
      | message type =>
          refine forall₂_itemShows_imp (fun id ct hid => hinner id ct (hun.list ?_)) hitems
          rw [← list_congr ((hsame type rfl).trans hun.1)]
          exact hid
  | variableList f e count => exact h

theorem Reads.later (n : Nat) : ∀ {s : Store} {y : Id} {ct : Content}, SameFrom t u y →
    Reads rt n s t y ct → Reads rt n s u y ct := by
  induction n with
  | zero =>
      intro s y ct _ h
      exact h.elim
  | succ n ih =>
      intro s y ct hsame h
      obtain ⟨p, c, c', parts, hp, hc, hc', hplan, hct, hcoherent, hsteps, hrest⟩ := h
      have hun := hsame.untouched hc'
      refine ⟨p, c, c', parts, hp, hc, hsame.cell.trans hc', hplan, hct, hcoherent, ?_, ?_⟩
      · exact hsteps.imp fun step ct hstep => hstep.later (fun s id ct h => ih h) (hun _)
      · exact fun f hf hser => (hrest f hf hser).trans (hun _)

theorem Reads.earlier (n : Nat) : ∀ {y : Id} {ct : Content}, SameFrom s t y →
    Reads rt n t u y ct → Reads rt n s u y ct := by
  induction n with
  | zero =>
      intro y ct _ h
      exact h.elim
  | succ n ih =>
      intro y ct hsame h
      obtain ⟨p, c, c', parts, hp, hc, hc', hplan, hct, hcoherent, hsteps, hrest⟩ := h
      have hc₀ := hsame.cell.symm.trans hc
      have hun := hsame.untouched hc₀
      refine ⟨p, c, c', parts, hp, hc₀, hc', hplan, hct, hcoherent, ?_, ?_⟩
      · exact hsteps.imp fun step ct hstep => hstep.earlier (fun id ct h => ih h) (hun _)
      · exact fun f hf hser => (hun _).trans (hrest f hf hser)

/-! ## Showing what was read -/

/-- The content at a slot is determined by the slot. -/
theorem zip_slot_unique {steps : List DecodeStep} {parts : List Content}
    (hnodup : (steps.map slot).Nodup) {a b : DecodeStep} {x y : Content}
    (hx : (a, x) ∈ steps.zip parts)
    (hy : (b, y) ∈ steps.zip parts) (hslot : slot a = slot b) : x = y := by
  obtain ⟨i, hi⟩ := List.mem_iff_getElem?.mp hx
  obtain ⟨j, hj⟩ := List.mem_iff_getElem?.mp hy
  rw [List.getElem?_zip_eq_some] at hi hj
  have hget : (steps.map slot)[i]? = (steps.map slot)[j]? := by
    rw [List.getElem?_map, List.getElem?_map, hi.1, hj.1, Option.map_some, Option.map_some, hslot]
  have hlt : i < (steps.map slot).length := by
    rw [List.length_map]
    exact (List.getElem?_eq_some_iff.mp hi.1).1
  obtain rfl := (List.getElem?_inj hlt hnodup).mp hget
  exact Option.some.inj (hi.2.symm.trans hj.2)

/-- The field of a count step and the list it counts. -/
theorem count_of_mem_decode {p : Plan} (hp : p.Sound) {f list : String} {k : Primitive}
    {discard : Bool} (h : DecodeStep.count f list k discard ∈ p.decode) :
    k.kind.isInteger = true ∧ ∃ l ∈ p.fields, l.name = list ∧ l.shape = .variableList ∧
      l.countField = f ∧ (discard = false → l.serialized = true) := by
  rcases (mem_decode hp).mp h with ⟨-, heq⟩ | ⟨g, hg, -, heq⟩
  · cases heq
  · cases hp.field g hg with
    | number t hshape helem hstored =>
        rw [Field.step_number hshape helem hstored] at heq
        cases heq
    | count t l hshape helem hstored hint hl hname hlshape hback =>
        rw [Field.step_count hshape helem hstored] at heq
        cases heq
        refine ⟨hint, l, hl, hname, hlshape, hback, fun hkept => ?_⟩
        have hser := List.any_eq_false.mp hkept l hl
        simpa [hname] using hser
    | reference type hshape helem =>
        rw [Field.step_reference hshape] at heq
        cases heq
    | fixedList n hshape =>
        rw [Field.step_fixedList hshape] at heq
        cases heq
    | variableList c hshape =>
        rw [Field.step_variableList hshape] at heq
        cases heq

/-- A count that was not discarded is the length of its list. -/
theorem Coherent.countShows {p : Plan} {parts : List Content} (hp : p.Sound)
    (h : Coherent p.decode parts)
    (hsteps : List.Forall₂ (StepReads rt inner s t c c') p.decode parts) {f list : String}
    {k : Primitive} {n : Scalar}
    (hmem : (DecodeStep.count f list k false, Content.number n) ∈ p.decode.zip parts) :
    CountShows k (c'.list list).length n := by
  obtain ⟨hlength, hreads⟩ := List.forall₂_iff_zip.mp hsteps
  obtain ⟨n', heq, hkind⟩ := hreads hmem
  cases heq
  obtain ⟨hint, l, hl, rfl, hshape, rfl, hser⟩ := count_of_mem_decode hp (List.of_mem_zip hmem).1
  have hlstep : DecodeStep.variableList l.name l.elem l.countField ∈ p.decode :=
    (mem_decode hp).mpr (.inr ⟨l, hl, hser rfl, by simp [Field.step_variableList hshape]⟩)
  obtain ⟨i, hi⟩ := List.mem_iff_getElem?.mp hlstep
  obtain ⟨ct, hct, hlist⟩ := Plan.forall₂_getElem? hsteps hi
  have hlmem : (DecodeStep.variableList l.name l.elem l.countField, ct) ∈ p.decode.zip parts :=
    List.mem_iff_getElem?.mpr ⟨i, List.getElem?_zip_eq_some.mpr ⟨hi, hct⟩⟩
  obtain ⟨xs, rfl, hmax, list, k', n', hcount, hlen⟩ := h _ _ _ _ hlmem
  have hsame := zip_slot_unique (nodup_slots hp) hmem hcount rfl
  cases hsame
  obtain ⟨parts', heq, hitems⟩ := hlist
  cases heq
  rw [hitems.length_eq, hlen]
  rw [hlen] at hmax
  have hword := Wire.eq_ofWord_of_toWord (hkind ▸ hint) hmax
  rw [hkind] at hword
  exact hword

end Reads

/-- **A message shows the content that was read into it.** -/
theorem Reads.shows {rt : Runtime} {t : Store} (hrt : rt.Sound) (n : Nat) :
    ∀ {s : Store} {y : Id} {ct : Content}, Reads rt n s t y ct → Shows false rt t n y ct := by
  induction n with
  | zero =>
      intro s y ct h
      exact h.elim
  | succ n ih =>
      intro s y ct h
      obtain ⟨p, c, c', parts, hp, hc, hc', hplan, rfl, hcoherent, hsteps, -⟩ := h
      refine ⟨p, c', parts, planOf?_eq.mpr ⟨c', hc', hplan ▸ hp⟩, hc', rfl, ?_⟩
      obtain ⟨hlength, hreads⟩ := List.forall₂_iff_zip.mp hsteps
      refine List.forall₂_iff_zip.mpr ⟨hlength, fun {step ct} hmem => ?_⟩
      have hstep := hreads hmem
      cases step with
      | parent name =>
          obtain ⟨hsame, q, hq, hread⟩ := hstep
          exact ⟨q, hsame.trans hq, ih hread⟩
      | primitive f k =>
          obtain ⟨n, hv, hn⟩ := hstep
          exact ⟨.scalar n, hv, hn⟩
      | count f list k discard =>
          obtain ⟨n, rfl, hkind⟩ := hstep
          refine ⟨n, rfl, fun hkept => ?_⟩
          obtain rfl : discard = false := hkept.resolve_left Bool.false_ne_true
          exact hcoherent.countShows (hrt.plan hp) hsteps hmem
      | reference f cls =>
          obtain ⟨hsame, id, hv, hread⟩ := hstep
          exact ⟨id, hsame.trans hv, ih hread⟩
      | fixedList f len e =>
          obtain ⟨-, parts, rfl, hitems⟩ := hstep
          exact ⟨parts, rfl, forall₂_itemShows_imp (fun id ct _ hread => ih hread) hitems⟩
      | variableList f e count =>
          obtain ⟨parts, rfl, hitems⟩ := hstep
          refine ⟨parts, rfl, forall₂_itemShows_imp (fun id ct _ hread => ?_) hitems⟩
          obtain ⟨type, s₁, s₂, -, hread⟩ := hread
          exact ih hread

end WireSchema.Message

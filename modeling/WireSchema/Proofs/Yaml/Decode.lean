import Mathlib
import WireSchema.Proofs.Number.TypedLiteral
import WireSchema.Yaml.Decode

/-!
# Reading values that fit

Reading notes faults, and stops where too many nodes were entered below aliases.  Where every value
is of the type asked for there is nothing to note, and there are not too many nodes as long as at
most a hundred were entered below aliases.  So what is said of a reader here is the value that it
gives and how many nodes it enters below aliases at most, and the numbers of its parts add up.

## Main results

* `reads_text`, `reads_int` — scalars that are read as texts and as integers.
* `gives_enter` — a node is read as the one it stands for.
* `gives_record_pair` — a record of two fields is read if both are.
-/

namespace WireSchema.Yaml.Decode

/-- Reading gives a value and notes nothing, entering at most so many nodes below aliases. -/
def Gives (d : Decode α) (cost : Nat) (a : α) : Prop :=
  ∀ p : Progress, p.aliased + cost ≤ 100 →
    ∃ q, d p = .ok (a, q) ∧ q.faults = p.faults ∧ q.aliased ≤ p.aliased + cost

/-- A node, or the one it stands for, is read as a value. -/
def Reads (doc : Document) (read : Node → Decode (Option α)) (n : Node) (a : α) : Prop :=
  Gives (read (follow doc n)) 0 (some a)

/-! ## Steps -/

section Steps

variable {α β : Type} {d : Decode α} {f : α → Decode β} {a : α} {b : β} {k m n : Nat}

theorem gives_pure (a : α) : Gives (pure a) 0 a :=
  fun p _ => ⟨p, rfl, rfl, le_rfl⟩

theorem Gives.bind (h : Gives d m a) (hf : Gives (f a) n b) (hk : m + n ≤ k := by omega) :
    Gives (d >>= f) k b := by
  intro p hp
  obtain ⟨q, hrun, hfaults, haliased⟩ := h p (by omega)
  obtain ⟨r, hrun', hfaults', haliased'⟩ := hf q (by omega)
  refine ⟨r, ?_, hfaults'.trans hfaults, by omega⟩
  show (d p >>= fun out => f out.1 out.2) = _
  rw [hrun]
  exact hrun'

theorem not_isExcessive {p : Progress} (h : p.aliased ≤ 100) : p.isExcessive = false := by
  have hfew : ¬ (100 < p.aliased ∧ 1000 < p.entered) := by omega
  simp only [Progress.isExcessive, decide_eq_false hfew, Bool.false_and]

theorem gives_count : Gives count 1 () := by
  intro p hp
  have hle : p.aliased + (if p.aliases = 0 then 0 else 1) ≤ p.aliased + 1 := by
    split <;> omega
  refine ⟨{ p with
    entered := p.entered + 1
    aliased := p.aliased + (if p.aliases = 0 then 0 else 1) }, ?_, rfl, hle⟩
  show (if Progress.isExcessive _ = true then throw Stop.malformed else set _ : Decode Unit) _ = _
  rw [if_neg (Bool.eq_false_iff.mp (not_isExcessive (hle.trans hp)))]
  rfl

theorem gives_belowAlias (h : Gives d n a) : Gives (belowAlias d) n a := by
  intro p hp
  obtain ⟨q, hrun, hfaults, haliased⟩ := h { p with aliases := p.aliases + 1 } hp
  refine ⟨{ q with aliases := q.aliases - 1 }, ?_, hfaults, haliased⟩
  show (d _ >>= fun out => _) = _
  rw [hrun]
  rfl

/-- A node is read as the one it stands for. -/
theorem gives_enter {doc : Document} {node : Node} {read : Node → Decode α}
    (h : Gives (read (follow doc node)) n a) : Gives (enter doc node read) (n + 2) a := by
  -- What an alias stands for is a second node, and that one is below the alias.
  match node with
  | Node.alias _ _ _ => exact gives_count.bind (gives_belowAlias (gives_count.bind h le_rfl))
  | Node.scalar _ _ _ _ | Node.sequence _ _ _ | Node.mapping _ _ _ => exact gives_count.bind h

/-- Reading apart from the rest leaves no trace. -/
theorem apart_of_gives (h : Gives d n a) (hn : n ≤ 100) (p : Progress) :
    apart d p = .ok (a, p) := by
  obtain ⟨q, hrun, hfaults, -⟩ :=
    h { p with entered := 0, aliased := 0, aliases := 0 } ((Nat.zero_add n).trans_le hn)
  show (d _ >>= fun out => _) = _
  rw [hrun]
  show Except.ok (a, { p with faults := q.faults }) = _
  rw [hfaults]

end Steps

/-! ## Scalars -/

section Scalars

variable {i : Int} {s : String}

/-- A text of nothing but digits and minus signs, of which there is at least one. -/
def isPlain (s : String) : Bool := !s.isEmpty && s.toList.all fun c => c.isDigit || c == '-'

theorem isPlain_toString (i : Int) : isPlain (toString i) = true := by
  have hdigits : ∀ n : Nat, n.repr.isEmpty = false ∧
      n.repr.toList.all (fun c => c.isDigit || c == '-') = true := by
    intro n
    rw [← Bool.not_eq_true, String.isEmpty_iff, ← String.toList_eq_nil_iff, Nat.toList_repr]
    refine ⟨Nat.toDigits_ne_nil, List.all_eq_true.mpr fun c hc => ?_⟩
    rw [Nat.isDigit_of_mem_toDigits (by decide) (by decide) hc, Bool.true_or]
  rw [Int.toString_eq_repr, Int.repr_eq_if, isPlain]
  split
  · rw [(hdigits _).1, (hdigits _).2]
    rfl
  · rw [String.toList_append, List.all_append, (hdigits _).2]
    simp

/-- No word with a meaning of its own is written like a number. -/
theorem word?_of_isPlain (h : isPlain s = true) : Value.word? s = none := by
  have hwords : ∀ words : List String, words.all (fun w => !isPlain w) = true →
      words.contains s = false := by
    intro words hall
    rw [List.contains_eq_any_beq, List.any_eq_false]
    intro w hw heq
    have hnot := List.all_eq_true.mp hall w hw
    rw [← eq_of_beq heq, h] at hnot
    cases hnot
  simp (disch := decide) only [Value.word?, hwords, Bool.false_eq_true, if_false]

/-- A number in decimal suggests itself. -/
theorem suggested?_toString (hlow : -2 ^ 63 ≤ i) (hhigh : i < 2 ^ 63) :
    Value.suggested? false (toString i) = some (.int i) := by
  have hplain := isPlain_toString i
  have hword := word?_of_isPlain hplain
  rw [isPlain, Bool.and_eq_true, List.all_eq_true] at hplain
  obtain ⟨hne, hchars⟩ := hplain
  have hread : Number.parseSigned 64 (toString i).toList = .ok i :=
    (Number.parseSigned_eq_ok_iff (by decide)).mpr
      ⟨Number.integerLiteral_toString true (.inr rfl), hlow, hhigh⟩
  have hkeep : (toString i).toList.filter (fun c => decide (c ≠ '_')) = (toString i).toList := by
    refine List.filter_eq_self.mpr fun c hc => decide_eq_true ?_
    rintro rfl
    cases hchars _ hc
  have hnumber : Value.number? false (toString i) = some (.int i) := by
    simp only [Value.number?, hkeep, hread, Bool.false_and, Bool.false_eq_true, if_false]
  rw [Value.suggested?]
  split
  · rename_i hnil
    simp [String.toList_eq_nil_iff.mp hnil] at hne
  · rename_i c cs hcs
    have hc := hchars c (hcs ▸ List.mem_cons_self)
    have hstart : (c.isDigit || c == '+' || c == '-') = true := by
      rcases Bool.or_eq_true _ _ |>.mp hc with hc | hc <;> simp [hc]
    rw [if_pos hstart, hword, hnumber]
    rfl

/-- A scalar that is a text is read as that text. -/
theorem reads_text (doc : Document) (line : Nat) (style : Style) (s : String) :
    Reads doc text (.scalar line Tag.str style s) s :=
  gives_pure _

/-- A scalar that is an integer in decimal is read as that integer. -/
theorem reads_int (doc : Document) (line : Nat) (style : Style) (hlow : -2 ^ 63 ≤ i)
    (hhigh : i < 2 ^ 63) : Reads doc int (.scalar line Tag.int style (toString i)) i := by
  have hsuggested : (Value.suggested? (Tag.int == Tag.timestamp) (toString i)).getD
      (.text (toString i)) = .int i := by
    rw [show (Tag.int == Tag.timestamp) = false from rfl, suggested?_toString hlow hhigh]
    rfl
  have htagged : Value.ofTagged Tag.int (toString i) = some (.int i) := by
    simp only [Value.ofTagged, hsuggested]
    rfl
  have hvalue : scalarValue Tag.int (toString i) = pure (.int i) := by
    rw [scalarValue, htagged]
    rfl
  have hread : int (.scalar line Tag.int style (toString i)) = pure (some i) := by
    have hfits : i < 0x8000000000000000 := by omega
    rw [int, scalar, hvalue, pure_bind, if_neg (by simp)]
    simp only [if_pos hfits]
  show Gives (int (.scalar line Tag.int style (toString i))) 0 (some i)
  rw [hread]
  exact gives_pure _

end Scalars

/-! ## Records -/

section Records

variable {σ α : Type} {doc : Document} {type name : String} {slots : List (String × Slot σ)}
  {entries rest : List (Node × Node)} {v : Node} {s s' : σ} {a : α} {m n : Nat}

/-- A key of a mapping. -/
def key (line : Nat) (style : Style) (name : String) : Node := .scalar line Tag.str style name

/-- There is nothing to note about keys with different texts. -/
theorem gives_uniqueKeys (h : entries.Pairwise fun a b => a.1.text ≠ b.1.text) :
    Gives (uniqueKeys entries) 0 true := by
  induction h with
  | nil => exact gives_pure true
  | @cons entry rest hne _ ih =>
      have hclash : rest.filter (fun e => entry.1.kindCode == e.1.kindCode &&
          entry.1.text == e.1.text) = [] := by
        refine List.filter_eq_nil_iff.mpr fun e he => ?_
        rw [beq_eq_false_iff_ne.mpr (hne e he), Bool.and_false]
        exact Bool.false_ne_true
      rw [uniqueKeys, hclash]
      exact (gives_pure PUnit.unit).bind (ih.bind (gives_pure true) le_rfl) le_rfl

theorem gives_slot {read : Node → Decode (Option α)} {set : σ → α → σ}
    (h : Reads doc read v a) (s : σ) : Gives (slot read set (follow doc v) s) 0 (set s a) := by
  rw [slot]
  exact h.bind (gives_pure (set s a))

/-- A field that was not filled in before takes the value of its key. -/
theorem gives_ownFields_cons {line : Nat} {style : Style} {slot : Slot σ} {done : List String}
    {merge : Option Node} {out : σ × Option (List String) × Option Node}
    (hslot : slots.lookup name = some slot) (hdone : name ∉ done)
    (hv : Gives (slot (follow doc v) s) m s')
    (hrest : Gives (ownFields doc type slots rest none (name :: done) merge s') n out) :
    Gives (ownFields doc type slots ((key line style name, v) :: rest) none done merge s)
      (m + n + 4) out := by
  have hkey : Gives (enter doc (key line style name) text) 2 (some name) :=
    gives_enter (reads_text doc line style name)
  have hfield : Gives (enter doc v (slot · s)) (m + 2) s' := gives_enter hv
  have hmerge : ¬ isMergeKey (key line style name) = true := by
    simp [isMergeKey, key, Tag.str, Tag.merge]
  have hnew : ¬ done.contains name = true := by rwa [List.contains_iff_mem]
  rw [ownFields, if_neg hmerge]
  refine hkey.bind (n := m + 2 + n) ?_
  simp only [Option.getD_none, List.contains_nil, Bool.false_eq_true, if_false, hslot, if_neg hnew]
  exact hfield.bind hrest

/-- A record is read if its fields are. -/
theorem gives_record {line : Nat} {tag : String} {init : σ}
    (hkeys : entries.Pairwise fun a b => a.1.text ≠ b.1.text)
    (h : Gives (ownFields doc type slots entries none [] none init) n (s, none, none)) :
    Gives (record doc type slots init (.mapping line tag entries)) n (some s) := by
  rw [record]
  refine (gives_uniqueKeys hkeys).bind ?_ (Nat.zero_add n).le
  -- Nothing is merged in, so that a single step is enough.
  have hfuel : (doc.anchors.size + 1) * (doc.depth + 1) =
      doc.anchors.size * (doc.depth + 1) + doc.depth + 1 := by ring
  rw [if_pos rfl, hfuel]
  refine Gives.bind (a := (s, none)) ?_ (gives_pure (some s)) le_rfl
  rw [fields]
  exact h.bind (gives_pure (s, none))

/-- **A record of two fields is read if both are.** -/
theorem gives_record_pair {β : Type} {line keyLine keyLine' : Nat} {style style' : Style}
    {tag name' : String} {v' : Node} {init : σ} {b : β} {read : Node → Decode (Option α)}
    {read' : Node → Decode (Option β)} {set : σ → α → σ} {set' : σ → β → σ}
    (hslot : slots.lookup name = some (slot read set))
    (hslot' : slots.lookup name' = some (slot read' set')) (hne : name ≠ name')
    (hv : Reads doc read v a) (hv' : Reads doc read' v' b) (hs : set' (set init a) b = s) :
    Gives (record doc type slots init (.mapping line tag
      [(key keyLine style name, v), (key keyLine' style' name', v')])) 8 (some s) := by
  have hdone : name' ∉ [name] := by rwa [List.mem_singleton, eq_comm]
  have hlast : Gives (ownFields doc type slots [(key keyLine' style' name', v')] none [name] none
      (set init a)) 4 (s, none, none) :=
    hs ▸ gives_ownFields_cons (n := 0) hslot' hdone (gives_slot hv' _) (gives_pure _)
  have hfields : Gives (ownFields doc type slots [(key keyLine style name, v),
      (key keyLine' style' name', v')] none [] none init) 8 (s, none, none) :=
    gives_ownFields_cons (n := 4) hslot List.not_mem_nil (gives_slot hv _) hlast
  exact gives_record (List.pairwise_pair.mpr hne) hfields

end Records

end WireSchema.Yaml.Decode

import Mathlib
import WireSchema.Proofs.Number.TypedLiteral
import WireSchema.Proofs.Schema.Shorthand
import WireSchema.Proofs.Yaml.Decode
import WireSchema.Schema.Load

/-!
# Fixed lists in short and as records

A fixed list is given by its type and its length, in short or as a record.  Both ways give the same
list, and neither leaves a trace in what has been read so far.

The type in a shorthand may itself have brackets, digits and white space inside, and may look like a
shorthand: only the last bracket is that of the length.

## Main results

* `shorthandLength_eq` — the length is the number that the digits are, if it fits.
* `readFixedList_mapping` — a record with a type and a length is read as the list of both.
* `readFixedList_shorthand` — a shorthand is read as the record is, and only shorthands are read.
-/

namespace WireSchema.Schema

open Yaml (Document Node Decode Progress Style)
open Yaml.Decode (Reads)

/-! ## Lengths -/

/-- The length is the number that the digits are, if it fits. -/
theorem shorthandLength_eq {digits : List Char} (hdigits : ∀ c ∈ digits, c.isDigit = true) :
    shorthandLength digits =
      if Nat.ofDigitChars 10 digits 0 < 2 ^ 63 then .ok (Nat.ofDigitChars 10 digits 0 : Int)
      else .error .outOfRange := by
  have hread : Number.readDigits 10 (2 ^ 63) 0 digits = _ :=
    Number.readDigits_eq_ofDigitChars hdigits (by decide)
  rw [shorthandLength, show 0x8000000000000000 = 2 ^ 63 from rfl, hread]
  by_cases hfits : Nat.ofDigitChars 10 digits 0 < 2 ^ 63
  · rw [if_pos hfits, if_pos hfits]
    rfl
  · rw [if_neg hfits, if_neg hfits]
    rfl

/-! ## Records -/

section Records

variable {doc : Document} {list : FixedListEntry} {entries : List (Node × Node)}

/-- The entries of a mapping with a type and a length, in either order. -/
inductive GivesList (doc : Document) (list : FixedListEntry) : List (Node × Node) → Prop
  | typeFirst {line line' : Nat} {style style' : Style} {type length : Node}
      (htype : Reads doc Decode.text type list.type)
      (hlength : Reads doc Decode.int length list.length) :
      GivesList doc list
        [(Decode.key line style "type", type), (Decode.key line' style' "length", length)]
  | lengthFirst {line line' : Nat} {style style' : Style} {type length : Node}
      (htype : Reads doc Decode.text type list.type)
      (hlength : Reads doc Decode.int length list.length) :
      GivesList doc list
        [(Decode.key line style "length", length), (Decode.key line' style' "type", type)]

/-- **A record with a type and a length is read as the list of both.** -/
theorem readFixedList_mapping (h : GivesList doc list entries) (line : Nat) (tag : String)
    (p : Progress) : readFixedList doc (.mapping line tag entries) p = .ok (some list, p) := by
  refine Decode.apart_of_gives (n := 10) (Decode.gives_enter ?_) (by decide) p
  cases h with
  | typeFirst htype hlength =>
      exact Decode.gives_record_pair rfl rfl (by decide) htype hlength rfl
  | lengthFirst htype hlength =>
      exact Decode.gives_record_pair rfl rfl (by decide) hlength htype rfl

/-- The type as a text and the length in decimal are such entries. -/
theorem givesList_scalars (doc : Document) (type : String) (length : Int) (line : Nat)
    (style : Style) (hlow : -2 ^ 63 ≤ length) (hhigh : length < 2 ^ 63) :
    GivesList doc ⟨type, length⟩
      [(Decode.key line style "type", .scalar line Yaml.Tag.str style type),
        (Decode.key line style "length", .scalar line Yaml.Tag.int style (toString length))] :=
  .typeFirst (Decode.reads_text doc line style type) (Decode.reads_int doc line style hlow hhigh)

end Records

/-! ## Shorthands -/

section Shorthands

variable {record : Node → Decode (Option FixedListEntry)} {line : Nat} {tag text : String}
  {style : Style} {type digits : List Char} {list : FixedListEntry} {p q : Progress}

theorem isDigit_of_splitShorthand (h : splitShorthand text = some (type, digits)) :
    ∀ c ∈ digits, c.isDigit = true := by
  obtain ⟨_, _, -, hbracket⟩ := bracketed_of_splitShorthand h
  exact hbracket.isDigit

theorem readFixedList_scalar (hsplit : splitShorthand text = some (type, digits))
    (hfits : Nat.ofDigitChars 10 digits 0 < 2 ^ 63) :
    readFixedListWith record (.scalar line tag style text) p =
      .ok (some ⟨String.ofList type, Nat.ofDigitChars 10 digits 0⟩, p) := by
  have hlength := shorthandLength_eq (isDigit_of_splitShorthand hsplit)
  rw [if_pos hfits] at hlength
  simp only [readFixedListWith, hsplit, hlength]
  rfl

/-- What is read is what the shorthand splits into. -/
theorem split_of_readFixedList {list? : Option FixedListEntry}
    (h : readFixedListWith record (.scalar line tag style text) p = .ok (list?, q)) :
    ∃ type digits, splitShorthand text = some (type, digits) ∧
      Nat.ofDigitChars 10 digits 0 < 2 ^ 63 ∧
      list? = some ⟨String.ofList type, Nat.ofDigitChars 10 digits 0⟩ ∧ q = p := by
  cases hsplit : splitShorthand text with
  | none =>
      simp only [readFixedListWith, hsplit] at h
      cases h
  | some split =>
      obtain ⟨type, digits⟩ := split
      have hlength := shorthandLength_eq (isDigit_of_splitShorthand hsplit)
      by_cases hfits : Nat.ofDigitChars 10 digits 0 < 2 ^ 63
      · rw [readFixedList_scalar hsplit hfits] at h
        obtain ⟨rfl, rfl⟩ := Prod.mk.inj (Except.ok.inj h)
        exact ⟨type, digits, rfl, hfits, rfl, rfl⟩
      · rw [if_neg hfits] at hlength
        simp only [readFixedListWith, hsplit, hlength] at h
        cases h

/-- **A shorthand means what the record means.**  With a type that can be named and digits whose
number fits, a shorthand is read as every record with that type and that number is, wherever it has
white space, and however records are read.  A text is read only if it is written as a shorthand, and
then its digits are the length; which of the types that it can be written with is taken, the pattern
says. -/
theorem readFixedList_shorthand (doc : Document) (line : Nat) (tag : String) (style : Style)
    (text : String) (p : Progress) :
    (∀ type digits : List Char, Nameable type → Written type digits text.toList →
      Nat.ofDigitChars 10 digits 0 < 2 ^ 63 →
        let list : FixedListEntry := ⟨String.ofList type, Nat.ofDigitChars 10 digits 0⟩
        readFixedList doc (.scalar line tag style text) p = .ok (some list, p) ∧
          (∀ (line' : Nat) (tag' : String) (entries : List (Node × Node)),
            GivesList doc list entries →
              readFixedList doc (.mapping line' tag' entries) p = .ok (some list, p)) ∧
          ∀ (record : Node → Decode (Option FixedListEntry)) (line' : Nat) (tag' : String)
            (entries : List (Node × Node)),
            record (.mapping line' tag' entries) p = .ok (some list, p) →
              readFixedListWith record (.scalar line tag style text) p =
                readFixedListWith record (.mapping line' tag' entries) p) ∧
    (∀ (list? : Option FixedListEntry) (q : Progress),
      readFixedList doc (.scalar line tag style text) p = .ok (list?, q) →
        q = p ∧ ∃ type digits : List Char, type ≠ [] ∧ '\n' ∉ type ∧
          Written type digits text.toList ∧
          (∀ type' digits', Written type' digits' text.toList → digits' = digits) ∧
          Nat.ofDigitChars 10 digits 0 < 2 ^ 63 ∧
          list? = some ⟨String.ofList type, Nat.ofDigitChars 10 digits 0⟩) ∧
    (splitShorthand text).map (fun split => [split.1, split.2]) =
      Text.firstMatch shorthandPattern text.toList := by
  refine ⟨?_, ?_, splitShorthand_eq_firstMatch text⟩
  · intro type digits htype hwritten hfits
    have hscalar : ∀ record, readFixedListWith record (.scalar line tag style text) p = _ :=
      fun _ => readFixedList_scalar (splitShorthand_of_written htype hwritten) hfits
    exact ⟨hscalar _, fun line' tag' _ hentries => readFixedList_mapping hentries line' tag' p,
      fun record _ _ _ hrecord => (hscalar record).trans hrecord.symm⟩
  · intro list? q h
    obtain ⟨type, digits, hsplit, hfits, hlist, hq⟩ := split_of_readFixedList h
    obtain ⟨hne, hline, hwritten⟩ := written_of_splitShorthand hsplit
    exact ⟨hq, type, digits, hne, hline, hwritten, fun _ _ h' => h'.digits_eq hsplit, hfits, hlist⟩

theorem readFixedList_shorthand_bracketed :
    let doc : Document := { root := Node.missing 1, anchors := #[], depth := 1 }
    let list : FixedListEntry := { type := "a[3] b", length := 7 }
    readFixedList doc (.scalar 2 Yaml.Tag.str .double " a[3] b [ 007 ]\n") {} =
        .ok (some list, {}) ∧
      readFixedList doc (.mapping 2 Yaml.Tag.map
        [(Decode.key 2 .plain "type", .scalar 2 Yaml.Tag.str .plain "a[3] b"),
          (Decode.key 2 .plain "length", .scalar 2 Yaml.Tag.int .plain "7")]) {} =
        .ok (some list, {}) := by
  intro doc list
  have hname : Nameable "a[3] b".toList :=
    ⟨by decide, by decide, fun _ hc => Option.some.inj hc ▸ rfl,
      fun _ hc => Option.some.inj hc ▸ rfl⟩
  have hspace : ∀ c ∈ [' '], isShorthandBlank c = true := List.all_eq_true.mp rfl
  have hline : ∀ c ∈ ['\n'], isShorthandBlank c = true := List.all_eq_true.mp rfl
  have hdigits : ∀ c ∈ "007".toList, c.isDigit = true := List.all_eq_true.mp rfl
  have hwritten : Written "a[3] b".toList "007".toList " a[3] b [ 007 ]\n".toList :=
    .intro hspace hspace (.intro hspace hspace hline (by decide) hdigits)
  obtain ⟨hscalar, hmapping, -⟩ := (readFixedList_shorthand doc 2 Yaml.Tag.str .double
    " a[3] b [ 007 ]\n" {}).1 _ _ hname hwritten (by decide)
  exact ⟨hscalar, hmapping 2 Yaml.Tag.map _
    (givesList_scalars doc "a[3] b" 7 2 .plain (by decide) (by decide))⟩

end Shorthands

end WireSchema.Schema

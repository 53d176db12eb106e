/-
  Identifiers and their written forms.

  The written forms have a grammar of their own (`IsWritten`): a part up to the first `#`, a part up
  to the first `$` after it, and, where there is a `$`, all the rest; no part is empty.  Only the
  first mark of each kind counts, so a name may hold a `#`, and a member may hold both marks.

  What carries the proofs is that an identifier without a mark in the wrong place is written in this
  grammar (`isWritten_text`), and that a text of the grammar is the written form of one such
  identifier (`exists_text_eq`).  Reading then has nothing to lose: it succeeds on the grammar and
  on nothing else, and reading and writing undo each other (`parse?_eq_some_iff`).
-/
import SchemaSymbols.Proofs.Shape.Codec

namespace SchemaSymbols.ShapeId

variable {id id' : ShapeId} {s : String}

/-! ## Written forms -/

/-- What stands after the namespace: a name, or a name and a member. -/
def IsWrittenRest (rest : List Char) : Prop :=
  (rest ≠ [] ∧ '$' ∉ rest) ∨
    ∃ name member, rest = name ++ '$' :: member ∧ '$' ∉ name ∧ name ≠ [] ∧ member ≠ []

/-- The texts that identifiers are written in: a namespace, a `#`, and what stands after it. -/
def IsWritten (s : List Char) : Prop :=
  ∃ scope rest, s = scope ++ '#' :: rest ∧ '#' ∉ scope ∧ scope ≠ [] ∧ IsWrittenRest rest

/-- A printable identifier is written in the grammar. -/
theorem isWritten_text (h : id.Printable) : IsWritten id.text.toList := by
  obtain ⟨scope, name, member⟩ := id
  obtain ⟨⟨hscope, hmark⟩, ⟨hname, hcut⟩, hmember⟩ := h
  have hscope' : scope.toList ≠ [] := fun he => hscope (String.toList_eq_nil_iff.1 he)
  have hname' : name.toList ≠ [] := fun he => hname (String.toList_eq_nil_iff.1 he)
  cases member with
  | none =>
    exact ⟨scope.toList, name.toList, by simp [text], hmark, hscope', Or.inl ⟨hname', hcut⟩⟩
  | some member =>
    have hmember' : member.toList ≠ [] := fun he =>
      hmember (congrArg some (String.toList_eq_nil_iff.1 he))
    refine ⟨scope.toList, name.toList ++ '$' :: member.toList, by simp [text], hmark, hscope', ?_⟩
    exact Or.inr ⟨name.toList, member.toList, rfl, hcut, hname', hmember'⟩

/-- A text of the grammar is a written form: its parts are those of the identifier. -/
theorem exists_text_eq (h : IsWritten s.toList) : ∃ id : ShapeId, id.Printable ∧ id.text = s := by
  obtain ⟨scope, rest, hs, hmark, hscope, hrest⟩ := h
  obtain ⟨hrest, hcut⟩ | ⟨name, member, rfl, hcut, hname, hmember⟩ := hrest
  · refine ⟨⟨String.ofList scope, String.ofList rest, none⟩, by simp [Printable, *], ?_⟩
    refine String.toList_inj.1 ?_
    simp [text, hs]
  · refine ⟨⟨String.ofList scope, String.ofList name, some (String.ofList member)⟩,
      by simp [Printable, *], ?_⟩
    refine String.toList_inj.1 ?_
    simp [text, hs]

/-- The texts of the grammar are the written forms of printable identifiers. -/
theorem isWritten_iff : IsWritten s.toList ↔ ∃ id : ShapeId, id.Printable ∧ id.text = s := by
  constructor
  · exact exists_text_eq
  · rintro ⟨id, printable, rfl⟩
    exact isWritten_text printable

/-! ## Reading -/

/-- What was read is written as it was. -/
theorem text_of_parse? (h : parse? s = some id) : id.text = s := by
  rw [parse?] at h
  obtain ⟨⟨scope, rest⟩, hscope, h⟩ := Option.bind_eq_some_iff.1 h
  obtain ⟨hs, -⟩ := Text.cut?_eq_some_iff.1 hscope
  refine String.toList_inj.1 ?_
  simp only at h
  split at h
  · cases h
  · rw [parseRest?] at h
    split at h
    · split at h
      · cases h
      · cases h
        simp [text, hs]
    · next name member hcut =>
      obtain ⟨hrest, -⟩ := Text.cut?_eq_some_iff.1 hcut
      split at h
      · cases h
      · cases h
        simp [text, hs, hrest]

/-- A text is read as an identifier if it is its written form and can be printed. -/
theorem parse?_eq_some_iff : parse? s = some id ↔ id.Printable ∧ id.text = s := by
  constructor
  · exact fun h => ⟨printable_of_parse? h, text_of_parse? h⟩
  · rintro ⟨printable, rfl⟩
    exact parse?_text printable

/-- A text is read exactly if it has a non-empty part before its first `#`, and after it either a
    non-empty text without `$` or non-empty parts before and after the first `$`.  What is read from
    a text is the identifier that is written in it, and there is one at most. -/
theorem identifier_syntax :
    (∀ s, (∃ id, parse? s = some id) ↔ IsWritten s.toList) ∧
    (∀ s id, parse? s = some id ↔ id.Printable ∧ id.text = s) ∧
    ∀ id id' : ShapeId, id.Printable → id'.Printable → id.text = id'.text → id = id' := by
  refine ⟨fun s => ?_, fun s id => parse?_eq_some_iff, fun id id' printable printable' htext => ?_⟩
  · rw [isWritten_iff]
    exact exists_congr fun id => parse?_eq_some_iff
  · have hread := parse?_text printable
    rw [htext, parse?_text printable'] at hread
    exact (Option.some.inj hread).symm

/-- Further marks belong to the part that they stand in, and a different cut is a different text. -/
theorem marked_identifier_syntax :
    parse? "a$b#c#d$e$f#g" = some ⟨"a$b", "c#d", some "e$f#g"⟩ ∧
      ∀ id : ShapeId, id.Printable → id.text = "a$b#c#d$e$f#g" →
        id = ⟨"a$b", "c#d", some "e$f#g"⟩ := by
  obtain ⟨-, hread, hinj⟩ := identifier_syntax
  have printable : Printable ⟨"a$b", "c#d", some "e$f#g"⟩ := by decide
  refine ⟨(hread _ _).2 ⟨printable, rfl⟩, ?_⟩
  intro id printable' htext
  exact hinj id _ printable' printable htext

end SchemaSymbols.ShapeId

/-
  Cutting texts at a character.

  `cut?` divides a text at the first occurrence of a mark, `pieces` at all of them.  Cutting loses
  nothing but the mark: `cut?_eq_some_iff` says how to put the text together again, and
  `cut?_eq_none_iff` when there is nothing to cut.
-/

namespace SchemaSymbols.Text

/-- The parts of a text before and after the first `mark`. -/
def cut? (mark : Char) : List Char → Option (List Char × List Char)
  | [] => none
  | c :: rest =>
    if c = mark then some ([], rest)
    else (cut? mark rest).map fun (before, after) => (c :: before, after)

/-- A text is cut at the first occurrence of the mark. -/
theorem cut?_eq_some_iff {mark : Char} {s before after : List Char} :
    cut? mark s = some (before, after) ↔ s = before ++ mark :: after ∧ mark ∉ before := by
  induction s generalizing before with
  | nil => simp [cut?]
  | cons c rest ih =>
    rw [cut?]
    split
    · next h =>
      subst h
      cases before with
      | nil => simp
      | cons b before =>
        simp only [Option.some.injEq, Prod.mk.injEq, List.nil_eq, List.cons_append,
          List.cons.injEq, List.mem_cons, not_or]
        grind
    · next h =>
      cases before with
      | nil =>
        simp only [Option.map_eq_some_iff, Prod.mk.injEq, List.nil_append, List.cons.injEq]
        grind
      | cons b before =>
        simp only [Option.map_eq_some_iff, Prod.exists, Prod.mk.injEq, List.cons.injEq,
          List.cons_append, List.mem_cons, not_or]
        grind

/-- A text without the mark is not cut. -/
theorem cut?_eq_none_iff {mark : Char} {s : List Char} : cut? mark s = none ↔ mark ∉ s := by
  induction s with
  | nil => simp [cut?]
  | cons c rest ih =>
    rw [cut?]
    split
    · next h => simp [h]
    · next h => simp [ih, Ne.symm h]

/-- The pieces of a text between its marks; a text without marks is one piece. -/
def pieces (mark : Char) : List Char → List (List Char)
  | [] => [[]]
  | c :: rest =>
    match pieces mark rest with
    | [] => []
    | piece :: more => if c = mark then [] :: piece :: more else (c :: piece) :: more

end SchemaSymbols.Text

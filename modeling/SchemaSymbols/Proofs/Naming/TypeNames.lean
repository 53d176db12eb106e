/-
  What type names look like.

  The words of a text are its ASCII letters and digits, in order: scanning, closing runs and
  splitting them moves no character and drops none (`flatten_words`, from one lemma for each of the
  steps).  Casing changes nothing about a letter but its size (`length_caseWord`,
  `isAlphanum_of_mem_caseWord`).

  So a type name consists of letters and digits, possibly after an underscore, unless the name has
  none: such a name is taken as it is, and only then can anything else get into a type name
  (`typeName_cases`).
-/
import Mathlib.Data.List.Basic
import SchemaSymbols.Naming.Casing

namespace SchemaSymbols

/-! ## Words -/

namespace Naming

variable {s : List Char}

/-- Letters and digits are capitals, small letters and digits. -/
theorem isAlphanum_eq (c : Char) : c.isAlphanum = (c.isUpper || isSmall c) := by
  show ((c.isUpper || c.isLower) || c.isDigit) = (c.isUpper || (c.isLower || c.isDigit))
  rw [Bool.or_assoc]

/-- Scanning keeps the letters and digits of a text, in order. -/
theorem flatten_scanRuns (s : List Char) :
    (scanRuns s).1 ++ (scanRuns s).2.flatten = s.filter Char.isAlphanum := by
  induction s with
  | nil => rfl
  | cons c s ih =>
    rw [scanRuns, List.filter_cons, isAlphanum_eq, ← ih]
    generalize scanRuns s = scanned
    obtain ⟨run, more⟩ := scanned
    cases hupper : c.isUpper with
    | true => simp
    | false =>
      cases hsmall : isSmall c with
      | true =>
        cases hfirst : run.head?.any Char.isUpper with
        | true => simp [hfirst]
        | false => simp [hfirst]
      | false => cases run <;> simp

/-- So do its runs. -/
theorem flatten_runs (s : List Char) : (runs s).flatten = s.filter Char.isAlphanum := by
  rw [runs, ← flatten_scanRuns]
  generalize scanRuns s = scanned
  obtain ⟨run, more⟩ := scanned
  cases run <;> simp

theorem flatten_splitRun (run : List Char) : (splitRun run).flatten = run := by
  rw [splitRun]
  split
  · simp
  · simp

/-- The words of a text are its letters and digits. -/
theorem flatten_words (s : List Char) : (words s).flatten = s.filter Char.isAlphanum := by
  have hsplit : List.flatten ∘ splitRun = id := funext flatten_splitRun
  rw [words, List.flatMap_def, List.flatten_flatten, List.map_map, hsplit, List.map_id,
    flatten_runs]

end Naming

/-! ## Casing -/

/-- Letters and digits are ASCII. -/
theorem toNat_lt_of_isAlphanum {c : Char} (h : c.isAlphanum = true) : c.toNat < 128 := by
  have hclass : ((c.isUpper || c.isLower) || c.isDigit) = true := h
  rw [Bool.or_eq_true, Bool.or_eq_true] at hclass
  -- each of the three classes has a last character
  have hlast : c.val ≤ 'Z'.val ∨ c.val ≤ 'z'.val ∨ c.val ≤ '9'.val := by
    rcases hclass with (hupper | hlower) | hdigit
    · exact Or.inl (of_decide_eq_true hupper).2
    · exact Or.inr (Or.inl (of_decide_eq_true (Bool.and_eq_true_iff.1 hlower).2))
    · exact Or.inr (Or.inr (of_decide_eq_true (Bool.and_eq_true_iff.1 hdigit).2))
  simp only [UInt32.le_iff_toNat_le] at hlast
  have hval : c.toNat = c.val.toNat := rfl
  have hZ : 'Z'.val.toNat = 90 := rfl
  have hz : 'z'.val.toNat = 122 := rfl
  have hnine : '9'.val.toNat = 57 := rfl
  omega

/-- Letters and digits stay what they are in capitals and in small letters. -/
theorem isAlphanum_toUpper_toLower {c : Char} (h : c.isAlphanum = true) :
    c.toUpper.isAlphanum = true ∧ c.toLower.isAlphanum = true := by
  have hall : ∀ n < 128, (Char.ofNat n).isAlphanum = true →
      (Char.ofNat n).toUpper.isAlphanum = true ∧ (Char.ofNat n).toLower.isAlphanum = true := by
    decide +kernel
  have hc := hall c.toNat (toNat_lt_of_isAlphanum h)
  rw [Char.ofNat_toNat] at hc
  exact hc h

namespace NamingOptions

variable {o : NamingOptions} {w s : List Char} {mixed : Bool}

/-- Casing a word keeps its length. -/
theorem length_caseWord (o : NamingOptions) (mixed : Bool) (w : List Char) :
    (o.caseWord mixed w).length = w.length := by
  rw [caseWord]
  split
  · exact List.length_map _
  · split
    · rfl
    · cases w with
      | nil => rfl
      | cons c w => simp [capitalized, lower]

/-- Casing a word leaves letters and digits. -/
theorem isAlphanum_of_mem_caseWord (h : ∀ c ∈ w, c.isAlphanum = true) :
    ∀ c ∈ o.caseWord mixed w, c.isAlphanum = true := by
  intro c hc
  rw [caseWord] at hc
  split at hc
  · obtain ⟨d, hd, rfl⟩ := List.mem_map.1 hc
    exact (isAlphanum_toUpper_toLower (h d hd)).1
  · split at hc
    · exact h c hc
    · cases w with
      | nil => cases hc
      | cons first w =>
        rcases List.mem_cons.1 hc with rfl | hrest
        · exact (isAlphanum_toUpper_toLower (h first List.mem_cons_self)).1
        · obtain ⟨d, hd, rfl⟩ := List.mem_map.1 hrest
          exact (isAlphanum_toUpper_toLower (h d (List.mem_cons_of_mem _ hd))).2

/-- Every character of a word is a letter or a digit of the text. -/
theorem isAlphanum_of_mem_words (hw : w ∈ Naming.words s) : ∀ c ∈ w, c.isAlphanum = true := by
  intro c hc
  have hmem : c ∈ (Naming.words s).flatten := List.mem_flatten.2 ⟨w, hw, hc⟩
  rw [Naming.flatten_words] at hmem
  exact (List.mem_filter.1 hmem).2

theorem isAlphanum_of_mem_pascal : ∀ c ∈ o.pascal s, c.isAlphanum = true := by
  intro c hc
  obtain ⟨w, hw, hcase⟩ := List.mem_flatMap.1 hc
  exact isAlphanum_of_mem_caseWord (isAlphanum_of_mem_words hw) c hcase

theorem length_pascal (o : NamingOptions) (s : List Char) :
    (o.pascal s).length = (s.filter Char.isAlphanum).length := by
  rw [← Naming.flatten_words, pascal, List.length_flatMap, List.length_flatten]
  exact congrArg List.sum (List.map_congr_left fun w _ => o.length_caseWord _ w)

/-- Only a text without letters and digits has nothing to case. -/
theorem pascal_eq_nil : o.pascal s = [] ↔ ∀ c ∈ s, c.isAlphanum = false := by
  rw [← List.length_eq_zero_iff, length_pascal, List.length_eq_zero_iff, List.filter_eq_nil_iff]
  simp only [Bool.not_eq_true]

/-! ## Type names -/

/-- A type name is made of letters and digits, or it is the name itself, which has none. -/
theorem typeName_cases (o : NamingOptions) (name : String) :
    (∃ cased, cased ≠ [] ∧ (∀ c ∈ cased, c.isAlphanum = true) ∧
      ((o.typeName name).toList = cased ∨ (o.typeName name).toList = '_' :: cased)) ∨
    (o.typeName name = name ∧ ∀ c ∈ name.toList, c.isAlphanum = false) := by
  cases hcased : o.pascal name.toList with
  | nil =>
    right
    refine ⟨?_, pascal_eq_nil.1 hcased⟩
    rw [typeName, hcased]
  | cons first rest =>
    left
    have htype : (o.typeName name).toList = guardDigit (first :: rest) := by
      rw [typeName, hcased]
      exact String.toList_ofList
    refine ⟨first :: rest, List.cons_ne_nil _ _, ?_, ?_⟩
    · rw [← hcased]
      exact isAlphanum_of_mem_pascal
    · rw [htype, guardDigit]
      split
      · exact Or.inr rfl
      · exact Or.inl rfl

/-- No type name has both a hash and a letter. -/
theorem hash_not_mem_or_r_not_mem (o : NamingOptions) (name : String) :
    '#' ∉ (o.typeName name).toList ∨ 'r' ∉ (o.typeName name).toList := by
  rcases o.typeName_cases name with ⟨cased, -, hcased, htype⟩ | ⟨htype, hnone⟩
  · left
    intro hc
    rcases htype with htype | htype
    · rw [htype] at hc
      cases hcased _ hc
    · rw [htype] at hc
      cases hcased _ ((List.mem_cons.1 hc).resolve_left (by decide))
  · right
    intro hc
    cases hnone _ (htype ▸ hc)

end NamingOptions

end SchemaSymbols

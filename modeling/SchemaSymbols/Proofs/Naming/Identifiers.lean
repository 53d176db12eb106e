/-
  Cased names are identifiers.

  1. **Words.**  There is no empty word among the words of a name, and there is none at all exactly
     if the name has no letter and no digit (`words_eq_nil`).

  2. **Casing.**  Casing a word changes neither its length nor what its characters are.  So what a
     casing makes of a name (`IsCased`) is made of letters and digits and of underscores between
     them, none at either end, and it is empty only if the name has no words.
     Joining words with an underscore keeps it so (`IsCased.join`, `IsCased.intercalate`).

  3. **Identifiers.**  A digit in front is guarded by an underscore, and this makes an identifier of
     every cased name that is not empty (`IsCased.isIdentifier_guardDigit`).

  4. **Assigned names.**  A name without words is replaced by a fixed one, and a number after an
     identifier leaves it one: every candidate for an assigned name is an identifier before it is
     escaped (`of_mem_assignFrom`).
-/
import SchemaSymbols.Proofs.Naming.Assignment
import SchemaSymbols.Proofs.Naming.TypeNames

namespace SchemaSymbols

/-! ## Words -/

namespace Naming

variable {s run w : List Char}

/-- No closed run is empty. -/
theorem ne_nil_of_mem_scanRuns (h : run ∈ (scanRuns s).2) : run ≠ [] := by
  induction s with
  | nil => cases h
  | cons c s ih =>
    rw [scanRuns] at h
    generalize scanRuns s = scanned at h ih
    obtain ⟨first, more⟩ := scanned
    simp only at h ih
    split at h
    · exact ih h
    · split at h
      · split at h
        · -- the run behind `c` starts with a capital, so it is not empty
          rename_i hfirst
          rcases List.mem_cons.1 h with rfl | h
          · rintro rfl
            cases hfirst
          · exact ih h
        · exact ih h
      · split at h
        · exact ih h
        · rename_i hfirst
          rcases List.mem_cons.1 h with rfl | h
          · exact fun he => hfirst (List.isEmpty_iff.2 he)
          · exact ih h

/-- No run is empty. -/
theorem ne_nil_of_mem_runs (h : run ∈ runs s) : run ≠ [] := by
  change run ∈ (if (scanRuns s).1.isEmpty then (scanRuns s).2 else (scanRuns s).1 :: (scanRuns s).2)
    at h
  split at h
  · exact ne_nil_of_mem_scanRuns h
  · rename_i hfirst
    rcases List.mem_cons.1 h with rfl | h
    · exact fun he => hfirst (List.isEmpty_iff.2 he)
    · exact ne_nil_of_mem_scanRuns h

/-- No part of a run is empty. -/
theorem ne_nil_of_mem_splitRun (hrun : run ≠ []) (h : w ∈ splitRun run) : w ≠ [] := by
  rw [splitRun] at h
  split at h
  · rename_i hcapitals
    obtain ⟨hmany, hsmall⟩ := hcapitals
    have hle : (run.takeWhile Char.isUpper).length ≤ run.length :=
      (List.takeWhile_prefix _).length_le
    rcases List.mem_cons.1 h with rfl | h
    · rw [ne_eq, List.take_eq_nil_iff, not_or]
      exact ⟨by omega, hrun⟩
    · rw [List.mem_singleton.1 h, ne_eq, List.drop_eq_nil_iff]
      omega
  · rw [List.mem_singleton.1 h]
    exact hrun

/-- No word is empty. -/
theorem ne_nil_of_mem_words (h : w ∈ words s) : w ≠ [] := by
  obtain ⟨run, hrun, hw⟩ := List.mem_flatMap.1 h
  exact ne_nil_of_mem_splitRun (ne_nil_of_mem_runs hrun) hw

/-- Only a text without letters and digits has no words. -/
theorem words_eq_nil : words s = [] ↔ ∀ c ∈ s, c.isAlphanum = false := by
  have hflatten : (words s).flatten = [] ↔ words s = [] := by
    refine ⟨fun h => ?_, fun h => by rw [h]; rfl⟩
    refine List.eq_nil_iff_forall_not_mem.2 fun w hw => ne_nil_of_mem_words hw ?_
    exact List.flatten_eq_nil_iff.1 h w hw
  rw [← hflatten, flatten_words, List.filter_eq_nil_iff]
  simp only [Bool.not_eq_true]

end Naming

/-! ## Casing -/

/-- What casing makes of words: letters and digits, and underscores between them. -/
structure IsCased (s : List Char) : Prop where
  chars : ∀ c ∈ s, c.isAlphanum = true ∨ c = '_'
  first : ∀ c ∈ s.head?, c.isAlphanum = true
  last : ∀ c ∈ s.getLast?, c.isAlphanum = true

namespace IsCased

variable {s t : List Char}

theorem of_isAlphanum (h : ∀ c ∈ s, c.isAlphanum = true) : IsCased s where
  chars c hc := Or.inl (h c hc)
  first c hc := h c (List.mem_of_head? hc)
  last c hc := h c (List.mem_of_getLast? hc)

/-- An underscore may stand between two cased texts. -/
theorem join (hs : IsCased s) (ht : IsCased t) (hs' : s ≠ []) (ht' : t ≠ []) :
    IsCased (s ++ '_' :: t) := by
  refine ⟨fun c hc => ?_, fun c hc => ?_, fun c hc => ?_⟩
  · rcases List.mem_append.1 hc with hc | hc
    · exact hs.chars c hc
    · exact (List.mem_cons.1 hc).elim Or.inr (ht.chars c)
  · rw [List.head?_append_of_ne_nil _ hs'] at hc
    exact hs.first c hc
  · rw [List.getLast?_append_of_ne_nil _ (List.cons_ne_nil _ _), List.getLast?_cons_of_ne_nil ht']
      at hc
    exact ht.last c hc

/-- Words that are joined by underscores are cased, and something is left of them. -/
theorem intercalate {ws : List (List Char)} (hne : ∀ w ∈ ws, w ≠ [])
    (h : ∀ w ∈ ws, ∀ c ∈ w, c.isAlphanum = true) :
    IsCased (List.intercalate ['_'] ws) ∧ (List.intercalate ['_'] ws = [] → ws = []) := by
  induction ws with
  | nil => exact ⟨.of_isAlphanum nofun, fun _ => rfl⟩
  | cons w ws ih =>
    have hw : IsCased w := .of_isAlphanum (h w List.mem_cons_self)
    have hw' : w ≠ [] := hne w List.mem_cons_self
    cases ws with
    | nil =>
      rw [List.intercalate_singleton]
      exact ⟨hw, fun he => absurd he hw'⟩
    | cons v ws =>
      obtain ⟨hrest, hrest'⟩ := ih (fun u hu => hne u (List.mem_cons_of_mem _ hu)) fun u hu =>
        h u (List.mem_cons_of_mem _ hu)
      rw [List.intercalate_cons_cons, List.append_assoc]
      refine ⟨hw.join hrest hw' fun he => ?_, fun he => absurd (List.append_eq_nil_iff.1 he).1 hw'⟩
      cases hrest' he

end IsCased

namespace NamingOptions

variable {o : NamingOptions} {s : List Char}

/-- A name in a casing, before a digit in front is guarded. -/
def cased (o : NamingOptions) (casing : Casing) (s : List Char) : List Char :=
  match casing with
  | .pascal => o.pascal s
  | .camel => o.camel s
  | .snake => joined lower s
  | .screamingSnake => joined upper s

/-- A casing joins the cased words and guards a digit in front. -/
theorem apply_eq (o : NamingOptions) (casing : Casing) (s : String) :
    o.apply casing s = String.ofList (guardDigit (o.cased casing s.toList)) := by
  cases casing <;> rfl

/-- Camel case has letters and digits only. -/
theorem isAlphanum_of_mem_camel : ∀ c ∈ o.camel s, c.isAlphanum = true := by
  intro c hc
  rw [camel] at hc
  split at hc
  · cases hc
  · rename_i first rest hwords
    have hword : ∀ w ∈ first :: rest, ∀ c ∈ w, c.isAlphanum = true := fun w hw =>
      isAlphanum_of_mem_words (hwords ▸ hw)
    rcases List.mem_append.1 hc with hc | hc
    · obtain ⟨d, hd, rfl⟩ := List.mem_map.1 hc
      exact (isAlphanum_toUpper_toLower (hword first List.mem_cons_self d hd)).2
    · obtain ⟨w, hw, hcase⟩ := List.mem_flatMap.1 hc
      exact isAlphanum_of_mem_caseWord (hword w (List.mem_cons_of_mem _ hw)) c hcase

/-- Camel case is empty for a name without words only. -/
theorem camel_eq_nil : o.camel s = [] ↔ Naming.words s = [] := by
  rw [camel]
  split
  · rename_i hwords
    exact ⟨fun _ => hwords, fun _ => rfl⟩
  · rename_i first rest hwords
    have hfirst : first ≠ [] := Naming.ne_nil_of_mem_words (hwords ▸ List.mem_cons_self)
    rw [hwords]
    simp [lower, hfirst]

/-- Words that are changed character by character and joined are cased. -/
theorem isCased_joined {f : Char → Char} (hf : ∀ c, c.isAlphanum = true → (f c).isAlphanum = true)
    (s : List Char) : IsCased (joined (List.map f) s) ∧
      (joined (List.map f) s = [] ↔ Naming.words s = []) := by
  have hwords : ∀ v ∈ (Naming.words s).map (List.map f), v ≠ [] ∧ ∀ c ∈ v, c.isAlphanum = true := by
    intro v hv
    obtain ⟨w, hw, rfl⟩ := List.mem_map.1 hv
    refine ⟨by simpa using Naming.ne_nil_of_mem_words hw, fun c hc => ?_⟩
    obtain ⟨d, hd, rfl⟩ := List.mem_map.1 hc
    exact hf d (isAlphanum_of_mem_words hw d hd)
  obtain ⟨hcased, hnil⟩ := IsCased.intercalate (fun v hv => (hwords v hv).1)
    fun v hv => (hwords v hv).2
  refine ⟨hcased, fun h => List.map_eq_nil_iff.1 (hnil h), fun h => ?_⟩
  rw [joined, h]
  rfl

/-- What a casing makes of a name is cased, and empty for a name without words only. -/
theorem isCased_cased (o : NamingOptions) (casing : Casing) (s : List Char) :
    IsCased (o.cased casing s) ∧ (o.cased casing s = [] ↔ Naming.words s = []) := by
  cases casing with
  | pascal =>
    exact ⟨.of_isAlphanum isAlphanum_of_mem_pascal, pascal_eq_nil.trans Naming.words_eq_nil.symm⟩
  | camel => exact ⟨.of_isAlphanum isAlphanum_of_mem_camel, camel_eq_nil⟩
  | snake => exact isCased_joined (fun c hc => (isAlphanum_toUpper_toLower hc).2) s
  | screamingSnake => exact isCased_joined (fun c hc => (isAlphanum_toUpper_toLower hc).1) s

end NamingOptions

/-! ## Identifiers -/

/-- ASCII letters, digits and underscores, at least one of them, and no digit in front. -/
def IsIdentifier (s : String) : Prop :=
  s ≠ "" ∧ (∀ c ∈ s.toList, c.isAlphanum = true ∨ c = '_') ∧ s.toList.head?.any Char.isDigit = false

instance (s : String) : Decidable (IsIdentifier s) :=
  have : Decidable (∀ c ∈ s.toList, c.isAlphanum = true ∨ c = '_') := List.decidableBAll _ _
  inferInstanceAs (Decidable (_ ∧ _ ∧ _))

/-- A cased name is an identifier when a digit in front is guarded. -/
theorem IsCased.isIdentifier_guardDigit {s : List Char} (h : IsCased s) (hne : s ≠ []) :
    IsIdentifier (String.ofList (NamingOptions.guardDigit s)) := by
  rw [NamingOptions.guardDigit]
  split
  · refine ⟨by simp, fun c hc => ?_, by simp⟩
    rw [String.toList_ofList] at hc
    exact (List.mem_cons.1 hc).elim Or.inr (h.chars c)
  · rename_i hdigit
    refine ⟨by simpa using hne, fun c hc => ?_, ?_⟩
    · rw [String.toList_ofList] at hc
      exact h.chars c hc
    · rw [String.toList_ofList]
      exact Bool.eq_false_iff.2 hdigit

/-- An identifier stays one when letters, digits and underscores are put after it. -/
theorem IsIdentifier.append {s t : String} (h : IsIdentifier s)
    (ht : ∀ c ∈ t.toList, c.isAlphanum = true ∨ c = '_') : IsIdentifier (s ++ t) := by
  obtain ⟨hne, hchars, hstart⟩ := h
  have hne' : s.toList ≠ [] := fun he => hne (String.toList_eq_nil_iff.1 he)
  refine ⟨fun he => ?_, fun c hc => ?_, ?_⟩
  · have hlist := congrArg String.toList he
    rw [String.toList_append] at hlist
    exact hne' (List.append_eq_nil_iff.1 hlist).1
  · rw [String.toList_append] at hc
    exact (List.mem_append.1 hc).elim (hchars c) (ht c)
  · rw [String.toList_append, List.head?_append_of_ne_nil _ hne']
    exact hstart

namespace NamingOptions

/-- A name without letters and digits has no cased form, and the cased form of any other name is an
identifier. -/
theorem apply_cases (o : NamingOptions) (casing : Casing) (s : String) :
    if s.toList.any Char.isAlphanum then IsIdentifier (o.apply casing s)
    else o.apply casing s = "" := by
  obtain ⟨hcased, hnil⟩ := o.isCased_cased casing s.toList
  have hwords : Naming.words s.toList = [] ↔ s.toList.any Char.isAlphanum = false := by
    rw [Naming.words_eq_nil, List.any_eq_false]
    simp only [Bool.not_eq_true]
  rw [apply_eq]
  split
  · rename_i hany
    refine hcased.isIdentifier_guardDigit fun he => ?_
    rw [hwords.1 (hnil.1 he)] at hany
    cases hany
  · rename_i hany
    rw [hnil.2 (hwords.2 (Bool.eq_false_iff.2 hany))]
    rfl

end NamingOptions

/-! ## Assigned names -/

namespace Namer

variable {n : Namer} {casing : Casing} {a : AssignedName}

/-- The name that is tried first is an identifier. -/
theorem isIdentifier_casedName (n : Namer) (casing : Casing) (wire : String) :
    IsIdentifier (n.casedName casing wire) := by
  have hcases := n.options.apply_cases casing wire
  rw [casedName]
  split at hcases
  · have hne : (n.options.apply casing wire).isEmpty = false :=
      Bool.eq_false_iff.2 fun he => hcases.1 (String.isEmpty_iff.1 he)
    simp only [hne]
    exact hcases
  · rw [hcases]
    decide

/-- A number after an identifier leaves an identifier. -/
theorem isIdentifier_numbered {name : String} (h : IsIdentifier name) (k : Nat) :
    IsIdentifier (numbered name k) := by
  cases k with
  | zero => exact h
  | succ k =>
    refine h.append fun c hc => Or.inl ?_
    rw [Nat.toString_eq_ofList_toDigits, String.toList_ofList] at hc
    have hdigit := Nat.isDigit_of_mem_toDigits (by decide) (by decide) hc
    rw [Char.isAlphanum, hdigit, Bool.or_true]

/-- An assigned name is the escaped form of its candidate, which is the cased name or the cased name
with a number after it. -/
theorem of_mem_assignFrom {taken wires : List String} (h : a ∈ n.assignFrom casing taken wires) :
    a.cased = n.casedName casing a.wire ∧ (∃ k, a.candidate = numbered a.cased k) ∧
      a.name = n.escaper.escape a.candidate := by
  induction wires generalizing taken with
  | nil => cases h
  | cons wire wires ih =>
    rw [assignFrom] at h
    rcases List.mem_cons.1 h with rfl | hrest
    · obtain ⟨k, -, -, hassigned⟩ := n.exists_assignOne casing taken wire
      rw [hassigned]
      exact ⟨rfl, ⟨k, rfl⟩, rfl⟩
    · exact ih hrest

end Namer

/-- In every casing, and whatever the acronyms, a name with an ASCII letter or digit becomes an
    identifier, and any other name becomes empty.  So every assigned name is the escaped form of an
    identifier: of the cased name, or of the cased name and a number. -/
theorem cased_names_identifiers (o : NamingOptions) (casing : Casing) :
    (∀ s : String, if s.toList.any Char.isAlphanum then IsIdentifier (o.apply casing s)
      else o.apply casing s = "") ∧
    ∀ (e : Escaper) (wires : List String), ∀ a ∈ Namer.assign ⟨e, o⟩ casing wires,
      IsIdentifier a.candidate ∧ a.name = e.escape a.candidate := by
  refine ⟨o.apply_cases casing, fun e wires a ha => ?_⟩
  obtain ⟨hcased, ⟨k, hcandidate⟩, hname⟩ := Namer.of_mem_assignFrom ha
  refine ⟨?_, hname⟩
  rw [hcandidate, hcased]
  exact Namer.isIdentifier_numbered (Namer.isIdentifier_casedName _ _ _) k

/-! ## A dial -/

namespace Dial

/-- What the dial's names are escaped with. -/
def namer : Namer := ⟨⟨.raw, ["type", "self", "2"]⟩, { acronyms := Sorted.ofList ["ID"] }⟩

/-- Names with words in common, with reserved words, with digits in front and without words. -/
def wires : List String :=
  ["TYPE", "type2", "Ty\u0301pe", "Type", "2nd-dial", "self", "—", "HTTPServer ID", "9"]

end Dial

/-- A dial's names: words in common are numbered, reserved words are escaped, and a name without
words becomes `value`. -/
theorem dial_names_identifiers :
    (Dial.namer.assign .camel Dial.wires).map AssignedName.name =
        ["r#type", "type2", "tyPe", "type3", "_2ndDial", "self_", "value", "httpServerID", "_9"] ∧
      IsIdentifier (Dial.namer.options.apply .camel "Ty\u0301pe") ∧
      Dial.namer.options.apply .camel "—" = "" ∧
      ∀ a ∈ Dial.namer.assign .camel Dial.wires, IsIdentifier a.candidate := by
  obtain ⟨happly, hassigned⟩ := cased_names_identifiers Dial.namer.options .camel
  exact ⟨by decide +kernel, happly "Ty\u0301pe", happly "—",
    fun a ha => (hassigned Dial.namer.escaper Dial.wires a ha).1⟩

end SchemaSymbols

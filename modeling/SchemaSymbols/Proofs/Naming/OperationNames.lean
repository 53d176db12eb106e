/-
  What the name of an operation shows.

  A method is called after its operation, and the records of the operation are called after it as
  well, but in another casing and with an ending behind it.  The question is whether operations with
  one method name have records with one name, so that a clash of methods is found out earlier, as a
  clash of records.

  1. **Casing by letters.**  Both casings go by words, and on letters and digits lower and upper
     case undo each other up to the case of the first letter (`lower_upper`, `capitalized_lower`).
     What they make of a word may still depend on more than its letters: a word of capitals keeps
     them inside of some names, and not in front.

  2. **Evenly spelled names.**  In a name that is `EvenlySpelled` no word is like that.  Then the
     method shows the letters of all words (`EvenlySpelled.lettered_eq`), whichever casing it is
     made with.

  3. **The names of records** are determined by these letters, including the letter that is put in
     upper case in front (`EvenlySpelled.flatMap_upperFirst`, `EvenlySpelled.typeName_eq`).

  4. **Escaped names** can be told apart from names that are not, since no cased name has a mark
     where a style puts one (`IsGuarded`, `EscapeStyle.Shows`).  So two escaped names that are equal
     come from equal names (`Escaper.escape_inj`), under the style of every language.
-/
import SchemaSymbols.Normalization
import SchemaSymbols.Profile.Basic
import SchemaSymbols.Proofs.Naming.Identifiers
import SchemaSymbols.Proofs.Naming.Words

namespace SchemaSymbols

namespace NamingOptions

variable {o : NamingOptions} {s t w : List Char} {v name : String} {casing : Casing}

/-! ## Casing by letters -/

theorem upper_lower (h : ∀ c ∈ w, c.isAlphanum = true) : upper (lower w) = upper w := by
  rw [upper, upper, lower, List.map_map]
  exact List.map_congr_left fun c hc => toUpper_toLower (h c hc)

/-- Putting a word in lower case forgets its case. -/
theorem lower_upper (h : ∀ c ∈ w, c.isAlphanum = true) : lower (upper w) = lower w := by
  rw [lower, lower, upper, List.map_map]
  exact List.map_congr_left fun c hc => toLower_toUpper (h c hc)

theorem lower_lower (h : ∀ c ∈ w, c.isAlphanum = true) : lower (lower w) = lower w := by
  rw [lower, lower, List.map_map]
  exact List.map_congr_left fun c hc => toLower_toLower (h c hc)

/-- A word is capitalized the same in lower case. -/
theorem capitalized_lower (h : ∀ c ∈ w, c.isAlphanum = true) :
    capitalized (lower w) = capitalized w := by
  cases w with
  | nil => rfl
  | cons c w =>
    obtain ⟨hc, hw⟩ := List.forall_mem_cons.1 h
    show c.toLower.toUpper :: lower (lower w) = c.toUpper :: lower w
    rw [toUpper_toLower hc, lower_lower hw]

/-- Where capitals are not kept, the letters of a word settle what becomes of it. -/
theorem caseWord_lower (o : NamingOptions) (h : ∀ c ∈ w, c.isAlphanum = true) :
    o.caseWord false (lower w) = o.caseWord false w := by
  rw [caseWord, caseWord, upper_lower h, capitalized_lower h]
  rfl

/-- A word that starts with a letter is cased to one that starts with a capital. -/
theorem isUpper_head?_caseWord (h : w.head?.any Char.isAlpha = true) :
    ∀ c ∈ (o.caseWord false w).head?, c.isUpper = true := by
  cases w with
  | nil => cases h
  | cons first w =>
    have hcapital : first.toUpper.isUpper = true := isUpper_toUpper h
    intro c hc
    have hhead : (o.caseWord false (first :: w)).head? = some first.toUpper := by
      rw [caseWord]
      split
      · rfl
      · rfl
    rw [hhead] at hc
    exact Option.some.inj hc ▸ hcapital

/-- The words of a text, each cased by its letters. -/
def lettered (o : NamingOptions) (s : List Char) : List Char :=
  (Naming.words s).flatMap (o.caseWord false)

/-- The letters of its words settle what a text is by letters. -/
theorem lettered_eq_of_map_lower_eq
    (h : (Naming.words s).map lower = (Naming.words t).map lower) :
    o.lettered s = o.lettered t := by
  have hlower : ∀ s, o.lettered s = ((Naming.words s).map lower).flatMap (o.caseWord false) := by
    intro s
    rw [lettered, List.flatMap_map, List.flatMap_def, List.flatMap_def]
    refine congrArg List.flatten (List.map_congr_left fun w hw => ?_)
    exact (caseWord_lower o (isAlphanum_of_mem_words hw)).symm
  rw [hlower, hlower, h]

/-! ## Evenly spelled names -/

/-- The name starts with a letter, and no capital follows if it is a small one; and each word starts
with a letter too, and is cased by its letters alone, whether the name has small letters or not. -/
structure EvenlySpelled (o : NamingOptions) (name : String) : Prop where
  start : Naming.startsPlainly name.toList = true
  words : ∀ w ∈ Naming.words name.toList,
    w.head?.any Char.isAlpha = true ∧ o.caseWord true w = o.caseWord false w

instance (o : NamingOptions) (name : String) : Decidable (o.EvenlySpelled name) :=
  decidable_of_iff (Naming.startsPlainly name.toList = true ∧ ∀ w ∈ Naming.words name.toList,
    w.head?.any Char.isAlpha = true ∧ o.caseWord true w = o.caseWord false w)
    ⟨fun ⟨start, words⟩ => ⟨start, words⟩, fun h => ⟨h.start, h.words⟩⟩

/-- The words of an evenly spelled name are cased alike wherever they stand. -/
theorem EvenlySpelled.flatMap_caseWord (h : o.EvenlySpelled name) {mixed : Bool}
    {ws : List (List Char)} (hws : ∀ w ∈ ws, w ∈ Naming.words name.toList) :
    ws.flatMap (o.caseWord mixed) = ws.flatMap (o.caseWord false) := by
  rw [List.flatMap_def, List.flatMap_def]
  refine congrArg List.flatten (List.map_congr_left fun w hw => ?_)
  cases mixed with
  | true => exact (h.words w (hws w hw)).2
  | false => rfl

/-- A character of a kind divides a text in one way if it starts the part behind it. -/
theorem append_inj_of_head? {p : Char → Bool} {a b s t : List Char} (ha : ∀ c ∈ a, p c = false)
    (hb : ∀ c ∈ b, p c = false) (hs : ∀ c ∈ s.head?, p c = true) (ht : ∀ c ∈ t.head?, p c = true)
    (h : a ++ s = b ++ t) : a = b ∧ s = t := by
  have hfront : ∀ {a s : List Char}, (∀ c ∈ a, p c = false) → (∀ c ∈ s.head?, p c = true) →
      (a ++ s).takeWhile (fun c => !p c) = a := by
    intro a s ha hs
    rw [List.takeWhile_append_of_pos fun c hc => by rw [ha c hc]; rfl]
    cases s with
    | nil => rw [List.takeWhile_nil, List.append_nil]
    | cons c s =>
      rw [List.takeWhile_cons_of_neg (by rw [hs c rfl]; decide), List.append_nil]
  have hsame : a = b := by rw [← hfront ha hs, h, hfront hb ht]
  subst hsame
  exact ⟨rfl, List.append_cancel_left h⟩

/-- In camel case the first word has no capitals, and what is behind it starts with one. -/
theorem EvenlySpelled.camel_eq (h : o.EvenlySpelled name) {first : List Char}
    {rest : List (List Char)} (hwords : Naming.words name.toList = first :: rest) :
    o.camel name.toList = lower first ++ rest.flatMap (o.caseWord false) ∧
      o.lettered name.toList =
        o.caseWord false (lower first) ++ rest.flatMap (o.caseWord false) ∧
      (∀ c ∈ lower first, c.isUpper = false) ∧
      ∀ c ∈ (rest.flatMap (o.caseWord false)).head?, c.isUpper = true := by
  have hmem : ∀ w ∈ first :: rest, w ∈ Naming.words name.toList := fun w hw => hwords ▸ hw
  have hfirst : ∀ c ∈ first, c.isAlphanum = true :=
    isAlphanum_of_mem_words (hmem first List.mem_cons_self)
  refine ⟨?_, ?_, fun c hc => ?_, ?_⟩
  · rw [camel, hwords]
    exact congrArg _ (h.flatMap_caseWord fun w hw => hmem w (List.mem_cons_of_mem _ hw))
  · rw [lettered, hwords, List.flatMap_cons, caseWord_lower o hfirst]
  · obtain ⟨d, hd, rfl⟩ := List.mem_map.1 hc
    exact isUpper_toLower (hfirst d hd)
  · cases rest with
    | nil =>
      intro c hc
      cases hc
    | cons w rest =>
      have hw : w ∈ Naming.words name.toList := hmem w (by simp)
      have hne : o.caseWord false w ≠ [] := by
        rw [ne_eq, ← List.length_eq_zero_iff, length_caseWord, List.length_eq_zero_iff]
        exact Naming.ne_nil_of_mem_words hw
      rw [List.flatMap_cons, List.head?_append_of_ne_nil _ hne]
      exact isUpper_head?_caseWord (h.words w hw).1

/-- Evenly spelled names of one camel case have the same letters. -/
theorem EvenlySpelled.lettered_eq_of_camel_eq (h : o.EvenlySpelled v) (h' : o.EvenlySpelled name)
    (he : o.camel v.toList = o.camel name.toList) :
    o.lettered v.toList = o.lettered name.toList := by
  cases hv : Naming.words v.toList with
  | nil =>
    have hname : Naming.words name.toList = [] := camel_eq_nil.1 (he ▸ camel_eq_nil.2 hv)
    rw [lettered, lettered, hv, hname]
  | cons first rest =>
    cases hname : Naming.words name.toList with
    | nil =>
      rw [camel_eq_nil.1 (he.trans (camel_eq_nil.2 hname))] at hv
      cases hv
    | cons first' rest' =>
      obtain ⟨hcased, hlettered, hsmall, hcapital⟩ := h.camel_eq hv
      obtain ⟨hcased', hlettered', hsmall', hcapital'⟩ := h'.camel_eq hname
      rw [hcased, hcased'] at he
      -- so the first capital shows where the first word ends
      obtain ⟨hfirst, hrest⟩ := append_inj_of_head? hsmall hsmall' hcapital hcapital' he
      rw [hlettered, hlettered', hfirst, hrest]

/-- Words that are joined by underscores can be told apart. -/
theorem map_eq_of_joined_eq {f : Char → Char}
    (hf : ∀ c, c.isAlphanum = true → (f c).isAlphanum = true)
    (h : joined (List.map f) s = joined (List.map f) t) :
    (Naming.words s).map (List.map f) = (Naming.words t).map (List.map f) := by
  have hmark : ∀ s, ∀ l ∈ (Naming.words s).map (List.map f), '_' ∉ l := by
    intro s l hl hmem
    obtain ⟨w, hw, rfl⟩ := List.mem_map.1 hl
    obtain ⟨c, hc, hcf⟩ := List.mem_map.1 hmem
    have halpha := hf c (isAlphanum_of_mem_words hw c hc)
    rw [hcf] at halpha
    cases halpha
  have hnil : ∀ {s}, joined (List.map f) s = [] ↔ (Naming.words s).map (List.map f) = [] := by
    intro s
    rw [(isCased_joined hf s).2, List.map_eq_nil_iff]
  by_cases hs : (Naming.words s).map (List.map f) = []
  · rw [hs, hnil.1 (h ▸ hnil.2 hs)]
  · have ht : (Naming.words t).map (List.map f) ≠ [] := fun ht => hs (hnil.1 (h.trans (hnil.2 ht)))
    rw [← List.splitOn_intercalate '_' (hmark s) hs, ← List.splitOn_intercalate '_' (hmark t) ht]
    exact congrArg (List.splitOn '_') h

/-- In every casing, what becomes of an evenly spelled name shows the letters of its words. -/
theorem EvenlySpelled.lettered_eq (h : o.EvenlySpelled v) (h' : o.EvenlySpelled name)
    (he : o.cased casing v.toList = o.cased casing name.toList) :
    o.lettered v.toList = o.lettered name.toList := by
  cases casing with
  | pascal =>
    have hpascal : ∀ {u}, o.EvenlySpelled u → o.pascal u.toList = o.lettered u.toList := fun hu =>
      hu.flatMap_caseWord fun _ hw => hw
    rw [← hpascal h, ← hpascal h']
    exact he
  | camel => exact h.lettered_eq_of_camel_eq h' he
  | snake =>
    exact lettered_eq_of_map_lower_eq
      (map_eq_of_joined_eq (fun c hc => (isAlphanum_toUpper_toLower hc).2) he)
  | screamingSnake =>
    have hupper := map_eq_of_joined_eq (fun c hc => (isAlphanum_toUpper_toLower hc).1) he
    have hlower : ∀ s, (Naming.words s).map lower = ((Naming.words s).map upper).map lower := by
      intro s
      rw [List.map_map]
      exact List.map_congr_left fun w hw => (lower_upper (isAlphanum_of_mem_words hw)).symm
    refine lettered_eq_of_map_lower_eq ?_
    rw [hlower, hlower]
    exact congrArg _ hupper

/-! ## The names of records -/

/-- A word keeps no capitals if none is behind its first character. -/
theorem caseWord_cons (o : NamingOptions) {c : Char} (h : w.head?.any Char.isUpper = false) :
    o.caseWord true (c :: w) = o.caseWord false (c :: w) := by
  have hnot : ¬ ((c :: w).length > 1 ∧ (c :: w).all Char.isUpper = true) := by
    rintro ⟨hlong, hall⟩
    cases w with
    | nil => exact Nat.lt_irrefl 1 hlong
    | cons d w =>
      have hd : d.isUpper = false := h
      rw [List.all_eq_true.1 hall d (by simp)] at hd
      cases hd
  rw [caseWord, caseWord]
  simp only [Bool.and_eq_true, decide_eq_true_eq, and_assoc, hnot, and_false, Bool.false_and,
    Bool.false_eq_true, if_false]

/-- A capital in front leaves all words cased by their letters, and these stay the same. -/
theorem EvenlySpelled.flatMap_upperFirst (h : o.EvenlySpelled name) :
    (Naming.words (Text.upperFirst name.toList)).flatMap (o.caseWord true) =
      o.lettered name.toList := by
  rcases Naming.words_upperFirst h.start with hsame | ⟨c, run, rest, hc, hrun, hwords, hupper⟩
  · rw [hsame]
    exact h.flatMap_caseWord fun _ hw => hw
  · have halpha : ∀ d ∈ c :: run, d.isAlphanum = true :=
      isAlphanum_of_mem_words (hwords ▸ List.mem_cons_self)
    have halpha' : ∀ d ∈ c.toUpper :: run, d.isAlphanum = true :=
      List.forall_mem_cons.2 ⟨(isAlphanum_toUpper_toLower (isAlphanum_of_isLower hc)).1,
        fun d hd => halpha d (List.mem_cons_of_mem _ hd)⟩
    have hlower : lower (c.toUpper :: run) = lower (c :: run) :=
      congrArg (· :: lower run) (toLower_toUpper (isAlphanum_of_isLower hc))
    have hrest : rest.flatMap (o.caseWord true) = rest.flatMap (o.caseWord false) :=
      h.flatMap_caseWord fun w hw => hwords ▸ List.mem_cons_of_mem _ hw
    rw [hupper, lettered, hwords, List.flatMap_cons, List.flatMap_cons, caseWord_cons o hrun, hrest,
      ← caseWord_lower o halpha', hlower, caseWord_lower o halpha]

/-- A type name is settled by what the words of the name become, if there are any. -/
theorem typeName_eq_of_pascal_eq (h : o.pascal v.toList = o.pascal name.toList)
    (hne : o.pascal v.toList ≠ []) : o.typeName v = o.typeName name := by
  rw [typeName, typeName, ← h]
  split
  · exact absurd ‹_› hne
  · rfl

/-- Evenly spelled names with one cased form give their records one name, if the ending is a word of
its own. -/
theorem EvenlySpelled.typeName_eq {ending : String} (h : o.EvenlySpelled v)
    (h' : o.EvenlySpelled name) (hending : Naming.startsWord ending.toList = true)
    (he : o.cased casing v.toList = o.cased casing name.toList) :
    o.typeName (String.ofList (Text.upperFirst v.toList) ++ ending) =
      o.typeName (String.ofList (Text.upperFirst name.toList) ++ ending) := by
  obtain ⟨c, d, rest, hsplit, hc, hd⟩ := Naming.of_startsWord hending
  have hpascal : ∀ {u}, o.EvenlySpelled u →
      o.pascal (String.ofList (Text.upperFirst u.toList) ++ ending).toList =
        o.lettered u.toList ++ (Naming.words ending.toList).flatMap (o.caseWord true) := by
    intro u hu
    have hmixed : isMixed (Text.upperFirst u.toList ++ ending.toList) = true := by
      rw [isMixed, List.any_append, hsplit, List.any_cons, List.any_cons, hd, Bool.true_or,
        Bool.or_true, Bool.or_true]
    rw [String.toList_append, String.toList_ofList, pascal, hmixed, Naming.words_append hending,
      List.flatMap_append, hu.flatMap_upperFirst]
  refine typeName_eq_of_pascal_eq ?_ ?_
  · rw [hpascal h, hpascal h', h.lettered_eq h' he]
  · rw [ne_eq, pascal_eq_nil]
    intro hnone
    have hnone := hnone c (by rw [String.toList_append, hsplit]; simp)
    rw [isAlphanum_of_isUpper hc] at hnone
    cases hnone

end NamingOptions

/-! ## Escaped names -/

/-- What casing and the guard for digits make of a text. -/
def IsGuarded (s : List Char) : Prop := ∃ cased, IsCased cased ∧ s = NamingOptions.guardDigit cased

namespace IsGuarded

variable {s t : List Char}

theorem chars (h : IsGuarded s) : ∀ c ∈ s, c.isAlphanum = true ∨ c = '_' := by
  obtain ⟨cased, hcased, rfl⟩ := h
  intro c hc
  rw [NamingOptions.guardDigit] at hc
  split at hc
  · exact (List.mem_cons.1 hc).elim Or.inr (hcased.chars c)
  · exact hcased.chars c hc

/-- No underscore comes last. -/
theorem ne_concat (h : IsGuarded s) (t : List Char) : s ≠ t ++ ['_'] := by
  obtain ⟨cased, hcased, rfl⟩ := h
  rw [NamingOptions.guardDigit]
  intro he
  have hlast : cased.getLast? = some '_' := by
    split at he
    · rename_i hdigit
      have hne : cased ≠ [] := by
        rintro rfl
        cases hdigit
      rw [← List.getLast?_cons_of_ne_nil hne, he, List.getLast?_concat]
    · rw [he, List.getLast?_concat]
  cases hcased.last _ hlast

/-- An underscore in front guards a digit, which nothing else does. -/
theorem ne_cons (h : IsGuarded s) (ht : IsGuarded t) : s ≠ '_' :: t := by
  obtain ⟨cased, hcased, rfl⟩ := h
  obtain ⟨cased', -, rfl⟩ := ht
  rw [NamingOptions.guardDigit, NamingOptions.guardDigit]
  intro he
  split at he
  · rename_i hdigit
    obtain rfl := (List.cons.inj he).2
    split at hdigit
    · cases hdigit
    · rename_i hnot
      exact hnot hdigit
  · have hfirst := hcased.first '_' (by rw [he]; rfl)
    cases hfirst

end IsGuarded

theorem IsGuarded.not_mem {s : List Char} (h : IsGuarded s) {c : Char}
    (halpha : c.isAlphanum = false) (hne : c ≠ '_') : c ∉ s := by
  intro hc
  rcases h.chars c hc with hc | hc
  · rw [halpha] at hc
    cases hc
  · exact hne hc

namespace EscapeStyle

/-- What a style makes of a cased name is not a cased name, and shows which one it was. -/
def Shows (style : EscapeStyle) : Prop :=
  ∀ v w : String, IsGuarded v.toList → IsGuarded w.toList →
    style.decorate v ≠ w ∧ (style.decorate v = style.decorate w → v = w)

/-- Backticks show that a name is escaped. -/
theorem shows_backticks : backticks.Shows := by
  intro v w hv hw
  refine ⟨fun he => ?_, fun he => ?_⟩
  · refine hw.not_mem (c := Char.ofNat 96) (by decide) (by decide) ?_
    rw [← he, decorate, String.toList_append]
    exact List.mem_append_right _ List.mem_cons_self
  · exact (String.append_right_inj _).1 ((String.append_left_inj _).1 he)

/-- So does the mark of raw identifiers, and the underscore behind the few other words. -/
theorem shows_raw : raw.Shows := by
  intro v w hv hw
  have hhash : ∀ {u u' : String}, IsGuarded u'.toList → "r#" ++ u ≠ u' := by
    intro u u' hu' he
    refine hu'.not_mem (c := '#') (by decide) (by decide) ?_
    rw [← he, String.toList_append]
    exact List.mem_append_left _ (by decide)
  have hend : ∀ {u u' : String}, IsGuarded u'.toList → u ++ "_" ≠ u' := by
    intro u u' hu' he
    refine hu'.ne_concat u.toList ?_
    rw [← he, String.toList_append]
    rfl
  -- the mark after a word that `r#` cannot stand before is not the mark of the others
  have hapart : ∀ {u u' : String}, IsGuarded u.toList → u ++ "_" ≠ "r#" ++ u' := by
    intro u u' hu he
    have hmem : '#' ∈ (u ++ "_").toList := by
      rw [he, String.toList_append]
      exact List.mem_append_left _ (by decide)
    rw [String.toList_append] at hmem
    rcases List.mem_append.1 hmem with hmem | hmem
    · exact hu.not_mem (by decide) (by decide) hmem
    · exact absurd hmem (by decide)
  rw [decorate, decorate]
  split
  · refine ⟨hend hw, fun he => ?_⟩
    split at he
    · exact (String.append_left_inj _).1 he
    · exact absurd he (hapart hv)
  · refine ⟨hhash hw, fun he => ?_⟩
    split at he
    · exact absurd he.symm (hapart hw)
    · exact (String.append_right_inj _).1 he

/-- So does an underscore in front: a guarded name has one there only before a digit. -/
theorem shows_leading : (leading "_").Shows := by
  intro v w hv hw
  refine ⟨fun he => hw.ne_cons hv ?_, fun he => (String.append_right_inj _).1 he⟩
  rw [← he, decorate, String.toList_append]
  rfl

/-- So does an underscore behind: no guarded name ends in one. -/
theorem shows_trailing : (trailing "_").Shows := by
  intro v w hv hw
  refine ⟨fun he => hw.ne_concat v.toList ?_, fun he => (String.append_left_inj _).1 he⟩
  rw [← he, decorate, String.toList_append]
  rfl

end EscapeStyle

/-- Every language has a style that shows what is escaped. -/
theorem Profile.shows_escapeStyle (l : Language) : (forLanguage l).escapeStyle.Shows := by
  cases l with
  | swift => exact EscapeStyle.shows_backticks
  | rust => exact EscapeStyle.shows_raw
  | typescript => exact EscapeStyle.shows_leading
  | python => exact EscapeStyle.shows_trailing

/-- Cased names that are escaped alike are alike. -/
theorem Escaper.escape_inj {e : Escaper} (hstyle : e.style.Shows) {v w : String}
    (hv : IsGuarded v.toList) (hw : IsGuarded w.toList) (h : e.escape v = e.escape w) : v = w := by
  rw [escape, escape] at h
  split at h
  · split at h
    · exact (hstyle v w hv hw).2 h
    · exact absurd h (hstyle v w hv hw).1
  · split at h
    · exact absurd h.symm (hstyle w v hw hv).1
    · exact h

theorem NamingOptions.isGuarded_apply (o : NamingOptions) (casing : Casing) (name : String) :
    IsGuarded (o.apply casing name).toList := by
  rw [apply_eq, String.toList_ofList]
  exact ⟨_, (o.isCased_cased casing name.toList).1, rfl⟩

/-- The guard for digits can be taken away again. -/
theorem NamingOptions.cased_eq_of_apply_eq {o : NamingOptions} {casing : Casing} {v w : String}
    (h : o.apply casing v = o.apply casing w) :
    o.cased casing v.toList = o.cased casing w.toList := by
  rw [apply_eq, apply_eq, String.ofList_inj, guardDigit, guardDigit] at h
  have hfirst : ∀ u rest, o.cased casing u ≠ '_' :: rest := by
    intro u rest he
    cases (o.isCased_cased casing u).1.first '_' (by rw [he]; rfl)
  split at h
  · split at h
    · exact (List.cons.inj h).2
    · exact absurd h.symm (hfirst _ _)
  · split at h
    · exact absurd h (hfirst _ _)
    · exact h

end SchemaSymbols

/-
  What file names keep of type names.

  A file loses the backticks of its type's name, or the `r#` in front of it, and the directory of a
  nested type the backticks of its service's name.  Two types of different names could meet in one
  file that way.

  1. **Trimming.**  What is trimmed is gone for good, so each lemma says when nothing is trimmed, or
     when exactly the marks are that were put around a text (`trimBoth_quoted`,
     `trimRaw_append_left`, `trimRaw_append_right`).

  2. **Plain names** have neither backticks nor slashes in them (`IsPlain`).  A type name is plain
     if casing leaves letters and digits only, which it does for every name that has any; another
     name has to be plain as it is written (`IsRegularName`), and so has the text of an escape
     style.

  3. **What is left of an escaped name** under a plain style is the name itself, or the name with
     its affix (`bare`, `trimBoth_escape`, `trimRaw_escape`).  It shows what was displayed, since a
     word is reserved or it is not: where marks were put there by the escaper they can be put back
     (`escape_eq_of_bare_eq`).  `r#` is not put before a few words, which get an underscore behind
     them; no type name looks like that by itself (`typeName_ne_append_underscore`).
-/
import SchemaSymbols.Proofs.Naming.TypeNames
import SchemaSymbols.Resolution.Resolver

namespace SchemaSymbols

/-! ## Trimming -/

namespace Resolver

variable {c : Char} {s : List Char}

theorem dropWhile_of_ne {d : Char} (h : d ≠ c) (rest : List Char) :
    (d :: rest).dropWhile (· = c) = d :: rest := by
  rw [List.dropWhile_cons, if_neg (by simpa using h)]

theorem dropWhile_of_not_mem (h : c ∉ s) : s.dropWhile (· = c) = s := by
  cases s with
  | nil => rfl
  | cons d rest =>
    have hne : d ≠ c := fun he => h (he ▸ List.mem_cons_self)
    exact dropWhile_of_ne hne rest

theorem trimEnd_of_not_mem (h : c ∉ s) : trimEnd c s = s := by
  have hreverse : c ∉ s.reverse := fun hc => h (List.mem_reverse.1 hc)
  rw [trimEnd, dropWhile_of_not_mem hreverse, List.reverse_reverse]

theorem trimBoth_of_not_mem (h : c ∉ s) : trimBoth c s = s := by
  rw [trimBoth, dropWhile_of_not_mem h, trimEnd_of_not_mem h]

/-- A text between two marks loses them, and nothing else. -/
theorem trimBoth_quoted (h : c ∉ s) : trimBoth c (c :: (s ++ [c])) = s := by
  have hstart : (c :: (s ++ [c])).dropWhile (· = c) = (s ++ [c]).dropWhile (· = c) := by
    rw [List.dropWhile_cons, if_pos (by simp)]
  rw [trimBoth, hstart]
  cases s with
  | nil => simp [trimEnd]
  | cons d rest =>
    have hne : d ≠ c := fun he => h (he ▸ List.mem_cons_self)
    have hend : trimEnd c (d :: rest ++ [c]) = trimEnd c (d :: rest) := by
      rw [trimEnd, trimEnd, List.reverse_append, List.reverse_singleton, List.singleton_append,
        List.dropWhile_cons, if_pos (by simp)]
    rw [List.cons_append, dropWhile_of_ne hne, ← List.cons_append, hend, trimEnd_of_not_mem h]

/-- A text that does not begin with the mark of raw identifiers keeps its beginning. -/
theorem trimRaw_eq_self (h : ∀ rest, s ≠ 'r' :: '#' :: rest) : trimRaw s = s := by
  rw [trimRaw.eq_def]
  split
  · exact absurd rfl (h _)
  · rfl

/-- A text that cannot have an `r#` in it loses nothing. -/
theorem trimRaw_of_not_mem (h : '#' ∉ s ∨ 'r' ∉ s) : trimRaw s = s := by
  refine trimRaw_eq_self fun rest he => ?_
  rw [he] at h
  rcases h with h | h
  · exact h (by simp)
  · exact h (by simp)

/-- A text before a name does not make it start with `r#`. -/
theorem trimRaw_append_left {text : List Char} (hhash : '#' ∉ text) (hr : text ≠ ['r'])
    (h : '#' ∉ s ∨ 'r' ∉ s) : trimRaw (text ++ s) = text ++ s := by
  cases text with
  | nil => exact trimRaw_of_not_mem h
  | cons first text =>
    refine trimRaw_eq_self fun rest he => ?_
    obtain ⟨rfl, htail⟩ := List.cons.inj he
    cases text with
    | nil => exact hr rfl
    | cons second text =>
      obtain ⟨rfl, -⟩ := List.cons.inj htail
      exact hhash (by simp)

/-- Nor does a text after it. -/
theorem trimRaw_append_right {text : List Char} (hhash : '#' ∉ text) (h : '#' ∉ s ∨ 'r' ∉ s) :
    trimRaw (s ++ text) = s ++ text := by
  cases s with
  | nil => exact trimRaw_of_not_mem (Or.inl hhash)
  | cons first s =>
    refine trimRaw_eq_self fun rest he => ?_
    obtain ⟨rfl, htail⟩ := List.cons.inj he
    have hname := h.resolve_right fun hr => hr List.mem_cons_self
    have hmem : '#' ∈ s ++ text := by
      show '#' ∈ s.append text
      rw [htail]
      exact List.mem_cons_self
    rcases List.mem_append.1 hmem with hs | htext
    · exact hname (List.mem_cons_of_mem _ hs)
    · exact hhash htext

/-- Trimming behind brings in no character. -/
theorem mem_of_mem_trimEnd {d : Char} (h : d ∈ trimEnd c s) : d ∈ s := by
  rw [trimEnd, List.mem_reverse] at h
  exact List.mem_reverse.1 (List.dropWhile_sublist _ |>.mem h)

/-- Trimming only takes characters away. -/
theorem mem_of_mem_trimBoth {d : Char} (h : d ∈ trimBoth c s) : d ∈ s :=
  (List.dropWhile_sublist _).mem (mem_of_mem_trimEnd h)

/-- Trimming the mark of raw identifiers brings in no character. -/
theorem mem_of_mem_trimRaw {d : Char} (h : d ∈ trimRaw s) : d ∈ s := by
  induction s using trimRaw.induct with
  | case1 rest ih =>
    rw [trimRaw] at h
    exact List.mem_cons_of_mem _ (List.mem_cons_of_mem _ (ih h))
  | case2 s hs =>
    rw [trimRaw.eq_def] at h
    split at h
    · exact absurd rfl (hs _)
    · exact h

end Resolver

open Resolver

/-! ## Plain names -/

/-- Whether a text has neither the mark that files lose nor the one that divides paths. -/
def IsPlain (s : List Char) : Prop := backtick ∉ s ∧ '/' ∉ s

instance (s : List Char) : Decidable (IsPlain s) := inferInstanceAs (Decidable (_ ∧ _))

/-- Whether the fixed text of a style is plain, and does not add up to an `r#`. -/
def EscapeStyle.IsPlain : EscapeStyle → Prop
  | leading text => SchemaSymbols.IsPlain text.toList ∧ '#' ∉ text.toList ∧ text.toList ≠ ['r']
  | trailing text => SchemaSymbols.IsPlain text.toList ∧ '#' ∉ text.toList
  | _ => True

/-- The style of every language is plain. -/
theorem Profile.isPlain_escapeStyle (l : Language) : (forLanguage l).escapeStyle.IsPlain := by
  cases l with
  | swift => trivial
  | rust => trivial
  | typescript =>
    show (EscapeStyle.leading "_").IsPlain
    rw [EscapeStyle.IsPlain]
    decide
  | python =>
    show (EscapeStyle.trailing "_").IsPlain
    rw [EscapeStyle.IsPlain]
    decide

/-- Whether a name has a letter or digit, or is plain without one. -/
def IsRegularName (name : String) : Prop :=
  name.toList.any Char.isAlphanum = true ∨ IsPlain name.toList

instance (name : String) : Decidable (IsRegularName name) := inferInstanceAs (Decidable (_ ∨ _))

/-- The type names of regular names are plain. -/
theorem IsRegularName.isPlain_typeName {name : String} (h : IsRegularName name)
    (o : NamingOptions) : IsPlain (o.typeName name).toList := by
  rcases o.typeName_cases name with ⟨cased, -, hcased, htype⟩ | ⟨htype, hnone⟩
  · have hmem : ∀ c ∈ (o.typeName name).toList, c = '_' ∨ c.isAlphanum = true := by
      intro c hc
      rcases htype with htype | htype
      · exact Or.inr (hcased c (htype ▸ hc))
      · rw [htype] at hc
        exact (List.mem_cons.1 hc).imp_right (hcased c)
    have hmark : ∀ c : Char, c ≠ '_' → c.isAlphanum = false → c ∉ (o.typeName name).toList := by
      intro c hne hmark hc
      rcases hmem c hc with he | halpha
      · exact hne he
      · rw [hmark] at halpha
        cases halpha
    exact ⟨hmark _ (by decide) (by decide), hmark _ (by decide) (by decide)⟩
  · rw [htype]
    rcases h with hany | hplain
    · obtain ⟨c, hc, halpha⟩ := List.any_eq_true.1 hany
      rw [hnone c hc] at halpha
      cases halpha
    · exact hplain

/-- No type name is a word that `r#` cannot stand before, with an underscore after it. -/
theorem NamingOptions.typeName_ne_append_underscore (o : NamingOptions) (name : String)
    {word : String} (hword : word ∈ EscapeStyle.neverRaw) : o.typeName name ≠ word ++ "_" := by
  intro he
  have hlist : (o.typeName name).toList = word.toList ++ ['_'] := by
    rw [he, String.toList_append]
    rfl
  rcases o.typeName_cases name with ⟨cased, hne, hcased, htype⟩ | ⟨htype, hnone⟩
  · -- a type name of letters and digits does not end with an underscore
    have hlast : '_' ∈ cased := by
      have hend : (o.typeName name).toList.getLast? = cased.getLast? := by
        rcases htype with htype | htype
        · rw [htype]
        · rw [htype, List.getLast?_cons_of_ne_nil hne]
      rw [hlist, List.getLast?_concat] at hend
      exact List.mem_of_getLast? hend.symm
    cases hcased _ hlast
  · have hletter : ∀ word ∈ EscapeStyle.neverRaw, word.toList.head?.any Char.isAlphanum = true := by
      decide +kernel
    have hhead := hletter word hword
    cases hw : word.toList with
    | nil =>
      rw [hw] at hhead
      cases hhead
    | cons first rest =>
      rw [hw] at hhead hlist
      have hfirst : first.isAlphanum = false :=
        hnone first (htype ▸ hlist ▸ List.mem_cons_self)
      have hfirst' : first.isAlphanum = true := hhead
      rw [hfirst] at hfirst'
      cases hfirst'

/-! ## What is left of an escaped name -/

namespace EscapeStyle

variable {style : EscapeStyle}

/-- The characters that a style may add. -/
def marks : EscapeStyle → List Char
  | backticks => [backtick]
  | raw => ['r', '#', '_']
  | leading text => text.toList
  | trailing text => text.toList

/-- A decorated word has the characters of the word and those of the marks. -/
theorem mem_decorate {w : String} {c : Char} (h : c ∈ (style.decorate w).toList) :
    c ∈ w.toList ∨ c ∈ style.marks := by
  cases style with
  | backticks =>
    rw [decorate, String.toList_append, String.toList_append, List.mem_append,
      List.mem_append] at h
    rcases h with (hmark | hword) | hmark
    · exact Or.inr hmark
    · exact Or.inl hword
    · exact Or.inr hmark
  | raw =>
    rw [decorate] at h
    split at h
    · rw [String.toList_append, List.mem_append] at h
      exact h.imp_right (List.mem_append_right ['r', '#'])
    · rw [String.toList_append, List.mem_append] at h
      exact h.symm.imp_right (List.mem_append_left ['_'])
  | leading text =>
    rw [decorate, String.toList_append, List.mem_append] at h
    exact h.symm
  | trailing text =>
    rw [decorate, String.toList_append, List.mem_append] at h
    exact h

/-- A plain style adds no slash. -/
theorem IsPlain.slash_not_mem (h : style.IsPlain) : '/' ∉ style.marks := by
  cases style with
  | backticks => decide
  | raw => decide
  | leading text => exact h.1.2
  | trailing text => exact h.1.2

theorem IsPlain.backtick_not_mem (h : style.IsPlain) (hne : style ≠ backticks) :
    backtick ∉ style.marks := by
  cases style with
  | backticks => exact absurd rfl hne
  | raw => decide
  | leading text => exact h.1.1
  | trailing text => exact h.1.1

end EscapeStyle

namespace Escaper

variable {e : Escaper} {v w : String}

/-- Escaping brings in nothing but the marks of the style. -/
theorem not_mem_escape {c : Char} (hw : c ∉ w.toList) (hmark : c ∉ e.style.marks) :
    c ∉ (e.escape w).toList := by
  intro hc
  rw [escape] at hc
  split at hc
  · exact (EscapeStyle.mem_decorate hc).elim hw hmark
  · exact hw hc

/-- What an escaped word leaves in the name of a file. -/
def bare (e : Escaper) (w : String) : String :=
  match e.style with
  | .backticks => w
  | .raw => if e.isReserved w = true ∧ w ∈ EscapeStyle.neverRaw then w ++ "_" else w
  | _ => e.escape w

/-- Without its backticks, a plain word is what it was if backticks are the way to escape it, and
otherwise it is what it became. -/
theorem trimBoth_escape (hstyle : e.style.IsPlain) (hw : IsPlain w.toList) :
    trimBoth backtick (e.escape w).toList =
      if e.style = .backticks then w.toList else (e.escape w).toList := by
  by_cases he : e.style = .backticks
  · rw [if_pos he, escape, he]
    split
    · have hquoted : (EscapeStyle.backticks.decorate w).toList =
          backtick :: (w.toList ++ [backtick]) := by
        rw [EscapeStyle.decorate, String.toList_append, String.toList_append]
        rfl
      rw [hquoted, trimBoth_quoted hw.1]
    · exact trimBoth_of_not_mem hw.1
  · rw [if_neg he]
    exact trimBoth_of_not_mem (not_mem_escape hw.1 (hstyle.backtick_not_mem he))

/-- What a file name is made of. -/
theorem trimRaw_escape (hstyle : e.style.IsPlain) (hw : IsPlain w.toList)
    (hraw : '#' ∉ w.toList ∨ 'r' ∉ w.toList) :
    trimRaw (trimBoth backtick (e.escape w).toList) = (e.bare w).toList := by
  rw [trimBoth_escape hstyle hw, bare]
  cases he : e.style with
  | backticks =>
    rw [if_pos rfl]
    exact trimRaw_of_not_mem hraw
  | raw =>
    rw [if_neg nofun, escape, he]
    by_cases hreserved : e.isReserved w = true
    · rw [if_pos hreserved, EscapeStyle.decorate]
      by_cases hnever : w ∈ EscapeStyle.neverRaw
      · rw [if_pos hnever, if_pos ⟨hreserved, hnever⟩, String.toList_append]
        exact trimRaw_append_right (by decide) hraw
      · rw [if_neg hnever, if_neg fun h => hnever h.2, String.toList_append]
        show trimRaw ('r' :: '#' :: w.toList) = w.toList
        rw [trimRaw, trimRaw_of_not_mem hraw]
    · rw [if_neg hreserved, if_neg fun h => hreserved h.1]
      exact trimRaw_of_not_mem hraw
  | leading text =>
    rw [if_neg nofun, escape, he]
    rw [he] at hstyle
    split
    · rw [EscapeStyle.decorate, String.toList_append]
      exact trimRaw_append_left hstyle.2.1 hstyle.2.2 hraw
    · exact trimRaw_of_not_mem hraw
  | trailing text =>
    rw [if_neg nofun, escape, he]
    rw [he] at hstyle
    split
    · rw [EscapeStyle.decorate, String.toList_append]
      exact trimRaw_append_right hstyle.2 hraw
    · exact trimRaw_of_not_mem hraw

/-- Words that leave the same in the names of files are displayed alike, unless one is the other
with an underscore after it. -/
theorem escape_eq_of_bare_eq (hv : ∀ never ∈ EscapeStyle.neverRaw, v ≠ never ++ "_")
    (hw : ∀ never ∈ EscapeStyle.neverRaw, w ≠ never ++ "_") (h : e.bare v = e.bare w) :
    e.escape v = e.escape w := by
  rw [bare, bare] at h
  cases he : e.style with
  | backticks =>
    rw [he] at h
    exact congrArg e.escape h
  | raw =>
    rw [he] at h
    by_cases hsv : e.isReserved v = true ∧ v ∈ EscapeStyle.neverRaw
    · by_cases hsw : e.isReserved w = true ∧ w ∈ EscapeStyle.neverRaw
      · simp only [if_pos hsv, if_pos hsw] at h
        exact congrArg e.escape ((String.append_left_inj "_").1 h)
      · simp only [if_pos hsv, if_neg hsw] at h
        exact absurd h.symm (hw v hsv.2)
    · by_cases hsw : e.isReserved w = true ∧ w ∈ EscapeStyle.neverRaw
      · simp only [if_neg hsv, if_pos hsw] at h
        exact absurd h (hv w hsw.2)
      · simp only [if_neg hsv, if_neg hsw] at h
        exact congrArg e.escape h
  | leading text => rwa [he] at h
  | trailing text => rwa [he] at h

/-- Words that leave the same directory are displayed alike. -/
theorem escape_eq_of_trimBoth_eq (hstyle : e.style.IsPlain) (hv : IsPlain v.toList)
    (hw : IsPlain w.toList)
    (h : trimBoth backtick (e.escape v).toList = trimBoth backtick (e.escape w).toList) :
    e.escape v = e.escape w := by
  rw [trimBoth_escape hstyle hv, trimBoth_escape hstyle hw] at h
  split at h
  · rw [String.toList_inj.1 h]
  · exact String.toList_inj.1 h

end Escaper

end SchemaSymbols

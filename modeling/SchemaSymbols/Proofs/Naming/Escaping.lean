/-
  Escaped names.

  Escaping decorates a reserved word once and does not look at the result.  So an escaped name is
  reserved only if it is the decorated form of a reserved word and has itself been reserved.  The
  keywords of a language consist of letters, and every built-in way to decorate a word brings in a
  character that is no letter: decorated forms are never keywords, and only words that were reserved
  besides the keywords can be.
-/
import SchemaSymbols.Naming.Assignment
import SchemaSymbols.Profile.Basic

namespace SchemaSymbols

namespace Escaper

variable {e : Escaper} {name word : String}

/-- A name is the escaped form of some word. -/
def IsEscaped (e : Escaper) (name : String) : Prop := ∃ word, name = e.escape word

theorem isEscaped_escape (e : Escaper) (word : String) : e.IsEscaped (e.escape word) := ⟨word, rfl⟩

/-- An escaped name that is reserved is a decorated form. -/
theorem IsEscaped.exists_decorate (h : e.IsEscaped name) (hreserved : e.isReserved name = true) :
    ∃ word, e.isReserved word = true ∧ e.style.decorate word = name := by
  obtain ⟨word, rfl⟩ := h
  cases hword : e.isReserved word with
  | true =>
    refine ⟨word, hword, ?_⟩
    rw [escape, if_pos hword]
  | false =>
    -- a word that is not reserved stays as it is
    have hsame : e.escape word = word := by
      rw [escape, hword]
      rfl
    rw [hsame, hword] at hreserved
    cases hreserved

end Escaper

/-! ## Keywords -/

/-- Keywords consist of letters. -/
theorem Language.isAlpha_of_mem_reservedWords (l : Language) :
    ∀ word ∈ l.reservedWords, word.toList.all Char.isAlpha = true := by
  cases l <;> decide +kernel

namespace Profile

variable {word : String}

/-- In the style of each language, a decorated word has a character that is no letter. -/
theorem exists_not_isAlpha_decorate (l : Language) (word : String) :
    ∃ c ∈ ((forLanguage l).escapeStyle.decorate word).toList, c.isAlpha = false := by
  cases l with
  | swift => exact ⟨Char.ofNat 96, by simp [forLanguage, swift, EscapeStyle.decorate], by decide⟩
  | rust =>
    show ∃ c ∈ (EscapeStyle.raw.decorate word).toList, c.isAlpha = false
    rw [EscapeStyle.decorate]
    split
    · exact ⟨'_', by simp, by decide⟩
    · exact ⟨'#', by simp, by decide⟩
  | typescript => exact ⟨'_', by simp [forLanguage, typescript, EscapeStyle.decorate], by decide⟩
  | python => exact ⟨'_', by simp [forLanguage, python, EscapeStyle.decorate], by decide⟩

/-- A decorated word is no keyword. -/
theorem decorate_not_mem_reservedWords (l : Language) (word : String) :
    (forLanguage l).escapeStyle.decorate word ∉ l.reservedWords := by
  intro hmem
  obtain ⟨c, hc, hletter⟩ := exists_not_isAlpha_decorate l word
  have hall := l.isAlpha_of_mem_reservedWords _ hmem
  have hc' := List.all_eq_true.1 hall c hc
  rw [hletter] at hc'
  cases hc'

theorem language_forLanguage (l : Language) : (forLanguage l).language = l := by
  cases l <;> rfl

/-- An escaped name that is reserved was reserved besides the keywords. -/
theorem mem_extra_of_isReserved {l : Language} {extra : List String} {name : String}
    (h : ((forLanguage l).escaper extra).IsEscaped name)
    (hreserved : ((forLanguage l).escaper extra).isReserved name = true) :
    name ∈ extra ∧ ∃ word, ((forLanguage l).escaper extra).isReserved word = true ∧
      (forLanguage l).escapeStyle.decorate word = name := by
  obtain ⟨word, hword, rfl⟩ := h.exists_decorate hreserved
  refine ⟨?_, word, hword, rfl⟩
  have hmem : (forLanguage l).escapeStyle.decorate word ∈
      (forLanguage l).language.reservedWords ++ extra := by
    rw [Escaper.isReserved, List.contains_iff_mem] at hreserved
    exact hreserved
  rw [language_forLanguage] at hmem
  exact (List.mem_append.1 hmem).resolve_left (decorate_not_mem_reservedWords l word)

end Profile

/-! ## Assigned names -/

namespace Namer

variable {n : Namer} {casing : Casing} {a : AssignedName}

/-- Every assigned name is escaped, whatever number it got before. -/
theorem isEscaped_of_mem_assignFrom {taken wires : List String}
    (h : a ∈ n.assignFrom casing taken wires) : n.escaper.IsEscaped a.name := by
  induction wires generalizing taken with
  | nil => cases h
  | cons wire wires ih =>
    rw [assignFrom] at h
    rcases List.mem_cons.1 h with rfl | hrest
    · exact Escaper.isEscaped_escape _ _
    · exact ih hrest

end Namer

end SchemaSymbols

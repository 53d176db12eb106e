/-
  The words of a name lose nothing of it, and they can be read off its snake case.

  1. **Runs.**  Letters and digits without a break in them are scanned into runs.  A run is made of
     capitals and then of small letters and digits, because a character is put in front of a run
     only if it leaves it so (`isRun_scanRuns`, by induction on the text).

  2. **Words.**  Splitting a run takes one capital away from the others where a small letter follows
     them, and this leaves three forms of word (`IsWord`): small letters and digits, a capital with
     a small letter behind it, and capitals that nothing but a digit and what goes with it may
     follow.

  3. **From left to right.**  The scan goes from the right, so what it makes of a text that starts
     with small letters, or with a whole run and a break behind it, has to be shown
     (`scanRuns_smalls_append`, `runs_append`).

  4. **Snake case.**  The words are in small letters there, and such words are put together by
     underscores only.  An underscore ends a run and belongs to none, so splitting finds the same
     words again (`words_intercalate`), and the second snake case is the first.

  `words_lossless` puts together what the words keep of a name, what forms they have, and that snake
  case can be read back.
-/
import SchemaSymbols.Proofs.Naming.Identifiers
import SchemaSymbols.Proofs.Naming.Words

namespace SchemaSymbols

/-- A letter or digit in small letters is a small letter or a digit. -/
theorem isSmall_toLower {c : Char} (h : c.isAlphanum = true) : Naming.isSmall c.toLower = true :=
  forall_isAlphanum (p := fun c => Naming.isSmall c.toLower = true) (by decide +kernel) h

theorem isUpper_eq_false_of_isSmall {c : Char} (h : Naming.isSmall c = true) :
    c.isUpper = false :=
  forall_isAlphanum (p := fun c => Naming.isSmall c = true → c.isUpper = false) (by decide +kernel)
    (by rw [Naming.isAlphanum_eq, h, Bool.or_true]) h

namespace Naming

variable {s t w run : List Char} {ws : List (List Char)}

/-! ## Runs -/

/-- Capitals, and then small letters and digits. -/
def IsRun (run : List Char) : Prop :=
  ∃ capitals smalls, run = capitals ++ smalls ∧ (∀ c ∈ capitals, c.isUpper = true) ∧
    ∀ c ∈ smalls, isSmall c = true

theorem head?_of_isSmall (h : ∀ c ∈ run, isSmall c = true) :
    run.head?.any Char.isUpper = false := by
  cases run with
  | nil => rfl
  | cons c run => exact isUpper_eq_false_of_isSmall (h c List.mem_cons_self)

/-- The runs are the open one, if it is not empty, and the closed ones. -/
theorem runs_eq (s : List Char) :
    runs s = (if (scanRuns s).1.isEmpty then [] else [(scanRuns s).1]) ++ (scanRuns s).2 := by
  show (if (scanRuns s).1.isEmpty then (scanRuns s).2 else (scanRuns s).1 :: (scanRuns s).2) = _
  split <;> rfl

theorem isRun_of_isSmall (h : ∀ c ∈ run, isSmall c = true) : IsRun run :=
  ⟨[], run, rfl, List.forall_mem_nil _, h⟩

/-- A run that does not start with a capital has none. -/
theorem IsRun.isSmall (h : IsRun run) (hfirst : run.head?.any Char.isUpper = false) :
    ∀ c ∈ run, isSmall c = true := by
  obtain ⟨capitals, smalls, rfl, hcapitals, hsmalls⟩ := h
  cases capitals with
  | nil => exact hsmalls
  | cons c capitals =>
    have hc : c.isUpper = false := hfirst
    rw [hcapitals c List.mem_cons_self] at hc
    cases hc

/-- A character that is put in front of a run leaves a run. -/
theorem isRun_opened {c : Char} (h : IsRun run) : IsRun (opened c run) := by
  rw [opened]
  split
  · rename_i hupper
    obtain ⟨capitals, smalls, rfl, hcapitals, hsmalls⟩ := h
    exact ⟨c :: capitals, smalls, rfl, List.forall_mem_cons.2 ⟨hupper, hcapitals⟩, hsmalls⟩
  · split
    · rename_i hsmall
      split
      · exact isRun_of_isSmall (List.forall_mem_singleton.2 hsmall)
      · rename_i hfirst
        have hrun := h.isSmall (Bool.eq_false_iff.2 hfirst)
        exact isRun_of_isSmall (List.forall_mem_cons.2 ⟨hsmall, hrun⟩)
    · exact isRun_of_isSmall (List.forall_mem_nil _)

/-- What is behind a character is the run that it does not go on with. -/
theorem eq_of_mem_closed {c : Char} {closing : List Char} (h : closing ∈ closed c run) :
    closing = run := by
  rw [closed] at h
  split at h
  · cases h
  · split at h
    · split at h
      · exact List.mem_singleton.1 h
      · cases h
    · split at h
      · cases h
      · exact List.mem_singleton.1 h

/-- All that the scan finds are runs, the one that is still open included. -/
theorem isRun_scanRuns (s : List Char) :
    IsRun (scanRuns s).1 ∧ ∀ run ∈ (scanRuns s).2, IsRun run := by
  induction s with
  | nil => exact ⟨isRun_of_isSmall (List.forall_mem_nil _), List.forall_mem_nil _⟩
  | cons c s ih =>
    obtain ⟨hfirst, hmore⟩ := ih
    rw [scanRuns_cons]
    refine ⟨isRun_opened hfirst, fun run hrun => ?_⟩
    rcases List.mem_append.1 hrun with hrun | hrun
    · exact eq_of_mem_closed hrun ▸ hfirst
    · exact hmore run hrun

/-- The runs of a text are runs. -/
theorem isRun_of_mem_runs (h : run ∈ runs s) : IsRun run := by
  obtain ⟨hfirst, hmore⟩ := isRun_scanRuns s
  rw [runs_eq] at h
  rcases List.mem_append.1 h with h | h
  · split at h
    · cases h
    · exact List.mem_singleton.1 h ▸ hfirst
  · exact hmore run h

/-! ## The forms of a word -/

/-- The forms of a word. -/
inductive IsWord : List Char → Prop
  /-- Small letters and digits. -/
  | small {w : List Char} (nonempty : w ≠ []) (all : ∀ c ∈ w, isSmall c = true) : IsWord w
  /-- A capital and a small letter, and then small letters and digits. -/
  | capitalized {c d : Char} {w : List Char} (capital : c.isUpper = true)
      (letter : d.isLower = true) (all : ∀ c ∈ w, isSmall c = true) : IsWord (c :: d :: w)
  /-- Capitals, and behind them nothing, or a digit and then small letters and digits. -/
  | capitals {w rest : List Char} (nonempty : w ≠ []) (all : ∀ c ∈ w, c.isUpper = true)
      (digit : ∀ d ∈ rest.head?, d.isDigit = true) (behind : ∀ c ∈ rest, isSmall c = true) :
      IsWord (w ++ rest)

/-- Capitals keep together if no small letter follows them. -/
theorem splitRun_of_digit {capitals smalls : List Char}
    (hcapitals : ∀ c ∈ capitals, c.isUpper = true) (hsmalls : ∀ c ∈ smalls, isSmall c = true)
    (hlower : smalls.head?.any Char.isLower = false) :
    splitRun (capitals ++ smalls) = [capitals ++ smalls] := by
  have hstop : smalls.takeWhile Char.isUpper = [] := by
    cases smalls with
    | nil => rfl
    | cons d smalls =>
      exact List.takeWhile_cons_of_neg (Bool.eq_false_iff.1 (head?_of_isSmall hsmalls))
  rw [splitRun, List.takeWhile_append_of_pos hcapitals, hstop, List.append_nil, List.drop_left]
  exact if_neg fun hmany => Bool.false_ne_true (hlower.symm.trans hmany.2)

theorem splitRun_of_isSmall (h : ∀ c ∈ w, isSmall c = true) : splitRun w = [w] := by
  cases w with
  | nil => rfl
  | cons c w => exact splitRun_cons (head?_of_isSmall (List.forall_mem_cons.1 h).2)

/-- What a run is split into are words. -/
theorem isWord_of_mem_splitRun (hrun : IsRun run) (hne : run ≠ []) (h : w ∈ splitRun run) :
    IsWord w := by
  obtain ⟨capitals, smalls, rfl, hcapitals, hsmalls⟩ := hrun
  cases hlower : smalls.head?.any Char.isLower with
  | false =>
    rw [splitRun_of_digit hcapitals hsmalls hlower, List.mem_singleton] at h
    rw [h]
    by_cases hnone : capitals = []
    · rw [hnone, List.nil_append] at hne ⊢
      exact .small hne hsmalls
    · refine .capitals hnone hcapitals (fun d hd => ?_) hsmalls
      -- what follows the capitals is small and no small letter
      have hd' : isSmall d = true := hsmalls d (List.mem_of_mem_head? hd)
      rw [hd] at hlower
      rw [isSmall, show d.isLower = false from hlower, Bool.false_or] at hd'
      exact hd'
  | true =>
    obtain ⟨d, smalls, rfl⟩ : ∃ d rest, smalls = d :: rest := by
      cases smalls with
      | nil => cases hlower
      | cons d rest => exact ⟨d, rest, rfl⟩
    have hd : d.isLower = true := hlower
    obtain ⟨-, hrest⟩ := List.forall_mem_cons.1 hsmalls
    rcases List.eq_nil_or_concat capitals with rfl | ⟨front, c, rfl⟩
    · rw [List.nil_append, splitRun_of_isSmall hsmalls, List.mem_singleton] at h
      exact h ▸ .small (List.cons_ne_nil _ _) hsmalls
    · -- the last capital goes to the small letter, and the others are a word of their own
      rw [List.concat_eq_append] at hcapitals h
      obtain ⟨hfront, hlast⟩ := List.forall_mem_append.1 hcapitals
      have hc : c.isUpper = true := hlast c (List.mem_singleton.2 rfl)
      have hword : splitRun (c :: d :: smalls) = [c :: d :: smalls] :=
        splitRun_cons (isUpper_eq_false_of_isLower hd)
      rw [List.append_assoc, List.singleton_append, splitRun_capitals_append hfront hc hd, hword]
        at h
      rcases List.mem_append.1 h with h | h
      · split at h
        · cases h
        · rename_i hsome
          rw [List.flatMap_singleton, splitRun_capitals hfront, List.mem_singleton] at h
          rw [h, ← List.append_nil front]
          exact .capitals (fun he => hsome (List.isEmpty_iff.2 he)) hfront
            (fun d hd => absurd hd (Option.not_mem_none d)) (List.forall_mem_nil _)
      · exact List.mem_singleton.1 h ▸ .capitalized hc hd hrest

/-- Every word has one of the three forms. -/
theorem isWord_of_mem_words (h : w ∈ words s) : IsWord w := by
  obtain ⟨run, hrun, hw⟩ := List.mem_flatMap.1 h
  exact isWord_of_mem_splitRun (isRun_of_mem_runs hrun) (ne_nil_of_mem_runs hrun) hw

/-! ## From left to right -/

/-- Small letters and digits are a run, unless a further one follows them. -/
theorem scanRuns_smalls_append (hw : ∀ c ∈ w, isSmall c = true) (hne : w ≠ [])
    (ht : ∀ c ∈ (scanRuns t).1.head?, c.isUpper = true) : scanRuns (w ++ t) = (w, runs t) := by
  induction w with
  | nil => exact absurd rfl hne
  | cons c w ih =>
    obtain ⟨hc, hw⟩ := List.forall_mem_cons.1 hw
    have hupper := isUpper_eq_false_of_isSmall hc
    rw [List.cons_append, scanRuns_cons]
    cases w with
    | nil =>
      obtain ⟨hopened, hclosed⟩ := opened_closed_of_capital hupper ht
      rw [List.nil_append, hopened, hclosed, if_pos hc, runs_eq]
    | cons d w =>
      have hfirst : (d :: w).head?.any Char.isUpper = false := head?_of_isSmall hw
      rw [ih hw (List.cons_ne_nil _ _), opened, closed, hupper, hc, hfirst]
      rfl

/-- A run takes all capitals there are, and then all small letters and digits there are; what
follows has runs of its own. -/
theorem runs_append {capitals smalls : List Char} (hcapitals : ∀ c ∈ capitals, c.isUpper = true)
    (hsmalls : ∀ c ∈ smalls, isSmall c = true) (hne : capitals ++ smalls ≠ [])
    (hstop : ∀ c ∈ t.head?, isSmall c = false ∧ (smalls = [] → c.isUpper = false)) :
    runs (capitals ++ (smalls ++ t)) = (capitals ++ smalls) :: runs t := by
  have hscan : scanRuns (smalls ++ t) = (smalls, runs t) := by
    cases t with
    | nil =>
      by_cases hnone : smalls = []
      · rw [hnone]
        rfl
      · exact scanRuns_smalls_append hsmalls hnone fun c hc => absurd hc (Option.not_mem_none c)
    | cons c t =>
      obtain ⟨hsmall, hupper⟩ := hstop c rfl
      by_cases hnone : smalls = []
      · -- neither a capital nor small, so `c` ends the run and is in none
        have hopened : (scanRuns (c :: t)).1 = [] := by
          rw [scanRuns_cons, opened, hupper hnone, hsmall]
          rfl
        rw [hnone, List.nil_append, runs_eq, hopened]
        exact Prod.ext hopened rfl
      · refine scanRuns_smalls_append hsmalls hnone fun d hd => ?_
        rw [scanRuns_cons, opened, hsmall] at hd
        split at hd
        · rename_i hc
          exact Option.some.inj hd ▸ hc
        · cases hd
  rw [runs_eq, scanRuns_capitals_append hcapitals, hscan]
  show (if (capitals ++ smalls).isEmpty then [] else [capitals ++ smalls]) ++ runs t = _
  rw [if_neg fun hempty => hne (List.isEmpty_iff.1 hempty)]
  rfl

/-- What is neither a letter nor a digit is in no run. -/
theorem runs_cons_of_not_isAlphanum {c : Char} (hc : c.isAlphanum = false) :
    runs (c :: t) = runs t := by
  rw [isAlphanum_eq, Bool.or_eq_false_iff] at hc
  rw [runs_eq, runs_eq, scanRuns_cons, opened, closed, hc.1, hc.2]
  rfl

/-! ## Words between underscores -/

/-- Words in small letters are found again between underscores. -/
theorem words_intercalate (h : ∀ w ∈ ws, w ≠ [] ∧ ∀ c ∈ w, isSmall c = true) :
    words (List.intercalate ['_'] ws) = ws := by
  induction ws with
  | nil => rfl
  | cons w ws ih =>
    obtain ⟨⟨hne, hw⟩, hws⟩ := List.forall_mem_cons.1 h
    have hword : splitRun w = [w] := splitRun_of_isSmall hw
    have hfirst : ∀ t, (∀ c ∈ t.head?, isSmall c = false ∧ (w = [] → c.isUpper = false)) →
        words (w ++ t) = w :: words t := fun t ht => by
      have hruns : runs (w ++ t) = w :: runs t := runs_append (List.forall_mem_nil _) hw hne ht
      rw [words, hruns, List.flatMap_cons, hword]
      rfl
    cases ws with
    | nil =>
      have hone := hfirst [] fun c hc => absurd hc (Option.not_mem_none c)
      rw [List.append_nil] at hone
      rw [List.intercalate_singleton, hone]
      rfl
    | cons v ws =>
      have hnext : words ('_' :: List.intercalate ['_'] (v :: ws)) = v :: ws := by
        rw [words, runs_cons_of_not_isAlphanum rfl]
        exact ih hws
      rw [List.intercalate_cons_cons, List.append_assoc, List.singleton_append,
        hfirst _ fun c hc => ?_, hnext]
      cases hc
      exact ⟨rfl, fun _ => rfl⟩

end Naming

/-! ## Snake case -/

namespace NamingOptions

variable {o : NamingOptions}

theorem lower_lower_of_mem_words {s w : List Char} (h : w ∈ Naming.words s) :
    lower (lower w) = lower w := by
  rw [lower, lower, List.map_map]
  exact List.map_congr_left fun c hc => toLower_toLower (isAlphanum_of_mem_words h c hc)

/-- The words of a name in snake case are the words of the name in small letters. -/
theorem words_snake (o : NamingOptions) (s : String) :
    Naming.words (o.apply .snake s).toList = (Naming.words s.toList).map lower := by
  have hwords : ∀ w ∈ (Naming.words s.toList).map lower,
      w ≠ [] ∧ ∀ c ∈ w, Naming.isSmall c = true := by
    intro v hv
    obtain ⟨w, hw, rfl⟩ := List.mem_map.1 hv
    refine ⟨by simpa [lower] using Naming.ne_nil_of_mem_words hw, fun c hc => ?_⟩
    obtain ⟨d, hd, rfl⟩ := List.mem_map.1 hc
    exact isSmall_toLower (isAlphanum_of_mem_words hw d hd)
  have hjoined : Naming.words (joined lower s.toList) = (Naming.words s.toList).map lower :=
    Naming.words_intercalate hwords
  rw [apply, String.toList_ofList, guardDigit]
  -- the underscore in front of a digit is in no word
  split
  · rw [Naming.words, Naming.runs_cons_of_not_isAlphanum rfl]
    exact hjoined
  · exact hjoined

/-- Snake case of snake case is snake case. -/
theorem snake_snake (o : NamingOptions) (s : String) :
    o.apply .snake (o.apply .snake s) = o.apply .snake s := by
  have hagain : (Naming.words (o.apply .snake s).toList).map lower =
      (Naming.words s.toList).map lower := by
    rw [words_snake, List.map_map]
    exact List.map_congr_left fun w hw => lower_lower_of_mem_words hw
  have hjoined : joined lower (o.apply .snake s).toList = joined lower s.toList :=
    congrArg (List.intercalate ['_']) hagain
  exact congrArg (fun cased => String.ofList (guardDigit cased)) hjoined

end NamingOptions

/-- Splitting loses no letter and no digit of a name, and every word has one of three forms.  The
    snake case of a name has the same words in small letters, so a second one changes nothing. -/
theorem words_lossless (o : NamingOptions) (s : String) :
    (Naming.words s.toList).flatten = s.toList.filter Char.isAlphanum ∧
      (∀ w ∈ Naming.words s.toList, w ≠ [] ∧ Naming.IsWord w) ∧
      Naming.words (o.apply .snake s).toList =
        (Naming.words s.toList).map NamingOptions.lower ∧
      o.apply .snake (o.apply .snake s) = o.apply .snake s := by
  refine ⟨Naming.flatten_words _, fun w hw => ?_, o.words_snake s, o.snake_snake s⟩
  exact ⟨Naming.ne_nil_of_mem_words hw, Naming.isWord_of_mem_words hw⟩

/-! ## A label -/

namespace Label

/-- Capitals at the end of a word, in front of a digit and in front of a small letter, and
characters between words that are no ASCII letters. -/
def text : String := "2HTTPServers ÉcoleURL3a__XMLé9bTOKENs$ID"

end Label

/-- A label with capitals, digits, accents and marks: its words, their forms, and its
snake case, which is its own snake case. -/
theorem label_words_lossless :
    (Naming.words Label.text.toList).map String.ofList =
        ["2", "HTTP", "Servers", "cole", "URL3a", "XML", "9b", "TOKE", "Ns", "ID"] ∧
      NamingOptions.apply {} .snake Label.text =
        "_2_http_servers_cole_url3a_xml_9b_toke_ns_id" ∧
      Naming.IsWord "URL3a".toList ∧ Naming.IsWord "Ns".toList ∧
      NamingOptions.apply {} .snake (NamingOptions.apply {} .snake Label.text) =
        NamingOptions.apply {} .snake Label.text := by
  obtain ⟨-, hforms, -, hsnake⟩ := words_lossless {} Label.text
  exact ⟨by decide +kernel, by decide +kernel, (hforms _ (by decide +kernel)).2,
    (hforms _ (by decide +kernel)).2, hsnake⟩

end SchemaSymbols

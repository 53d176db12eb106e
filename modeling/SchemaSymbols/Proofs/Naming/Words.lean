/-
  The words of a text that is put together.

  Words are found from the right: a scan of the runs of letters and digits puts one character after
  the other in front, and a run is then split where a capital belongs to the small letters behind
  it.  So a text that is put together has the words of its parts if nothing of the one in front runs
  into the one behind.

  A capital with a small letter behind it starts a word, whatever is in front of it (`startsWord`):
  after a small letter because every capital does, and after capitals because the last of them goes
  to the small letter.  The proof distinguishes whether the text in front is all capitals, which are
  one run with the capital behind them and are split off again (`flatMap_splitRun_capitals`), or
  not, and then its runs are what they were (`scanRuns_append`).  `words_append` puts both together:
  what is in front keeps its words.  They would not be kept if the text behind began otherwise: a
  small letter goes on with the word in front, and so does a capital after capitals.

  The first letter may be put in upper case without moving the ends of words, if it does not start a
  run of capitals (`words_upperFirst`).  Facts about single letters and digits are decided by trying
  all of them (`forall_isAlphanum`).
-/
import SchemaSymbols.Proofs.Naming.TypeNames
import SchemaSymbols.Text.Uppercase

namespace SchemaSymbols

/-! ## Letters and digits -/

section Characters

variable {c : Char}

/-- What holds of all ASCII letters and digits can be found out by trying. -/
theorem forall_isAlphanum {p : Char → Prop}
    (h : ∀ n < 128, (Char.ofNat n).isAlphanum = true → p (Char.ofNat n))
    (hc : c.isAlphanum = true) : p c := by
  have hp := h c.toNat (toNat_lt_of_isAlphanum hc)
  rw [Char.ofNat_toNat] at hp
  exact hp hc

theorem isAlphanum_of_isUpper (h : c.isUpper = true) : c.isAlphanum = true := by
  rw [Naming.isAlphanum_eq, h, Bool.true_or]

theorem isAlphanum_of_isLower (h : c.isLower = true) : c.isAlphanum = true := by
  rw [Naming.isAlphanum_eq, Naming.isSmall, h, Bool.true_or, Bool.or_true]

theorem isUpper_eq_false_of_isLower (h : c.isLower = true) : c.isUpper = false :=
  forall_isAlphanum (p := fun c => c.isLower = true → c.isUpper = false) (by decide +kernel)
    (isAlphanum_of_isLower h) h

theorem toUpper_toLower (h : c.isAlphanum = true) : c.toLower.toUpper = c.toUpper :=
  forall_isAlphanum (p := fun c => c.toLower.toUpper = c.toUpper) (by decide +kernel) h

theorem toLower_toUpper (h : c.isAlphanum = true) : c.toUpper.toLower = c.toLower :=
  forall_isAlphanum (p := fun c => c.toUpper.toLower = c.toLower) (by decide +kernel) h

theorem toLower_toLower (h : c.isAlphanum = true) : c.toLower.toLower = c.toLower :=
  forall_isAlphanum (p := fun c => c.toLower.toLower = c.toLower) (by decide +kernel) h

theorem isUpper_toLower (h : c.isAlphanum = true) : c.toLower.isUpper = false :=
  forall_isAlphanum (p := fun c => c.toLower.isUpper = false) (by decide +kernel) h

theorem isUpper_toUpper (h : c.isAlpha = true) : c.toUpper.isUpper = true :=
  forall_isAlphanum (p := fun c => c.isAlpha = true → c.toUpper.isUpper = true) (by decide +kernel)
    (Bool.or_eq_true_iff.2 (Or.inl h)) h

theorem toUpper_of_isUpper (h : c.isUpper = true) : c.toUpper = c :=
  forall_isAlphanum (p := fun c => c.isUpper = true → c.toUpper = c) (by decide +kernel)
    (isAlphanum_of_isUpper h) h

theorem upperChars_of_isAlphanum (h : c.isAlphanum = true) : Text.upperChars c = [c.toUpper] :=
  forall_isAlphanum (p := fun c => Text.upperChars c = [c.toUpper]) (by decide +kernel) h

end Characters

namespace Naming

variable {s t run : List Char}

/-! ## Joined texts -/

/-- A capital and a small letter. -/
def startsWord : List Char → Bool
  | c :: d :: _ => c.isUpper && d.isLower
  | _ => false

theorem of_startsWord (h : startsWord t = true) :
    ∃ c d rest, t = c :: d :: rest ∧ c.isUpper = true ∧ d.isLower = true := by
  match t, h with
  | c :: d :: rest, h =>
    obtain ⟨hc, hd⟩ := Bool.and_eq_true_iff.1 h
    exact ⟨c, d, rest, rfl, hc, hd⟩

/-- The run that a character starts or goes on with, in front of another run. -/
def opened (c : Char) (run : List Char) : List Char :=
  if c.isUpper then c :: run
  else if isSmall c then if run.head?.any Char.isUpper then [c] else c :: run
  else []

/-- The run behind a character, if it does not go on. -/
def closed (c : Char) (run : List Char) : List (List Char) :=
  if c.isUpper then []
  else if isSmall c then if run.head?.any Char.isUpper then [run] else []
  else if run.isEmpty then [] else [run]

/-- What a character in front does to the runs depends on the first of them only. -/
theorem scanRuns_cons (c : Char) (s : List Char) :
    scanRuns (c :: s) = (opened c (scanRuns s).1, closed c (scanRuns s).1 ++ (scanRuns s).2) := by
  rw [scanRuns, opened, closed]
  generalize scanRuns s = scanned
  obtain ⟨run, more⟩ := scanned
  simp only
  split
  · rfl
  · split
    · split <;> rfl
    · split <;> rfl

/-- A run with a capital in front does not go on with a character that is no capital. -/
theorem opened_closed_of_capital {c : Char} (hc : c.isUpper = false)
    (h : ∀ d ∈ run.head?, d.isUpper = true) :
    opened c run = (if isSmall c then [c] else []) ∧
      closed c run = if run.isEmpty then [] else [run] := by
  rw [opened, closed, hc]
  cases run with
  | nil => cases isSmall c <;> exact ⟨rfl, rfl⟩
  | cons d run =>
    have hd : (d :: run).head?.any Char.isUpper = true := h d rfl
    rw [hd]
    cases isSmall c <;> exact ⟨rfl, rfl⟩

/-- The words of a text: those of its first run, and those of the others. -/
theorem words_eq (s : List Char) :
    words s = ((if (scanRuns s).1.isEmpty then [] else [(scanRuns s).1]) ++
      (scanRuns s).2).flatMap splitRun := by
  show (if (scanRuns s).1.isEmpty then (scanRuns s).2
    else (scanRuns s).1 :: (scanRuns s).2).flatMap splitRun = _
  split
  · rfl
  · rfl

/-- The run that such a text starts with. -/
theorem exists_scanRuns_of_startsWord (h : startsWord t = true) :
    ∃ c d run, (scanRuns t).1 = c :: d :: run ∧ c.isUpper = true ∧ d.isLower = true := by
  obtain ⟨c, d, rest, rfl, hc, hd⟩ := of_startsWord h
  have hsmall : isSmall d = true := by rw [isSmall, hd, Bool.true_or]
  obtain ⟨run, hrun⟩ : ∃ run, opened d (scanRuns rest).1 = d :: run := by
    rw [opened, isUpper_eq_false_of_isLower hd, hsmall]
    simp only [Bool.false_eq_true, if_false, if_true]
    split
    · exact ⟨[], rfl⟩
    · exact ⟨_, rfl⟩
  refine ⟨c, d, run, ?_, hc, hd⟩
  rw [scanRuns_cons, scanRuns_cons, hrun, opened, if_pos hc]

/-- Capitals go on with the run behind them. -/
theorem scanRuns_capitals_append (h : ∀ c ∈ s, c.isUpper = true) (t : List Char) :
    scanRuns (s ++ t) = (s ++ (scanRuns t).1, (scanRuns t).2) := by
  induction s with
  | nil => rfl
  | cons c s ih =>
    rw [List.cons_append, scanRuns_cons, ih fun d hd => h d (List.mem_cons_of_mem _ hd), opened,
      closed, if_pos (h c List.mem_cons_self), if_pos (h c List.mem_cons_self)]
    rfl

/-- Capitals alone are one run, which is still open. -/
theorem scanRuns_capitals (h : ∀ c ∈ s, c.isUpper = true) : scanRuns s = (s, []) := by
  have happend := scanRuns_capitals_append h []
  rwa [List.append_nil, scanRuns, List.append_nil] at happend

theorem splitRun_capitals (h : ∀ c ∈ s, c.isUpper = true) : splitRun s = [s] := by
  have hall : s.takeWhile Char.isUpper = s := by
    have happend : (s ++ []).takeWhile Char.isUpper = s ++ [].takeWhile Char.isUpper :=
      List.takeWhile_append_of_pos h
    rwa [List.append_nil, List.takeWhile_nil, List.append_nil] at happend
  rw [splitRun, hall, List.drop_length]
  exact if_neg fun hmany => Bool.false_ne_true hmany.2

/-- Capitals in front of a word are a word of their own. -/
theorem splitRun_capitals_append {c d : Char} (h : ∀ c ∈ s, c.isUpper = true)
    (hc : c.isUpper = true) (hd : d.isLower = true) :
    splitRun (s ++ c :: d :: run) =
      (if s.isEmpty then [] else [s]).flatMap splitRun ++ splitRun (c :: d :: run) := by
  have hcapitals : ∀ s : List Char, (∀ c ∈ s, c.isUpper = true) →
      (s ++ c :: d :: run).takeWhile Char.isUpper = s ++ [c] := by
    intro s h
    rw [List.takeWhile_append_of_pos h, List.takeWhile_cons_of_pos hc, List.takeWhile_cons_of_neg]
    rw [isUpper_eq_false_of_isLower hd]
    exact Bool.false_ne_true
  have hword : splitRun (c :: d :: run) = [c :: d :: run] := by
    have hone := hcapitals [] nofun
    rw [List.nil_append, List.nil_append] at hone
    rw [splitRun, hone]
    exact if_neg fun hmany => Nat.lt_irrefl 1 hmany.1
  have hbehind : (s ++ c :: d :: run).drop (s.length + 1) = d :: run := by
    rw [← List.drop_drop, List.drop_left, List.drop_one, List.tail_cons]
  cases hempty : s.isEmpty with
  | true =>
    rw [List.isEmpty_iff.1 hempty]
    rfl
  | false =>
    have hlength : 0 < s.length := List.length_pos_iff.2 (List.isEmpty_eq_false_iff.1 hempty)
    rw [hword, splitRun, hcapitals s h, List.length_append, List.length_singleton, hbehind,
      if_pos ⟨by omega, hd⟩, Nat.add_sub_cancel, List.take_left, List.drop_left]
    show _ = splitRun s ++ [] ++ [c :: d :: run]
    rw [splitRun_capitals h]
    rfl

/-- Capitals in front of a text are a word of their own, and the text keeps its words. -/
theorem flatMap_splitRun_capitals (ht : startsWord t = true) (h : ∀ c ∈ s, c.isUpper = true) :
    ((if (s ++ (scanRuns t).1).isEmpty then [] else [s ++ (scanRuns t).1]) ++
        (scanRuns t).2).flatMap splitRun =
      (if s.isEmpty then [] else [s]).flatMap splitRun ++ words t := by
  obtain ⟨c, d, run, hrun, hc, hd⟩ := exists_scanRuns_of_startsWord ht
  have hsome : (s ++ c :: d :: run).isEmpty = false := by cases s <;> rfl
  rw [words_eq t, hrun, hsome]
  simp only [List.flatMap_append]
  rw [← List.append_assoc]
  refine congrArg (· ++ _) ?_
  show splitRun (s ++ c :: d :: run) ++ [] = _ ++ (splitRun (c :: d :: run) ++ [])
  rw [List.append_nil, List.append_nil, splitRun_capitals_append h hc hd]

/-- The runs of a text that is not all capitals: the first one stays, and the others have the words
that they had, and those of the text behind. -/
theorem scanRuns_append (ht : startsWord t = true) (hs : ¬ ∀ c ∈ s, c.isUpper = true) :
    (scanRuns (s ++ t)).1 = (scanRuns s).1 ∧
      (scanRuns (s ++ t)).2.flatMap splitRun = (scanRuns s).2.flatMap splitRun ++ words t := by
  induction s with
  | nil => exact absurd nofun hs
  | cons c s ih =>
    rw [List.cons_append, scanRuns_cons, scanRuns_cons]
    by_cases hcapitals : ∀ d ∈ s, d.isUpper = true
    · -- the capitals behind `c` go on with the first run of `t`, and `c` is apart from them
      have hc : c.isUpper = false := Bool.eq_false_iff.2 fun hc =>
        hs (List.forall_mem_cons.2 ⟨hc, hcapitals⟩)
      have hjoined : ∀ d ∈ (s ++ (scanRuns t).1).head?, d.isUpper = true := by
        obtain ⟨C, d, run, hrun, hC, -⟩ := exists_scanRuns_of_startsWord ht
        rw [hrun]
        cases s with
        | nil => exact fun x hx => Option.some.inj hx ▸ hC
        | cons x s => exact fun y hy => hcapitals y (List.mem_of_mem_head? hy)
      have hs' : ∀ d ∈ s.head?, d.isUpper = true := fun d hd =>
        hcapitals d (List.mem_of_mem_head? hd)
      rw [scanRuns_capitals_append hcapitals, scanRuns_capitals hcapitals,
        (opened_closed_of_capital hc hjoined).1, (opened_closed_of_capital hc hjoined).2,
        (opened_closed_of_capital hc hs').1, (opened_closed_of_capital hc hs').2, List.append_nil]
      exact ⟨rfl, flatMap_splitRun_capitals ht hcapitals⟩
    · obtain ⟨hrun, hmore⟩ := ih hcapitals
      rw [hrun, List.flatMap_append, List.flatMap_append, hmore, List.append_assoc]
      exact ⟨rfl, rfl⟩

/-- In front of a capital and a small letter a text keeps its words. -/
theorem words_append (ht : startsWord t = true) (s : List Char) :
    words (s ++ t) = words s ++ words t := by
  by_cases hs : ∀ c ∈ s, c.isUpper = true
  · rw [words_eq (s ++ t), scanRuns_capitals_append hs, flatMap_splitRun_capitals ht hs, words_eq s,
      scanRuns_capitals hs, List.append_nil]
  · obtain ⟨hrun, hmore⟩ := scanRuns_append ht hs
    rw [words_eq (s ++ t), words_eq s, hrun, List.flatMap_append, List.flatMap_append, hmore,
      List.append_assoc]

/-! ## The first letter -/

/-- A letter, and if it is a small one, no capital behind it. -/
def startsPlainly : List Char → Bool
  | c :: rest => c.isUpper || (c.isLower && !rest.head?.any Char.isUpper)
  | [] => false

/-- A run starts with a capital only if the text does. -/
theorem head?_scanRuns (h : s.head?.any Char.isUpper = false) :
    (scanRuns s).1.head?.any Char.isUpper = false := by
  cases s with
  | nil => rfl
  | cons c s =>
    have hc : c.isUpper = false := h
    rw [scanRuns_cons, opened, hc]
    simp only [Bool.false_eq_true, if_false]
    split
    · split
      · exact hc
      · exact hc
    · rfl

/-- A run is one word if no capital is behind its first character. -/
theorem splitRun_cons {c : Char} (h : run.head?.any Char.isUpper = false) :
    splitRun (c :: run) = [c :: run] := by
  have hnone : run.takeWhile Char.isUpper = [] := by
    cases run with
    | nil => rfl
    | cons d run => exact List.takeWhile_cons_of_neg (Bool.eq_false_iff.1 h)
  have hle : ((c :: run).takeWhile Char.isUpper).length ≤ 1 := by
    rw [List.takeWhile_cons, hnone]
    split
    · exact Nat.le_refl 1
    · exact Nat.zero_le 1
  rw [splitRun, if_neg fun hmany => absurd hmany.1 (Nat.not_lt.2 hle)]

/-- A capital in place of a small letter in front changes the first word, in its first letter. -/
theorem words_upperFirst (h : startsPlainly s = true) :
    Text.upperFirst s = s ∨ ∃ c run rest, c.isLower = true ∧
      run.head?.any Char.isUpper = false ∧ words s = (c :: run) :: rest ∧
      words (Text.upperFirst s) = (c.toUpper :: run) :: rest := by
  match s, h with
  | c :: s, h =>
    rcases Bool.or_eq_true_iff.1 h with hupper | h
    · refine Or.inl ?_
      rw [Text.upperFirst, upperChars_of_isAlphanum (isAlphanum_of_isUpper hupper),
        toUpper_of_isUpper hupper]
      rfl
    · obtain ⟨hlower, hbehind⟩ := Bool.and_eq_true_iff.1 h
      have hrun := head?_scanRuns (s := s) (by simpa using hbehind)
      have hcapital : c.toUpper.isUpper = true :=
        isUpper_toUpper (Bool.or_eq_true_iff.2 (Or.inr hlower))
      have hwords : ∀ d : Char, scanRuns (d :: s) = (d :: (scanRuns s).1, (scanRuns s).2) →
          words (d :: s) = (d :: (scanRuns s).1) :: (scanRuns s).2.flatMap splitRun := by
        intro d hscan
        rw [words_eq, hscan]
        show splitRun (d :: (scanRuns s).1) ++ _ = _
        rw [splitRun_cons hrun]
        rfl
      refine Or.inr ⟨c, _, _, hlower, hrun, hwords c ?_, ?_⟩
      · rw [scanRuns_cons, opened, closed, isUpper_eq_false_of_isLower hlower, isSmall, hlower,
          hrun]
        rfl
      · rw [Text.upperFirst, upperChars_of_isAlphanum (isAlphanum_of_isLower hlower)]
        refine hwords c.toUpper ?_
        rw [scanRuns_cons, opened, closed, if_pos hcapital, if_pos hcapital]
        rfl

end Naming

end SchemaSymbols

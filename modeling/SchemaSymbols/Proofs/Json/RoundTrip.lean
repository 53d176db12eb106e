/-
  Texts of indented values are read back.

  1. **What is read back.**  `Textual n v` says that `v` is made of texts, arrays and objects nested
     at most `n` deep, which is how snapshots are written.  Numbers, booleans and null do not occur
     in them, so nothing is said of those.

  2. **From characters to tokens.**  `Lexes s ts` says that the characters `s` are the tokens `ts`
     whatever follows them.  Saying it for every rest is what makes it compose along the layout of
     the printer (`Lexes.append`): no token that the printer writes runs into the next one, and the
     blanks between them are no tokens.

  3. **From tokens to values.**  `Reads s v` says that the tokens of `s` take the stack machine from
     the state that expects a value to the state in which `v` is complete, with the same arrays and
     objects around it.  Items and fields are read one by one (`lexes_items`, `lexes_fields`), so an
     array or object is read if its parts are (`reads_array`, `reads_object`), and every textual
     value is, by induction on the nesting (`Textual.reads`).

  4. **Strings** are the one place where what is written and what it means are not the same
     characters.  A character is escaped to one of three forms, and each of them is read as a piece
     that stands for that character (`pieces?_escapeChar`).

  The parser is started with as much fuel as there are characters, and more fuel changes nothing
  (`tokensWithin_mono`).  At the end, `Textual.readable` says that a textual value that is not
  nested too deep is accepted as a whole.
-/
import SchemaSymbols.Json.Parser
import SchemaSymbols.Json.Printer

namespace SchemaSymbols.Json

/-! ## Strings -/

/-- The two hexadecimal digits of a control character are read back. -/
theorem valueOfBase?_hexChar :
    ∀ n < 0x20, Text.valueOfBase? 16 ['0', '0', hexChar (n / 16), hexChar (n % 16)] = some n := by
  decide

theorem ofUnit_control : ∀ n < 0x20, Piece.ofUnit n = .char (Char.ofNat n) := by
  intro n hn
  have hsurrogate : (isHighSurrogate n || isLowSurrogate n) = false := by
    simp [isHighSurrogate, isLowSurrogate]
    omega
  rw [Piece.ofUnit, hsurrogate]
  rfl

/-- An escape of one letter is read as the character it stands for. -/
theorem pieces?_simpleEscape {e c : Char} (hescape : simpleEscape? e = some c) (hunit : e ≠ 'u')
    (rest : List Char) :
    pieces? ('\\' :: e :: rest) = (pieces? rest).map fun p => (.char c :: p.1, p.2) := by
  rw [pieces?.eq_def]
  split
  · next heq => cases heq
  · next heq => simp at heq
  · next heq => exact absurd (List.cons.inj (List.cons.inj heq).2).1 hunit
  · next heq =>
    cases heq
    rw [hescape]
    cases pieces? rest <;> rfl
  · next hother heq =>
    exact (hother e rest (List.cons.inj heq).1.symm (List.cons.inj heq).2.symm).elim

theorem pieces?_unit {a b c d : Char} {n : Nat} (hunit : Text.valueOfBase? 16 [a, b, c, d] = some n)
    (rest : List Char) :
    pieces? ('\\' :: 'u' :: a :: b :: c :: d :: rest) =
      (pieces? rest).map fun p => (.ofUnit n :: p.1, p.2) := by
  rw [pieces?, hunit]
  cases pieces? rest <;> rfl

/-- A character that needs no escape is read as itself. -/
theorem pieces?_plain {c : Char} (hquote : c ≠ '"') (hmark : c ≠ '\\') (hcontrol : ¬ c.toNat < 0x20)
    (rest : List Char) :
    pieces? (c :: rest) = (pieces? rest).map fun p => (.char c :: p.1, p.2) := by
  rw [pieces?.eq_def]
  split
  · next heq => cases heq
  · next heq => exact absurd (List.cons.inj heq).1 hquote
  · next heq => exact absurd (List.cons.inj heq).1 hmark
  · next heq => exact absurd (List.cons.inj heq).1 hmark
  · next heq =>
    cases heq
    rw [if_neg (not_or.2 ⟨hmark, hcontrol⟩)]
    cases pieces? rest <;> rfl

/-- A character is read back from the way it is written inside a string. -/
theorem pieces?_escapeChar (c : Char) (rest : List Char) :
    pieces? (escapeChar c ++ rest) = (pieces? rest).map fun p => (.char c :: p.1, p.2) := by
  rw [escapeChar]
  split
  · next h => subst h; exact pieces?_simpleEscape rfl (by decide) rest
  split
  · next h => subst h; exact pieces?_simpleEscape rfl (by decide) rest
  split
  · next h => subst h; exact pieces?_simpleEscape rfl (by decide) rest
  split
  · next h => subst h; exact pieces?_simpleEscape rfl (by decide) rest
  split
  · next h => subst h; exact pieces?_simpleEscape rfl (by decide) rest
  split
  · next h => subst h; exact pieces?_simpleEscape rfl (by decide) rest
  split
  · next h => subst h; exact pieces?_simpleEscape rfl (by decide) rest
  split
  · next hcontrol =>
    have hpiece : Piece.ofUnit c.toNat = .char c := by
      rw [ofUnit_control c.toNat hcontrol, Char.ofNat_toNat]
    rw [← hpiece]
    exact pieces?_unit (valueOfBase?_hexChar c.toNat hcontrol) rest
  · next hquote hmark _ _ _ _ _ hcontrol => exact pieces?_plain hquote hmark hcontrol rest

/-- The escaped characters of a string are read back, up to the closing quote. -/
theorem pieces?_escaped (s rest : List Char) :
    pieces? (s.flatMap escapeChar ++ '"' :: rest) = some (s.map .char, rest) := by
  induction s with
  | nil => simp [pieces?]
  | cons c s ih =>
    rw [List.flatMap_cons, List.append_assoc, pieces?_escapeChar, ih]
    rfl

theorem joinPieces?_chars (s : List Char) : joinPieces? (s.map .char) = some s := by
  induction s with
  | nil => rfl
  | cons c s ih =>
    rw [List.map_cons, joinPieces?, ih]
    rfl

/-- A quoted text is read back, whatever follows it. -/
theorem stringToken?_escaped (s : String) (rest : List Char) :
    stringToken? (s.toList.flatMap escapeChar ++ '"' :: rest) = some (.text s, rest) := by
  simp only [stringToken?, pieces?_escaped, joinPieces?_chars, Option.bind_eq_bind,
    Option.bind_some, String.ofList_toList, Option.pure_def]

/-! ## Tokens -/

/-- More fuel reads the same tokens. -/
theorem tokensWithin_mono {fuel more : Nat} {s : List Char} {ts : List Token}
    (h : tokensWithin fuel s = some ts) (hle : fuel ≤ more) : tokensWithin more s = some ts := by
  induction fuel generalizing more s ts with
  | zero =>
    cases s with
    | nil =>
      rw [tokensWithin] at h ⊢
      exact h
    | cons c rest => cases h
  | succ fuel ih =>
    cases s with
    | nil =>
      rw [tokensWithin] at h ⊢
      exact h
    | cons c rest =>
      obtain ⟨more, rfl⟩ : ∃ k, more = k + 1 := ⟨more - 1, by omega⟩
      have hle : fuel ≤ more := by omega
      rw [tokensWithin] at h ⊢
      split at h
      · next hblank => rw [if_pos hblank]; exact ih h hle
      · next hblank =>
        rw [if_neg hblank]
        cases htoken : token? c rest with
        | none => rw [htoken] at h; cases h
        | some found =>
          obtain ⟨t, rest'⟩ := found
          rw [htoken] at h
          cases hrest : tokensWithin fuel rest' with
          | none => simp [hrest] at h
          | some us =>
            simp only [Option.bind_eq_bind, Option.bind_some, hrest, ih hrest hle] at h ⊢
            exact h

/-- The characters `s` are the tokens `ts`, whatever follows them. -/
def Lexes (s : List Char) (ts : List Token) : Prop :=
  ∀ rest us fuel, tokensWithin fuel rest = some us →
    tokensWithin (s.length + fuel) (s ++ rest) = some (ts ++ us)

namespace Lexes

variable {s s' : List Char} {ts ts' : List Token} {c : Char} {t : Token}

theorem nil : Lexes [] [] := by
  intro rest us fuel h
  simpa using h

/-- What lexes composes: the tokens of one text followed by another are both their tokens. -/
theorem append (h : Lexes s ts) (h' : Lexes s' ts') : Lexes (s ++ s') (ts ++ ts') := by
  intro rest us fuel hrest
  have hboth := h (s' ++ rest) (ts' ++ us) (s'.length + fuel) (h' rest us fuel hrest)
  rw [List.length_append, List.append_assoc, List.append_assoc, Nat.add_assoc]
  exact hboth

theorem blank (h : isBlank c = true) : Lexes [c] [] := by
  intro rest us fuel hrest
  show tokensWithin (1 + fuel) (c :: rest) = some us
  rw [Nat.add_comm, tokensWithin, if_pos h]
  exact hrest

/-- One token, read off whole. -/
theorem token (hblank : isBlank c = false)
    (h : ∀ rest, token? c (s ++ rest) = some (t, rest)) : Lexes (c :: s) [t] := by
  intro rest us fuel hrest
  have hone : tokensWithin (fuel + 1) (c :: (s ++ rest)) = some (t :: us) := by
    rw [tokensWithin, if_neg (by simp [hblank]), h]
    simp [hrest]
  have hfuel : fuel + 1 ≤ (c :: s).length + fuel := by
    rw [List.length_cons]
    omega
  exact tokensWithin_mono hone hfuel

theorem newLine (level : Nat) : Lexes (newLine level) [] := by
  have hblanks : ∀ n, Lexes (List.replicate n ' ') [] := by
    intro n
    induction n with
    | zero => exact nil
    | succ n ih => exact append (blank rfl) ih
  exact append (blank (c := '\n') rfl) (hblanks (2 * level))

theorem quoted (s : String) : Lexes (quoted s) [.text s] := by
  refine token (by decide) fun rest => ?_
  show token? '"' (s.toList.flatMap escapeChar ++ ['"'] ++ rest) = _
  rw [List.append_assoc]
  exact stringToken?_escaped s rest

end Lexes

/-- A whole text that lexes is read as its tokens: it is the case in which nothing follows. -/
theorem tokens?_of_lexes {s : List Char} {ts : List Token} (h : Lexes s ts) :
    tokens? s = some ts := by
  have hall := h [] [] 0 rfl
  simpa [tokens?] using hall

/-! ## Values -/

/-- The characters `s` take the machine from expecting a value to having the value `v`, whatever is
    open around it. -/
def Reads (s : List Char) (v : Json) : Prop :=
  ∃ ts, Lexes s ts ∧
    ∀ stack, ts.foldlM State.step? (.value stack) = some (.complete v stack)

theorem reads_quoted (s : String) : Reads (quoted s) (.string s) :=
  ⟨[.text s], Lexes.quoted s, fun _ => rfl⟩

variable {level : Nat} {close : List Char}

/-- The items of an array after the first, up to its end.  The induction is on the items; those that
    were read before wait in the frame. -/
theorem lexes_items (hclose : Lexes close [.closeBracket]) {items : List Json}
    (h : ∀ v ∈ items, Reads (indentedChars level v) v) :
    ∃ ts, Lexes (indentedItems level items ++ close) ts ∧ ∀ v read stack,
      ts.foldlM State.step? (.complete v (.array read :: stack)) =
        some (.complete (.array ((v :: read).reverse ++ items)) stack) := by
  induction items with
  | nil =>
    refine ⟨[.closeBracket], hclose, fun v read stack => ?_⟩
    rw [List.append_nil]
    rfl
  | cons w items ih =>
    obtain ⟨ws, hws, hw⟩ := h w List.mem_cons_self
    obtain ⟨ts, hts, hrun⟩ := ih fun v hv => h v (List.mem_cons_of_mem _ hv)
    refine ⟨.comma :: (ws ++ ts), ?_, fun v read stack => ?_⟩
    · have hcomma : Lexes [','] [.comma] := .token (by decide) fun _ => rfl
      have hall := hcomma.append ((Lexes.newLine level).append (hws.append hts))
      simpa [indentedItems] using hall
    · show (ws ++ ts).foldlM State.step? (.value (.array (v :: read) :: stack)) = _
      rw [List.foldlM_append, hw]
      show ts.foldlM State.step? (.complete w (.array (v :: read) :: stack)) = _
      rw [hrun]
      simp

/-- The fields of an object after the first, up to its end. -/
theorem lexes_fields (hclose : Lexes close [.closeBrace]) {fields : List (String × Json)}
    (h : ∀ f ∈ fields, Reads (indentedChars level f.2) f.2) :
    ∃ ts, Lexes (indentedFields level fields ++ close) ts ∧ ∀ k v read stack,
      ts.foldlM State.step? (.complete v (.object read true k :: stack)) =
        some (.complete (.object (((k, v) :: read).reverse ++ fields)) stack) := by
  induction fields with
  | nil =>
    refine ⟨[.closeBrace], hclose, fun k v read stack => ?_⟩
    rw [List.append_nil]
    rfl
  | cons f fields ih =>
    obtain ⟨name, w⟩ := f
    obtain ⟨ws, hws, hw⟩ := h (name, w) List.mem_cons_self
    obtain ⟨ts, hts, hrun⟩ := ih fun f hf => h f (List.mem_cons_of_mem _ hf)
    refine ⟨.comma :: .text name :: .colon :: (ws ++ ts), ?_, fun k v read stack => ?_⟩
    · have hcomma : Lexes [','] [.comma] := .token (by decide) fun _ => rfl
      have hcolon : Lexes [':'] [.colon] := .token (by decide) fun _ => rfl
      have hblank : Lexes [' '] [] := .blank rfl
      have hall := hcomma.append ((Lexes.newLine level).append ((Lexes.quoted name).append
        (hcolon.append (hblank.append (hws.append hts)))))
      simpa [indentedFields] using hall
    · show (ws ++ ts).foldlM State.step? (.value (.object ((k, v) :: read) true name :: stack)) = _
      rw [List.foldlM_append, hw]
      show ts.foldlM State.step? (.complete w (.object ((k, v) :: read) true name :: stack)) = _
      rw [hrun]
      simp

/-- No value starts with the end of an array. -/
theorem foldlM_firstItem {ts : List Token} {v : Json} {stack : List Frame}
    (h : ∀ stack, ts.foldlM State.step? (.value stack) = some (.complete v stack)) :
    ts.foldlM State.step? (.firstItem stack) = some (.complete v (.array [] :: stack)) := by
  rw [← h]
  cases ts with
  | nil => cases h []
  | cons t ts =>
    cases t with
    | closeBracket => cases h []
    | _ => rfl

/-- An indented array is read if its items are. -/
theorem reads_array {items : List Json}
    (h : ∀ v ∈ items, Reads (indentedChars (level + 1) v) v) :
    Reads (indentedChars level (.array items)) (.array items) := by
  have hopen : Lexes ['['] [.openBracket] := .token (by decide) fun _ => rfl
  have hclose : Lexes [']'] [.closeBracket] := .token (by decide) fun _ => rfl
  cases items with
  | nil => exact ⟨[.openBracket, .closeBracket], hopen.append hclose, fun _ => rfl⟩
  | cons v items =>
    obtain ⟨vs, hvs, hv⟩ := h v List.mem_cons_self
    obtain ⟨ts, hts, hrun⟩ := lexes_items ((Lexes.newLine level).append hclose) fun w hw =>
      h w (List.mem_cons_of_mem _ hw)
    refine ⟨.openBracket :: (vs ++ ts), ?_, fun stack => ?_⟩
    · have hall := hopen.append ((Lexes.newLine (level + 1)).append (hvs.append hts))
      simpa [indentedChars] using hall
    · show (vs ++ ts).foldlM State.step? (.firstItem stack) = _
      rw [List.foldlM_append, foldlM_firstItem hv]
      exact hrun v [] stack

/-- An indented object is read if the values of its fields are. -/
theorem reads_object {fields : List (String × Json)}
    (h : ∀ f ∈ fields, Reads (indentedChars (level + 1) f.2) f.2) :
    Reads (indentedChars level (.object fields)) (.object fields) := by
  have hopen : Lexes ['\x7b'] [.openBrace] := .token (by decide) fun _ => rfl
  have hclose : Lexes ['\x7d'] [.closeBrace] := .token (by decide) fun _ => rfl
  cases fields with
  | nil => exact ⟨[.openBrace, .closeBrace], hopen.append hclose, fun _ => rfl⟩
  | cons f fields =>
    obtain ⟨name, v⟩ := f
    obtain ⟨vs, hvs, hv⟩ := h (name, v) List.mem_cons_self
    obtain ⟨ts, hts, hrun⟩ := lexes_fields ((Lexes.newLine level).append hclose) fun f hf =>
      h f (List.mem_cons_of_mem _ hf)
    refine ⟨.openBrace :: .text name :: .colon :: (vs ++ ts), ?_, fun stack => ?_⟩
    · have hcolon : Lexes [':'] [.colon] := .token (by decide) fun _ => rfl
      have hblank : Lexes [' '] [] := .blank rfl
      have hall := hopen.append ((Lexes.newLine (level + 1)).append ((Lexes.quoted name).append
        (hcolon.append (hblank.append (hvs.append hts)))))
      simpa [indentedChars] using hall
    · show (vs ++ ts).foldlM State.step? (.value (.object [] true name :: stack)) = _
      rw [List.foldlM_append, hv]
      exact hrun name v [] stack

/-- A value made of texts, arrays and objects, which are nested at most so deep. -/
def Textual : Nat → Json → Prop
  | _, .string _ => True
  | n + 1, .array items => ∀ v ∈ items, Textual n v
  | n + 1, .object fields => ∀ f ∈ fields, Textual n f.2
  | _, _ => False

/-- A bound on the nesting may be raised. -/
theorem Textual.mono {n m : Nat} {v : Json} (h : Textual n v) (hle : n ≤ m) : Textual m v := by
  induction n generalizing m v with
  | zero =>
    cases v with
    | string s => cases m <;> exact trivial
    | _ => cases h
  | succ n ih =>
    obtain ⟨m, rfl⟩ : ∃ k, m = k + 1 := ⟨m - 1, by omega⟩
    have hle : n ≤ m := by omega
    cases v with
    | string s => exact trivial
    | array items => exact fun v hv => ih (h v hv) hle
    | object fields => exact fun f hf => ih (h f hf) hle
    | _ => cases h

theorem textual_array_map {α : Type} {n : Nat} {write : α → Json} {l : List α}
    (h : ∀ a ∈ l, Textual n (write a)) : Textual (n + 1) (.array (l.map write)) := by
  intro v hv
  obtain ⟨a, ha, rfl⟩ := List.mem_map.1 hv
  exact h a ha

/-- A textual value is read from its indented form, wherever that is indented to. -/
theorem Textual.reads {n : Nat} {v : Json} (h : Textual n v) (level : Nat) :
    Reads (indentedChars level v) v := by
  induction n generalizing v level with
  | zero =>
    cases v with
    | string s => exact reads_quoted s
    | _ => cases h
  | succ n ih =>
    cases v with
    | string s => exact reads_quoted s
    | array items => exact reads_array fun v hv => ih (h v hv) (level + 1)
    | object fields => exact reads_object fun f hf => ih (h f hf) (level + 1)
    | _ => cases h

/-- The indented text of a value is read back. -/
theorem parse?_indented {n : Nat} {v : Json} (h : Textual n v) : parse? v.indented = some v := by
  obtain ⟨ts, hlexes, hrun⟩ := h.reads 0
  rw [parse?, indented, String.toList_ofList, tokens?_of_lexes hlexes]
  show ofTokens? ts = some v
  rw [ofTokens?, hrun]
  rfl

/-! ## Reading as a whole -/

theorem denotesItems_iff {items : List Json} :
    denotesItems items = true ↔ ∀ v ∈ items, v.denotes = true := by
  induction items with
  | nil => simp [denotesItems]
  | cons v items ih => simp [denotesItems, ih]

theorem denotesFields_iff {fields : List (String × Json)} :
    denotesFields fields = true ↔ ∀ f ∈ fields, f.2.denotes = true := by
  induction fields with
  | nil => simp [denotesFields]
  | cons f fields ih => rw [denotesFields, Bool.and_eq_true, ih, List.forall_mem_cons]

theorem depthItems_le_iff {items : List Json} {n : Nat} :
    depthItems items ≤ n ↔ ∀ v ∈ items, v.depth ≤ n := by
  induction items with
  | nil => simp [depthItems]
  | cons v items ih => rw [depthItems, Nat.max_le, ih, List.forall_mem_cons]

theorem depthFields_le_iff {fields : List (String × Json)} {n : Nat} :
    depthFields fields ≤ n ↔ ∀ f ∈ fields, f.2.depth ≤ n := by
  induction fields with
  | nil => simp [depthFields]
  | cons f fields ih => rw [depthFields, Nat.max_le, ih, List.forall_mem_cons]

/-- A textual value denotes one, and is no deeper than its bound. -/
theorem Textual.denotes_and_depth_le {n : Nat} {v : Json} (h : Textual n v) :
    v.denotes = true ∧ v.depth ≤ n := by
  induction n generalizing v with
  | zero =>
    cases v with
    | string s => exact ⟨rfl, Nat.le_refl 0⟩
    | _ => cases h
  | succ n ih =>
    cases v with
    | string s => exact ⟨rfl, Nat.zero_le _⟩
    | array items =>
      refine ⟨denotesItems_iff.2 fun v hv => (ih (h v hv)).1, ?_⟩
      exact Nat.succ_le_succ (depthItems_le_iff.2 fun v hv => (ih (h v hv)).2)
    | object fields =>
      refine ⟨denotesFields_iff.2 fun f hf => (ih (h f hf)).1, ?_⟩
      exact Nat.succ_le_succ (depthFields_le_iff.2 fun f hf => (ih (h f hf)).2)
    | _ => cases h

/-- A textual value is accepted if there is room for it under what is around it. -/
theorem Textual.readable {n outer : Nat} {v : Json} (h : Textual n v) (hn : n + outer ≤ maxDepth) :
    v.readable outer = true := by
  obtain ⟨hdenotes, hdepth⟩ := h.denotes_and_depth_le
  have hle : v.depth + outer ≤ maxDepth := by omega
  simp [Json.readable, hdenotes, hle]

end SchemaSymbols.Json

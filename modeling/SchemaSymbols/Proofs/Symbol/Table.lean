/-
  Symbol tables: what is filed after a change, and what stays.

  A table changes in two ways only.  A new symbol leaves all bound members alone, and bound members
  leave all symbols alone; the lookups after each of them are the simp lemmas and equations under
  the first headings.

  Symbols are never replaced by a resolution, so a later table `Extends` an earlier one, and what
  was looked up once can be looked up again.  That is the one fact about growing tables that proofs
  about resolutions use.

  A table is searched for two declared types of one name in the order of their shapes.  The search
  is characterised from both sides: it finds nothing exactly if no two of them have one name
  (`collisionIn?_eq_none`), and what it finds are two different shapes that do
  (`of_collisionIn?_eq_some`).  From there `checkNames` fails for such a pair only, and a table that
  passes it tells its declared types apart by their names (`shape_eq_of_checkNames`).
-/
import SchemaSymbols.Proofs.Sorted
import SchemaSymbols.Symbol.Table

namespace SchemaSymbols.SymbolTable

variable {t t' t'' : SymbolTable} {id : ShapeId} {s symbol : Symbol} {members : List Binding}

theorem contains_iff : t.contains id = true ↔ ∃ symbol, t.get? id = some symbol :=
  Sorted.contains_iff_find?

theorem contains_of_get? (h : t.get? id = some symbol) : t.contains id = true :=
  contains_iff.2 ⟨symbol, h⟩

theorem contains_eq_false_iff : t.contains id = false ↔ t.get? id = none :=
  Sorted.contains_eq_false_iff

/-- A symbol is filed under its shape. -/
theorem get?_shape (h : t.get? id = some symbol) : symbol.shape = id := by
  have hkey : symbol.key = id := Sorted.key_of_find? h
  exact hkey

/-- A shape is bound if its members were filed. -/
theorem isBound_iff : t.isBound id = true ↔ ∃ members, t.members? id = some members := by
  rw [isBound, Sorted.contains_iff_find?]
  constructor
  · rintro ⟨b, hb⟩
    exact ⟨b.members, by rw [members?, hb]; rfl⟩
  · rintro ⟨ms, hms⟩
    obtain ⟨b, hb, -⟩ := Option.map_eq_some_iff.1 hms
    exact ⟨b, hb⟩

/-! ## A new symbol -/

/-- After a new symbol, its shape has it, and the others have what they had. -/
theorem get?_addSymbol :
    (t.addSymbol s).get? id = if s.shape = id then some s else t.get? id :=
  Sorted.find?_insert t.symbols s id

theorem contains_addSymbol :
    (t.addSymbol s).contains id = true ↔ s.shape = id ∨ t.contains id = true :=
  Sorted.contains_insert

@[simp] theorem members?_addSymbol : (t.addSymbol s).members? id = t.members? id := rfl

@[simp] theorem isBound_addSymbol : (t.addSymbol s).isBound id = t.isBound id := rfl

theorem length_keys (t : SymbolTable) : t.symbols.keys.length = t.size := List.length_map _

theorem size_le_addSymbol (t : SymbolTable) (s : Symbol) : t.size ≤ (t.addSymbol s).size := by
  have hkept : ∀ id ∈ t.symbols.keys, (t.addSymbol s).symbols.contains id = true := fun id hid =>
    contains_addSymbol.2 (Or.inr (Sorted.mem_keys.1 hid))
  rw [← length_keys]
  exact Sorted.length_le_size (Sorted.nodup_keys t.symbols) hkept

/-- The table grows if the shape had no symbol. -/
theorem size_lt_addSymbol (h : t.contains s.shape = false) : t.size < (t.addSymbol s).size := by
  have hnodup : (s.shape :: t.symbols.keys).Nodup := by
    refine List.nodup_cons.2 ⟨fun hmem => ?_, Sorted.nodup_keys t.symbols⟩
    rw [contains, Sorted.mem_keys.1 hmem] at h
    cases h
  have hkept : ∀ id ∈ s.shape :: t.symbols.keys, (t.addSymbol s).symbols.contains id = true := by
    intro id hid
    rcases List.mem_cons.1 hid with rfl | hid
    · exact contains_addSymbol.2 (Or.inl rfl)
    · exact contains_addSymbol.2 (Or.inr (Sorted.mem_keys.1 hid))
  have hle := Sorted.length_le_size hnodup hkept
  rwa [List.length_cons, length_keys] at hle

/-! ## New bound members -/

@[simp] theorem get?_bind {owner : ShapeId} : (t.bind owner members).get? id = t.get? id := rfl

@[simp] theorem contains_bind {owner : ShapeId} :
    (t.bind owner members).contains id = t.contains id := rfl

/-- After members are bound, their owner has them, and the others have what they had. -/
theorem members?_bind {owner : ShapeId} :
    (t.bind owner members).members? id = if owner = id then some members else t.members? id := by
  rw [members?, bind, Sorted.find?_insert]
  by_cases h : owner = id
  · rw [if_pos h, if_pos h]; rfl
  · rw [if_neg h, if_neg h]; rfl

theorem isBound_bind {owner : ShapeId} :
    (t.bind owner members).isBound id = true ↔ owner = id ∨ t.isBound id = true :=
  Sorted.contains_insert

/-! ## Growth -/

/-- A table has all symbols of another one. -/
def Extends (t' t : SymbolTable) : Prop :=
  ∀ id symbol, t.get? id = some symbol → t'.get? id = some symbol

theorem Extends.rfl : t.Extends t := fun _ _ h => h

theorem Extends.trans (h : t''.Extends t') (h' : t'.Extends t) : t''.Extends t :=
  fun id symbol hget => h id symbol (h' id symbol hget)

theorem Extends.contains (h : t'.Extends t) (hid : t.contains id = true) :
    t'.contains id = true := by
  obtain ⟨symbol, hget⟩ := contains_iff.1 hid
  exact contains_of_get? (h id symbol hget)

/-- A symbol of a shape that has none replaces nothing. -/
theorem extends_addSymbol (h : t.contains s.shape = false) : (t.addSymbol s).Extends t := by
  intro id symbol hget
  rw [get?_addSymbol]
  split
  · rename_i he
    rw [he, contains_of_get? hget] at h
    cases h
  · exact hget

/-! ## Names -/

theorem sameName_iff {a b : Symbol} :
    sameName a b = true ↔ a.scope = b.scope ∧ a.displayName = b.displayName := by
  rw [sameName, Bool.and_eq_true, decide_eq_true_iff, decide_eq_true_iff]

/-- No collision is found if no symbol has the name of one before it. -/
theorem collisionIn?_eq_none {seen l : List Symbol} :
    collisionIn? seen l = none ↔
      (∀ s ∈ l, ∀ earlier ∈ seen, ¬ sameName s earlier = true) ∧
        l.Pairwise fun earlier s => ¬ sameName s earlier = true := by
  induction l generalizing seen with
  | nil => exact ⟨fun _ => ⟨nofun, .nil⟩, fun _ => rfl⟩
  | cons s l ih =>
    rw [collisionIn?]
    cases hfind : seen.find? (sameName s) with
    | some earlier =>
      refine ⟨nofun, fun h => absurd (List.find?_some hfind) ?_⟩
      exact h.1 s List.mem_cons_self earlier (List.mem_of_find?_eq_some hfind)
    | none =>
      have hnone := List.find?_eq_none.1 hfind
      show collisionIn? (s :: seen) l = none ↔ _
      -- `s` moves from the list to the symbols seen, and its pairs with it
      rw [ih, List.pairwise_cons]
      constructor
      · rintro ⟨hseen, hpairs⟩
        refine ⟨List.forall_mem_cons.2 ⟨hnone, fun k hk e he => ?_⟩, fun k hk => ?_, hpairs⟩
        · exact hseen k hk e (List.mem_cons_of_mem _ he)
        · exact hseen k hk s List.mem_cons_self
      · rintro ⟨hseen, hs, hpairs⟩
        refine ⟨fun k hk => List.forall_mem_cons.2 ⟨hs k hk, fun e he => ?_⟩, hpairs⟩
        exact hseen k (List.mem_cons_of_mem _ hk) e he

/-- A collision is one between symbols of two shapes, if no shape has two symbols. -/
theorem of_collisionIn?_eq_some {seen l : List Symbol} {a b : Symbol}
    (hseen : ∀ s ∈ l, ∀ earlier ∈ seen, earlier.shape ≠ s.shape)
    (hl : l.Pairwise fun earlier s => earlier.shape ≠ s.shape)
    (h : collisionIn? seen l = some (a, b)) :
    (a ∈ seen ∨ a ∈ l) ∧ b ∈ l ∧ a.shape ≠ b.shape ∧ sameName b a = true := by
  induction l generalizing seen with
  | nil => cases h
  | cons s l ih =>
    rw [collisionIn?] at h
    obtain ⟨hs, hl⟩ := List.pairwise_cons.1 hl
    cases hfind : seen.find? (sameName s) with
    | some earlier =>
      rw [hfind] at h
      cases h
      have ha := List.mem_of_find?_eq_some hfind
      exact ⟨Or.inl ha, List.mem_cons_self, hseen b List.mem_cons_self a ha,
        List.find?_some hfind⟩
    | none =>
      rw [hfind] at h
      -- what was apart from `seen` is apart from `s` too, because `l` has each shape once
      have hseen' : ∀ k ∈ l, ∀ earlier ∈ s :: seen, earlier.shape ≠ k.shape := fun k hk =>
        List.forall_mem_cons.2 ⟨hs k hk, hseen k (List.mem_cons_of_mem _ hk)⟩
      obtain ⟨ha, hb, hne, hsame⟩ := ih hseen' hl h
      refine ⟨?_, List.mem_cons_of_mem _ hb, hne, hsame⟩
      rcases ha with ha | ha
      · exact (List.mem_cons.1 ha).elim (fun e => Or.inr (e ▸ List.mem_cons_self)) Or.inl
      · exact Or.inr (List.mem_cons_of_mem _ ha)

theorem get?_of_mem_declared (h : s ∈ t.declared) :
    t.get? s.shape = some s ∧ s.isDeclared = true := by
  obtain ⟨hmem, hdeclared⟩ := List.mem_filter.1 h
  exact ⟨Sorted.find?_of_mem hmem, hdeclared⟩

theorem mem_declared_of_get? (h : t.get? id = some s) (hdeclared : s.isDeclared = true) :
    s ∈ t.declared :=
  List.mem_filter.2 ⟨Sorted.mem_of_find? h, hdeclared⟩

theorem pairwise_declared (t : SymbolTable) :
    t.declared.Pairwise fun a b => a.shape ≠ b.shape := by
  have hkeys := t.symbols.nodup_keys
  rw [Sorted.keys, List.nodup_iff_pairwise_ne, List.pairwise_map] at hkeys
  exact hkeys.filter _

/-- Names are refused only for two declared types that share one. -/
theorem of_checkNames_eq_error {e : Fault} (h : t.checkNames = .error e) :
    ∃ a b, a ∈ t.declared ∧ b ∈ t.declared ∧ a.shape ≠ b.shape ∧ a.scope = b.scope ∧
      a.displayName = b.displayName ∧
      e = .declarationCollision b.displayName a.shape b.shape := by
  rw [checkNames] at h
  cases hfound : collisionIn? [] t.declared with
  | none => rw [hfound] at h; cases h
  | some pair =>
    obtain ⟨a, b⟩ := pair
    rw [hfound] at h
    cases h
    obtain ⟨ha, hb, hne, hsame⟩ := of_collisionIn?_eq_some
      (fun _ _ _ hearlier => absurd hearlier List.not_mem_nil) t.pairwise_declared hfound
    obtain ⟨hscope, hname⟩ := sameName_iff.1 hsame
    exact ⟨a, b, ha.resolve_left List.not_mem_nil, hb, hne, hscope.symm, hname.symm, rfl⟩

/-- Names that are not refused tell declared types apart. -/
theorem shape_eq_of_checkNames {a b : Symbol} (h : t.checkNames = .ok ()) (ha : a ∈ t.declared)
    (hb : b ∈ t.declared) (hscope : a.scope = b.scope) (hname : a.displayName = b.displayName) :
    a.shape = b.shape := by
  rw [checkNames] at h
  cases hfound : collisionIn? [] t.declared with
  | some pair => rw [hfound] at h; cases h
  | none =>
    -- two declared types with one name would stand in one order or the other
    have hpairs := (collisionIn?_eq_none.1 hfound).2
    refine List.Pairwise.forall_of_forall_of_flip
      (R := fun x y : Symbol => x.scope = y.scope → x.displayName = y.displayName →
        x.shape = y.shape) (fun _ _ _ _ => rfl) ?_ ?_ ha hb hscope hname
    · exact hpairs.imp fun hapart hs hn => absurd (sameName_iff.2 ⟨hs.symm, hn.symm⟩) hapart
    · exact hpairs.imp fun hapart hs hn => absurd (sameName_iff.2 ⟨hs, hn⟩) hapart

end SchemaSymbols.SymbolTable

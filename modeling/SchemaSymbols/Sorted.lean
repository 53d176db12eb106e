/-
  Sorted collections: a list kept strictly increasing in a key of its elements.

  One type serves for sets (the key is the element itself), for maps whose values carry their own
  key, and for tables of records.  Order and absence of repetition live in the type, so two
  collections are equal as soon as their lists are, and every listing comes out in key order.

  Main statements: `insert` keeps the order, `find?_insert_self` and `find?_insert_of_ne` say what
  a lookup sees after an insertion, and `ext_find?` that lookups determine the collection.
-/

namespace SchemaSymbols

open Std

/-- A list that increases strictly in `key`. -/
structure Sorted {α κ : Type} [Ord κ] (key : α → κ) where
  toList : List α
  sorted : toList.Pairwise (fun a b => compare (key a) (key b) = .lt)

namespace Sorted

variable {α κ : Type} [Ord κ] {key : α → κ}

/-- The collection without elements. -/
def empty : Sorted key := ⟨[], .nil⟩

instance : Inhabited (Sorted key) := ⟨empty⟩

instance : EmptyCollection (Sorted key) := ⟨empty⟩

instance : Membership α (Sorted key) := ⟨fun s a => a ∈ s.toList⟩

theorem mem_def {s : Sorted key} {a : α} : a ∈ s ↔ a ∈ s.toList := Iff.rfl

theorem ext_toList {s t : Sorted key} (h : s.toList = t.toList) : s = t := by
  cases s; cases t; cases h; rfl

instance [DecidableEq α] : DecidableEq (Sorted key) := fun s t =>
  if h : s.toList = t.toList then isTrue (ext_toList h)
  else isFalse fun e => h (congrArg toList e)

instance [Repr α] : Repr (Sorted key) := ⟨fun s n => reprPrec s.toList n⟩

/-- The element filed under `k`. -/
def find? (s : Sorted key) (k : κ) : Option α :=
  s.toList.find? fun a => compare (key a) k == .eq

/-- Whether something is filed under `k`. -/
def contains (s : Sorted key) (k : κ) : Bool := (s.find? k).isSome

/-- The number of elements. -/
def size (s : Sorted key) : Nat := s.toList.length

/-- Whether there is no element. -/
def isEmpty (s : Sorted key) : Bool := s.toList.isEmpty

/-- The keys, in increasing order. -/
def keys (s : Sorted key) : List κ := s.toList.map key

/-! ## Insertion -/

/-- Puts `a` at its place in a sorted list; an element of the same key gives way to it. -/
def insertIn (key : α → κ) (a : α) : List α → List α
  | [] => [a]
  | b :: rest =>
    match compare (key a) (key b) with
    | .lt => a :: b :: rest
    | .eq => a :: rest
    | .gt => b :: insertIn key a rest

/-- What is in the list after an insertion was there before, or is the new element. -/
theorem mem_insertIn {a x : α} {l : List α} (h : x ∈ insertIn key a l) : x = a ∨ x ∈ l := by
  induction l with
  | nil => simpa [insertIn] using h
  | cons b rest ih =>
    rw [insertIn] at h
    split at h
    · simpa using h
    · rcases List.mem_cons.1 h with h | h
      · exact .inl h
      · exact .inr (List.mem_cons_of_mem _ h)
    · rcases List.mem_cons.1 h with h | h
      · exact .inr (h ▸ List.mem_cons_self)
      · exact (ih h).imp id (List.mem_cons_of_mem _)

/-- Inserting an element keeps a list in order. -/
theorem pairwise_insertIn [TransOrd κ] (a : α) {l : List α}
    (h : l.Pairwise fun a b => compare (key a) (key b) = .lt) :
    (insertIn key a l).Pairwise fun a b => compare (key a) (key b) = .lt := by
  induction l with
  | nil => simp [insertIn]
  | cons b rest ih =>
    obtain ⟨hb, hrest⟩ := List.pairwise_cons.1 h
    rw [insertIn]
    split
    · next hlt =>
      refine List.pairwise_cons.2 ⟨fun x hx => ?_, h⟩
      rcases List.mem_cons.1 hx with rfl | hx
      · exact hlt
      · exact TransCmp.lt_trans hlt (hb x hx)
    · next heq =>
      exact List.pairwise_cons.2 ⟨fun x hx => (TransCmp.congr_left heq).trans (hb x hx), hrest⟩
    · next hgt =>
      refine List.pairwise_cons.2 ⟨fun x hx => ?_, ih hrest⟩
      rcases mem_insertIn hx with rfl | hx
      · exact OrientedCmp.gt_iff_lt.1 hgt
      · exact hb x hx

/-- Files `a` under its key; an element filed there before gives way to it. -/
def insert [TransOrd κ] (s : Sorted key) (a : α) : Sorted key :=
  ⟨insertIn key a s.toList, pairwise_insertIn a s.sorted⟩

/-- Files the elements of a list one after the other, so the last of equal keys stays. -/
def insertAll [TransOrd κ] (s : Sorted key) (l : List α) : Sorted key := l.foldl insert s

/-- The collection of the elements of a list. -/
def ofList [TransOrd κ] (l : List α) : Sorted key := insertAll empty l

/-- The elements that pass a test. -/
def filter (p : α → Bool) (s : Sorted key) : Sorted key :=
  ⟨s.toList.filter p, s.sorted.filter p⟩

/-! ## What lookups see -/

theorem key_of_find? [LawfulEqOrd κ] {s : Sorted key} {k : κ} {a : α} (h : s.find? k = some a) :
    key a = k := by
  have := List.find?_some h
  exact Std.compare_eq_iff_eq.1 (by simpa using this)

theorem mem_of_find? {s : Sorted key} {k : κ} {a : α} (h : s.find? k = some a) : a ∈ s :=
  List.mem_of_find?_eq_some h

/-- In a sorted list the element under a key is the only one there. -/
theorem find?_of_mem [TransOrd κ] [LawfulEqOrd κ] {s : Sorted key} {a : α} (h : a ∈ s) :
    s.find? (key a) = some a := by
  obtain ⟨l, hl⟩ := s
  change a ∈ l at h
  change l.find? _ = some a
  induction l with
  | nil => simp at h
  | cons b rest ih =>
    obtain ⟨hb, hrest⟩ := List.pairwise_cons.1 hl
    rcases List.mem_cons.1 h with rfl | h
    · simp [ReflCmp.compare_self]
    · have hlt := hb a h
      simp [List.find?, hlt, ih hrest h]

theorem find?_eq_some_iff [TransOrd κ] [LawfulEqOrd κ] {s : Sorted key} {k : κ} {a : α} :
    s.find? k = some a ↔ a ∈ s ∧ key a = k :=
  ⟨fun h => ⟨mem_of_find? h, key_of_find? h⟩, fun h => h.2 ▸ find?_of_mem h.1⟩

theorem contains_iff [TransOrd κ] [LawfulEqOrd κ] {s : Sorted key} {k : κ} :
    s.contains k = true ↔ ∃ a ∈ s, key a = k := by
  rw [contains, Option.isSome_iff_exists]
  exact ⟨fun ⟨a, h⟩ => ⟨a, find?_eq_some_iff.1 h⟩, fun ⟨a, h⟩ => ⟨a, find?_eq_some_iff.2 h⟩⟩

/-- What was inserted is in the collection. -/
theorem mem_insert_self [TransOrd κ] (s : Sorted key) (a : α) : a ∈ s.insert a := by
  obtain ⟨l, hl⟩ := s
  change a ∈ insertIn key a l
  clear hl
  induction l with
  | nil => simp [insertIn]
  | cons b rest ih =>
    rw [insertIn]
    split <;> simp [ih]

theorem find?_insert_self [TransOrd κ] [LawfulEqOrd κ] (s : Sorted key) (a : α) :
    (s.insert a).find? (key a) = some a :=
  find?_of_mem (mem_insert_self s a)

/-- Under other keys, what is found is what was found before. -/
theorem find?_insert_of_ne [TransOrd κ] [LawfulEqOrd κ] (s : Sorted key) {a : α} {k : κ}
    (h : key a ≠ k) : (s.insert a).find? k = s.find? k := by
  have hne : (compare (key a) k == .eq) = false := by
    simpa using h
  obtain ⟨l, hl⟩ := s
  change (insertIn key a l).find? _ = l.find? _
  clear hl
  induction l with
  | nil => simp [insertIn, List.find?, hne]
  | cons b rest ih =>
    rw [insertIn]
    split
    · simp [List.find?, hne]
    · next heq =>
      have : key a = key b := Std.compare_eq_iff_eq.1 heq
      rw [List.find?, List.find?, hne, ← this, hne]
    · simp only [List.find?]
      split <;> simp_all

theorem find?_insert [TransOrd κ] [LawfulEqOrd κ] [DecidableEq κ] (s : Sorted key) (a : α) (k : κ) :
    (s.insert a).find? k = if key a = k then some a else s.find? k := by
  split
  · next h => exact h ▸ find?_insert_self s a
  · next h => exact find?_insert_of_ne s h

/-- Two strictly increasing lists with the same elements are the same list. -/
theorem eq_of_mem_iff [TransOrd κ] {l m : List α}
    (hl : l.Pairwise fun a b => compare (key a) (key b) = .lt)
    (hm : m.Pairwise fun a b => compare (key a) (key b) = .lt)
    (h : ∀ a, a ∈ l ↔ a ∈ m) : l = m := by
  induction l generalizing m with
  | nil =>
    cases m with
    | nil => rfl
    | cons b m => exact absurd ((h b).2 List.mem_cons_self) (by simp)
  | cons a l ih =>
    cases m with
    | nil => exact absurd ((h a).1 List.mem_cons_self) (by simp)
    | cons b m =>
      obtain ⟨ha, hl'⟩ := List.pairwise_cons.1 hl
      obtain ⟨hb, hm'⟩ := List.pairwise_cons.1 hm
      have irr : ∀ x : α, compare (key x) (key x) ≠ .lt := fun x hx => by
        simp [ReflCmp.compare_self] at hx
      have hab : a = b := by
        rcases List.mem_cons.1 ((h a).1 List.mem_cons_self) with e | e
        · exact e
        · rcases List.mem_cons.1 ((h b).2 List.mem_cons_self) with e' | e'
          · exact e'.symm
          · exact absurd (TransCmp.lt_trans (ha b e') (hb a e)) (irr a)
      subst hab
      congr 1
      refine ih hl' hm' fun x => ⟨fun hx => ?_, fun hx => ?_⟩
      · rcases List.mem_cons.1 ((h x).1 (List.mem_cons_of_mem _ hx)) with e | e
        · exact absurd (ha x hx) (e ▸ irr x)
        · exact e
      · rcases List.mem_cons.1 ((h x).2 (List.mem_cons_of_mem _ hx)) with e | e
        · exact absurd (hb x hx) (e ▸ irr x)
        · exact e

/-- Lookups determine the collection. -/
theorem ext_find? [TransOrd κ] [LawfulEqOrd κ] {s t : Sorted key}
    (h : ∀ k, s.find? k = t.find? k) : s = t := by
  refine ext_toList (eq_of_mem_iff s.sorted t.sorted fun a => ⟨fun ha => ?_, fun ha => ?_⟩)
  · exact mem_of_find? (h (key a) ▸ find?_of_mem ha)
  · exact mem_of_find? (h (key a) ▸ find?_of_mem ha)

end Sorted

/-- A sorted set: every element is its own key. -/
abbrev SortedSet (α : Type) [Ord α] := Sorted (id : α → α)

end SchemaSymbols

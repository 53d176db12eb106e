/-
  What a sorted collection holds after its operations.

  `Sorted` keeps its list in key order, so an element is found by its key and by nothing else.  The
  lemmas here say it in the two forms that the rest of the library reasons with: which elements a
  collection has (`mem_insert`, `mem_filter`), and which keys it files (`contains_insert`,
  `perm_keys_insert`).  Keys are never repeated (`nodup_keys`), so a collection has room for no more
  than its size (`length_le_size`), and collections with the same keys list them alike (`keys_eq`).

  For a set the element is its own key, and both forms say the same.  Sets are equal if they have
  the same elements (`ext_mem`), whatever order these were put in.

  The last part is about lists that are sorted by a key when they are needed, and keep what they
  repeat.  A list without repetition is sorted strictly (`pairwise_lt_mergeSort`), and a sorted list
  is the sort of each of its permutations (`eq_sort_of_perm`).
-/
import Mathlib.Data.List.Perm.Subperm
import SchemaSymbols.ShapeId
import SchemaSymbols.Sorted

namespace SchemaSymbols.Sorted

open Std

section Keys

variable {α κ : Type} [Ord κ] {key : α → κ}

@[simp] theorem mem_filter {s : Sorted key} {p : α → Bool} {a : α} :
    a ∈ s.filter p ↔ a ∈ s ∧ p a = true :=
  List.mem_filter

theorem contains_iff_find? {s : Sorted key} {k : κ} :
    s.contains k = true ↔ ∃ a, s.find? k = some a := by
  rw [contains, Option.isSome_iff_exists]

theorem contains_eq_false_iff {s : Sorted key} {k : κ} :
    s.contains k = false ↔ s.find? k = none := by
  rw [contains, Option.isSome_eq_false_iff, Option.isNone_iff_eq_none]

/-- A list that increases strictly has no element twice. -/
theorem nodup_of_pairwise_lt [LawfulEqOrd κ] {l : List κ}
    (h : l.Pairwise fun a b => compare a b = .lt) : l.Nodup := by
  rw [List.nodup_iff_pairwise_ne]
  refine h.imp fun {a b} hlt heq => ?_
  rw [Std.compare_eq_iff_eq.2 heq] at hlt
  exact absurd hlt (by decide)

theorem nodup_keys [LawfulEqOrd κ] (s : Sorted key) : s.keys.Nodup :=
  nodup_of_pairwise_lt (List.pairwise_map.2 s.sorted)

/-- What does not stand before an element is not less than it. -/
theorem isLE_of_not_mem_before [LawfulEqOrd κ] {s : Sorted key} {before after : List α}
    {a b : α} (hsplit : s.toList = before ++ a :: after) (hb : b ∈ s) (hbefore : b ∉ before) :
    (compare (key a) (key b)).isLE = true := by
  have hsorted := s.sorted
  have hb : b ∈ s.toList := hb
  rw [hsplit] at hsorted hb
  rcases List.mem_append.1 hb with hb | hb
  · exact absurd hb hbefore
  rcases List.mem_cons.1 hb with rfl | hb
  · exact ReflCmp.isLE_rfl
  · have hlt : compare (key a) (key b) = .lt :=
      (List.pairwise_cons.1 (List.pairwise_append.1 hsorted).2.1).1 b hb
    rw [hlt]
    rfl

end Keys

section Lookup

variable {α κ : Type} [Ord κ] [TransOrd κ] [LawfulEqOrd κ] {key : α → κ}

theorem mem_iff_find? {s : Sorted key} {a : α} : a ∈ s ↔ s.find? (key a) = some a :=
  ⟨find?_of_mem, mem_of_find?⟩

/-- An insertion files the new element, and drops what was filed under its key. -/
theorem mem_insert {s : Sorted key} {a x : α} :
    x ∈ s.insert a ↔ x = a ∨ (x ∈ s ∧ key a ≠ key x) := by
  rw [mem_iff_find?]
  by_cases h : key a = key x
  · rw [← h, find?_insert_self]
    constructor
    · intro e
      exact Or.inl (Option.some.inj e).symm
    · rintro (e | ⟨-, hne⟩)
      · rw [e]
      · exact absurd rfl hne
  · rw [find?_insert_of_ne s h, ← mem_iff_find?]
    constructor
    · exact fun hx => Or.inr ⟨hx, h⟩
    · rintro (rfl | ⟨hx, -⟩)
      · exact absurd rfl h
      · exact hx

theorem contains_of_mem {s : Sorted key} {a : α} (h : a ∈ s) : s.contains (key a) = true :=
  contains_iff.2 ⟨a, h, rfl⟩

/-- After an insertion the keys are those from before and the new one. -/
theorem contains_insert {s : Sorted key} {a : α} {k : κ} :
    (s.insert a).contains k = true ↔ key a = k ∨ s.contains k = true := by
  by_cases h : key a = k
  · subst h
    exact ⟨fun _ => Or.inl rfl, fun _ => contains_of_mem (mem_insert_self s a)⟩
  · rw [contains, find?_insert_of_ne s h, ← contains]
    exact ⟨Or.inr, fun hor => hor.resolve_left h⟩

theorem mem_keys {s : Sorted key} {k : κ} : k ∈ s.keys ↔ s.contains k = true := by
  rw [keys, List.mem_map, contains_iff]
  rfl

/-- After an insertion under a new key, the keys are the new one and those from before. -/
theorem perm_keys_insert {s : Sorted key} {a : α} (h : s.contains (key a) = false) :
    (s.insert a).keys.Perm (key a :: s.keys) := by
  have hnew : key a ∉ s.keys := by
    rw [mem_keys, h]
    exact Bool.false_ne_true
  refine (List.perm_ext_iff_of_nodup (nodup_keys _) (List.nodup_cons.2 ⟨hnew, nodup_keys s⟩)).2 ?_
  intro k
  rw [mem_keys, contains_insert, List.mem_cons, mem_keys, eq_comm]

/-- Collections that file the same keys list the same keys. -/
theorem keys_eq {s t : Sorted key} (h : ∀ k, s.contains k = t.contains k) : s.keys = t.keys := by
  have hsorted : ∀ u : Sorted key, u.keys.Pairwise fun a b => compare a b = .lt := fun u =>
    List.pairwise_map.2 u.sorted
  exact eq_of_mem_iff (hsorted s) (hsorted t) fun k => by rw [mem_keys, mem_keys, h]

/-- There are at least as many elements as different keys that something is filed under. -/
theorem length_le_size {s : Sorted key} {ks : List κ} (hnodup : ks.Nodup)
    (h : ∀ k ∈ ks, s.contains k = true) : ks.length ≤ s.size := by
  have hle := (hnodup.subperm fun k hk => mem_keys.2 (h k hk)).length_le
  rwa [keys, List.length_map] at hle

end Lookup

/-! ## Sets -/

section Set

variable {α : Type} [Ord α] [TransOrd α] [LawfulEqOrd α]

/-- In a set the key is the element, so nothing but `a` gives way to `a`. -/
theorem mem_insert_set {s : SortedSet α} {a x : α} : x ∈ s.insert a ↔ x = a ∨ x ∈ s := by
  rw [mem_insert]
  refine ⟨fun h => h.imp id And.left, fun h => ?_⟩
  by_cases hxa : x = a
  · exact Or.inl hxa
  · exact h.imp id fun hx => ⟨hx, fun e => hxa e.symm⟩

/-- After several insertions, a set has its own elements and the new ones. -/
theorem mem_insertAll {l : List α} {s : SortedSet α} {x : α} :
    x ∈ s.insertAll l ↔ x ∈ s ∨ x ∈ l := by
  induction l generalizing s with
  | nil => simp [insertAll]
  | cons a l ih =>
    have hstep : s.insertAll (a :: l) = (s.insert a).insertAll l := rfl
    rw [hstep, ih, mem_insert_set, List.mem_cons, or_assoc, or_left_comm]

theorem mem_ofList {l : List α} {x : α} : x ∈ (ofList l : SortedSet α) ↔ x ∈ l := by
  have hempty : ¬ x ∈ (empty : SortedSet α) := List.not_mem_nil
  rw [ofList, mem_insertAll]
  exact ⟨fun h => h.resolve_left hempty, Or.inr⟩

theorem contains_set_iff {s : SortedSet α} {x : α} : s.contains x = true ↔ x ∈ s := by
  rw [contains_iff]
  exact ⟨fun ⟨a, ha, hax⟩ => hax ▸ ha, fun hx => ⟨x, hx, rfl⟩⟩

/-- An element that is there changes nothing. -/
theorem insert_of_mem {s : SortedSet α} {a : α} (h : a ∈ s) : s.insert a = s := by
  refine ext_find? fun k => ?_
  by_cases he : a = k
  · subst he
    exact (find?_insert_self s a).trans (find?_of_mem h).symm
  · exact find?_insert_of_ne s he

omit [LawfulEqOrd α] in
/-- Sets with the same elements are one set. -/
theorem ext_mem {s t : SortedSet α} (h : ∀ x, x ∈ s ↔ x ∈ t) : s = t :=
  ext_toList (eq_of_mem_iff s.sorted t.sorted h)

end Set

end SchemaSymbols.Sorted

namespace SchemaSymbols

open Std

/-! ## Sorted lists -/

section Sorting

variable {α κ : Type} [Ord κ] [TransOrd κ] (key : α → κ)

theorem pairwise_isLE_mergeSort (l : List α) :
    (l.mergeSort fun a b => (compare (key a) (key b)).isLE).Pairwise fun a b =>
      (compare (key a) (key b)).isLE = true := by
  refine List.pairwise_mergeSort (fun a b c => TransCmp.isLE_trans) (fun a b => ?_) l
  have hswap : compare (key b) (key a) = (compare (key a) (key b)).swap := OrientedCmp.eq_swap
  rw [hswap, Bool.or_eq_true]
  cases compare (key a) (key b) <;> simp

/-- Where no key is repeated the order is strict. -/
theorem pairwise_lt_mergeSort [LawfulEqOrd κ] {l : List α}
    (h : l.Pairwise fun a b => key a ≠ key b) :
    (l.mergeSort fun a b => (compare (key a) (key b)).isLE).Pairwise fun a b =>
      compare (key a) (key b) = .lt := by
  refine (pairwise_isLE_mergeSort key l).imp₂ (fun a b hle hne => ?_)
    ((List.Perm.pairwise_iff (fun hab => Ne.symm hab) (List.mergeSort_perm l _)).2 h)
  cases hcompare : compare (key a) (key b) with
  | lt => rfl
  | eq => exact absurd (compare_eq_iff_eq.1 hcompare) hne
  | gt => rw [hcompare] at hle; cases hle

end Sorting

namespace ShapeId

variable {ids : List ShapeId} {x : ShapeId}

theorem mem_sort : x ∈ sort ids ↔ x ∈ ids := (List.mergeSort_perm ids le).mem_iff

/-- Identifiers that differ are sorted strictly. -/
theorem pairwise_sort (h : ids.Nodup) : (sort ids).Pairwise fun a b => compare a b = .lt :=
  pairwise_lt_mergeSort id h

/-- Identifiers in order are what sorting makes of their permutations. -/
theorem eq_sort_of_perm {sorted : List ShapeId} (perm : sorted.Perm ids)
    (h : sorted.Pairwise fun a b => a.le b = true) : sorted = sort ids := by
  refine (perm.trans (List.mergeSort_perm ids le).symm).eq_of_pairwise ?_ h
    (pairwise_isLE_mergeSort id ids)
  exact fun a b _ _ hab hba => compare_eq_iff_eq.1 (OrientedCmp.isLE_antisymm hab hba)

end ShapeId

end SchemaSymbols

/-
  Counting what is left.

  Searches and walks end because something is left each time: shapes not seen, symbols not made,
  members not bound.  What is left is a filtered list of nodes, weighted by what each node still
  costs, and a step that settles a node takes its weight away.
-/
import Mathlib.Algebra.GroupWithZero.Nat

namespace SchemaSymbols

variable {α : Type} {l : List α} {p q : α → Bool}

/-- A stronger filter leaves no more weight. -/
theorem sum_filter_le (weight : α → Nat) (h : ∀ x ∈ l, q x = true → p x = true) :
    ((l.filter q).map weight).sum ≤ ((l.filter p).map weight).sum := by
  induction l with
  | nil => simp
  | cons b l ih =>
    have hrest := ih fun x hx => h x (List.mem_cons_of_mem _ hx)
    by_cases hq : q b = true
    · rw [List.filter_cons_of_pos hq, List.filter_cons_of_pos (h b List.mem_cons_self hq)]
      simp only [List.map_cons, List.sum_cons]
      omega
    · rw [List.filter_cons_of_neg hq]
      by_cases hp : p b = true
      · rw [List.filter_cons_of_pos hp]
        simp only [List.map_cons, List.sum_cons]
        omega
      · rw [List.filter_cons_of_neg hp]
        exact hrest

/-- If `q` lets through what `p` does, except `a`, then the weight of `a` is saved. -/
theorem sum_filter_add_le (weight : α → Nat) {a : α} (h : ∀ x ∈ l, q x = true → p x = true)
    (ha : a ∈ l) (hp : p a = true) (hq : q a = false) :
    ((l.filter q).map weight).sum + weight a ≤ ((l.filter p).map weight).sum := by
  obtain ⟨before, after, rfl⟩ := List.append_of_mem ha
  have hbefore : ((before.filter q).map weight).sum ≤ ((before.filter p).map weight).sum :=
    sum_filter_le weight fun x hx => h x (List.mem_append_left _ hx)
  have hafter : ((after.filter q).map weight).sum ≤ ((after.filter p).map weight).sum :=
    sum_filter_le weight fun x hx => h x (List.mem_append_right _ (List.mem_cons_of_mem _ hx))
  have hdrop : (a :: after).filter q = after.filter q :=
    List.filter_cons_of_neg (by rw [hq]; exact Bool.false_ne_true)
  rw [List.filter_append, List.filter_append, hdrop, List.filter_cons_of_pos hp]
  simp only [List.map_append, List.sum_append, List.map_cons, List.sum_cons]
  omega

theorem length_filter_lt {a : α} (h : ∀ x ∈ l, q x = true → p x = true)
    (ha : a ∈ l) (hp : p a = true) (hq : q a = false) :
    (l.filter q).length < (l.filter p).length := by
  have hone := sum_filter_add_le (fun _ => 1) h ha hp hq
  simp only [List.map_const', List.sum_replicate_nat, Nat.mul_one] at hone
  omega

theorem sum_filter_le_sum (weight : α → Nat) :
    ((l.filter p).map weight).sum ≤ (l.map weight).sum := by
  have hall := sum_filter_le (q := p) (p := fun _ => true) (l := l) weight fun _ _ _ => rfl
  rwa [List.filter_eq_self.2 fun _ _ => rfl] at hall

/-- Adding up along a list is adding up the list. -/
theorem foldl_add_eq_sum (weight : α → Nat) (start : Nat) :
    l.foldl (fun sum x => sum + weight x) start = start + (l.map weight).sum := by
  induction l generalizing start with
  | nil => rfl
  | cons b l ih => rw [List.foldl_cons, ih, List.map_cons, List.sum_cons, Nat.add_assoc]

end SchemaSymbols

/-
  The rounds of a search are the distances from its seeds.

  `Distance` is the least number of steps from a seed.  A search goes level by level, so after `i`
  rounds it has seen what at most `i` steps lead to, and its frontier is what no fewer than `i`
  steps lead to.  `AtRound` states both, and one round keeps it (`AtRound.next`).

  Because a shortest way passes through every smaller distance (`Distance.exists_of_le`), an empty
  frontier means that no distance from there on occurs (`AtRound.not_exists_distance`), and the
  distances that occur are those below the number of levels (`AtRound.exists_distance_iff`, by
  induction on the budget).  For a search among the shapes of a graph the budget is enough
  (`Graph.exists_distance_iff`).
-/
import Mathlib.Order.Bounds.Basic
import SchemaSymbols.Proofs.Graph.Levels

namespace SchemaSymbols

open Relation Std

/-! ## Distances -/

section Distance

variable {α : Type} {start : α → Prop} {leads : α → α → Prop} {n : Nat} {a : α}

/-- `a` is reached from a start by exactly `n` steps. -/
def ReachedIn (start : α → Prop) (leads : α → α → Prop) : Nat → α → Prop
  | 0, a => start a
  | n + 1, a => ∃ x, ReachedIn start leads n x ∧ leads x a

/-- The shortest way from a start to `a` has `n` steps. -/
def Distance (start : α → Prop) (leads : α → α → Prop) (n : Nat) (a : α) : Prop :=
  IsLeast {n | ReachedIn start leads n a} n

/-- What is reached in some number of steps is what steps lead to from the start. -/
theorem exists_reachedIn_iff :
    (∃ n, ReachedIn start leads n a) ↔ ∃ x, start x ∧ ReflTransGen leads x a := by
  constructor
  · rintro ⟨n, hn⟩
    induction n generalizing a with
    | zero => exact ⟨a, hn, .refl⟩
    | succ n ih =>
      obtain ⟨y, hy, hya⟩ := hn
      obtain ⟨x, hx, hxy⟩ := ih hy
      exact ⟨x, hx, hxy.tail hya⟩
  · rintro ⟨x, hx, hxa⟩
    induction hxa with
    | refl => exact ⟨0, hx⟩
    | tail _ hyz ih =>
      obtain ⟨n, hn⟩ := ih
      exact ⟨n + 1, _, hn, hyz⟩

/-- A shortest way is one step longer than a shortest way to the element before. -/
theorem Distance.exists_pred (h : Distance start leads (n + 1) a) :
    ∃ x, Distance start leads n x ∧ leads x a := by
  obtain ⟨⟨x, hx, hxa⟩, hleast⟩ := h
  refine ⟨x, ⟨hx, fun k hk => ?_⟩, hxa⟩
  have hle : n + 1 ≤ k + 1 := hleast ⟨x, hk, hxa⟩
  omega

/-- Shorter distances occur as well. -/
theorem Distance.exists_of_le {m : Nat} (h : Distance start leads n a) (hle : m ≤ n) :
    ∃ x, Distance start leads m x := by
  induction n generalizing a with
  | zero => exact ⟨a, (Nat.le_zero.1 hle) ▸ h⟩
  | succ n ih =>
    rcases Nat.lt_or_eq_of_le hle with hlt | rfl
    · obtain ⟨x, hx, -⟩ := h.exists_pred
      exact ih hx (by omega)
    · exact ⟨a, h⟩

end Distance

/-! ## Rounds -/

section Rounds

variable {α : Type} [Ord α] [TransOrd α] [LawfulEqOrd α] {step : α → List α} {start : α → Prop}
  {i : Nat} {seen frontier : SortedSet α}

/-- What the rounds of a search have seen: all that at most `i` steps lead to, and in the frontier
    what no fewer steps do. -/
structure AtRound (start : α → Prop) (step : α → List α) (i : Nat)
    (seen frontier : SortedSet α) : Prop where
  seen : ∀ a, a ∈ seen ↔ ∃ n ≤ i, ReachedIn start (fun x y => y ∈ step x) n a
  frontier : ∀ a, a ∈ frontier ↔ Distance start (fun x y => y ∈ step x) i a

omit [TransOrd α] [LawfulEqOrd α] in
theorem AtRound.first (h : ∀ a, a ∈ frontier ↔ start a) :
    AtRound start step 0 frontier frontier := by
  refine ⟨fun a => (h a).trans ⟨fun ha => ⟨0, Nat.le_refl _, ha⟩, ?_⟩, fun a => (h a).trans ?_⟩
  · rintro ⟨n, hn, ha⟩
    obtain rfl := Nat.le_zero.1 hn
    exact ha
  · exact ⟨fun ha => ⟨ha, fun n _ => Nat.zero_le n⟩, fun ha => ha.1⟩

/-- What is seen after one more round is what one more step leads to. -/
theorem AtRound.mem_seenNext (h : AtRound start step i seen frontier) {a : α} :
    a ∈ seenNext step seen frontier ↔
      ∃ n ≤ i + 1, ReachedIn start (fun x y => y ∈ step x) n a := by
  rw [SchemaSymbols.mem_seenNext, h.seen]
  constructor
  · rintro (⟨n, hn, ha⟩ | ⟨x, hx, hxa⟩)
    · exact ⟨n, by omega, ha⟩
    · exact ⟨i + 1, Nat.le_refl _, x, ((h.frontier x).1 hx).1, hxa⟩
  · rintro ⟨n, hn, ha⟩
    rcases Nat.lt_or_eq_of_le hn with hlt | rfl
    · exact Or.inl ⟨n, by omega, ha⟩
    · obtain ⟨x, hx, hxa⟩ := ha
      by_cases hfront : x ∈ frontier
      · exact Or.inr ⟨x, hfront, hxa⟩
      · -- a shorter way leads to `x`, and so to `a`
        have hshort : ∃ k < i, ReachedIn start (fun x y => y ∈ step x) k x := by
          by_contra hnone
          refine hfront ((h.frontier x).2 ⟨hx, fun k hk => ?_⟩)
          exact Nat.le_of_not_lt fun hlt => hnone ⟨k, hlt, hk⟩
        obtain ⟨k, hk, hkx⟩ := hshort
        exact Or.inl ⟨k + 1, hk, x, hkx, hxa⟩

/-- One round. -/
theorem AtRound.next (h : AtRound start step i seen frontier) :
    AtRound start step (i + 1) (seenNext step seen frontier) (nextLevel step seen frontier) := by
  refine ⟨fun a => h.mem_seenNext, fun a => ?_⟩
  have hnew : a ∈ nextLevel step seen frontier ↔ a ∈ seenNext step seen frontier ∧ a ∉ seen := by
    rw [mem_nextLevel, SchemaSymbols.mem_seenNext]
    constructor
    · exact fun ha => ⟨Or.inr ha.1, ha.2⟩
    · exact fun ha => ⟨ha.1.resolve_left ha.2, ha.2⟩
  rw [hnew, h.mem_seenNext, h.seen]
  constructor
  · rintro ⟨⟨n, hn, ha⟩, hnone⟩
    have hlater : ∀ k, ReachedIn start (fun x y => y ∈ step x) k a → i + 1 ≤ k :=
      fun k hk => Nat.lt_of_not_le fun hle => hnone ⟨k, hle, hk⟩
    obtain rfl : n = i + 1 := Nat.le_antisymm hn (hlater n ha)
    exact ⟨ha, hlater⟩
  · rintro ⟨ha, hleast⟩
    refine ⟨⟨i + 1, Nat.le_refl _, ha⟩, ?_⟩
    rintro ⟨n, hn, hna⟩
    have hle : i + 1 ≤ n := hleast hna
    omega

omit [TransOrd α] [LawfulEqOrd α] in
/-- Where the frontier is empty, no greater distance occurs. -/
theorem AtRound.not_exists_distance (h : AtRound start step i seen frontier)
    (hnil : frontier.toList = []) {d : Nat} (hd : i ≤ d) :
    ¬ ∃ a, Distance start (fun x y => y ∈ step x) d a := by
  rintro ⟨a, ha⟩
  obtain ⟨x, hx⟩ := ha.exists_of_le hd
  have hmem : x ∈ frontier := (h.frontier x).2 hx
  rw [Sorted.mem_def, hnil] at hmem
  exact absurd hmem List.not_mem_nil

/-- A search that can go on lists a level for every distance that is left. -/
theorem AtRound.exists_distance_iff {domain : List α} {fuel : Nat}
    (closed : ∀ x ∈ domain, ∀ y ∈ step x, y ∈ domain) (h : AtRound start step i seen frontier)
    (searching : Searching step domain fuel seen frontier) {d : Nat} (hd : i ≤ d) :
    (∃ a, Distance start (fun x y => y ∈ step x) d a) ↔
      d < i + (levelsFrom step fuel seen frontier).length := by
  induction fuel generalizing i seen frontier with
  | zero =>
    have hnil := searching.budget.resolve_right (Nat.not_lt_zero _)
    rw [levelsFrom, List.length_nil]
    exact ⟨fun ha => absurd ha (h.not_exists_distance hnil hd), fun hlt => by omega⟩
  | succ fuel ih =>
    rw [levelsFrom_succ]
    by_cases hempty : frontier.isEmpty = true
    · have hnil := List.isEmpty_iff.1 hempty
      rw [if_pos hempty, List.length_nil]
      exact ⟨fun ha => absurd ha (h.not_exists_distance hnil hd), fun hlt => by omega⟩
    · have hne : frontier.toList ≠ [] := fun e => hempty (List.isEmpty_iff.2 e)
      rw [if_neg hempty, List.length_cons]
      rcases Nat.lt_or_eq_of_le hd with hlt | rfl
      · rw [ih h.next (searching.next closed hne) hlt]
        omega
      · -- the frontier itself is at the distance asked for
        obtain ⟨a, ha⟩ := List.exists_mem_of_ne_nil _ hne
        exact ⟨fun _ => by omega, fun _ => ⟨a, (h.frontier a).1 ha⟩⟩

end Rounds

/-! ## Searches in a graph -/

/-- The levels of a search in a graph are as many as the distances that occur. -/
theorem Graph.exists_distance_iff {g : Graph} {step : ShapeId → List ShapeId}
    {seeds : SortedSet ShapeId} (hseeds : ∀ x ∈ seeds, g.contains x = true)
    (hstep : ∀ x, g.contains x = true → ∀ y ∈ step x, g.contains y = true) {d : Nat} :
    (∃ a, Distance (· ∈ seeds) (fun x y => y ∈ step x) d a) ↔ d < (g.levels step seeds).length := by
  have h : AtRound (· ∈ seeds) step 0 seeds seeds := .first fun _ => Iff.rfl
  have hlevels := h.exists_distance_iff (keys_closed hstep) (searching_levels hseeds)
    (Nat.zero_le d)
  rwa [Nat.zero_add] at hlevels

end SchemaSymbols

/-
  The levels of a search hold exactly what can be reached.

  `levelsFrom` keeps a set of elements seen and a frontier.  Two facts carry the proof.

  1. **Nothing else is found.**  Every level consists of elements that steps lead to from the
     frontier (`reached_of_mem_levelsFrom`).

  2. **Nothing is missed.**  As long as the elements seen lead nowhere new except from the frontier,
     the search ends with a set that no step leads out of (`levelsFrom_closed`).  This needs the
     budget: every round sees an element of a finite domain for the first time
     (`unseen_seenNext_lt`), so the budget outlasts the search.  `Searching` is what a round keeps.

  For the same reason more budget changes nothing (`levelsFrom_add`).

  `mem_levels` applies both to a search among the shapes of a graph; from it `mem_surface` and
  `mem_roots` say which shapes a resolution of everything starts from.
-/
import SchemaSymbols.Proofs.Counting
import SchemaSymbols.Proofs.Graph.References
import SchemaSymbols.Resolution.Resolver

namespace SchemaSymbols

open Relation Std

/-! ## Any search -/

section Search

variable {α : Type} [Ord α] [TransOrd α] {step : α → List α}

/-- The elements that a round sees first. -/
def nextLevel (step : α → List α) (seen frontier : SortedSet α) : SortedSet α :=
  (Sorted.ofList (frontier.toList.flatMap step)).filter fun a => !seen.contains a

/-- The elements seen when a round is over. -/
def seenNext (step : α → List α) (seen frontier : SortedSet α) : SortedSet α :=
  seen.insertAll (nextLevel step seen frontier).toList

/-- One round of a search: the frontier is a level, unless it is empty. -/
theorem levelsFrom_succ (fuel : Nat) (seen frontier : SortedSet α) :
    levelsFrom step (fuel + 1) seen frontier =
      if frontier.isEmpty then []
      else frontier :: levelsFrom step fuel (seenNext step seen frontier)
        (nextLevel step seen frontier) :=
  rfl

/-- A search with any budget lists its frontier. -/
theorem mem_levelsFrom_of_mem {fuel : Nat} {seen frontier : SortedSet α} {a : α} (hpos : 0 < fuel)
    (ha : a ∈ frontier) : a ∈ (levelsFrom step fuel seen frontier).flatMap Sorted.toList := by
  obtain ⟨fuel, rfl⟩ := Nat.exists_eq_succ_of_ne_zero (Nat.ne_of_gt hpos)
  have hne : ¬ frontier.isEmpty = true := fun e => List.ne_nil_of_mem ha (List.isEmpty_iff.1 e)
  rw [levelsFrom_succ, if_neg hne]
  exact List.mem_append_left _ ha

/-- The elements of a domain that were not seen. -/
def unseen (domain : List α) (seen : SortedSet α) : List α :=
  domain.filter fun a => !seen.contains a

variable [LawfulEqOrd α]

theorem mem_nextLevel {seen frontier : SortedSet α} {y : α} :
    y ∈ nextLevel step seen frontier ↔ (∃ x ∈ frontier, y ∈ step x) ∧ y ∉ seen := by
  rw [nextLevel, Sorted.mem_filter, Sorted.mem_ofList, List.mem_flatMap, Bool.not_eq_true',
    ← Bool.not_eq_true, Sorted.contains_set_iff]
  rfl

theorem mem_seenNext {seen frontier : SortedSet α} {y : α} :
    y ∈ seenNext step seen frontier ↔ y ∈ seen ∨ ∃ x ∈ frontier, y ∈ step x := by
  rw [seenNext, Sorted.mem_insertAll, ← Sorted.mem_def, mem_nextLevel]
  by_cases h : y ∈ seen <;> simp [h]

/-- What a search lists is reached from its frontier. -/
theorem reached_of_mem_levelsFrom {fuel : Nat} {seen frontier : SortedSet α} {a : α}
    (h : a ∈ (levelsFrom step fuel seen frontier).flatMap Sorted.toList) :
    ∃ x ∈ frontier, ReflTransGen (fun x y => y ∈ step x) x a := by
  induction fuel generalizing seen frontier with
  | zero => exact absurd h List.not_mem_nil
  | succ fuel ih =>
    rw [levelsFrom_succ] at h
    split at h
    · exact absurd h List.not_mem_nil
    · rw [List.flatMap_cons, List.mem_append] at h
      rcases h with h | h
      · exact ⟨a, h, .refl⟩
      · obtain ⟨y, hy, hya⟩ := ih h
        obtain ⟨⟨x, hx, hxy⟩, -⟩ := mem_nextLevel.1 hy
        exact ⟨x, hx, .head hxy hya⟩

/-- A round that sees a new element of the domain leaves fewer to see. -/
theorem unseen_seenNext_lt {domain : List α} {seen frontier : SortedSet α} {a : α}
    (hd : a ∈ domain) (ha : a ∈ nextLevel step seen frontier) :
    (unseen domain (seenNext step seen frontier)).length < (unseen domain seen).length := by
  obtain ⟨hfront, hnew⟩ := mem_nextLevel.1 ha
  refine length_filter_lt (fun x _ hx => ?_) hd ?_ ?_
  · rw [Bool.not_eq_true', ← Bool.not_eq_true, Sorted.contains_set_iff] at hx ⊢
    exact fun hseen => hx (mem_seenNext.2 (Or.inl hseen))
  · rw [Bool.not_eq_true', ← Bool.not_eq_true, Sorted.contains_set_iff]
    exact hnew
  · rw [Bool.not_eq_false', Sorted.contains_set_iff]
    exact mem_seenNext.2 (Or.inr hfront)

/-- A search that can go on: its frontier lies in the domain, the elements seen lead to elements not
    seen from the frontier only, and there is budget for every element that is left. -/
structure Searching (step : α → List α) (domain : List α) (fuel : Nat)
    (seen frontier : SortedSet α) : Prop where
  frontier_sub : ∀ x ∈ frontier, x ∈ domain
  seen_closed : ∀ x ∈ seen, x ∉ frontier → ∀ y ∈ step x, y ∈ seen
  budget : frontier.toList = [] ∨ (unseen domain seen).length < fuel

namespace Searching

variable {domain : List α} {fuel : Nat} {seen frontier : SortedSet α}

omit [TransOrd α] [LawfulEqOrd α] in
/-- A search with an empty frontier has seen everything that what it saw leads to. -/
theorem done (h : Searching step domain fuel seen frontier) (hnil : frontier.toList = []) {x y : α}
    (hx : x ∈ seen) (hy : y ∈ step x) : y ∈ seen := by
  have hxf : x ∉ frontier := by rw [Sorted.mem_def, hnil]; exact List.not_mem_nil
  exact h.seen_closed x hx hxf y hy

/-- One round keeps a search going. -/
theorem next (closed : ∀ x ∈ domain, ∀ y ∈ step x, y ∈ domain)
    (h : Searching step domain (fuel + 1) seen frontier) (hne : frontier.toList ≠ []) :
    Searching step domain fuel (seenNext step seen frontier) (nextLevel step seen frontier) := by
  have hsub : ∀ y ∈ nextLevel step seen frontier, y ∈ domain := by
    intro y hy
    obtain ⟨⟨x, hx, hxy⟩, -⟩ := mem_nextLevel.1 hy
    exact closed x (h.frontier_sub x hx) y hxy
  refine ⟨hsub, ?_, ?_⟩
  · intro x hx hxn y hy
    by_cases hxf : x ∈ frontier
    · exact mem_seenNext.2 (Or.inr ⟨x, hxf, hy⟩)
    · have hxs : x ∈ seen := (Sorted.mem_insertAll.1 hx).resolve_right hxn
      exact mem_seenNext.2 (Or.inl (h.seen_closed x hxs hxf y hy))
  · by_cases hlast : (nextLevel step seen frontier).toList = []
    · exact Or.inl hlast
    · obtain ⟨a, ha⟩ := List.exists_mem_of_ne_nil _ hlast
      have hfuel := h.budget.resolve_left hne
      have hlt := unseen_seenNext_lt (hsub a ha) ha
      exact Or.inr (by omega)

/-- What was seen when a round is over was seen before it or is listed after it. -/
theorem mem_of_seenNext (h : Searching step domain fuel (seenNext step seen frontier)
    (nextLevel step seen frontier)) {z : α} (hz : z ∈ seenNext step seen frontier) :
    z ∈ seen ∨ z ∈ (levelsFrom step fuel (seenNext step seen frontier)
      (nextLevel step seen frontier)).flatMap Sorted.toList := by
  rcases Sorted.mem_insertAll.1 hz with hz | hz
  · exact Or.inl hz
  · have hpos : 0 < fuel := by
      have := h.budget.resolve_left (List.ne_nil_of_mem hz)
      omega
    exact Or.inr (mem_levelsFrom_of_mem hpos hz)

end Searching

/-- A search that can go on ends with a set that no step leads out of. -/
theorem levelsFrom_closed {domain : List α} (closed : ∀ x ∈ domain, ∀ y ∈ step x, y ∈ domain)
    {fuel : Nat} {seen frontier : SortedSet α} (h : Searching step domain fuel seen frontier) :
    ∀ x, (x ∈ seen ∨ x ∈ (levelsFrom step fuel seen frontier).flatMap Sorted.toList) →
      ∀ y ∈ step x, y ∈ seen ∨ y ∈ (levelsFrom step fuel seen frontier).flatMap Sorted.toList := by
  induction fuel generalizing seen frontier with
  | zero =>
    intro x hx y hy
    have hnil := h.budget.resolve_right (Nat.not_lt_zero _)
    exact Or.inl (h.done hnil (hx.resolve_right List.not_mem_nil) hy)
  | succ fuel ih =>
    intro x hx y hy
    rw [levelsFrom_succ] at hx ⊢
    by_cases hempty : frontier.isEmpty = true
    · rw [if_pos hempty] at hx ⊢
      exact Or.inl (h.done (List.isEmpty_iff.1 hempty) (hx.resolve_right List.not_mem_nil) hy)
    · have hnext := h.next closed fun e => hempty (List.isEmpty_iff.2 e)
      have hrest := ih hnext
      rw [if_neg hempty, List.flatMap_cons, List.mem_append] at hx ⊢
      -- after the round the element is seen or listed; so is, by induction, what it leads to
      have hy' : y ∈ seenNext step seen frontier ∨ y ∈ (levelsFrom step fuel
          (seenNext step seen frontier) (nextLevel step seen frontier)).flatMap Sorted.toList := by
        rcases hx with hx | hx | hx
        · exact hrest x (Or.inl (mem_seenNext.2 (Or.inl hx))) y hy
        · exact Or.inl (mem_seenNext.2 (Or.inr ⟨x, hx, hy⟩))
        · exact hrest x (Or.inr hx) y hy
      rcases hy' with hy' | hy'
      · exact (hnext.mem_of_seenNext hy').imp_right Or.inr
      · exact Or.inr (Or.inr hy')

/-- A search that can go on comes to an end within its budget: with more of it, it is the same. -/
theorem levelsFrom_add {domain : List α} (closed : ∀ x ∈ domain, ∀ y ∈ step x, y ∈ domain)
    {fuel : Nat} {seen frontier : SortedSet α} (h : Searching step domain fuel seen frontier)
    (more : Nat) :
    levelsFrom step (fuel + more) seen frontier = levelsFrom step fuel seen frontier := by
  induction fuel generalizing seen frontier with
  | zero =>
    have hnil := h.budget.resolve_right (Nat.not_lt_zero _)
    cases more with
    | zero => rfl
    | succ more =>
      have hempty : frontier.isEmpty = true := List.isEmpty_iff.2 hnil
      rw [Nat.zero_add, levelsFrom_succ, if_pos hempty]
      rfl
  | succ fuel ih =>
    rw [Nat.succ_add, levelsFrom_succ, levelsFrom_succ]
    by_cases hempty : frontier.isEmpty = true
    · rw [if_pos hempty, if_pos hempty]
    · rw [if_neg hempty, if_neg hempty, ih (h.next closed fun e => hempty (List.isEmpty_iff.2 e))]

end Search

/-! ## Searches in a graph -/

namespace Graph

variable {g : Graph}

/-- A search from seeds in the graph can go on until all shapes are seen. -/
theorem searching_levels {step : ShapeId → List ShapeId} {seeds : SortedSet ShapeId}
    (hseeds : ∀ x ∈ seeds, g.contains x = true) :
    Searching step g.nodes.keys (g.size + 1) seeds seeds := by
  have hlen : (unseen g.nodes.keys seeds).length < g.size + 1 := by
    have hle := List.length_filter_le (fun a => !seeds.contains a) g.nodes.keys
    have hkeys : g.nodes.keys.length = g.size := List.length_map _
    rw [unseen]
    omega
  exact ⟨fun x hx => Sorted.mem_keys.2 (hseeds x hx), fun _ hx hxf => absurd hx hxf, Or.inr hlen⟩

/-- Steps that do not leave the graph do not leave its identifiers. -/
theorem keys_closed {step : ShapeId → List ShapeId}
    (hstep : ∀ x, g.contains x = true → ∀ y ∈ step x, g.contains y = true) :
    ∀ x ∈ g.nodes.keys, ∀ y ∈ step x, y ∈ g.nodes.keys :=
  fun x hx y hy => Sorted.mem_keys.2 (hstep x (Sorted.mem_keys.1 hx) y hy)

/-- A search in a graph lists exactly what steps lead to from the seeds, if neither the seeds nor
    the steps leave the graph. -/
theorem mem_levels {step : ShapeId → List ShapeId} {seeds : SortedSet ShapeId}
    (hseeds : ∀ x ∈ seeds, g.contains x = true)
    (hstep : ∀ x, g.contains x = true → ∀ y ∈ step x, g.contains y = true) {a : ShapeId} :
    a ∈ (g.levels step seeds).flatMap Sorted.toList ↔
      ∃ x ∈ seeds, ReflTransGen (fun x y => y ∈ step x) x a := by
  refine ⟨reached_of_mem_levelsFrom, ?_⟩
  rintro ⟨x, hx, hxa⟩
  have hclosed := levelsFrom_closed (keys_closed hstep) (searching_levels hseeds)
  -- the seeds are the first level, so being seen is being listed
  have hlisted : ∀ z, (z ∈ seeds ∨ z ∈ (g.levels step seeds).flatMap Sorted.toList) →
      z ∈ (g.levels step seeds).flatMap Sorted.toList := by
    rintro z (hz | hz)
    · exact mem_levelsFrom_of_mem (Nat.succ_pos _) hz
    · exact hz
  induction hxa with
  | refl => exact hlisted x (Or.inl hx)
  | tail _ hyz ih => exact hlisted _ (hclosed _ (Or.inr ih) _ hyz)

/-- The budget of a search in a graph does not cut it off. -/
theorem levelsFrom_eq_levels {step : ShapeId → List ShapeId} {seeds : SortedSet ShapeId}
    (hseeds : ∀ x ∈ seeds, g.contains x = true)
    (hstep : ∀ x, g.contains x = true → ∀ y ∈ step x, g.contains y = true) (more : Nat) :
    levelsFrom step (g.size + 1 + more) seeds seeds = g.levels step seeds :=
  levelsFrom_add (keys_closed hstep) (searching_levels hseeds) more

theorem mem_services {n : Node} :
    n ∈ g.services ↔ g.get? n.id = some n ∧ n.shape.isService = true := by
  rw [services, List.mem_filter]
  exact and_congr_left fun _ => ⟨get?_of_mem, mem_nodes⟩

/-- The surface of a graph is what its services reach. -/
theorem WellFormed.mem_surface (wf : g.WellFormed) {id : ShapeId} :
    id ∈ g.surface ↔ ∃ service ∈ g.services, g.Reaches service.id id := by
  have hseeds : ∀ x ∈ (Sorted.ofList (g.services.map Node.id) : SortedSet ShapeId),
      g.contains x = true := by
    intro x hx
    obtain ⟨n, hn, rfl⟩ := List.mem_map.1 (Sorted.mem_ofList.1 hx)
    exact contains_of_get? (mem_services.1 hn).1
  have hsteps : (fun x y => y ∈ g.successors x) = g.Refers := by
    funext x y
    exact propext wf.mem_successors
  rw [surface, Sorted.mem_ofList, mem_levels hseeds
    (fun x _ y hy => wf.contains_of_refers (wf.mem_successors.1 hy)), hsteps]
  constructor
  · rintro ⟨x, hx, hreach⟩
    obtain ⟨n, hn, rfl⟩ := List.mem_map.1 (Sorted.mem_ofList.1 hx)
    exact ⟨n, hn, hreach⟩
  · rintro ⟨n, hn, hreach⟩
    exact ⟨n.id, Sorted.mem_ofList.2 (List.mem_map.2 ⟨n, hn, rfl⟩), hreach⟩

end Graph

/-- A step into a collection follows a reference. -/
theorem Resolver.refers_of_mem_elementTargets {g : Graph} {x y : ShapeId}
    (h : y ∈ elementTargets g x) : g.Refers x y := by
  rw [elementTargets] at h
  split at h
  · rename_i n hn
    obtain ⟨m, hm, rfl⟩ := List.mem_map.1 h
    exact Graph.refers_of_mem_elements hn hm
  · exact absurd h List.not_mem_nil

/-- In a well-formed graph the search from the members of a record or union does not leave it. -/
theorem Resolver.contains_of_mem_targets {g : Graph} {n : Node} (wf : g.WellFormed)
    (node : g.get? n.id = some n) :
    ∀ x ∈ (Sorted.ofList (n.shape.members.map Member.target) : SortedSet ShapeId),
      g.contains x = true := by
  intro x hx
  obtain ⟨m, hm, rfl⟩ := List.mem_map.1 (Sorted.mem_ofList.1 hx)
  exact wf.contains_of_refers (Graph.refers_of_mem_members node hm)

theorem Resolver.contains_of_mem_elementTargets {g : Graph} (wf : g.WellFormed) (x : ShapeId)
    (_ : g.contains x = true) : ∀ y ∈ elementTargets g x, g.contains y = true :=
  fun _ hy => wf.contains_of_refers (refers_of_mem_elementTargets hy)

/-- The search from the members of a record or union goes as far as collections lead. -/
theorem Resolver.mem_memberReach {g : Graph} {n : Node} {y : ShapeId} (wf : g.WellFormed)
    (node : g.get? n.id = some n) :
    y ∈ memberReach g n ↔
      ∃ m ∈ n.shape.members, ReflTransGen (fun x z => z ∈ elementTargets g x) m.target y := by
  rw [memberReach, Graph.mem_levels (contains_of_mem_targets wf node)
    (contains_of_mem_elementTargets wf)]
  constructor
  · rintro ⟨x, hx, hreach⟩
    obtain ⟨m, hm, rfl⟩ := List.mem_map.1 (Sorted.mem_ofList.1 hx)
    exact ⟨m, hm, hreach⟩
  · rintro ⟨m, hm, hreach⟩
    exact ⟨m.target, Sorted.mem_ofList.2 (List.mem_map.2 ⟨m, hm, rfl⟩), hreach⟩

/-- The roots of a resolution are the shapes that a generator is after. -/
theorem Resolver.mem_roots {r : Resolver} (wf : r.graph.WellFormed) {id : ShapeId} :
    id ∈ r.roots ↔ r.graph.Exposed id := by
  rw [Resolver.roots, Graph.Exposed]
  by_cases hnone : r.graph.services = []
  · simp [hnone, Sorted.mem_keys, Graph.contains]
  · have hmap : (r.graph.services.map Node.id).isEmpty = false := by simpa using hnone
    rw [if_neg (by rw [hmap]; exact Bool.false_ne_true), List.mem_append, List.mem_filter,
      ← Sorted.mem_def, wf.mem_surface]
    simp only [hnone, false_and, false_or]
    constructor
    · rintro (h | h)
      · obtain ⟨n, hn, rfl⟩ := List.mem_map.1 h
        exact ⟨n, hn, .refl⟩
      · exact h.1
    · intro h
      by_cases hserv : id ∈ r.graph.services.map Node.id
      · exact Or.inl hserv
      · exact Or.inr ⟨h, by simpa using hserv⟩

end SchemaSymbols

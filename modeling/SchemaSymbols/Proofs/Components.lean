/-
  The components that two searches find are the classes of mutual dependence, in order.

  1. **Explorations.**  `Explored` is what a depth-first search leaves behind, whatever it had seen
     before.  It never leaves through an edge, and an edge out of what was finished by the time of
     `y` leads to a node that was still open then, hence to one that leads to `y` (`returns`).
     Explorations compose (`Explored.append`, `Explored.cons`), so both facts go up from a node to
     its successors and from there to a whole search.

  2. **The finish order.**  The first search runs against the edges.  In its finish order, a node
     that the root of a tree of the second search leads to, and that no earlier tree has taken,
     leads back to that root.  This is the crux (`FinishOrder.leads_back`): the way from the root
     enters what was finished before through some edge, and that edge returns.

  3. **Layers.**  So each tree is one class, and its edges stay inside or go to earlier trees.
     `Layered` says it for a list of trees, and one tree more is one more layer (`Layered.cons`).

  4. **Searches.**  The program marks nodes as it goes and is bounded by a depth.  The nodes that
     are unseen are never more than that (`Explores.length_unseen_le`) and fewer with each visit, so
     the bound is not met before everything is explored (`visits`).

  `components_layered` puts the two searches together.
-/
import Mathlib.Data.List.Induction
import Mathlib.Data.List.Perm.Subperm
import Mathlib.Logic.Relation
import SchemaSymbols.Components
import SchemaSymbols.Proofs.Counting

namespace SchemaSymbols.Components

open Relation

variable {α : Type} {next : α → List α} {x y z : α}

/-- Edges lead from `x` to `y`, in any number of steps. -/
def Leads (next : α → List α) : α → α → Prop := ReflTransGen fun x y => y ∈ next x

/-- The nodes `x` and `y` lead to each other. -/
def Mutual (next : α → List α) (x y : α) : Prop := Leads next x y ∧ Leads next y x

theorem Leads.of_closed {P : α → Prop} (hclosed : ∀ y, P y → ∀ z ∈ next y, P z)
    (h : Leads next x y) (hx : P x) : P y := by
  induction h with
  | refl => exact hx
  | tail _ hyz ih => exact hclosed _ ih _ hyz

/-- A path into a set enters it by one of its edges. -/
theorem Leads.exists_entry {P : α → Prop} (h : Leads next x y) (hx : ¬ P x) (hy : P y) :
    ∃ z u, Leads next x z ∧ ¬ P z ∧ u ∈ next z ∧ P u ∧ Leads next u y := by
  induction h using ReflTransGen.head_induction_on with
  | refl => exact absurd hy hx
  | @head x w hxw hwy ih =>
    by_cases hw : P w
    · exact ⟨x, w, .refl, hx, hxw, hw, hwy⟩
    · obtain ⟨z, u, hwz, hrest⟩ := ih hw
      exact ⟨z, u, .head hxw hwz, hrest⟩

/-! ## Explorations -/

/-- What a search adds to its finished nodes, the latest first, after it had seen `seen`. -/
structure Explored (next : α → List α) (seen : α → Prop) (new : List α) : Prop where
  /-- A node is finished once. -/
  nodup : new.Nodup
  /-- It had not been seen. -/
  fresh : ∀ y ∈ new, ¬ seen y
  /-- Edges lead to nodes that have been seen by then. -/
  closed : ∀ y ∈ new, ∀ z ∈ next y, z ∈ new ∨ seen z
  /-- Edges that lead to a node finished after `y` lead back to `y`. -/
  returns : ∀ y b, y :: b <:+ new → ∀ u ∈ y :: b, ∀ z ∈ next u,
    z ∈ y :: b ∨ seen z ∨ Leads next z y

namespace Explored

variable {seen seen' : α → Prop} {new first : List α}

theorem nil : Explored next seen [] where
  nodup := .nil
  fresh := fun _ hy => absurd hy List.not_mem_nil
  closed := fun _ hy => absurd hy List.not_mem_nil
  returns := fun y b h => absurd (List.suffix_nil.1 h) (List.cons_ne_nil y b)

/-- One exploration after another. -/
theorem append (h : Explored next seen first) (h' : Explored next seen' new)
    (hseen : ∀ y, seen' y ↔ y ∈ first ∨ seen y) : Explored next seen (new ++ first) where
  nodup := by
    refine List.nodup_append.2 ⟨h'.nodup, h.nodup, fun a ha b hb he => ?_⟩
    exact h'.fresh a ha ((hseen a).2 (Or.inl (he ▸ hb)))
  fresh y hy := by
    rcases List.mem_append.1 hy with hy | hy
    · exact fun hs => h'.fresh y hy ((hseen y).2 (Or.inr hs))
    · exact h.fresh y hy
  closed y hy z hz := by
    rw [List.mem_append]
    rcases List.mem_append.1 hy with hy | hy
    · rcases h'.closed y hy z hz with hz | hz
      · exact Or.inl (Or.inl hz)
      · exact ((hseen z).1 hz).imp Or.inr id
    · exact (h.closed y hy z hz).imp Or.inr id
  returns y b hsuffix u hu z hz := by
    obtain ⟨a, ha⟩ := hsuffix
    rcases List.append_eq_append_iff.1 ha with ⟨c, hnew, hyb⟩ | ⟨c, -, hfirst⟩
    · cases c with
      | nil => exact h.returns y b ⟨[], hyb⟩ u hu z hz
      | cons y' c =>
        obtain ⟨rfl, rfl⟩ := List.cons.inj hyb
        rcases List.mem_append.1 (hyb ▸ hu : u ∈ (y :: c) ++ first) with hu | hu
        · rcases h'.returns y c ⟨a, hnew.symm⟩ u hu z hz with hz | hz | hz
          · exact Or.inl (List.mem_append_left first hz)
          · exact ((hseen z).1 hz).imp (List.mem_append_right (y :: c)) Or.inl
          · exact Or.inr (Or.inr hz)
        · exact (h.closed u hu z hz).imp (List.mem_append_right (y :: c)) Or.inl
    · exact h.returns y b ⟨c, hfirst.symm⟩ u hu z hz

/-- A node after all that it leads to. -/
theorem cons (hx : ¬ seen x) (h : Explored next seen' new) (hseen : ∀ y, seen' y ↔ y = x ∨ seen y)
    (hnext : ∀ y ∈ next x, y ∈ new ∨ seen' y) (hnew : ∀ y ∈ new, Leads next x y) :
    Explored next seen (x :: new) := by
  have hclosed : ∀ y ∈ x :: new, ∀ z ∈ next y, z ∈ x :: new ∨ seen z := by
    intro y hy z hz
    have hz : z ∈ new ∨ seen' z := by
      rcases List.mem_cons.1 hy with rfl | hy
      · exact hnext z hz
      · exact h.closed y hy z hz
    rw [hseen] at hz
    rcases hz with hz | rfl | hz
    · exact Or.inl (List.mem_cons_of_mem _ hz)
    · exact Or.inl List.mem_cons_self
    · exact Or.inr hz
  refine ⟨List.nodup_cons.2 ⟨fun hmem => ?_, h.nodup⟩, fun y hy => ?_, hclosed,
    fun y b hsuffix u hu z hz => ?_⟩
  · exact h.fresh x hmem ((hseen x).2 (Or.inl rfl))
  · rcases List.mem_cons.1 hy with rfl | hy
    · exact hx
    · exact fun hs => h.fresh y hy ((hseen y).2 (Or.inr hs))
  · rcases List.suffix_cons_iff.1 hsuffix with he | hsuffix
    · rw [he] at hu ⊢
      exact (hclosed u hu z hz).imp id Or.inl
    · have hy : y ∈ new := hsuffix.subset List.mem_cons_self
      rcases h.returns y b hsuffix u hu z hz with hz | hz | hz
      · exact Or.inl hz
      · -- the node itself is still open when `y` is finished
        rcases (hseen z).1 hz with rfl | hz
        · exact Or.inr (Or.inr (hnew y hy))
        · exact Or.inr (Or.inl hz)
      · exact Or.inr (Or.inr hz)

end Explored

/-! ## The finish order -/

/-- An edge into what was finished by the time of `y` comes from there, or from a node that `y`
leads to. -/
structure FinishOrder (next : α → List α) (l : List α) : Prop where
  nodup : l.Nodup
  closed : ∀ x ∈ l, ∀ y ∈ next x, y ∈ l
  entered : ∀ y b, y :: b <:+ l → ∀ u ∈ y :: b, ∀ z ∈ l, u ∈ next z → z ∈ y :: b ∨ Leads next y z

/-- Among what no earlier tree has taken, what the root `x` leads to leads back to it. -/
theorem FinishOrder.leads_back {seen : α → Prop} {before rest l l' : List α}
    (h : FinishOrder next (before ++ x :: rest)) (hclosed : ∀ y, seen y → ∀ z ∈ next y, seen z)
    (hbefore : ∀ y ∈ before, seen y) (hrest : rest = l ++ l') (hy : y ∈ l) (hfresh : ¬ seen y)
    (hxy : Leads next x y) : Leads next y x := by
  -- the induction is on the nodes between the root and `y`: a path enters the nodes from `y` on
  -- by an edge whose source comes earlier
  induction l using List.reverseRecOn generalizing y l' with
  | nil => exact absurd hy List.not_mem_nil
  | append_singleton l last ih =>
    rw [List.append_assoc, List.singleton_append] at hrest
    rcases List.mem_append.1 hy with hy | hy
    · exact ih hrest hy hfresh hxy
    · obtain rfl := List.mem_singleton.1 hy
      have hsplit : before ++ x :: rest = (before ++ x :: l) ++ y :: l' := by
        rw [hrest, List.append_assoc, List.cons_append]
      have hx : x ∉ y :: l' := by
        have hnodup := h.nodup
        rw [hsplit] at hnodup
        exact fun hx => (List.nodup_append.1 hnodup).2.2 x
          (List.mem_append_right _ List.mem_cons_self) x hx rfl
      obtain ⟨z, u, hxz, hz, hzu, hu, huy⟩ := hxy.exists_entry hx List.mem_cons_self
      have hmem : z ∈ before ++ x :: rest :=
        hxz.of_closed h.closed (List.mem_append_right _ List.mem_cons_self)
      have hyz : Leads next y z :=
        (h.entered y l' ⟨before ++ x :: l, hsplit.symm⟩ u hu z hmem hzu).resolve_left hz
      have hzfresh : ¬ seen z := fun hs =>
        hfresh (Leads.of_closed hclosed huy (hclosed z hs u hzu))
      rw [hsplit, List.mem_append, or_iff_left hz, List.mem_append, List.mem_cons] at hmem
      rcases hmem with hmem | rfl | hmem
      · exact absurd (hbefore z hmem) hzfresh
      · exact hyz
      · exact hyz.trans (ih hrest hmem hzfresh hxz)

/-- So what is explored from the root is its class. -/
theorem FinishOrder.mem_explored_iff {seen : α → Prop} {before rest new : List α}
    (h : FinishOrder next (before ++ x :: rest)) (hclosed : ∀ y, seen y → ∀ z ∈ next y, seen z)
    (hbefore : ∀ y ∈ before, seen y) (hnew : Explored next seen new) (hx : x ∈ new)
    (hleads : ∀ y ∈ new, Leads next x y) : y ∈ new ↔ Mutual next x y := by
  constructor
  · intro hy
    have hxy := hleads y hy
    have hfresh := hnew.fresh y hy
    have hmem : y ∈ before ++ x :: rest :=
      hxy.of_closed h.closed (List.mem_append_right _ List.mem_cons_self)
    refine ⟨hxy, ?_⟩
    rw [List.mem_append, List.mem_cons] at hmem
    rcases hmem with hmem | rfl | hmem
    · exact absurd (hbefore y hmem) hfresh
    · exact .refl
    · exact h.leads_back hclosed hbefore (List.append_nil rest).symm hmem hfresh hxy
  · rintro ⟨hxy, hyx⟩
    have hstays : y ∈ new ∨ seen y := by
      refine hxy.of_closed (P := fun u => u ∈ new ∨ seen u) (fun u hu z hz => ?_) (Or.inl hx)
      rcases hu with hu | hu
      · exact hnew.closed u hu z hz
      · exact Or.inr (hclosed u hu z hz)
    exact hstays.resolve_right fun hs => hnew.fresh x hx (hyx.of_closed hclosed hs)

/-! ## Layers -/

/-- Classes of mutual dependence, each after those it depends on, apart from `seen` nodes. -/
structure Layered (next : α → List α) (seen : α → Prop) (cs : List (List α)) : Prop where
  nodup : cs.flatten.Nodup
  fresh : ∀ x ∈ cs.flatten, ¬ seen x
  /-- Each one is the class of one of its nodes. -/
  classes : ∀ c ∈ cs, ∃ x ∈ c, ∀ y, y ∈ c ↔ Mutual next x y
  /-- An edge stays in its class, or leads to an earlier one. -/
  below : ∀ before c after, cs = before ++ c :: after →
    ∀ x ∈ c, ∀ y ∈ next x, y ∈ c ∨ y ∈ before.flatten ∨ seen y

/-- A class is that of each of its nodes. -/
theorem Layered.mem_iff_mutual {seen : α → Prop} {cs : List (List α)} {c : List α}
    (h : Layered next seen cs) (hc : c ∈ cs) (hx : x ∈ c) : y ∈ c ↔ Mutual next x y := by
  obtain ⟨root, -, hclass⟩ := h.classes c hc
  obtain ⟨hto, hfrom⟩ := (hclass x).1 hx
  rw [hclass]
  exact ⟨fun hy => ⟨hfrom.trans hy.1, hy.2.trans hto⟩, fun hy => ⟨hto.trans hy.1, hy.2.trans hfrom⟩⟩

theorem Layered.nil {seen : α → Prop} : Layered next seen [] where
  nodup := .nil
  fresh := fun _ hx => absurd hx List.not_mem_nil
  classes := fun _ hc => absurd hc List.not_mem_nil
  below := fun before c after h => absurd h.symm (List.append_ne_nil_of_right_ne_nil before
    (List.cons_ne_nil c after))

/-- One more tree in front is one more layer, if it is a class. -/
theorem Layered.cons {seen seen' : α → Prop} {c : List α} {cs : List (List α)}
    (hc : Explored next seen c) (hclass : ∃ x ∈ c, ∀ y, y ∈ c ↔ Mutual next x y)
    (h : Layered next seen' cs) (hseen : ∀ y, seen' y ↔ y ∈ c ∨ seen y) :
    Layered next seen (c :: cs) where
  nodup := by
    rw [List.flatten_cons]
    refine List.nodup_append.2 ⟨hc.nodup, h.nodup, fun a ha b hb he => ?_⟩
    exact h.fresh b hb ((hseen b).2 (Or.inl (he ▸ ha)))
  fresh x hx := by
    rw [List.flatten_cons] at hx
    rcases List.mem_append.1 hx with hx | hx
    · exact hc.fresh x hx
    · exact fun hs => h.fresh x hx ((hseen x).2 (Or.inr hs))
  classes d hd := by
    rcases List.mem_cons.1 hd with rfl | hd
    · exact hclass
    · exact h.classes d hd
  below before d after hsplit x hx y hy := by
    cases before with
    | nil =>
      obtain ⟨rfl, -⟩ := List.cons.inj hsplit
      exact (hc.closed x hx y hy).imp id Or.inr
    | cons c' before =>
      obtain ⟨rfl, hrest⟩ := List.cons.inj hsplit
      rw [List.flatten_cons, List.mem_append]
      rcases h.below before d after hrest x hx y hy with hy | hy | hy
      · exact Or.inl hy
      · exact Or.inr (Or.inl (Or.inr hy))
      · exact Or.inr (((hseen y).1 hy).imp Or.inl id)

/-! ## Searches -/

/-- The search goes from `s` to `s'`, exploring `new`. -/
structure Explores (next : α → List α) (s s' : Search α) (new : List α) : Prop where
  finished : s'.finished = new ++ s.finished
  discovered : ∀ y, y ∈ s'.discovered ↔ y ∈ new ∨ y ∈ s.discovered
  explored : Explored next (· ∈ s.discovered) new

theorem Explores.refl (s : Search α) : Explores next s s [] :=
  ⟨rfl, fun _ => (or_iff_right List.not_mem_nil).symm, .nil⟩

theorem Explores.trans {s s' s'' : Search α} {first new : List α} (h : Explores next s s' first)
    (h' : Explores next s' s'' new) : Explores next s s'' (new ++ first) where
  finished := by rw [h'.finished, h.finished, List.append_assoc]
  discovered y := by rw [h'.discovered, h.discovered, List.mem_append, or_assoc]
  explored := h.explored.append h'.explored h.discovered

variable [DecidableEq α] {nodes : List α}

/-- The nodes that a search has not seen. -/
def unseen (nodes : List α) (s : Search α) : List α := nodes.filter (· ∉ s.discovered)

theorem mem_unseen {s : Search α} : x ∈ unseen nodes s ↔ x ∈ nodes ∧ x ∉ s.discovered := by
  simp [unseen]

theorem Explores.length_unseen_le {s s' : Search α} {new : List α} (h : Explores next s s' new) :
    (unseen nodes s').length ≤ (unseen nodes s).length := by
  refine (List.monotone_filter_right nodes fun x hx => ?_).length_le
  simp only [decide_eq_true_eq] at hx ⊢
  exact fun hs => hx ((h.discovered x).2 (Or.inr hs))

/-- A node that was discovered is not visited again. -/
theorem visit_of_mem {s : Search α} (depth : Nat) (h : x ∈ s.discovered) :
    visit next depth s x = s := by
  cases depth with
  | zero => rfl
  | succ depth => rw [visit, if_pos h]

/-- What a search from one node explores, if it may go deep enough. -/
def Visits (next : α → List α) (nodes : List α) (depth : Nat) : Prop :=
  ∀ s x, x ∈ nodes → (unseen nodes s).length ≤ depth →
    ∃ new, Explores next s (visit next depth s x) new ∧ (∀ y ∈ new, Leads next x y) ∧
      (x ∈ new ∨ x ∈ s.discovered)

/-- Several visits explore what the nodes lead to, as long as the depth allows for one. -/
theorem Visits.foldl {depth : Nat} (h : Visits next nodes depth) {xs : List α} {s : Search α}
    (hxs : ∀ x ∈ xs, x ∈ nodes) (hdepth : (unseen nodes s).length ≤ depth) :
    ∃ new, Explores next s (xs.foldl (visit next depth) s) new ∧
      (∀ y ∈ new, ∃ x ∈ xs, Leads next x y) ∧ ∀ x ∈ xs, x ∈ new ∨ x ∈ s.discovered := by
  induction xs generalizing s with
  | nil =>
    exact ⟨[], .refl s, fun y hy => absurd hy List.not_mem_nil,
      fun x hx => absurd hx List.not_mem_nil⟩
  | cons x xs ih =>
    obtain ⟨first, hfirst, hleads, hx⟩ := h s x (hxs x List.mem_cons_self) hdepth
    obtain ⟨new, hnew, hleads', hrest⟩ := ih (fun y hy => hxs y (List.mem_cons_of_mem _ hy))
      (Nat.le_trans hfirst.length_unseen_le hdepth)
    refine ⟨new ++ first, hfirst.trans hnew, fun y hy => ?_, fun y hy => ?_⟩
    · rcases List.mem_append.1 hy with hy | hy
      · obtain ⟨w, hw, hwy⟩ := hleads' y hy
        exact ⟨w, List.mem_cons_of_mem _ hw, hwy⟩
      · exact ⟨x, List.mem_cons_self, hleads y hy⟩
    · rw [List.mem_append, or_assoc]
      rcases List.mem_cons.1 hy with rfl | hy
      · exact Or.inr hx
      · exact (hrest y hy).imp id (hfirst.discovered y).1

/-- A search explores what it has not seen: it can go as deep as there are such nodes. -/
theorem visits (hnext : ∀ x ∈ nodes, ∀ y ∈ next x, y ∈ nodes) (depth : Nat) :
    Visits next nodes depth := by
  induction depth with
  | zero =>
    intro s x hx hdepth
    have hseen : x ∈ s.discovered := Decidable.of_not_not fun hfresh =>
      absurd hdepth (Nat.not_le.2 (List.length_pos_of_mem (mem_unseen.2 ⟨hx, hfresh⟩)))
    exact ⟨[], .refl s, fun y hy => absurd hy List.not_mem_nil, Or.inr hseen⟩
  | succ depth ih =>
    intro s x hx hdepth
    by_cases hseen : x ∈ s.discovered
    · rw [visit_of_mem _ hseen]
      exact ⟨[], .refl s, fun y hy => absurd hy List.not_mem_nil, Or.inr hseen⟩
    · -- below `x` one node less is unseen
      have hfewer : (unseen nodes { s with discovered := x :: s.discovered }).length <
          (unseen nodes s).length := by
        refine length_filter_lt (fun y _ hy => ?_) hx ?_ ?_
        · simp only [List.mem_cons, decide_eq_true_eq, not_or] at hy ⊢
          exact hy.2
        · exact decide_eq_true hseen
        · exact decide_eq_false (not_not.2 List.mem_cons_self)
      obtain ⟨new, hnew, hleads, hall⟩ := ih.foldl (hnext x hx)
        (s := { s with discovered := x :: s.discovered }) (by omega)
      have hbelow : ∀ y ∈ new, Leads next x y := fun y hy => by
        obtain ⟨w, hw, hwy⟩ := hleads y hy
        exact ReflTransGen.head hw hwy
      refine ⟨x :: new, ⟨?_, fun y => ?_, ?_⟩, fun y hy => ?_, Or.inl List.mem_cons_self⟩
      · rw [visit, if_neg hseen]
        exact congrArg (x :: ·) hnew.finished
      · rw [visit, if_neg hseen]
        refine (hnew.discovered y).trans ?_
        rw [List.mem_cons, List.mem_cons, or_left_comm, or_assoc]
      · exact hnew.explored.cons hseen (fun y => List.mem_cons) hall hbelow
      · rcases List.mem_cons.1 hy with rfl | hy
        · exact .refl
        · exact hbelow y hy

theorem leads_of_predecessors (h : Leads (predecessors (nodes.map fun z => (z, next z))) x y) :
    Leads next y x := by
  induction h with
  | refl => exact .refl
  | tail _ hyz ih => exact .head (mem_predecessors.1 hyz).2 ih

/-- The first search lists the nodes in such an order. -/
theorem finishOrder_spec (hnext : ∀ x ∈ nodes, ∀ y ∈ next x, y ∈ nodes) :
    FinishOrder next (finishOrder nodes (predecessors (nodes.map fun x => (x, next x)))) ∧
      ∀ x, x ∈ finishOrder nodes (predecessors (nodes.map fun x => (x, next x))) ↔ x ∈ nodes := by
  have hback : ∀ x ∈ nodes, ∀ y ∈ predecessors (nodes.map fun x => (x, next x)) x, y ∈ nodes :=
    fun x _ y hy => (mem_predecessors.1 hy).1
  obtain ⟨new, hnew, hleads, hall⟩ := (visits hback nodes.length).foldl (s := {})
    (fun x hx => hx) (List.length_filter_le _ _)
  have hfinished : finishOrder nodes (predecessors (nodes.map fun x => (x, next x))) = new :=
    hnew.finished.trans (List.append_nil new)
  have hmem : ∀ x, x ∈ new ↔ x ∈ nodes := by
    intro x
    constructor
    · intro hx
      obtain ⟨root, hroot, hreach⟩ := hleads x hx
      exact hreach.of_closed hback hroot
    · exact fun hx => (hall x hx).resolve_right List.not_mem_nil
  rw [hfinished]
  refine ⟨⟨hnew.explored.nodup, fun x hx y hy => ?_, fun y b hyb u hu z hz huz => ?_⟩, hmem⟩
  · exact (hmem y).2 (hnext x ((hmem x).1 hx) y hy)
  · have hpre := mem_predecessors.2 ⟨(hmem z).1 hz, huz⟩
    rcases hnew.explored.returns y b hyb u hu z hpre with h | h | h
    · exact Or.inl h
    · exact absurd h List.not_mem_nil
    · exact Or.inr (leads_of_predecessors h)

/-! ## The two searches together -/

theorem trees_cons_of_mem {seen rest : List α} (depth : Nat) (h : x ∈ seen) :
    trees next depth seen (x :: rest) = trees next depth seen rest := by
  rw [trees, visit_of_mem depth h]
  rfl

/-- A node that no earlier tree has taken is the root of a tree, which is its class. -/
theorem FinishOrder.exists_tree {before rest seen : List α} {depth : Nat}
    (h : FinishOrder next (before ++ x :: rest)) (hclosed : ∀ y ∈ seen, ∀ z ∈ next y, z ∈ seen)
    (hbefore : ∀ y ∈ before, y ∈ seen) (hdepth : (before ++ x :: rest).length ≤ depth)
    (hx : x ∉ seen) :
    ∃ new seen', trees next depth seen (x :: rest) = new :: trees next depth seen' rest ∧
      Explored next (· ∈ seen) new ∧ (∀ y, y ∈ seen' ↔ y ∈ new ∨ y ∈ seen) ∧ x ∈ new ∧
      (∀ y ∈ new, y ∈ before ++ x :: rest) ∧ ∀ y, y ∈ new ↔ Mutual next x y := by
  have hroot : x ∈ before ++ x :: rest := List.mem_append_right _ List.mem_cons_self
  obtain ⟨new, hnew, hleads, hmem⟩ := visits h.closed depth { discovered := seen } x hroot
    (Nat.le_trans (List.length_filter_le _ _) hdepth)
  have hmem : x ∈ new := hmem.resolve_right hx
  have hfinished : (visit next depth { discovered := seen } x).finished = new :=
    hnew.finished.trans (List.append_nil new)
  refine ⟨new, _, ?_, hnew.explored, hnew.discovered, hmem, fun y hy => ?_, fun y => ?_⟩
  · rw [trees, hfinished, if_neg]
    exact fun hempty => List.ne_nil_of_mem hmem (List.isEmpty_iff.1 hempty)
  · exact (hleads y hy).of_closed h.closed hroot
  · exact h.mem_explored_iff hclosed hbefore hnew.explored hmem hleads

/-- The second search takes the classes one after the other. -/
theorem trees_layered {before l seen : List α} {depth : Nat} (h : FinishOrder next (before ++ l))
    (hclosed : ∀ y ∈ seen, ∀ z ∈ next y, z ∈ seen) (hbefore : ∀ y ∈ before, y ∈ seen)
    (hdepth : (before ++ l).length ≤ depth) :
    Layered next (· ∈ seen) (trees next depth seen l) ∧
      (∀ x ∈ (trees next depth seen l).flatten, x ∈ before ++ l) ∧
      ∀ x ∈ l, x ∈ (trees next depth seen l).flatten ∨ x ∈ seen := by
  induction l generalizing before seen with
  | nil =>
    exact ⟨.nil, fun x hx => absurd hx List.not_mem_nil, fun x hx => absurd hx List.not_mem_nil⟩
  | cons x rest ih =>
    have hsplit : before ++ x :: rest = (before ++ [x]) ++ rest := by simp
    by_cases hx : x ∈ seen
    · have hbefore' : ∀ y ∈ before ++ [x], y ∈ seen := fun y hy =>
        (List.mem_append.1 hy).elim (hbefore y) fun hy => List.mem_singleton.1 hy ▸ hx
      rw [hsplit] at h hdepth ⊢
      obtain ⟨hlayered, hnodes, hrest⟩ := ih h hclosed hbefore' hdepth
      rw [trees_cons_of_mem depth hx]
      refine ⟨hlayered, hnodes, fun y hy => ?_⟩
      rcases List.mem_cons.1 hy with rfl | hy
      · exact Or.inr hx
      · exact hrest y hy
    · obtain ⟨new, seen', htrees, hnew, hseen', hroot, hnodes, hclass⟩ :=
        h.exists_tree hclosed hbefore hdepth hx
      -- what has been seen by now stays closed
      have hclosed' : ∀ y ∈ seen', ∀ z ∈ next y, z ∈ seen' := by
        intro y hy z hz
        rw [hseen'] at hy ⊢
        rcases hy with hy | hy
        · exact hnew.closed y hy z hz
        · exact Or.inr (hclosed y hy z hz)
      have hbefore' : ∀ y ∈ before ++ [x], y ∈ seen' := by
        intro y hy
        rw [hseen']
        rcases List.mem_append.1 hy with hy | hy
        · exact Or.inr (hbefore y hy)
        · exact Or.inl (List.mem_singleton.1 hy ▸ hroot)
      rw [hsplit] at h hdepth hnodes ⊢
      obtain ⟨hlayered, hmem, hrest⟩ := ih h hclosed' hbefore' hdepth
      rw [htrees, List.flatten_cons]
      refine ⟨hlayered.cons hnew ⟨x, hroot, hclass⟩ hseen', fun y hy => ?_, fun y hy => ?_⟩
      · exact (List.mem_append.1 hy).elim (hnodes y) (hmem y)
      · rw [List.mem_append]
        rcases List.mem_cons.1 hy with rfl | hy
        · exact Or.inl (Or.inl hroot)
        · rcases hrest y hy with hy | hy
          · exact Or.inl (Or.inr hy)
          · exact ((hseen' y).1 hy).imp Or.inl id

/-- The components are the classes of mutual dependence of all nodes, in the order of
dependence. -/
theorem components_layered (hnext : ∀ x ∈ nodes, ∀ y ∈ next x, y ∈ nodes) :
    Layered next (fun _ => False) (components nodes next) ∧
      ∀ x, x ∈ (components nodes next).flatten ↔ x ∈ nodes := by
  obtain ⟨hfin, hmem⟩ := finishOrder_spec hnext
  have hlength : (finishOrder nodes (predecessors (nodes.map fun x => (x, next x)))).length ≤
      nodes.length :=
    (List.Nodup.subperm hfin.nodup fun x hx => (hmem x).1 hx).length_le
  -- nothing has been seen before
  have hclosed : ∀ y ∈ ([] : List α), ∀ z ∈ next y, z ∈ ([] : List α) :=
    fun y hy => absurd hy List.not_mem_nil
  rw [← List.nil_append (finishOrder _ _)] at hfin hlength
  obtain ⟨hlayered, hnodes, hall⟩ := trees_layered hfin hclosed (fun y hy => hy) hlength
  have hnone : (fun y : α => y ∈ ([] : List α)) = fun _ => False :=
    funext fun y => eq_false List.not_mem_nil
  refine ⟨hnone ▸ hlayered, fun x => ⟨fun hx => (hmem x).1 (hnodes x hx), fun hx => ?_⟩⟩
  exact (hall x ((hmem x).2 hx)).resolve_right List.not_mem_nil

end SchemaSymbols.Components

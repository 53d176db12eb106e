/-
  What a resolution owes to those before it.

  1. **One symbol for one shape.**  Symbols do not depend on the order in which they are made: a
     leaf looks at the graph alone, and a collection at the symbols of its elements, so two sound
     tables agree wherever both have a symbol (`TableSound.get?_eq`).

  2. **No fault is left where all is settled.**  Whether a shape can be resolved is a matter of what
     it reaches.  If all of that is settled, no violation can be found there: each condition of the
     graph was met when a symbol was made (`Sound.not_blames`, `Clear`).

  3. **After resolutions that all ended well** nothing else counts, and a further one ends as it
     would in a new session (`answers_iff`).

  4. **A resolution that fails** leaves two things behind that count: shapes in the queue, which the
     next resolution has to go through, and symbols whose own needs were never looked at.  The queue
     is the only reason for which a shape fails later on that could be resolved in a new session
     (`answers`); and because of the symbols, a shape that failed may pass when it is tried again
     (`Courier`).

  `answers_after_calls` states what holds after any calls, and what more holds if they all ended
  well.
-/
import SchemaSymbols.Proofs.Resolution.Faults
import SchemaSymbols.Proofs.Resolution.Locality

namespace SchemaSymbols

open Relation ResolveM

variable {r : Resolver} {R R' V : ShapeId → Prop} {t t' : SymbolTable} {s s' : Session}
  {id : ShapeId}

/-! ## One symbol for one shape -/

namespace Resolver

variable {n : Node}

/-- An element is made of its target's symbol and of nothing else in the table. -/
theorem element_congr {m : Member} (container : Node) (nullable : Bool)
    (h : t.get? m.target = t'.get? m.target) :
    r.element t container m nullable = r.element t' container m nullable := by
  rw [element, element]
  cases hvalue : r.valueTarget (container.memberId m) m.target with
  | error e => rfl
  | ok target =>
    have hid : target.id = m.target := Graph.get?_id (valueTarget_eq_ok.1 hvalue).1
    simp only [bind, Except.bind, hid, h]

/-- A collection looks at the symbols of its elements only. -/
theorem collection_congr (h : ∀ m ∈ n.shape.elements, t.get? m.target = t'.get? m.target) :
    r.collection t n = r.collection t' n := by
  obtain ⟨id, shape, tags⟩ := n
  cases shape with
  | list m =>
    simp only [collection, element_congr _ _ (h m List.mem_cons_self)]
  | set m =>
    simp only [collection, element_congr _ _ (h m List.mem_cons_self)]
  | map key value =>
    simp only [collection, element_congr _ _ (h key List.mem_cons_self),
      element_congr _ _ (h value (List.mem_cons_of_mem _ List.mem_cons_self))]
  | _ => rfl

end Resolver

/-- Sound tables agree on the symbols that both of them have. -/
theorem TableSound.get?_eq (h : TableSound r R t) (h' : TableSound r R' t')
    (acc : Acc (fun y x => r.graph.Holds x y) id) {a b : Symbol} (ha : t.get? id = some a)
    (hb : t'.get? id = some b) : a = b := by
  -- the induction goes down through collections
  induction acc generalizing a b with
  | intro id _ ih =>
    obtain ⟨n, hn, explained⟩ := (h.symbols id a ha).2
    obtain ⟨k, hk, explained'⟩ := (h'.symbols id b hb).2
    rw [hn] at hk
    cases hk
    rcases explained with ⟨leaf, hleaf, rfl⟩ | ⟨queued, hbuilt⟩
    · rcases explained' with ⟨leaf', hleaf', rfl⟩ | ⟨queued', hbuilt'⟩
      · rw [hleaf] at hleaf'
        cases hleaf'
        rfl
      · have hcontainer := (Resolver.built_of_collection hbuilt').isContainer
        rw [(Resolver.made_of_leaf hleaf).isContainer] at hcontainer
        cases hcontainer
    · rcases explained' with ⟨leaf', hleaf', rfl⟩ | ⟨queued', hbuilt'⟩
      · have hcontainer := (Resolver.built_of_collection hbuilt).isContainer
        rw [(Resolver.made_of_leaf hleaf').isContainer] at hcontainer
        cases hcontainer
      · have hsame : r.collection t n = r.collection t' n := by
          refine Resolver.collection_congr fun m hm => ?_
          obtain ⟨-, -, -, hx⟩ := (Resolver.built_of_collection hbuilt).ready m hm
          obtain ⟨-, -, -, hy⟩ := (Resolver.built_of_collection hbuilt').ready m hm
          obtain ⟨x, hx⟩ := SymbolTable.contains_iff.1 hx
          obtain ⟨y, hy⟩ := SymbolTable.contains_iff.1 hy
          rw [hx, hy, ih m.target ⟨n, hn, m, hm, rfl⟩ hx hy]
        rw [hsame, hbuilt'] at hbuilt
        cases hbuilt
        rfl

/-! ## No fault is left where all is settled -/

/-- Where every shape has a symbol and every record and union is bound, nothing can fail. -/
theorem Sound.not_blames (h : Sound r R s) (grounded : Grounded r s)
    (known : ∀ k, V k → s.table.contains k = true)
    (bound : ∀ k, V k → r.graph.isAggregate k = true → s.table.isBound k = true) {e : Fault}
    (blames : Blames r V e) : ¬ Violation r V e := by
  intro violation
  cases violation with
  | missing within absent =>
    obtain ⟨symbol, hget⟩ := SymbolTable.contains_iff.1 (known _ within)
    obtain ⟨n, hn, -⟩ := (h.table.symbols _ symbol hget).2
    rw [Graph.contains_of_get? hn] at absent
    cases absent
  | @target owner target m within node part found noValue =>
    have hvalue : target.shape.isValue = true := by
      rcases List.mem_append.1 part with hm | hm
      · refine h.table.value node (bound _ within ?_) hm found
        exact (Graph.isAggregate_of_get? node).trans (Shape.isAggregate_of_mem_members hm)
      · obtain ⟨k, hk, hvalue, -⟩ := h.table.ready node (known _ within) hm
        rw [found] at hk
        cases hk
        exact hvalue
    rw [hvalue] at noValue
    cases noValue
  | primitive within node shape unmapped =>
    exact h.table.mapped node (known _ within) shape unmapped
  | cycle within cycle => exact not_transGen_self_of_acc (grounded _ (known _ within)) cycle
  | names => cases blames

/-- Nothing that the shape leads to can fail. -/
def Clear (r : Resolver) (id : ShapeId) : Prop :=
  ∀ e, Blames r (r.graph.Reaches id) e → ¬ Violation r (r.graph.Reaches id) e

/-- A fault that blames what several shapes lead to blames what one of them leads to. -/
theorem Blames.exists_start {starts : List ShapeId} {e : Fault}
    (h : Blames r (r.graph.ReachedFrom starts) e) :
    ∃ start ∈ starts, Blames r (r.graph.Reaches start) e := by
  cases h with
  | missing within =>
    obtain ⟨start, hstart, hreaches⟩ := within
    exact ⟨start, hstart, .missing hreaches⟩
  | target within node part =>
    obtain ⟨start, hstart, hreaches⟩ := within
    exact ⟨start, hstart, .target hreaches node part⟩
  | primitive within =>
    obtain ⟨start, hstart, hreaches⟩ := within
    exact ⟨start, hstart, .primitive hreaches⟩
  | cycle within =>
    obtain ⟨start, hstart, hreaches⟩ := within
    exact ⟨start, hstart, .cycle hreaches⟩

/-! ## Sessions between resolutions -/

/-- A session that resolutions led to, with none of them under way. -/
structure Rested (r : Resolver) (s : Session) : Prop where
  moves : Moves r (fun _ => True) {} s
  idle : s.Idle

namespace Rested

theorem new : Rested r {} := ⟨.refl, rfl, rfl⟩

theorem sound (h : Rested r s) : Sound r (fun _ => True) s :=
  h.moves.sound (fun _ _ _ _ => trivial) .new

/-- In a session at rest, descents through collections end. -/
theorem grounded (h : Rested r s) : Grounded r s :=
  h.moves.grounded fun x hx => by cases hx

/-- Resolutions that all ended well leave a session at rest, which is complete. -/
theorem of_resolveEach (wf : r.graph.WellFormed) {ids : List ShapeId}
    (hrun : r.resolveEach ids {} = .ok () s) : Rested r s ∧ Complete r s := by
  have closed : r.graph.Closed fun _ => True := fun _ _ _ _ => trivial
  have ends := resolveEach_ends wf closed .new ⟨rfl, rfl⟩ (fun id (_ : id ∈ ids) => trivial)
  obtain ⟨resolved, idle⟩ := ends.of_ok hrun
  exact ⟨⟨resolved.moves, idle⟩, (resolved.complete closed .new .new).2.1⟩

/-- Where nothing is left to do, nothing that a settled shape leads to can fail. -/
theorem clear (h : Rested r s) (hc : Complete r s) (settled : Settled r s id) : Clear r id := by
  intro e
  refine h.sound.not_blames h.grounded
    (fun k hk => (hc.settled_of_reaches settled hk).1) fun k hk haggregate => ?_
  refine ((hc.settled_of_reaches settled hk).2 haggregate).resolve_left fun hresolving => ?_
  rw [h.idle.isResolving] at hresolving
  cases hresolving

end Rested

/-! ## What a resolution answers -/

/-- Asked for a shape in a session, the resolver answers with a symbol. -/
def Resolver.Answers (r : Resolver) (s : Session) (id : ShapeId) (symbol : Symbol) : Prop :=
  ∃ s', r.resolve id s = .ok symbol s'

theorem Resolver.exists_answers_iff :
    (∃ a, r.Answers s id a) ↔ (r.resolve id).endsWell s = true := by
  refine ⟨?_, exists_of_endsWell⟩
  rintro ⟨a, s', hrun⟩
  rw [endsWell, hrun]

namespace Rested

variable {a b : Symbol}

/-- A resolution takes a session at rest to one at rest, or ends with a violation. -/
theorem resolve (wf : r.graph.WellFormed) (h : Rested r s) (id : ShapeId) :
    (r.resolve id).Ends s
      (fun a s' => Rested r s' ∧ Resolved r (fun _ => True) id s s' ∧ s'.table.get? id = some a)
      (fun e _ => Violation r (fun _ => True) e) := by
  have within : (fun _ => True) id := trivial
  refine (resolve_ends wf (fun _ _ _ _ => trivial) h.sound h.idle within).mono ?_
    fun _ _ hfault => hfault.reason
  rintro a s' ⟨resolved, hget⟩
  exact ⟨⟨h.moves.trans resolved.moves, resolved.idle⟩, resolved, hget⟩

/-- Whatever went before, the answer is the same symbol. -/
theorem answer_eq (wf : r.graph.WellFormed) (h : Rested r s) (h' : Rested r s')
    (ha : r.Answers s id a) (hb : r.Answers s' id b) : a = b := by
  obtain ⟨t, hrun⟩ := ha
  obtain ⟨t', hrun'⟩ := hb
  obtain ⟨ht, -, hgetA⟩ := (h.resolve wf id).of_ok hrun
  obtain ⟨ht', -, hgetB⟩ := (h'.resolve wf id).of_ok hrun'
  have acc := ht.grounded id (SymbolTable.contains_of_get? hgetA)
  exact ht.sound.table.get?_eq ht'.sound.table acc hgetA hgetB

/-- In a session with nothing left to do, an answer shows that nothing the shape leads to can
fail. -/
theorem clear_of_answers (wf : r.graph.WellFormed) (h : Rested r s) (hc : Complete r s)
    (answers : r.Answers s id a) : Clear r id := by
  obtain ⟨t, hrun⟩ := answers
  obtain ⟨ht, resolved, -⟩ := (h.resolve wf id).of_ok hrun
  obtain ⟨-, hcomplete, hsettled, -⟩ := resolved.complete (fun _ _ _ _ => trivial) h.sound hc
  exact ht.clear hcomplete hsettled

/-- A resolution fails only for the shape itself or for one in the queue. -/
theorem answers (wf : r.graph.WellFormed) (h : Rested r s)
    (clear : ∀ k ∈ id :: s.pending, Clear r k) : ∃ a, r.Answers s id a := by
  cases hrun : r.resolve id s with
  | ok a s' => exact ⟨a, s', hrun⟩
  | error e s' =>
    have violation := (h.resolve wf id).of_error hrun
    -- the session is busy with the queue only, so the fault blames what these shapes lead to
    have located : Located r (r.graph.ReachedFrom (id :: s.pending)) s := by
      refine ⟨fun f hf => ?_, fun k hk => ?_, fun k hk => ?_⟩
      · rw [h.idle.1] at hf
        cases hf
      · rw [h.idle.2] at hk
        cases hk
      · exact ⟨k, List.mem_cons_of_mem _ hk, .refl⟩
    have stays := resolve_stays wf (r.graph.closed_reachedFrom _)
      ⟨id, List.mem_cons_self, .refl⟩ located
    obtain ⟨start, hstart, blames⟩ := (stays.of_error hrun).exists_start
    exact absurd (violation.within blames) (clear start hstart e blames)

/-- In a session with nothing left to do, the answers are those of a new one. -/
theorem answers_iff (wf : r.graph.WellFormed) (h : Rested r s) (hc : Complete r s) :
    r.Answers s id a ↔ r.Answers {} id a := by
  have transfer : ∀ {t t' : Session}, Rested r t → Complete r t → Rested r t' → Complete r t' →
      r.Answers t id a → r.Answers t' id a := by
    intro t t' ht hct ht' hct' hanswers
    have clear := ht.clear_of_answers wf hct hanswers
    have hall : ∀ k ∈ id :: t'.pending, Clear r k := by
      rw [hct'.drained]
      exact List.forall_mem_singleton.2 clear
    obtain ⟨b, hb⟩ := ht'.answers wf hall
    rwa [answer_eq wf ht ht' hanswers hb]
  exact ⟨transfer h hc .new .new, transfer .new .new h hc⟩

end Rested

/-- What a resolution answers after others, of which any may have failed.  A symbol is the one that
    a new session gives.  There is one if a new session can resolve the shape and all that is left
    in the queue.  And after resolutions that all ended well, the answers are those of a new
    session. -/
theorem answers_after_calls (wf : r.graph.WellFormed) (id : ShapeId) :
    (∀ calls a b, r.Answers (r.after calls) id a → r.Answers {} id b → a = b) ∧
      (∀ calls, (∀ k ∈ id :: (r.after calls).pending, ∃ b, r.Answers {} k b) →
        ∃ a, r.Answers (r.after calls) id a) ∧
      ∀ ids s, r.resolveEach ids {} = .ok () s →
        ∀ a, r.Answers s id a ↔ r.Answers {} id a := by
  have rested : ∀ calls, Rested r (r.after calls) := fun calls =>
    ⟨(after_moves wf calls).1, (after_moves wf calls).2⟩
  refine ⟨fun calls a b => (rested calls).answer_eq wf .new, fun calls hall => ?_, ?_⟩
  · refine (rested calls).answers wf fun k hk => ?_
    obtain ⟨b, hb⟩ := hall k hk
    exact Rested.new.clear_of_answers wf .new hb
  · intro ids s hrun a
    obtain ⟨h, hc⟩ := Rested.of_resolveEach wf hrun
    exact h.answers_iff wf hc

/-! ## Leftovers -/

namespace Courier

/-- The identifier of a shape of the courier. -/
def shape (name : String) : ShapeId := ⟨"courier", name, none⟩

/-- A parcel that can be resolved, and two records that hold a service and cannot.  One of these is
in a list; two operations lead to it first, and then to the parcel or to the other one. -/
def nodes : List Node :=
  [ ⟨shape "Text", .primitive .string, .empty⟩,
    ⟨shape "Parcel", .record [⟨"label", shape "Text", .empty⟩], .empty⟩,
    ⟨shape "Depot", .service [], .empty⟩,
    ⟨shape "Complaint", .record [⟨"depot", shape "Depot", .empty⟩], .empty⟩,
    ⟨shape "Refusal", .record [⟨"depot", shape "Depot", .empty⟩], .empty⟩,
    ⟨shape "Complaints", .list ⟨"member", shape "Complaint", .empty⟩, .empty⟩,
    ⟨shape "Return", .operation (some (shape "Complaint")) (some (shape "Parcel")) [], .empty⟩,
    ⟨shape "Dispute", .operation (some (shape "Complaint")) none [shape "Refusal"], .empty⟩ ]

/-- The graph of the courier. -/
def graph : Graph := .ofNodesD nodes

/-- The courier seen through a target language. -/
def resolver : Resolver := .new graph .swift (NullabilityMode.policy .structural) {}

/-- The failed resolution of an operation leaves the parcel in the queue. -/
theorem pending_after_return :
    (resolver.call (.shape (shape "Return"))).endsWell {} = false ∧
      (resolver.after [.shape (shape "Return")]).pending = [shape "Parcel"] := by
  decide +kernel

theorem exists_answers_new :
    (∃ b, resolver.Answers {} (shape "Text") b) ∧ ∃ b, resolver.Answers {} (shape "Parcel") b := by
  simp only [Resolver.exists_answers_iff]
  decide +kernel

/-- The parcel can be resolved. -/
theorem exists_resolveEach : ∃ s, resolver.resolveEach [shape "Parcel"] {} = .ok () s := by
  obtain ⟨_, s, hrun⟩ := exists_of_endsWell (x := resolver.resolveEach [shape "Parcel"]) (s := {})
    (by decide +kernel)
  exact ⟨s, hrun⟩

end Courier

/-- The parcel in the queue does no harm, since it can be resolved; and its own resolution changes
no answer. -/
theorem courier_answers_after_return :
    Courier.resolver.graph.WellFormed ∧
      ((Courier.resolver.call (.shape (Courier.shape "Return"))).endsWell {} = false ∧
        (Courier.resolver.after [.shape (Courier.shape "Return")]).pending =
          [Courier.shape "Parcel"]) ∧
      (∃ a, Courier.resolver.Answers (Courier.resolver.after [.shape (Courier.shape "Return")])
        (Courier.shape "Text") a ∧ Courier.resolver.Answers {} (Courier.shape "Text") a) ∧
      ∃ s, Courier.resolver.resolveEach [Courier.shape "Parcel"] {} = .ok () s ∧
        ∀ a, Courier.resolver.Answers s (Courier.shape "Text") a ↔
          Courier.resolver.Answers {} (Courier.shape "Text") a := by
  have wf : Courier.resolver.graph.WellFormed := Graph.wellFormed_ofNodesD Courier.nodes
  obtain ⟨⟨b, hb⟩, parcel⟩ := Courier.exists_answers_new
  obtain ⟨same, answered, unchanged⟩ := answers_after_calls wf (Courier.shape "Text")
  have hall : ∀ k ∈ Courier.shape "Text" ::
      (Courier.resolver.after [.shape (Courier.shape "Return")]).pending,
      ∃ b, Courier.resolver.Answers {} k b := by
    rw [Courier.pending_after_return.2]
    exact List.forall_mem_cons.2 ⟨⟨b, hb⟩, List.forall_mem_singleton.2 parcel⟩
  obtain ⟨a, ha⟩ := answered _ hall
  obtain rfl := same _ a b ha hb
  obtain ⟨s, heach⟩ := Courier.exists_resolveEach
  exact ⟨wf, Courier.pending_after_return, ⟨a, ha, hb⟩, s, heach, unchanged _ s heach⟩

/-- The list that cannot be resolved passes when it is tried again, because it has a symbol and the
queue is empty by then.  And a text, which can be resolved, fails after the dispute, because the
refusal is still in the queue. -/
theorem courier_leftovers_change_answers :
    Courier.resolver.graph.WellFormed ∧
      ((¬ ∃ a, Courier.resolver.Answers {} (Courier.shape "Complaints") a) ∧
        ∃ a, Courier.resolver.Answers (Courier.resolver.after [.shape (Courier.shape "Complaints")])
          (Courier.shape "Complaints") a) ∧
      (∃ a, Courier.resolver.Answers {} (Courier.shape "Text") a) ∧
      ¬ ∃ a, Courier.resolver.Answers (Courier.resolver.after [.shape (Courier.shape "Dispute")])
        (Courier.shape "Text") a := by
  simp only [Resolver.exists_answers_iff]
  exact ⟨Graph.wellFormed_ofNodesD Courier.nodes, by decide +kernel, by decide +kernel,
    by decide +kernel⟩

end SchemaSymbols

/-
  Calls that all end well.

  Each call asks for certain shapes, one or all roots (`askedBy`).  If all calls end well, the whole
  run is a resolution of these shapes one after the other, whatever the calls were
  (`callEach_resolved`).  So what is known of such resolutions holds after the calls: what every
  step keeps (`callEach_keep`), and that the symbols are exactly those of the shapes that can be
  reached (`callEach_exact`).

  A call that is made again finds nothing to do.  Its shapes are `Known`: they have symbols, and
  what has members is bound.  The queue is empty, since the calls ended well, so the session stays
  as it is (`leaves_call_known`).
-/
import SchemaSymbols.Proofs.Resolution.Completeness

namespace SchemaSymbols

open ResolveM

variable {r : Resolver} {R : ShapeId → Prop} {s s' : Session} {calls : List Call} {id : ShapeId}

/-! ## What a resolution keeps -/

/-- What every step keeps, whatever is in the queue, holds after a resolution that went well. -/
theorem Resolved.keep {P : Session → Prop} {id : ShapeId} (closed : r.graph.Closed R)
    (resolved : Resolved r R id s s') (hs : Sound r R s)
    (step : ∀ a b, Sound r R a → Step r R a b → P a → P b)
    (queue : ∀ a rest, P a → P { a with pending := rest }) (hP : P s) : P s' := by
  obtain ⟨⟨middle, visited, rounds⟩, -, -⟩ := resolved
  have hmiddle := visited.steps.sound closed hs
  have hkept : P middle := visited.steps.keep closed hs step hP
  have hrounds : Sound r R s' ∧ P s' := by
    induction rounds with
    | refl => exact ⟨hmiddle, hkept⟩
    | tail _ round ih =>
      obtain ⟨hsound, hkept⟩ := ih
      obtain ⟨next, rest, hqueue, visited⟩ := round
      have hdequeued := (Move.dequeue (r := r) (R := R) hqueue).sound closed hsound
      exact ⟨visited.steps.sound closed hdequeued,
        visited.steps.keep closed hdequeued step (queue _ rest hkept)⟩
  exact hrounds.2

/-- What every step keeps, resolutions that went well keep. -/
theorem ResolvedEach.keep {P : Session → Prop} {ids : List ShapeId} (closed : r.graph.Closed R)
    (resolved : ResolvedEach r R ids s s') (hs : Sound r R s)
    (step : ∀ a b, Sound r R a → Step r R a b → P a → P b)
    (queue : ∀ a rest, P a → P { a with pending := rest }) (hP : P s) : P s' := by
  induction resolved with
  | nil => exact hP
  | cons first _ ih =>
    exact ih (first.moves.sound closed hs) (first.keep closed hs step queue hP)

/-- Resolutions of some shapes and then of others are resolutions of all of them. -/
theorem ResolvedEach.append {ids ids' : List ShapeId} {middle : Session}
    (h : ResolvedEach r R ids s middle) (h' : ResolvedEach r R ids' middle s') :
    ResolvedEach r R (ids ++ ids') s s' := by
  induction h with
  | nil => exact h'
  | cons first _ ih => exact .cons first (ih h')

/-! ## Calls -/

namespace Resolver

/-- Answers calls one after the other, as long as they end well. -/
def callEach (r : Resolver) : List Call → ResolveM Unit
  | [] => return ()
  | c :: rest => do
    r.call c
    r.callEach rest

/-- The shapes that a call asks for. -/
def askedBy (r : Resolver) : Call → List ShapeId
  | .shape id => [id]
  | .all => r.roots

/-- The shapes that calls ask for, one after the other. -/
def asked (r : Resolver) (calls : List Call) : List ShapeId := calls.flatMap r.askedBy

end Resolver

/-- A call that ends well resolves what it asks for. -/
theorem call_resolved (wf : r.graph.WellFormed) (closed : r.graph.Closed R) {c : Call}
    (hs : Sound r R s) (idle : s.Idle) (within : ∀ id ∈ r.askedBy c, R id)
    (hrun : r.call c s = .ok () s') : ResolvedEach r R (r.askedBy c) s s' ∧ s'.Idle := by
  cases c with
  | shape id =>
    obtain ⟨a, middle, hresolve, hret⟩ := exists_of_bind_eq_ok hrun
    cases hret
    have ends := resolve_ends wf closed hs idle (within id List.mem_cons_self)
    obtain ⟨resolved, -⟩ := ends.of_ok hresolve
    exact ⟨.cons resolved .nil, resolved.idle⟩
  | all =>
    obtain ⟨resolved, idle', -⟩ := (resolveAll_ends wf closed hs idle within).of_ok hrun
    exact ⟨resolved, idle'⟩

/-- Calls that all ended well resolved the shapes they asked for. -/
theorem callEach_resolved (wf : r.graph.WellFormed) (closed : r.graph.Closed R)
    (hs : Sound r R s) (idle : s.Idle) (within : ∀ id ∈ r.asked calls, R id)
    (hrun : r.callEach calls s = .ok () s') :
    ResolvedEach r R (r.asked calls) s s' ∧ s'.Idle := by
  induction calls generalizing s with
  | nil =>
    cases hrun
    exact ⟨.nil, idle⟩
  | cons c calls ih =>
    obtain ⟨a, middle, hfirst, hrest⟩ := exists_of_bind_eq_ok hrun
    have hwithin : ∀ id ∈ r.askedBy c ++ r.asked calls, R id := within
    rw [List.forall_mem_append] at hwithin
    obtain ⟨first, idle'⟩ := call_resolved wf closed hs idle hwithin.1 hfirst
    obtain ⟨others, idle''⟩ := ih (first.moves.sound closed hs) idle' hwithin.2 hrest
    exact ⟨first.append others, idle''⟩

/-- What every step keeps, whatever is in the queue, holds after calls that all ended well. -/
theorem callEach_keep {P : Session → Prop} (wf : r.graph.WellFormed)
    (step : ∀ a b, Sound r (fun _ => True) a → Step r (fun _ => True) a b → P a → P b)
    (queue : ∀ a rest, P a → P { a with pending := rest }) (hs : Sound r (fun _ => True) s)
    (idle : s.Idle) (hP : P s) (hrun : r.callEach calls s = .ok () s') :
    Sound r (fun _ => True) s' ∧ s'.Idle ∧ P s' := by
  have closed : r.graph.Closed fun _ => True := fun _ _ _ _ => trivial
  obtain ⟨resolved, idle'⟩ := callEach_resolved wf closed hs idle (fun _ _ => trivial) hrun
  exact ⟨resolved.moves.sound closed hs, idle', resolved.keep closed hs step queue hP⟩

/-- After calls that all ended well nothing is left to do, and the symbols and the bound members are
those of what can be reached from the shapes that were asked for. -/
theorem callEach_exact (wf : r.graph.WellFormed) (hrun : r.callEach calls {} = .ok () s) :
    Sound r (r.graph.ReachedFrom (r.asked calls)) s ∧ Complete r s ∧ ∀ id,
      (s.table.contains id = true ↔ r.graph.ReachedFrom (r.asked calls) id) ∧
        (s.table.isBound id = true ↔
          r.graph.ReachedFrom (r.asked calls) id ∧ r.graph.isAggregate id = true) := by
  have closed := r.graph.closed_reachedFrom (r.asked calls)
  obtain ⟨resolved, -⟩ := callEach_resolved wf closed .new ⟨rfl, rfl⟩
    (fun id hid => ⟨id, hid, .refl⟩) hrun
  obtain ⟨sound, complete, hsettled, -⟩ := resolved.complete closed .new .new
  refine ⟨sound, complete, complete.exact sound ?_⟩
  rintro k ⟨start, hstart, hk⟩
  exact complete.settled_of_reaches (hsettled start hstart) hk

theorem contains_of_mem_asked (wf : r.graph.WellFormed) (hrun : r.callEach calls {} = .ok () s)
    (h : id ∈ r.asked calls) : s.table.contains id = true := by
  obtain ⟨-, -, hexact⟩ := callEach_exact wf hrun
  exact (hexact id).1.2 ⟨id, h, .refl⟩

/-! ## Calls that are made again -/

/-- A shape with a symbol is ready: if it is a record or union, it is bound. -/
structure Known (r : Resolver) (s : Session) (id : ShapeId) (a : Symbol) : Prop where
  symbol : s.table.get? id = some a
  node : r.graph.contains id = true
  bound : r.graph.isAggregate id = true → s.table.isBound id = true

/-- After calls that ended well, whatever has a symbol is known. -/
theorem known_of_callEach {a : Symbol} (wf : r.graph.WellFormed)
    (hrun : r.callEach calls {} = .ok () s) (hget : s.table.get? id = some a) : Known r s id a := by
  obtain ⟨sound, -, hexact⟩ := callEach_exact wf hrun
  obtain ⟨reached, n, hn, -⟩ := sound.table.symbols id a hget
  exact ⟨hget, Graph.contains_of_get? hn, fun haggregate => (hexact id).2.2 ⟨reached, haggregate⟩⟩

/-- The visit of a shape that is ready looks up its symbol and does nothing else. -/
theorem Known.visit {a : Symbol} (h : Known r s id a) :
    (r.visit id).Ends s (fun b s' => b = a ∧ s' = s) fun _ _ => False := by
  obtain ⟨n, hn⟩ := Graph.contains_iff.1 h.node
  have hstay : (n.shape.isAggregate && !s.table.isBound id && !s.isResolving id) = false := by
    have hbound := h.bound
    rw [Graph.isAggregate_of_get? hn] at hbound
    cases haggregate : n.shape.isAggregate with
    | false => rfl
    | true => rw [hbound haggregate]; rfl
  rw [Resolver.visit, ends_orAbandon, Resolver.symbol]
  simp only [ends_bind, ends_get, h.symbol, ends_pure, Graph.require_of_get? hn, ends_lift_ok,
    hstay, Bool.false_eq_true, if_false, and_self]

/-- There is nothing to work off in an empty queue. -/
theorem drain_of_pending_eq_nil (fuel : Nat) (h : s.pending = []) :
    (r.drain fuel).Ends s (fun _ s' => s' = s) fun _ _ => False := by
  cases fuel with
  | zero => exact rfl
  | succ fuel =>
    rw [Resolver.drain]
    simp only [ends_bind, ends_get, h, ends_pure]

/-- When nothing is left to do, so does its resolution. -/
theorem Known.resolve {a : Symbol} (h : Known r s id a) (drained : s.pending = []) :
    (r.resolve id).Ends s (fun b s' => b = a ∧ s' = s) fun _ _ => False := by
  rw [Resolver.resolve]
  simp only [ends_bind, ends_get, ends_pure]
  refine h.visit.mono ?_ fun _ _ h => h
  rintro b s' ⟨rfl, rfl⟩
  exact (drain_of_pending_eq_nil _ drained).mono (fun _ _ h => ⟨rfl, h⟩) fun _ _ h => h

/-- Resolving known shapes changes nothing. -/
theorem resolveEach_known {ids : List ShapeId} (drained : s.pending = [])
    (h : ∀ id ∈ ids, ∃ a, Known r s id a) :
    (r.resolveEach ids).Ends s (fun _ s' => s' = s) fun _ _ => False := by
  induction ids with
  | nil => exact rfl
  | cons id ids ih =>
    obtain ⟨a, hknown⟩ := h id List.mem_cons_self
    rw [Resolver.resolveEach]
    simp only [ends_bind]
    refine (hknown.resolve drained).mono ?_ fun _ _ h => h
    rintro b s' ⟨-, rfl⟩
    exact ih fun id hid => h id (List.mem_cons_of_mem _ hid)

/-- After calls that all ended well, a call for shapes that have symbols changes nothing, whether
names are refused this time or not. -/
theorem leaves_call_known {c : Call} (wf : r.graph.WellFormed)
    (hrun : r.callEach calls {} = .ok () s)
    (known : ∀ id ∈ r.askedBy c, s.table.contains id = true) : (r.call c).leaves s = s := by
  obtain ⟨-, complete, -⟩ := callEach_exact wf hrun
  have hknown : ∀ id ∈ r.askedBy c, ∃ a, Known r s id a := by
    intro id hid
    obtain ⟨a, ha⟩ := SymbolTable.contains_iff.1 (known id hid)
    exact ⟨a, known_of_callEach wf hrun ha⟩
  refine Ends.leaves (P := fun s' => s' = s) ?_
  cases c with
  | shape id =>
    obtain ⟨a, hid⟩ := hknown id List.mem_cons_self
    rw [Resolver.call]
    simp only [ends_bind, ends_pure]
    exact (hid.resolve complete.drained).mono (fun _ _ h => h.2) fun _ _ h => h.elim
  | all =>
    rw [Resolver.call, Resolver.resolveAll]
    simp only [ends_bind, ends_get]
    refine (resolveEach_known complete.drained hknown).mono ?_ fun _ _ h => h.elim
    rintro - s' rfl
    exact ends_lift.2 ⟨fun _ _ => rfl, fun _ _ => rfl⟩

end SchemaSymbols

/-
  What a resolution keeps, in any graph and however it ends.

  Apart from looking around, the programs change a session in few ways: they take in a leaf, open or
  close a collection, enter a record or union, bind a member, leave, take a shape out of the queue,
  and give up all walks after a fault.  `Keeps` names what an invariant owes to each of these
  changes, with all that a program has made sure of by then; from there on every program keeps it,
  whether it ends well or fails, and so do calls one after the other (`Keeps.after`).

  Nothing is asked of the graph, so the budgets may run out and the stacks may hold anything.  One
  fact survives: while symbols are made, all walks wait.  This is why making symbols has a structure
  of its own (`SymbolsKeep`), and why `SymbolsKeep.still` comes before the first program that binds
  a member: the invariant and the stack of walks together are again an invariant of that kind.

  A visit answers with a symbol that was in the table of some session on the way, so what an
  invariant says of tables holds of answers too (`exists_found`).
-/
import SchemaSymbols.Proofs.Resolution.Run

namespace SchemaSymbols

open ResolveM

/-- The step keeps what holds of a session, whether it ends well or fails. -/
def ResolveM.Keeps {α : Type} (P : Session → Prop) (x : ResolveM α) : Prop :=
  ∀ s, P s → x.Ends s (fun _ => P) fun _ => P

namespace Resolver

section

variable (r : Resolver) (P : Session → Prop)

/-- What is kept while symbols are made. -/
structure SymbolsKeep : Prop where
  leaf : ∀ {s : Session} {n : Node} {leaf : Leaf}, P s → r.graph.get? n.id = some n →
    s.table.contains n.id = false → r.leaf n = .ok leaf → P (s.addLeaf leaf)
  opened : ∀ {s : Session} (id : ShapeId), P s → P (s.openContainer id)
  closed : ∀ {s : Session} {n : Node} {symbol : Symbol} {queued : List ShapeId}, P s →
    r.graph.get? n.id = some n → r.collection s.table n = .ok (symbol, queued) →
      P (s.closeContainer symbol queued)

/-- What is kept by every change of a session. -/
structure Keeps : Prop extends SymbolsKeep r P where
  /-- A record or union that is entered has its symbol. -/
  entered : ∀ {s : Session} {n : Node}, P s → r.graph.get? n.id = some n →
    n.shape.isAggregate = true → s.table.contains n.id = true → P (s.enter n (r.memberNames n))
  /-- The innermost walk binds its next member to the symbol that the target has by then. -/
  bound : ∀ {s : Session} {f : Frame} {rest : List Frame} {m : Member} {name : String}
    {todo : List (Member × String)} {target : Node} {symbol : Symbol}, P s →
      s.frames = f :: rest → f.todo = (m, name) :: todo → r.graph.get? m.target = some target →
        target.shape.isValue = true → s.table.get? m.target = some symbol →
          P (s.bindNext (nextBinding r s f m name symbol))
  /-- The innermost walk leaves when all members are bound. -/
  left : ∀ {s : Session} {f : Frame} {rest : List Frame}, P s → s.frames = f :: rest →
    f.todo = [] → P s.leave
  dequeued : ∀ {s : Session} (rest : List ShapeId), P s → P { s with pending := rest }
  abandoned : ∀ {s : Session}, P s → P s.abandon

end

variable {r : Resolver} {P : Session → Prop} {s : Session} {id : ShapeId}

/-! ## Symbols -/

namespace SymbolsKeep

/-- No walk goes on while symbols are made. -/
theorem still (keep : r.SymbolsKeep P) (fs : List Frame) :
    r.SymbolsKeep fun s => P s ∧ s.frames = fs where
  leaf := fun h node fresh made => ⟨keep.leaf h.1 node fresh made, h.2⟩
  opened := fun id h => ⟨keep.opened id h.1, h.2⟩
  closed := fun h node built => ⟨keep.closed h.1 node built, h.2⟩

/-- Elements that are no collections get their leaves. -/
theorem prepare (keep : r.SymbolsKeep P) (n : Node) (elements : List Member) :
    ResolveM.Keeps P (r.prepare n elements) := by
  induction elements with
  | nil => exact fun s h => h
  | cons m elements ih =>
    intro s h
    rw [Resolver.prepare]
    simp only [ends_bind]
    cases hvalue : r.valueTarget (n.memberId m) m.target with
    | error e => exact h
    | ok target =>
      have hget : r.graph.get? m.target = some target := (valueTarget_eq_ok.1 hvalue).1
      obtain hid : target.id = m.target := Graph.get?_id hget
      rw [← hid] at hget
      simp only [ends_lift_ok, ends_get]
      split
      · exact ih s h
      · rename_i hfresh
        split
        · simp only [ends_bind, ends_get]
          split
          · exact h
          · exact h
        · simp only [ends_bind]
          cases hmade : r.leaf target with
          | error e => exact h
          | ok leaf => exact ih _ (keep.leaf h hget (by simpa using hfresh) hmade)

/-- One step at the topmost collection keeps the invariant. -/
theorem containerStep (keep : r.SymbolsKeep P) (top : ShapeId) :
    ResolveM.Keeps P (r.containerStep top) := by
  intro s h
  rw [Resolver.containerStep]
  simp only [ends_bind]
  cases hget : r.graph.get? top with
  | none => rw [Graph.require, hget]; exact h
  | some n =>
    obtain rfl := Graph.get?_id hget
    rw [Graph.require_of_get? hget]
    simp only [ends_lift_ok]
    refine (keep.prepare n n.shape.elements s h).mono ?_ fun _ _ => id
    intro found s' h'
    cases found with
    | some inner => exact keep.opened inner h'
    | none =>
      simp only [ends_bind, ends_get]
      cases hbuilt : r.collection s'.table n with
      | error e => exact h'
      | ok result => exact keep.closed h' hget hbuilt

/-- Building collections keeps it, by induction on the fuel. -/
theorem buildContainers (keep : r.SymbolsKeep P) (fuel : Nat) :
    ResolveM.Keeps P (r.buildContainers fuel) := by
  induction fuel with
  | zero => exact fun s h => h
  | succ fuel ih =>
    intro s h
    rw [Resolver.buildContainers]
    simp only [ends_bind, ends_get]
    split
    · exact h
    · simp only [ends_bind]
      exact (keep.containerStep _ s h).mono (fun _ s' h' => ih s' h') fun _ _ => id

/-- The symbol that is given out is the one that is filed. -/
theorem symbol (keep : r.SymbolsKeep P) (id : ShapeId) (h : P s) :
    (r.symbol id).Ends s (fun a s' => P s' ∧ s'.table.get? id = some a) fun _ => P := by
  rw [Resolver.symbol]
  simp only [ends_bind, ends_get]
  cases hknown : s.table.get? id with
  | some a => exact ⟨h, hknown⟩
  | none =>
    cases hget : r.graph.get? id with
    | none => rw [Graph.require, hget]; exact h
    | some n =>
      obtain rfl := Graph.get?_id hget
      rw [Graph.require_of_get? hget]
      simp only [ends_bind, ends_lift_ok]
      split
      · simp only [ends_bind, ends_modify]
        refine (keep.buildContainers _ _ (keep.opened n.id h)).mono ?_ fun _ _ => id
        -- whatever was built, the symbol is looked up at the end
        intro _ s' h'
        simp only [ends_get]
        split
        · rename_i a hfound
          exact ⟨h', hfound⟩
        · exact h'
      · simp only [ends_bind, ends_modify]
        cases hmade : r.leaf n with
        | error e => exact h
        | ok leaf =>
          have h' := keep.leaf h hget (SymbolTable.contains_eq_false_iff.2 hknown) hmade
          simp only [ends_lift_ok, ends_get]
          split
          · rename_i a hfound
            exact ⟨h', hfound⟩
          · exact h'

end SymbolsKeep

/-! ## Walks -/

namespace Keeps

/-- The walk waits while the target of its next member gets a symbol; then the member is bound. -/
theorem bindMember (keep : r.Keeps P) {f : Frame} {rest : List Frame} {m : Member} {name : String}
    {todo : List (Member × String)} (h : P s) (top : s.frames = f :: rest)
    (next : f.todo = (m, name) :: todo) :
    (r.bindMember f.owner m name).Ends s (fun _ => P) fun _ => P := by
  simp only [Resolver.bindMember, ends_bind]
  cases hvalue : r.valueTarget (f.owner.memberId m) m.target with
  | error e => exact h
  | ok target =>
    obtain ⟨hget, hisValue⟩ := valueTarget_eq_ok.1 hvalue
    have hid : target.id = m.target := Graph.get?_id hget
    simp only [ends_lift_ok, hid]
    have hwaits := (keep.toSymbolsKeep.still (f :: rest)).symbol m.target ⟨h, top⟩
    refine hwaits.mono ?_ fun _ _ h' => h'.1
    rintro symbol s' ⟨⟨h', top'⟩, hknown⟩
    have hbound := keep.bound h' top' next hget hisValue hknown
    simp only [ends_get, ends_modify]
    split
    · rename_i henter
      have hknown' : (s'.bindNext (nextBinding r s' f m name symbol)).table.contains target.id =
          true := by
        rw [Session.bindNext_of_frames top', hid]
        exact SymbolTable.contains_of_get? hknown
      simp only [Bool.and_eq_true] at henter
      exact keep.entered hbound (hid ▸ hget) henter.1.2 hknown'
    · exact hbound

/-- One step of a walk keeps it. -/
theorem walkStep (keep : r.Keeps P) {f : Frame} {rest : List Frame} (h : P s)
    (top : s.frames = f :: rest) : (r.walkStep f).Ends s (fun _ => P) fun _ => P := by
  rw [Resolver.walkStep]
  cases htodo : f.todo with
  | nil => exact keep.left h top htodo
  | cons next todo => exact keep.bindMember h top htodo

/-- Walking keeps it, by induction on the fuel. -/
theorem walk (keep : r.Keeps P) (fuel : Nat) : ResolveM.Keeps P (r.walk fuel) := by
  induction fuel with
  | zero => exact fun s h => h
  | succ fuel ih =>
    intro s h
    rw [Resolver.walk]
    simp only [ends_bind, ends_get]
    split
    · exact h
    · rename_i f rest htop
      simp only [ends_bind]
      exact (keep.walkStep h htop).mono (fun _ => ih) fun _ _ => id

/-! ## Calls -/

/-- The symbol that a visit answers with was filed when the walk began. -/
theorem visit (keep : r.Keeps P) (id : ShapeId) (h : P s) :
    (r.visit id).Ends s (fun a s' => P s' ∧ ∃ found, P found ∧ found.table.get? id = some a)
      fun _ => P := by
  rw [Resolver.visit, ends_orAbandon]
  simp only [ends_bind]
  refine (keep.symbol id h).mono ?_ fun _ _ => keep.abandoned
  rintro a s' ⟨h', hfound⟩
  have hanswer : ∃ found, P found ∧ found.table.get? id = some a := ⟨s', h', hfound⟩
  cases hget : r.graph.get? id with
  | none => rw [Graph.require, hget]; exact keep.abandoned h'
  | some n =>
    obtain rfl := Graph.get?_id hget
    rw [Graph.require_of_get? hget]
    simp only [ends_lift_ok, ends_get]
    split
    · rename_i henter
      simp only [Bool.and_eq_true] at henter
      have hentered : P (s'.enter n (r.memberNames n)) :=
        keep.entered h' hget henter.1.1 (SymbolTable.contains_of_get? hfound)
      simp only [ends_bind, Resolver.enter, ends_modify]
      exact (keep.walk _ _ hentered).mono (fun _ s'' h'' => ⟨h'', hanswer⟩)
        fun _ _ => keep.abandoned
    · exact ⟨h', hanswer⟩

/-- Working off the queue keeps it, by induction on the fuel. -/
theorem drain (keep : r.Keeps P) (fuel : Nat) : ResolveM.Keeps P (r.drain fuel) := by
  induction fuel with
  | zero => exact fun s h => h
  | succ fuel ih =>
    intro s h
    rw [Resolver.drain]
    simp only [ends_bind, ends_get]
    split
    · exact h
    · rename_i next rest hqueue
      simp only [ends_bind, ends_modify]
      exact (keep.visit next (keep.dequeued rest h)).mono (fun _ s' h' => ih s' h'.1) fun _ _ => id

/-- Resolving a shape keeps it, and answers with a symbol that was found on the way. -/
theorem resolve (keep : r.Keeps P) (id : ShapeId) (h : P s) :
    (r.resolve id).Ends s (fun a s' => P s' ∧ ∃ found, P found ∧ found.table.get? id = some a)
      fun _ => P := by
  rw [Resolver.resolve]
  simp only [ends_bind, ends_get, ends_pure]
  refine (keep.visit id h).mono ?_ fun _ _ hfault => hfault
  rintro a s' ⟨h', hanswer⟩
  exact (keep.drain _ _ h').mono (fun _ _ h'' => ⟨h'', hanswer⟩) fun _ _ hfault => hfault

/-- Resolving shapes one after the other keeps it, by induction on the shapes. -/
theorem resolveEach (keep : r.Keeps P) (ids : List ShapeId) :
    ResolveM.Keeps P (r.resolveEach ids) := by
  induction ids with
  | nil => exact fun s h => h
  | cons id ids ih =>
    intro s h
    rw [Resolver.resolveEach]
    simp only [ends_bind]
    exact (keep.resolve id h).mono (fun _ s' h' => ih s' h'.1) fun _ _ hfault => hfault

/-- Every call keeps it. -/
theorem call (keep : r.Keeps P) (c : Call) : ResolveM.Keeps P (r.call c) := by
  intro s h
  cases c with
  | shape id =>
    rw [Resolver.call]
    simp only [ends_bind, ends_pure]
    exact (keep.resolve id h).mono (fun _ _ h' => h'.1) fun _ _ hfault => hfault
  | all =>
    rw [Resolver.call, Resolver.resolveAll]
    simp only [ends_bind, ends_get]
    refine (keep.resolveEach _ s h).mono ?_ fun _ _ hfault => hfault
    intro _ s' h'
    exact ends_lift.2 ⟨fun _ _ => h', fun _ _ => h'⟩

/-- What holds of a new session and is kept by every change holds after any calls, whether they
    ended well or failed. -/
theorem after (keep : r.Keeps P) (h : P {}) (calls : List Call) : P (r.after calls) := by
  have hfold : ∀ s, P s → P (calls.foldl (fun s c => (r.call c).leaves s) s) := by
    induction calls with
    | nil => exact fun s h => h
    | cons c calls ih =>
      intro s h
      exact ih _ (keep.call c s h).leaves
  exact hfold {} h

/-- An answer is a symbol that was filed at some time. -/
theorem exists_found (keep : r.Keeps P) (h : P s) {a : Symbol} {s' : Session}
    (hrun : r.resolve id s = .ok a s') : ∃ found, P found ∧ found.table.get? id = some a :=
  ((keep.resolve id h).of_ok hrun).2

end Keeps

end Resolver

end SchemaSymbols

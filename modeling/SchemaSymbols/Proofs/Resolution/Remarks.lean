/-
  The remarks of a resolution are about names.

  Remarks come with symbols, which have a name and perhaps variants and a fallback, and with walks,
  which name the members they are about to bind.  No step makes a remark of its own, so whatever a
  resolution goes through, it says nothing about records that were made for operations.
-/
import SchemaSymbols.Proofs.Resolution.Run

namespace SchemaSymbols

variable {r : Resolver} {R : ShapeId → Prop} {s s' : Session} {n : Node}

/-- Whether a diagnostic is about a record that was made for an operation. -/
def Diagnostic.isOnMadeRecord (d : Diagnostic) : Bool :=
  d.code = .sharedRecordCloned || d.code = .recordSynthesized

/-- None of the remarks is about a record that was made for an operation. -/
def OnNames (remarks : List Diagnostic) : Prop := ∀ d ∈ remarks, d.isOnMadeRecord = false

theorem onNames_nil : OnNames [] := fun _ hd => absurd hd List.not_mem_nil

/-- Remarks are on names only if both of their parts are. -/
theorem onNames_append {a b : List Diagnostic} : OnNames (a ++ b) ↔ OnNames a ∧ OnNames b :=
  List.forall_mem_append

/-- A remark that is made under a condition. -/
theorem onNames_ite {c : Prop} [Decidable c] {d : Diagnostic} (h : d.isOnMadeRecord = false) :
    OnNames (if c then [d] else []) := by
  split
  · exact List.forall_mem_singleton.2 h
  · exact onNames_nil

/-! ## Where remarks come from -/

theorem AssignedName.onNames_remarks (owner : ShapeId) (a : AssignedName) :
    OnNames (a.remarks owner) :=
  onNames_append.2 ⟨onNames_ite rfl, onNames_ite rfl⟩

theorem onNames_assigned (owner : ShapeId) (names : List AssignedName) :
    OnNames (names.flatMap (AssignedName.remarks owner)) := by
  intro d hd
  obtain ⟨a, -, hd⟩ := List.mem_flatMap.1 hd
  exact a.onNames_remarks owner d hd

namespace Resolver

theorem onNames_nameRemarks (r : Resolver) (n : Node) : OnNames (r.nameRemarks n) :=
  onNames_ite rfl

theorem onNames_fallbackRemarks (r : Resolver) (n : Node) (fallback : String) :
    OnNames (r.fallbackRemarks n fallback) :=
  onNames_ite rfl

/-- The remarks that come with the symbol of a leaf are on names. -/
theorem onNames_leaf {leaf : Leaf} (h : r.leaf n = .ok leaf) : OnNames leaf.remarks := by
  cases leafOf_of_leaf h with
  | primitive => exact onNames_nil
  | record => exact r.onNames_nameRemarks n
  | union => exact onNames_append.2 ⟨r.onNames_fallbackRemarks n _, r.onNames_nameRemarks n⟩
  | enum =>
    refine onNames_append.2 ⟨onNames_append.2 ⟨onNames_assigned _ _, ?_⟩, r.onNames_nameRemarks n⟩
    exact r.onNames_fallbackRemarks n _
  | operation => exact onNames_nil
  | service => exact r.onNames_nameRemarks n

end Resolver

/-! ## Steps and runs -/

/-- A new symbol adds remarks on names only. -/
theorem SymbolStep.onNames (step : SymbolStep r R s s') (h : OnNames s.diagnostics) :
    OnNames s'.diagnostics := by
  cases step with
  | leaf within node fresh made => exact onNames_append.2 ⟨h, Resolver.onNames_leaf made⟩
  | opened => exact h
  | closed => exact h

theorem Session.diagnostics_bindNext (s : Session) (b : Binding) :
    (s.bindNext b).diagnostics = s.diagnostics := by
  rw [Session.bindNext]
  split <;> rfl

theorem Session.diagnostics_leave (s : Session) : s.leave.diagnostics = s.diagnostics := by
  rw [Session.leave]
  split <;> rfl

/-- A step adds remarks on names only; a walk brings those on its members. -/
theorem Step.onNames (step : Step r R s s') (h : OnNames s.diagnostics) :
    OnNames s'.diagnostics := by
  cases step with
  | symbol step => exact step.onNames h
  | enter => exact onNames_append.2 ⟨h, onNames_assigned _ _⟩
  | bind =>
    rw [Session.diagnostics_bindNext]
    exact h
  | descend =>
    refine onNames_append.2 ⟨?_, onNames_assigned _ _⟩
    rw [Session.diagnostics_bindNext]
    exact h
  | leave =>
    rw [Session.diagnostics_leave]
    exact h

/-- So does a move. -/
theorem Move.onNames (move : Move r R s s') (h : OnNames s.diagnostics) :
    OnNames s'.diagnostics := by
  cases move with
  | step step => exact step.onNames h
  | dequeue => exact h
  | abandon => exact h

/-- So does a chain of moves. -/
theorem Moves.onNames (moves : Moves r R s s') (h : OnNames s.diagnostics) :
    OnNames s'.diagnostics := by
  induction moves with
  | refl => exact h
  | tail _ move ih => exact move.onNames ih

/-- A resolution of all roots makes remarks on names only. -/
theorem onNames_resolveAll (wf : r.graph.WellFormed) (hrun : r.resolveAll {} = .ok () s) :
    OnNames s.diagnostics := by
  have ends := resolveAll_ends wf (R := fun _ => True) (fun _ _ _ _ => trivial) .new ⟨rfl, rfl⟩
    fun _ _ => trivial
  exact (ends.of_ok hrun).1.moves.onNames onNames_nil

end SchemaSymbols

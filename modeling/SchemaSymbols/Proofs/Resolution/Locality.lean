/-
  A resolution looks only at what references lead to.

  `Located` says that a session is busy with shapes of a set `V` only: its walks, its open
  collections and its queue lie in `V`.  Symbols and bound members are left out, so a session may
  know whatever it likes about other shapes.  `Blames` is the same for faults: the fault is about a
  shape of `V`.

  If no reference leads out of `V`, every program that starts there stays there, and a fault it
  raises blames a shape of `V` (`Stays`).  The lemmas follow the programs, from the elements of a
  collection up to a whole resolution.  Each looks up shapes that another one of `V` refers to,
  which keeps it in `V`, and the faults of its parts are traced to the shapes they were raised for
  (`blames_of_valueTarget`, `blames_of_leaf`, `blames_of_element`, `blames_of_collection`).

  The budgets of the loops do not matter for this: it holds wherever a loop stops, so the inductions
  on the fuel need no measure.  Soundness does not matter either, and this is why `Located` is a
  condition of its own: a session may be sound for a larger set than the one it is busy with.
-/
import SchemaSymbols.Proofs.Resolution.Run

namespace SchemaSymbols

open Relation ResolveM

variable {r : Resolver} {V : ShapeId → Prop} {s s' : Session}

/-- The fault is one that shapes in `V` raise when one of them is resolved. -/
inductive Blames (r : Resolver) (V : ShapeId → Prop) : Fault → Prop
  | missing {id : ShapeId} (within : V id) : Blames r V (.missingShape id)
  | target {owner : Node} {m : Member} {word : String} (within : V owner.id)
      (node : r.graph.get? owner.id = some owner) (part : m ∈ owner.shape.parts) :
      Blames r V (.unsupportedMemberTarget (owner.memberId m) m.target word)
  | primitive {n : Node} {kind : PrimitiveKind} {language : Language} (within : V n.id) :
      Blames r V (.unmappedPrimitive n.id kind language)
  | cycle {id : ShapeId} (within : V id) : Blames r V (.containerCycle id)

/-- A violation whose fault blames a shape of `V` is one in `V`. -/
theorem Violation.within {R : ShapeId → Prop} {e : Fault} (h : Violation r R e)
    (blames : Blames r V e) : Violation r V e := by
  cases h with
  | missing _ absent =>
    cases blames with
    | missing within => exact .missing within absent
  | target _ _ _ found noValue =>
    -- the member may be one of another owner, with the same identifier and target
    generalize hfault : Fault.unsupportedMemberTarget _ _ _ = e at blames
    cases blames with
    | target within node part =>
      obtain ⟨hmember, htarget, rfl⟩ := Fault.unsupportedMemberTarget.inj hfault
      rw [htarget] at found
      exact .target within node part found noValue
    | _ => cases hfault
  | primitive _ node shape unmapped =>
    generalize hfault : Fault.unmappedPrimitive _ _ _ = e at blames
    cases blames with
    | primitive within =>
      obtain ⟨hid, rfl, rfl⟩ := Fault.unmappedPrimitive.inj hfault
      rw [hfault.symm]
      exact .primitive (hid ▸ within) node shape unmapped
    | _ => cases hfault
  | cycle _ cycle =>
    cases blames with
    | cycle within => exact .cycle within cycle
  | names => cases blames

/-! ## Sessions that stay in a set -/

/-- A session is busy with shapes in `V` only. -/
structure Located (r : Resolver) (V : ShapeId → Prop) (s : Session) : Prop where
  /-- Walks are those of records and unions in `V`, and the members to come are declared there. -/
  frames : ∀ f ∈ s.frames, V f.owner.id ∧ r.graph.get? f.owner.id = some f.owner ∧
    ∀ next ∈ f.todo, next.1 ∈ f.owner.shape.members
  /-- Open are collections in `V`. -/
  containers : ∀ id ∈ s.containers, V id ∧ ∃ n, r.graph.get? id = some n ∧
    n.shape.isContainer = true
  pending : ∀ id ∈ s.pending, V id

namespace Located

variable {n : Node}

/-- The symbol of a leaf of `V` queues shapes of `V`. -/
theorem addLeaf {leaf : Leaf} (closed : r.graph.Closed V) (h : Located r V s) (within : V n.id)
    (node : r.graph.get? n.id = some n) (made : r.leaf n = .ok leaf) :
    Located r V (s.addLeaf leaf) := by
  refine ⟨h.frames, h.containers, fun id hid => ?_⟩
  rcases List.mem_append.1 hid with hid | hid
  · exact h.pending id hid
  · rw [(Resolver.made_of_leaf made).queued] at hid
    exact closed _ _ within ⟨n, node, Shape.exists_reference_of_mem_links hid⟩

/-- A collection of `V` may be opened. -/
theorem openContainer (h : Located r V s) (within : V n.id) (node : r.graph.get? n.id = some n)
    (container : n.shape.isContainer = true) : Located r V (s.openContainer n.id) :=
  ⟨h.frames, List.forall_mem_cons.2 ⟨⟨within, n, node, container⟩, h.containers⟩, h.pending⟩

/-- The symbol of a collection of `V` queues shapes of `V`. -/
theorem closeContainer {t : SymbolTable} {symbol : Symbol} {queued : List ShapeId}
    (closed : r.graph.Closed V) (h : Located r V s) (within : V n.id)
    (node : r.graph.get? n.id = some n) (built : r.collection t n = .ok (symbol, queued)) :
    Located r V (s.closeContainer symbol queued) := by
  refine ⟨h.frames, fun id hid => h.containers id (List.mem_of_mem_tail hid), fun id hid => ?_⟩
  rcases List.mem_append.1 hid with hid | hid
  · exact h.pending id hid
  · rw [(Resolver.built_of_collection built).queued] at hid
    obtain ⟨m, hm, rfl⟩ := List.mem_map.1 (List.mem_of_mem_filter hid)
    exact closed _ _ within (Graph.refers_of_mem_elements node hm)

/-- A record or union of `V` may be entered, as its members are declared there. -/
theorem enter (h : Located r V s) (within : V n.id) (node : r.graph.get? n.id = some n) :
    Located r V (s.enter n (r.memberNames n)) := by
  refine ⟨List.forall_mem_cons.2 ⟨⟨within, node, fun next hnext => ?_⟩, h.frames⟩, h.containers,
    h.pending⟩
  rw [← r.map_fst_namedMembers]
  exact List.mem_map.2 ⟨next, hnext, rfl⟩

/-- Binding a member stays in `V`: no shape comes in. -/
theorem bindNext (h : Located r V s) (b : Binding) : Located r V (s.bindNext b) := by
  cases hframes : s.frames with
  | nil => rw [Session.bindNext, hframes]; exact h
  | cons f rest =>
    rw [Session.bindNext_of_frames hframes]
    have hall := h.frames
    rw [hframes] at hall
    obtain ⟨⟨within, node, htodo⟩, hrest⟩ := List.forall_mem_cons.1 hall
    refine ⟨List.forall_mem_cons.2 ⟨⟨within, node, fun next hnext => ?_⟩, hrest⟩, h.containers,
      h.pending⟩
    exact htodo next (List.mem_of_mem_tail hnext)

theorem leave (h : Located r V s) : Located r V s.leave := by
  cases hframes : s.frames with
  | nil => rw [Session.leave, hframes]; exact h
  | cons f rest =>
    rw [Session.leave_of_frames hframes]
    exact ⟨fun k hk => h.frames k (hframes ▸ List.mem_cons_of_mem _ hk), h.containers, h.pending⟩

end Located

/-- The program, started in a session that is busy in `V` only, stays in `V` and blames only shapes
in `V`. -/
def Stays {α : Type} (r : Resolver) (V : ShapeId → Prop) (x : ResolveM α) (s : Session) : Prop :=
  Located r V s → x.Ends s (fun _ s' => Located r V s') (fun e _ => Blames r V e)

/-! ## Symbols -/

section Symbols

variable {n : Node}

/-- A member whose target is refused belongs to a shape of `V`, and so does the target if it is
missing. -/
theorem blames_of_valueTarget {m : Member} {e : Fault} (closed : r.graph.Closed V)
    (within : V n.id) (node : r.graph.get? n.id = some n) (part : m ∈ n.shape.parts)
    (h : r.valueTarget (n.memberId m) m.target = .error e) : Blames r V e := by
  have hrefers : r.graph.Refers n.id m.target := by
    rcases List.mem_append.1 part with hm | hm
    · exact Graph.refers_of_mem_members node hm
    · exact Graph.refers_of_mem_elements node hm
  rcases Resolver.valueTarget_eq_error h with ⟨-, rfl⟩ | ⟨target, -, -, rfl⟩
  · exact .missing (closed _ _ within hrefers)
  · exact .target within node part

/-- A leaf of `V` that is refused is blamed itself, or one of its parts is. -/
theorem blames_of_leaf {e : Fault} (wf : r.graph.WellFormed) (within : V n.id)
    (node : r.graph.get? n.id = some n) (hc : n.shape.isContainer = false)
    (h : r.leaf n = .error e) : Blames r V e := by
  have hlinks : ∀ id ∈ n.shape.links, r.graph.contains id = true := fun id hid =>
    wf.contains_of_refers ⟨n, node, Shape.exists_reference_of_mem_links hid⟩
  obtain ⟨kind, -, -, rfl⟩ := Resolver.leaf_eq_error hlinks hc h
  exact .primitive within

/-- An element that is refused is one of a collection of `V`. -/
theorem blames_of_element {t : SymbolTable} {m : Member} {nullable : Bool} {e : Fault}
    (closed : r.graph.Closed V) (within : V n.id) (node : r.graph.get? n.id = some n)
    (hm : m ∈ n.shape.elements) (h : r.element t n m nullable = .error e) : Blames r V e := by
  rw [Resolver.element] at h
  cases hvalue : r.valueTarget (n.memberId m) m.target with
  | error e' =>
    rw [hvalue] at h
    cases h
    exact blames_of_valueTarget closed within node (List.mem_append_right _ hm) hvalue
  | ok target =>
    simp only [hvalue, bind, Except.bind] at h
    split at h
    · cases h
      rw [Graph.get?_id (Resolver.valueTarget_eq_ok.1 hvalue).1]
      exact .missing (closed _ _ within (Graph.refers_of_mem_elements node hm))
    · cases h

/-- A collection of `V` that is refused is blamed through one of its elements. -/
theorem blames_of_collection {t : SymbolTable} {e : Fault} (closed : r.graph.Closed V)
    (within : V n.id) (node : r.graph.get? n.id = some n) (hc : n.shape.isContainer = true)
    (h : r.collection t n = .error e) : Blames r V e := by
  obtain ⟨id, shape, tags⟩ := n
  cases shape with
  | list m =>
    rcases bind_eq_error.1 h with h | ⟨a, -, h⟩
    · exact blames_of_element closed within node List.mem_cons_self h
    · cases h
  | set m =>
    rcases bind_eq_error.1 h with h | ⟨a, -, h⟩
    · exact blames_of_element closed within node List.mem_cons_self h
    · cases h
  | map key value =>
    rcases bind_eq_error.1 h with h | ⟨a, -, h⟩
    · exact blames_of_element closed within node List.mem_cons_self h
    · rcases bind_eq_error.1 h with h | ⟨a, -, h⟩
      · exact blames_of_element closed within node
          (List.mem_cons_of_mem _ List.mem_cons_self) h
      · cases h
  | _ => cases hc

/-- A look at elements ends with a collection in `V`, or with none. -/
theorem prepare_stays (wf : r.graph.WellFormed) (closed : r.graph.Closed V)
    {elements : List Member} (h : Located r V s) (within : V n.id)
    (node : r.graph.get? n.id = some n) (helements : ∀ m ∈ elements, m ∈ n.shape.elements) :
    (r.prepare n elements).Ends s
      (fun found s' => Located r V s' ∧ ∀ id, found = some id →
        V id ∧ ∃ k, r.graph.get? id = some k ∧ k.shape.isContainer = true)
      (fun e _ => Blames r V e) := by
  induction elements generalizing s with
  | nil => exact ⟨h, fun id hid => by cases hid⟩
  | cons m elements ih =>
    obtain ⟨hm, hrest⟩ := List.forall_mem_cons.1 helements
    have within' : V m.target := closed _ _ within (Graph.refers_of_mem_elements node hm)
    rw [Resolver.prepare]
    simp only [ends_bind]
    cases hvalue : r.valueTarget (n.memberId m) m.target with
    | error e => exact blames_of_valueTarget closed within node (List.mem_append_right _ hm) hvalue
    | ok target =>
      have hget := (Resolver.valueTarget_eq_ok.1 hvalue).1
      have hid : target.id = m.target := Graph.get?_id hget
      rw [← hid] at within' hget
      simp only [ends_lift_ok, ends_get]
      split
      · exact ih h hrest
      · split
        · rename_i hcontainer
          simp only [ends_bind, ends_get]
          split
          · exact .cycle within'
          · refine ⟨h, ?_⟩
            rintro id ⟨⟩
            exact ⟨within', target, hget, hcontainer⟩
        · rename_i hcontainer
          simp only [ends_bind]
          cases hmade : r.leaf target with
          | error e => exact blames_of_leaf wf within' hget (Bool.eq_false_iff.2 hcontainer) hmade
          | ok leaf =>
            simp only [ends_lift_ok, ends_modify]
            exact ih (h.addLeaf closed within' hget hmade) hrest

/-- One step at a collection of `V` stays in `V`. -/
theorem containerStep_stays (wf : r.graph.WellFormed) (closed : r.graph.Closed V) {top : ShapeId}
    (htop : top ∈ s.containers) : Stays r V (r.containerStep top) s := by
  intro h
  obtain ⟨within, n, hget, hcontainer⟩ := h.containers top htop
  obtain rfl := Graph.get?_id hget
  rw [Resolver.containerStep, Graph.require_of_get? hget]
  simp only [ends_bind, ends_lift_ok]
  refine (prepare_stays wf closed h within hget fun _ => id).mono ?_ fun _ _ => id
  rintro found s' ⟨h', hfound⟩
  cases found with
  | some inner =>
    obtain ⟨within', k, hk, hkc⟩ := hfound inner rfl
    obtain rfl := Graph.get?_id hk
    exact h'.openContainer within' hk hkc
  | none =>
    simp only [ends_bind, ends_get]
    cases hbuilt : r.collection s'.table n with
    | error e => exact blames_of_collection closed within hget hcontainer hbuilt
    | ok result => exact h'.closeContainer closed within hget hbuilt

/-- Building collections stays in `V`, by induction on the fuel. -/
theorem buildContainers_stays (wf : r.graph.WellFormed) (closed : r.graph.Closed V) (fuel : Nat) :
    Stays r V (r.buildContainers fuel) s := by
  induction fuel generalizing s with
  | zero => exact id
  | succ fuel ih =>
    intro h
    rw [Resolver.buildContainers]
    simp only [ends_bind, ends_get]
    cases htop : s.containers with
    | nil => exact h
    | cons top rest =>
      simp only [ends_bind]
      refine (containerStep_stays wf closed (htop ▸ List.mem_cons_self) h).mono ?_ fun _ _ => id
      exact fun _ s' h' => ih h'

/-- Giving a shape of `V` its symbol stays in `V`. -/
theorem symbol_stays (wf : r.graph.WellFormed) (closed : r.graph.Closed V) {id : ShapeId}
    (within : V id) : Stays r V (r.symbol id) s := by
  intro h
  rw [Resolver.symbol]
  simp only [ends_bind, ends_get]
  cases hknown : s.table.get? id with
  | some symbol => exact h
  | none =>
    cases hget : r.graph.get? id with
    | none =>
      rw [Graph.require, hget]
      exact .missing within
    | some n =>
      obtain rfl := Graph.get?_id hget
      rw [Graph.require_of_get? hget]
      simp only [ends_bind, ends_lift_ok]
      split
      · rename_i hcontainer
        simp only [ends_bind, ends_modify]
        have h' := h.openContainer within hget hcontainer
        refine (buildContainers_stays wf closed _ h').mono ?_ fun _ _ => id
        -- whatever was made, the symbol is looked up at the end
        intro _ s' h''
        simp only [ends_get]
        split
        · exact h''
        · exact .missing within
      · rename_i hcontainer
        simp only [ends_bind, ends_modify]
        cases hmade : r.leaf n with
        | error e => exact blames_of_leaf wf within hget (Bool.eq_false_iff.2 hcontainer) hmade
        | ok leaf =>
          simp only [ends_lift_ok, ends_get]
          split
          · exact h.addLeaf closed within hget hmade
          · exact .missing within

end Symbols

/-! ## Walks -/

/-- Binding a member of a shape of `V` stays in `V`, also if its target is entered. -/
theorem bindMember_stays (wf : r.graph.WellFormed) (closed : r.graph.Closed V) {f : Frame}
    {m : Member} {name : String} (hf : f ∈ s.frames) (hm : (m, name) ∈ f.todo) :
    Stays r V (r.bindMember f.owner m name) s := by
  intro h
  obtain ⟨within, node, htodo⟩ := h.frames f hf
  have hm : m ∈ f.owner.shape.members := htodo (m, name) hm
  simp only [Resolver.bindMember, ends_bind]
  cases hvalue : r.valueTarget (f.owner.memberId m) m.target with
  | error e => exact blames_of_valueTarget closed within node (List.mem_append_left _ hm) hvalue
  | ok target =>
    have hget := (Resolver.valueTarget_eq_ok.1 hvalue).1
    have hid : target.id = m.target := Graph.get?_id hget
    have within' : V m.target := closed _ _ within (Graph.refers_of_mem_members node hm)
    rw [← hid] at within' hget
    simp only [ends_lift_ok]
    refine (symbol_stays wf closed within' h).mono ?_ fun _ _ => id
    intro symbol s' h'
    simp only [ends_get, ends_modify]
    split
    · exact (h'.bindNext _).enter within' hget
    · exact h'.bindNext _

/-- Walking stays in `V`, by induction on the fuel. -/
theorem walk_stays (wf : r.graph.WellFormed) (closed : r.graph.Closed V) (fuel : Nat) :
    Stays r V (r.walk fuel) s := by
  induction fuel generalizing s with
  | zero => exact id
  | succ fuel ih =>
    intro h
    rw [Resolver.walk]
    simp only [ends_bind, ends_get]
    cases htop : s.frames with
    | nil => exact h
    | cons f rest =>
      have hf : f ∈ s.frames := htop ▸ List.mem_cons_self
      simp only [ends_bind]
      refine Ends.mono (Q := fun _ s' => Located r V s') (E := fun e _ => Blames r V e) ?_
        (fun _ s' h' => ih h') fun _ _ => id
      rw [Resolver.walkStep]
      cases htodo : f.todo with
      | nil => exact h.leave
      | cons next todo => exact bindMember_stays wf closed hf (htodo ▸ List.mem_cons_self) h

/-! ## Resolutions -/

/-- Visiting a shape of `V` stays in `V`. -/
theorem visit_stays (wf : r.graph.WellFormed) (closed : r.graph.Closed V) {id : ShapeId}
    (within : V id) : Stays r V (r.visit id) s := by
  intro h
  rw [Resolver.visit, ends_orAbandon]
  simp only [ends_bind]
  refine (symbol_stays wf closed within h).mono ?_ fun _ _ hblames => hblames
  intro symbol s' h'
  cases hget : r.graph.get? id with
  | none =>
    rw [Graph.require, hget]
    exact .missing within
  | some n =>
    obtain rfl := Graph.get?_id hget
    rw [Graph.require_of_get? hget]
    simp only [ends_lift_ok, ends_get]
    split
    · simp only [ends_bind, Resolver.enter, ends_modify]
      exact walk_stays wf closed _ (h'.enter within hget)
    · exact h'

/-- Working off the queue stays in `V`, by induction on the fuel. -/
theorem drain_stays (wf : r.graph.WellFormed) (closed : r.graph.Closed V) (fuel : Nat) :
    Stays r V (r.drain fuel) s := by
  induction fuel generalizing s with
  | zero => exact id
  | succ fuel ih =>
    intro h
    rw [Resolver.drain]
    simp only [ends_bind, ends_get]
    cases hqueue : s.pending with
    | nil => exact h
    | cons next rest =>
      simp only [ends_bind, ends_modify]
      have hpending := h.pending
      rw [hqueue] at hpending
      obtain ⟨within, hrest⟩ := List.forall_mem_cons.1 hpending
      have h' : Located r V { s with pending := rest } := ⟨h.frames, h.containers, hrest⟩
      exact (visit_stays wf closed within h').mono (fun _ s' h'' => ih h'') fun _ _ => id

/-- Resolving a shape of `V` stays in `V`. -/
theorem resolve_stays (wf : r.graph.WellFormed) (closed : r.graph.Closed V) {id : ShapeId}
    (within : V id) : Stays r V (r.resolve id) s := by
  intro h
  rw [Resolver.resolve]
  simp only [ends_bind, ends_get, ends_pure]
  exact (visit_stays wf closed within h).mono (fun _ s' h' => drain_stays wf closed _ h')
    fun _ _ hblames => hblames

end SchemaSymbols

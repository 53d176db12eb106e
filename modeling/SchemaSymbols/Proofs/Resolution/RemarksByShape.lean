/-
  Every shape is remarked on once, whenever it is resolved.

  A shape can have two sorts of remarks.  Some come with its symbol, on its own name and, if the
  symbol has them, on variants and fallback (`symbolRemarks`); the others are on the names of its
  members and come when a walk enters it (`memberRemarks`).  What both are is read off the node, so
  it depends on the graph, the profile and the options, and on no session.

  1. **The invariant** (`Remarked`): the remarks so far are, up to order, the first sort for each
     shape with a symbol and the second sort for each record or union that is bound or being walked.
     It is a count: a remark made twice would break it as well as one left out.

  2. **Steps.**  A shape gets its symbol once (`Remarked.addSymbol`), and it is entered once
     (`Remarked.enter`).  Leaving a walk moves its owner from the walks to the bound ones, which is
     a permutation (`perm_entered_leave`), and all other steps leave both lists alone.

  3. **After all calls**, if they ended well, whatever has a symbol and has members is bound, so the
     second sort is complete too (`perm_entered`), and for each shape with a symbol both sorts come
     to its remarks (`remarks_of_callEach`).

  Hence neither the order of the calls nor how often they are made matters
  (`remarks_once_per_shape`).
-/
import SchemaSymbols.Proofs.Resolution.Calls

namespace SchemaSymbols

open ResolveM
open scoped List

variable {g : Graph} {p : Profile} {o : ResolverOptions} {policy : NullabilityPolicy}
  {r : Resolver} {R : ShapeId → Prop} {s s' : Session} {n : Node} {id : ShapeId}

/-! ## The remarks on a shape -/

namespace Resolver

/-- The remarks that come with the symbol of a shape: on its name, if it is a declared type or a
service, on the variants of an enumeration, and on the fallback. -/
def symbolRemarks (r : Resolver) (n : Node) : List Diagnostic :=
  let fallbackFor (names : List AssignedName) :=
    r.fallbackRemarks n (r.namer.fallback r.fallbackVariant (names.map AssignedName.name))
  match n.shape with
  | .record _ => r.nameRemarks n
  | .union _ => fallbackFor (r.memberNames n) ++ r.nameRemarks n
  | .enum values =>
    let names := r.namer.assign r.profile.variantCasing (values.map EnumValue.name)
    names.flatMap (AssignedName.remarks n.id) ++ fallbackFor names ++ r.nameRemarks n
  | .service _ => r.nameRemarks n
  | _ => []

/-- The remarks on the members of a record or union. -/
def memberRemarks (r : Resolver) (n : Node) : List Diagnostic :=
  (r.memberNames n).flatMap (AssignedName.remarks n.id)

/-- The remarks that come with the symbol of a leaf are read off its node. -/
theorem remarks_of_leaf {leaf : Leaf} (h : r.leaf n = .ok leaf) :
    leaf.remarks = r.symbolRemarks n := by
  obtain ⟨id, shape, tags⟩ := n
  cases leafOf_of_leaf h with
  | primitive hshape => cases hshape; rfl
  | record hshape => cases hshape; simp only [symbolRemarks]
  | union hshape named => cases hshape; simp only [symbolRemarks, named]
  | enum hshape assigned named => cases hshape; simp only [symbolRemarks, named, assigned]
  | operation hshape => cases hshape; rfl
  | service hshape => cases hshape; simp only [symbolRemarks]

theorem symbolRemarks_of_isContainer (h : n.shape.isContainer = true) : r.symbolRemarks n = [] := by
  obtain ⟨id, shape, tags⟩ := n
  cases shape with
  | list m => rfl
  | set m => rfl
  | map key value => rfl
  | _ => cases h

/-- Only records and unions have members. -/
theorem memberRemarks_of_not_isAggregate (h : n.shape.isAggregate = false) :
    r.memberRemarks n = [] := by
  have hnone : n.shape.members = [] := by
    by_contra hne
    obtain ⟨m, hm⟩ := List.exists_mem_of_ne_nil _ hne
    rw [Shape.isAggregate_of_mem_members hm] at h
    cases h
  rw [memberRemarks, memberNames, hnone]
  rfl

end Resolver

namespace Graph

/-- What is said about the node of an identifier. -/
def remarksAt (g : Graph) (remarks : Node → List Diagnostic) (id : ShapeId) : List Diagnostic :=
  match g.get? id with
  | some n => remarks n
  | none => []

theorem remarksAt_of_get? {remarks : Node → List Diagnostic} (h : g.get? id = some n) :
    g.remarksAt remarks id = remarks n := by
  rw [remarksAt, h]

/-- All remarks on a shape.  No policy has a say in them. -/
def remarksOn (g : Graph) (p : Profile) (o : ResolverOptions) : ShapeId → List Diagnostic :=
  let r := Resolver.new g p (NullabilityMode.policy .structural) o
  g.remarksAt fun n => r.symbolRemarks n ++ r.memberRemarks n

end Graph

/-! ## The invariant -/

namespace Session

/-- The records and unions that were entered: those that are being walked and those that are
bound. -/
def entered (s : Session) : List ShapeId :=
  s.frames.map (fun f => f.owner.id) ++ s.table.bindings.keys

theorem entered_bindNext {f : Frame} {rest : List Frame} (top : s.frames = f :: rest)
    (b : Binding) : (s.bindNext b).entered = s.entered := by
  rw [bindNext_of_frames top, entered, entered, top]
  rfl

/-- Up to order, leaving a walk does not change what was entered. -/
theorem perm_entered_leave {f : Frame} {rest : List Frame} (top : s.frames = f :: rest)
    (unbound : s.table.isBound f.owner.id = false) : s.leave.entered.Perm s.entered := by
  have hkeys : (s.table.bind f.owner.id f.bound).bindings.keys.Perm
      (f.owner.id :: s.table.bindings.keys) := Sorted.perm_keys_insert unbound
  rw [leave_of_frames top, entered, entered, top]
  exact (hkeys.append_left _).trans List.perm_middle

/-- The remarks so far are those that came with symbols, and those that came when records and unions
were entered. -/
def Remarked (r : Resolver) (s : Session) : Prop :=
  s.diagnostics.Perm
    (s.table.symbols.keys.flatMap (r.graph.remarksAt r.symbolRemarks) ++
      s.entered.flatMap (r.graph.remarksAt r.memberRemarks))

namespace Remarked

theorem new : Remarked r {} := .refl _

/-- A new symbol brings its remarks along. -/
theorem addSymbol (h : s.Remarked r) (symbol : Symbol) (remarks : List Diagnostic)
    (fresh : s.table.contains symbol.shape = false)
    (hremarks : r.graph.remarksAt r.symbolRemarks symbol.shape = remarks)
    (htable : s'.table = s.table.addSymbol symbol) (hframes : s'.frames = s.frames)
    (hdiagnostics : s'.diagnostics = s.diagnostics ++ remarks) : s'.Remarked r := by
  have hkeys : (s.table.addSymbol symbol).symbols.keys.Perm
      (symbol.shape :: s.table.symbols.keys) := Sorted.perm_keys_insert fresh
  have hentered : s'.entered = s.entered := by
    rw [entered, entered, hframes, htable]
    rfl
  rw [Remarked, hentered, htable, hdiagnostics]
  calc s.diagnostics ++ remarks
    _ ~ remarks ++ s.diagnostics := List.perm_append_comm
    _ ~ remarks ++ (_ ++ _) := h.append_left remarks
    _ = _ ++ s.entered.flatMap _ := by rw [← List.append_assoc, ← hremarks, ← List.flatMap_cons]
    _ ~ _ := (hkeys.flatMap_right _).symm.append_right _

/-- Entering a record or union brings the remarks on its members. -/
theorem enter (h : s.Remarked r) (node : r.graph.get? n.id = some n) :
    (s.enter n (r.memberNames n)).Remarked r := by
  have hremarks : r.graph.remarksAt r.memberRemarks n.id = r.memberRemarks n :=
    Graph.remarksAt_of_get? node
  show (s.diagnostics ++ r.memberRemarks n).Perm (_ ++ (n.id :: s.entered).flatMap _)
  rw [List.flatMap_cons, hremarks]
  refine (h.append_right _).trans ?_
  rw [List.append_assoc]
  exact List.perm_append_comm.append_left _

theorem congr (h : s.Remarked r) (hsymbols : s'.table.symbols = s.table.symbols)
    (hentered : s'.entered.Perm s.entered) (hdiagnostics : s'.diagnostics = s.diagnostics) :
    s'.Remarked r := by
  rw [Remarked, hsymbols, hdiagnostics]
  exact h.trans ((hentered.flatMap_right _).symm.append_left _)

end Remarked

end Session

/-! ## Steps and runs -/

/-- A new symbol brings the remarks that come with it. -/
theorem SymbolStep.remarked (step : SymbolStep r R s s') (hs : Sound r R s) (h : s.Remarked r) :
    s'.Remarked r := by
  cases step with
  | @leaf n leaf within node fresh made =>
    have hshape := (Resolver.made_of_leaf made).shape
    refine h.addSymbol leaf.symbol leaf.remarks (hshape ▸ fresh) ?_ rfl rfl rfl
    rw [hshape, Graph.remarksAt_of_get? node, Resolver.remarks_of_leaf made]
  | opened => exact h
  | @closed n rest queued symbol node top built =>
    have hbuilt := Resolver.built_of_collection built
    have fresh : s.table.contains n.id = false :=
      (hs.containers n.id (top ▸ List.mem_cons_self)).fresh
    refine h.addSymbol symbol [] (hbuilt.shape ▸ fresh) ?_ rfl rfl ?_
    · rw [hbuilt.shape, Graph.remarksAt_of_get? node]
      exact Resolver.symbolRemarks_of_isContainer hbuilt.isContainer
    · exact (List.append_nil _).symm

theorem Session.Remarked.bindNext {f : Frame} {rest : List Frame} (h : s.Remarked r)
    (top : s.frames = f :: rest) (b : Binding) : (s.bindNext b).Remarked r := by
  refine h.congr ?_ (.of_eq (Session.entered_bindNext top b)) ?_
  · rw [Session.bindNext_of_frames top]
  · rw [Session.bindNext_of_frames top]

/-- Every step brings the remarks that are due, and no others. -/
theorem Step.remarked (hs : Sound r R s) (step : Step r R s s') (h : s.Remarked r) :
    s'.Remarked r := by
  cases step with
  | symbol step => exact step.remarked hs h
  | enter within node => exact h.enter node
  | bind binds => exact h.bindNext binds.top _
  | descend binds =>
    have hid := Graph.get?_id binds.node
    exact (h.bindNext binds.top _).enter (hid ▸ binds.node)
  | @leave f rest top done idle =>
    have unbound := (hs.frames f (top ▸ List.mem_cons_self)).unbound
    refine h.congr ?_ (Session.perm_entered_leave top unbound) ?_
    · rw [Session.leave_of_frames top]
      rfl
    · rw [Session.leave_of_frames top]

/-! ## After all calls -/

/-- Elements that nothing is listed for can be left out. -/
theorem flatMap_filter_of_eq_nil {α β : Type} {q : α → Bool} {f : α → List β} {l : List α}
    (h : ∀ a ∈ l, q a = false → f a = []) : (l.filter q).flatMap f = l.flatMap f := by
  induction l with
  | nil => rfl
  | cons a l ih =>
    have hrest := ih fun b hb => h b (List.mem_cons_of_mem a hb)
    cases hq : q a with
    | true => rw [List.filter_cons_of_pos hq, List.flatMap_cons, List.flatMap_cons, hrest]
    | false =>
      rw [List.filter_cons_of_neg (by simp [hq]), hrest, List.flatMap_cons,
        h a List.mem_cons_self hq, List.nil_append]

theorem Graph.remarksAt_append (a b : Node → List Diagnostic) :
    g.remarksAt (fun n => a n ++ b n) = fun id => g.remarksAt a id ++ g.remarksAt b id := by
  funext id
  rw [remarksAt, remarksAt, remarksAt]
  cases g.get? id with
  | none => rfl
  | some n => rfl

/-- A shape without members has no remarks on members. -/
theorem Resolver.remarksAt_of_not_isAggregate (h : r.graph.isAggregate id = false) :
    r.graph.remarksAt r.memberRemarks id = [] := by
  rw [Graph.remarksAt]
  cases hget : r.graph.get? id with
  | none => rfl
  | some n =>
    rw [Graph.isAggregate_of_get? hget] at h
    exact memberRemarks_of_not_isAggregate h

/-- When nothing is left to do, what was entered are the records and unions with a symbol. -/
theorem perm_entered {calls : List Call} (wf : r.graph.WellFormed)
    (hrun : r.callEach calls {} = .ok () s) :
    s.entered.Perm (s.table.symbols.keys.filter r.graph.isAggregate) := by
  obtain ⟨-, complete, hexact⟩ := callEach_exact wf hrun
  rw [Session.entered, complete.idle.1, List.map_nil, List.nil_append]
  refine (List.perm_ext_iff_of_nodup (Sorted.nodup_keys _)
    ((Sorted.nodup_keys _).filter _)).2 fun id => ?_
  obtain ⟨hcontains, hbound⟩ := hexact id
  rw [List.mem_filter, Sorted.mem_keys, Sorted.mem_keys]
  exact hbound.trans (and_congr_left fun _ => hcontains.symm)

/-- After calls that all ended well, the remarks are those on the shapes with a symbol. -/
theorem remarks_of_callEach {calls : List Call} (wf : r.graph.WellFormed)
    (hrun : r.callEach calls {} = .ok () s) :
    s.diagnostics ~ s.table.symbols.keys.flatMap
      (r.graph.remarksAt fun n => r.symbolRemarks n ++ r.memberRemarks n) := by
  obtain ⟨-, -, h⟩ := callEach_keep wf (fun _ _ hs step h => step.remarked hs h)
    (fun _ _ h => h) .new ⟨rfl, rfl⟩ Session.Remarked.new hrun
  have hentered := (perm_entered wf hrun).flatMap_right (r.graph.remarksAt r.memberRemarks)
  rw [flatMap_filter_of_eq_nil fun id _ => Resolver.remarksAt_of_not_isAggregate] at hentered
  rw [Graph.remarksAt_append]
  calc s.diagnostics
    _ ~ _ ++ s.entered.flatMap _ := h
    _ ~ _ ++ s.table.symbols.keys.flatMap _ := hentered.append_left _
    _ ~ _ := List.flatMap_append_perm _ _ _

/-- Remarks are made once for each shape, and in whatever order shapes are resolved.

    After calls that all ended well, the remarks are, up to order, those on the shapes that have a
    symbol by then, each shape taken once.  What is remarked on a shape depends on the graph, the
    profile and the options only.  So two runs that resolve the same shapes make the same remarks,
    under whatever policies and by whatever calls.  To resolve a shape again gives the symbol that
    is there and changes nothing; and no call for shapes that have symbols makes a remark. -/
theorem remarks_once_per_shape (g : Graph) (p : Profile) (o : ResolverOptions)
    (wf : g.WellFormed) :
    (∀ policy calls s, (Resolver.new g p policy o).callEach calls {} = .ok () s →
      s.table.symbols.keys.Nodup ∧
      (∀ id, id ∈ s.table.symbols.keys ↔ s.table.contains id = true) ∧
      s.diagnostics.Perm (s.table.symbols.keys.flatMap (g.remarksOn p o))) ∧
    (∀ policy policy' calls calls' s s',
      (Resolver.new g p policy o).callEach calls {} = .ok () s →
      (Resolver.new g p policy' o).callEach calls' {} = .ok () s' →
      (∀ id, s.table.contains id = s'.table.contains id) → s.diagnostics.Perm s'.diagnostics) ∧
    ∀ policy calls s, (Resolver.new g p policy o).callEach calls {} = .ok () s →
      let r := Resolver.new g p policy o
      (∀ c ∈ calls, ∀ id ∈ r.askedBy c, s.table.contains id = true) ∧
      (∀ id a, s.table.get? id = some a → r.resolve id s = .ok a s) ∧
      ∀ c, (∀ id ∈ r.askedBy c, s.table.contains id = true) → (r.call c).leaves s = s := by
  have hremarks : ∀ policy calls s, (Resolver.new g p policy o).callEach calls {} = .ok () s →
      s.diagnostics ~ s.table.symbols.keys.flatMap (g.remarksOn p o) :=
    fun policy calls s hrun => remarks_of_callEach wf hrun
  refine ⟨?_, ?_, ?_⟩
  · intro policy calls s hrun
    exact ⟨Sorted.nodup_keys _, fun id => Sorted.mem_keys, hremarks policy calls s hrun⟩
  · intro policy policy' calls calls' s s' hrun hrun' same
    have hkeys : s.table.symbols.keys = s'.table.symbols.keys := Sorted.keys_eq same
    calc s.diagnostics
      _ ~ s.table.symbols.keys.flatMap (g.remarksOn p o) := hremarks policy calls s hrun
      _ = s'.table.symbols.keys.flatMap (g.remarksOn p o) := by rw [hkeys]
      _ ~ s'.diagnostics := (hremarks policy' calls' s' hrun').symm
  · intro policy calls s hrun r
    obtain ⟨-, complete, -⟩ := callEach_exact wf hrun
    refine ⟨?_, ?_, fun c => leaves_call_known wf hrun⟩
    · intro c hc id hid
      exact contains_of_mem_asked wf hrun (List.mem_flatMap.2 ⟨c, hc, hid⟩)
    · intro id a hget
      exact ((known_of_callEach wf hrun hget).resolve complete.drained).eq_ok

/-! ## A nursery -/

namespace Nursery

/-- The identifier of a shape of the nursery. -/
def shape (name : String) : ShapeId := ⟨"nursery", name, none⟩

/-- Most names of the nursery are keywords, or the same up to case, or both. -/
def nodes : List Node :=
  [ ⟨shape "Text", .primitive .string, .empty⟩,
    ⟨shape "Protocol", .enum [⟨"dry", "d"⟩, ⟨"Dry", "D"⟩], .empty⟩,
    ⟨shape "Plant",
      .union [⟨"default", shape "Text", .empty⟩, ⟨"Default", shape "Protocol", .empty⟩], .empty⟩,
    ⟨shape "Beds", .list ⟨"member", shape "Bed", .empty⟩, .empty⟩,
    ⟨shape "Bed", .record [⟨"class", shape "Plant", .empty⟩, ⟨"beds", shape "Beds", .empty⟩],
      .empty⟩ ]

/-- The graph of the nursery. -/
def graph : Graph := .ofNodesD nodes

/-- What the nursery is resolved with. -/
def options : ResolverOptions := { fallbackVariant := some "default" }

/-- The nursery under a policy, seen through a target language. -/
def resolver (mode : NullabilityMode) : Resolver := .new graph .swift mode.policy options

/-- The session after calls. -/
def session (mode : NullabilityMode) (calls : List Call) : Session :=
  ((resolver mode).callEach calls).leaves {}

/-- Everything is resolved at once. -/
def atOnce : Session := session .structural [.all]

/-- Everything is resolved under another policy, the last shapes first. -/
def inParts : Session :=
  session .clientOptional [.shape (shape "Protocol"), .shape (shape "Plant"), .all]

/-- What was remarked on, in order. -/
def remarked (s : Session) : List (String × DiagnosticCode) :=
  s.diagnostics.map fun d => (d.shape.name, d.code)

end Nursery

/-- The remarks come in different orders, but they are the same ones. -/
theorem nursery_remarks_once :
    Nursery.remarked Nursery.atOnce =
      [ ("Bed", .escapedIdentifier), ("Plant", .fallbackRenamed), ("Plant", .escapedIdentifier),
        ("Plant", .nameCollision), ("Protocol", .nameCollision),
        ("Protocol", .escapedIdentifier) ] ∧
    Nursery.remarked Nursery.inParts =
      [ ("Protocol", .nameCollision), ("Protocol", .escapedIdentifier),
        ("Plant", .fallbackRenamed), ("Plant", .escapedIdentifier), ("Plant", .nameCollision),
        ("Bed", .escapedIdentifier) ] ∧
    Nursery.atOnce.diagnostics.Perm Nursery.inParts.diagnostics ∧
    Nursery.atOnce.diagnostics.Perm (Nursery.atOnce.table.symbols.keys.flatMap
      (Nursery.graph.remarksOn .swift Nursery.options)) ∧
    ((Nursery.resolver .clientOptional).call .all).leaves Nursery.inParts = Nursery.inParts := by
  obtain ⟨hruns, hsame, hrepeat⟩ := remarks_once_per_shape Nursery.graph .swift Nursery.options
    (Graph.wellFormed_ofNodesD Nursery.nodes)
  have hatOnce : (Nursery.resolver .structural).callEach [.all] {} = .ok () Nursery.atOnce := by
    obtain ⟨_, hrun⟩ := exists_ok_leaves (x := (Nursery.resolver .structural).callEach [.all])
      (s := {}) (by decide +kernel)
    exact hrun
  have hinParts : (Nursery.resolver .clientOptional).callEach
      [.shape (Nursery.shape "Protocol"), .shape (Nursery.shape "Plant"), .all] {} =
        .ok () Nursery.inParts := by
    obtain ⟨_, hrun⟩ := exists_ok_leaves (x := (Nursery.resolver .clientOptional).callEach
      [.shape (Nursery.shape "Protocol"), .shape (Nursery.shape "Plant"), .all])
      (s := {}) (by decide +kernel)
    exact hrun
  have hsymbols : Nursery.atOnce.table.symbols = Nursery.inParts.table.symbols := by
    decide +kernel
  obtain ⟨-, -, hremarks⟩ := hruns NullabilityMode.structural.policy [.all] Nursery.atOnce hatOnce
  obtain ⟨hasked, -, hcall⟩ := hrepeat NullabilityMode.clientOptional.policy _ Nursery.inParts
    hinParts
  refine ⟨by decide +kernel, by decide +kernel, ?_, hremarks, ?_⟩
  · refine hsame _ _ _ _ Nursery.atOnce Nursery.inParts hatOnce hinParts fun id => ?_
    exact congrArg (fun symbols => symbols.contains id) hsymbols
  · exact hcall .all (hasked .all (by simp))

end SchemaSymbols

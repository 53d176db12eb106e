/-
  Methods of one service that have one name.

  A build checks the names of declared types, and operations are not among them.  But every
  operation declares two records that are called after it, and these are checked.  So operations
  with one method name are refused after all if their records get one name as well, and that is so
  if the operations are evenly spelled and their records are in one namespace.  Nothing else keeps
  methods apart: a word of capitals that the method drops and the record keeps is enough.

  1. **References to operations** have one name and scope exactly if the operations are cased alike
     and nested alike (`reference_eq_iff`), since escaping shows what it was applied to.

  2. **Records of operations.**  The operations of the graph of a build are those of the given
     graph, and each has its two records there (`Phases.exists_operation`, `Phases.exists_record`),
     under identifiers that differ from one operation to another (`Phases.recordFor_ne`).  A build
     that ends well has checked that they differ in name or scope (`Phases.eq_of_same_name`).

  3. **The result** (`method_names_apart`) is the exact condition and the sufficient one.
     `Exchange` is a build with two methods of one name.
-/
import SchemaSymbols.Proofs.Build.Clones
import SchemaSymbols.Proofs.Build.Declarations
import SchemaSymbols.Proofs.Naming.OperationNames
import SchemaSymbols.Proofs.Resolution.Files
import SchemaSymbols.Proofs.Resolution.References

namespace SchemaSymbols

open Normalization

variable {g : Graph} {settings : Settings} {b : Build} {normalized : Graph} {session : Session}
  {n k p q : Node} {id : ShapeId} {side : Side}

theorem Shape.of_isRecord {s : Shape} (h : s.isRecord = true) :
    s.isDeclared = true ∧ s.isOperation = false := by
  cases s with
  | record => exact ⟨rfl, rfl⟩
  | _ => cases h

/-! ## References to operations -/

namespace Resolver

variable {r : Resolver}

theorem symbolName_of_isOperation (h : n.shape.isOperation = true) :
    r.symbolName n =
      r.namer.escaper.escape (r.namer.options.apply r.profile.operationCasing n.id.name) := by
  rw [symbolName, if_pos h]

theorem symbolName_of_isRecord (h : n.shape.isRecord = true) :
    r.symbolName n = r.namer.typeName n.id.name := by
  rw [symbolName, (Shape.of_isRecord h).2]
  rfl

/-- References to operations have one name if the operations have one cased name: nothing is lost
when it is escaped. -/
theorem reference_eq_iff (hstyle : r.namer.escaper.style.Shows) (hn : n.shape.isOperation = true)
    (hk : k.shape.isOperation = true) :
    ((r.reference n).scope = (r.reference k).scope ∧ (r.reference n).name = (r.reference k).name) ↔
      r.nesting n = r.nesting k ∧
        r.namer.options.apply r.profile.operationCasing n.id.name =
          r.namer.options.apply r.profile.operationCasing k.id.name := by
  show r.scopeOf n = r.scopeOf k ∧ r.symbolName n = r.symbolName k ↔ _
  rw [scopeOf, scopeOf, List.append_right_inj, symbolName_of_isOperation hn,
    symbolName_of_isOperation hk]
  refine and_congr_right fun _ => ⟨fun h => ?_, congrArg _⟩
  exact Escaper.escape_inj hstyle (NamingOptions.isGuarded_apply _ _ _)
    (NamingOptions.isGuarded_apply _ _ _) h

/-- Two shapes go into one namespace. -/
def NestedAlike (r : Resolver) (x y : ShapeId) : Prop :=
  (r.graph.get? x).map r.nesting = (r.graph.get? y).map r.nesting

instance (r : Resolver) (x y : ShapeId) : Decidable (r.NestedAlike x y) :=
  inferInstanceAs (Decidable (_ = _))

end Resolver

/-! ## Records of operations -/

namespace Build

theorem Phases.shapes_eq (phases : Phases g settings b normalized session) (wf : g.WellFormed)
    (id : ShapeId) : (b.graph.get? id).map Node.shape = (normalized.get? id).map Node.shape := by
  obtain ⟨_, _, hclose, -, closes⟩ := (wf.normalize phases.normalization).exists_closes
  cases hclose.symm.trans phases.closure
  exact closes.shapes id

/-- The operations of a build are those of the normalized graph. -/
theorem Phases.exists_operation (phases : Phases g settings b normalized session)
    (wf : g.WellFormed) (hn : b.graph.get? id = some n) (hoperation : n.shape.isOperation = true) :
    ∃ m ∈ normalized.operations, m.id = id ∧ m.shape = n.shape := by
  have hshape := phases.shapes_eq wf id
  rw [hn] at hshape
  obtain ⟨m, hm, hsame⟩ := Option.map_eq_some_iff.1 hshape.symm
  obtain rfl := Graph.get?_id hm
  exact ⟨m, mem_operations.2 ⟨hm, hsame ▸ hoperation⟩, rfl, hsame⟩

/-- In a build, an operation declares the record that is named for a side. -/
theorem Phases.exists_record (phases : Phases g settings b normalized session) (wf : g.WellFormed)
    (hn : b.graph.get? id = some n) (hoperation : n.shape.isOperation = true) (side : Side) :
    n.declared? side = some (settings.synthetic.recordFor id side) ∧
      ∃ p, b.graph.get? (settings.synthetic.recordFor id side) = some p ∧
        p.shape.isRecord = true := by
  obtain ⟨m, hm, rfl, hshape⟩ := phases.exists_operation wf hn hoperation
  obtain ⟨plans, middle, normalization⟩ := exists_normalized phases.normalization
  obtain ⟨operation, plan, -, hplan, planned, hid, rewired⟩ := normalization.exists_rewired hm
  obtain ⟨made, hmade, hrecord, -⟩ := normalization.exists_record hplan planned side
  have hdeclared := declared?_of_rewired planned rewired side
  rw [hid] at hmade hdeclared
  constructor
  · rw [← hdeclared]
    unfold Node.declared?
    rw [hshape]
  · have hsame := phases.shapes_eq wf (settings.synthetic.recordFor m.id side)
    rw [hmade] at hsame
    obtain ⟨p, hp, hpshape⟩ := Option.map_eq_some_iff.1 hsame
    exact ⟨p, hp, hpshape ▸ hrecord⟩

/-- The records of different operations differ. -/
theorem Phases.recordFor_ne (phases : Phases g settings b normalized session) (wf : g.WellFormed)
    {x y : ShapeId} (hn : b.graph.get? x = some n) (hoperation : n.shape.isOperation = true)
    (hk : b.graph.get? y = some k) (hoperation' : k.shape.isOperation = true) (hne : x ≠ y)
    (side : Side) :
    settings.synthetic.recordFor x side ≠ settings.synthetic.recordFor y side := by
  obtain ⟨m, hm, rfl, -⟩ := phases.exists_operation wf hn hoperation
  obtain ⟨m', hm', rfl, -⟩ := phases.exists_operation wf hk hoperation'
  obtain ⟨plans, middle, normalization⟩ := exists_normalized phases.normalization
  obtain ⟨operation, -, ho, -, -, hid, -⟩ := normalization.exists_rewired hm
  obtain ⟨operation', -, ho', -, -, hid', -⟩ := normalization.exists_rewired hm'
  intro he
  rw [← hid, ← hid'] at he hne
  exact hne (congrArg Node.id (eq_of_recordFor_eq normalization.planned ho ho' he).1)

/-- Declared types of a build are one if they have one namespace and one name. -/
theorem Phases.eq_of_same_name (phases : Phases g settings b normalized session)
    (wf : g.WellFormed) {x y : ShapeId} (hp : b.graph.get? x = some p)
    (hdeclared : p.shape.isDeclared = true) (hx : b.table.contains x = true)
    (hq : b.graph.get? y = some q) (hdeclared' : q.shape.isDeclared = true)
    (hy : b.table.contains y = true)
    (hscope : (settings.resolver b.graph).scopeOf p = (settings.resolver b.graph).scopeOf q)
    (hname : (settings.resolver b.graph).symbolName p = (settings.resolver b.graph).symbolName q) :
    x = y := by
  have table := (phases.table_sound wf).1
  have hsymbol : ∀ {x p}, b.graph.get? x = some p → p.shape.isDeclared = true →
      b.table.contains x = true → ∃ a ∈ b.table.declared, a.shape = x ∧
        a.scope = (settings.resolver b.graph).scopeOf p ∧
        a.displayName = (settings.resolver b.graph).symbolName p := by
    intro x p hp hdeclared hx
    obtain ⟨a, hget, hshown⟩ := (phases.isDeclared_iff wf).2 ⟨hx, p, hp, hdeclared⟩
    have hnamed : p.shape.isNamed = true := by
      rw [Shape.isNamed, hdeclared]
      rfl
    have hreference := table.reference_eq hp hget hnamed
    exact ⟨a, SymbolTable.mem_declared_of_get? hget hshown, SymbolTable.get?_shape hget,
      congrArg SymbolRef.scope hreference, congrArg SymbolRef.name hreference⟩
  obtain ⟨a, ha, rfl, hascope, haname⟩ := hsymbol hp hdeclared hx
  obtain ⟨c, hc, rfl, hcscope, hcname⟩ := hsymbol hq hdeclared' hy
  have hchecked : b.table.checkNames = .ok () := by
    rw [phases.table]
    exact Resolver.checkNames_of_resolveAll phases.resolution
  exact SymbolTable.shape_eq_of_checkNames hchecked ha hc
    (hascope.trans (hscope.trans hcscope.symm)) (haname.trans (hname.trans hcname.symm))

/-- What a service refers to: the reference is made from a node of the graph, and if that is an
operation, its records have symbols. -/
theorem Phases.of_mem_service (phases : Phases g settings b normalized session) (wf : g.WellFormed)
    {a : Symbol} {refs : List SymbolRef} {x : SymbolRef} (hget : b.table.get? id = some a)
    (hkind : a.kind = .service refs) (hx : x ∈ refs) (hn : b.graph.get? x.shape = some n) :
    x = (settings.resolver b.graph).reference n ∧
      (n.shape.isOperation = true → ∀ side,
        b.table.contains (settings.synthetic.recordFor x.shape side) = true) := by
  obtain ⟨table, hknown⟩ := phases.table_sound wf
  have href : x ∈ a.refs := by
    rw [Symbol.refs, hkind]
    exact List.mem_append_right _ hx
  obtain ⟨hreaches, m, hm, hreference⟩ := table.leads hget href
  cases hn.symm.trans hm
  refine ⟨hreference, fun hoperation side => ?_⟩
  have closed := (phases.wellFormed wf).closed_exposed
  have hexposed : b.graph.Exposed x.shape :=
    closed.of_reaches hreaches (table.symbols id a hget).1
  obtain ⟨hdeclared, -⟩ := phases.exists_record wf hn hoperation side
  refine hknown _ (closed _ _ hexposed ⟨n, hn, ?_⟩)
  cases side with
  | input => exact ⟨_, Node.mem_references_input.2 ⟨hoperation, hdeclared⟩, rfl⟩
  | output => exact ⟨_, Node.mem_references_output.2 ⟨hoperation, hdeclared⟩, rfl⟩

end Build

/-- Operations of one service are called by one name, in one namespace, exactly if they are nested
    alike and have one cased name; the escaping of names keeps them apart or together.  If on some
    side their records are nested alike, then this does not happen to operations that are evenly
    spelled, provided that the ending of the records is a word of its own. -/
theorem method_names_apart (wf : g.WellFormed) (h : Build.run g settings = .ok b) {a : Symbol}
    {refs : List SymbolRef} {x y : SymbolRef} (hget : b.table.get? id = some a)
    (hkind : a.kind = .service refs) (hx : x ∈ refs) (hy : y ∈ refs)
    (hn : b.graph.get? x.shape = some n) (hk : b.graph.get? y.shape = some k)
    (hoperation : n.shape.isOperation = true) (hoperation' : k.shape.isOperation = true)
    (hne : x.shape ≠ y.shape) :
    (x.scope = y.scope ∧ x.name = y.name ↔
      (settings.resolver b.graph).nesting n = (settings.resolver b.graph).nesting k ∧
        settings.naming.apply settings.profile.operationCasing x.shape.name =
          settings.naming.apply settings.profile.operationCasing y.shape.name) ∧
    ∀ side : Side,
      (settings.resolver b.graph).NestedAlike (settings.synthetic.recordFor x.shape side)
        (settings.synthetic.recordFor y.shape side) →
      Naming.startsWord (settings.synthetic.suffixFor side).toList = true →
      settings.naming.EvenlySpelled x.shape.name → settings.naming.EvenlySpelled y.shape.name →
        ¬ (x.scope = y.scope ∧ x.name = y.name) := by
  obtain ⟨normalized, session, phases⟩ := Build.exists_phases h
  obtain ⟨hxref, hxrecord⟩ := phases.of_mem_service wf hget hkind hx hn
  obtain ⟨hyref, hyrecord⟩ := phases.of_mem_service wf hget hkind hy hk
  have hxid : n.id = x.shape := Graph.get?_id hn
  have hyid : k.id = y.shape := Graph.get?_id hk
  have hsame : (x.scope = y.scope ∧ x.name = y.name ↔
      (settings.resolver b.graph).nesting n = (settings.resolver b.graph).nesting k ∧
        settings.naming.apply settings.profile.operationCasing x.shape.name =
          settings.naming.apply settings.profile.operationCasing y.shape.name) := by
    rw [← hxid, ← hyid]
    have hiff := Resolver.reference_eq_iff (r := settings.resolver b.graph)
      (Profile.shows_escapeStyle settings.target.language) hoperation hoperation'
    rw [← hxref, ← hyref] at hiff
    exact hiff
  refine ⟨hsame, fun side nested hending heven heven' hclash => ?_⟩
  have hcased := NamingOptions.cased_eq_of_apply_eq (hsame.1 hclash).2
  -- the records would have one namespace and one name, and they are two
  obtain ⟨-, p, hp, hrecord⟩ := phases.exists_record wf hn hoperation side
  obtain ⟨-, q, hq, hrecord'⟩ := phases.exists_record wf hk hoperation' side
  have hscope : (settings.resolver b.graph).scopeOf p = (settings.resolver b.graph).scopeOf q := by
    change (b.graph.get? _).map _ = (b.graph.get? _).map _ at nested
    rw [hp, hq] at nested
    exact congrArg ((settings.resolver b.graph).root ++ ·) (Option.some.inj nested)
  have htype : settings.naming.typeName (settings.synthetic.recordFor x.shape side).name =
      settings.naming.typeName (settings.synthetic.recordFor y.shape side).name :=
    heven.typeName_eq heven' hending hcased
  have hname : (settings.resolver b.graph).symbolName p =
      (settings.resolver b.graph).symbolName q := by
    rw [Resolver.symbolName_of_isRecord hrecord, Resolver.symbolName_of_isRecord hrecord',
      Graph.get?_id hp, Graph.get?_id hq]
    exact congrArg (settings.resolver b.graph).namer.escaper.escape htype
  refine phases.recordFor_ne wf hn hoperation hk hoperation' hne side ?_
  exact phases.eq_of_same_name wf hp (Shape.of_isRecord hrecord).1
    (hxrecord hoperation side) hq (Shape.of_isRecord hrecord').1
    (hyrecord hoperation' side) hscope hname

/-! ## An exchange -/

namespace Exchange

/-- The identifier of a shape of the exchange. -/
def shape (name : String) : ShapeId := ⟨"net", name, none⟩

/-- An operation without records. -/
def operation (name : String) : Node := ⟨shape name, .operation none none [], .empty⟩

/-- A service with three operations; two of them have the same letters. -/
def graph : Graph :=
  .ofNodesD
    [ ⟨shape "Exchange", .service [shape "DNSLookup", shape "DnsLookup", shape "ring_up"], .empty⟩,
      operation "DNSLookup", operation "DnsLookup", operation "ring_up" ]

/-- The exchange, built for Swift. -/
def build : Build :=
  match Build.run graph {} with
  | .ok b => b
  | .error _ => default

/-- The reference to a lookup that is spelled with a word of capitals. -/
def capitals : SymbolRef := ⟨shape "DNSLookup", ["Models"], "dnsLookup"⟩

/-- The reference to a lookup that is evenly spelled. -/
def look : SymbolRef := ⟨shape "DnsLookup", ["Models"], "dnsLookup"⟩

/-- The reference to the third operation. -/
def ring : SymbolRef := ⟨shape "ring_up", ["Models"], "ringUp"⟩

/-- The record for an input. -/
def input (ref : SymbolRef) : ShapeId := SyntheticNaming.recordFor {} ref.shape .input

/-- The exchange is built, with three methods, of which two are evenly spelled. -/
theorem run_graph :
    Build.run graph {} = .ok build ∧
      (build.table.get? (shape "Exchange")).map Symbol.kind =
        some (.service [capitals, look, ring]) ∧
      (∀ ref ∈ [capitals, look, ring],
        (build.graph.get? ref.shape).any (fun n => n.shape.isOperation) = true) ∧
      (Settings.resolver {} build.graph).NestedAlike (input look) (input ring) := by
  decide +kernel

end Exchange

/-- Two methods of the exchange that are evenly spelled differ in their names. -/
theorem exchange_methods_apart :
    Build.run Exchange.graph {} = .ok Exchange.build ∧
      (Exchange.build.table.get? (Exchange.shape "Exchange")).map Symbol.kind =
        some (.service [Exchange.capitals, Exchange.look, Exchange.ring]) ∧
      ¬ (Exchange.look.scope = Exchange.ring.scope ∧ Exchange.look.name = Exchange.ring.name) := by
  obtain ⟨hrun, hkind, hoperations, hnested⟩ := Exchange.run_graph
  obtain ⟨a, hget, hservice⟩ := Option.map_eq_some_iff.1 hkind
  obtain ⟨n, hn, hoperation⟩ :=
    (Option.any_eq_true _ _).1 (hoperations Exchange.look (by simp))
  obtain ⟨k, hk, hoperation'⟩ :=
    (Option.any_eq_true _ _).1 (hoperations Exchange.ring (by simp))
  have hlook : Exchange.look ∈ [Exchange.capitals, Exchange.look, Exchange.ring] := by simp
  have hring : Exchange.ring ∈ [Exchange.capitals, Exchange.look, Exchange.ring] := by simp
  have wf : Exchange.graph.WellFormed := Graph.wellFormed_ofNodesD _
  obtain ⟨-, hapart⟩ := method_names_apart wf hrun hget hservice hlook hring hn hk hoperation
    hoperation' (by decide)
  exact ⟨hrun, hkind, hapart .input hnested (by decide) (by decide +kernel) (by decide +kernel)⟩

/-- Method names drop capitals that the names of records keep, so the clash is not refused. -/
theorem exchange_methods_clash :
    Exchange.graph.WellFormed ∧ Build.run Exchange.graph {} = .ok Exchange.build ∧
      (Exchange.build.table.get? (Exchange.shape "Exchange")).map Symbol.kind =
        some (.service [Exchange.capitals, Exchange.look, Exchange.ring]) ∧
      (∀ ref ∈ [Exchange.capitals, Exchange.look],
        (Exchange.build.graph.get? ref.shape).any (fun n => n.shape.isOperation) = true) ∧
      Exchange.capitals.shape ≠ Exchange.look.shape ∧
      Exchange.capitals.scope = Exchange.look.scope ∧
      Exchange.capitals.name = Exchange.look.name := by
  obtain ⟨hrun, hkind, hoperations, -⟩ := Exchange.run_graph
  refine ⟨Graph.wellFormed_ofNodesD _, hrun, hkind, fun ref href => hoperations ref ?_, by decide,
    rfl, rfl⟩
  rcases List.mem_cons.1 href with rfl | href
  · simp
  · simp [List.mem_singleton.1 href]

end SchemaSymbols

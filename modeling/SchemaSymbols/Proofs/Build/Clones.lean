/-
  What copies are said to be copies of.

  1. **The record that tags name.**  A copy inherits the tags of its source, those that name a
     record among them, and what a tag set names is the least of these records
     (`cloneOf?_eq_some_iff`).

  2. **The record that a copy names.**  So a copy names its source just when the source is not
     itself a copy of a lesser record (`LeastOwnSource`, `LeastNamed.eq_id_iff`).

  3. **The operations that use a record** are counted by the index, which lists them once for each
     side they use it on (`mem_usersOf`).

  4. **What a build makes of it.**  The closure adds no tag that names a record, so a build looks
     the copies up in the graph that the normalization left (`exists_cloneOf?_of_closes`).  The
     copies that it lists for a record (`mem_clonesOf`), and what it remarks on a record that
     several operations share (`filter_diagnostics`), depend on this one look-up and on nothing
     else.

  `Engraver` has a record that several operations take, and one that is a copy already.
-/
import SchemaSymbols.Proofs.Build.Idempotence
import SchemaSymbols.Proofs.Graph.Editing
import SchemaSymbols.Proofs.Normalization.Result

namespace SchemaSymbols

open Std Normalization

variable {g g' middle : Graph} {naming : SyntheticNaming} {plans : List Plan} {operation : Node}
  {side : Side} {id x y : ShapeId} {tags : TagSet} {settings : Settings} {b : Build}

/-! ## The record that tags name -/

/-- Tags that name records are in the order of these records. -/
theorem Tag.compare_cloneOf (x y : ShapeId) : compare (cloneOf x) (cloneOf y) = compare x y := by
  have hmember : compare x.member.toList y.member.toList = compare x.member y.member := by
    cases x.member with
    | none => cases y.member <;> rfl
    | some m =>
      cases y.member with
      | none => rfl
      | some m' =>
        show compare [m] [m'] = compare m m'
        rw [List.compare_cons_cons, List.compare_nil_nil]
        cases compare m m' <;> rfl
  show (compare 8 8).then (compare (x.scope :: x.name :: x.member.toList)
    (y.scope :: y.name :: y.member.toList)) = _
  rw [List.compare_cons_cons, List.compare_cons_cons, hmember]
  rfl

namespace TagSet

theorem cloneOf_of_mem_cloneOf? {t : Tag}
    (h : (match t with | .cloneOf id => some id | _ => none) = some x) : t = .cloneOf x := by
  cases t <;> simp_all

/-- Tags that name a record name one first. -/
theorem exists_cloneOf? (h : .cloneOf x ∈ tags) : ∃ least, cloneOf? tags = some least :=
  Option.isSome_iff_exists.1 (List.findSome?_isSome_iff.2 ⟨_, h, rfl⟩)

/-- A set of tags names the least record that one of its tags names. -/
theorem cloneOf?_eq_some_iff :
    cloneOf? tags = some x ↔
      .cloneOf x ∈ tags ∧ ∀ y, .cloneOf y ∈ tags → x.le y = true := by
  have hleast : ∀ {x}, cloneOf? tags = some x →
      .cloneOf x ∈ tags ∧ ∀ y, .cloneOf y ∈ tags → x.le y = true := by
    intro x h
    obtain ⟨before, t, after, hsplit, hnames, hbefore⟩ := List.findSome?_eq_some_iff.1 h
    obtain rfl := cloneOf_of_mem_cloneOf? hnames
    refine ⟨?_, fun y hy => ?_⟩
    · show _ ∈ tags.toList
      rw [hsplit]
      exact List.mem_append_right _ List.mem_cons_self
    · have hnotBefore : .cloneOf y ∉ before := fun hmem => nomatch hbefore _ hmem
      have hle := Sorted.isLE_of_not_mem_before hsplit hy hnotBefore
      change (compare (Tag.cloneOf x) (.cloneOf y)).isLE = true at hle
      rwa [Tag.compare_cloneOf] at hle
  refine ⟨hleast, fun ⟨hx, hle⟩ => ?_⟩
  obtain ⟨least, hsome⟩ := exists_cloneOf? hx
  obtain ⟨hmem, hother⟩ := hleast hsome
  have hsame : least = x :=
    compare_eq_iff_eq.1 (OrientedCmp.isLE_antisymm (hother x hx) (hle least hmem))
  rw [hsome, hsame]

/-- Tags that name the same records name the same record first. -/
theorem cloneOf?_congr {tags' : TagSet}
    (h : ∀ x, .cloneOf x ∈ tags ↔ .cloneOf x ∈ tags') : cloneOf? tags = cloneOf? tags' := by
  ext x
  rw [cloneOf?_eq_some_iff, cloneOf?_eq_some_iff, h x]
  simp only [h]

end TagSet

/-! ## The record that a copy names -/

/-- The least of a record and the records that its tags name. -/
structure LeastNamed (source : Node) (x : ShapeId) : Prop where
  among : x = source.id ∨ .cloneOf x ∈ source.tags
  least : ∀ y, y = source.id ∨ .cloneOf y ∈ source.tags → x.le y = true

/-- No tag of a record names a lesser record. -/
def LeastOwnSource (source : Node) : Prop :=
  ∀ x, .cloneOf x ∈ source.tags → source.id.le x = true

/-- The least record that a copy of a source names is the source, if the source names no lesser one.
-/
theorem LeastNamed.eq_id_iff {source : Node} (h : LeastNamed source x) :
    x = source.id ↔ LeastOwnSource source := by
  constructor
  · rintro rfl
    exact fun y hy => h.least y (Or.inr hy)
  · intro own
    have hle := h.least source.id (Or.inl rfl)
    rcases h.among with rfl | htag
    · rfl
    · exact compare_eq_iff_eq.1 (OrientedCmp.isLE_antisymm hle (own x htag))

namespace Normalization

/-- A copy names the least of its source and the records that the tags of its source name. -/
theorem ClonedFor.exists_leastNamed (cloned : ClonedFor g g' naming operation side id) :
    ∃ source copy x, operation.declared? side = some source.id ∧ g.get? source.id = some source ∧
      g'.get? id = some copy ∧ TagSet.cloneOf? copy.tags = some x ∧ LeastNamed source x := by
  obtain ⟨source, members, tags, declared, node, -, copy, htags⟩ := cloned.copied
  have hnamed : ∀ y, .cloneOf y ∈ tags ↔ y = source.id ∨ .cloneOf y ∈ source.tags := by
    intro y
    rw [htags]
    constructor
    · rintro (htag | htag | htag | htag)
      · exact Or.inr htag
      · exact Or.inl (Tag.cloneOf.inj htag)
      · cases htag
      · cases htag
    · rintro (rfl | htag)
      · exact Or.inr (Or.inl rfl)
      · exact Or.inl htag
  obtain ⟨x, hx⟩ := TagSet.exists_cloneOf? ((hnamed source.id).2 (Or.inl rfl))
  obtain ⟨hmem, hle⟩ := TagSet.cloneOf?_eq_some_iff.1 hx
  refine ⟨source, _, x, declared, node, copy, hx, (hnamed x).1 hmem, fun y hy => ?_⟩
  exact hle y ((hnamed y).2 hy)

/-- A side whose record is reported as a copy has a copy of the record that it declares. -/
theorem Normalized.clonedFor (h : Normalized g naming g' plans middle)
    (ho : operation ∈ g.operations)
    (hid : naming.recordFor operation.id side ∈ (reportOf plans).cloned) :
    ClonedFor g g' naming operation side (naming.recordFor operation.id side) := by
  obtain ⟨operation', ho', side', cloned⟩ := h.mem_cloned.1 hid
  obtain ⟨rfl, rfl⟩ := eq_of_recordFor_eq h.planned ho ho' cloned.named
  exact cloned

end Normalization

/-! ## The operations that use a record -/

namespace Node

variable {n : Node}

/-- A shape refers to an input if it is an operation that declares it. -/
theorem mem_references_input :
    (EdgeKind.input, y) ∈ n.shape.references ↔
      n.shape.isOperation = true ∧ n.declared? .input = some y := by
  obtain ⟨id, shape, tags⟩ := n
  cases shape <;> simp [Shape.references, Shape.isOperation, Node.declared?]

/-- A shape refers to an output if it is an operation that declares it. -/
theorem mem_references_output :
    (EdgeKind.output, y) ∈ n.shape.references ↔
      n.shape.isOperation = true ∧ n.declared? .output = some y := by
  obtain ⟨id, shape, tags⟩ := n
  cases shape <;> simp [Shape.references, Shape.isOperation, Node.declared?]

end Node

namespace Build

/-- The users of a record are the operations that declare it on some side. -/
theorem mem_usersOf (wf : g.WellFormed) :
    x ∈ usersOf g y ↔
      ∃ user ∈ g.operations, user.id = x ∧ ∃ side, user.declared? side = some y := by
  have hsources : ∀ kind, x ∈ g.sources y kind ↔
      ∃ n, g.get? x = some n ∧ (kind, y) ∈ n.shape.references := fun kind =>
    Graph.mem_sources_iff.trans (Graph.mem_targets_iff.symm.trans wf.mem_targets)
  rw [usersOf, Sorted.mem_ofList, List.mem_append, hsources, hsources]
  constructor
  · rintro (⟨n, hn, hdeclares⟩ | ⟨n, hn, hdeclares⟩)
    · obtain ⟨hoperation, hdeclared⟩ := Node.mem_references_input.1 hdeclares
      obtain rfl := Graph.get?_id hn
      exact ⟨n, mem_operations.2 ⟨hn, hoperation⟩, rfl, .input, hdeclared⟩
    · obtain ⟨hoperation, hdeclared⟩ := Node.mem_references_output.1 hdeclares
      obtain rfl := Graph.get?_id hn
      exact ⟨n, mem_operations.2 ⟨hn, hoperation⟩, rfl, .output, hdeclared⟩
  · rintro ⟨user, huser, rfl, side, hdeclared⟩
    obtain ⟨hget, hoperation⟩ := mem_operations.1 huser
    cases side with
    | input => exact Or.inl ⟨user, hget, Node.mem_references_input.2 ⟨hoperation, hdeclared⟩⟩
    | output => exact Or.inr ⟨user, hget, Node.mem_references_output.2 ⟨hoperation, hdeclared⟩⟩

/-! ## What a build makes of it -/

/-- A build lists the nodes that name a record as its copies. -/
theorem mem_clonesOf :
    id ∈ b.clonesOf x ↔ ∃ n, b.graph.get? id = some n ∧ TagSet.cloneOf? n.tags = some x := by
  rw [clonesOf, List.mem_map]
  simp only [List.mem_filter, decide_eq_true_eq]
  constructor
  · rintro ⟨n, ⟨hn, hsource⟩, rfl⟩
    exact ⟨n, Graph.get?_of_mem hn, hsource⟩
  · rintro ⟨n, hn, hsource⟩
    exact ⟨n, ⟨Graph.mem_nodes hn, hsource⟩, Graph.get?_id hn⟩

/-- The closure leaves alone what the tags of a shape name. -/
theorem exists_cloneOf?_of_closes {report : EqualityClosure.Report} {n : Node}
    (closes : Closes g g' report) (hn : g.get? id = some n) :
    ∃ n', g'.get? id = some n' ∧ TagSet.cloneOf? n'.tags = TagSet.cloneOf? n.tags := by
  obtain ⟨n', hn', -⟩ : ∃ n', g'.get? id = some n' ∧ n'.shape = n.shape := by
    simpa [hn] using closes.shapes id
  refine ⟨n', hn', TagSet.cloneOf?_congr fun x => ?_⟩
  rw [closes.tags id n n' hn hn']
  constructor
  · rintro (htag | ⟨htag, -⟩)
    · exact htag
    · cases htag
  · exact Or.inl

/-- The remark on a copy that names its source: how many operations use the source, if it is not the
only one. -/
theorem cloneRemarks_eq {copy : Node} (hcopy : g'.get? id = some copy)
    (hx : TagSet.cloneOf? copy.tags = some x) :
    cloneRemarks g g' id =
      if 1 < (usersOf g x).size then [.sharedRecordCloned id x (usersOf g x).size] else [] := by
  unfold cloneRemarks
  simp only [hcopy, hx]

/-- The remarks on one copy are all about this copy, and about sharing. -/
theorem filter_cloneRemarks (g g' : Graph) (copy : ShapeId) :
    ((cloneRemarks g g' copy).filter fun d => d.shape = id ∧ d.code = .sharedRecordCloned) =
      if copy = id then cloneRemarks g g' copy else [] := by
  have hcode : ∀ d ∈ cloneRemarks g g' copy, d.shape = copy ∧ d.code = .sharedRecordCloned := by
    intro d hd
    rw [cloneRemarks] at hd
    split at hd
    · cases hd
    · split at hd
      · cases hd
      · dsimp only at hd
        split at hd
        · cases List.mem_singleton.1 hd
          exact ⟨rfl, rfl⟩
        · cases hd
  split
  · rename_i hid
    exact List.filter_eq_self.2 fun d hd => decide_eq_true (hid ▸ hcode d hd)
  · rename_i hne
    refine List.filter_eq_nil_iff.2 fun d hd hmatch => hne ?_
    rw [← (hcode d hd).1]
    exact (of_decide_eq_true hmatch).1

/-- Where only one element of a list without repetitions contributes, that is the whole. -/
theorem flatMap_eq_of_mem {α β : Type} {l : List α} {f : α → List β} {a : α} (hnodup : l.Nodup)
    (ha : a ∈ l) (hf : ∀ x ∈ l, x ≠ a → f x = []) : l.flatMap f = f a := by
  obtain ⟨before, after, rfl⟩ := List.append_of_mem ha
  obtain ⟨-, hafter, hbefore⟩ := List.nodup_append.1 hnodup
  have hnone : ∀ x ∈ before ++ after, f x = [] := by
    intro x hx
    rcases List.mem_append.1 hx with hx | hx
    · exact hf x (List.mem_append_left _ hx) fun he => hbefore x hx a List.mem_cons_self he
    · exact hf x (List.mem_append_right _ (List.mem_cons_of_mem _ hx)) fun he =>
        (List.nodup_cons.1 hafter).1 (he ▸ hx)
  rw [List.forall_mem_append] at hnone
  rw [List.flatMap_append, List.flatMap_cons, List.flatMap_eq_nil_iff.2 hnone.1,
    List.flatMap_eq_nil_iff.2 hnone.2, List.nil_append, List.append_nil]

/-- Of a normalization's remarks, those on the sharing of a copied record are the remarks on the
copy. -/
theorem filter_normalizationRemarks {report : Report} (hnodup : report.cloned.Nodup)
    (hid : id ∈ report.cloned) :
    ((normalizationRemarks g g' report).filter fun d =>
      d.shape = id ∧ d.code = .sharedRecordCloned) = cloneRemarks g g' id := by
  have hcreated : ((report.created.map Diagnostic.recordSynthesized).filter fun d =>
      d.shape = id ∧ d.code = .sharedRecordCloned) = [] := by
    refine List.filter_eq_nil_iff.2 fun d hd => ?_
    obtain ⟨record, -, rfl⟩ := List.mem_map.1 hd
    simp [Diagnostic.recordSynthesized]
  rw [normalizationRemarks, List.filter_append, hcreated, List.append_nil, List.filter_flatMap]
  simp only [filter_cloneRemarks]
  rw [flatMap_eq_of_mem hnodup hid fun x _ hne => if_neg hne, if_pos rfl]

/-- Of a build's remarks, those on the sharing of a copied record are the remarks on the copy. -/
theorem filter_diagnostics {session : Session} (wf : g.WellFormed)
    (phases : Phases g settings b g' session) (concluded : Concluded g settings b g' session)
    (hnodup : b.normalization.cloned.Nodup) (hid : id ∈ b.normalization.cloned) :
    (b.diagnostics.filter fun d => d.shape = id ∧ d.code = .sharedRecordCloned) =
      cloneRemarks g g' id := by
  have onNames : OnNames session.diagnostics :=
    onNames_resolveAll (phases.wellFormed wf) phases.resolution
  have hnames :
      (session.diagnostics.filter fun d => d.shape = id ∧ d.code = .sharedRecordCloned) = [] := by
    refine List.filter_eq_nil_iff.2 fun d hd hmatch => ?_
    have hother := onNames d hd
    rw [Diagnostic.isOnMadeRecord, (of_decide_eq_true hmatch).2] at hother
    cases hother
  rw [concluded.diagnostics, List.filter_append, hnames, List.append_nil,
    filter_normalizationRemarks hnodup hid]

end Build

/-- What the copy for a side names as its source is the least of the record that the side declares
    and the records that the tags of this record name; so it is the declared record just when none
    of its tags names a lesser one.  Where that is so, a build lists the copy as one of the declared
    record, and makes one remark on the sharing of that record, with the number of operations that
    declare it, if there are several of them. -/
theorem copies_name_least_source (g : Graph) :
    (∀ (g' : Graph) (naming : SyntheticNaming) (report : Report),
      g.normalize naming = .ok (g', report) →
      ∀ operation ∈ g.operations, ∀ side,
        naming.recordFor operation.id side ∈ report.cloned →
        ∃ source copy x, operation.declared? side = some source.id ∧
          g.get? source.id = some source ∧
          g'.get? (naming.recordFor operation.id side) = some copy ∧
          TagSet.cloneOf? copy.tags = some x ∧ LeastNamed source x ∧
          (x = source.id ↔ LeastOwnSource source)) ∧
      ∀ (settings : Settings) (b : Build), g.WellFormed → Build.run g settings = .ok b →
        ∀ operation ∈ g.operations, ∀ side,
          settings.synthetic.recordFor operation.id side ∈ b.normalization.cloned →
          ∃ source users, operation.declared? side = some source.id ∧
            g.get? source.id = some source ∧ users = Build.usersOf g source.id ∧
            (∀ id, id ∈ users ↔ ∃ user ∈ g.operations, user.id = id ∧
              ∃ side, user.declared? side = some source.id) ∧
            (LeastOwnSource source →
              settings.synthetic.recordFor operation.id side ∈ b.clonesOf source.id ∧
              (b.diagnostics.filter fun d =>
                d.shape = settings.synthetic.recordFor operation.id side ∧
                  d.code = .sharedRecordCloned) =
                if 1 < users.size then
                  [.sharedRecordCloned (settings.synthetic.recordFor operation.id side) source.id
                    users.size]
                else []) := by
  constructor
  · intro g' naming report h operation ho side hid
    obtain ⟨plans, middle, normalized, rfl⟩ := exists_normalized_reportOf h
    obtain ⟨source, copy, x, declared, node, hcopy, hx, least⟩ :=
      (normalized.clonedFor ho hid).exists_leastNamed
    exact ⟨source, copy, x, declared, node, hcopy, hx, least, least.eq_id_iff⟩
  · intro settings b wf h operation ho side hid
    obtain ⟨g', session, phases, concluded⟩ := Build.run_eq_ok.1 h
    obtain ⟨plans, middle, normalized, hreport⟩ := exists_normalized_reportOf phases.normalization
    have hcloned : settings.synthetic.recordFor operation.id side ∈ (reportOf plans).cloned :=
      hreport ▸ hid
    obtain ⟨source, copy, x, declared, node, hcopy, hx, least⟩ :=
      (normalized.clonedFor ho hcloned).exists_leastNamed
    refine ⟨source, _, declared, node, rfl, fun id => Build.mem_usersOf wf, fun own => ?_⟩
    obtain rfl := least.eq_id_iff.2 own
    obtain ⟨closed, closure, hclose, -, closes⟩ := (wf.normalize phases.normalization).exists_closes
    cases hclose.symm.trans phases.closure
    constructor
    · obtain ⟨n, hn, hsame⟩ := Build.exists_cloneOf?_of_closes closes hcopy
      exact Build.mem_clonesOf.2 ⟨n, hn, hsame.trans hx⟩
    · have hnodup : b.normalization.cloned.Nodup := by
        rw [hreport]
        exact (List.nodup_append.1 normalized.nodup_report).1
      rw [Build.filter_diagnostics wf phases concluded hnodup hid, Build.cloneRemarks_eq hcopy hx]

/-! ## An engraver -/

namespace Engraver

/-- The identifier of a shape of the engraver. -/
def shape (name : String) : ShapeId := ⟨"base", name, none⟩

/-- A record that operations declare. -/
def plate : Node := ⟨shape "Plate", .record [], .empty⟩

/-- The record of an operation that was made under another namespace, as a copy of the plate. -/
def earlier : Node :=
  ⟨⟨"made", "EtchIn", none⟩, .record [], Sorted.ofList [.cloneOf plate.id, .synthetic, .input]⟩

/-- An operation with a declared input. -/
def taking (name : String) (input : ShapeId) : Node :=
  ⟨shape name, .operation (some input) none [], .empty⟩

/-- Two operations share the plate. -/
def shared : Graph := .ofNodesD [plate, taking "Etch" plate.id, taking "Press" plate.id]

/-- An operation has a record that was made earlier. -/
def again : Graph := .ofNodesD [plate, earlier, taking "Etch" earlier.id]

/-- Made records have a short namespace. -/
def chosen : Settings := { synthetic := { scope := "new" } }

/-- A graph, built. -/
def build (g : Graph) : Build :=
  match Build.run g chosen with
  | .ok b => b
  | .error _ => default

/-- The graph with the earlier record, normalized. -/
def renewed : Graph × Report :=
  match again.normalize chosen.synthetic with
  | .ok result => result
  | .error _ => ({}, {})

/-- The identifier of the record for an input. -/
def input (name : String) : ShapeId := chosen.synthetic.recordFor (shape name) .input

end Engraver

/-- A copy of a copy names the least record; two copies of a shared record are listed for it, and
each is remarked on with the number of its users. -/
theorem engraver_copies_name_least_source :
    (Engraver.again.normalize Engraver.chosen.synthetic =
        .ok (Engraver.renewed.1, Engraver.renewed.2) ∧
      ∃ copy x, Engraver.renewed.1.get? (Engraver.input "Etch") = some copy ∧
        TagSet.cloneOf? copy.tags = some x ∧ LeastNamed Engraver.earlier x) ∧
    Engraver.shared.WellFormed ∧
      Build.run Engraver.shared Engraver.chosen = .ok (Engraver.build Engraver.shared) ∧
      Engraver.input "Etch" ∈ (Engraver.build Engraver.shared).clonesOf Engraver.plate.id ∧
      ((Engraver.build Engraver.shared).diagnostics.filter fun d =>
        d.shape = Engraver.input "Etch" ∧ d.code = .sharedRecordCloned) =
          [.sharedRecordCloned (Engraver.input "Etch") Engraver.plate.id 2] := by
  constructor
  · have hrun : Engraver.again.normalize Engraver.chosen.synthetic =
          .ok (Engraver.renewed.1, Engraver.renewed.2) ∧
        Engraver.input "Etch" ∈ Engraver.renewed.2.cloned ∧
        Engraver.again.get? (Engraver.shape "Etch") =
          some (Engraver.taking "Etch" Engraver.earlier.id) ∧
        Engraver.again.get? Engraver.earlier.id = some Engraver.earlier := by
      decide +kernel
    obtain ⟨hrun, hcloned, hetch, hearlier⟩ := hrun
    have hoperation : Engraver.taking "Etch" Engraver.earlier.id ∈ Engraver.again.operations :=
      mem_operations.2 ⟨hetch, rfl⟩
    obtain ⟨source, copy, x, declared, node, hcopy, hx, least, -⟩ :=
      (copies_name_least_source _).1 _ _ _ hrun _ hoperation .input hcloned
    have hid : source.id = Engraver.earlier.id := (Option.some.inj declared).symm
    rw [hid, hearlier] at node
    cases node
    exact ⟨hrun, copy, x, hcopy, hx, least⟩
  · have wf : Engraver.shared.WellFormed := Graph.wellFormed_ofNodesD _
    have hrun : Build.run Engraver.shared Engraver.chosen = .ok (Engraver.build Engraver.shared) ∧
        Engraver.input "Etch" ∈ (Engraver.build Engraver.shared).normalization.cloned ∧
        Engraver.shared.get? (Engraver.shape "Etch") =
          some (Engraver.taking "Etch" Engraver.plate.id) ∧
        Engraver.shared.get? Engraver.plate.id = some Engraver.plate ∧
        (Build.usersOf Engraver.shared Engraver.plate.id).size = 2 := by
      decide +kernel
    obtain ⟨hrun, hcloned, hetch, hplate, husers⟩ := hrun
    have hoperation : Engraver.taking "Etch" Engraver.plate.id ∈ Engraver.shared.operations :=
      mem_operations.2 ⟨hetch, rfl⟩
    obtain ⟨source, users, declared, node, rfl, -, hown⟩ :=
      (copies_name_least_source _).2 _ _ wf hrun _ hoperation .input hcloned
    have hid : source.id = Engraver.plate.id := (Option.some.inj declared).symm
    rw [hid, hplate] at node
    cases node
    obtain ⟨hclones, hremarks⟩ := hown fun x hx => absurd hx List.not_mem_nil
    rw [husers] at hremarks
    exact ⟨wf, hrun, hclones, hremarks⟩

/-- The copy of a record that was made earlier, as a copy of a lesser one, names that one, and is
not listed for the record that its operation declares. -/
theorem engraver_copy_names_other :
    Build.run Engraver.again Engraver.chosen = .ok (Engraver.build Engraver.again) ∧
      Engraver.again.get? (Engraver.shape "Etch") =
        some (Engraver.taking "Etch" Engraver.earlier.id) ∧
      Engraver.input "Etch" ∈ (Engraver.build Engraver.again).normalization.cloned ∧
      (((Engraver.build Engraver.again).graph.get? (Engraver.input "Etch")).bind fun copy =>
        TagSet.cloneOf? copy.tags) = some Engraver.plate.id ∧
      (Engraver.build Engraver.again).clonesOf Engraver.earlier.id = [] := by
  decide +kernel

end SchemaSymbols

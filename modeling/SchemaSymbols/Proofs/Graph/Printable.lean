/-
  Graphs all of whose identifiers can be printed.

  A graph that was read from a text has only such identifiers, and edits keep it that way as long as
  they bring in no others.  So the graphs that are read back from their snapshots are closed under
  everything that can be done with a graph.

  1. **Names of made records** come out of the names of operations: the first letter is put in upper
     case and a suffix is added.  The upper case of a character is looked up in tables of runs and
     expansions, and none of them leads to the mark that an identifier must not hold
     (`mark_not_mem_upperChars`).  The suffixes and the namespace have to be plain
     (`SyntheticNaming.Plain`).

  2. **Changes of a node** keep it printable: tags that are, shapes with printable targets, and the
     records that normalization makes for the side of an operation (`Node.printable_emptyFor`,
     `Node.printable_cloneFor`).

  3. **Edits of a graph** file one node at a time (`Printable.file`), so each of them is settled by
     the node it files, and a list of them by induction.  What an edit brings in has to be printable
     itself (`Edit.Printable`): new nodes, new targets and new tags.

  `printable_edits` says it for any edits of a printable graph, whether or not they succeed.
-/
import SchemaSymbols.Proofs.Graph.Editing
import SchemaSymbols.Proofs.Shape.Codec

namespace SchemaSymbols

/-! ## Names of made records -/

namespace Text

/-- A character made of a number is that number, or the zero character if there is none. -/
theorem toNat_ofNat (n : Nat) : (Char.ofNat n).toNat = n ∨ (Char.ofNat n).toNat = 0 := by
  by_cases hvalid : n.isValidChar
  · have hchar : Char.ofNat n = Char.ofNatAux n hvalid := dif_pos hvalid
    rw [hchar]
    exact Or.inl rfl
  · have hchar : Char.ofNat n = '\x00' := dif_neg hvalid
    rw [hchar]
    exact Or.inr rfl

/-- The upper case of a character has no mark in it, unless the character is the mark.  The marks
    stand before all characters that a run maps to. -/
theorem mark_not_mem_upperChars {c : Char} (h : c ≠ '$') : '$' ∉ upperChars c := by
  rw [upperChars]
  split
  · next e he =>
    have hexpansions : ∀ e ∈ upperExpansions, '$' ∉ e.2.map Char.ofNat := by decide
    exact hexpansions e (List.mem_of_find?_eq_some he)
  · split
    · next r hr =>
      have hruns : ∀ r ∈ upperRuns, 36 < (r.first : Int) + r.shift := by decide +kernel
      have hshift := hruns r (List.mem_of_find?_eq_some hr)
      have hfirst : r.first ≤ c.toNat := by
        have hcovers := List.find?_some hr
        simp only [CaseRun.covers, Bool.and_eq_true, decide_eq_true_eq] at hcovers
        exact hcovers.1.1
      rw [List.mem_singleton]
      intro heq
      have hvalue : (Char.ofNat (c.toNat + r.shift).toNat).toNat = 36 := by
        rw [← heq]
        rfl
      rcases toNat_ofNat (c.toNat + r.shift).toNat with hn | hn <;> omega
    · rw [List.mem_singleton]
      exact h.symm

/-- A name without the mark has none when its first letter is in upper case. -/
theorem mark_not_mem_upperFirst {s : List Char} (h : '$' ∉ s) : '$' ∉ upperFirst s := by
  cases s with
  | nil => exact h
  | cons c rest =>
    rw [List.mem_cons, not_or] at h
    rw [upperFirst, List.mem_append, not_or]
    exact ⟨mark_not_mem_upperChars (Ne.symm h.1), h.2⟩

end Text

namespace SyntheticNaming

/-- The namespace and the endings for made records have no marks in them. -/
def Plain (naming : SyntheticNaming) : Prop :=
  (naming.scope ≠ "" ∧ '#' ∉ naming.scope.toList) ∧
    '$' ∉ naming.inputSuffix.toList ∧ '$' ∉ naming.outputSuffix.toList

instance (naming : SyntheticNaming) : Decidable naming.Plain := inferInstanceAs (Decidable (_ ∧ _))

example : Plain {} := by
  decide

/-- The name of the record made for a side of an operation is printable. -/
theorem Plain.printable_recordFor {naming : SyntheticNaming} (plain : naming.Plain)
    {operation : ShapeId} (h : operation.Printable) (side : Side) :
    (naming.recordFor operation side).Printable := by
  obtain ⟨hscope, hinput, houtput⟩ := plain
  obtain ⟨-, ⟨hname, hmark⟩, -⟩ := h
  have hending : '$' ∉ (naming.suffixFor side).toList := by
    cases side with
    | input => exact hinput
    | output => exact houtput
  have hupper : Text.upperFirst operation.name.toList ≠ [] := fun hnil =>
    hname (by simpa using (Text.upperFirst_eq_nil_iff _).1 hnil)
  refine ⟨hscope, ⟨?_, ?_⟩, by rintro ⟨⟩⟩
  · intro hempty
    have hlist := congrArg String.toList hempty
    simp [SyntheticNaming.recordFor, SyntheticNaming.idFor, hupper] at hlist
  · have hmark' := Text.mark_not_mem_upperFirst hmark
    simp [SyntheticNaming.recordFor, SyntheticNaming.idFor, hmark', hending]

end SyntheticNaming

/-! ## Changes of a node -/

/-- Tags stay printable when a printable one is added. -/
theorem TagSet.printable_insert {tags : TagSet} {t : Tag} (ht : ∀ id ∈ t.ids, id.Printable)
    (h : ∀ id ∈ TagSet.ids tags, id.Printable) :
    ∀ id ∈ TagSet.ids (tags.insert t), id.Printable := by
  intro id hid
  obtain ⟨t', ht', hid'⟩ := List.mem_flatMap.1 hid
  rcases Sorted.mem_insert_set.1 ht' with rfl | hold
  · exact ht id hid'
  · exact h id (List.mem_flatMap.2 ⟨t', hold, hid'⟩)

namespace Node

variable {n : Node}

/-- All identifiers in the node can be printed. -/
def Printable (n : Node) : Prop := ∀ id ∈ n.ids, id.Printable

instance (n : Node) : Decidable n.Printable := inferInstanceAs (Decidable (∀ id ∈ n.ids, _))

theorem printable_iff : n.Printable ↔ n.id.Printable ∧ (∀ id ∈ n.shape.ids, id.Printable) ∧
    ∀ id ∈ TagSet.ids n.tags, id.Printable := by
  rw [Printable, ids, List.forall_mem_cons, List.forall_mem_append]

theorem Printable.withTag (h : n.Printable) {t : Tag} (ht : ∀ id ∈ t.ids, id.Printable) :
    (n.withTag t).Printable := by
  obtain ⟨hid, hshape, htags⟩ := printable_iff.1 h
  exact printable_iff.2 ⟨hid, hshape, TagSet.printable_insert ht htags⟩

theorem Printable.withSideTags (h : n.Printable) (side : Side) :
    ((n.withTag .synthetic).withTag side.tag).Printable := by
  have hside : ∀ id ∈ side.tag.ids, id.Printable := by
    cases side <;> exact fun id hid => absurd hid List.not_mem_nil
  exact (h.withTag fun id hid => absurd hid List.not_mem_nil).withTag hside

end Node

namespace Normalization

variable {id : ShapeId}

theorem printable_emptyFor (h : id.Printable) (side : Side) : (emptyFor id side).Printable := by
  refine Node.Printable.withSideTags ?_ side
  refine Node.printable_iff.2 ⟨h, ?_, ?_⟩
  · exact fun id hid => absurd hid List.not_mem_nil
  · exact fun id hid => absurd hid List.not_mem_nil

/-- The copy of a record for a side is printable if its name and the record are. -/
theorem printable_cloneFor (h : id.Printable) (side : Side) {source : Node}
    (hsource : source.Printable) {members : List Member} (hshape : source.shape = .record members) :
    (cloneFor id side source members).Printable := by
  obtain ⟨hid, hmembers, htags⟩ := Node.printable_iff.1 hsource
  rw [hshape] at hmembers
  refine Node.Printable.withSideTags ?_ side
  refine Node.printable_iff.2 ⟨h, hmembers, TagSet.printable_insert ?_ htags⟩
  exact List.forall_mem_singleton.2 hid

end Normalization

/-! ## Graphs -/

namespace Graph

variable {g g' : Graph} {n : Node}

/-- The identifiers in a graph. -/
def ids (g : Graph) : List ShapeId := g.nodes.toList.flatMap Node.ids

/-- All identifiers in the graph can be printed. -/
def Printable (g : Graph) : Prop := ∀ id ∈ g.ids, id.Printable

instance (g : Graph) : Decidable g.Printable := inferInstanceAs (Decidable (∀ id ∈ g.ids, _))

theorem printable_iff : g.Printable ↔ ∀ n ∈ g.nodes, n.Printable := by
  constructor
  · intro h n hn id hid
    exact h id (List.mem_flatMap.2 ⟨n, hn, hid⟩)
  · intro h id hid
    obtain ⟨n, hn, hid⟩ := List.mem_flatMap.1 hid
    exact h n hn id hid

theorem Printable.of_contains (h : g.Printable) {id : ShapeId} (hid : g.contains id = true) :
    id.Printable := by
  obtain ⟨n, hn⟩ := contains_iff.1 hid
  obtain rfl := get?_id hn
  exact (Node.printable_iff.1 (printable_iff.1 h n (mem_nodes hn))).1

/-! ### Edits -/

theorem Printable.file (h : g.Printable) (hn : n.Printable) {edges : List Edge} :
    Printable { nodes := g.nodes.insert n, edges } := by
  refine printable_iff.2 fun k hk => ?_
  rcases Sorted.mem_insert.1 hk with rfl | ⟨hk, -⟩
  · exact hn
  · exact printable_iff.1 h k hk

theorem Printable.inserts {nodes : List Node} (h : g.Printable) (hnodes : ∀ n ∈ nodes, n.Printable)
    (hrun : nodes.foldlM Graph.insert g = .ok g') : g'.Printable := by
  refine printable_iff.2 fun n hn => ?_
  rcases get?_of_get?_inserts hrun (get?_of_mem hn) with hold | hnew
  · exact printable_iff.1 h n (mem_nodes hold)
  · exact hnodes n hnew

/-- The new sides of an operation are shapes of the graph. -/
theorem Printable.setSides {operation input output : ShapeId} (h : g.Printable)
    (hrun : g.setSides operation input output = .ok g') : g'.Printable := by
  rw [Graph.setSides] at hrun
  split at hrun
  · cases hrun
  · rename_i hpresent
    split at hrun
    · rename_i k oldInput oldOutput errors tags hget
      cases hrun
      have hsides := List.find?_eq_none.1 hpresent
      have hinput : input.Printable := h.of_contains (by simpa using hsides input (by simp))
      have houtput : output.Printable := h.of_contains (by simpa using hsides output (by simp))
      obtain ⟨hid, hshape, htags⟩ := Node.printable_iff.1 (printable_iff.1 h _ (mem_nodes hget))
      have herrors := (List.forall_mem_append.1 hshape).2
      have hnew : Node.Printable ⟨k, .operation (some input) (some output) errors, tags⟩ := by
        refine Node.printable_iff.2 ⟨hid, ?_, htags⟩
        exact List.forall_mem_cons.2 ⟨hinput, List.forall_mem_cons.2 ⟨houtput, herrors⟩⟩
      exact h.file hnew
    · cases hrun

open Normalization in
/-- Rewiring operations to records of the graph keeps it printable. -/
theorem Printable.rewires {plans : List Plan} (h : g.Printable)
    (hrun : plans.foldlM rewire g = .ok g') : g'.Printable := by
  induction plans generalizing g with
  | nil => cases hrun; exact h
  | cons p plans ih =>
    rw [List.foldlM_cons] at hrun
    obtain ⟨middle, hfirst, hrest⟩ := bind_eq_ok.1 hrun
    refine ih ?_ hrest
    rw [rewire] at hfirst
    split at hfirst
    · cases hfirst
      exact h
    · exact h.setSides hfirst

open Normalization in
/-- Normalization keeps a graph printable under plain suffixes. -/
theorem Printable.normalize {naming : SyntheticNaming} {report : Report} (h : g.Printable)
    (plain : naming.Plain) (hrun : g.normalize naming = .ok (g', report)) : g'.Printable := by
  obtain ⟨plans, middle, normalized⟩ := exists_normalized hrun
  refine (h.inserts (fun n hn => ?_) normalized.added).rewires normalized.rewired
  obtain ⟨operation, hoperation, side, hmade⟩ := exists_of_mem_addedNodes normalized.planned hn
  have hid : (naming.recordFor operation.id side).Printable :=
    plain.printable_recordFor
      (h.of_contains (contains_of_get? (mem_operations.1 hoperation).1)) side
  rcases hmade with rfl | ⟨source, hsource, members, hshape, rfl⟩
  · exact printable_emptyFor hid side
  · exact printable_cloneFor hid side (printable_iff.1 h source hsource) hshape

/-- The closure adds a tag without an identifier. -/
theorem Printable.closes {report : EqualityClosure.Report} (h : g.Printable)
    (closes : Closes g g' report) : g'.Printable := by
  refine printable_iff.2 fun n' hn' => ?_
  have hget' := get?_of_mem hn'
  obtain ⟨n, hget, hsame⟩ : ∃ n, g.get? n'.id = some n ∧ n'.shape = n.shape := by
    have hshape := closes.shapes n'.id
    rw [hget', Option.map_some] at hshape
    obtain ⟨n, hget, hsame⟩ := Option.map_eq_some_iff.1 hshape.symm
    exact ⟨n, hget, hsame.symm⟩
  obtain ⟨hid, hshape, htags⟩ := Node.printable_iff.1 (printable_iff.1 h n (mem_nodes hget))
  rw [get?_id hget] at hid
  refine Node.printable_iff.2 ⟨hid, hsame ▸ hshape, fun id hid => ?_⟩
  obtain ⟨t, ht, hid⟩ := List.mem_flatMap.1 hid
  rcases (closes.tags n'.id n n' hget hget' t).1 ht with ht | ⟨rfl, -⟩
  · exact htags id (List.mem_flatMap.2 ⟨t, ht, hid⟩)
  · cases hid

/-! ### Loading -/

/-- Loading files the nodes of the list and no others. -/
theorem mem_of_foldlM_add {nodes : List Node} (h : nodes.foldlM add g = .ok g')
    (hn : n ∈ g'.nodes) : n ∈ g.nodes ∨ n ∈ nodes := by
  induction nodes generalizing g with
  | nil => cases h; exact Or.inl hn
  | cons k nodes ih =>
    rw [List.foldlM_cons, add] at h
    split at h
    · cases h
    · rcases ih h with hold | hnew
      · rcases Sorted.mem_insert.1 hold with rfl | ⟨hold, -⟩
        · exact Or.inr List.mem_cons_self
        · exact Or.inl hold
      · exact Or.inr (List.mem_cons_of_mem _ hnew)

/-- All nodes of a graph are from the list that it was built from. -/
theorem mem_of_ofNodes {nodes : List Node} (h : ofNodes nodes = .ok g) (hn : n ∈ g.nodes) :
    n ∈ nodes := by
  obtain ⟨added, hadd, hlink⟩ := bind_eq_ok.1 h
  rw [(of_foldlM_link hlink).1] at hn
  exact (mem_of_foldlM_add hadd hn).resolve_left List.not_mem_nil

/-- What is read from a text can be printed. -/
theorem printable_of_ofSnapshot {text : String} (h : ofSnapshot text = .ok g) : g.Printable := by
  rw [ofSnapshot] at h
  split at h
  · rename_i v _
    rw [ofJson] at h
    split at h
    · rename_i nodes hnodes
      rw [nodesOfJson?] at hnodes
      obtain ⟨values, -, hnodes⟩ := Option.bind_eq_some_iff.1 hnodes
      split at hnodes
      · obtain ⟨shapes, -, hnodes⟩ := Option.bind_eq_some_iff.1 hnodes
        refine printable_iff.2 fun n hn => ?_
        exact Json.forall_of_list? (fun v n => Node.printable_of_ofJson?) hnodes n
          (mem_of_ofNodes h hn)
      · cases hnodes
    · cases h
  · cases h

end Graph

/-! ## Sequences of edits -/

namespace Edit

variable {g g' : Graph}

/-- The edit brings in identifiers that can be printed, and no others. -/
def Printable : Edit → Prop
  | insert n => n.Printable
  | addTag _ t => ∀ id ∈ t.ids, id.Printable
  | setSides _ _ _ => True
  | normalize naming => naming.Plain
  | closeEquality => True

instance (edit : Edit) : Decidable edit.Printable :=
  match edit with
  | insert n => inferInstanceAs (Decidable n.Printable)
  | addTag _ t => inferInstanceAs (Decidable (∀ id ∈ t.ids, id.Printable))
  | setSides _ _ _ => inferInstanceAs (Decidable True)
  | normalize naming => inferInstanceAs (Decidable naming.Plain)
  | closeEquality => inferInstanceAs (Decidable True)

/-- An edit that succeeds keeps a graph printable. -/
theorem result_printable (wf : g.WellFormed) (h : g.Printable) {edit : Edit}
    (hedit : edit.Printable) (hresult : edit.result g = .ok g') : g'.Printable := by
  cases edit with
  | insert n =>
    obtain ⟨rfl, -⟩ := Graph.edges_of_insert hresult
    exact h.file hedit
  | addTag id t =>
    obtain ⟨n, hget, rfl⟩ := exists_of_addTag hresult
    exact h.file ((Graph.printable_iff.1 h n (Graph.mem_nodes hget)).withTag hedit)
  | setSides operation input output => exact h.setSides hresult
  | normalize naming =>
    obtain ⟨⟨normalized, report⟩, hnormalize, rfl⟩ := map_eq_ok.1 hresult
    exact h.normalize hedit hnormalize
  | closeEquality =>
    obtain ⟨⟨closed, report⟩, hclose, rfl⟩ := map_eq_ok.1 hresult
    obtain ⟨closed', report', hclose', -, closes⟩ := wf.exists_closes
    rw [hclose] at hclose'
    cases hclose'
    exact h.closes closes

/-- Any edits keep a graph printable; those that fail change nothing. -/
theorem printable_edits {edits : List Edit} (wf : g.WellFormed) (h : g.Printable)
    (hedits : ∀ edit ∈ edits, edit.Printable) : (edits.foldl after g).Printable := by
  induction edits generalizing g with
  | nil => exact h
  | cons edit edits ih =>
    have hafter : (edit.after g).Printable :=
      after_keep wf h fun _ => result_printable wf h (hedits edit List.mem_cons_self)
    exact ih (after_wellFormed wf edit) hafter fun e he => hedits e (List.mem_cons_of_mem _ he)

end Edit

end SchemaSymbols

/-
  Shapes are read back from their JSON form.

  A snapshot is the array of the nodes of a graph, so this file goes up the way a node is built:
  identifiers, then lists and fields of objects, tags, members and values, shapes, and nodes.  Each
  of these has the same three facts.

  1. **What is written is plain** (`textual_toJson`): texts, arrays and objects with a bound on the
     nesting, which is all that the printer and the parser need to agree.

  2. **What is written is read back** (`ofJson?_toJson`), provided that every identifier in it is
     `Printable`.  Only an identifier can get lost on the way: its written form puts marks between
     its parts, so a part that holds the mark, or is empty, is taken for something else.

  3. **What is read is printable** (`printable_of_ofJson?`), so the proviso is kept by a reload and
     needs no check of its own.

  The identifiers in question are collected by `Tag.ids`, `Member.ids`, `Shape.ids` and `Node.ids`,
  each made of the ones below it.  Everything that is left out when it is empty (tags, the errors
  and sides of an operation) is what the reader takes for granted when it is absent; for these
  fields it is the optional field that is read back (`TagSet.field?`, `Shape.errorsField?`), whether
  or not it was written.
-/
import SchemaSymbols.Proofs.Json.RoundTrip
import SchemaSymbols.Proofs.Outcome
import SchemaSymbols.Proofs.Sorted
import SchemaSymbols.Shape.Json

namespace SchemaSymbols

/-! ## Identifiers -/

namespace ShapeId

variable {id : ShapeId}

/-- No part of the identifier is empty, and the marks of its written form are where they belong. -/
def Printable (id : ShapeId) : Prop :=
  (id.scope ≠ "" ∧ '#' ∉ id.scope.toList) ∧ (id.name ≠ "" ∧ '$' ∉ id.name.toList) ∧
    id.member ≠ some ""

instance (id : ShapeId) : Decidable id.Printable := inferInstanceAs (Decidable (_ ∧ _))

/-- The written form of a printable identifier is read back: the first marks are the ones that were
put in, since the parts before them hold none. -/
theorem parse?_text (h : id.Printable) : parse? id.text = some id := by
  obtain ⟨scope, name, member⟩ := id
  obtain ⟨⟨hscope, hmark⟩, ⟨hname, hcut⟩, hmember⟩ := h
  cases member with
  | none =>
    have hscopeCut : Text.cut? '#' (text ⟨scope, name, none⟩).toList =
        some (scope.toList, name.toList) :=
      Text.cut?_eq_some_iff.2 ⟨by simp [text], hmark⟩
    have hnameCut : Text.cut? '$' name.toList = none := Text.cut?_eq_none_iff.2 hcut
    rw [parse?, hscopeCut]
    simp_all [parseRest?]
  | some member =>
    have hscopeCut : Text.cut? '#' (text ⟨scope, name, some member⟩).toList =
        some (scope.toList, name.toList ++ '$' :: member.toList) :=
      Text.cut?_eq_some_iff.2 ⟨by simp [text], hmark⟩
    have hnameCut : Text.cut? '$' (name.toList ++ '$' :: member.toList) =
        some (name.toList, member.toList) :=
      Text.cut?_eq_some_iff.2 ⟨rfl, hcut⟩
    rw [parse?, hscopeCut]
    simp_all [parseRest?]

/-- Whatever is read as an identifier is printable. -/
theorem printable_of_parse? {s : String} (h : parse? s = some id) : id.Printable := by
  rw [parse?] at h
  obtain ⟨⟨scope, rest⟩, hscope, h⟩ := Option.bind_eq_some_iff.1 h
  obtain ⟨-, hmark⟩ := Text.cut?_eq_some_iff.1 hscope
  simp only at h
  split at h
  · cases h
  · rw [parseRest?] at h
    split at h
    · next hcut =>
      have hname := Text.cut?_eq_none_iff.1 hcut
      split at h
      · cases h
      · cases h
        simp [Printable, *]
    · next name member hcut =>
      obtain ⟨-, hname⟩ := Text.cut?_eq_some_iff.1 hcut
      split at h
      · cases h
      · cases h
        simp_all [Printable]

theorem ofJson?_toJson (h : id.Printable) : ofJson? id.toJson = some id := parse?_text h

theorem printable_of_ofJson? {v : Json} (h : ofJson? v = some id) : id.Printable := by
  obtain ⟨s, -, hs⟩ := Option.bind_eq_some_iff.1 h
  exact printable_of_parse? hs

end ShapeId

/-! ## Lists and fields -/

namespace Json

variable {α : Type} {read : Json → Option α} {write : α → Json}

/-- A list is read back if each of its items is. -/
theorem list?_array_map {l : List α} (h : ∀ a ∈ l, read (write a) = some a) :
    list? read (.array (l.map write)) = some l := by
  show (l.map write).mapM read = some l
  induction l with
  | nil => rfl
  | cons a l ih =>
    rw [List.map_cons, List.mapM_cons, h a List.mem_cons_self,
      ih fun b hb => h b (List.mem_cons_of_mem _ hb)]
    rfl

/-- What holds of every item that is read holds of all items of a list that is read. -/
theorem forall_of_list? {P : α → Prop} (hread : ∀ v a, read v = some a → P a) {v : Json}
    {l : List α} (h : list? read v = some l) : ∀ a ∈ l, P a := by
  cases v with
  | array items =>
    replace h : items.mapM read = some l := h
    induction items generalizing l with
    | nil => cases h; exact fun a ha => absurd ha List.not_mem_nil
    | cons v items ih =>
      rw [List.mapM_cons] at h
      obtain ⟨a, ha, h⟩ := Option.bind_eq_some_iff.1 h
      obtain ⟨rest, hrest, h⟩ := Option.bind_eq_some_iff.1 h
      cases h
      exact List.forall_mem_cons.2 ⟨hread v a ha, ih hrest⟩
  | _ => cases h

/-- A choice is read as one of its alternatives only. -/
theorem mem_of_choice? {lenient : Leniency} {alternatives : List (String × α)} {v : Json} {a : α}
    (h : choice? lenient alternatives v = some a) : ∃ word, (word, a) ∈ alternatives := by
  have hlookup : ∀ word, alternatives.lookup word = some a → ∃ word, (word, a) ∈ alternatives := by
    intro word hword
    obtain ⟨before, after, rfl, -⟩ := List.lookup_eq_some_iff.1 hword
    exact ⟨word, by simp⟩
  rw [choice?.eq_def] at h
  split at h
  · exact hlookup _ h
  · split at h
    · exact hlookup _ h
    · cases h
  · cases h

variable {fields more : List (String × Json)} {name : String}

/-- The field that comes first is found, as no other field has its name. -/
theorem field?_cons_self {v : Json} (h : ∀ f ∈ more, f.1 ≠ name) :
    field? ((name, v) :: more) name = some (some v) := by
  have hnone : more.filter (fun f => f.1 == name) = [] :=
    List.filter_eq_nil_iff.2 fun f hf => by simpa using h f hf
  rw [field?, List.filter_cons_of_pos (by simp), hnone]

theorem field?_append_right (h : ∀ f ∈ fields, f.1 ≠ name) :
    field? (fields ++ more) name = field? more name := by
  have hnone : fields.filter (fun f => f.1 == name) = [] :=
    List.filter_eq_nil_iff.2 fun f hf => by simpa using h f hf
  rw [field?, field?, List.filter_append, hnone, List.nil_append]

end Json

/-! ## Tags -/

namespace Tag

/-- The identifiers in a tag. -/
def ids : Tag → List ShapeId
  | nestedUnder id => [id]
  | cloneOf id => [id]
  | _ => []

/-- A tag is written with at most two levels around its texts. -/
theorem textual_toJson (t : Tag) : Json.Textual 2 t.toJson := by
  cases t with
  | custom key value => cases value <;> simp [toJson, Json.Textual]
  | _ => simp [toJson, Json.Textual, ShapeId.toJson]

/-- A tag is read back if the identifiers in it are printable. -/
theorem ofJson?_toJson (lenient : Json.Leniency) {t : Tag} (h : ∀ id ∈ t.ids, id.Printable) :
    ofJson? lenient t.toJson = some t := by
  cases t with
  | error blame => cases blame <;> rfl
  | nestedUnder id =>
    show (ShapeId.ofJson? id.toJson).map nestedUnder = _
    rw [ShapeId.ofJson?_toJson (h id List.mem_cons_self)]
    rfl
  | cloneOf id =>
    show (ShapeId.ofJson? id.toJson).map cloneOf = _
    rw [ShapeId.ofJson?_toJson (h id List.mem_cons_self)]
    rfl
  | custom key value => cases value <;> rfl
  | _ => rfl

theorem ids_of_mem_plainByWord : ∀ entry ∈ plainByWord, entry.2.ids = [] := by
  decide

/-- A custom tag holds no identifier: its words are free text. -/
theorem ids_of_custom? {lenient : Json.Leniency} {v : Json} {t : Tag}
    (h : custom? lenient v = some t) : t.ids = [] := by
  rw [custom?] at h
  obtain ⟨-, -, h⟩ := Option.bind_eq_some_iff.1 h
  obtain ⟨values, -, h⟩ := Option.bind_eq_some_iff.1 h
  split at h
  · obtain ⟨key, -, h⟩ := Option.bind_eq_some_iff.1 h
    obtain ⟨value, -, h⟩ := Option.bind_eq_some_iff.1 h
    cases h
    rfl
  · cases h

/-- The identifiers in a tag that was read are printable. -/
theorem printable_of_ofJson? {lenient : Json.Leniency} {v : Json} {t : Tag}
    (h : ofJson? lenient v = some t) : ∀ id ∈ t.ids, id.Printable := by
  unfold ofJson? at h
  split at h
  · next t' hplain =>
    cases h
    obtain ⟨word, hword⟩ := Json.mem_of_choice? hplain
    rw [ids_of_mem_plainByWord _ hword]
    exact fun id hid => absurd hid List.not_mem_nil
  · split at h
    · next word payload _ =>
      rw [loaded?] at h
      split at h
      · obtain ⟨blame, -, rfl⟩ := Option.map_eq_some_iff.1 h
        exact fun id hid => absurd hid List.not_mem_nil
      split at h
      · obtain ⟨literal, -, rfl⟩ := Option.map_eq_some_iff.1 h
        exact fun id hid => absurd hid List.not_mem_nil
      split at h
      · obtain ⟨service, hservice, rfl⟩ := Option.map_eq_some_iff.1 h
        exact List.forall_mem_singleton.2 (ShapeId.printable_of_ofJson? hservice)
      split at h
      · obtain ⟨source, hsource, rfl⟩ := Option.map_eq_some_iff.1 h
        exact List.forall_mem_singleton.2 (ShapeId.printable_of_ofJson? hsource)
      split at h
      · rw [ids_of_custom? h]
        exact fun id hid => absurd hid List.not_mem_nil
      · cases h
    · cases h

end Tag

namespace TagSet

variable {tags : TagSet}

/-- The identifiers in tags. -/
def ids (tags : TagSet) : List ShapeId := tags.toList.flatMap Tag.ids

/-- The field of tags, if they have one. -/
def field? (tags : TagSet) : Option Json := if tags.isEmpty then none else some tags.toJson

/-- The tags of a node are at most one field, which is left out if there are none. -/
theorem fields_eq (tags : TagSet) : fields tags = (field? tags).toList.map (("tags", ·)) := by
  rw [fields, field?]
  split <;> rfl

theorem of_mem_fields {f : String × Json} (h : f ∈ fields tags) :
    f.1 = "tags" ∧ Json.Textual 3 f.2 := by
  rw [fields] at h
  split at h
  · cases h
  · obtain rfl := List.mem_singleton.1 h
    exact ⟨rfl, Json.textual_array_map fun t _ => t.textual_toJson⟩

/-- A set of tags is read back: the tags are sorted when they are written and sorted again when they
are read. -/
theorem ofJson?_toJson (lenient : Json.Leniency) (h : ∀ id ∈ ids tags, id.Printable) :
    ofJson? lenient (toJson tags) = some tags := by
  have hlist : Json.list? (Tag.ofJson? lenient) (toJson tags) = some tags.toList :=
    Json.list?_array_map fun t ht => Tag.ofJson?_toJson lenient fun id hid =>
      h id (List.mem_flatMap.2 ⟨t, ht, hid⟩)
  have hsame : (Sorted.ofList tags.toList : TagSet) = tags :=
    Sorted.ext_mem fun t => Sorted.mem_ofList
  rw [ofJson?, hlist, Option.map_some, hsame]

/-- Tags that were left out are no tags. -/
theorem defaulted?_field? (lenient : Json.Leniency) (h : ∀ id ∈ ids tags, id.Printable) :
    Json.defaulted? .empty (ofJson? lenient) (field? tags) = some tags := by
  rw [field?]
  split
  · next hempty =>
    have hnil : tags.toList = [] := List.isEmpty_iff.1 hempty
    exact congrArg some (Sorted.ext_toList hnil.symm)
  · exact ofJson?_toJson lenient h

theorem printable_of_ofJson? {lenient : Json.Leniency} {v : Json}
    (h : ofJson? lenient v = some tags) : ∀ id ∈ ids tags, id.Printable := by
  obtain ⟨l, hl, rfl⟩ := Option.map_eq_some_iff.1 h
  intro id hid
  obtain ⟨t, ht, hid⟩ := List.mem_flatMap.1 hid
  exact Json.forall_of_list? (fun v t => Tag.printable_of_ofJson?) hl t (Sorted.mem_ofList.1 ht)
    id hid

/-- The identifiers in the field of the tags are printable; it reads as no tags if it is absent. -/
theorem printable_of_defaulted? {lenient : Json.Leniency} {field : Option Json}
    (h : Json.defaulted? .empty (ofJson? lenient) field = some tags) :
    ∀ id ∈ ids tags, id.Printable := by
  cases field with
  | none =>
    cases h
    exact fun id hid => absurd hid List.not_mem_nil
  | some v => exact printable_of_ofJson? h

end TagSet

/-! ## Members and values -/

namespace Member

variable {m : Member}

/-- The identifiers in a member. -/
def ids (m : Member) : List ShapeId := m.target :: TagSet.ids m.tags

/-- A member is written with at most four levels around its texts. -/
theorem textual_toJson (m : Member) : Json.Textual 4 m.toJson := by
  intro f hf
  rcases List.mem_append.1 hf with hf | hf
  · simp only [List.mem_cons, List.not_mem_nil, or_false] at hf
    rcases hf with rfl | rfl <;> exact trivial
  · exact (TagSet.of_mem_fields hf).2

/-- A member is read back if its target and the identifiers in its tags are printable. -/
theorem ofJson?_toJson (h : ∀ id ∈ m.ids, id.Printable) : ofJson? m.toJson = some m := by
  have htarget := ShapeId.ofJson?_toJson (h m.target List.mem_cons_self)
  have htags := TagSet.defaulted?_field? .nested fun id hid => h id (List.mem_cons_of_mem _ hid)
  have hrecord : m.toJson.record? ["name", "target", "tags"] =
      some [some (.string m.name), some m.target.toJson, TagSet.field? m.tags] := by
    rw [toJson, TagSet.fields_eq]
    cases TagSet.field? m.tags <;> rfl
  rw [ofJson?, hrecord]
  show (ShapeId.ofJson? m.target.toJson >>= fun target =>
    Json.defaulted? .empty (TagSet.ofJson? .nested) (TagSet.field? m.tags) >>= fun tags =>
      some ⟨m.name, target, tags⟩) = some m
  rw [htarget]
  show (Json.defaulted? .empty (TagSet.ofJson? .nested) (TagSet.field? m.tags) >>= fun tags =>
      some ⟨m.name, m.target, tags⟩) = some m
  rw [htags]
  rfl

/-- The target and the tags of a member that was read are printable. -/
theorem printable_of_ofJson? {v : Json} (h : ofJson? v = some m) : ∀ id ∈ m.ids, id.Printable := by
  rw [ofJson?] at h
  obtain ⟨values, -, h⟩ := Option.bind_eq_some_iff.1 h
  split at h
  · obtain ⟨name, -, h⟩ := Option.bind_eq_some_iff.1 h
    obtain ⟨target, htarget, h⟩ := Option.bind_eq_some_iff.1 h
    obtain ⟨tags, htags, h⟩ := Option.bind_eq_some_iff.1 h
    cases h
    obtain ⟨v, -, hv⟩ := Option.bind_eq_some_iff.1 htarget
    exact List.forall_mem_cons.2
      ⟨ShapeId.printable_of_ofJson? hv, TagSet.printable_of_defaulted? htags⟩
  · cases h

end Member

namespace EnumValue

/-- A value of an enumeration is an object of texts. -/
theorem textual_toJson (v : EnumValue) : Json.Textual 1 v.toJson := by
  simp [toJson, Json.Textual]

theorem ofJson?_toJson (v : EnumValue) : ofJson? v.toJson = some v := rfl

end EnumValue

/-! ## Shapes -/

namespace Shape

/-- The identifiers in a shape. -/
def ids : Shape → List ShapeId
  | primitive _ => []
  | record members => members.flatMap Member.ids
  | union members => members.flatMap Member.ids
  | enum _ => []
  | list element => element.ids
  | set element => element.ids
  | map key value => key.ids ++ value.ids
  | operation input output errors => input.toList ++ output.toList ++ errors
  | service operations => operations

/-- The fields of a shape keep clear of those that every node has, and are not nested deep. -/
theorem of_mem_fields {s : Shape} {f : String × Json} (h : f ∈ s.fields) :
    (f.1 ≠ "id" ∧ f.1 ≠ "type" ∧ f.1 ≠ "tags") ∧ Json.Textual 5 f.2 := by
  cases s with
  | primitive kind =>
    obtain rfl := List.mem_singleton.1 h
    exact ⟨by simp, trivial⟩
  | record members =>
    obtain rfl := List.mem_singleton.1 h
    exact ⟨by simp, Json.textual_array_map fun m _ => m.textual_toJson⟩
  | union members =>
    obtain rfl := List.mem_singleton.1 h
    exact ⟨by simp, Json.textual_array_map fun m _ => m.textual_toJson⟩
  | enum values =>
    obtain rfl := List.mem_singleton.1 h
    exact ⟨by simp, Json.textual_array_map fun v _ => v.textual_toJson.mono (by decide)⟩
  | list element =>
    obtain rfl := List.mem_singleton.1 h
    exact ⟨by simp, element.textual_toJson.mono (by decide)⟩
  | set element =>
    obtain rfl := List.mem_singleton.1 h
    exact ⟨by simp, element.textual_toJson.mono (by decide)⟩
  | map key value =>
    simp only [fields, List.mem_cons, List.not_mem_nil, or_false] at h
    rcases h with rfl | rfl
    · exact ⟨by simp, key.textual_toJson.mono (by decide)⟩
    · exact ⟨by simp, value.textual_toJson.mono (by decide)⟩
  | operation input output errors =>
    simp only [fields, List.mem_append, List.mem_map] at h
    rcases h with (⟨id, -, rfl⟩ | ⟨id, -, rfl⟩) | h
    · exact ⟨by simp, trivial⟩
    · exact ⟨by simp, trivial⟩
    · split at h
      · cases h
      · obtain rfl := List.mem_singleton.1 h
        exact ⟨by simp, Json.textual_array_map fun id _ => trivial⟩
  | service operations =>
    obtain rfl := List.mem_singleton.1 h
    exact ⟨by simp, Json.textual_array_map fun id _ => trivial⟩

theorem list?_members {members : List Member}
    (h : ∀ id ∈ members.flatMap Member.ids, id.Printable) :
    Json.list? Member.ofJson? (.array (members.map Member.toJson)) = some members :=
  Json.list?_array_map fun m hm => Member.ofJson?_toJson fun id hid =>
    h id (List.mem_flatMap.2 ⟨m, hm, hid⟩)

theorem list?_ids {ids : List ShapeId} (h : ∀ id ∈ ids, id.Printable) :
    Json.list? ShapeId.ofJson? (.array (ids.map ShapeId.toJson)) = some ids :=
  Json.list?_array_map fun id hid => ShapeId.ofJson?_toJson (h id hid)

/-- A side that was left out is none. -/
theorem optional?_side {side : Option ShapeId} (h : ∀ id ∈ side.toList, id.Printable) :
    Json.optional? ShapeId.ofJson? (side.map ShapeId.toJson) = some side := by
  cases side with
  | none => rfl
  | some id =>
    show (ShapeId.ofJson? id.toJson).map some = _
    rw [ShapeId.ofJson?_toJson (h id List.mem_cons_self)]
    rfl

/-- The field for the errors of an operation, if they have one. -/
def errorsField? (errors : List ShapeId) : Option Json :=
  if errors.isEmpty then none else some (.array (errors.map ShapeId.toJson))

/-- Errors that were left out are no errors. -/
theorem defaulted?_errorsField? {errors : List ShapeId} (h : ∀ id ∈ errors, id.Printable) :
    Json.defaulted? [] (Json.list? ShapeId.ofJson?) (errorsField? errors) = some errors := by
  cases errors with
  | nil => rfl
  | cons first errors => exact list?_ids h

/-- The three fields of an operation are found, whichever of them are left out. -/
theorem field?_operation (v : Json) (input output : Option ShapeId) (errors : List ShapeId) :
    Json.field? (("type", v) :: (operation input output errors).fields) "input" =
        some (input.map ShapeId.toJson) ∧
      Json.field? (("type", v) :: (operation input output errors).fields) "output" =
        some (output.map ShapeId.toJson) ∧
      Json.field? (("type", v) :: (operation input output errors).fields) "errors" =
        some (errorsField? errors) := by
  cases input <;> cases output <;> cases errors <;> exact ⟨rfl, rfl, rfl⟩

/-- A shape is read back from its fields, whatever stands under `type` next to them. -/
theorem ofFields?_fields {s : Shape} (h : ∀ id ∈ s.ids, id.Printable) (v : Json) :
    ofFields? s.word (("type", v) :: s.fields) = some s := by
  cases s with
  | primitive kind => cases kind <;> rfl
  | record members =>
    show (Json.list? Member.ofJson? (.array (members.map Member.toJson)) >>= fun members =>
      some (record members)) = _
    rw [list?_members h]
    rfl
  | union members =>
    show (Json.list? Member.ofJson? (.array (members.map Member.toJson)) >>= fun members =>
      some (union members)) = _
    rw [list?_members h]
    rfl
  | enum values =>
    show (Json.list? EnumValue.ofJson? (.array (values.map EnumValue.toJson)) >>= fun values =>
      some (enum values)) = _
    rw [Json.list?_array_map fun v _ => v.ofJson?_toJson]
    rfl
  | list element =>
    show (Member.ofJson? element.toJson >>= fun element => some (list element)) = _
    rw [Member.ofJson?_toJson h]
    rfl
  | set element =>
    show (Member.ofJson? element.toJson >>= fun element => some (set element)) = _
    rw [Member.ofJson?_toJson h]
    rfl
  | map key value =>
    show (Member.ofJson? key.toJson >>= fun key =>
      Member.ofJson? value.toJson >>= fun value => some (map key value)) = _
    rw [Member.ofJson?_toJson fun id hid => h id (List.mem_append_left _ hid),
      Member.ofJson?_toJson fun id hid => h id (List.mem_append_right _ hid)]
    rfl
  | operation input output errors =>
    obtain ⟨hinputField, houtputField, herrorsField⟩ := field?_operation v input output errors
    have hinput := optional?_side fun id hid =>
      h id (List.mem_append_left _ (List.mem_append_left _ hid))
    have houtput := optional?_side fun id hid =>
      h id (List.mem_append_left _ (List.mem_append_right _ hid))
    have herrors := defaulted?_errorsField? fun id hid => h id (List.mem_append_right _ hid)
    simp only [ofFields?, word, hinputField, houtputField, herrorsField, hinput, houtput, herrors,
      Option.bind_eq_bind, Option.bind_some, Option.pure_def]
  | service operations =>
    have hids : ∀ id ∈ operations, id.Printable := h
    show (Json.list? ShapeId.ofJson? (.array (operations.map ShapeId.toJson)) >>= fun operations =>
      some (service operations)) = _
    rw [list?_ids hids]
    rfl

/-- The identifiers in members that were read are printable. -/
theorem printable_of_members {field : Option Json} {members : List Member}
    (h : Json.defaulted? [] (Json.list? Member.ofJson?) field = some members) :
    ∀ id ∈ members.flatMap Member.ids, id.Printable := by
  intro id hid
  obtain ⟨m, hm, hid⟩ := List.mem_flatMap.1 hid
  cases field with
  | none =>
    cases h
    cases hm
  | some v => exact Json.forall_of_list? (fun v m => Member.printable_of_ofJson?) h m hm id hid

theorem printable_of_member {field : Option Json} {m : Member}
    (h : Json.required? Member.ofJson? field = some m) : ∀ id ∈ m.ids, id.Printable := by
  obtain ⟨v, -, hv⟩ := Option.bind_eq_some_iff.1 h
  exact Member.printable_of_ofJson? hv

/-- Identifiers that were read as a list are printable. -/
theorem printable_of_ids {field : Option Json} {ids : List ShapeId}
    (h : Json.defaulted? [] (Json.list? ShapeId.ofJson?) field = some ids) :
    ∀ id ∈ ids, id.Printable := by
  cases field with
  | none =>
    cases h
    exact fun id hid => absurd hid List.not_mem_nil
  | some v => exact Json.forall_of_list? (fun v id => ShapeId.printable_of_ofJson?) h

/-- The side of an operation that was read is printable if there is one. -/
theorem printable_of_side {field : Option Json} {side : Option ShapeId}
    (h : Json.optional? ShapeId.ofJson? field = some side) : ∀ id ∈ side.toList, id.Printable := by
  intro id hid
  obtain rfl : side = some id := by simpa using hid
  cases field with
  | none => cases h
  | some v =>
    cases v with
    | null => cases h
    | string s =>
      obtain ⟨id, hparse, h⟩ := Option.map_eq_some_iff.1 h
      cases h
      exact ShapeId.printable_of_ofJson? hparse
    | _ => cases h

/-- All identifiers in a shape that was read are printable, one case for each word that stands for a
kind of shape. -/
theorem printable_of_ofFields? {word : String} {fields : List (String × Json)} {s : Shape}
    (h : ofFields? word fields = some s) : ∀ id ∈ s.ids, id.Printable := by
  unfold ofFields? at h
  dsimp only at h
  split at h
  · obtain ⟨field, -, h⟩ := Option.bind_eq_some_iff.1 h
    obtain ⟨kind, -, h⟩ := Option.bind_eq_some_iff.1 h
    cases h
    exact fun id hid => absurd hid List.not_mem_nil
  · obtain ⟨members, hmembers, h⟩ := Option.bind_eq_some_iff.1 h
    obtain ⟨field, -, hmembers⟩ := Option.bind_eq_some_iff.1 hmembers
    cases h
    exact printable_of_members hmembers
  · obtain ⟨members, hmembers, h⟩ := Option.bind_eq_some_iff.1 h
    obtain ⟨field, -, hmembers⟩ := Option.bind_eq_some_iff.1 hmembers
    cases h
    exact printable_of_members hmembers
  · obtain ⟨field, -, h⟩ := Option.bind_eq_some_iff.1 h
    obtain ⟨values, -, h⟩ := Option.bind_eq_some_iff.1 h
    cases h
    exact fun id hid => absurd hid List.not_mem_nil
  · obtain ⟨field, -, h⟩ := Option.bind_eq_some_iff.1 h
    obtain ⟨element, helement, h⟩ := Option.bind_eq_some_iff.1 h
    cases h
    exact printable_of_member helement
  · obtain ⟨field, -, h⟩ := Option.bind_eq_some_iff.1 h
    obtain ⟨element, helement, h⟩ := Option.bind_eq_some_iff.1 h
    cases h
    exact printable_of_member helement
  · obtain ⟨field, -, h⟩ := Option.bind_eq_some_iff.1 h
    obtain ⟨key, hkey, h⟩ := Option.bind_eq_some_iff.1 h
    obtain ⟨field, -, h⟩ := Option.bind_eq_some_iff.1 h
    obtain ⟨value, hvalue, h⟩ := Option.bind_eq_some_iff.1 h
    cases h
    exact List.forall_mem_append.2 ⟨printable_of_member hkey, printable_of_member hvalue⟩
  · obtain ⟨field, -, h⟩ := Option.bind_eq_some_iff.1 h
    obtain ⟨input, hinput, h⟩ := Option.bind_eq_some_iff.1 h
    obtain ⟨field, -, h⟩ := Option.bind_eq_some_iff.1 h
    obtain ⟨output, houtput, h⟩ := Option.bind_eq_some_iff.1 h
    obtain ⟨errors, herrors, h⟩ := Option.bind_eq_some_iff.1 h
    obtain ⟨field, -, herrors⟩ := Option.bind_eq_some_iff.1 herrors
    cases h
    exact List.forall_mem_append.2 ⟨List.forall_mem_append.2
      ⟨printable_of_side hinput, printable_of_side houtput⟩, printable_of_ids herrors⟩
  · obtain ⟨operations, hoperations, h⟩ := Option.bind_eq_some_iff.1 h
    obtain ⟨field, -, hoperations⟩ := Option.bind_eq_some_iff.1 hoperations
    cases h
    exact printable_of_ids hoperations
  · cases h

end Shape

/-! ## Nodes -/

namespace Node

variable {n : Node}

/-- The identifiers in a node. -/
def ids (n : Node) : List ShapeId := n.id :: (n.shape.ids ++ TagSet.ids n.tags)

/-- The fields of a node that say what its shape is. -/
def shapeFields (n : Node) : List (String × Json) :=
  ("type", .string n.shape.word) :: n.shape.fields

/-- The fields of a node: its identifier, those of its shape, and its tags. -/
theorem toJson_eq (n : Node) :
    n.toJson = .object (("id", n.id.toJson) :: (n.shapeFields ++ TagSet.fields n.tags)) := rfl

/-- The three parts of a node do not mix up. -/
theorem of_mem_shapeFields {f : String × Json} (h : f ∈ n.shapeFields) :
    f.1 ≠ "id" ∧ f.1 ≠ "tags" ∧ Json.Textual 5 f.2 := by
  rcases List.mem_cons.1 h with rfl | h
  · exact ⟨by simp, by simp, trivial⟩
  · obtain ⟨⟨hid, -, htags⟩, htextual⟩ := Shape.of_mem_fields h
    exact ⟨hid, htags, htextual⟩

/-- A node is written with at most six levels around its texts. -/
theorem textual_toJson (n : Node) : Json.Textual 6 n.toJson := by
  rw [toJson_eq]
  intro f hf
  rcases List.mem_cons.1 hf with rfl | hf
  · exact trivial
  · rcases List.mem_append.1 hf with hf | hf
    · exact (of_mem_shapeFields hf).2.2
    · exact (TagSet.of_mem_fields hf).2.mono (by decide)

/-- The identifier of a node is found among its fields. -/
theorem field?_id (n : Node) :
    Json.field? (("id", n.id.toJson) :: (n.shapeFields ++ TagSet.fields n.tags)) "id" =
      some (some n.id.toJson) := by
  refine Json.field?_cons_self fun f hf => ?_
  rcases List.mem_append.1 hf with hf | hf
  · exact (of_mem_shapeFields hf).1
  · rw [(TagSet.of_mem_fields hf).1]
    decide

/-- The tags of a node are found, or found to be left out. -/
theorem field?_tags (n : Node) :
    Json.field? (("id", n.id.toJson) :: (n.shapeFields ++ TagSet.fields n.tags)) "tags" =
      some (TagSet.field? n.tags) := by
  have hbefore : ∀ f ∈ ("id", n.id.toJson) :: n.shapeFields, f.1 ≠ "tags" := by
    intro f hf
    rcases List.mem_cons.1 hf with rfl | hf
    · simp
    · exact (of_mem_shapeFields hf).2.1
  rw [← List.cons_append, Json.field?_append_right hbefore, TagSet.fields_eq]
  cases TagSet.field? n.tags <;> rfl

/-- What is left without the identifier and the tags is the shape. -/
theorem filter_shapeFields (n : Node) :
    (("id", n.id.toJson) :: (n.shapeFields ++ TagSet.fields n.tags)).filter
      (fun f => f.1 != "id" && f.1 != "tags") = n.shapeFields := by
  have hkept : n.shapeFields.filter (fun f => f.1 != "id" && f.1 != "tags") = n.shapeFields := by
    refine List.filter_eq_self.2 fun f hf => ?_
    obtain ⟨hid, htags, -⟩ := of_mem_shapeFields hf
    simp [hid, htags]
  have hdropped : (TagSet.fields n.tags).filter (fun f => f.1 != "id" && f.1 != "tags") = [] := by
    refine List.filter_eq_nil_iff.2 fun f hf => ?_
    simp [(TagSet.of_mem_fields hf).1]
  rw [List.filter_cons_of_neg (by simp), List.filter_append, hkept, hdropped, List.append_nil]

theorem field?_type (n : Node) :
    Json.field? n.shapeFields "type" = some (some (.string n.shape.word)) :=
  Json.field?_cons_self fun _ hf => (Shape.of_mem_fields hf).1.2.1

/-- A node is read back from its JSON form. -/
theorem ofJson?_toJson (lenient : Json.Leniency) {outer : Nat} (houter : outer + 6 ≤ Json.maxDepth)
    (h : ∀ id ∈ n.ids, id.Printable) : ofJson? lenient outer n.toJson = some n := by
  have hid := ShapeId.ofJson?_toJson (h n.id List.mem_cons_self)
  have hshape : Shape.ofFields? n.shape.word n.shapeFields = some n.shape :=
    Shape.ofFields?_fields
      (fun id hid => h id (List.mem_cons_of_mem _ (List.mem_append_left _ hid))) _
  have htags := TagSet.defaulted?_field? lenient fun id hid =>
    h id (List.mem_cons_of_mem _ (List.mem_append_right _ hid))
  have hreadable : (n.shapeFields.all fun f => f.2.readable (outer + 1)) = true := by
    refine List.all_eq_true.2 fun f hf => ?_
    exact (of_mem_shapeFields hf).2.2.readable (by omega)
  have hword : Shape.word? (.string n.shape.word) = some n.shape.word := by
    cases n.shape <;> rfl
  simp only [toJson_eq, ofJson?, field?_id, field?_tags, filter_shapeFields, field?_type, hreadable,
    Json.required?, Option.bind_eq_bind, Option.bind_some, hid, htags, hword, hshape, if_true,
    Option.pure_def]

/-- All identifiers in a node that was read are printable, its own included. -/
theorem printable_of_ofJson? {lenient : Json.Leniency} {outer : Nat} {v : Json}
    (h : ofJson? lenient outer v = some n) : ∀ id ∈ n.ids, id.Printable := by
  cases v with
  | object fields =>
    rw [ofJson?] at h
    obtain ⟨idField, -, h⟩ := Option.bind_eq_some_iff.1 h
    obtain ⟨id, hid, h⟩ := Option.bind_eq_some_iff.1 h
    obtain ⟨tagsField, -, h⟩ := Option.bind_eq_some_iff.1 h
    obtain ⟨tags, htags, h⟩ := Option.bind_eq_some_iff.1 h
    dsimp only at h
    split at h
    · obtain ⟨typeField, -, h⟩ := Option.bind_eq_some_iff.1 h
      obtain ⟨word, -, h⟩ := Option.bind_eq_some_iff.1 h
      obtain ⟨shape, hshape, h⟩ := Option.bind_eq_some_iff.1 h
      cases h
      obtain ⟨v, -, hv⟩ := Option.bind_eq_some_iff.1 hid
      exact List.forall_mem_cons.2 ⟨ShapeId.printable_of_ofJson? hv, List.forall_mem_append.2
        ⟨Shape.printable_of_ofFields? hshape, TagSet.printable_of_defaulted? htags⟩⟩
    · cases h
  | _ => cases h

end Node

end SchemaSymbols

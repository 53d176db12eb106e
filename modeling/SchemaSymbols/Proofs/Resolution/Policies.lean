/-
  What a nullability policy has a say in.

  A policy is asked in the middle of a walk, once for every member of a record, and its answer goes
  into the binding of that member and nowhere else.  Resolvers with two policies leave twins behind,
  after any calls, so all that is left to see is in what two bindings of one member can differ.

  - The members of a union are never null, so their bindings do not differ (`eq_of_isUnion`).
  - Bindings of one member of a record differ in whether it may be null and in the default, which
    a member that may be null does not get from its type (`Binding.DifferInNullability`).
  - A policy that lets fewer members be null leaves fewer that are (`nullable_of_imp`).
  - Under the built-in policies no member that may be null has a default
    (`NullabilityMode.default?_eq_none`), since a default of its own keeps it from being null.
-/
import SchemaSymbols.Proofs.Resolution.Twins

namespace SchemaSymbols

open ResolveM

variable {r : Resolver} {q : NullabilityPolicy} {s t : Session}

/-! ## What a policy changes -/

/-- Two bindings differ at most in whether they may be null and in their defaults. -/
def Binding.DifferInNullability (b c : Binding) : Prop :=
  c = { b with symbol := b.symbol.atUse c.symbol.nullable c.symbol.default? b.symbol.boxed }

/-- A built-in policy makes no member nullable that has a default of its own. -/
theorem NullabilityMode.default?_eq_none {mode : NullabilityMode} {owner : Node} {m : Member}
    (h : mode.policy.makesNullable owner m = true) : TagSet.default? m.tags = none := by
  rw [NullabilityPolicy.makesNullable, Bool.or_eq_true] at h
  rcases h with habsent | hpolicy
  · rw [Member.mayBeAbsent, Bool.and_eq_true, Option.isNone_iff_eq_none] at habsent
    exact habsent.2
  · cases mode with
    | structural => cases hpolicy
    | clientOptional => exact Option.isNone_iff_eq_none.1 hpolicy

namespace Binding.Twins

variable {owner : Node} {b c : Binding}

/-- The variants of a union are bound without a look at the policy. -/
theorem eq_of_isUnion (h : b.Twins r q owner c) (hunion : owner.shape.isUnion = true) : b = c := by
  obtain ⟨m, name, target, boxed, -, rfl, rfl⟩ := h
  rw [Resolver.memberBinding, Resolver.memberBinding, Resolver.memberSymbol,
    Resolver.memberSymbol, if_pos hunion, if_pos hunion]

theorem differInNullability (h : b.Twins r q owner c) : b.DifferInNullability c := by
  obtain ⟨m, name, target, boxed, -, rfl, rfl⟩ := h
  rw [DifferInNullability, Resolver.memberBinding, Resolver.memberBinding, Resolver.memberSymbol,
    Resolver.memberSymbol]
  split
  · rfl
  · rfl

/-- A policy that says yes more often leaves more members that may be null. -/
theorem nullable_of_imp (h : b.Twins r q owner c)
    (himp : ∀ owner m, r.policy owner m = true → q owner m = true)
    (hb : b.symbol.nullable = true) : c.symbol.nullable = true := by
  obtain ⟨m, name, target, boxed, -, rfl, rfl⟩ := h
  rw [Resolver.memberBinding, Resolver.memberSymbol] at hb ⊢
  cases hunion : owner.shape.isUnion with
  | true =>
    rw [hunion] at hb
    cases hb
  | false =>
    rw [hunion] at hb
    have hnullable : r.policy.makesNullable owner m = true := hb
    show q.makesNullable owner m = true
    rw [NullabilityPolicy.makesNullable, Bool.or_eq_true] at hnullable ⊢
    exact hnullable.imp_right (himp owner m)

/-- Under a built-in policy, a binding that may be null has no default. -/
theorem default?_eq_none {mode : NullabilityMode} (h : b.Twins r q owner c)
    (hmode : r.policy = mode.policy) (hb : b.symbol.nullable = true) :
    b.symbol.default? = none := by
  obtain ⟨m, name, target, boxed, -, rfl, rfl⟩ := h
  rw [Resolver.memberBinding, Resolver.memberSymbol] at hb ⊢
  cases hunion : owner.shape.isUnion with
  | true => rfl
  | false =>
    rw [hunion] at hb
    have hnullable : r.policy.makesNullable owner m = true := hb
    show Resolver.memberDefault? m target (r.policy.makesNullable owner m) = none
    rw [Resolver.memberDefault?, hnullable]
    rw [hmode] at hnullable
    rw [NullabilityMode.default?_eq_none hnullable]
    rfl

end Binding.Twins

/-- Two sessions differ at most in the nullability and the defaults of record members. -/
structure Session.DifferInNullability (g : Graph) (s t : Session) : Prop where
  symbols : s.table.symbols = t.table.symbols
  diagnostics : s.diagnostics = t.diagnostics
  /-- The members of the same records and unions are bound. -/
  bound : s.table.bindings.keys = t.table.bindings.keys
  unions : ∀ id n, g.get? id = some n → n.shape.isUnion = true →
    s.table.members? id = t.table.members? id
  boxed : s.table.boxedMembers = t.table.boxedMembers
  members : ∀ id, Option.Rel (List.Forall₂ Binding.DifferInNullability) (s.table.members? id)
    (t.table.members? id)

namespace Session.Twins

variable {id : ShapeId}

/-- Twins have the same bindings for a union. -/
theorem unions_eq (h : s.Twins r q t) {n : Node} (hget : r.graph.get? id = some n)
    (hunion : n.shape.isUnion = true) : s.table.members? id = t.table.members? id := by
  have hmembers := h.table.members id
  generalize s.table.members? id = a, t.table.members? id = b at hmembers
  cases hmembers with
  | none => rfl
  | some htwins =>
    obtain ⟨owner, howner, hall⟩ := htwins
    rw [hget] at howner
    cases howner
    refine congrArg some ?_
    rw [← List.forall₂_eq_eq_eq]
    exact hall.imp fun _ _ htwin => htwin.eq_of_isUnion hunion

/-- Twins differ in bindings of records, and there in nullability only. -/
theorem differInNullability (h : s.Twins r q t) : s.DifferInNullability r.graph t where
  symbols := h.table.symbols
  diagnostics := h.diagnostics
  bound := Sorted.keys_eq h.alike.table.isBound
  unions := fun _ _ => h.unions_eq
  boxed := h.alike.table.boxedMembers_eq
  members := fun id => by
    have hmembers := h.table.members id
    generalize s.table.members? id = a, t.table.members? id = b at hmembers
    cases hmembers with
    | none => exact .none
    | some htwins =>
      obtain ⟨owner, -, hall⟩ := htwins
      exact .some (hall.imp fun _ _ => Binding.Twins.differInNullability)

end Session.Twins

/-- A policy decides on the nullability of record members, and on nothing else.  Under any two
    policies, the same calls have the same answers and leave sessions behind that differ at most in
    which record members may be null and in their defaults.  Where one policy says yes only if the
    other one does, a member that may be null under the first may be null under the second; and
    under a built-in policy no member may be null and has a default. -/
theorem policy_confined_to_nullability (g : Graph) (profile : Profile) (o : ResolverOptions)
    (p q : NullabilityPolicy) (calls : List Call) :
    let r := Resolver.new g profile p o
    let r' := Resolver.new g profile q o
    (∀ id, (r.resolve id).outcome (r.after calls) = (r'.resolve id).outcome (r'.after calls)) ∧
    r.resolveAll.outcome (r.after calls) = r'.resolveAll.outcome (r'.after calls) ∧
    (r.after calls).DifferInNullability g (r'.after calls) ∧
    ((∀ owner m, p owner m = true → q owner m = true) →
      ∀ id bs cs, (r.after calls).table.members? id = some bs →
        (r'.after calls).table.members? id = some cs →
          List.Forall₂ (fun b c => b.symbol.nullable = true → c.symbol.nullable = true) bs cs) ∧
    ∀ (mode : NullabilityMode) (id : ShapeId) (bs : List Binding),
      ((Resolver.new g profile mode.policy o).after calls).table.members? id = some bs →
        ∀ b ∈ bs, b.symbol.nullable = true → b.symbol.default? = none := by
  intro r r'
  have htwins : (r.after calls).Twins r q (r'.after calls) := Resolver.twins_after r q calls
  refine ⟨fun id => (Resolver.resolve_inStep id htwins).1, (Resolver.resolveAll_inStep htwins).1,
    htwins.differInNullability, ?_, ?_⟩
  · intro himp id bs cs hbs hcs
    obtain ⟨owner, -, hall⟩ := htwins.forall₂_members hbs hcs
    exact hall.imp fun _ _ htwin => htwin.nullable_of_imp himp
  · intro mode id bs hbs b hb
    have hmode := Resolver.twins_after (Resolver.new g profile mode.policy o) mode.policy calls
    obtain ⟨owner, c, -, htwin⟩ := hmode.exists_twin hbs hb
    exact htwin.default?_eq_none rfl

/-! ## A clinic -/

namespace Clinic

/-- The identifier of a shape of the clinic. -/
def shape (name : String) : ShapeId := ⟨"clinic", name, none⟩

/-- A patient has a name, a number of visits, perhaps a ward and a way to be reached; a ward has a
chief, who is a patient. -/
def nodes : List Node :=
  [ ⟨shape "Text", .primitive .string, .empty⟩,
    ⟨shape "Count", .primitive .integer, .empty⟩,
    ⟨shape "Patient", .record
      [ ⟨"name", shape "Text", Sorted.ofList [.required]⟩,
        ⟨"visits", shape "Count", Sorted.ofList [.default "1"]⟩,
        ⟨"ward", shape "Ward", .empty⟩,
        ⟨"contact", shape "Contact", Sorted.ofList [.required]⟩ ], .empty⟩,
    ⟨shape "Ward", .record [⟨"chief", shape "Patient", Sorted.ofList [.required]⟩], .empty⟩,
    ⟨shape "Contact", .union [⟨"phone", shape "Text", .empty⟩, ⟨"kin", shape "Patient", .empty⟩],
      .empty⟩ ]

/-- The clinic under a built-in policy. -/
def resolver (mode : NullabilityMode) : Resolver := .new (.ofNodesD nodes) .swift mode.policy {}

/-- A ward, a shape that there is not, and everything. -/
def calls : List Call := [.shape (shape "Ward"), .shape (shape "Bill"), .all]

/-- Which members of a record may be null under a built-in policy, and whether they have defaults.
-/
def nullables (mode : NullabilityMode) (name : String) : Option (List (Bool × Bool)) :=
  (((resolver mode).after calls).table.members? (shape name)).map fun bs =>
    bs.map fun b => (b.symbol.nullable, b.symbol.default?.isSome)

end Clinic

/-- Clients may miss the name of a patient, which then has no default, and the chief of a ward.  All
calls have the same answers, and the members that close cycles are boxed either way. -/
theorem clinic_policies_confined :
    (∀ owner m, NullabilityMode.structural.policy owner m = true →
      NullabilityMode.clientOptional.policy owner m = true) ∧
    Clinic.nullables .structural "Patient" =
      some [(false, true), (false, true), (true, false), (false, false)] ∧
    Clinic.nullables .clientOptional "Patient" =
      some [(true, false), (false, true), (true, false), (true, false)] ∧
    ((Clinic.resolver .structural).after Clinic.calls).table.boxedMembers.toList =
      [(Clinic.shape "Contact").withMember "kin", (Clinic.shape "Patient").withMember "ward"] ∧
    ((Clinic.resolver .structural).after Clinic.calls).DifferInNullability (.ofNodesD Clinic.nodes)
      ((Clinic.resolver .clientOptional).after Clinic.calls) ∧
    ∀ id bs cs, ((Clinic.resolver .structural).after Clinic.calls).table.members? id = some bs →
      ((Clinic.resolver .clientOptional).after Clinic.calls).table.members? id = some cs →
        List.Forall₂ (fun b c => b.symbol.nullable = true → c.symbol.nullable = true) bs cs := by
  have himp : ∀ owner m, NullabilityMode.structural.policy owner m = true →
      NullabilityMode.clientOptional.policy owner m = true := by
    intro owner m h
    cases h
  have hconfined := policy_confined_to_nullability (.ofNodesD Clinic.nodes) .swift {}
    NullabilityMode.structural.policy NullabilityMode.clientOptional.policy Clinic.calls
  exact ⟨himp, by decide +kernel, by decide +kernel, by decide +kernel,
    hconfined.2.2.1, hconfined.2.2.2.1 himp⟩

end SchemaSymbols

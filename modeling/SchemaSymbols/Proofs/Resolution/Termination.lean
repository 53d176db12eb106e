/-
  Every call comes to an end, and what each of its three loops may do on the way.

  The machine has no budgets.  It stops because it follows the programs, and these have budgets that
  outlast their loops (`resolution_terminates`).  The reasons are visible in single steps as well.

  1. **Single steps.**  A step opens a collection only if it is neither open nor known
     (`OpensFresh`), and it queues shapes only for a shape that gets its first symbol, and no more
     of them than that shape refers to (`QueuesFresh`).

  2. **Members.**  A member is bound at most once.  From the moment it is bound its walk has more
     bound members than the member's position, until the walk ends; from then on its owner is bound,
     and a bound record or union is not walked.  `Past` says that one or the other is the case, and
     every step keeps it (`Context.Past.perform`).  A step that binds the member finds neither
     (`Context.Past.not_bindsAt`).
-/
import SchemaSymbols.Proofs.Resolution.Adequacy

namespace SchemaSymbols

open Relation

variable {r : Resolver} {a b : Machine} {c c' : Context} {t : Task} {tasks : List Task}
  {id : ShapeId} {i : Nat}

namespace Machine

/-! ## Single steps -/

/-- From `a` to `b` collections are dropped from their stack, or one is put on it that was neither
open nor known. -/
def OpensFresh (a b : Machine) : Prop :=
  b.context.containers <:+ a.context.containers ∨
    ∃ id, id ∉ a.context.containers ∧ a.context.table.contains id = false ∧
      b.context.containers = id :: a.context.containers

/-- From `a` to `b` shapes are taken out of the queue, or a shape gets its first symbol and queues
shapes, no more than it refers to. -/
def QueuesFresh (r : Resolver) (a b : Machine) : Prop :=
  b.context.pending <:+ a.context.pending ∨
    ∃ n symbol queued, r.graph.get? n.id = some n ∧ symbol.shape = n.id ∧
      a.context.table.contains n.id = false ∧
      b.context.table = a.context.table.addSymbol symbol ∧
      b.context.pending = a.context.pending ++ queued ∧
      queued.length ≤ n.shape.references.length

/-- From `a` to `b` the innermost walk, that of `id`, binds its member at position `i`. -/
def BindsAt (a b : Machine) (id : ShapeId) (i : Nat) (binding : Binding) : Prop :=
  ∃ w rest, a.context.walks = w :: rest ∧ w.id = id ∧ w.bound.length = i ∧
    b.context.walks = { w with bound := w.bound ++ [binding] } :: rest

end Machine

/-- A collection queues no more shapes than it refers to. -/
theorem Resolver.Built.length_queued_le {n : Node} {t : SymbolTable} {symbol : Symbol}
    {queued : List ShapeId} (built : r.Built t n symbol queued) :
    queued.length ≤ n.shape.references.length := by
  have hle : queued.length ≤ n.shape.elements.length := by
    rw [built.queued]
    exact (List.length_filter_le _ _).trans_eq (List.length_map _)
  exact hle.trans n.shape.length_elements_le

namespace Orderly

/-- A step opens only collections that are neither open nor known. -/
theorem opensFresh (h : Orderly r a) (hstep : a.step r = some b) : a.OpensFresh b := by
  obtain ⟨t, rest, tasks, c', htasks, performs, rfl⟩ | ⟨e, rfl⟩ := h.step_cases hstep
  · obtain ⟨_, c, f?⟩ := a
    cases htasks
    cases performs with
    | opened node container fresh =>
      have idle : c.containers = [] := h.containers_eq_nil (by simp [Task.rank])
      exact Or.inr ⟨_, idle ▸ List.not_mem_nil, fresh, rfl⟩
    | inner ms node container fresh notOpen => exact Or.inr ⟨_, notOpen, fresh, rfl⟩
    | closed built => exact Or.inl (List.tail_suffix _)
    | left | next | bound => exact Or.inl (by simp)
    | _ => exact Or.inl (List.suffix_refl _)
  · exact Or.inl (List.nil_suffix)

/-- A step queues shapes only for a first symbol, and no more than its shape refers to. -/
theorem queuesFresh (h : Orderly r a) (hstep : a.step r = some b) : a.QueuesFresh r b := by
  obtain ⟨t, rest, tasks, c', htasks, performs, rfl⟩ | ⟨e, rfl⟩ := h.step_cases hstep
  · obtain ⟨_, c, f?⟩ := a
    cases htasks
    have hfit := h.fits t List.mem_cons_self
    cases performs with
    | leaf node fresh made =>
      have hmade := Resolver.made_of_leaf made
      exact Or.inr ⟨_, _, _, node, hmade.shape, fresh, rfl, rfl,
        hmade.queued ▸ Shape.length_links_le _⟩
    | @element n target m leaf ms node fresh made =>
      have hmade := Resolver.made_of_leaf made
      have hid : target.id = m.target := Graph.get?_id node
      exact Or.inr ⟨_, _, _, hid ▸ node, hmade.shape, hid ▸ fresh, rfl, rfl,
        hmade.queued ▸ Shape.length_links_le _⟩
    | closed built =>
      obtain ⟨node, ⟨outer, top⟩, -⟩ := hfit
      have fresh := (h.books.sound.containers _ (top ▸ List.mem_cons_self)).fresh
      have hbuilt := Resolver.built_of_collection built
      exact Or.inr ⟨_, _, _, node, hbuilt.shape, fresh, rfl, rfl, hbuilt.length_queued_le⟩
    | dequeued queue => exact Or.inl (List.tail_suffix _)
    | left | next | bound => exact Or.inl (by simp)
    | _ => exact Or.inl (List.suffix_refl _)
  · exact Or.inl (List.suffix_refl _)

end Orderly

/-! ## Members -/

/-- The member of `id` at position `i` was bound: its owner is bound, or its walk is further. -/
def Context.Past (c : Context) (id : ShapeId) (i : Nat) : Prop :=
  c.table.isBound id = true ∨ ∃ w ∈ c.walks, w.id = id ∧ i < w.bound.length

theorem Context.Past.enter (h : c.Past id i) (n : Node) (names : List AssignedName) :
    (c.enter n names).Past id i := by
  obtain h | ⟨w, hw, hpast⟩ := h
  · exact Or.inl h
  · exact Or.inr ⟨w, List.mem_cons_of_mem _ hw, hpast⟩

/-- The innermost walk may go on, as that of the same shape. -/
theorem Context.Past.of_first {w w' : OpenWalk} {others : List OpenWalk} (h : c.Past id i)
    (top : c.walks = w :: others) (table : c'.table = c.table) (walks : c'.walks = w' :: others)
    (same : w'.id = w.id) (hle : w.bound.length ≤ w'.bound.length) : c'.Past id i := by
  rw [Context.Past, top] at h
  rw [Context.Past, table, walks]
  obtain h | ⟨k, hk, hid, hlt⟩ := h
  · exact Or.inl h
  · rcases List.mem_cons.1 hk with rfl | hk
    · exact Or.inr ⟨w', List.mem_cons_self, same.trans hid, hlt.trans_le hle⟩
    · exact Or.inr ⟨k, List.mem_cons_of_mem _ hk, hid, hlt⟩

/-- Members that were bound by a walk are those of a bound shape when the walk ends. -/
theorem Context.Past.leave {w : OpenWalk} {others : List OpenWalk} (h : c.Past id i)
    (top : c.walks = w :: others) : c.leave.Past id i := by
  rw [Context.Past, top] at h
  rw [Context.Past, Context.walks_leave top, Context.leave, top, SymbolTable.isBound_bind]
  obtain h | ⟨k, hk, hid, hlt⟩ := h
  · exact Or.inl (Or.inr h)
  · rcases List.mem_cons.1 hk with rfl | hk
    · exact Or.inl (Or.inl hid)
    · exact Or.inr ⟨k, hk, hid, hlt⟩

/-- A task that is performed does not undo what was bound. -/
theorem Context.Past.perform (h : c.Past id i) (performs : Performs r c t tasks c') :
    c'.Past id i := by
  cases performs with
  | entered => exact h.enter _ _
  | met => exact h.enter _ _
  | left top => exact h.leave top
  | next top => exact h.of_first top c.table_advance (Context.walks_advance top) rfl le_rfl
  | bound =>
    cases top : c.walks with
    | nil =>
      rw [Context.push, top]
      exact h
    | cons w others =>
      refine h.of_first top (c.table_push _) (Context.walks_push _ top) rfl ?_
      exact List.length_append ▸ Nat.le_add_right _ _
  | _ => exact h

/-- What was bound stays bound until the machine stops. -/
theorem past_of_reaches (h : Orderly r a) (run : Machine.Reaches r a b)
    (past : a.context.Past id i) : b.tasks = [] ∨ b.context.Past id i := by
  induction run with
  | refl => exact Or.inr past
  | tail run hstep ih =>
    obtain ⟨t, rest, tasks, c', htasks, performs, rfl⟩ | ⟨e, rfl⟩ :=
      (h.reaches run).step_cases hstep
    · refine Or.inr (Context.Past.perform (ih.resolve_left ?_) performs)
      rw [htasks]
      exact List.cons_ne_nil t rest
    · exact Or.inl rfl

/-- A walk does not bind a member again. -/
theorem Context.Past.not_bindsAt {binding : Binding} (past : a.context.Past id i)
    (h : Orderly r a) : ¬ a.BindsAt b id i binding := by
  rintro ⟨w, rest, top, rfl, rfl, -⟩
  obtain hbound | ⟨k, hk, hid, hlt⟩ := past
  · rw [h.books.unbound (top ▸ List.mem_cons_self)] at hbound
    cases hbound
  · have hdistinct := h.books.distinct
    rw [top] at hdistinct hk
    rcases List.mem_cons.1 hk with rfl | hk
    · exact Nat.lt_irrefl _ hlt
    · exact (List.nodup_cons.1 hdistinct).1 (hid ▸ List.mem_map_of_mem hk)

/-- What is bound at a position is the declared member. -/
theorem Orderly.declared {binding : Binding} (h : Orderly r a) (hstep : a.step r = some b)
    (binds : a.BindsAt b id i binding) :
    ∃ owner m, r.graph.get? id = some owner ∧ owner.shape.members[i]? = some m ∧
      binding.id = owner.memberId m := by
  obtain ⟨w, others, top, rfl, rfl, htop⟩ := binds
  obtain ⟨t, rest, tasks, c', htasks, performs, rfl⟩ | ⟨e, rfl⟩ := h.step_cases hstep
  · obtain ⟨_, c, f?⟩ := a
    cases htasks
    change c.walks = _ at top
    change c'.walks = _ at htop
    have hfit := h.fits t List.mem_cons_self
    cases performs with
    | @bound owner target m symbol name known =>
      obtain ⟨⟨w', others', top', node, -, hm, -⟩, -, -⟩ := hfit
      obtain ⟨rfl, rfl⟩ := List.cons.inj (top'.symm.trans top)
      rw [Context.walks_push _ top'] at htop
      have hbound := congrArg OpenWalk.bound (List.cons.inj htop).1
      obtain rfl := List.singleton_injective (List.append_cancel_left hbound)
      exact ⟨owner, m, node, hm, rfl⟩
    -- in every other case the innermost walk does not get another binding
    | entered | met | left =>
      have hlen := congrArg List.length htop
      simp [Context.enter, Context.leave, top] at hlen
    | next =>
      have hbound := congrArg (fun l => l.map fun k => k.bound.length) htop
      simp [Context.advance, top] at hbound
    | _ =>
      have hbound := congrArg (fun l => l.map fun k => k.bound.length) (top.symm.trans htop)
      simp at hbound
  · cases htop

/-- A member that was bound in one step is not bound in a later one. -/
theorem Orderly.not_bindsAt {a' b' : Machine} {binding binding' : Binding} (h : Orderly r b)
    (binds : a.BindsAt b id i binding) (run : Machine.Reaches r b a')
    (hstep : a'.step r = some b') : ¬ a'.BindsAt b' id i binding' := by
  obtain ⟨w, others, -, hid, hi, top⟩ := binds
  have past : b.context.Past id i := by
    rw [Context.Past, top]
    refine Or.inr ⟨_, List.mem_cons_self, hid, ?_⟩
    rw [List.length_append, hi]
    exact Nat.lt_succ_self i
  obtain stopped | past := past_of_reaches h run past
  · rw [Machine.step_eq_none.2 stopped] at hstep
    cases hstep
  · exact past.not_bindsAt (h.reaches run)

/-! ## Calls -/

/-- Whatever was called before, a call comes to an end: after finitely many steps the machine is in
the state that the program of the call computes, and stays there.  On the way, a collection is
opened only if it is neither open nor known, shapes are queued only for a shape that gets its first
symbol, and each member of a record or union is bound at most once. -/
theorem resolution_terminates (wf : r.graph.WellFormed) (calls : List Call) (call : Call) :
    let first := Machine.start r (.ofIdle (r.after calls)) call
    let last := Machine.ended (r.call call (r.after calls))
    (∃ k, ∀ n, k ≤ n → first.run r n = last) ∧ last.tasks = [] ∧
      ∀ a b, Machine.Reaches r first a → a.step r = some b →
        a.OpensFresh b ∧ a.QueuesFresh r b ∧ ∀ id i binding, a.BindsAt b id i binding →
          (∃ owner m, r.graph.get? id = some owner ∧ owner.shape.members[i]? = some m ∧
            binding.id = owner.memberId m) ∧
          ∀ a' b' binding', Machine.Reaches r b a' → a'.step r = some b' →
            ¬ a'.BindsAt b' id i binding' := by
  intro first last
  have h := orderly_start wf calls call
  have hstopped : last.step r = none := Machine.step_eq_none.2 (Machine.tasks_ended _)
  refine ⟨(reaches_ended wf calls call).exists_run hstopped, Machine.tasks_ended _, ?_⟩
  intro a b run hstep
  have ha := h.reaches run
  refine ⟨ha.opensFresh hstep, ha.queuesFresh hstep, fun id i binding binds => ?_⟩
  exact ⟨ha.declared hstep binds, fun a' b' binding' run' hstep' =>
    (ha.step hstep).not_bindsAt binds run' hstep'⟩

namespace Telegraph

/-- The identifier of a shape of the telegraph. -/
def shape (name : String) : ShapeId := ⟨"telegraph", name, none⟩

/-- A record that contains itself, directly and through a union and a list. -/
def message : Node :=
  ⟨shape "Message", .record
    [⟨"reply", shape "Message", .empty⟩, ⟨"sender", shape "Sender", .empty⟩], .empty⟩

/-- The record, what it contains, and a service and an operation that lead to each other. -/
def nodes : List Node :=
  [ ⟨shape "Office", .service [shape "Send"], .empty⟩,
    ⟨shape "Send", .operation (some (shape "Message")) (some (shape "Office")) [], .empty⟩,
    message,
    ⟨shape "Sender", .union [⟨"message", shape "Message", .empty⟩, ⟨"sent", shape "Sent", .empty⟩],
      .empty⟩,
    ⟨shape "Sent", .list ⟨"member", shape "Message", .empty⟩, .empty⟩ ]

/-- The telegraph seen through a target language. -/
def resolver : Resolver :=
  .new (.ofNodesD nodes) .rust (NullabilityMode.policy .structural) {}

/-- The call for everything. -/
def first : Machine := .start resolver (.ofIdle (resolver.after [])) .all

/-- The binding of the record's first member, which closes a cycle. -/
def reply : Binding :=
  resolver.memberBinding message ⟨"reply", shape "Message", .empty⟩ "reply"
    (resolver.declaredSymbol message .record) true

end Telegraph

/-- The call for everything ends well.  The first member of the message is bound in the sixteenth
step, and in no later one. -/
theorem telegraph_terminates :
    Telegraph.resolver.graph.WellFormed ∧
    ∃ a b last, Machine.Reaches Telegraph.resolver Telegraph.first a ∧
      a.step Telegraph.resolver = some b ∧
      a.BindsAt b (Telegraph.shape "Message") 0 Telegraph.reply ∧
      (∀ a' b' binding, Machine.Reaches Telegraph.resolver b a' →
        a'.step Telegraph.resolver = some b' →
          ¬ a'.BindsAt b' (Telegraph.shape "Message") 0 binding) ∧
      (∃ k, ∀ n, k ≤ n → Telegraph.first.run Telegraph.resolver n = last) ∧
      last.tasks = [] ∧ last.fault? = none := by
  have wf : Telegraph.resolver.graph.WellFormed := Graph.wellFormed_ofNodesD Telegraph.nodes
  obtain ⟨stops, stopped, steps⟩ := resolution_terminates wf [] .all
  have run : Machine.Reaches Telegraph.resolver Telegraph.first _ :=
    Machine.reaches_run Telegraph.resolver 15 Telegraph.first
  have hstep : (Telegraph.first.run Telegraph.resolver 15).step Telegraph.resolver =
      some (Telegraph.first.run Telegraph.resolver 16) := by
    decide +kernel
  have binds : (Telegraph.first.run Telegraph.resolver 15).BindsAt
      (Telegraph.first.run Telegraph.resolver 16) (Telegraph.shape "Message") 0 Telegraph.reply :=
    ⟨⟨Telegraph.shape "Message", ["reply", "sender"], 1, []⟩, [], by decide +kernel, rfl, rfl,
      by decide +kernel⟩
  obtain ⟨-, -, once⟩ := steps _ _ run hstep
  exact ⟨wf, _, _, _, run, hstep, binds, (once _ _ _ binds).2, stops, stopped, by decide +kernel⟩

end SchemaSymbols

/-
  How a step of a resolution ends.

  `x.Ends s Q E` says that `x`, started in the session `s`, ends well with `Q` or with a fault and
  `E`.  The fault leaves a session behind too, so `E` speaks about it as `Q` does.  One equation for
  each way to put steps together turns a claim about a program into claims about its parts, in the
  order in which they run; `Ends.mono` then replaces a part by what is known about it.

  The equations are simp lemmas, so a proof about a program opens its definition, lets the
  simplifier take it apart, and goes through the parts one by one.  Computations outside the session
  are lifted (`ends_lift`), and a program that gives up on failure ends like the program itself, but
  for the session that a fault leaves (`ends_orAbandon`).

  `endsWell`, `fault?` and `leaves` observe how a program ends.  They can be evaluated, and are what
  examples are stated with; a lemma for each says what was observed.
-/
import SchemaSymbols.Resolution.Session

namespace SchemaSymbols.ResolveM

variable {α β : Type} {x : ResolveM α} {s s' : Session} {Q Q' : α → Session → Prop}
  {E E' : Fault → Session → Prop}

/-- The step ends well with `Q`, or with a fault and `E`. -/
def Ends (x : ResolveM α) (s : Session) (Q : α → Session → Prop) (E : Fault → Session → Prop) :
    Prop :=
  match x s with
  | .ok a s' => Q a s'
  | .error e s' => E e s'

/-! ## One equation for each way to put steps together -/

@[simp] theorem ends_pure (a : α) : Ends (pure a) s Q E ↔ Q a s := Iff.rfl

@[simp] theorem ends_throw (e : Fault) : Ends (throw e : ResolveM α) s Q E ↔ E e s := Iff.rfl

/-- Two programs in a row: the second one starts where the first one ended well. -/
@[simp] theorem ends_bind {f : α → ResolveM β} {Q : β → Session → Prop} :
    Ends (x >>= f) s Q E ↔ Ends x s (fun a s' => Ends (f a) s' Q E) E := by
  show (match EStateM.bind x f s with | .ok a s' => Q a s' | .error e s' => E e s') ↔ _
  rw [EStateM.bind, Ends]
  cases x s <;> rfl

@[simp] theorem ends_get {Q : Session → Session → Prop} : Ends get s Q E ↔ Q s s := Iff.rfl

@[simp] theorem ends_modify {f : Session → Session} {Q : PUnit → Session → Prop} :
    Ends (modify f) s Q E ↔ Q ⟨⟩ (f s) := Iff.rfl

@[simp] theorem ends_lift_ok (a : α) : Ends (lift (.ok a)) s Q E ↔ Q a s := Iff.rfl

@[simp] theorem ends_lift_error (e : Fault) :
    Ends (lift (.error e) : ResolveM α) s Q E ↔ E e s := Iff.rfl

/-- A computation outside the session ends with its result, and leaves the session alone. -/
theorem ends_lift {v : Except Fault α} :
    Ends (lift v) s Q E ↔ (∀ a, v = .ok a → Q a s) ∧ ∀ e, v = .error e → E e s := by
  cases v <;> simp

/-- Giving up on failure changes the session that a fault leaves, and nothing else. -/
theorem ends_orAbandon :
    Ends (orAbandon x) s Q E ↔ Ends x s Q fun e s' => E e s'.abandon := by
  show (match orAbandon x s with | .ok a s' => Q a s' | .error e s' => E e s') ↔ _
  rw [orAbandon, Ends]
  cases x s <;> rfl

/-! ## Consequences -/

theorem Ends.mono (h : Ends x s Q E) (hQ : ∀ a s', Q a s' → Q' a s')
    (hE : ∀ e s', E e s' → E' e s') : Ends x s Q' E' := by
  rw [Ends] at h ⊢
  cases hx : x s with
  | ok a s' => rw [hx] at h; exact hQ a s' h
  | error e s' => rw [hx] at h; exact hE e s' h

/-- What is said of ending well holds if the program ended well. -/
theorem Ends.of_ok {a : α} (h : Ends x s Q E) (hx : x s = .ok a s') : Q a s' := by
  rw [Ends, hx] at h
  exact h

/-- What is said of faults holds if the program failed. -/
theorem Ends.of_error {e : Fault} (h : Ends x s Q E) (hx : x s = .error e s') : E e s' := by
  rw [Ends, hx] at h
  exact h

/-- A step whose result and session are known. -/
theorem Ends.eq_ok {a : α} (h : Ends x s (fun b t => b = a ∧ t = s') fun _ _ => False) :
    x s = .ok a s' := by
  rw [Ends] at h
  cases hx : x s with
  | ok b t =>
    rw [hx] at h
    obtain ⟨rfl, rfl⟩ := h
    rfl
  | error e t =>
    rw [hx] at h
    exact h.elim

/-- Two steps after each other end well if the first one does, and the second one after it. -/
theorem exists_of_bind_eq_ok {f : α → ResolveM β} {b : β} (h : (x >>= f) s = .ok b s') :
    ∃ a middle, x s = .ok a middle ∧ f a middle = .ok b s' := by
  change EStateM.bind x f s = .ok b s' at h
  rw [EStateM.bind] at h
  cases hx : x s with
  | ok a middle => rw [hx] at h; exact ⟨a, middle, rfl, h⟩
  | error e middle => rw [hx] at h; cases h

/-- Whether a step ends well. -/
def endsWell (x : ResolveM α) (s : Session) : Bool :=
  match x s with
  | .ok _ _ => true
  | .error _ _ => false

/-- A program that is observed to end well gives an answer. -/
theorem exists_of_endsWell (h : x.endsWell s = true) : ∃ a s', x s = .ok a s' := by
  rw [endsWell] at h
  cases hx : x s with
  | ok a s' => exact ⟨a, s', rfl⟩
  | error e s' => rw [hx] at h; cases h

/-- The fault that a step ends with, if it fails. -/
def fault? (x : ResolveM α) (s : Session) : Option Fault :=
  match x s with
  | .ok _ _ => none
  | .error e _ => some e

theorem exists_of_fault? {e : Fault} (h : x.fault? s = some e) : ∃ s', x s = .error e s' := by
  rw [fault?] at h
  cases hx : x s with
  | ok a s' => rw [hx] at h; cases h
  | error e' s' => rw [hx] at h; cases h; exact ⟨s', rfl⟩

/-- The session that a step leaves behind, whether it ends well or fails. -/
def leaves (x : ResolveM α) (s : Session) : Session :=
  match x s with
  | .ok _ s' => s'
  | .error _ s' => s'

/-- A program that is observed to end well does so in the session it leaves. -/
theorem exists_ok_leaves (h : x.endsWell s = true) : ∃ a, x s = .ok a (x.leaves s) := by
  obtain ⟨a, s', hx⟩ := exists_of_endsWell h
  exact ⟨a, by rw [ResolveM.leaves, hx]⟩

/-- What holds however a program ends holds of the session it leaves. -/
theorem Ends.leaves {P : Session → Prop} (h : Ends x s (fun _ => P) fun _ => P) :
    P (x.leaves s) := by
  rw [Ends] at h
  rw [ResolveM.leaves]
  cases hx : x s with
  | ok a s' => rw [hx] at h; exact h
  | error e s' => rw [hx] at h; exact h

end SchemaSymbols.ResolveM

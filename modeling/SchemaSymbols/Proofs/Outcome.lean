/-
  Computations that may fail: when a composed one succeeds, and what it gives.

  A computation with a fault in it is taken apart by one equivalence for each way to compose: a bind
  gives a result if both parts do (`bind_eq_ok`), and a fault if one of them does (`bind_eq_error`).
  Proofs about programs rewrite with these, so the shape of a proof is that of the program.

  Computing something for each element of a list gives a list that corresponds to it element by
  element, and fails only if one of the computations does.  The same is said once more for an
  element that may be absent.
-/
import Mathlib.Data.List.Forall2

namespace SchemaSymbols

variable {ε α β : Type}

/-- A sequence succeeds if both of its parts do. -/
theorem bind_eq_ok {x : Except ε α} {f : α → Except ε β} {b : β} :
    (x >>= f) = .ok b ↔ ∃ a, x = .ok a ∧ f a = .ok b := by
  cases x with
  | error e =>
    constructor
    · intro h
      cases h
    · rintro ⟨a, ha, -⟩
      cases ha
  | ok a =>
    constructor
    · exact fun h => ⟨a, rfl, h⟩
    · rintro ⟨a', ha, h⟩
      cases ha
      exact h

/-- A mapped computation gives a result if the computation does. -/
theorem map_eq_ok {x : Except ε α} {f : α → β} {b : β} :
    x.map f = .ok b ↔ ∃ a, x = .ok a ∧ f a = b := by
  cases x with
  | error e =>
    constructor
    · intro h
      cases h
    · rintro ⟨a, ha, -⟩
      cases ha
  | ok a =>
    constructor
    · exact fun h => ⟨a, rfl, Except.ok.inj h⟩
    · rintro ⟨a', ha, rfl⟩
      cases ha
      rfl

/-- Forgetting the fault keeps the result. -/
theorem toOption_eq_some {x : Except ε α} {a : α} : x.toOption = some a ↔ x = .ok a := by
  cases x with
  | error e =>
    constructor
    · intro h
      cases h
    · intro h
      cases h
  | ok b =>
    constructor
    · exact fun h => congrArg _ (Option.some.inj h)
    · exact fun h => congrArg _ (Except.ok.inj h)

/-- A sequence fails if its first part does, or its second part after the first one. -/
theorem bind_eq_error {x : Except ε α} {f : α → Except ε β} {e : ε} :
    (x >>= f) = .error e ↔ x = .error e ∨ ∃ a, x = .ok a ∧ f a = .error e := by
  cases x with
  | error e' =>
    constructor
    · intro h
      cases h
      exact Or.inl rfl
    · rintro (h | ⟨a, ha, -⟩)
      · cases h
        rfl
      · cases ha
  | ok a =>
    constructor
    · exact fun h => Or.inr ⟨a, rfl, h⟩
    · rintro (h | ⟨a', ha, h⟩)
      · cases h
      · cases ha
        exact h

/-- A sequence does not fail with what none of its parts fails with. -/
theorem bind_ne_error {x : Except ε α} {f : α → Except ε β} {e : ε} (hx : x ≠ .error e)
    (hf : ∀ a, f a ≠ .error e) : (x >>= f) ≠ .error e := by
  intro h
  rcases bind_eq_error.1 h with h | ⟨a, -, h⟩
  · exact hx h
  · exact hf a h

theorem foldlM_ne_error {f : β → α → Except ε β} {e : ε} (hf : ∀ b a, f b a ≠ .error e) {l : List α}
    {b : β} : l.foldlM f b ≠ .error e := by
  induction l generalizing b with
  | nil => rintro ⟨⟩
  | cons a l ih =>
    rw [List.foldlM_cons]
    exact bind_ne_error (hf b a) fun _ => ih

/-- A list is mapped without a fault if each of its elements is. -/
theorem exists_mapM_eq_ok {f : α → Except ε β} {l : List α} (h : ∀ a ∈ l, ∃ b, f a = .ok b) :
    ∃ bs, l.mapM f = .ok bs := by
  induction l with
  | nil => exact ⟨[], rfl⟩
  | cons a l ih =>
    obtain ⟨b, hb⟩ := h a List.mem_cons_self
    obtain ⟨bs, hbs⟩ := ih fun x hx => h x (List.mem_cons_of_mem _ hx)
    refine ⟨b :: bs, ?_⟩
    rw [List.mapM_cons, hb]
    show (l.mapM f >>= fun bs => pure (b :: bs)) = _
    rw [hbs]
    rfl

/-- A computation for an element that may be absent succeeds if it does when there is one. -/
theorem exists_option_mapM_eq_ok {f : α → Except ε β} {o : Option α}
    (h : ∀ a ∈ o, ∃ b, f a = .ok b) : ∃ b, o.mapM f = .ok b := by
  cases o with
  | none => exact ⟨none, rfl⟩
  | some a =>
    obtain ⟨b, hb⟩ := h a rfl
    refine ⟨some b, ?_⟩
    show (f a >>= fun b => pure (some b)) = _
    rw [hb]
    rfl

/-- What comes out of a list comes from one of its elements. -/
theorem exists_of_mem_mapM {f : α → Except ε β} {l : List α} {bs : List β} {b : β}
    (h : l.mapM f = .ok bs) (hb : b ∈ bs) : ∃ a ∈ l, f a = .ok b := by
  induction l generalizing bs with
  | nil =>
    cases h
    exact absurd hb List.not_mem_nil
  | cons a l ih =>
    rw [List.mapM_cons] at h
    obtain ⟨first, hfirst, h⟩ := bind_eq_ok.1 h
    obtain ⟨rest, hrest, hret⟩ := bind_eq_ok.1 h
    cases hret
    rcases List.mem_cons.1 hb with rfl | hb
    · exact ⟨a, List.mem_cons_self, hfirst⟩
    · obtain ⟨x, hx, hxb⟩ := ih hrest hb
      exact ⟨x, List.mem_cons_of_mem _ hx, hxb⟩

/-- What was computed was computed for the element. -/
theorem exists_of_mem_option_mapM {f : α → Except ε β} {o : Option α} {result : Option β} {b : β}
    (h : o.mapM f = .ok result) (hb : b ∈ result) : ∃ a ∈ o, f a = .ok b := by
  cases o with
  | none =>
    cases h
    cases hb
  | some a =>
    rw [Option.mapM_some] at h
    obtain ⟨c, hc, rfl⟩ := map_eq_ok.1 h
    cases hb
    exact ⟨a, rfl, hc⟩

/-- Computations that agree on the elements of a list agree on the list. -/
theorem mapM_congr {f f' : α → Except ε β} {l : List α} (h : ∀ a ∈ l, f a = f' a) :
    l.mapM f = l.mapM f' := by
  induction l with
  | nil => rfl
  | cons a l ih =>
    rw [List.mapM_cons, List.mapM_cons, h a List.mem_cons_self,
      ih fun x hx => h x (List.mem_cons_of_mem _ hx)]

theorem option_mapM_congr {f f' : α → Except ε β} {o : Option α} (h : ∀ a ∈ o, f a = f' a) :
    o.mapM f = o.mapM f' := by
  cases o with
  | none => rfl
  | some a => rw [Option.mapM_some, Option.mapM_some, h a rfl]

/-! ## Lists that correspond -/

theorem exists_of_forall₂ {related : α → β → Prop} {l : List α} {l' : List β}
    (h : List.Forall₂ related l l') {a : α} (ha : a ∈ l) : ∃ b ∈ l', related a b := by
  obtain ⟨i, hi, rfl⟩ := List.getElem_of_mem ha
  exact ⟨_, List.get_mem l' ⟨i, h.length_eq ▸ hi⟩, h.get hi _⟩

end SchemaSymbols

/-
  Assigned names are distinct, and finding them comes to an end.

  A name gets the first of its candidates whose escaped form is free.  Escaping is not injective:
  the decorated form of a reserved word may be the name of something else.  But words that are not
  reserved stay as they are.  So a candidate that is not free is reserved or taken itself, and as
  candidates are distinct (`numbered_injective`, `underscored_injective`), there are no more of
  these than words reserved and names taken.  This bounds the search (`exists_endsAt`).

  The rest is read off the place where the search ends: names are distinct (`nodup_assign`), later
  names leave earlier ones alone (`assign_concat`), and a fallback is no variant
  (`fallback_not_mem`).
-/
import Mathlib.Data.List.Nodup
import Mathlib.Data.List.Perm.Subperm
import SchemaSymbols.Naming.Assignment

namespace SchemaSymbols

/-- A word whose escaped form is in a list is in the list itself, or it is reserved. -/
theorem Escaper.mem_or_mem_reserved {e : Escaper} {word : String} {taken : List String}
    (h : e.escape word ∈ taken) : word ∈ taken ∨ word ∈ e.reserved := by
  rw [escape] at h
  split at h
  · rename_i hreserved
    exact Or.inr (List.contains_iff_mem.1 hreserved)
  · exact Or.inl h

namespace Namer

variable {n : Namer} {candidates : Nat → String} {taken : List String} {casing : Casing} {k : Nat}

/-! ## Candidates -/

/-- Different numbers make different names. -/
theorem numbered_injective (cased : String) : Function.Injective (numbered cased) := by
  -- a number after the cased name makes it longer
  have hlonger : ∀ k, numbered cased (k + 1) ≠ cased := by
    intro k h
    have hlength := congrArg String.length h
    have hdigits : (toString (k + 2)).length ≠ 0 := by
      rw [ne_eq, String.length_eq_zero_iff]
      exact Nat.repr_ne_empty
    rw [numbered, String.length_append] at hlength
    omega
  intro i j h
  cases i with
  | zero =>
    cases j with
    | zero => rfl
    | succ j => exact absurd h.symm (hlonger j)
  | succ i =>
    cases j with
    | zero => exact absurd h (hlonger i)
    | succ j =>
      have htext : toString (i + 2) = toString (j + 2) := (String.append_right_inj cased).1 h
      rw [Nat.toString_eq_ofList_toDigits, Nat.toString_eq_ofList_toDigits,
        String.ofList_inj] at htext
      -- the digits of a number tell the number
      have hnumber := congrArg (fun digits => Nat.ofDigitChars 10 digits 0) htext
      simp only [Nat.ofDigitChars_toDigits (b := 10) (by decide) (by decide)] at hnumber
      omega

theorem underscored_injective (name : String) : Function.Injective (underscored name) := by
  intro i j h
  have hlength := congrArg String.length h
  simp only [underscored, String.length_append, String.length_ofList, List.length_replicate]
    at hlength
  omega

/-! ## The search -/

/-- The search through the candidates ends at a position: the escaped form of this candidate is the
first that is not taken. -/
structure EndsAt (n : Namer) (candidates : Nat → String) (taken : List String) (k : Nat) :
    Prop where
  free : n.escaper.escape (candidates k) ∉ taken
  first : ∀ j < k, n.escaper.escape (candidates j) ∈ taken

/-- Distinct candidates cannot all be taken or reserved. -/
theorem exists_free (n : Namer) (inj : Function.Injective candidates) (taken : List String) :
    ∃ k < taken.length + n.escaper.reserved.length + 1,
      n.escaper.escape (candidates k) ∉ taken := by
  by_contra hnone
  push Not at hnone
  have hsub : (List.range (taken.length + n.escaper.reserved.length + 1)).map candidates ⊆
      taken ++ n.escaper.reserved := by
    intro word hword
    obtain ⟨k, hk, rfl⟩ := List.mem_map.1 hword
    exact List.mem_append.2 (Escaper.mem_or_mem_reserved (hnone k (List.mem_range.1 hk)))
  have hnodup :
      ((List.range (taken.length + n.escaper.reserved.length + 1)).map candidates).Nodup :=
    List.nodup_range.map inj
  have hle := (List.subperm_of_subset hnodup hsub).length_le
  rw [List.length_map, List.length_range, List.length_append] at hle
  omega

/-- The search ends, after no more candidates than words are taken or reserved, and finds the
candidate at which it ends. -/
theorem exists_endsAt (n : Namer) (inj : Function.Injective candidates) (taken : List String) :
    ∃ k ≤ taken.length + n.escaper.reserved.length, n.EndsAt candidates taken k ∧
      n.firstFree candidates taken = candidates k := by
  obtain ⟨k, hk, hfree⟩ := n.exists_free inj taken
  have hsome : ((List.range (taken.length + n.escaper.reserved.length + 1)).find? fun k =>
      !taken.contains (n.escaper.escape (candidates k))).isSome := by
    rw [List.find?_isSome]
    exact ⟨k, List.mem_range.2 hk, by simpa using hfree⟩
  obtain ⟨found, hfound⟩ := Option.isSome_iff_exists.1 hsome
  obtain ⟨hat, hrange, hbefore⟩ := List.find?_range_eq_some.1 hfound
  refine ⟨found, Nat.le_of_lt_succ (List.mem_range.1 hrange), ⟨by simpa using hat, ?_⟩, ?_⟩
  · intro j hj
    simpa using hbefore j hj
  · simp only [firstFree, hfound, Option.getD_some]

/-! ## Names one after the other -/

/-- A name gets the candidate at which its search ends, and that is not far. -/
theorem exists_assignOne (n : Namer) (casing : Casing) (taken : List String) (wire : String) :
    ∃ k ≤ taken.length + n.escaper.reserved.length,
      n.EndsAt (numbered (n.casedName casing wire)) taken k ∧ n.assignOne casing taken wire =
        { wire, cased := n.casedName casing wire
          candidate := numbered (n.casedName casing wire) k
          name := n.escaper.escape (numbered (n.casedName casing wire) k) } := by
  obtain ⟨k, hk, ends, hfirst⟩ :=
    n.exists_endsAt (numbered_injective (n.casedName casing wire)) taken
  refine ⟨k, hk, ends, ?_⟩
  simp only [assignOne, hfirst]

theorem name_assignOne_not_mem (n : Namer) (casing : Casing) (taken : List String)
    (wire : String) : (n.assignOne casing taken wire).name ∉ taken := by
  obtain ⟨k, -, ends, hassigned⟩ := n.exists_assignOne casing taken wire
  rw [hassigned]
  exact ends.free

/-- Names are assigned from the first on, and a name takes notice of those before it only. -/
theorem assignFrom_append (n : Namer) (casing : Casing) (taken before after : List String) :
    n.assignFrom casing taken (before ++ after) =
      n.assignFrom casing taken before ++
        n.assignFrom casing
          (taken ++ (n.assignFrom casing taken before).map AssignedName.name) after := by
  induction before generalizing taken with
  | nil => simp [assignFrom]
  | cons wire before ih => simp [assignFrom, ih]

/-- The names of a list are distinct, and none of them was taken before. -/
theorem nodup_assignFrom (n : Namer) (casing : Casing) (taken wires : List String) :
    ((n.assignFrom casing taken wires).map AssignedName.name).Nodup ∧
      ∀ name ∈ (n.assignFrom casing taken wires).map AssignedName.name, name ∉ taken := by
  induction wires generalizing taken with
  | nil => exact ⟨.nil, fun _ h => absurd h List.not_mem_nil⟩
  | cons wire wires ih =>
    obtain ⟨hnodup, hfree⟩ := ih (taken ++ [(n.assignOne casing taken wire).name])
    rw [assignFrom, List.map_cons, List.nodup_cons]
    refine ⟨⟨fun hmem => hfree _ hmem ?_, hnodup⟩, ?_⟩
    · exact List.mem_append_right _ (List.mem_singleton.2 rfl)
    · intro name hname
      rcases List.mem_cons.1 hname with rfl | hname
      · exact n.name_assignOne_not_mem casing taken wire
      · exact fun htaken => hfree name hname (List.mem_append_left _ htaken)

/-- Names that are assigned together are distinct. -/
theorem nodup_assign (n : Namer) (casing : Casing) (wires : List String) :
    ((n.assign casing wires).map AssignedName.name).Nodup :=
  (n.nodup_assignFrom casing [] wires).1

/-- One more name leaves the others as they are. -/
theorem assign_concat (n : Namer) (casing : Casing) (wires : List String) (wire : String) :
    n.assign casing (wires ++ [wire]) = n.assign casing wires ++
      [n.assignOne casing ((n.assign casing wires).map AssignedName.name) wire] := by
  rw [assign, assignFrom_append]
  rfl

/-! ## Fallbacks -/

/-- A fallback gets the candidate at which its search ends, and that is not far. -/
theorem exists_fallback (n : Namer) (wanted : String) (variants : List String) :
    ∃ k ≤ variants.length + n.escaper.reserved.length,
      n.EndsAt (underscored wanted) variants k ∧
        n.fallback wanted variants = n.escaper.escape (underscored wanted k) := by
  obtain ⟨k, hk, ends, hfirst⟩ := n.exists_endsAt (underscored_injective wanted) variants
  exact ⟨k, hk, ends, by rw [fallback, hfirst]⟩

theorem fallback_not_mem (n : Namer) (wanted : String) (variants : List String) :
    n.fallback wanted variants ∉ variants := by
  obtain ⟨k, -, ends, hfallback⟩ := n.exists_fallback wanted variants
  rw [hfallback]
  exact ends.free

end Namer

end SchemaSymbols

import Mathlib

/-!
# Parent pointers without cycles

A store in which every entry may name one parent.  Following the names must never lead back.
This file holds the two ways a store changes: entries lose their parent, which is always safe,
and one entry gets a new parent, which is safe exactly when the entry is not among the ancestors
of the new parent.

## Main definitions

* `Lib.Acyclic` — no entry is reached from itself by following parents.
* `Lib.IsAncestor` — reached by following parents, in any number of steps.

## Main results

* `Lib.Acyclic.of_le` — fewer parents, no new cycle.
* `Lib.Acyclic.update_some` — a new parent whose ancestors do not include the entry.
* `Lib.not_acyclic_update` — a new parent whose ancestors include the entry closes a cycle.
-/

namespace Tack.Lib

open Relation

variable {α : Type*}

/-- `b` is the parent of `a`. -/
def HasParent (parent : α → Option α) (a b : α) : Prop := parent a = some b

/-- `b` is reached from `a` by following parents; every entry is its own ancestor. -/
def IsAncestor (parent : α → Option α) (a b : α) : Prop := ReflTransGen (HasParent parent) a b

/-- No entry is reached from itself by following parents. -/
def Acyclic (parent : α → Option α) : Prop := ∀ a, ¬ TransGen (HasParent parent) a a

/-- Removing parents keeps a forest. -/
theorem Acyclic.of_le {parent parent' : α → Option α} (h : Acyclic parent)
    (hle : ∀ a b, parent' a = some b → parent a = some b) : Acyclic parent' :=
  fun a hcycle => h a (TransGen.mono hle a a hcycle)

theorem acyclic_none : Acyclic (fun _ : α => none) := by
  intro a h
  obtain ⟨b, hstep, -⟩ := TransGen.head'_iff.mp h
  cases hstep

/-- An entry without parent has no other ancestor. -/
theorem not_isAncestor_of_none {parent : α → Option α} {p n : α} (h : parent p = none)
    (hne : p ≠ n) : ¬ IsAncestor parent p n := by
  intro hanc
  rcases ReflTransGen.cases_head hanc with rfl | ⟨y, hstep, -⟩
  · exact hne rfl
  · rw [HasParent, h] at hstep
    cases hstep

section Update

variable [DecidableEq α] {parent : α → Option α} {n p : α}

/-- Walks to `n` do not depend on the parent of `n`. -/
theorem isAncestor_update_iff {o : Option α} {a : α} :
    IsAncestor (Function.update parent n o) a n ↔ IsAncestor parent a n := by
  constructor
  · intro h
    induction h using ReflTransGen.head_induction_on with
    | refl => exact .refl
    | @head x y hstep _ ih =>
      rcases eq_or_ne x n with rfl | hne
      · exact .refl
      · rw [HasParent, Function.update_of_ne hne] at hstep
        exact ReflTransGen.head hstep ih
  · intro h
    induction h using ReflTransGen.head_induction_on with
    | refl => exact .refl
    | @head x y hstep _ ih =>
      rcases eq_or_ne x n with rfl | hne
      · exact .refl
      · exact ReflTransGen.head ((Function.update_of_ne hne _ _).trans hstep) ih

/-- A walk in the changed forest is an old one, or it passes from `n` to the new parent. -/
theorem transGen_update {a b : α} (h : TransGen (HasParent (Function.update parent n (some p))) a b) :
    TransGen (HasParent parent) a b ∨
      IsAncestor (Function.update parent n (some p)) a n ∧
        IsAncestor (Function.update parent n (some p)) p b := by
  induction h with
  | @single b hstep =>
    rcases eq_or_ne a n with rfl | hne
    · right
      rw [HasParent, Function.update_self] at hstep
      cases hstep
      exact ⟨.refl, .refl⟩
    · left
      rw [HasParent, Function.update_of_ne hne] at hstep
      exact .single hstep
  | @tail b c hab hstep ih =>
    rcases ih with hold | ⟨han, hpb⟩
    · rcases eq_or_ne b n with rfl | hne
      · right
        refine ⟨hab.to_reflTransGen, ?_⟩
        rw [HasParent, Function.update_self] at hstep
        cases hstep
        exact .refl
      · left
        rw [HasParent, Function.update_of_ne hne] at hstep
        exact hold.tail hstep
    · exact .inr ⟨han, hpb.tail hstep⟩

/-- **A new parent closes no cycle when the entry is not among its ancestors.** -/
theorem Acyclic.update_some (h : Acyclic parent) (hp : ¬ IsAncestor parent p n) :
    Acyclic (Function.update parent n (some p)) := by
  intro a hcycle
  rcases transGen_update hcycle with hold | ⟨han, hpa⟩
  · exact h a hold
  · exact hp (isAncestor_update_iff.mp (hpa.trans han))

/-- A new parent that the entry is an ancestor of closes a cycle. -/
theorem not_acyclic_update (hp : IsAncestor parent p n) :
    ¬ Acyclic (Function.update parent n (some p)) := by
  intro hac
  have hedge : HasParent (Function.update parent n (some p)) n p := Function.update_self ..
  exact hac n (TransGen.head' hedge (isAncestor_update_iff.mpr hp))

end Update

end Tack.Lib

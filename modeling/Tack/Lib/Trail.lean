import Mathlib

/-!
# Following a relation

A trail follows a relation from a place and remembers the places that it left.  When the relation takes
a place to at most one other, the trail comes back to a place only on a cycle, and a trail that can end
cannot come back.

## Main definitions

* `Lib.Trail` — the places left on the way from one place to another.

## Main results

* `Lib.Trail.cycle` — a trail that comes back has found a cycle.
* `Lib.not_cycle_of_end`, `Lib.eq_of_end` — a trail has one end or runs into a cycle, not both.
* `Lib.Trail.length_le` — a trail that does not come back is at most as long as there are places to leave.
-/

namespace Tack.Lib

open Relation

variable {α : Type*} {up : α → α → Prop} {a b c : α} {visited : List α}

/-- The places left on the way from `a`, the last one first. -/
inductive Trail (up : α → α → Prop) (a : α) : List α → α → Prop
  | start : Trail up a [] a
  | next {visited : List α} {b c : α} : Trail up a visited b → up b c → Trail up a (b :: visited) c

theorem Trail.reaches (h : Trail up a visited b) : ReflTransGen up a b := by
  induction h with
  | start => exact .refl
  | next _ hup ih => exact ih.tail hup

theorem Trail.reaches_of_mem (h : Trail up a visited b) (hc : c ∈ visited) : TransGen up c b := by
  induction h with
  | start => exact absurd hc List.not_mem_nil
  | next _ hup ih =>
    rcases List.mem_cons.mp hc with rfl | hc
    · exact .single hup
    · exact (ih hc).tail hup

/-- **Coming back is a cycle.** -/
theorem Trail.cycle (h : Trail up a visited b) (hb : b ∈ visited) : TransGen up b b :=
  h.reaches_of_mem hb

theorem Trail.exists_next (h : Trail up a visited b) (hc : c ∈ visited) : ∃ d, up c d :=
  have ⟨d, hcd, _⟩ := TransGen.head'_iff.mp (h.reaches_of_mem hc)
  ⟨d, hcd⟩

theorem Trail.length_le (h : Trail up a visited b) (hnodup : visited.Nodup) (places : Finset α)
    (hplaces : ∀ x y, up x y → x ∈ places) : visited.length ≤ places.card := by
  classical
  rw [← List.toFinset_card_of_nodup hnodup]
  refine Finset.card_le_card fun c hc => ?_
  obtain ⟨d, hd⟩ := h.exists_next (List.mem_toFinset.mp hc)
  exact hplaces c d hd

section functional

variable (hup : Relator.RightUnique up)

include hup

/-- What is reached before an end reaches the end. -/
theorem reaches_end (hb : ReflTransGen up a b) (hend : ∀ x, ¬up b x) (hc : ReflTransGen up a c) :
    ReflTransGen up c b := by
  rcases hb.total_of_right_unique hup hc with hbc | hcb
  · rcases hbc.cases_head with rfl | ⟨x, hx, _⟩
    · exact .refl
    · exact absurd hx (hend x)
  · exact hcb

/-- **A trail has one end.** -/
theorem eq_of_end (hb : ReflTransGen up a b) (hend : ∀ x, ¬up b x) (hc : ReflTransGen up a c)
    (hend' : ∀ x, ¬up c x) : b = c := by
  rcases (reaches_end hup hb hend hc).cases_head with rfl | ⟨x, hx, _⟩
  · rfl
  · exact absurd hx (hend' x)

/-- **A trail that ends runs into no cycle.** -/
theorem not_cycle_of_end (hb : ReflTransGen up a b) (hend : ∀ x, ¬up b x)
    (hc : ReflTransGen up a c) : ¬TransGen up c c := by
  intro hcycle
  have hreach : ∀ x, ReflTransGen up c x → TransGen up x x := by
    intro x hx
    induction hx with
    | refl => exact hcycle
    | tail _ hxy ih =>
      -- the step out of a place on a cycle is the first step of the cycle
      obtain ⟨z, hxz, hzx⟩ := TransGen.head'_iff.mp ih
      obtain rfl := hup hxy hxz
      exact TransGen.tail' hzx hxy
  obtain ⟨x, hx, _⟩ := TransGen.head'_iff.mp (hreach b (reaches_end hup hb hend hc))
  exact hend x hx

end functional

end Tack.Lib

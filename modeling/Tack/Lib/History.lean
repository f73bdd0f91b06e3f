import Mathlib

/-!
# Histories

A history lists what has happened, the oldest entry first.  A statement about an entry is made in terms of
the entries before it, so that it stays true when the history grows.

## Main definitions

* `Lib.Explained` — every entry is explained by the entries before it.

## Main results

* `Lib.Explained.concat` — a history grows by an explained entry.
-/

namespace Tack.Lib

variable {ε : Type*} {P : List ε → ε → Prop} {history : List ε}

/-- Every entry of the history is explained by the entries before it. -/
def Explained (P : List ε → ε → Prop) (history : List ε) : Prop :=
  ∀ before entry after, history = before ++ entry :: after → P before entry

/-- **A history grows by an explained entry.** -/
theorem Explained.concat {entry : ε} (h : Explained P history) (hentry : P history entry) :
    Explained P (history ++ [entry]) := by
  intro before last after heq
  rcases List.append_eq_append_iff.mp heq with ⟨rest, hbefore, hrest⟩ | ⟨rest, hhistory, hrest⟩
  · cases rest with
    | nil =>
      rw [List.append_nil] at hbefore
      cases hrest
      exact hbefore ▸ hentry
    | cons x rest =>
      rw [List.cons_append, List.cons.injEq] at hrest
      exact absurd hrest.2 (by simp)
  · cases rest with
    | nil =>
      rw [List.append_nil] at hhistory
      rw [List.nil_append] at hrest
      cases hrest
      exact hhistory ▸ hentry
    | cons x rest =>
      rw [List.cons_append, List.cons.injEq] at hrest
      obtain ⟨rfl, -⟩ := hrest
      exact h before last rest hhistory

end Tack.Lib

import Mathlib

/-!
# First occurrences

The elements of a list that are not in a list of seen ones, each once and in the order of their first
occurrences.

## Main definitions

* `Lib.firstSeen` — the new elements of a list.

## Main results

* `Lib.firstSeen_append` — a list read in two parts.
* `Lib.nodup_firstSeen`, `Lib.mem_firstSeen` — every new element stands there once.
-/

namespace Tack.Lib

variable {α : Type*} [DecidableEq α]

/-- The elements of a list that are not seen, each at its first occurrence. -/
def firstSeen : List α → List α → List α
  | _, [] => []
  | seen, a :: as => if a ∈ seen then firstSeen seen as else a :: firstSeen (seen ++ [a]) as

variable {seen seen' : List α} {a : α} {as bs : List α}

@[simp] theorem firstSeen_nil (seen : List α) : firstSeen seen [] = [] := rfl

theorem firstSeen_cons_of_mem (h : a ∈ seen) : firstSeen seen (a :: as) = firstSeen seen as := if_pos h

theorem firstSeen_cons_of_notMem (h : a ∉ seen) :
    firstSeen seen (a :: as) = a :: firstSeen (seen ++ [a]) as := if_neg h

theorem mem_firstSeen {x : α} : x ∈ firstSeen seen as ↔ x ∈ as ∧ x ∉ seen := by
  induction as generalizing seen with
  | nil => simp
  | cons a as ih =>
    by_cases ha : a ∈ seen
    · rw [firstSeen_cons_of_mem ha, ih, List.mem_cons]
      constructor
      · rintro ⟨hx, hnot⟩
        exact ⟨.inr hx, hnot⟩
      · rintro ⟨rfl | hx, hnot⟩
        · exact absurd ha hnot
        · exact ⟨hx, hnot⟩
    · rw [firstSeen_cons_of_notMem ha, List.mem_cons, ih, List.mem_append, List.mem_singleton,
        List.mem_cons]
      constructor
      · rintro (rfl | ⟨hx, hnot⟩)
        · exact ⟨.inl rfl, ha⟩
        · exact ⟨.inr hx, fun h => hnot (.inl h)⟩
      · rintro ⟨rfl | hx, hnot⟩
        · exact .inl rfl
        · by_cases hxa : x = a
          · exact .inl hxa
          · exact .inr ⟨hx, fun h => h.elim hnot hxa⟩

theorem nodup_firstSeen (seen as : List α) : (firstSeen seen as).Nodup := by
  induction as generalizing seen with
  | nil => exact List.nodup_nil
  | cons a as ih =>
    by_cases ha : a ∈ seen
    · rw [firstSeen_cons_of_mem ha]
      exact ih seen
    · rw [firstSeen_cons_of_notMem ha, List.nodup_cons, mem_firstSeen]
      exact ⟨fun h => h.2 (List.mem_append_right _ List.mem_cons_self), ih _⟩

theorem length_firstSeen_le (seen as : List α) : (firstSeen seen as).length ≤ as.length := by
  induction as generalizing seen with
  | nil => exact Nat.le_refl _
  | cons a as ih =>
    rw [firstSeen]
    split
    · exact Nat.le_succ_of_le (ih seen)
    · exact Nat.succ_le_succ (ih _)

/-- **A list read in two parts.** -/
theorem firstSeen_append (seen as bs : List α) :
    firstSeen seen (as ++ bs) = firstSeen seen as ++ firstSeen (seen ++ firstSeen seen as) bs := by
  induction as generalizing seen with
  | nil => simp
  | cons a as ih =>
    by_cases ha : a ∈ seen
    · rw [List.cons_append, firstSeen_cons_of_mem ha, firstSeen_cons_of_mem ha, ih]
    · rw [List.cons_append, firstSeen_cons_of_notMem ha, firstSeen_cons_of_notMem ha, ih,
        List.cons_append, List.append_assoc, List.singleton_append]

end Tack.Lib

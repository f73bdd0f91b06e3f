import Mathlib

/-!
# Searching from the end

The last place where a needle occurs in a text, and the n-th place counted from the end, where the places
do not overlap.

## Main definitions

* `Lib.lastIndex`, `Lib.nthIndexFromEnd`.

## Main results

* `Lib.append_of_nthIndexFromEnd` — the needle stands where it is found.
* `Lib.nthIndexFromEnd_succ_succ` — the last place, and then the others before it.
* `Lib.nthIndexFromEnd_append` — what follows the last occurrence does not matter.
* `Lib.length_le_of_nthIndexFromEnd` — pieces of which some are the needle are not passed when those are counted.
-/

namespace Tack.Lib

variable {α : Type*} [DecidableEq α] {needle text : List α}

/-- The last place up to `i` where the needle begins. -/
def lastIndexUpTo (needle text : List α) : ℕ → Option ℕ
  | 0 => if needle.isPrefixOf text then some 0 else none
  | i + 1 => if needle.isPrefixOf (text.drop (i + 1)) then some (i + 1) else lastIndexUpTo needle text i

def lastIndex (needle text : List α) : Option ℕ := lastIndexUpTo needle text text.length

/-- The place of the `n`-th occurrence, counted from the end. -/
def nthIndexFromEnd (needle text : List α) : ℕ → Option ℕ
  | 0 => none
  | 1 => lastIndex needle text
  | n + 2 => (nthIndexFromEnd needle text (n + 1)).bind fun position => lastIndex needle (text.take position)

theorem lastIndexUpTo_eq_some_iff {n i : ℕ} : lastIndexUpTo needle text n = some i ↔
    i ≤ n ∧ needle <+: text.drop i ∧ ∀ j, i < j → j ≤ n → ¬ needle <+: text.drop j := by
  induction n with
  | zero =>
    simp only [lastIndexUpTo, List.isPrefixOf_iff_prefix, Option.ite_none_right_eq_some, Option.some.injEq]
    constructor
    · rintro ⟨h, rfl⟩
      exact ⟨le_rfl, h, fun j hj hj' => absurd hj (by omega)⟩
    · rintro ⟨hi, h, -⟩
      obtain rfl := Nat.le_zero.mp hi
      exact ⟨h, rfl⟩
  | succ n ih =>
    rw [lastIndexUpTo]
    split_ifs with hfound
    · rw [List.isPrefixOf_iff_prefix] at hfound
      constructor
      · intro h
        obtain rfl := Option.some.inj h
        exact ⟨le_rfl, hfound, fun j hj hj' => absurd hj (by omega)⟩
      · rintro ⟨hi, -, hlast⟩
        -- a place before `n + 1` would not be the last
        rcases Nat.lt_or_ge i (n + 1) with hlt | hge
        · exact absurd hfound (hlast (n + 1) hlt le_rfl)
        · rw [le_antisymm hi hge]
    · rw [List.isPrefixOf_iff_prefix] at hfound
      rw [ih]
      constructor
      · rintro ⟨hi, h, hlast⟩
        refine ⟨by omega, h, fun j hj hj' => ?_⟩
        rcases Nat.lt_or_ge j (n + 1) with hlt | hge
        · exact hlast j hj (by omega)
        · exact le_antisymm hj' hge ▸ hfound
      · rintro ⟨hi, h, hlast⟩
        have hne : i ≠ n + 1 := fun heq => hfound (heq ▸ h)
        exact ⟨by omega, h, fun j hj hj' => hlast j hj (by omega)⟩

theorem lastIndex_eq_some_iff {i : ℕ} : lastIndex needle text = some i ↔
    i ≤ text.length ∧ needle <+: text.drop i ∧ ∀ j, i < j → j ≤ text.length → ¬ needle <+: text.drop j :=
  lastIndexUpTo_eq_some_iff

/-- The needle stands where it is found. -/
theorem prefix_of_nthIndexFromEnd {n i : ℕ} (h : nthIndexFromEnd needle text n = some i) :
    i ≤ text.length ∧ needle <+: text.drop i := by
  match n with
  | 0 => cases h
  | 1 =>
    obtain ⟨hi, hneedle, -⟩ := lastIndex_eq_some_iff.mp h
    exact ⟨hi, hneedle⟩
  | n + 2 =>
    obtain ⟨position, -, h⟩ := Option.bind_eq_some_iff.mp h
    obtain ⟨hi, hneedle, -⟩ := lastIndex_eq_some_iff.mp h
    rw [List.length_take] at hi
    rw [List.drop_take] at hneedle
    exact ⟨by omega, hneedle.trans (List.take_prefix _ _)⟩

theorem append_of_nthIndexFromEnd {n i : ℕ} (h : nthIndexFromEnd needle text n = some i) :
    text = text.take i ++ needle ++ text.drop (i + needle.length) := by
  obtain ⟨-, rest, hrest⟩ := prefix_of_nthIndexFromEnd h
  have hdrop : text.drop (i + needle.length) = rest := by
    rw [← List.drop_drop, ← hrest, List.drop_left]
  rw [hdrop, List.append_assoc, hrest, List.take_append_drop]

/-- **The last place, and then the others before it.** -/
theorem nthIndexFromEnd_succ_succ (needle text : List α) (n : ℕ) : nthIndexFromEnd needle text (n + 2) =
    (lastIndex needle text).bind fun position => nthIndexFromEnd needle (text.take position) (n + 1) := by
  induction n with
  | zero => rfl
  | succ n ih =>
    rw [nthIndexFromEnd, ih, Option.bind_assoc]
    refine Option.bind_congr fun position _ => ?_
    rw [nthIndexFromEnd]
    refine Option.bind_congr fun earlier hearlier => ?_
    obtain ⟨hle, -⟩ := prefix_of_nthIndexFromEnd hearlier
    rw [List.length_take] at hle
    rw [List.take_take, Nat.min_eq_left (by omega)]

/-- **What follows the last occurrence does not matter.** -/
theorem nthIndexFromEnd_append {rest : List α} (hneedle : needle ≠ [])
    (h : ∀ i, needle <+: (text ++ rest).drop i → i + needle.length ≤ text.length) (n : ℕ) :
    nthIndexFromEnd needle (text ++ rest) n = nthIndexFromEnd needle text n := by
  have hsame : ∀ i, needle <+: (text ++ rest).drop i ↔ needle <+: text.drop i := by
    intro i
    constructor
    · intro hi
      have hle := h i hi
      rw [List.drop_append_of_le_length (by omega)] at hi
      exact List.prefix_of_prefix_length_le hi (List.prefix_append _ _) (by rw [List.length_drop]; omega)
    · intro hi
      rcases Nat.lt_or_ge text.length i with hlt | hge
      · rw [List.drop_eq_nil_of_le hlt.le] at hi
        exact absurd (List.prefix_nil.mp hi) hneedle
      · rw [List.drop_append_of_le_length hge]
        exact hi.trans (List.prefix_append _ _)
  have hlast : lastIndex needle (text ++ rest) = lastIndex needle text := by
    ext i
    rw [lastIndex_eq_some_iff, lastIndex_eq_some_iff, List.length_append]
    simp only [hsame]
    constructor
    · rintro ⟨-, hi, hlast⟩
      have hle := h i ((hsame i).mpr hi)
      exact ⟨by omega, hi, fun j hj hj' => hlast j hj (by omega)⟩
    · rintro ⟨hle, hi, hlast⟩
      refine ⟨by omega, hi, fun j hj _ hprefix => ?_⟩
      have hle := h j ((hsame j).mpr hprefix)
      exact hlast j hj (by omega) hprefix
  match n with
  | 0 => rfl
  | 1 => exact hlast
  | n + 2 =>
    rw [nthIndexFromEnd_succ_succ, nthIndexFromEnd_succ_succ, hlast]
    refine Option.bind_congr fun position hposition => ?_
    rw [List.take_append_of_le_length (lastIndex_eq_some_iff.mp hposition).1]

/-- A needle before a rest without it is the last one. -/
theorem lastIndex_append_append {front rest : List α} (h : ∀ i, 0 < i → ¬ needle <+: (needle ++ rest).drop i) :
    lastIndex needle (front ++ (needle ++ rest)) = some front.length := by
  refine lastIndex_eq_some_iff.mpr ⟨by simp, ?_, fun j hj _ => ?_⟩
  · rw [List.drop_left]
    exact List.prefix_append _ _
  · rw [show j = front.length + (j - front.length) by omega, ← List.drop_drop, List.drop_left]
    exact h _ (by omega)

/-- No place is after the last one. -/
theorem le_of_lastIndex {i j : ℕ} (h : lastIndex needle text = some i) (hj : j ≤ text.length)
    (hneedle : needle <+: text.drop j) : j ≤ i := by
  by_contra hlt
  exact (lastIndex_eq_some_iff.mp h).2.2 j (by omega) hj hneedle

/-- **Counting as many places as the text has pieces that are the needle does not pass the first piece.** -/
theorem length_le_of_nthIndexFromEnd {front extra : List α} {pieces : List (List α)} {cut : ℕ}
    (h : nthIndexFromEnd needle (front ++ pieces.flatten ++ extra) (pieces.count needle) = some cut) :
    front.length ≤ cut := by
  -- from the end: a piece that is the needle is no later than the last place, and any other one does not count
  induction pieces using List.reverseRecOn generalizing extra cut with
  | nil => cases h
  | append_singleton init last ih =>
    rw [List.flatten_append, List.flatten_singleton, List.count_append] at h
    by_cases hlast : last = needle
    · subst hlast
      rw [List.count_singleton_self] at h
      have hplace : ∀ {position}, lastIndex last (front ++ (init.flatten ++ last) ++ extra) = some position →
          (front ++ init.flatten).length ≤ position := by
        intro position hposition
        refine le_of_lastIndex hposition (by simp) ?_
        rw [← List.append_assoc, List.append_assoc, List.drop_left]
        exact List.prefix_append _ _
      cases hcount : init.count last with
      | zero =>
        rw [hcount] at h
        have hle := hplace h
        rw [List.length_append] at hle
        omega
      | succ n =>
        rw [hcount, nthIndexFromEnd_succ_succ] at h
        obtain ⟨position, hposition, h⟩ := Option.bind_eq_some_iff.mp h
        have hle := hplace hposition
        obtain ⟨k, rfl⟩ := Nat.exists_eq_add_of_le hle
        rw [← List.append_assoc, List.append_assoc, List.take_length_add_append, ← hcount] at h
        exact ih h
    · have hother : [last].count needle = 0 := List.count_eq_zero_of_not_mem (by simpa using Ne.symm hlast)
      rw [hother, Nat.add_zero, ← List.append_assoc, List.append_assoc _ last] at h
      exact ih h

end Tack.Lib

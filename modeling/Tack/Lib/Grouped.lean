import Mathlib

/-!
# Walks over interleaved groups

A list whose elements belong to groups is walked once, each element seen beside the last element of its
own group.  What such a walk sees is what it would see in each group alone.

## Main definitions

* `Lib.lastWith` — the last element of a group.
* `Lib.adjacent` — the number of adjacent pairs with a property.

## Main results

* `Lib.forall_isChain_group_concat` — one more element extends the chain of its group only.
* `Lib.sum_adjacent_group_concat` — and adds a pair to its group only.
* `Lib.isChain_iff_of_sorted` — in an ascending list adjacent successors are all successors.
-/

namespace Tack.Lib

/-! ### Adjacent pairs -/

section Adjacent

variable {α : Type*}

/-- The number of adjacent pairs with a property. -/
def adjacent (p : α → α → Bool) (xs : List α) : ℕ := (xs.zip xs.tail).countP fun e => p e.1 e.2

@[simp] theorem adjacent_nil (p : α → α → Bool) : adjacent p [] = 0 := rfl

theorem adjacent_cons_cons (p : α → α → Bool) (x y : α) (xs : List α) :
    adjacent p (x :: y :: xs) = adjacent p (y :: xs) + if p x y then 1 else 0 := by
  simp [adjacent, List.countP_cons]

theorem adjacent_concat (p : α → α → Bool) (xs : List α) (x : α) :
    adjacent p (xs ++ [x]) = adjacent p xs + if xs.getLast?.any (p · x) then 1 else 0 := by
  induction xs with
  | nil => rfl
  | cons y ys ih =>
    cases ys with
    | nil => rw [List.singleton_append, adjacent_cons_cons]; rfl
    | cons z zs =>
      rw [List.cons_append, List.cons_append, adjacent_cons_cons, adjacent_cons_cons, ← List.cons_append,
        ih, List.getLast?_cons_cons]
      omega

theorem isChain_concat {R : α → α → Prop} {xs : List α} {x : α} :
    (xs ++ [x]).IsChain R ↔ xs.IsChain R ∧ ∀ y ∈ xs.getLast?, R y x := by
  rw [List.isChain_append]
  simp

theorem adjacent_map {β : Type*} (f : α → β) (p : β → β → Bool) (xs : List α) :
    adjacent p (xs.map f) = adjacent (fun a b => p (f a) (f b)) xs := by
  induction xs with
  | nil => rfl
  | cons x xs ih =>
    cases xs with
    | nil => rfl
    | cons y ys =>
      rw [adjacent_cons_cons, List.map_cons, List.map_cons, adjacent_cons_cons, ← ih, List.map_cons]

/-- Pairs of an ascending chain are counted alike by properties that agree above the diagonal. -/
theorem adjacent_congr {R : α → α → Prop} {p q : α → α → Bool} {xs : List α} (hchain : xs.IsChain R)
    (h : ∀ a b, R a b → p a b = q a b) : adjacent p xs = adjacent q xs := by
  induction xs with
  | nil => rfl
  | cons x xs ih =>
    cases xs with
    | nil => rfl
    | cons y ys =>
      obtain ⟨hxy, hys⟩ := List.isChain_cons_cons.mp hchain
      rw [adjacent_cons_cons, adjacent_cons_cons, ih hys, h x y hxy]

/-- **Adjacent successors are all successors**: in a list that ascends by `f` without repetition, the
elements whose values follow each other are neighbours. -/
theorem isChain_iff_of_sorted {f : α → ℤ} {L : α → α → Prop} {xs : List α}
    (hsorted : xs.Pairwise fun a b => f a ≤ f b) :
    (xs.IsChain fun a b => f a < f b ∧ (f b = f a + 1 → L a b)) ↔
      (xs.map f).Nodup ∧ ∀ a ∈ xs, ∀ b ∈ xs, f b = f a + 1 → L a b := by
  induction xs with
  | nil => simp
  | cons x xs ih =>
    obtain ⟨hx, hxs⟩ := List.pairwise_cons.mp hsorted
    cases xs with
    | nil =>
      refine iff_of_true (List.isChain_singleton x) ⟨List.nodup_singleton _, fun a ha b hb h => ?_⟩
      rw [List.mem_singleton.mp ha, List.mem_singleton.mp hb] at h
      omega
    | cons y ys =>
      have hcons : ((x :: y :: ys).map f).Nodup ↔ f x ∉ (y :: ys).map f ∧ ((y :: ys).map f).Nodup :=
        List.nodup_cons
      rw [List.isChain_cons_cons, ih hxs, hcons]
      constructor
      · rintro ⟨⟨hlt, hlink⟩, hnodup, hrest⟩
        -- what lies behind `y` is above `y`, hence above the successor of `x`
        have habove : ∀ b ∈ y :: ys, f y ≤ f b := fun b hb =>
          (List.mem_cons.mp hb).elim (fun h => h ▸ le_rfl) ((List.pairwise_cons.mp hxs).1 b)
        refine ⟨⟨fun hmem => ?_, hnodup⟩, fun a ha b hb h => ?_⟩
        · obtain ⟨b, hb, heq⟩ := List.mem_map.mp hmem
          have := habove b hb
          omega
        · rcases List.mem_cons.mp ha with rfl | ha'
          · rcases List.mem_cons.mp hb with rfl | hb
            · omega
            · have hle := habove b hb
              rcases List.mem_cons.mp hb with rfl | hb'
              · exact hlink h
              · -- `f b = f y` contradicts that the values differ
                rw [List.map_cons, List.nodup_cons] at hnodup
                exact absurd (List.mem_map.mpr ⟨b, hb', by omega⟩) hnodup.1
          · rcases List.mem_cons.mp hb with rfl | hb'
            · have := hx a ha'
              omega
            · exact hrest a ha' b hb' h
      · rintro ⟨⟨hnot, hnodup⟩, hlink⟩
        have hle := hx y List.mem_cons_self
        have hne : f x ≠ f y := fun h => hnot (List.mem_map.mpr ⟨y, List.mem_cons_self, h.symm⟩)
        exact ⟨⟨by omega, hlink x List.mem_cons_self y (List.mem_cons_of_mem _ List.mem_cons_self)⟩,
          hnodup, fun a ha b hb =>
            hlink a (List.mem_cons_of_mem _ ha) b (List.mem_cons_of_mem _ hb)⟩

end Adjacent

/-! ### Groups -/

section Groups

variable {α κ : Type*} [DecidableEq κ] (key : α → κ)

/-- The elements of a group. -/
def group (k : κ) (xs : List α) : List α := xs.filter fun x => key x = k

/-- The last element of a group. -/
def lastWith (k : κ) (xs : List α) : Option α := (group key k xs).getLast?

variable {key}

theorem mem_group {k : κ} {xs : List α} {x : α} : x ∈ group key k xs ↔ x ∈ xs ∧ key x = k := by
  simp [group]

theorem group_concat_self (xs : List α) (x : α) : group key (key x) (xs ++ [x]) = group key (key x) xs ++ [x] := by
  simp [group]

theorem group_concat_of_ne {k : κ} {x : α} (h : key x ≠ k) (xs : List α) :
    group key k (xs ++ [x]) = group key k xs := by
  simp [group, h]

theorem lastWith_concat (k : κ) (xs : List α) (x : α) :
    lastWith key k (xs ++ [x]) = if key x = k then some x else lastWith key k xs := by
  split_ifs with h
  · subst h
    rw [lastWith, group_concat_self, List.getLast?_concat]
  · rw [lastWith, group_concat_of_ne h, lastWith]

/-- One more element extends the chain of its own group. -/
theorem forall_isChain_group_concat {R : α → α → Prop} {xs : List α} {x : α} :
    (∀ k, (group key k (xs ++ [x])).IsChain R) ↔
      (∀ k, (group key k xs).IsChain R) ∧ ∀ y ∈ lastWith key (key x) xs, R y x := by
  constructor
  · intro h
    have hself := h (key x)
    rw [group_concat_self, isChain_concat] at hself
    refine ⟨fun k => ?_, hself.2⟩
    by_cases hk : key x = k
    · exact hk ▸ hself.1
    · exact group_concat_of_ne hk xs ▸ h k
  · rintro ⟨h, hlast⟩ k
    by_cases hk : key x = k
    · subst hk
      rw [group_concat_self, isChain_concat]
      exact ⟨h _, hlast⟩
    · rw [group_concat_of_ne hk]
      exact h k

/-- One more element adds a pair to its own group. -/
theorem sum_adjacent_group_concat (p : α → α → Bool) {keys : Finset κ} (xs : List α) {x : α} (hx : key x ∈ keys) :
    ∑ k ∈ keys, adjacent p (group key k (xs ++ [x])) =
      (∑ k ∈ keys, adjacent p (group key k xs)) +
        if (lastWith key (key x) xs).any (p · x) then 1 else 0 := by
  have hone : ∀ k ∈ keys, adjacent p (group key k (xs ++ [x])) = adjacent p (group key k xs) +
      if key x = k then (if (lastWith key (key x) xs).any (p · x) then 1 else 0) else 0 := by
    intro k _
    by_cases hk : key x = k
    · subst hk
      rw [group_concat_self, adjacent_concat, if_pos rfl, lastWith]
    · rw [group_concat_of_ne hk, if_neg hk, Nat.add_zero]
  rw [Finset.sum_congr rfl hone, Finset.sum_add_distrib, Finset.sum_ite_eq, if_pos hx]

end Groups

end Tack.Lib

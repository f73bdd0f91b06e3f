import Mathlib

/-!
# Sorted slices

The functions of the standard library on sorted slices: sorting, dropping repeated neighbours, and the
binary search.

## Main definitions

* `Lib.slicesIsSorted`, `Lib.slicesCompact`, `Lib.slicesSort` — the functions of package `slices`.
* `Lib.bisect` — the loop of the binary search; `Lib.binarySearch` — the search.

## Main results

* `Lib.mem_slicesCompact_slicesSort` — sorting and dropping repetitions keeps the elements.
* `Lib.bisect_spec` — the loop finds the place where a test turns false.
* `Lib.binarySearch_found_iff` — a sorted slice is searched exactly.
-/

namespace Tack.Lib

variable {α : Type*} [LinearOrder α]

/-- `slices.IsSorted`: no element is below the one before it. -/
def slicesIsSorted (xs : List α) : Bool := decide (xs.IsChain (· ≤ ·))

theorem slicesIsSorted_iff {xs : List α} : slicesIsSorted xs = true ↔ xs.Pairwise (· ≤ ·) := by
  rw [slicesIsSorted, decide_eq_true_iff, List.isChain_iff_pairwise]

/-- `slices.Sort`. -/
def slicesSort (xs : List α) : List α := xs.mergeSort fun a b => decide (a ≤ b)

/-- `slices.Compact`: of equal neighbours one stays. -/
def slicesCompact : List α → List α
  | [] => []
  | [a] => [a]
  | a :: b :: xs => if a = b then slicesCompact (b :: xs) else a :: slicesCompact (b :: xs)

theorem mem_slicesCompact {a : α} {xs : List α} : a ∈ slicesCompact xs ↔ a ∈ xs := by
  fun_induction slicesCompact xs with
  | case1 => rfl
  | case2 => rfl
  | case3 b xs ih =>
    rw [ih]
    simp
  | case4 b c xs _ ih => rw [List.mem_cons, ih, ← List.mem_cons]

theorem mem_slicesCompact_slicesSort {a : α} {xs : List α} :
    a ∈ slicesCompact (slicesSort xs) ↔ a ∈ xs := by
  rw [mem_slicesCompact, slicesSort, List.mem_mergeSort]

/-! ### Binary search -/

/-- The first place between `i` and `j` at which the test is false, when it turns false once. -/
def bisect (less : ℕ → Bool) (i j : ℕ) : ℕ :=
  if i < j then
    if less ((i + j) / 2) then bisect less ((i + j) / 2 + 1) j else bisect less i ((i + j) / 2)
  else i
termination_by j - i

/-- **The loop of the binary search.**  The invariant: the test holds below `i` and fails from `j` on. -/
theorem bisect_spec (less : ℕ → Bool) (hmono : ∀ k m, k ≤ m → less m = true → less k = true)
    (i j : ℕ) (hbelow : ∀ k < i, less k = true) (habove : ∀ k, j ≤ k → less k = false) (k : ℕ) :
    less k = true ↔ k < bisect less i j := by
  fun_induction bisect less i j with
  | case1 i j hij hless ih =>
    exact ih (fun k hk => hmono k _ (Nat.le_of_lt_succ hk) hless) habove
  | case2 i j hij hless ih =>
    refine ih hbelow fun k hk => ?_
    by_contra hk'
    exact hless (hmono _ k hk (by simpa using hk'))
  | case3 i j hij =>
    refine ⟨fun hk => ?_, hbelow k⟩
    by_contra hle
    simp [habove k (by omega)] at hk

/-- `slices.BinarySearch`: the place of the target, and whether it stands there. -/
def binarySearch (xs : List α) (target : α) : ℕ × Bool :=
  let i := bisect (fun k => xs[k]?.any (· < target)) 0 xs.length
  (i, xs[i]? == some target)

/-- **A sorted slice is searched exactly.** -/
theorem binarySearch_found_iff {xs : List α} (hsorted : xs.Pairwise (· ≤ ·)) (target : α) :
    (binarySearch xs target).2 = true ↔ target ∈ xs := by
  have hle : ∀ (k m : ℕ) (hm : m < xs.length) (hkm : k ≤ m), xs[k] ≤ xs[m] := by
    intro k m hm hkm
    rcases hkm.lt_or_eq with hlt | rfl
    · exact List.pairwise_iff_getElem.mp hsorted k m (hlt.trans hm) hm hlt
    · exact le_rfl
  have hless : ∀ k, (xs[k]?.any (· < target)) = true ↔ ∃ h : k < xs.length, xs[k] < target := by
    intro k
    by_cases hk : k < xs.length
    · simp [hk]
    · simp [hk]
  have hspec := bisect_spec (fun k => xs[k]?.any (· < target)) (fun k m hkm hm => ?_) 0 xs.length
    (fun k hk => absurd hk (Nat.not_lt_zero k)) (fun k hk => ?_)
  · simp only [binarySearch, beq_iff_eq]
    set i := bisect (fun k => xs[k]?.any (· < target)) 0 xs.length
    refine ⟨fun h => List.mem_of_getElem? h, fun h => ?_⟩
    obtain ⟨m, hm, heq⟩ := List.mem_iff_getElem.mp h
    -- the target is not below itself, so its place is not before `i`, and what stands at `i` is not
    -- above it
    have him : i ≤ m := by
      by_contra hlt
      obtain ⟨_, hbelow⟩ := (hless m).mp ((hspec m).mpr (Nat.lt_of_not_le hlt))
      exact absurd hbelow (heq ▸ lt_irrefl _)
    have hi : i < xs.length := him.trans_lt hm
    have hnot : ¬xs[i] < target := fun hbelow =>
      absurd ((hspec i).mp ((hless i).mpr ⟨hi, hbelow⟩)) (lt_irrefl i)
    rw [List.getElem?_eq_getElem hi]
    exact congrArg some (le_antisymm (heq ▸ hle i m hm him) (not_lt.mp hnot))
  · obtain ⟨hm', hbelow⟩ := (hless m).mp hm
    exact (hless k).mpr ⟨hkm.trans_lt hm', (hle k m hm' hkm).trans_lt hbelow⟩
  · simp [List.getElem?_eq_none hk]

end Tack.Lib

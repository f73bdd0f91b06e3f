import Mathlib

/-!
# Runs of a labelled step function

A concurrent program is given by `step : σ → α → Option σ`: the label names the
party that moves and every choice the environment makes, and `none` says that the
move is not enabled.  This file holds the run relation of such a function and the
two induction rules the developments use.

## Main definitions

* `Lib.run` — the state after a list of labels, when every one is enabled.
* `Lib.Reach` — the states a run whose moves all meet a condition arrives at.

## Main results

* `Lib.Reach.invariant` — a property that holds at the start and that every
  allowed move keeps holds wherever a run arrives.
* `Lib.reach_of_run`, `Lib.exists_reach_of_runChecked` — an evaluated run is a run.
* `Lib.update_eq_some` — a move of one party leaves the others as they are.
-/

namespace Tack.Lib

variable {σ α : Type*}

/-- The state after the moves `as` from `s`, or `none` when one of them is not enabled. -/
def run (step : σ → α → Option σ) : σ → List α → Option σ
  | s, [] => some s
  | s, a :: as => (step s a).bind fun s' => run step s' as

/-- `Reach step ok s s'`: some run of enabled moves leads from `s` to `s'`, and every move `a`
of it was made in a state `t` with `ok t a`. -/
inductive Reach (step : σ → α → Option σ) (ok : σ → α → Prop) (s : σ) : σ → Prop
  | refl : Reach step ok s s
  | tail {t t' : σ} {a : α} : Reach step ok s t → ok t a → step t a = some t' →
      Reach step ok s t'

namespace Reach

variable {step : σ → α → Option σ} {ok : σ → α → Prop} {s t : σ}

/-- **The invariant rule**: what holds at the start and is kept by every allowed move holds at
the end of every run. -/
theorem invariant {I : σ → Prop} (h0 : I s)
    (hstep : ∀ {u a u'}, I u → ok u a → step u a = some u' → I u') (h : Reach step ok s t) :
    I t := by
  induction h with
  | refl => exact h0
  | tail _ hok hs ih => exact hstep ih hok hs

/-- Two runs in a row are a run. -/
theorem trans {u : σ} (h : Reach step ok s t) (h' : Reach step ok t u) : Reach step ok s u := by
  induction h' with
  | refl => exact h
  | tail _ hok hs ih => exact ih.tail hok hs

end Reach

/-- Any move is allowed. -/
def anyMove (_ : σ) (_ : α) : Prop := True

/-- An evaluated run is a run. -/
theorem reach_of_run {step : σ → α → Option σ} {s s' : σ} {as : List α}
    (h : run step s as = some s') : Reach step anyMove s s' := by
  induction as generalizing s with
  | nil =>
    cases h
    exact .refl
  | cons a as ih =>
    obtain ⟨t, hst, hrun⟩ := Option.bind_eq_some_iff.mp h
    exact (Reach.refl.tail trivial hst).trans (ih hrun)

/-- A run that evaluates to a state with `p` reaches such a state. -/
theorem exists_reach_of_run (step : σ → α → Option σ) (s : σ) (as : List α) (p : σ → Bool)
    (h : (run step s as).any p = true) : ∃ s', Reach step anyMove s s' ∧ p s' = true := by
  cases hrun : run step s as with
  | none => simp [hrun] at h
  | some s' => exact ⟨s', reach_of_run hrun, by simpa [hrun] using h⟩

/-- The state after the moves `as` from `s`, when every one passes the check `okb` and is
enabled. -/
def runChecked (step : σ → α → Option σ) (okb : σ → α → Bool) : σ → List α → Option σ
  | s, [] => some s
  | s, a :: as => if okb s a then (step s a).bind fun s' => runChecked step okb s' as else none

/-- A checked run that evaluates to a state with `p` reaches such a state by allowed moves. -/
theorem exists_reach_of_runChecked (step : σ → α → Option σ) {ok : σ → α → Prop}
    {okb : σ → α → Bool} (hok : ∀ s a, okb s a = true → ok s a) (s : σ) (as : List α)
    (p : σ → Bool) (h : (runChecked step okb s as).any p = true) :
    ∃ s', Reach step ok s s' ∧ p s' = true := by
  induction as generalizing s with
  | nil => exact ⟨s, .refl, by simpa [runChecked] using h⟩
  | cons a as ih =>
    rw [runChecked] at h
    split at h
    · next hcheck =>
      cases hstep : step s a with
      | none => simp [hstep] at h
      | some t =>
        rw [hstep, Option.bind_some] at h
        obtain ⟨s', hrun, hp⟩ := ih t h
        exact ⟨s', (Reach.refl.tail (hok s a hcheck) hstep).trans hrun, hp⟩
    · simp at h

/-! ### The states of the parties -/

/-- Where one party's state has changed, the others have their old one. -/
theorem update_eq_some {ι α : Type*} [DecidableEq ι] {f : ι → Option α} {i j : ι} {x : Option α} {a : α}
    (h : Function.update f i x j = some a) : j ≠ i ∧ f j = some a ∨ j = i ∧ x = some a := by
  by_cases hj : j = i
  · subst hj
    rw [Function.update_self] at h
    exact .inr ⟨rfl, h⟩
  · rw [Function.update_of_ne hj] at h
    exact .inl ⟨hj, h⟩

theorem update_some_eq_none {ι α : Type*} [DecidableEq ι] {f : ι → Option α} {i j : ι} {a : α}
    (h : Function.update f i (some a) j = none) : j ≠ i ∧ f j = none := by
  have hj : j ≠ i := by
    rintro rfl
    simp at h
  exact ⟨hj, (Function.update_of_ne hj ..).symm.trans h⟩

end Tack.Lib

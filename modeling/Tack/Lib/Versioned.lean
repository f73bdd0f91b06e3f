import Mathlib

/-!
# A multiversion database

The database as a serializable multiversion store shows it: commit versions grow in commit
order, and a read at version `R` sees exactly the commits up to `R`.

## Main definitions

* `Lib.Versioned` — the database as of every version so far.
* `Lib.Versioned.commit` — the next version.

## Main results

* `Lib.Versioned.forall_snapshot_commit` — what holds of every version still holds after a
  commit when it holds of the new one.
-/

namespace Tack.Lib

/-- A database with its past: `snapshot v` is what a read at version `v ≤ version` sees. -/
structure Versioned (D : Type*) where
  version : ℕ
  snapshot : ℕ → D

namespace Versioned

variable {D : Type*} (s : Versioned D) (d : D)

/-- A database that begins with `d`. -/
def init : Versioned D := ⟨0, fun _ => d⟩

/-- What a read at the current version sees. -/
def latest : D := s.snapshot s.version

/-- The database after a transaction that leaves `d` commits. -/
def commit : Versioned D :=
  ⟨s.version + 1, Function.update s.snapshot (s.version + 1) d⟩

@[simp] theorem version_commit : (s.commit d).version = s.version + 1 := rfl

@[simp] theorem latest_commit : (s.commit d).latest = d := by
  simp [latest, commit]

variable {s d}

theorem snapshot_commit_of_le {v : ℕ} (h : v ≤ s.version) :
    (s.commit d).snapshot v = s.snapshot v :=
  Function.update_of_ne (by omega) _ _

/-- A property of every version survives a commit that establishes it for the new version. -/
theorem forall_snapshot_commit {P : ℕ → D → Prop} (h : ∀ v ≤ s.version, P v (s.snapshot v))
    (hd : P (s.version + 1) d) : ∀ v ≤ (s.commit d).version, P v ((s.commit d).snapshot v) := by
  intro v hv
  rw [version_commit] at hv
  rcases Nat.lt_or_ge s.version v with hlt | hle
  · have : v = s.version + 1 := by omega
    subst this
    simpa [commit] using hd
  · rw [snapshot_commit_of_le hle]
    exact h v hle

end Versioned

end Tack.Lib

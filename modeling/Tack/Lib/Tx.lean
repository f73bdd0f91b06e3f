import Mathlib

/-!
# Attempts of a transaction

One attempt of a transaction reads and writes a state and may refuse.  A refused attempt leaves its
state behind, so that what an attempt leaves in memory outside the database can be followed across
attempts; the database forgets it.

## Main definitions

* `Lib.Tx` — an attempt.
* `Lib.Tx.read`, `Lib.Tx.write`, `Lib.Tx.require` — a read that may fail, a write, and a check.
* `Lib.refuseIf` — a check outside of a transaction.

## Main results

* `Lib.Tx.bind_ok` — an attempt in two parts succeeds when both do.
* `Lib.Tx.read_ok`, `write_ok`, `require_ok`, `pure_ok` — what a part that succeeded did.
-/

namespace Tack.Lib

variable {ε σ α β : Type}

/-- An attempt that ends with a value or a refusal, and in a state. -/
abbrev Tx (ε σ α : Type) := EStateM ε σ α

namespace Tx

/-- Reads a value of the state. -/
def read (f : σ → Except ε α) : Tx ε σ α := fun s =>
  match f s with
  | .ok a => .ok a s
  | .error e => .error e s

/-- Changes the state. -/
def write (f : σ → σ) : Tx ε σ Unit := fun s => .ok () (f s)

/-- Goes on when a condition holds. -/
def require (c : Prop) [Decidable c] (e : ε) : Tx ε σ Unit := fun s =>
  if c then .ok () s else .error e s

variable {s s' : σ} {a : α}

theorem bind_ok {x : Tx ε σ α} {f : α → Tx ε σ β} {b : β} :
    (x >>= f) s = .ok b s' ↔ ∃ a t, x s = .ok a t ∧ f a t = .ok b s' := by
  change EStateM.bind x f s = _ ↔ _
  rw [EStateM.bind]
  cases h : x s with
  | ok a t =>
    refine ⟨fun hf => ⟨a, t, rfl, hf⟩, ?_⟩
    rintro ⟨a', t', heq, hf⟩
    cases heq
    exact hf
  | error e t => simp

theorem bind_of_ok {x : Tx ε σ α} (f : α → Tx ε σ β) (h : x s = .ok a s') : (x >>= f) s = f a s' := by
  change EStateM.bind x f s = _
  rw [EStateM.bind, h]

theorem bind_of_error {x : Tx ε σ α} {e : ε} (f : α → Tx ε σ β) (h : x s = .error e s') :
    (x >>= f) s = .error e s' := by
  change EStateM.bind x f s = _
  rw [EStateM.bind, h]

theorem pure_ok {b : α} : (pure b : Tx ε σ α) s = .ok a s' ↔ b = a ∧ s = s' := by
  change EStateM.Result.ok b s = _ ↔ _
  simp

theorem throw_ok {e : ε} : (throw e : Tx ε σ α) s ≠ .ok a s' := fun h => by cases h

theorem read_ok {f : σ → Except ε α} : read f s = .ok a s' ↔ f s = .ok a ∧ s' = s := by
  rw [read]
  cases h : f s with
  | ok b => simp [eq_comm]
  | error e => simp

theorem read_of_error {f : σ → Except ε α} {e : ε} (h : f s = .error e) : read f s = .error e s := by
  rw [read, h]

theorem write_ok {f : σ → σ} {u : Unit} : (write f : Tx ε σ Unit) s = .ok u s' ↔ s' = f s := by
  simp [write, eq_comm]

theorem require_ok {c : Prop} [Decidable c] {e : ε} {u : Unit} :
    (require c e : Tx ε σ Unit) s = .ok u s' ↔ c ∧ s' = s := by
  rw [require]
  split_ifs with hc <;> simp [hc, eq_comm]

end Tx

/-- A failed read fails what follows. -/
theorem except_bind_ok {x : Except ε α} {f : α → Except ε β} {b : β} :
    (x >>= f) = .ok b ↔ ∃ a, x = .ok a ∧ f a = .ok b := by
  cases x with
  | ok a => simp [bind, Except.bind]
  | error e => simp [bind, Except.bind]

/-- A check that fails with `e` when a condition holds. -/
def refuseIf (c : Prop) [Decidable c] (e : ε) : Except ε Unit := if c then .error e else .ok ()

theorem refuseIf_ok {c : Prop} [Decidable c] {e : ε} {u : Unit} : refuseIf c e = .ok u ↔ ¬c := by
  rw [refuseIf]
  split <;> simp [*]

end Tack.Lib

import Mathlib

/-!
# Documents with sequence numbers

A store gives every write of a document the next sequence number.  A conditional write names what an earlier
read of the document returned: nothing, or a sequence number.  It is refused when the document has changed
since.  An update under the document's lock needs no earlier read.

Requests may arrive at any later time.  So a read is described by what it still says about the store later on.

## Main definitions

* `Lib.SeqStore`, `Lib.SeqStore.store` — the store and a write.
* `Lib.SeqStore.Saw` — a read that some earlier state of the store returned.

## Main results

* `Lib.SeqStore.Saw.store` — a read stays a read.
-/

namespace Tack.Lib

variable {κ β : Type*}

/-- Documents with the sequence number of their last write. -/
structure SeqStore (κ β : Type*) where
  doc : κ → Option (ℕ × β)
  next : ℕ

namespace SeqStore

def empty : SeqStore κ β := ⟨fun _ => none, 0⟩

/-- The stored body of a document. -/
def body (s : SeqStore κ β) (k : κ) : Option β := (s.doc k).map Prod.snd

/-- Every sequence number was given out. -/
def Counted (s : SeqStore κ β) : Prop := ∀ k n b, s.doc k = some (n, b) → n < s.next

/-- Some earlier state of the store returned this read of `k`. -/
def Saw (s : SeqStore κ β) (k : κ) (read : Option (ℕ × β)) : Prop :=
  ∀ n b, read = some (n, b) → n < s.next ∧ ∃ m c, s.doc k = some (m, c) ∧ (m = n → c = b)

theorem Counted.saw {s : SeqStore κ β} (h : s.Counted) (k : κ) : s.Saw k (s.doc k) :=
  fun n b hread => ⟨h k n b hread, n, b, hread, fun _ => rfl⟩

variable [DecidableEq κ]

/-- Stores a body with the next sequence number. -/
def store (s : SeqStore κ β) (k : κ) (b : β) : SeqStore κ β :=
  ⟨Function.update s.doc k (some (s.next, b)), s.next + 1⟩

variable {s s' : SeqStore κ β} {k k' : κ} {read : Option (ℕ × β)} {b : β}

@[simp] theorem store_doc_self : (s.store k b).doc k = some (s.next, b) := by
  simp [store]

theorem store_doc_of_ne (h : k' ≠ k) : (s.store k b).doc k' = s.doc k' := by
  simp [store, h]

@[simp] theorem store_body_self : (s.store k b).body k = some b := by
  simp [body]

theorem store_body_of_ne (h : k' ≠ k) : (s.store k b).body k' = s.body k' := by
  rw [body, store_doc_of_ne h, body]

theorem Counted.store (h : s.Counted) : (s.store k b).Counted := by
  intro k' n c hdoc
  show n < s.next + 1
  by_cases hk : k' = k
  · subst hk
    rw [store_doc_self] at hdoc
    cases hdoc
    exact Nat.lt_succ_self _
  · rw [store_doc_of_ne hk] at hdoc
    exact Nat.lt_succ_of_lt (h k' n c hdoc)

theorem Saw.store (h : s.Saw k read) : (s.store k' b).Saw k read := by
  intro n c hread
  obtain ⟨hlt, m, c', hdoc, hsame⟩ := h n c hread
  refine ⟨Nat.lt_succ_of_lt hlt, ?_⟩
  by_cases hk : k = k'
  · subst hk
    exact ⟨s.next, b, store_doc_self, fun heq => absurd heq (Nat.ne_of_gt hlt)⟩
  · exact ⟨m, c', (store_doc_of_ne hk).trans hdoc, hsame⟩

end SeqStore

end Tack.Lib

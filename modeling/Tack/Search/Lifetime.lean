import Tack.Search.Coherent

/-!
# The life of a node under its ID

A node whose ID is not used again is created once, and once it is gone and no work is pending nothing about it
changes.

## Main definitions

* `Search.NotReused` — the node is created at most once.
* `Search.Settled` — nothing is left to do for the node.

## Main results

* `Search.NodeEffect.settled` — only a create changes the records of a node without any work.
-/

namespace Tack.Search

open Lib

/-- The node is gone and no work is pending. -/
structure Settled (records : NodeRecords) : Prop where
  stored : records.stored = false
  work : ∀ c, records.work c = none

section Moves

variable {env : StoreEnv} {nodeId : UUID} {s s' : NodeState} {move : NodeMove}

/-- A node is created at most once: its ID is not used again. -/
def NotReused (s : NodeState) : NodeMove → Prop
  | .create => s.created = false
  | _ => True

def notReused (s : NodeState) : NodeMove → Bool
  | .create => !s.created
  | _ => true

theorem notReused_ok (s : NodeState) (move : NodeMove) (h : notReused s move = true) : NotReused s move := by
  cases move
  case create => exact (Bool.not_eq_true' _).mp h
  all_goals trivial

/-- Without a stored node and without pending work, only a create changes the records. -/
theorem NodeEffect.settled (heffect : NodeEffect env nodeId s move s') (h : Settled s.records)
    (hmove : move ≠ .create) : s'.records = s.records ∧ s'.log = s.log ∧ s'.created = s.created := by
  have hstored : s.records.stored ≠ true := fun hstored =>
    absurd (h.stored.symm.trans hstored) Bool.false_ne_true
  have hwork : ∀ c record, s.records.work c ≠ some record := fun c record hrecord =>
    absurd ((h.work c).symm.trans hrecord) (Option.some_ne_none _).symm
  have hclaim : ∀ {work record}, ¬ Verified s.records work record := fun hclaim =>
    hwork _ _ hclaim.pending
  cases heffect
  case create => exact absurd rfl hmove
  case delete hbefore _ => exact absurd hbefore hstored
  case change hbefore _ _ => exact absurd hbefore hstored
  case repairAccess hbefore _ => exact absurd hbefore hstored
  case copyNode hbefore => exact absurd hbefore hstored
  case mirrorMiss hlive _ =>
    rw [h.work] at hlive
    exact absurd hlive Bool.false_ne_true
  case setOrg => exact ⟨rfl, rfl, rfl⟩
  case dropped hrecord _ => exact absurd hrecord (hwork _ _)
  case leased hrecord _ => exact absurd hrecord (hwork _ _)
  case read => exact ⟨rfl, rfl, rfl⟩
  case register hpage _ _ => exact absurd hpage.claim hclaim
  case completePage hpage _ => exact absurd hpage.claim hclaim
  case refreshRestarted hverified _ => exact absurd hverified hclaim
  case refreshCompleted hverified _ _ => exact absurd hverified hclaim
  case restart hverified _ => exact absurd hverified hclaim
  case beginFinished hverified => exact absurd hverified hclaim
  case begun hverified _ _ _ => exact absurd hverified hclaim
  case accessCompleted hverified _ => exact absurd hverified hclaim
  case dependentsScheduled hverified _ _ _ => exact absurd hverified hclaim
  case retired hverified _ _ => exact absurd hverified hclaim
  case excluded hverified _ _ => exact absurd hverified hclaim
  case yielded hverified => exact absurd hverified hclaim
  case released hverified _ _ => exact absurd hverified hclaim
  case stopped => exact ⟨rfl, rfl, rfl⟩

end Moves

end Tack.Search

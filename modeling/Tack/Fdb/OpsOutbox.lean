import Tack.Lib.ByteOrder
import Tack.Lib.Run
import Tack.Lib.Versioned

/-!
# The FoundationDB outbox and its relays

The operator outbox (`ops_outbox.go`, `ops_outbox_writer.go`, `ops_outbox_published.go`), the
relay lease over it (`ops_outbox_lease.go`) and the loop that every relay runs
(`relay_foundationdb.go`): appends by committed transactions, any number of relays, and the
broker.  Keys are the byte strings the store orders: a versionstamp is ten big-endian bytes of
commit version and two of user version.

One move is one committed transaction, one snapshot read, one produce or one answer that a
relay gives up on.  A transaction that reads the lease reads it at a version `R` and commits only
when the lease has not changed since; the answer of a commit may be lost, and the relay then
tries again or gives up.

## Main definitions

* `OpsOutbox.outboxKey`, `OpsOutbox.readOutboxFrom`, `OpsOutbox.clearRange` — the outbox.
* `OpsOutbox.Relay`, `OpsOutbox.Pc` — a relay and where it stands in `foundationDBLoop`.
* `OpsOutbox.step` — one move of the system.
-/

namespace Tack.OpsOutbox

open Lib

/-! ### The outbox key family -/

/-- `opsOutboxPrefix()`: the packed tuple of the string `ops_outbox`. -/
def opsOutboxPrefix : List Byte := [2, 111, 112, 115, 95, 111, 117, 116, 98, 111, 120, 0]

/-- The tuple code of a versionstamp. -/
def versionstampCode : Byte := 51

/-- The key of the entry with the given commit version and user version. -/
def outboxKey (version user : ℕ) : List Byte :=
  opsOutboxPrefix ++ versionstampCode :: (beBytes 10 version ++ beBytes 2 user)

/-- `outboxEntriesPerTransaction`: the number of two-byte user versions. -/
def outboxEntriesPerTransaction : ℕ := 65536

/-- The number of ten-byte transaction versions. -/
def versionLimit : ℕ := 256 ^ 10

/-- One outbox entry: its key, which is also its mark, and its event. -/
structure Entry (Ev : Type) where
  key : List Byte
  event : Ev
  deriving DecidableEq, Repr

/-- `relayLeaseRecord`. -/
structure LeaseRecord where
  owner : ℕ
  expiresVersion : ℕ
  deriving DecidableEq, Repr

/-- The part of the database the relays work on: the outbox in key order, and the lease key. -/
structure Db (Ev : Type) where
  outbox : List (Entry Ev)
  lease : Option LeaseRecord
  deriving DecidableEq, Repr

variable {Ev : Type}

/-- The entries one `OutboxWriter` writes, in a transaction that commits at `version`. -/
def writtenEntries (version : ℕ) (events : List Ev) : List (Entry Ev) :=
  events.zipIdx.map fun p => ⟨outboxKey version p.2, p.1⟩

/-- `ReadOutboxFrom`: up to `limit` entries after `mark`; an empty mark starts at the beginning. -/
def readOutboxFrom (db : Db Ev) (mark : List Byte) (limit : ℕ) : List (Entry Ev) :=
  (db.outbox.filter fun e => mark.isEmpty || decide (mark < e.key)).take limit

/-- `checkOutboxMark`. -/
def checkOutboxMark (mark : List Byte) : Bool := opsOutboxPrefix.isPrefixOf mark

/-- `outboxClearRange`: the end key of the range that starts at `opsOutboxPrefix()`. -/
def outboxClearRange (mark : List Byte) : Option (List Byte) :=
  if checkOutboxMark mark then strinc mark else none

/-- `tr.ClearRange` from `opsOutboxPrefix()` to `stop`. -/
def clearRange (db : Db Ev) (stop : List Byte) : Db Ev :=
  { db with
    outbox := db.outbox.filter fun e => !(decide (opsOutboxPrefix ≤ e.key) && decide (e.key < stop)) }

/-! ### The relays -/

/-- Where a relay stands in `foundationDBLoop`. -/
inductive Pc (Ev : Type)
  /-- At `holdLease`. -/
  | holding
  /-- In `drainFoundationDB`, at `ReadOutboxFrom`. -/
  | reading
  /-- In the loop over the batch: the entries still to produce and `lastAccepted`. -/
  | producing (rest : List (Entry Ev)) (lastAccepted : List Byte)
  /-- At `clearThrough`. -/
  | clearing (lastAccepted : List Byte)
  /-- At the `select` of the loop. -/
  | waiting
  /-- The loop has returned. -/
  | stopped

/-- A relay; an empty mark is nil. -/
structure Relay (Ev : Type) where
  pc : Pc Ev
  mark : List Byte
  holding : Bool

/-- The parameters of a relay: its lease duration in versions and its batch size. -/
structure RelayConfig where
  versions : ℕ
  batchSize : ℕ

/-- The database, the relays and the broker. -/
structure State (Ev : Type) where
  db : Versioned (Db Ev)
  relays : ℕ → Relay Ev
  /-- Every entry ever committed, in commit order. -/
  appended : List (Entry Ev)
  /-- What the broker accepted, in order of acceptance. -/
  accepted : List (Entry Ev)
  /-- The records of produces that failed for the relay; the broker may still accept them. -/
  inFlight : List (Entry Ev)

/-- The empty outbox, with every relay before its first poll. -/
def State.start : State Ev where
  db := .init ⟨[], none⟩
  relays := fun _ => ⟨.holding, [], false⟩
  appended := []
  accepted := []
  inFlight := []

/-- How a produce ends for the relay.  `stop` is a stop requested by `AfterProduce`. -/
inductive Outcome
  | ok | stop | failed
  deriving DecidableEq, Repr

/-- A move: an append, a step of the relay `r`, or an acceptance by the broker. -/
inductive Action (Ev : Type)
  | append (events : List Ev)
  | advance
  | hold (r R : ℕ) (answered : Bool)
  | holdRefused (r R : ℕ)
  | holdFail (r : ℕ)
  | release (r R : ℕ)
  | read (r R : ℕ)
  | readFail (r : ℕ)
  | produce (r : ℕ) (outcome : Outcome)
  | produced (r : ℕ)
  | acceptLate (e : Entry Ev)
  | clear (r R : ℕ) (answered : Bool)
  | clearFail (r : ℕ)
  | tick (r : ℕ)
  | stop (r : ℕ)

namespace State

/-- The relay `r` becomes `x`. -/
def setRelay (s : State Ev) (r : ℕ) (x : Relay Ev) : State Ev :=
  { s with relays := Function.update s.relays r x }

/-- The relay `r` goes on at `pc`. -/
def setPc (s : State Ev) (r : ℕ) (pc : Pc Ev) : State Ev :=
  s.setRelay r { s.relays r with pc := pc }

/-- A transaction that leaves `d` commits. -/
def commit (s : State Ev) (d : Db Ev) : State Ev := { s with db := s.db.commit d }

/-- A transaction that read the lease at `R` finds it unchanged when it commits. -/
def leaseUnchanged (s : State Ev) (R : ℕ) : Bool :=
  decide (R ≤ s.db.version) && decide ((s.db.snapshot R).lease = s.db.latest.lease)

end State

/-- Another relay owns a lease that has not expired at the read version `R`. -/
def heldByOther (lease : Option LeaseRecord) (r R : ℕ) : Bool :=
  lease.any fun l => decide (l.owner ≠ r) && decide (R < l.expiresVersion)

/-- The relay `r` owns the lease. -/
def ownedBy (lease : Option LeaseRecord) (r : ℕ) : Bool :=
  lease.any fun l => decide (l.owner = r)

/-- The loop after `holdLease` returned true: a relay that did not hold the lease before starts at
the beginning of the outbox. -/
def Relay.held (x : Relay Ev) : Relay Ev :=
  ⟨.reading, if x.holding then x.mark else [], true⟩

/-- The loop after `holdLease` returned false. -/
def Relay.notHeld (x : Relay Ev) : Relay Ev := { x with pc := .waiting, holding := false }

/-- `drainFoundationDB` after the loop over the batch. -/
def afterBatch (lastAccepted : List Byte) : Pc Ev :=
  if lastAccepted.isEmpty then .waiting else .clearing lastAccepted

section Step

variable [DecidableEq Ev] (cfg : ℕ → RelayConfig)

/-- `produceEntry` of the next entry of the batch. -/
def produceStep (s : State Ev) (r : ℕ) (e : Entry Ev) (rest : List (Entry Ev))
    (lastAccepted : List Byte) : Outcome → State Ev
  | .ok => State.setPc { s with accepted := s.accepted ++ [e] } r (.producing rest e.key)
  | .stop => State.setPc { s with accepted := s.accepted ++ [e] } r .waiting
  | .failed => State.setPc { s with inFlight := s.inFlight ++ [e] } r (afterBatch lastAccepted)

/-- A move of the relay `r`, which stands at `pc`. -/
def relayStep (s : State Ev) (r : ℕ) : Pc Ev → Action Ev → Option (State Ev)
  | .holding, .hold _ R answered =>
    if s.leaseUnchanged R ∧ ¬ heldByOther (s.db.snapshot R).lease r R then
      some ((s.commit { s.db.latest with lease := some ⟨r, R + (cfg r).versions⟩ }).setRelay r
        (if answered then (s.relays r).held else s.relays r))
    else none
  | .holding, .holdRefused _ R =>
    if R ≤ s.db.version ∧ heldByOther (s.db.snapshot R).lease r R then
      some (s.setRelay r (s.relays r).notHeld)
    else none
  | .holding, .holdFail _ => some (s.setRelay r (s.relays r).notHeld)
  | .reading, .read _ R =>
    if R ≤ s.db.version ∧ ((s.relays r).mark.isEmpty ∨ checkOutboxMark (s.relays r).mark) then
      some (s.setPc r (.producing
        (readOutboxFrom (s.db.snapshot R) (s.relays r).mark (cfg r).batchSize) []))
    else none
  | .reading, .readFail _ => some (s.setPc r .waiting)
  | .producing (e :: rest) lastAccepted, .produce _ outcome =>
    some (produceStep s r e rest lastAccepted outcome)
  | .producing [] lastAccepted, .produced _ => some (s.setPc r (afterBatch lastAccepted))
  | .clearing lastAccepted, .clear _ R answered =>
    if s.leaseUnchanged R ∧ ownedBy (s.db.snapshot R).lease r then
      (outboxClearRange lastAccepted).map fun stop =>
        (s.commit (clearRange s.db.latest stop)).setRelay r
          (if answered then { s.relays r with pc := .waiting, mark := lastAccepted }
            else s.relays r)
    else none
  | .clearing _, .clearFail _ => some (s.setPc r .waiting)
  | .waiting, .tick _ => some (s.setPc r .holding)
  | .waiting, .stop _ => some (s.setPc r .stopped)
  | _, _ => none

/-- The relay that makes a move. -/
def Action.relay : Action Ev → Option ℕ
  | .hold r _ _ | .holdRefused r _ | .holdFail r | .read r _ | .readFail r | .produce r _
  | .produced r | .clear r _ _ | .clearFail r | .tick r | .stop r => some r
  | _ => none

/-- One move of the system, `none` when it is not enabled. -/
def step (s : State Ev) (a : Action Ev) : Option (State Ev) :=
  match a with
  | .append events =>
    if events.isEmpty ∨ outboxEntriesPerTransaction < events.length ∨
        versionLimit ≤ s.db.version + 1 then none
    else
      let written := writtenEntries (s.db.version + 1) events
      some { s.commit { s.db.latest with outbox := s.db.latest.outbox ++ written } with
        appended := s.appended ++ written }
  | .advance => some (s.commit s.db.latest)
  | .release r R =>
    if s.leaseUnchanged R ∧ ownedBy (s.db.snapshot R).lease r then
      some (s.commit { s.db.latest with lease := none })
    else none
  | .acceptLate e =>
    if e ∈ s.inFlight then some { s with accepted := s.accepted ++ [e] } else none
  | a => a.relay.bind fun r => relayStep cfg s r (s.relays r).pc a

/-- The states the system can be in. -/
def Reachable (s : State Ev) : Prop := Reach (step cfg) anyMove .start s

end Step

end Tack.OpsOutbox

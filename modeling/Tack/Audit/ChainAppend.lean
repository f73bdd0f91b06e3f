import Tack.Audit.RowHash
import Tack.Lib.Run

/-!
# Appending to the ledger

The ledger is three tables: the identities of projected events, the events, and the head of the hash
chain of every organization and shard.  `appendChainRow` claims the identity of an event, gives it the
next sequence number of its chain, hashes it on top of the chain and advances the head.  A transaction
that fails leaves the tables as they were.

## Main definitions

* `Audit.Ledger` — the three tables.
* `Audit.appendChainRow` — one append.
* `Audit.Produced` — the ledgers that appends lead to.

## Main results

* `Audit.appendChainRow_ok_iff` — what a successful append does.
-/

namespace Tack.Audit

open Lib

/-! ### The tables -/

/-- A row as the column types of `audit.events` allow it: a timestamp has microseconds and no
zone. -/
def Row.Storable (row : Row) : Prop :=
  row.eventTime.zone = 0 ∧ row.eventTime.nanos % Time.microsecond = 0

structure Ledger where
  /-- `audit.projected_events`. -/
  projectedEvents : List UUID
  /-- `audit.events`, in the order of insertion. -/
  events : List Row
  /-- The last sequence number and the last hash of a chain in `audit.chain_heads`. -/
  chainHeads : UUID → Int16 → Option (Int64 × Bytes)
  storable : ∀ row ∈ events, row.Storable

def Ledger.empty : Ledger := ⟨[], [], fun _ _ => none, by simp⟩

/-- The state of a chain before an append. -/
structure ChainHeadState where
  lastSeq : Int64
  lastHash : Bytes
  «exists» : Bool

/-- Why an append fails. -/
inductive ChainError
  | malformedPayload (violation : ContractViolation)
  | alreadyProjected
  | chainHash
  /-- The head advanced concurrently. -/
  | chainConflict
  deriving DecidableEq, Repr

/-- What an append writes.  Every caller marshals the context and the delta of the event. -/
structure ChainAppendInput where
  event : Event
  eventId : UUID
  shard : Int16
  piiRef : UUID
  contextJSON : Bytes
  deltaJSON : Bytes
  contextJSON_eq : event.context.toJson.map marshal = some contextJSON
  deltaJSON_eq : (Delta.toJson event.delta).map marshal = some deltaJSON

structure ChainAppendResult where
  seq : Int64
  prevHash : Bytes
  rowHash : Bytes

/-! ### The steps of an append -/

/-- Inserts the identity; `none` when it is already there. -/
def claimEventIdentity (ledger : Ledger) (eventId : UUID) : Option Ledger :=
  if eventId ∈ ledger.projectedEvents then none
  else some { ledger with projectedEvents := eventId :: ledger.projectedEvents }

def readChainHead (ledger : Ledger) (orgId : UUID) (shard : Int16) : ChainHeadState :=
  match ledger.chainHeads orgId shard with
  | some (lastSeq, lastHash) => ⟨lastSeq, lastHash, true⟩
  | none => ⟨0, [], false⟩

/-- Advances the head when it still is the one that was read. -/
def writeChainHead (ledger : Ledger) (orgId : UUID) (shard : Int16) (head : ChainHeadState)
    (seq : Int64) (rowHash : Bytes) : Except ChainError Ledger :=
  let unchanged := match ledger.chainHeads orgId shard with
    | some (lastSeq, _) => head.exists && lastSeq == head.lastSeq
    | none => !head.exists
  if unchanged then
    .ok { ledger with
      chainHeads := fun org s =>
        if org = orgId ∧ s = shard then some (seq, rowHash) else ledger.chainHeads org s }
  else .error .chainConflict

/-- Only format 0 events without an outcome default to ok. -/
def defaultOutcome (event : Event) : Event :=
  if event.outcome = "" ∧ event.context.auditFormatVersion = auditFormatLegacy then
    { event with outcome := .ok }
  else event

def piiRefArg (piiRef : UUID) : Option UUID := if piiRef = .nil then none else some piiRef

/-- What the hash of an appended row covers. -/
def ChainAppendInput.hashInput (input : ChainAppendInput) (event : Event) (seq : Int64)
    (lastHash : Bytes) : RowHashInput where
  event := event
  eventId := input.eventId
  shard := input.shard
  seq := seq
  piiRef := input.piiRef
  contextJSON := input.contextJSON
  deltaJSON := input.deltaJSON
  lastHash := lastHash
  version := auditHashVersionCurrent

/-- The row of an append. -/
def ChainAppendInput.row (input : ChainAppendInput) (event : Event) (seq : Int64)
    (lastHash rowHash : Bytes) : Row where
  orgId := event.context.orgId
  eventTime := event.occurredAt.utc.truncate Time.microsecond
  eventId := input.eventId
  seq := seq
  shard := input.shard
  actorId := event.actor.id
  actorKind := Int16.ofInt (actorKindCode event.actor.type)
  action := event.verb
  outcome := event.outcome
  entityKind := event.entity.type
  entityId := event.entity.id
  context := event.context
  delta := event.delta
  error := event.error
  extra := event.extra
  piiRef := piiRefArg input.piiRef
  prevHash := lastHash
  rowHash := rowHash
  hashVersion := auditHashVersionCurrent
  idempotencyKey := event.idempotencyKey
  manifestParts := []

theorem storable_row (input : ChainAppendInput) (event : Event) (seq : Int64)
    (lastHash rowHash : Bytes) : (input.row event seq lastHash rowHash).Storable := by
  refine ⟨rfl, ?_⟩
  simp only [ChainAppendInput.row, Time.truncate]
  exact Int.emod_eq_zero_of_dvd (Int.dvd_self_sub_emod)

/-- Inserts a row; `none` when the ledger holds its identity at its time. -/
def insertEvent (ledger : Ledger) (row : Row) (h : row.Storable) : Option Ledger :=
  if ledger.events.any fun r => r.eventId == row.eventId && r.eventTime.equal row.eventTime then none
  else some { ledger with
    events := ledger.events ++ [row]
    storable := by
      intro r hr
      rcases List.mem_append.mp hr with hr | hr
      · exact ledger.storable r hr
      · rw [List.mem_singleton.mp hr]
        exact h }

section Append

variable (sum : Bytes → Bytes) (json : JsonReader)

/-- `appendChainRow` in a transaction of its own. -/
def appendChainRow (ledger : Ledger) (input : ChainAppendInput) :
    Except ChainError (Ledger × ChainAppendResult) :=
  match validateEvent json input.event with
  | .error violation => .error (.malformedPayload violation)
  | .ok _ =>
    let event := defaultOutcome input.event
    match claimEventIdentity ledger input.eventId with
    | none => .error .alreadyProjected
    | some ledger =>
      let head := readChainHead ledger event.context.orgId input.shard
      let seq := head.lastSeq + 1
      match hashRowForEvent sum (input.hashInput event seq head.lastHash) with
      | none => .error .chainHash
      | some rowHash =>
        match insertEvent ledger (input.row event seq head.lastHash rowHash)
            (storable_row input event seq head.lastHash rowHash) with
        | none => .error .alreadyProjected
        | some ledger =>
          (writeChainHead ledger event.context.orgId input.shard head seq rowHash).map fun ledger =>
            (ledger, ⟨seq, head.lastHash, rowHash⟩)

/-- One committed append. -/
def appendStep (ledger : Ledger) (input : ChainAppendInput) : Option Ledger :=
  (appendChainRow sum json ledger input).toOption.map Prod.fst

/-- The ledgers that appends lead to. -/
def Produced (ledger : Ledger) : Prop := Reach (appendStep sum json) anyMove .empty ledger

/-! ### What an append does -/

@[simp] theorem defaultOutcome_context (event : Event) :
    (defaultOutcome event).context = event.context := by
  unfold defaultOutcome
  split_ifs <;> rfl

/-- The head of the chain that an append extends. -/
def chainHeadFor (ledger : Ledger) (input : ChainAppendInput) : ChainHeadState :=
  readChainHead ledger input.event.context.orgId input.shard

/-- The row that an append adds. -/
def appendedRow (ledger : Ledger) (input : ChainAppendInput) (rowHash : Bytes) : Row :=
  input.row (defaultOutcome input.event) ((chainHeadFor ledger input).lastSeq + 1)
    (chainHeadFor ledger input).lastHash rowHash

/-- The ledger after an append. -/
def appended (ledger : Ledger) (input : ChainAppendInput) (rowHash : Bytes) : Ledger where
  projectedEvents := input.eventId :: ledger.projectedEvents
  events := ledger.events ++ [appendedRow ledger input rowHash]
  chainHeads org s :=
    if org = input.event.context.orgId ∧ s = input.shard then
      some ((chainHeadFor ledger input).lastSeq + 1, rowHash)
    else ledger.chainHeads org s
  storable := by
    intro r hr
    rcases List.mem_append.mp hr with hr | hr
    · exact ledger.storable r hr
    · rw [List.mem_singleton.mp hr]
      exact storable_row _ _ _ _ _

/-- The head that was just read is unchanged. -/
theorem writeChainHead_readChainHead (ledger : Ledger) (orgId : UUID) (shard : Int16) (seq : Int64)
    (rowHash : Bytes) :
    writeChainHead ledger orgId shard (readChainHead ledger orgId shard) seq rowHash =
      .ok { ledger with
        chainHeads := fun org s =>
          if org = orgId ∧ s = shard then some (seq, rowHash) else ledger.chainHeads org s } := by
  unfold writeChainHead readChainHead
  cases ledger.chainHeads orgId shard with
  | none => rfl
  | some head => simp

variable {sum json} {ledger ledger' : Ledger} {input : ChainAppendInput}

/-- **What a successful append does**: it validates the event, takes an identity that was not
projected, and adds the next row of the chain. -/
theorem appendChainRow_ok_iff {result : ChainAppendResult} :
    appendChainRow sum json ledger input = .ok (ledger', result) ↔
      ∃ rowHash, validateEvent json input.event = .ok () ∧
        input.eventId ∉ ledger.projectedEvents ∧
        hashRowForEvent sum (input.hashInput (defaultOutcome input.event)
          ((chainHeadFor ledger input).lastSeq + 1) (chainHeadFor ledger input).lastHash) =
            some rowHash ∧
        (ledger.events.any fun r => r.eventId == input.eventId &&
          r.eventTime.equal (appendedRow ledger input rowHash).eventTime) = false ∧
        ledger' = appended ledger input rowHash ∧
        result = ⟨(chainHeadFor ledger input).lastSeq + 1, (chainHeadFor ledger input).lastHash,
          rowHash⟩ := by
  have hread : ∀ ids hstore, readChainHead ⟨ids, ledger.events, ledger.chainHeads, hstore⟩
      (defaultOutcome input.event).context.orgId input.shard = chainHeadFor ledger input := by
    intro ids hstore
    rw [defaultOutcome_context]
    rfl
  unfold appendChainRow
  cases hvalid : validateEvent json input.event with
  | error violation => simp
  | ok u =>
    by_cases hclaim : input.eventId ∈ ledger.projectedEvents
    · simp [claimEventIdentity, hclaim]
    · simp only [claimEventIdentity, if_neg hclaim, hread]
      cases hhash : hashRowForEvent sum (input.hashInput (defaultOutcome input.event)
          ((chainHeadFor ledger input).lastSeq + 1) (chainHeadFor ledger input).lastHash) with
      | none => simp
      | some rowHash =>
        have hwrite : ∀ events hstore, writeChainHead ⟨input.eventId :: ledger.projectedEvents, events,
            ledger.chainHeads, hstore⟩ (defaultOutcome input.event).context.orgId input.shard
            (chainHeadFor ledger input) ((chainHeadFor ledger input).lastSeq + 1) rowHash =
              .ok ⟨input.eventId :: ledger.projectedEvents, events,
                (appended ledger input rowHash).chainHeads, hstore⟩ := by
          intro events hstore
          rw [defaultOutcome_context]
          exact writeChainHead_readChainHead _ _ _ _ _
        dsimp only [insertEvent]
        by_cases hany : (ledger.events.any fun r => r.eventId == input.eventId &&
            r.eventTime.equal (appendedRow ledger input rowHash).eventTime) = true
        · rw [if_pos (by exact hany)]
          constructor
          · intro h
            cases h
          · rintro ⟨_, -, -, heq, hnone, -, -⟩
            cases heq
            rw [hany] at hnone
            cases hnone
        · rw [if_neg (by exact hany)]
          dsimp only
          rw [hwrite]
          simp only [Bool.not_eq_true] at hany
          constructor
          · intro h
            cases h
            exact ⟨rowHash, trivial, hclaim, rfl, hany, rfl, rfl⟩
          · rintro ⟨_, -, -, heq, -, rfl, rfl⟩
            cases heq
            rfl

theorem appendStep_eq_some : appendStep sum json ledger input = some ledger' ↔
    ∃ result, appendChainRow sum json ledger input = .ok (ledger', result) := by
  unfold appendStep
  cases appendChainRow sum json ledger input with
  | error e => simp [Except.toOption]
  | ok r => simp [Except.toOption, Prod.ext_iff]

/-! ### Produced ledgers -/

end Append

end Tack.Audit

import Tack.Lib.Run
import Tack.Nodes.System

/-!
# Creates with an idempotency key

A create with a key decides twice whether the key was used: a lookup before the transaction, which
takes a record older than its window for no record, and a read inside the transaction, which does not
know the window.  Any number of calls with the same key run here, each in its own pace, and a
transaction may commit without its caller learning it, so that it runs again.

## Main definitions

* `Nodes.lookupExistingCreate`, `Nodes.createPlan` — the two parts of a call before its transaction.
* `Nodes.CreateCall`, `Nodes.KeyedState`, `Nodes.keyedStep` — calls with one key in one organization.
* `Nodes.CreatedOnce` — one call creates, and every other one answers with its node.
* `Nodes.KeyedCreates` — the same inside the window, and a first use after it.

## Main results

* `Nodes.keyed_creates_iff` — in every run one call at most creates, whatever the age of the record; so
  the window is kept exactly as long as no call that found the record expired is answered.
* `Nodes.keyed_creates_in_window` — it is kept while no lookup comes after the record expired.
-/

namespace Tack.Nodes

open Lib

/-! ### The call -/

/-- The input of a create; its scope, its properties and its relationships go into `Prepared`. -/
structure CreateInput where
  parentId : UUID
  nodeTypeKey : String
  name : String
  actorId : UUID
  idempotencyKey : String
  idempotencyFingerprint : String
  idempotencySource : String

/-- What the preparation of a create read and computed. -/
structure Prepared where
  metadataEpoch : ℤ
  graphRecords : List GraphRecord
  props : Props
  referenceKeys : Option (List ReferenceKey)
  relationships : List Relationship

def mcpIdempotencyWindow : Time.Duration := 24 * Time.hour

def idempotencyRecordExpired (existing : IdempotencyRecord) (now : Time) : Bool :=
  if existing.source ≠ "mcp" ∨ existing.createdAt.isZero then false
  else decide (mcpIdempotencyWindow < now.nanos - existing.createdAt.nanos)

def idempotencyFingerprintConflict (existing incoming : String) : Bool :=
  decide (existing ≠ "" ∧ incoming ≠ "" ∧ existing ≠ incoming)

/-- What the lookup before the transaction says. -/
inductive Lookup
  | absent
  | expired
  | conflict
  | existing (nodeId : UUID)
  deriving DecidableEq

def lookupExistingCreate (db : Db) (orgId : UUID) (input : CreateInput) (now : Time) : Lookup :=
  if input.idempotencyKey = "" then .absent
  else match db.idempotency.get ⟨orgId, input.idempotencyKey⟩ with
    | none => .absent
    | some existing =>
      if idempotencyRecordExpired existing now then .expired
      else if idempotencyFingerprintConflict existing.fingerprint input.idempotencyFingerprint then
        .conflict
      else .existing existing.nodeId

def createIdempotencyRecord (input : CreateInput) (nodeId : UUID) (createdAt : Time) :
    Option IdempotencyRecord :=
  if input.idempotencyKey = "" then none
  else some
    { key := input.idempotencyKey
      nodeId := nodeId
      fingerprint := input.idempotencyFingerprint
      createdAt := createdAt.utc
      source := input.idempotencySource }

def createPlan (orgId id : UUID) (input : CreateInput) (prepared : Prepared) (now : Time) :
    MutationPlan where
  orgId := orgId
  nodeId := id
  nodeType := input.nodeTypeKey
  actorId := input.actorId
  source := ⟨true, 0⟩
  metadataEpoch := prepared.metadataEpoch
  graph := ⟨prepared.graphRecords, [], []⟩
  name := some input.name
  props := prepared.props.erase parentIDProperty
  parent := if input.parentId = UUID.nil then none else some input.parentId
  referenceKeys := prepared.referenceKeys
  relationships := ⟨prepared.relationships, []⟩
  idempotency := createIdempotencyRecord input id now

/-- The node that the receipt of a committed attempt names. -/
def receiptNode (db : Db) (plan : MutationPlan) : UUID :=
  match plan.idempotency.bind fun idempotency => db.idempotency.get ⟨plan.orgId, idempotency.key⟩ with
  | some existing => existing.nodeId
  | none => plan.nodeId

/-- How far a call is. -/
inductive CreatePhase
  | begun
  /-- The lookup found a node, whose view is read next. -/
  | found (nodeId : UUID)
  /-- The lookup did not answer the call. -/
  | unanswered
  | planned (plan : MutationPlan)
  /-- The transaction reported its receipt, and the view of the node is read next. -/
  | applied (nodeId : UUID)
  | returned (nodeId : UUID) (existed : Bool)
  | refused (refusal : Refusal)
  | failed

/-- A create that runs. -/
structure CreateCall where
  input : CreateInput
  /-- The ID that the call allocates for its node. -/
  id : UUID
  phase : CreatePhase
  /-- The lookup found a record that had expired. -/
  expired : Bool
  /-- A transaction of the call wrote the node and the record of the key. -/
  created : Bool

/-- The call after its lookup. -/
def CreateCall.lookup (call : CreateCall) (db : Db) (orgId : UUID) (now : Time) : CreateCall :=
  match lookupExistingCreate db orgId call.input now with
  | .absent => { call with phase := .unanswered }
  | .expired => { call with phase := .unanswered, expired := true }
  | .conflict =>
    { call with phase := .refused ⟨.conflict, "idempotency key reused with different payload"⟩ }
  | .existing nodeId => { call with phase := .found nodeId }

/-- The database and the call after an attempt of its transaction; the caller may not learn that the
attempt committed, and then it makes another one. -/
def CreateCall.attempt (env : Env) (call : CreateCall) (db : Db) (plan : MutationPlan)
    (aborted : List (StepTimes × Db)) (times : StepTimes) (reported : Bool) : Db × CreateCall :=
  match runCall env ⟨.mutate plan, aborted, times⟩ db with
  | .error refusal => (db, { call with phase := .refused refusal })
  | .ok t => (t.db,
    { call with
      phase := if reported then .applied (receiptNode db plan) else .planned plan
      created := call.created || decide (readCreateIdempotency db plan = .ok false) })

/-! ### Runs of calls with one key -/

structure KeyedState where
  db : Db
  calls : List CreateCall

/-- What happens next: a call begins or goes on, or another transaction commits. -/
inductive KeyedMove
  | begin (input : CreateInput) (id : UUID)
  | lookup (i : ℕ) (now : Time)
  | prepare (i : ℕ) (prepared : Prepared) (now : Time)
  | attempt (i : ℕ) (aborted : List (StepTimes × Db)) (times : StepTimes) (reported : Bool)
  /-- The view of a node is read, and it is stored or not. -/
  | view (i : ℕ) (stored : Bool)
  /-- A call ends with an error that has nothing to do with the key. -/
  | fail (i : ℕ)
  | other (db : Db)

/-- The record of the key. -/
def KeyedState.existing (s : KeyedState) (orgId : UUID) (key : String) : Option IdempotencyRecord :=
  s.db.idempotency.get ⟨orgId, key⟩

/-- A call with a new phase. -/
def KeyedState.put (s : KeyedState) (i : ℕ) (call : CreateCall) : KeyedState :=
  { s with calls := s.calls.set i call }

/-- A step of the calls with the key in the organization.  The IDs of new nodes are new, and the other
transactions leave the record of the key alone. -/
def keyedStep (env : Env) (orgId : UUID) (key : String) (s : KeyedState) : KeyedMove → Option KeyedState
  | .begin input id =>
    if input.idempotencyKey = key ∧ (∀ call ∈ s.calls, call.id ≠ id) ∧
        ∀ existing ∈ s.existing orgId key, existing.nodeId ≠ id then
      some { s with calls := s.calls ++ [⟨input, id, .begun, false, false⟩] }
    else none
  | .lookup i now => do
    let call ← s.calls[i]?
    match call.phase with
    | .begun => some (s.put i (call.lookup s.db orgId now))
    | _ => none
  | .prepare i prepared now => do
    let call ← s.calls[i]?
    match call.phase with
    | .unanswered =>
      some (s.put i { call with phase := .planned (createPlan orgId call.id call.input prepared now) })
    | _ => none
  | .attempt i aborted times reported => do
    let call ← s.calls[i]?
    match call.phase with
    | .planned plan =>
      let (db, call') := call.attempt env s.db plan aborted times reported
      some ⟨db, s.calls.set i call'⟩
    | _ => none
  | .view i stored => do
    let call ← s.calls[i]?
    match call.phase with
    | .found nodeId =>
      some (s.put i { call with phase := if stored then .returned nodeId true else .unanswered })
    | .applied nodeId =>
      some (s.put i { call with
        phase := if stored then .returned nodeId (decide (nodeId ≠ call.id)) else .failed })
    | _ => none
  | .fail i => do
    let call ← s.calls[i]?
    match call.phase with
    | .returned _ _ | .refused _ => none
    | _ => some (s.put i { call with phase := .failed })
  | .other db =>
    if db.idempotency.get ⟨orgId, key⟩ = s.existing orgId key then some { s with db := db } else none

/-! ### The property -/

/-- The refusals of the read inside the transaction. -/
def refusedForKey (refusal : Refusal) : Prop :=
  refusal.reason = "the idempotency key was used with a different request" ∨
    ∃ nodeId : UUID, refusal.reason =
      s!"the idempotency record identifies node {nodeId.text}, which does not exist"

/-- The call returned or was refused for its key. -/
def CreateCall.Answered (call : CreateCall) : Prop :=
  (∃ nodeId existed, call.phase = .returned nodeId existed) ∨
    ∃ refusal, call.phase = .refused refusal ∧ refusedForKey refusal

/-- The call is refused with a conflict when it looks for the record or runs its transaction now. -/
structure CreateCall.Refused (env : Env) (call : CreateCall) (db : Db) (orgId : UUID)
    (existing : IdempotencyRecord) : Prop where
  created : call.created = false
  returned : ∀ nodeId existed, call.phase ≠ .returned nodeId existed
  lookup : ∀ now, idempotencyRecordExpired existing now = false →
    ∃ refusal, (call.lookup db orgId now).phase = .refused refusal ∧ refusal.sentinel = .conflict
  attempt : ∀ plan aborted times reported, call.phase = .planned plan →
    ∃ refusal, call.attempt env db plan aborted times reported =
      (db, { call with phase := .refused refusal }) ∧ refusal.sentinel = .conflict

/-- One call at most creates a node; every call that returned has the node of the record, which is the
created one, and it reports an existing node unless it created it; and a call with another fingerprint
than the record's is refused. -/
structure CreatedOnce (env : Env) (orgId : UUID) (key : String) (s : KeyedState) : Prop where
  once : ∀ (i j : ℕ) (call call' : CreateCall), s.calls[i]? = some call → s.calls[j]? = some call' →
    call.created = true → call'.created = true → i = j
  node : ∀ call ∈ s.calls, call.created = true →
    ∃ existing, s.existing orgId key = some existing ∧ existing.nodeId = call.id
  returned : ∀ call ∈ s.calls, ∀ nodeId existed, call.phase = .returned nodeId existed →
    existed = !call.created ∧ ∃ existing, s.existing orgId key = some existing ∧ existing.nodeId = nodeId
  refused : ∀ call ∈ s.calls, ∀ existing, s.existing orgId key = some existing →
    idempotencyFingerprintConflict existing.fingerprint call.input.idempotencyFingerprint = true →
    call.Refused env s.db orgId existing

/-- A call that found the record expired is treated like the first use of the key. -/
structure CreateCall.FirstUse (call : CreateCall) : Prop where
  returned : ∀ nodeId existed, call.phase = .returned nodeId existed →
    call.created = true ∧ nodeId = call.id ∧ existed = false
  refused : ∀ refusal, call.phase = .refused refusal → ¬refusedForKey refusal

/-- Inside the window a key creates once, and after it a call is a first use again. -/
def KeyedCreates (env : Env) (orgId : UUID) (key : String) (s : KeyedState) : Prop :=
  ((∀ call ∈ s.calls, call.expired = false) → CreatedOnce env orgId key s) ∧
    ∀ call ∈ s.calls, call.expired = true → call.FirstUse

/-! ### What holds of every call -/

/-- The node that a call has read or written. -/
def CreatePhase.node : CreatePhase → Option UUID
  | found nodeId | applied nodeId | returned nodeId _ => some nodeId
  | _ => none

/-- The call has made no attempt. -/
def CreatePhase.early : CreatePhase → Bool
  | begun | found _ | unanswered => true
  | _ => false

/-- What a call of a run knows about the record of the key. -/
structure CreateCall.Ok (orgId : UUID) (key : String) (existing : Option IdempotencyRecord)
    (call : CreateCall) : Prop where
  keyed : call.input.idempotencyKey = key
  early : call.phase.early = true → call.created = false
  begun : call.phase = .begun → call.expired = false
  answered : ∀ nodeId, call.phase.node = some nodeId → ∃ r, existing = some r ∧ r.nodeId = nodeId ∧
    idempotencyFingerprintConflict r.fingerprint call.input.idempotencyFingerprint = false
  existed : ∀ nodeId existed, call.phase = .returned nodeId existed → existed = !call.created
  planned : ∀ plan, call.phase = .planned plan →
    ∃ prepared now, plan = createPlan orgId call.id call.input prepared now
  created : call.created = true →
    ∃ r, existing = some r ∧ r.nodeId = call.id ∧ r.fingerprint = call.input.idempotencyFingerprint
  owner : ∀ r, existing = some r → r.nodeId = call.id → call.created = true
  expired : call.expired = true → existing ≠ none ∧ call.created = false

/-! ### The two decisions -/

section Decisions

variable {env : Env} {orgId : UUID} {key : String} {db : Db} {call : CreateCall}

theorem fingerprintConflict_iff {existing incoming : String} :
    idempotencyFingerprintConflict existing incoming = true ↔
      existing ≠ "" ∧ incoming ≠ "" ∧ existing ≠ incoming := decide_eq_true_iff

/-- A fingerprint does not conflict with itself. -/
theorem fingerprintConflict_self (fingerprint : String) :
    idempotencyFingerprintConflict fingerprint fingerprint = false := by
  rw [Bool.eq_false_iff]
  intro h
  exact (fingerprintConflict_iff.mp h).2.2 rfl

/-- The stamp of a plan. -/
theorem createPlan_idempotency {id : UUID} {input : CreateInput} {prepared : Prepared} {now : Time}
    (hkey : input.idempotencyKey ≠ "") :
    (createPlan orgId id input prepared now).idempotency = some
      { key := input.idempotencyKey
        nodeId := id
        fingerprint := input.idempotencyFingerprint
        createdAt := now.utc
        source := input.idempotencySource } := if_neg hkey

/-- The read inside the transaction does not know the window. -/
theorem readCreateIdempotency_createPlan (db : Db) (orgId id : UUID) (input : CreateInput)
    (prepared : Prepared) (now : Time) (hkey : input.idempotencyKey ≠ "") :
    readCreateIdempotency db (createPlan orgId id input prepared now) =
      match db.idempotency.get ⟨orgId, input.idempotencyKey⟩ with
      | none => .ok false
      | some existing =>
        if idempotencyFingerprintConflict existing.fingerprint input.idempotencyFingerprint then
          .error ⟨.conflict, "the idempotency key was used with a different request"⟩
        else if (readMutationSource db orgId existing.nodeId).isNone then
          .error ⟨.conflict,
            s!"the idempotency record identifies node {existing.nodeId.text}, which does not exist"⟩
        else .ok true := by
  rw [readCreateIdempotency, createPlan_idempotency hkey]
  show (match db.idempotency.get ⟨orgId, input.idempotencyKey⟩ with | none => _ | some existing => _) = _
  cases db.idempotency.get ⟨orgId, input.idempotencyKey⟩ with
  | none => rfl
  | some existing => exact if_congr fingerprintConflict_iff.symm rfl rfl

theorem receiptNode_createPlan (db : Db) (orgId id : UUID) (input : CreateInput) (prepared : Prepared)
    (now : Time) (hkey : input.idempotencyKey ≠ "") :
    receiptNode db (createPlan orgId id input prepared now) =
      match db.idempotency.get ⟨orgId, input.idempotencyKey⟩ with
      | some existing => existing.nodeId
      | none => id := by
  rw [receiptNode, createPlan_idempotency hkey]
  rfl

/-- An attempt that refuses at the record. -/
theorem runCall_mutate_refused {plan : MutationPlan} {aborted : List (StepTimes × Db)}
    {times : StepTimes} {refusal : Refusal} (h : readCreateIdempotency db plan = .error refusal) :
    runCall env ⟨.mutate plan, aborted, times⟩ db = .error refusal := by
  have hattempt : (Call.mutate plan).attempt env times ⟨db, []⟩ = .error refusal ⟨db, []⟩ := by
    refine (Tx.bind_of_ok _ (startAttempt_ok (u := ()).mpr rfl)).trans ?_
    exact Tx.bind_of_error _ (Tx.read_of_error h)
  rw [runCall, Call.attempt_forgets, hattempt]

/-- **What an attempt does**: it refuses, or the record answers it, or there is no record and it
creates the node. -/
theorem CreateCall.attempt_cases (env : Env) (call : CreateCall) (db : Db)
    (aborted : List (StepTimes × Db)) (times : StepTimes) (reported : Bool) {prepared : Prepared}
    {at_ : Time} {plan : MutationPlan}
    (hplan : plan = createPlan orgId call.id call.input prepared at_)
    (hkey : call.input.idempotencyKey ≠ "") :
    (∃ refusal, call.attempt env db plan aborted times reported =
        (db, { call with phase := .refused refusal })) ∨
      (∃ existing, db.idempotency.get ⟨orgId, call.input.idempotencyKey⟩ = some existing ∧
        idempotencyFingerprintConflict existing.fingerprint call.input.idempotencyFingerprint = false ∧
        call.attempt env db plan aborted times reported = (db, { call with
          phase := if reported then .applied existing.nodeId else .planned plan })) ∨
      ∃ db' created, db.idempotency.get ⟨orgId, call.input.idempotencyKey⟩ = none ∧
        db'.idempotency.get ⟨orgId, call.input.idempotencyKey⟩ = some created ∧
        created.nodeId = call.id ∧ created.fingerprint = call.input.idempotencyFingerprint ∧
        call.attempt env db plan aborted times reported = (db', { call with
          phase := if reported then .applied call.id else .planned plan, created := true }) := by
  subst hplan
  have hread := readCreateIdempotency_createPlan db orgId call.id call.input prepared at_ hkey
  have hreceipt := receiptNode_createPlan db orgId call.id call.input prepared at_ hkey
  generalize hplan : createPlan orgId call.id call.input prepared at_ = plan at *
  rw [CreateCall.attempt]
  cases hrun : runCall env ⟨.mutate plan, aborted, times⟩ db with
  | error refusal => exact .inl ⟨refusal, rfl⟩
  | ok t =>
    right
    dsimp only
    have happly := applyMutation_ok (runCall_ok.mp hrun)
    cases hget : db.idempotency.get ⟨orgId, call.input.idempotencyKey⟩ with
    | some existing =>
      rw [hget] at hread hreceipt
      dsimp only at hread
      left
      cases hconflict : idempotencyFingerprintConflict existing.fingerprint
          call.input.idempotencyFingerprint with
      | true =>
        rw [hconflict, if_pos rfl] at hread
        rw [runCall_mutate_refused hread] at hrun
        cases hrun
      | false =>
        have hfresh : readCreateIdempotency db plan ≠ .ok false := by
          rw [hread, hconflict, if_neg (by simp)]
          split_ifs <;> simp
        obtain ⟨-, rfl⟩ | ⟨hfalse, -⟩ := happly
        · refine ⟨existing, rfl, hconflict, ?_⟩
          rw [hreceipt, decide_eq_false hfresh, Bool.or_false]
        · exact absurd hfalse hfresh
    | none =>
      rw [hget] at hread hreceipt
      right
      obtain ⟨htrue, -⟩ | ⟨-, checked, stored, refs, edges, edgeChanges, hspec⟩ := happly
      · rw [hread] at htrue
        cases htrue
      · have hidempotency : t.db.idempotency =
            withIdempotency db.idempotency plan.orgId plan.idempotency := by rw [hspec.db]
        rw [← hplan, createPlan_idempotency hkey] at hidempotency
        refine ⟨t.db, _, rfl, (congrArg (Table.get · _) hidempotency).trans (Table.get_set_self _ _ _),
          rfl, rfl, ?_⟩
        rw [hreceipt, hread, decide_eq_true rfl, Bool.or_true]

end Decisions

/-! ### Every run -/

section Runs

variable {env : Env} {orgId : UUID} {key : String} {s s' : KeyedState} {call : CreateCall}

variable {r : IdempotencyRecord} {existing : Option IdempotencyRecord} {db : Db} {i : ℕ} {call' : CreateCall}

/-- A call that another call's record did not answer so far. -/
theorem CreateCall.Ok.of_stamped (h : call.Ok orgId key none)
    (hid : r.nodeId ≠ call.id) : call.Ok orgId key (some r) where
  keyed := h.keyed
  early := h.early
  begun := h.begun
  answered nodeId hnode := by
    obtain ⟨_, hnone, -⟩ := h.answered nodeId hnode
    cases hnone
  existed := h.existed
  planned := h.planned
  created hcreated := by
    obtain ⟨_, hnone, -⟩ := h.created hcreated
    cases hnone
  owner r' hr' hown := by
    cases hr'
    exact absurd hown hid
  expired hexpired := absurd rfl (h.expired hexpired).1

/-- A call in a later phase. -/
theorem CreateCall.Ok.withPhase {phase : CreatePhase} (h : call.Ok orgId key existing) (hbegun : phase ≠ .begun)
    (hearly : phase.early = true → call.phase.early = true)
    (hanswered : ∀ nodeId, phase.node = some nodeId → ∃ r, existing = some r ∧ r.nodeId = nodeId ∧
      idempotencyFingerprintConflict r.fingerprint call.input.idempotencyFingerprint = false)
    (hexisted : ∀ nodeId existed, phase = .returned nodeId existed → existed = !call.created)
    (hplanned : ∀ plan, phase = .planned plan →
      ∃ prepared now, plan = createPlan orgId call.id call.input prepared now) :
    { call with phase := phase }.Ok orgId key existing where
  keyed := h.keyed
  early := fun hphase => h.early (hearly hphase)
  begun := fun hphase => absurd hphase hbegun
  answered := hanswered
  existed := hexisted
  planned := hplanned
  created := h.created
  owner := h.owner
  expired := h.expired

/-- A call that ends, or that goes on without an answer, in a phase that names no node. -/
theorem CreateCall.Ok.ended {phase : CreatePhase}
    (h : call.Ok orgId key existing) (hphase : phase = .failed ∨ ∃ refusal, phase = .refused refusal) :
    { call with phase := phase }.Ok orgId key existing := by
  obtain rfl | ⟨refusal, rfl⟩ := hphase <;>
    exact h.withPhase (by simp) (by simp [CreatePhase.early]) (by simp [CreatePhase.node]) (by simp)
      (by simp)

theorem CreateCall.id_lookup (call : CreateCall) (db : Db) (orgId : UUID) (now : Time) :
    (call.lookup db orgId now).id = call.id := by
  rw [CreateCall.lookup]
  cases lookupExistingCreate db orgId call.input now <;> rfl

/-- The lookup of a call. -/
theorem CreateCall.Ok.lookup {now : Time} (h : call.Ok orgId key (db.idempotency.get ⟨orgId, key⟩)) (hkey : key ≠ "")
    (hphase : call.phase = .begun) :
    (call.lookup db orgId now).Ok orgId key (db.idempotency.get ⟨orgId, key⟩) := by
  have hearly : call.phase.early = true := by rw [hphase]; rfl
  have hunanswered : { call with phase := .unanswered }.Ok orgId key (db.idempotency.get ⟨orgId, key⟩) :=
    h.withPhase (by simp) (fun _ => hearly) (by simp [CreatePhase.node]) (by simp) (by simp)
  rw [CreateCall.lookup, lookupExistingCreate, h.keyed, if_neg hkey]
  cases hget : db.idempotency.get ⟨orgId, key⟩ with
  | none =>
    rw [hget] at hunanswered
    exact hunanswered
  | some r =>
    rw [hget] at h hunanswered
    dsimp only
    cases hexpired : idempotencyRecordExpired r now with
    | true =>
      exact { hunanswered with
        begun := by simp
        expired := fun _ => ⟨by simp, h.early hearly⟩ }
    | false =>
      cases hconflict : idempotencyFingerprintConflict r.fingerprint
          call.input.idempotencyFingerprint with
      | true => exact h.ended (.inr ⟨_, rfl⟩)
      | false =>
        refine h.withPhase (by simp) (fun _ => hearly) (fun nodeId hnode => ?_) (by simp) (by simp)
        exact ⟨r, rfl, Option.some.inj hnode, hconflict⟩

/-- The node that the lookup found is read. -/
theorem CreateCall.Ok.viewFound {nodeId : UUID} {stored : Bool}
    (h : call.Ok orgId key existing) (hphase : call.phase = .found nodeId) :
    { call with phase := if stored then .returned nodeId true else .unanswered }.Ok orgId key existing := by
  have hearly : call.phase.early = true := by rw [hphase]; rfl
  cases stored with
  | true =>
    refine h.withPhase (by simp) (by simp [CreatePhase.early]) (fun n hn => ?_) (fun n existed hn => ?_)
      (by simp)
    · exact h.answered n (by rw [hphase]; exact hn)
    · cases hn
      rw [h.early hearly]
      rfl
  | false =>
    exact h.withPhase (by simp) (fun _ => hearly) (by simp [CreatePhase.node]) (by simp) (by simp)

/-- The node of the receipt is read: it is the one that the call created, or an existing one. -/
theorem CreateCall.Ok.viewApplied {nodeId : UUID} {stored : Bool}
    (h : call.Ok orgId key existing) (hphase : call.phase = .applied nodeId) :
    { call with phase := if stored then .returned nodeId (decide (nodeId ≠ call.id)) else .failed }.Ok
      orgId key existing := by
  cases stored with
  | false => exact h.ended (.inl rfl)
  | true =>
    refine h.withPhase (by simp) (by simp [CreatePhase.early]) (fun n hn => ?_) (fun n existed hn => ?_)
      (by simp)
    · exact h.answered n (by rw [hphase]; exact hn)
    · cases hn
      obtain ⟨r, hr, hnode, -⟩ := h.answered nodeId (by rw [hphase]; rfl)
      cases hcreated : call.created with
      | true =>
        obtain ⟨r', hr', hown, -⟩ := h.created hcreated
        rw [hr] at hr'
        cases hr'
        exact decide_eq_false fun hne => hne (hnode.symm.trans hown)
      | false =>
        refine decide_eq_true fun heq => ?_
        rw [h.owner r hr (hnode.trans heq)] at hcreated
        cases hcreated

/-- The calls have different IDs, and each knows the record. -/
structure KeyedInv (orgId : UUID) (key : String) (s : KeyedState) : Prop where
  ids : (s.calls.map CreateCall.id).Nodup
  calls : ∀ call ∈ s.calls, call.Ok orgId key (s.existing orgId key)

theorem map_id_set {calls : List CreateCall} (h : calls[i]? = some call)
    (hid : call'.id = call.id) : (calls.set i call').map CreateCall.id = calls.map CreateCall.id := by
  rw [List.map_set, hid]
  refine List.ext_getElem? fun j => ?_
  rw [List.getElem?_set]
  split_ifs with hij hlt
  · rw [← hij, List.getElem?_map, h]
    rfl
  · rw [← hij, List.getElem?_eq_none (not_lt.mp hlt)]
  · rfl

/-- Two calls with one ID are one call. -/
theorem KeyedInv.index_eq {j : ℕ} (hinv : KeyedInv orgId key s)
    (hi : s.calls[i]? = some call) (hj : s.calls[j]? = some call') (hid : call.id = call'.id) :
    i = j := by
  have hmap : (s.calls.map CreateCall.id)[i]? = (s.calls.map CreateCall.id)[j]? := by
    rw [List.getElem?_map, List.getElem?_map, hi, hj, Option.map_some, Option.map_some, hid]
  have hlt : i < (s.calls.map CreateCall.id).length := by
    rw [List.length_map]
    exact (List.getElem?_eq_some_iff.mp hi).1
  exact (List.getElem?_inj hlt hinv.ids).mp hmap

/-- A call goes on and the record stays. -/
theorem KeyedInv.put (hinv : KeyedInv orgId key s) (hcall : s.calls[i]? = some call) (hid : call'.id = call.id)
    (hok : call'.Ok orgId key (s.existing orgId key)) : KeyedInv orgId key (s.put i call') where
  ids := (map_id_set hcall hid).symm ▸ hinv.ids
  calls c hc := by
    obtain hc | rfl := List.mem_or_eq_of_mem_set hc
    · exact hinv.calls c hc
    · exact hok

/-- A call goes on and stamps the key. -/
theorem KeyedInv.stamp (hinv : KeyedInv orgId key s) (hcall : s.calls[i]? = some call) (hid : call'.id = call.id)
    (hnone : s.existing orgId key = none) (hr : db.idempotency.get ⟨orgId, key⟩ = some r)
    (hown : r.nodeId = call.id) (hok : call'.Ok orgId key (some r)) :
    KeyedInv orgId key ⟨db, s.calls.set i call'⟩ where
  ids := (map_id_set hcall hid).symm ▸ hinv.ids
  calls c hc := by
    rw [KeyedState.existing, hr]
    obtain ⟨j, hj⟩ := List.mem_iff_getElem?.mp hc
    rw [List.getElem?_set] at hj
    split_ifs at hj with hij hlt
    · cases hj
      exact hok
    · have hother : c.Ok orgId key none := hnone ▸ hinv.calls c (List.mem_of_getElem? hj)
      exact hother.of_stamped fun heq => hij (hinv.index_eq hcall hj (hown.symm.trans heq))

/-- An attempt of a call. -/
theorem KeyedInv.attempt {plan : MutationPlan} {aborted : List (StepTimes × Db)}
    {times : StepTimes} {reported : Bool} (hinv : KeyedInv orgId key s) (hkey : key ≠ "")
    (hcall : s.calls[i]? = some call) (hphase : call.phase = .planned plan) :
    KeyedInv orgId key ⟨(call.attempt env s.db plan aborted times reported).1,
      s.calls.set i (call.attempt env s.db plan aborted times reported).2⟩ := by
  have hok := hinv.calls call (List.mem_of_getElem? hcall)
  obtain ⟨prepared, now, hplan⟩ := hok.planned plan hphase
  obtain ⟨refusal, h⟩ | ⟨r, hr, hconflict, h⟩ | ⟨db, r, hnone, hr, hown, hfingerprint, h⟩ :=
    call.attempt_cases env s.db aborted times reported hplan (hok.keyed ▸ hkey)
  · rw [h]
    exact hinv.put hcall rfl (hok.ended (.inr ⟨refusal, rfl⟩))
  · rw [h]
    refine hinv.put hcall rfl ?_
    cases reported with
    | true =>
      refine hok.withPhase (by simp) (by simp [CreatePhase.early]) (fun nodeId hnode => ?_) (by simp)
        (by simp)
      exact ⟨r, hok.keyed ▸ hr, Option.some.inj hnode, hconflict⟩
    | false =>
      exact hok.withPhase (by simp) (by simp [CreatePhase.early]) (by simp [CreatePhase.node]) (by simp)
        fun p hp => ⟨prepared, now, (CreatePhase.planned.inj hp).symm.trans hplan⟩
  · rw [h]
    rw [hok.keyed] at hnone hr
    refine hinv.stamp hcall rfl hnone hr hown ?_
    exact
      { keyed := hok.keyed
        early := by cases reported <;> simp [CreatePhase.early]
        begun := by cases reported <;> simp
        answered := fun nodeId hnode => by
          cases reported with
          | true =>
            refine ⟨r, rfl, hown.trans (Option.some.inj hnode), ?_⟩
            rw [hfingerprint]
            exact fingerprintConflict_self _
          | false => cases hnode
        existed := by cases reported <;> simp
        planned := fun p hp => by
          cases reported with
          | true => cases hp
          | false => exact ⟨prepared, now, (CreatePhase.planned.inj hp).symm.trans hplan⟩
        created := fun _ => ⟨r, rfl, hown, hfingerprint⟩
        owner := fun _ _ _ => rfl
        expired := fun hexpired => absurd hnone (hok.expired hexpired).1 }

/-- **A step keeps the invariant.** -/
theorem KeyedInv.step {move : KeyedMove} (hinv : KeyedInv orgId key s) (hkey : key ≠ "")
    (h : keyedStep env orgId key s move = some s') : KeyedInv orgId key s' := by
  cases move with
  | begin input id =>
    rw [keyedStep] at h
    split_ifs at h with hnew
    cases h
    obtain ⟨hinput, hids, hexisting⟩ := hnew
    refine ⟨?_, fun c hc => ?_⟩
    · rw [List.map_append, List.map_singleton, List.nodup_append]
      refine ⟨hinv.ids, List.nodup_singleton _, fun a ha b hb => ?_⟩
      obtain ⟨c, hc, rfl⟩ := List.mem_map.mp ha
      exact List.mem_singleton.mp hb ▸ hids c hc
    · obtain hc | hc := List.mem_append.mp hc
      · exact hinv.calls c hc
      · obtain rfl := List.mem_singleton.mp hc
        exact
          { keyed := hinput
            early := fun _ => rfl
            begun := fun _ => rfl
            answered := by simp [CreatePhase.node]
            existed := by simp
            planned := by simp
            created := by simp
            owner := fun r hr hown => absurd hown (hexisting r hr)
            expired := by simp }
  | lookup i now =>
    obtain ⟨call, hcall, h⟩ := Option.bind_eq_some_iff.mp h
    split at h
    · next hphase =>
      cases h
      exact hinv.put hcall (call.id_lookup s.db orgId now) ((hinv.calls call (List.mem_of_getElem? hcall)).lookup hkey hphase)
    · cases h
  | prepare i prepared now =>
    obtain ⟨call, hcall, h⟩ := Option.bind_eq_some_iff.mp h
    split at h
    · next hphase =>
      cases h
      refine hinv.put hcall rfl ((hinv.calls call (List.mem_of_getElem? hcall)).withPhase (by simp)
        (by simp [CreatePhase.early]) (by simp [CreatePhase.node]) (by simp) fun plan heq => ?_)
      cases heq
      exact ⟨prepared, now, rfl⟩
    · cases h
  | attempt i aborted times reported =>
    obtain ⟨call, hcall, h⟩ := Option.bind_eq_some_iff.mp h
    split at h
    · next plan hphase =>
      cases h
      exact hinv.attempt hkey hcall hphase
    · cases h
  | view i stored =>
    obtain ⟨call, hcall, h⟩ := Option.bind_eq_some_iff.mp h
    have hok := hinv.calls call (List.mem_of_getElem? hcall)
    split at h
    · next nodeId hphase =>
      cases h
      exact hinv.put hcall rfl (hok.viewFound hphase)
    · next nodeId hphase =>
      cases h
      exact hinv.put hcall rfl (hok.viewApplied hphase)
    · cases h
  | fail i =>
    obtain ⟨call, hcall, h⟩ := Option.bind_eq_some_iff.mp h
    have hok := hinv.calls call (List.mem_of_getElem? hcall)
    split at h
    · cases h
    · cases h
    · cases h
      exact hinv.put hcall rfl (hok.ended (.inl rfl))
  | other db =>
    rw [keyedStep] at h
    split_ifs at h with hsame
    cases h
    refine ⟨hinv.ids, fun c hc => ?_⟩
    rw [KeyedState.existing, hsame]
    exact hinv.calls c hc

theorem keyedInv_of_reach (hkey : key ≠ "")
    (h : Reach (keyedStep env orgId key) anyMove ⟨db, []⟩ s) : KeyedInv orgId key s := by
  have h0 : KeyedInv orgId key ⟨db, []⟩ := ⟨List.nodup_nil, fun _ hc => absurd hc List.not_mem_nil⟩
  exact h.invariant (I := KeyedInv orgId key) h0 fun hu _ hs => hu.step hkey hs

/-- A call with another fingerprint than the record's is refused wherever it meets the record. -/
theorem CreateCall.Ok.refused (hok : call.Ok orgId key (some r))
    (hkey : key ≠ "") (hget : db.idempotency.get ⟨orgId, key⟩ = some r)
    (hconflict : idempotencyFingerprintConflict r.fingerprint call.input.idempotencyFingerprint = true) :
    call.Refused env db orgId r where
  created := by
    rw [Bool.eq_false_iff]
    intro hcreated
    obtain ⟨r', hr', -, hfingerprint⟩ := hok.created hcreated
    cases hr'
    rw [hfingerprint, fingerprintConflict_self] at hconflict
    cases hconflict
  returned nodeId existed hphase := by
    obtain ⟨r', hr', -, hnot⟩ := hok.answered nodeId (by rw [hphase]; rfl)
    cases hr'
    rw [hnot] at hconflict
    cases hconflict
  lookup now hexpired := by
    rw [CreateCall.lookup, lookupExistingCreate, hok.keyed, if_neg hkey, hget]
    dsimp only
    rw [hexpired, if_neg (by simp), if_pos hconflict]
    exact ⟨_, rfl, rfl⟩
  attempt plan aborted times reported hphase := by
    obtain ⟨prepared, now, rfl⟩ := hok.planned plan hphase
    have hread := readCreateIdempotency_createPlan db orgId call.id call.input prepared now
      (hok.keyed ▸ hkey)
    rw [hok.keyed, hget] at hread
    dsimp only at hread
    rw [if_pos hconflict] at hread
    rw [CreateCall.attempt, runCall_mutate_refused hread]
    exact ⟨_, rfl, rfl⟩

theorem KeyedInv.createdOnce (hinv : KeyedInv orgId key s) (hkey : key ≠ "") :
    CreatedOnce env orgId key s where
  once i j ci cj hi hj hci hcj := by
    obtain ⟨r, hr, hown, -⟩ := (hinv.calls ci (List.mem_of_getElem? hi)).created hci
    obtain ⟨r', hr', hown', -⟩ := (hinv.calls cj (List.mem_of_getElem? hj)).created hcj
    rw [hr] at hr'
    cases hr'
    exact hinv.index_eq hi hj (hown.symm.trans hown')
  node c hc hcreated := by
    obtain ⟨r, hr, hown, -⟩ := (hinv.calls c hc).created hcreated
    exact ⟨r, hr, hown⟩
  returned c hc nodeId existed hphase := by
    obtain ⟨r, hr, hnode, -⟩ := (hinv.calls c hc).answered nodeId (by rw [hphase]; rfl)
    exact ⟨(hinv.calls c hc).existed nodeId existed hphase, r, hr, hnode⟩
  refused c hc r hr hconflict := by
    have hok := hinv.calls c hc
    rw [hr] at hok
    exact hok.refused hkey hr hconflict

end Runs

/-- **Creates with one key.**  From every database and in every run one call at most creates a node,
and every other call that returns has that node; a call that found the record expired creates nothing.
So a key is used again after its window exactly as long as no such call is answered. -/
theorem keyed_creates_iff (env : Env) (orgId : UUID) {key : String} (hkey : key ≠ "") (db : Db)
    {s : KeyedState} (h : Reach (keyedStep env orgId key) anyMove ⟨db, []⟩ s) :
    CreatedOnce env orgId key s ∧ (∀ call ∈ s.calls, call.expired = true → call.created = false) ∧
      (KeyedCreates env orgId key s ↔ ∀ call ∈ s.calls, call.expired = true → ¬call.Answered) := by
  have hinv := keyedInv_of_reach hkey h
  have hexpired : ∀ call ∈ s.calls, call.expired = true → call.created = false :=
    fun call hcall hcallExpired => ((hinv.calls call hcall).expired hcallExpired).2
  refine ⟨hinv.createdOnce hkey, hexpired, fun hkeyed call hcall hcallExpired hanswered => ?_,
    fun hnone => ⟨fun _ => hinv.createdOnce hkey, fun call hcall hcallExpired => ?_⟩⟩
  · obtain ⟨nodeId, existed, hphase⟩ | ⟨refusal, hphase, hrefused⟩ := hanswered
    · have hcreated := ((hkeyed.2 call hcall hcallExpired).returned nodeId existed hphase).1
      rw [hexpired call hcall hcallExpired] at hcreated
      cases hcreated
    · exact (hkeyed.2 call hcall hcallExpired).refused refusal hphase hrefused
  · have hunanswered := hnone call hcall hcallExpired
    exact ⟨fun nodeId existed hphase => absurd (.inl ⟨nodeId, existed, hphase⟩) hunanswered,
      fun refusal hphase hrefused => hunanswered (.inr ⟨refusal, hphase, hrefused⟩)⟩

/-- The lookups come before the record of the key expires. -/
def InWindow (orgId : UUID) (key : String) (s : KeyedState) : KeyedMove → Prop
  | .lookup _ now => ∀ existing ∈ s.existing orgId key, idempotencyRecordExpired existing now = false
  | _ => True

/-- Such a lookup does not find the record expired. -/
theorem CreateCall.expired_lookup {call : CreateCall} {orgId : UUID} {now : Time} {db : Db}
    (h : call.expired = false) (hnow : ∀ existing ∈ db.idempotency.get ⟨orgId, call.input.idempotencyKey⟩,
      idempotencyRecordExpired existing now = false) : (call.lookup db orgId now).expired = false := by
  rw [CreateCall.lookup, lookupExistingCreate]
  split_ifs with hkey
  · exact h
  · cases hget : db.idempotency.get ⟨orgId, call.input.idempotencyKey⟩ with
    | none => exact h
    | some existing =>
      simp only [hnow existing hget, Bool.false_eq_true, if_false]
      split_ifs <;> exact h

theorem expired_step {env : Env} {orgId : UUID} {key : String} {s s' : KeyedState} {move : KeyedMove}
    (hinv : KeyedInv orgId key s) (h : ∀ call ∈ s.calls, call.expired = false)
    (hmove : InWindow orgId key s move) (hstep : keyedStep env orgId key s move = some s') :
    ∀ call ∈ s'.calls, call.expired = false := by
  have hput : ∀ {i : ℕ} {call' : CreateCall}, call'.expired = false →
      ∀ call ∈ s.calls.set i call', call.expired = false := by
    intro i call' hcall' call hcall
    rcases List.mem_or_eq_of_mem_set hcall with hold | rfl
    · exact h call hold
    · exact hcall'
  cases move with
  | begin input id =>
    obtain ⟨-, hstep⟩ := Option.ite_none_right_eq_some.mp hstep
    cases hstep
    intro call hcall
    rcases List.mem_append.mp hcall with hold | hnew
    · exact h call hold
    · rw [List.mem_singleton.mp hnew]
  | other db =>
    obtain ⟨-, hstep⟩ := Option.ite_none_right_eq_some.mp hstep
    cases hstep
    exact h
  | lookup i now =>
    obtain ⟨call, hcall, hstep⟩ := Option.bind_eq_some_iff.mp hstep
    have hmem := List.mem_of_getElem? hcall
    split at hstep
    · cases hstep
      exact hput (CreateCall.expired_lookup (h call hmem) ((hinv.calls call hmem).keyed ▸ hmove))
    · cases hstep
  | prepare i _ _ | view i _ | fail i =>
    obtain ⟨call, hcall, hstep⟩ := Option.bind_eq_some_iff.mp hstep
    have hkept := h call (List.mem_of_getElem? hcall)
    split at hstep <;> cases hstep <;> exact hput hkept
  | attempt i aborted times reported =>
    obtain ⟨call, hcall, hstep⟩ := Option.bind_eq_some_iff.mp hstep
    have hkept := h call (List.mem_of_getElem? hcall)
    split at hstep
    · cases hstep
      refine hput ?_
      split <;> exact hkept
    · cases hstep

/-- **Inside the window the key is kept**: when no lookup comes after the record expired, a key creates
once in every run. -/
theorem keyed_creates_in_window (env : Env) (orgId : UUID) {key : String} (hkey : key ≠ "") (db : Db)
    {s : KeyedState} (h : Reach (keyedStep env orgId key) (InWindow orgId key) ⟨db, []⟩ s) :
    KeyedCreates env orgId key s ∧ CreatedOnce env orgId key s := by
  have hboth : KeyedInv orgId key s ∧ ∀ call ∈ s.calls, call.expired = false := by
    refine h.invariant (I := fun s => KeyedInv orgId key s ∧ ∀ call ∈ s.calls, call.expired = false)
      ?_ fun hu hmove hstep => ⟨hu.1.step hkey hstep, expired_step hu.1 hu.2 hmove hstep⟩
    exact ⟨⟨List.nodup_nil, by simp⟩, by simp⟩
  have honce : CreatedOnce env orgId key s := hboth.1.createdOnce hkey
  exact ⟨⟨fun _ => honce, fun call hcall hexpired =>
    absurd ((hboth.2 call hcall).symm.trans hexpired) Bool.false_ne_true⟩, honce⟩

/-- An organization with a type and a node to create under; the properties that every create adds are
declared. -/
def keyedDb : Db :=
  { Db.empty with
    nodeTypes := Table.empty.set ⟨1, 3⟩ ⟨3, 1, "task", [], [], [], [], ""⟩
    nodeTypesByKey := Table.empty.set ⟨1, "task", 3⟩ ()
    propertyDefs :=
      (Table.empty.set (⟨1, 4⟩ : OrgKey) (⟨4, 1, "parent_id", .uuid, [], false, [], false, "", ""⟩ : PropertyDef)).set
        ⟨1, 6⟩ ⟨6, 1, "scope_id", .uuid, [], false, [], false, "", ""⟩ }.putNode
      ⟨5, 1, "task", "", .empty, 9, 9, Time.zero, Time.zero⟩

/-- A create by an agent under node 5. -/
def keyedInput : CreateInput :=
  { parentId := 5
    nodeTypeKey := "task"
    name := "n"
    actorId := 9
    idempotencyKey := "k"
    idempotencyFingerprint := "f"
    idempotencySource := "mcp" }

/-- A call that begins and looks for the record at the hour. -/
def keyedLookup (i : ℕ) (id : UUID) (hour : ℤ) : List KeyedMove :=
  [.begin keyedInput id, .lookup i ⟨hour * Time.hour, 0⟩]

/-- The properties that `copyCreateProps` stamps for a create under node 5. -/
def keyedProps : Props :=
  let parent := "\"" ++ (5 : UUID).text ++ "\""
  (Table.empty.set "parent_id" parent).set "scope_id" parent

/-- The transaction of a call; its preparation read the epoch of the schema and the parent. -/
def keyedApply (i : ℕ) (hour : ℤ) : List KeyedMove :=
  let now : Time := ⟨hour * Time.hour, 0⟩
  [.prepare i ⟨0, [⟨5, 0⟩], keyedProps, some [], []⟩ now, .attempt i [] ⟨now, now⟩ true, .view i true]

/-- What a call returned, whether it found the record expired, and whether it created. -/
def CreateCall.outcome (call : CreateCall) : Option (UUID × Bool) × Bool × Bool :=
  (match call.phase with
    | .returned nodeId existed => some (nodeId, existed)
    | _ => none, call.expired, call.created)

theorem CreateCall.phase_of_outcome {call : CreateCall} {nodeId : UUID} {existed expired created : Bool}
    (h : call.outcome = (some (nodeId, existed), expired, created)) :
    call.phase = .returned nodeId existed ∧ call.expired = expired ∧ call.created = created := by
  obtain ⟨input, id, phase, expired', created'⟩ := call
  cases phase <;> simp_all [CreateCall.outcome]

/-- The second call comes an hour after the first one and is answered by its record. -/
theorem keyed_creates_iff_example : ∃ s, Reach (keyedStep .constant 1 "k") anyMove ⟨keyedDb, []⟩ s ∧
    s.calls.map CreateCall.outcome = [(some (11, false), false, true), (some (11, true), false, false)] ∧
    KeyedCreates .constant 1 "k" s := by
  obtain ⟨s, hreach, hrun⟩ := exists_reach_of_run (keyedStep .constant 1 "k") ⟨keyedDb, []⟩
    (keyedLookup 0 11 1 ++ keyedApply 0 1 ++ keyedLookup 1 12 2 ++ [.view 1 true])
    (fun s => s.calls.map CreateCall.outcome =
      [(some (11, false), false, true), (some (11, true), false, false)]) (by decide +kernel)
  have hcalls := of_decide_eq_true hrun
  refine ⟨s, hreach, hcalls,
    (keyed_creates_iff .constant 1 (by decide) keyedDb hreach).2.2.mpr fun call hcall hexpired => ?_⟩
  have hmem := List.mem_map_of_mem (f := CreateCall.outcome) hcall
  rw [hcalls, List.mem_cons, List.mem_singleton] at hmem
  obtain h | h := hmem <;>
    · rw [(CreateCall.phase_of_outcome h).2.1] at hexpired
      cases hexpired

/-- The second call comes 25 hours after the first one; its lookup takes the record for expired, and
its transaction answers with the node of the record. -/
theorem keyed_create_replays_expired : ∃ s,
    Reach (keyedStep .constant 1 "k") anyMove ⟨keyedDb, []⟩ s ∧
    s.calls.map CreateCall.outcome = [(some (11, false), false, true), (some (11, true), true, false)] ∧
    ¬KeyedCreates .constant 1 "k" s := by
  obtain ⟨s, hreach, hrun⟩ := exists_reach_of_run (keyedStep .constant 1 "k") ⟨keyedDb, []⟩
    (keyedLookup 0 11 1 ++ keyedApply 0 1 ++ keyedLookup 1 12 26 ++ keyedApply 1 26)
    (fun s => s.calls.map CreateCall.outcome =
      [(some (11, false), false, true), (some (11, true), true, false)]) (by decide +kernel)
  have hcalls := of_decide_eq_true hrun
  refine ⟨s, hreach, hcalls, fun hkeyed => ?_⟩
  have hmem : (some (11, true), true, false) ∈ s.calls.map CreateCall.outcome := by
    rw [hcalls]
    exact .tail _ (.head _)
  obtain ⟨call, hcall, houtcome⟩ := List.mem_map.mp hmem
  obtain ⟨hphase, hexpired, hcreated⟩ := CreateCall.phase_of_outcome houtcome
  have hfirst := ((hkeyed.2 call hcall hexpired).returned 11 true hphase).1
  rw [hcreated] at hfirst
  cases hfirst

end Tack.Nodes

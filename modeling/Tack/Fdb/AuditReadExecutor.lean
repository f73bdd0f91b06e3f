import Tack.Fdb.AuditReadStore
import Tack.Lib.Run

/-!
# Calls, recovery and cleanup of audited reads

`executeReads` of `ExecuteRead` and `ExecuteReadGroup` step by step, with the recovery and cleanup of
every instance and the acknowledgments of the relay, as one transition system over the read store.

A transaction is one step of the system.  Its answer reaches the caller or not, and a transaction
whose answer was lost may take effect late, also after its caller gave up: `Action.begin` and
`Action.finalize` run a transaction of any attempt that was made, with or without delivering the
answer.  Every transaction reads a clock of its own.

## Main definitions

* `AuditRead.prepareRead`, `AuditRead.readCompletion` — the final event of a read.
* `AuditRead.Call` — a call of `executeReads` with its steps.
* `AuditRead.Action`, `AuditRead.step` — the transition system.
-/

namespace Tack.AuditRead

open Lib Audit

variable (env : Env)

/-! ### The final event of a read -/

/-- A terminal outcome with the failure code and message of an unsuccessful one. -/
structure OutcomeDetails where
  outcome : Outcome
  failureCode : String
  failureMessage : String
  committedSteps : List String
  deriving DecidableEq, Repr

/-- What the encoder of a result does. -/
inductive Encoding
  /-- The result has no encoder. -/
  | missing
  | failed
  | payload (bytes : Bytes)
  deriving DecidableEq, Repr

/-- What a read returns: its targets, also by organization, its count and its encoder. -/
structure ReadResult where
  targets : List Target
  orgTargets : UUID → List Target
  count : ℕ
  encoding : Encoding
  contentType : String
  outcome : OutcomeDetails

structure EncodedRead where
  payload : Bytes
  contentType : String
  evidence : ReadEvidence
  deriving DecidableEq, Repr

def noEncodedRead : EncodedRead := ⟨[], "", ⟨0, "", "", "", 0⟩⟩

structure PreparedRead where
  encoded : EncodedRead
  outcome : OutcomeDetails
  targets : List Target
  hasResult : Bool
  encodeFailed : Bool
  deriving DecidableEq, Repr

def readPayloadFormatDefault : String := "application/octet-stream"

def failedEncoding : PreparedRead :=
  ⟨noEncodedRead, ⟨.failed, "encode_failed", "the server could not encode the read result", []⟩, [],
    false, true⟩

/-- Encodes the result and computes the digest of the payload; `none` is a read that failed. -/
def prepareRead (result : Option ReadResult) : PreparedRead :=
  match result with
  | none =>
    ⟨noEncodedRead, ⟨.failed, "read_failed", "the read failed", []⟩, [], false, false⟩
  | some result =>
    match result.encoding with
    | .missing => failedEncoding
    | .failed => failedEncoding
    | .payload payload =>
      let format := if result.contentType = "" then readPayloadFormatDefault else result.contentType
      let outcome := if result.outcome.outcome = "" then
          { result.outcome with outcome := .completed }
        else result.outcome
      ⟨⟨payload, result.contentType, ⟨result.count, env.sha.hex payload, format, "", 0⟩⟩, outcome,
        result.targets, true, false⟩

/-- `ExecuteRead` or `ExecuteReadGroup`. -/
inductive CallKind
  | single
  | group
  deriving DecidableEq, Repr

/-- The targets and the count that the event of an admission records. -/
def selectTargets (kind : CallKind) (result : ReadResult) (a : ReadAdmission) : List Target × ℕ :=
  match kind with
  | .single => (result.targets, result.count)
  | .group =>
    let targets := result.orgTargets a.template.context.orgId
    (targets, targets.length)

/-- The prepared read with the targets of an admission. -/
def preparedFor (kind : CallKind) (result : Option ReadResult) (a : ReadAdmission) :
    PreparedRead :=
  let prepared := prepareRead env result
  match result with
  | none => prepared
  | some r =>
    if prepared.hasResult then
      let (targets, count) := selectTargets kind r a
      { prepared with
        targets := targets
        encoded := { prepared.encoded with
          evidence := { prepared.encoded.evidence with count := count } } }
    else prepared

/-- The evidence of the final event, with the manifest of the targets when it completed and returned
any. -/
def finalEvidence (prepared : PreparedRead) :
    Except ReadError (Option ReadEvidence × List Target) :=
  if !prepared.hasResult then .ok (none, [])
  else
    let evidence := prepared.encoded.evidence
    if prepared.outcome.outcome ≠ .completed then .ok (some { evidence with count := 0 }, [])
    else if evidence.count > 0 ∨ prepared.targets ≠ [] then
      match readManifestDigest env.codec env.sha prepared.targets with
      | .error e => .error (.encode (.manifest e))
      | .ok (digest, parts) =>
        .ok (some { evidence with manifestSHA256 := digest, manifestParts := parts },
          prepared.targets)
    else .ok (some evidence, [])

/-- The final event without its evidence. -/
def finalEvent (now : Time) (template : Event) (prepared : PreparedRead)
    (read : Option ReadEvidence) : Event :=
  let completedAt :=
    if now.before template.context.startedAt then template.context.startedAt else now.utc
  { template with
    outcome := prepared.outcome.outcome
    occurredAt := completedAt
    error := if prepared.outcome.outcome ≠ .completed then
        some ⟨prepared.outcome.failureCode, prepared.outcome.failureMessage⟩
      else none
    context := { template.context with
      completedAt := completedAt
      committedSteps := prepared.outcome.committedSteps
      read := read } }

/-- Builds the final event from the template and the prepared result, and its digest. -/
def readCompletion (now : Time) (token : ReadToken) (template : Event) (prepared : PreparedRead) :
    Except ReadError ReadCompletion :=
  match finalEvidence env prepared with
  | .error e => .error e
  | .ok (read, targets) =>
    let final := finalEvent now template prepared read
    match validateAndEncode env final targets with
    | .error e => .error e
    | .ok encoded => .ok ⟨token, final, targets, encoded.transportDigest⟩

/-! ### Calls -/

/-- Where a call of `executeReads` is. -/
inductive Pc
  /-- Before `admitRead` of the admission at the index. -/
  | admitOne (i : ℕ)
  /-- Inside the retry loop of `admitRead`. -/
  | beginning (i : ℕ) (deadline : Time)
  /-- Every admission is saved; the read runs and the leases are renewed. -/
  | reading
  /-- Before the final event of the admission at the index is built. -/
  | completing (i : ℕ) (deadline : Time)
  /-- Inside the retry loop of `finalizeRead`. -/
  | finalizing (i : ℕ) (deadline : Time)
  /-- Returned a payload, or an error. -/
  | returned (r : Option EncodedRead)
  /-- Stopped without returning. -/
  | stopped
  deriving DecidableEq, Repr

structure Call where
  kind : CallKind
  admissions : List ReadAdmission
  /-- The number of admissions that `BeginRead` was attempted for. -/
  attempts : ℕ
  tokens : List ReadToken
  /-- What the read returned, once it has. -/
  result : Option (Option ReadResult)
  completions : List ReadCompletion
  pc : Pc

namespace Call

variable (call : Call)

def setPc (pc : Pc) : Call := { call with pc := pc }

/-- A new call; without an admission it returns an error at once. -/
def new (kind : CallKind) (admissions : List ReadAdmission) : Call :=
  ⟨kind, admissions, 0, [], none, [], if admissions.isEmpty then .returned none else .admitOne 0⟩

/-- The check of `admitRead` before its first attempt. -/
def admitOne (now : Time) : Option Call :=
  match call.pc with
  | .admitOne i =>
    (call.admissions[i]?).map fun a =>
      match validateReadAdmission a with
      | .error _ => call.setPc (.returned none)
      | .ok () =>
        { call with attempts := i + 1, pc := .beginning i (now.add readAdmissionRetryWindow) }
  | _ => none

/-- The answer of `BeginRead` for the admission at `i` arrives. -/
def begun (i : ℕ) (answer : Except ReadError ReadToken) : Option Call :=
  match call.pc with
  | .beginning j _ =>
    if i ≠ j then none
    else match answer with
      | .ok token => some { call with
          tokens := call.tokens ++ [token]
          pc := if i + 1 < call.admissions.length then .admitOne (i + 1) else .reading }
      | .error e =>
        if e = .ownerLost ∨ e = .admissionExpired then some (call.setPc (.returned none))
        else some call
  | _ => none

/-- `waitToRetry`: another attempt can start before the deadline. -/
def canRetry (now deadline : Time) : Bool := !(now.add readRetryInterval).after deadline

/-- An attempt failed without a final answer: the call tries again or gives up. -/
def failed (now : Time) : Option Call :=
  match call.pc with
  | .beginning _ deadline =>
    some (if canRetry now deadline then call else call.setPc (.returned none))
  | .finalizing _ deadline =>
    some (if canRetry now deadline then call else call.setPc (.returned none))
  | _ => none

/-- The read returns. -/
def readReturned (result : Option ReadResult) (now : Time) : Option Call :=
  match call.pc with
  | .reading => some { call with
      result := some result
      pc := .completing 0 (now.add readFinalizeTimeout) }
  | _ => none

/-- The final event of the next admission is built. -/
def complete (now : Time) : Option Call :=
  match call.pc, call.result with
  | .completing i deadline, some result =>
    match call.admissions[i]?, call.tokens[i]? with
    | some a, some token =>
      match readCompletion env now token a.template (preparedFor env call.kind result a) with
      | .error _ => some (call.setPc (.returned none))
      | .ok completion => some { call with
          completions := call.completions ++ [completion]
          pc := .finalizing i deadline }
    | _, _ => none
  | _, _ => none

/-- What the call returns once every final event is saved. -/
def returnValue (result : Option ReadResult) : Option EncodedRead :=
  let prepared := prepareRead env result
  if result.isNone || prepared.encodeFailed then none
  else some { prepared.encoded with
    evidence := (call.completions.head?.bind fun c => c.event.context.read).getD
      prepared.encoded.evidence }

/-- The answer of `FinalizeRead` for the admission at `i` arrives. -/
def finalized (i : ℕ) (answer : Except ReadError Unit) : Option Call :=
  match call.pc, call.result with
  | .finalizing j deadline, some result =>
    if i ≠ j then none
    else match answer with
      | .ok () => some (call.setPc
          (if i + 1 < call.admissions.length then .completing (i + 1) deadline
          else .returned (call.returnValue env result)))
      | .error e =>
        if e = .ownerLost ∨ e = .identityChanged then some (call.setPc (.returned none))
        else some call
  | _, _ => none

/-- The call stops where it is. -/
def stop : Option Call :=
  match call.pc with
  | .returned _ => none
  | _ => some (call.setPc .stopped)

end Call

/-! ### The system -/

/-- Calls, recovery workers and the store; `admitted` remembers the reads that were ever admitted. -/
structure State where
  store : Store
  calls : ℕ → Option Call
  /-- The candidates a worker has still to recover. -/
  workers : ℕ → List TimeKey
  admitted : UUID → Bool

def State.start : State := ⟨.empty, fun _ => none, fun _ => [], fun _ => false⟩

def State.setCall (s : State) (c : ℕ) (call : Call) : State :=
  { s with calls := Function.update s.calls c (some call) }

inductive Action
  | start (c : ℕ) (kind : CallKind) (admissions : List ReadAdmission)
  | admitOne (c : ℕ) (now : Time)
  /-- A `BeginRead` transaction of the admission at `i` takes effect. -/
  | begin (c i : ℕ) (now : Time) (delivered : Bool)
  | failed (c : ℕ) (now : Time)
  /-- A `RenewRead` transaction of the token at `i` takes effect. -/
  | renew (c i : ℕ) (now : Time)
  | read (c : ℕ) (result : Option ReadResult) (now : Time)
  | complete (c : ℕ) (now : Time)
  /-- A `FinalizeRead` transaction of the completion at `i` takes effect. -/
  | finalize (c i : ℕ) (delivered : Bool)
  | stop (c : ℕ)
  /-- A worker reads the expired candidates of a bucket. -/
  | scan (w bucket limit : ℕ) (now : Time)
  /-- The `recoverOne` transaction of a worker's next candidate takes effect. -/
  | recover (w : ℕ) (now : Time) (delivered : Bool)
  | acknowledge (reads : List PublishedRead) (now : Time)
  | cleanup (bucket limit : ℕ) (now : Time)

/-- A step of a call that does not touch the store. -/
def localStep (s : State) (c : ℕ) (f : Call → Option Call) : Option State :=
  ((s.calls c).bind f).map (s.setCall c)

/-- The effect of a `BeginRead` transaction. -/
def beginStep (s : State) (c i : ℕ) (now : Time) (delivered : Bool) : Option State :=
  match s.calls c with
  | none => none
  | some call =>
    match call.admissions[i]? with
    | none => none
    | some a =>
      if i < call.attempts then
        match beginRead env now a s.store with
        | .error e =>
          if delivered then (call.begun i (.error e)).map (s.setCall c) else some s
        | .ok (token, store) =>
          let s' := { s with
            store := store
            admitted := Function.update s.admitted a.token.eventId true }
          if delivered then (call.begun i (.ok token)).map (s'.setCall c) else some s'
      else none

/-- The effect of a `FinalizeRead` transaction. -/
def finalizeStep (s : State) (c i : ℕ) (delivered : Bool) : Option State :=
  match s.calls c with
  | none => none
  | some call =>
    match call.completions[i]? with
    | none => none
    | some completion =>
      match finalizeRead env completion s.store with
      | .error e =>
        if delivered then (call.finalized env i (.error e)).map (s.setCall c) else some s
      | .ok store =>
        let s' := { s with store := store }
        if delivered then (call.finalized env i (.ok ())).map (s'.setCall c) else some s'

/-- The effect of a `RenewRead` transaction; its answer is only logged. -/
def renewStep (s : State) (c i : ℕ) (now : Time) : Option State :=
  ((s.calls c).bind fun call => call.tokens[i]?).map fun token =>
    match renewRead env now token s.store with
    | .error _ => s
    | .ok store => { s with store := store }

/-- The effect of a `recoverOne` transaction.  A failure ends the scan of the worker. -/
def recoverStep (s : State) (w : ℕ) (now : Time) (delivered : Bool) : Option State :=
  match s.workers w with
  | [] => none
  | key :: rest =>
    match recoverOne env now key s.store with
    | .error _ =>
      some (if delivered then { s with workers := Function.update s.workers w [] } else s)
    | .ok (_, store) => some { s with
        store := store
        workers := if delivered then Function.update s.workers w rest else s.workers }

def step (s : State) : Action → Option State
  | .start c kind admissions =>
    if (s.calls c).isSome then none else some (s.setCall c (.new kind admissions))
  | .admitOne c now => localStep s c (·.admitOne now)
  | .begin c i now delivered => beginStep env s c i now delivered
  | .failed c now => localStep s c (·.failed now)
  | .renew c i now => renewStep env s c i now
  | .read c result now => localStep s c (·.readReturned result now)
  | .complete c now => localStep s c (·.complete env now)
  | .finalize c i delivered => finalizeStep env s c i delivered
  | .stop c => localStep s c (·.stop)
  | .scan w bucket limit now =>
    if bucket < readRecoveryBuckets then
      some { s with
        workers := Function.update s.workers w (dueKeys s.store.expiry bucket now.unixNano limit) }
    else none
  | .recover w now delivered => recoverStep env s w now delivered
  | .acknowledge reads now =>
    some (match acknowledgeReads env now reads s.store with
      | .error _ => s
      | .ok store => { s with store := store })
  | .cleanup bucket limit now =>
    if bucket < readRecoveryBuckets then
      some { s with store := cleanupPublished now bucket limit s.store }
    else none

end Tack.AuditRead

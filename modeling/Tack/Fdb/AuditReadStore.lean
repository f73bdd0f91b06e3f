import Mathlib
import Tack.Audit.EventParts

/-!
# The read store

An audited read is admitted before it runs and recorded by one terminal event before its payload
leaves.  FoundationDB holds the reads in four key families: pending records, their expiry keys,
terminal receipts and the cleanup keys of published receipts.  This file models the families with
the transactions on them.  A transaction that fails leaves the store as it was.

## Main definitions

* `AuditRead.Store` — the four families, and the terminal events ever appended to the outbox.
* `AuditRead.beginRead`, `AuditRead.renewRead`, `AuditRead.finalizeRead`, `AuditRead.recoverOne`,
  `AuditRead.acknowledgeReads`, `AuditRead.cleanupPublished` — the transactions.
-/

namespace Tack.AuditRead

open Lib Audit

/-- The parameters of the model: JSON and SHA-256. -/
structure Env where
  codec : Codec
  sha : Sha256
  json : JsonReader

/-! ### Records -/

/-- One owner of one pending read. -/
structure ReadToken where
  eventId : UUID
  owner : UUID
  generation : ℕ
  admissionDeadline : Time
  deriving DecidableEq, Repr

structure ReadAdmission where
  token : ReadToken
  template : Event
  deriving DecidableEq, Repr

structure ReadCompletion where
  token : ReadToken
  event : Event
  targets : List Target
  digest : String
  deriving DecidableEq, Repr

/-- An event that Kafka acknowledged. -/
structure PublishedRead where
  eventId : UUID
  digest : String
  deriving DecidableEq, Repr

/-- An admitted read until a terminal event is saved. -/
structure Pending where
  owner : UUID
  generation : ℕ
  admissionDeadline : Time
  leaseDeadline : Time
  template : Bytes
  deriving DecidableEq, Repr

/-- The terminal receipt of a read; `publishedAt` is zero until its event is published. -/
structure Receipt where
  owner : UUID
  generation : ℕ
  digest : String
  outcome : Outcome
  publishedAt : Time
  deriving DecidableEq, Repr

/-- A key of the expiry or the cleanup family: bucket, time and event ID. -/
structure TimeKey where
  bucket : ℕ
  time : ℤ
  eventId : UUID
  deriving DecidableEq, Repr

/-- A terminal event in the outbox. -/
structure Entry where
  event : Event
  digest : String
  deriving DecidableEq, Repr

/-- The read lifecycle keys, and the terminal events ever appended to the outbox. -/
structure Store where
  pending : UUID → Option Pending
  expiry : List TimeKey
  receipts : UUID → Option Receipt
  cleanup : List TimeKey
  outbox : List Entry

def Store.empty : Store := ⟨fun _ => none, [], fun _ => none, [], []⟩

/-- Why a read operation fails. -/
inductive ReadError
  /-- The token does not own the pending read. -/
  | ownerLost
  /-- The admission retry deadline passed. -/
  | admissionExpired
  /-- The final event changes fields that must match the admission template. -/
  | identityChanged
  /-- Event ID and owner must not be nil. -/
  | admissionIdentity
  /-- Template event ID differs from the token. -/
  | templateEventId
  /-- Template requires format 2. -/
  | templateFormat
  /-- Template requires the read class and phase. -/
  | templateClass
  /-- Template requires an organization, an operation, and a start time. -/
  | templateContext
  /-- Template requires a target. -/
  | templateTarget
  | encodeTemplate
  | decodeTemplate
  /-- Only recovery saves the incomplete outcome. -/
  | incompleteOutcome
  | contract (v : ContractViolation)
  | encode (e : EncodeError)
  /-- Digest differs from the encoded event. -/
  | digestMismatch
  /-- The outbox transaction would contain too many entries. -/
  | outboxLimit
  /-- Digest differs from the receipt digest. -/
  | acknowledgedDigest
  deriving DecidableEq, Repr

/-! ### Times and keys -/

def readRecoveryBuckets : ℕ := 64

def readLease : Time.Duration := 30 * Time.second

def readAdmissionRetryWindow : Time.Duration := 30 * Time.second

def readReceiptRetention : Time.Duration := Time.hour

def readFinalizeTimeout : Time.Duration := 30 * Time.second

def readRetryInterval : Time.Duration := 250 * Time.millisecond

def readFirstGeneration : ℕ := 1

/-- The recovery bucket of a read. -/
def readBucket (env : Env) (id : UUID) : ℕ :=
  ((env.sha.sum id.bytes).headD 0).val % readRecoveryBuckets

/-- The expiry key of a lease. -/
def expiryKey (env : Env) (id : UUID) (deadline : Time) : TimeKey :=
  ⟨readBucket env id, deadline.unixNano, id⟩

/-- The cleanup key of a publication. -/
def cleanupKey (env : Env) (id : UUID) (published : Time) : TimeKey :=
  ⟨readBucket env id, published.unixNano, id⟩

/-- Sets a key without value. -/
def setKey (keys : List TimeKey) (k : TimeKey) : List TimeKey := if k ∈ keys then keys else k :: keys

def clearKey (keys : List TimeKey) (k : TimeKey) : List TimeKey := keys.filter (· ≠ k)

/-- The first `limit` keys of a bucket up to a time, in key order. -/
def dueKeys (keys : List TimeKey) (bucket : ℕ) (horizon : ℤ) (limit : ℕ) : List TimeKey :=
  let due := keys.filter fun k => k.bucket = bucket ∧ k.time ≤ horizon
  (due.insertionSort fun k l =>
    k.time < l.time ∨ k.time = l.time ∧ k.eventId ≤ l.eventId).take limit

namespace Store

variable (env : Env) (s : Store)

/-- `writePending`: the record and its expiry key. -/
def writePending (id : UUID) (p : Pending) : Store :=
  { s with
    pending := Function.update s.pending id (some p)
    expiry := setKey s.expiry (expiryKey env id p.leaseDeadline) }

/-- `clearPending`: the record and its expiry key. -/
def clearPending (id : UUID) (p : Pending) : Store :=
  { s with
    pending := Function.update s.pending id none
    expiry := clearKey s.expiry (expiryKey env id p.leaseDeadline) }

def writeReceipt (id : UUID) (r : Receipt) : Store :=
  { s with receipts := Function.update s.receipts id (some r) }

def append (e : Entry) : Store := { s with outbox := s.outbox ++ [e] }

end Store

/-! ### Admission -/

def validateReadAdmission (a : ReadAdmission) : Except ReadError Unit :=
  let context := a.template.context
  if a.token.eventId = .nil ∨ a.token.owner = .nil then .error .admissionIdentity
  else if a.template.eventId ≠ a.token.eventId then .error .templateEventId
  else if context.auditFormatVersion ≠ auditFormatComplete then .error .templateFormat
  else if context.operationClass ≠ .read ∨ context.phase ≠ .read then .error .templateClass
  else if context.orgId = .nil ∨ context.operationId = .nil ∨ context.startedAt.isZero then
    .error .templateContext
  else if context.target.isNone then .error .templateTarget
  else .ok ()

/-- The saved token, for a retry by the same owner with the same template at or before the admission
deadline. -/
def retriedAdmission (id : UUID) (p : Pending) (owner : UUID) (template : Bytes) (now : Time) :
    Except ReadError ReadToken :=
  if p.owner ≠ owner ∨ p.template ≠ template then .error .ownerLost
  else if now.after p.admissionDeadline then .error .admissionExpired
  else .ok ⟨id, p.owner, p.generation, p.admissionDeadline⟩

/-- A new pending record. -/
def newPending (owner : UUID) (template : Bytes) (now : Time) : Pending :=
  ⟨owner, readFirstGeneration, now.add readAdmissionRetryWindow, now.add readLease, template⟩

variable (env : Env)

/-- The transaction of `BeginRead`. -/
def beginTransaction (now : Time) (id owner : UUID) (template : Bytes) (s : Store) :
    Except ReadError (ReadToken × Store) :=
  match s.pending id with
  | some p => (retriedAdmission id p owner template now).map fun token => (token, s)
  | none =>
    match s.receipts id with
    | some _ => .error .ownerLost
    | none =>
      let p := newPending owner template now
      .ok (⟨id, p.owner, p.generation, p.admissionDeadline⟩, s.writePending env id p)

def beginRead (now : Time) (a : ReadAdmission) (s : Store) : Except ReadError (ReadToken × Store) :=
  match validateReadAdmission a with
  | .error e => .error e
  | .ok () =>
    match env.codec.event a.template with
    | none => .error .encodeTemplate
    | some template => beginTransaction env now a.token.eventId a.token.owner template s

/-! ### Renewal -/

/-- The token owns the pending record. -/
def Pending.ownedBy (p : Pending) (token : ReadToken) : Bool :=
  p.owner == token.owner && p.generation == token.generation

/-- The transaction of `RenewRead`. -/
def renewRead (now : Time) (token : ReadToken) (s : Store) : Except ReadError Store :=
  match s.pending token.eventId with
  | none => .error .ownerLost
  | some p =>
    if p.ownedBy token then
      let cleared :=
        { s with expiry := clearKey s.expiry (expiryKey env token.eventId p.leaseDeadline) }
      .ok (cleared.writePending env token.eventId { p with leaseDeadline := now.add readLease })
    else .error .ownerLost

/-! ### Finalization -/

/-- Finalization keeps the actor, the event identity, the operation context and the start time. -/
def sameReadIdentity (template final : Event) : Bool :=
  template.eventId == final.eventId && template.verb == final.verb &&
    template.actor == final.actor && template.context.orgId == final.context.orgId &&
    template.context.operationId == final.context.operationId &&
    template.context.parentOperationId == final.context.parentOperationId &&
    template.context.startedAt.equal final.context.startedAt &&
    template.context.auditFormatVersion == final.context.auditFormatVersion &&
    template.context.operationClass == final.context.operationClass &&
    template.context.phase == final.context.phase

/-- `ValidateEvent` and `EncodeEvent` in a row. -/
def validateAndEncode (event : Event) (targets : List Target) : Except ReadError EncodedEvent :=
  match validateEvent env.json event with
  | .error v => .error (.contract v)
  | .ok () => (encodeEvent env.codec env.sha event targets).mapError .encode

def checkReadCompletion (template : Event) (completion : ReadCompletion) :
    Except ReadError EncodedEvent :=
  if !sameReadIdentity template completion.event then .error .identityChanged
  else if completion.event.outcome = .incomplete then .error .incompleteOutcome
  else match validateAndEncode env completion.event completion.targets with
    | .error e => .error e
    | .ok encoded =>
      if encoded.transportDigest ≠ completion.digest then .error .digestMismatch else .ok encoded

/-- The number of distinct user versions in one transaction. -/
def outboxEntriesPerTransaction : ℕ := 65536

/-- The records of an encoded event fit in one transaction. -/
def fitsOutbox (encoded : EncodedEvent) : Bool :=
  (if encoded.multipart then encoded.parts.length + 1 else 1) ≤ outboxEntriesPerTransaction

/-- Saves a terminal event with its receipt and removes the pending record. -/
def saveTerminal (id : UUID) (p : Pending) (event : Event) (encoded : EncodedEvent)
    (generation : ℕ) (s : Store) : Except ReadError Store :=
  if fitsOutbox encoded then
    .ok (((s.append ⟨event, encoded.transportDigest⟩).clearPending env id p).writeReceipt id
      ⟨p.owner, generation, encoded.transportDigest, event.outcome, .zero⟩)
  else .error .outboxLimit

/-- A receipt of the same owner with the same digest confirms an earlier commit. -/
def confirmsReadCommit (r : Receipt) (completion : ReadCompletion) : Bool :=
  r.owner == completion.token.owner && r.digest == completion.digest && r.outcome != .incomplete

/-- The transaction of `FinalizeRead`. -/
def finalizeRead (completion : ReadCompletion) (s : Store) : Except ReadError Store :=
  let token := completion.token
  match s.pending token.eventId with
  | none =>
    if (s.receipts token.eventId).any (confirmsReadCommit · completion) then .ok s
    else .error .ownerLost
  | some p =>
    if !p.ownedBy token then .error .ownerLost
    else match env.codec.unmarshalEvent p.template with
      | none => .error .decodeTemplate
      | some template =>
        match checkReadCompletion env template completion with
        | .error e => .error e
        | .ok encoded => saveTerminal env token.eventId p completion.event encoded token.generation s

/-! ### Recovery -/

/-- The event of a read whose owner stopped renewing. -/
def incompleteReadEvent (template : Event) (completedAt : Time) : Event :=
  { template with
    context := { template.context with
      completedAt :=
        if completedAt.before template.context.startedAt then template.context.startedAt
        else completedAt.utc
      read := none }
    delta := none
    outcome := .incomplete
    error := some ⟨"read_owner_expired",
      "the read owner stopped renewing before it saved a final event"⟩ }

/-- The transaction of `recoverOne`; the answer says whether it saved a terminal event. -/
def recoverOne (now : Time) (key : TimeKey) (s : Store) : Except ReadError (Bool × Store) :=
  match s.pending key.eventId with
  | none => .ok (false, { s with expiry := clearKey s.expiry key })
  | some p =>
    if p.leaseDeadline.unixNano ≠ key.time then
      .ok (false, { s with expiry := clearKey s.expiry key })
    else if p.leaseDeadline.after now then .ok (false, s)
    else match env.codec.unmarshalEvent p.template with
      | none => .error .decodeTemplate
      | some template =>
        let event := incompleteReadEvent template now
        match validateAndEncode env event [] with
        | .error e => .error e
        | .ok encoded =>
          (saveTerminal env key.eventId p event encoded (p.generation + 1) s).map fun s' => (true, s')

/-! ### Publication and cleanup -/

/-- Marks one receipt as published. -/
def acknowledgeRead (now : Time) (s : Store) (read : PublishedRead) : Except ReadError Store :=
  match s.receipts read.eventId with
  | none => .ok s
  | some r =>
    if r.digest ≠ read.digest then .error .acknowledgedDigest
    else if !r.publishedAt.isZero then .ok s
    else
      let written := s.writeReceipt read.eventId { r with publishedAt := now }
      .ok { written with cleanup := setKey written.cleanup (cleanupKey env read.eventId now) }

/-- The transaction of `AcknowledgePublished`. -/
def acknowledgeReads (now : Time) (reads : List PublishedRead) (s : Store) :
    Except ReadError Store :=
  reads.foldlM (acknowledgeRead env now) s

/-- Deletes the receipt of a cleanup key, when the key is that of its publication, and the key. -/
def cleanupOne (s : Store) (key : TimeKey) : Store :=
  let matching := (s.receipts key.eventId).any fun r =>
    !r.publishedAt.isZero && r.publishedAt.unixNano == key.time
  { s with
    receipts := if matching then Function.update s.receipts key.eventId none else s.receipts
    cleanup := clearKey s.cleanup key }

/-- The transaction of `CleanupPublished`. -/
def cleanupPublished (now : Time) (bucket limit : ℕ) (s : Store) : Store :=
  (dueKeys s.cleanup bucket (now.add (-readReceiptRetention)).unixNano limit).foldl cleanupOne s

end Tack.AuditRead

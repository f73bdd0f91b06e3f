import Tack.Audit.Event
import Tack.Lib.Hex
import Tack.Lib.Tx

/-!
# The event contract

`ValidateEvent` and the checks it is made of.  Each constructor of `ContractViolation` is one error
message of the source with the values it prints.

The readings of JSON texts that the checks of protected values use are a parameter: nothing here
depends on what they answer.

## Main definitions

* `Audit.validateEvent` — the check of every writer.
* `Audit.validateStoredEvent` — the same check without the protected values, which a ledger row
  does not hold.
-/

namespace Tack.Audit

open Lib

/-- Why an event is refused. -/
inductive ContractViolation
  | unsupportedFormat (version : ℕ)
  /-- Format 0 event cannot set format 2 context fields. -/
  | completeContextField
  /-- Format 0 event cannot set a format 2 outcome. -/
  | completeOutcome (outcome : Outcome)
  /-- Format 0 event cannot use the unauthenticated actor kind. -/
  | legacyUnauthenticated
  /-- Format 0 event cannot set protected values. -/
  | legacyProtected
  /-- Format 2 event requires an event ID, a verb, and an occurrence time. -/
  | identityMissing
  /-- Format 2 event requires an org ID, an operation ID, and a start time. -/
  | operationMissing
  | targetMissing
  | outcomeMissing
  /-- Unauthenticated actor requires a nil actor ID and the system org. -/
  | unauthenticatedActor
  /-- Format 2 event requires a known actor kind and a non-nil actor ID. -/
  | unknownActor
  /-- Node target requires ID and NodeType. -/
  | nodeTarget
  /-- Relationship target requires SourceID, TargetID, and RelationType. -/
  | relationshipTarget
  /-- Resource target requires URI. -/
  | resourceTarget
  /-- External target requires Reference. -/
  | externalTarget
  | unsupportedTargetKind (kind : Bytes)
  /-- Only a resource target can state an owner. -/
  | targetOwner
  /-- Event entity type and ID must match the target kind and ID. -/
  | entityMismatch
  | unsupportedClass (cls : OperationClass)
  /-- The phase is invalid for the operation class. -/
  | invalidPhase (phase : Phase) (cls : OperationClass)
  /-- Intent phase event requires the pending outcome. -/
  | intentOutcome
  | notTerminal (outcome : Outcome)
  /-- Change phase event requires the completed outcome. -/
  | changeOutcome
  /-- Terminal events require a completion time and pending events cannot set one. -/
  | completionTime
  /-- Completion time cannot precede the start time. -/
  | completionBeforeStart
  /-- The outcome requires an error exactly when it is unsuccessful. -/
  | errorPresence (outcome : Outcome)
  /-- Unsuccessful event error requires a code. -/
  | errorCode
  /-- Outcome partially_completed requires at least one committed step. -/
  | stepsMissing
  /-- The outcome does not allow committed steps. -/
  | stepsPresent (outcome : Outcome)
  | undefinedOutcome (outcome : Outcome)
  /-- Only read class events can set read evidence. -/
  | readEvidenceClass
  /-- Change phase event requires an old or new value. -/
  | changeValueMissing
  /-- Read class event cannot set a delta. -/
  | readDelta
  /-- Completed or partially completed read requires read evidence. -/
  | readEvidenceMissing
  /-- Read evidence requires a valid payload SHA-256 digest and a payload format. -/
  | payloadEvidence
  /-- Read evidence with returned identities requires a valid manifest SHA-256 digest. -/
  | manifestEvidence
  /-- Delta has an invalid protected reference. -/
  | invalidReference
  | repeatedReference (ref : UUID)
  /-- Protected values require a target. -/
  | protectedTarget
  /-- The delta has another number of references than protected values. -/
  | protectedCount (references values : ℕ)
  | protectedSubject (ref subject : UUID)
  /-- The protected value does not have a reference in the delta. -/
  | protectedReferenceMissing (ref : UUID)
  | protectedValueInvalid (ref : UUID)
  deriving DecidableEq, Repr

/-- A check: nothing, or the violation it found. -/
abbrev Check := Except ContractViolation Unit

/-! ### Digests in hexadecimal -/

/-- The length of a SHA-256 digest in hexadecimal. -/
def sha256HexLength : ℕ := 64

def isSHA256Hex (value : String) : Bool :=
  value.toList.length == sha256HexLength &&
    (hexDecode value.toList).any fun decoded => hexEncode decoded == value.toList

/-! ### The checks of a format 0 event -/

/-- The event sets a context field that only format 2 events can set. -/
def hasCompleteContextField (context : EventContext) : Bool :=
  (context.operationClass != "" || context.phase != "" ||
    context.operationId != .nil || context.parentOperationId != .nil) ||
  (!context.startedAt.isZero || !context.completedAt.isZero) ||
  (context.target.isSome || context.read.isSome || !context.committedSteps.isEmpty ||
    context.selection.isSome) ||
  (context.httpMethod != "" || context.requestPath != "")

def validateLegacyEvent (event : Event) : Check := do
  refuseIf (hasCompleteContextField event.context) .completeContextField
  refuseIf (isTerminalOutcome event.outcome) (.completeOutcome event.outcome)
  refuseIf (event.actor.type == .unauthenticated) .legacyUnauthenticated
  refuseIf (!event.protectedValues.isEmpty) .legacyProtected

/-! ### The checks of a format 2 event -/

def validateActor (event : Event) : Check :=
  if event.actor.type = .unauthenticated then
    refuseIf (event.actor.id != .nil || event.context.orgId != systemOrgId) .unauthenticatedActor
  else
    refuseIf (actorKindCode event.actor.type == 0 || event.actor.id == .nil) .unknownActor

/-- The fields that the kind of a target requires. -/
def validateTargetKind (target : Target) : Check :=
  if target.kind = TargetKind.node then
    refuseIf (target.id == .nil || target.nodeType.isEmpty) .nodeTarget
  else if target.kind = TargetKind.relationship then
    refuseIf (target.sourceId == .nil || target.targetId == .nil || target.relationType.isEmpty)
      .relationshipTarget
  else if target.kind = TargetKind.resource then
    refuseIf (target.uri.isEmpty) .resourceTarget
  else if target.kind = TargetKind.external then
    refuseIf (target.reference.isEmpty) .externalTarget
  else .error (.unsupportedTargetKind target.kind)

def validateTarget (target : Target) : Check := do
  validateTargetKind target
  refuseIf (target.ownerId != .nil && target.kind != TargetKind.resource) .targetOwner

def validatePhase (cls : OperationClass) (phase : Phase) (outcome : Outcome) : Check :=
  match allowedPhases cls with
  | none => .error (.unsupportedClass cls)
  | some phases =>
    if phase ∉ phases then .error (.invalidPhase phase cls)
    else if phase = .intent then refuseIf (outcome != .pending) .intentOutcome
    else do
      refuseIf (!isTerminalOutcome outcome) (.notTerminal outcome)
      refuseIf (phase == .change && outcome != .completed) .changeOutcome

def validateCommittedSteps (outcome : Outcome) (steps : List String) : Check :=
  if outcome = .partiallyCompleted then refuseIf steps.isEmpty .stepsMissing
  else if outcome ∈ [Outcome.completed, .refused, .failed] then
    refuseIf (!steps.isEmpty) (.stepsPresent outcome)
  else refuseIf (outcome ∉ [Outcome.incomplete, .pending, .ok, .error, .unrecorded])
    (.undefinedOutcome outcome)

def validateOutcomeFields (event : Event) : Check := do
  let terminal := isTerminalOutcome event.outcome
  let unsuccessful := terminal && event.outcome != .completed
  refuseIf (terminal == event.context.completedAt.isZero) .completionTime
  refuseIf (terminal && event.context.completedAt.before event.context.startedAt)
    .completionBeforeStart
  refuseIf (unsuccessful != event.error.isSome) (.errorPresence event.outcome)
  refuseIf (unsuccessful && event.error.any fun e => e.code == "") .errorCode
  validateCommittedSteps event.outcome event.context.committedSteps

def validateReadEvidence (read : ReadEvidence) : Check := do
  refuseIf (!isSHA256Hex read.payloadSHA256 || read.payloadFormat == "") .payloadEvidence
  let needsManifest := read.count > 0 || read.manifestParts > 0 || read.manifestSHA256 != ""
  refuseIf (needsManifest && !isSHA256Hex read.manifestSHA256) .manifestEvidence

/-- The delta holds an old or a new value. -/
def Delta.hasValue (delta : Delta) : Bool := !delta.before.isEmpty || !delta.after.isEmpty

def validateClassEvidence (event : Event) : Check :=
  if event.context.operationClass ≠ .read then do
    refuseIf event.context.read.isSome .readEvidenceClass
    refuseIf (event.context.phase == .change && !event.delta.any Delta.hasValue)
      .changeValueMissing
  else do
    refuseIf event.delta.isSome .readDelta
    match event.context.read with
    | none =>
      refuseIf (event.outcome == .completed || event.outcome == .partiallyCompleted)
        .readEvidenceMissing
    | some read => validateReadEvidence read

/-- The part of `validateCompleteEvent` that reads the target. -/
def validateEventTarget (event : Event) (target : Target) : Check := do
  validateActor event
  validateTarget target
  refuseIf (utf8 event.entity.type.toList != target.kind || event.entity.id != target.id) .entityMismatch
  validatePhase event.context.operationClass event.context.phase event.outcome
  validateOutcomeFields event
  validateClassEvidence event

def validateCompleteEvent (event : Event) : Check := do
  let context := event.context
  refuseIf (event.eventId == .nil || event.verb == "" || event.occurredAt.isZero) .identityMissing
  refuseIf (context.orgId == .nil || context.operationId == .nil || context.startedAt.isZero)
    .operationMissing
  match context.target with
  | none => .error .targetMissing
  | some target => do
    refuseIf (event.outcome == "") .outcomeMissing
    validateEventTarget event target

/-! ### Protected values -/

/-- What `encoding/json` reads out of a JSON text. -/
structure JsonReader where
  /-- `json.Valid`. -/
  valid : RawMessage → Bool
  /-- The members of an object, or `none` when the text does not decode into a map. -/
  members : RawMessage → Option (List (String × RawMessage))
  /-- The UUID of a `ProtectedReference`, or `none` when the text does not decode into one. -/
  reference : RawMessage → Option UUID

variable (json : JsonReader)

/-- The JSON key of a protected value reference. -/
def protectedReferenceKey : String := "pii_ref"

/-- The UUID of a one-key `pii_ref` object, nil when the UUID is invalid; `none` for anything
else. -/
def protectedReference (member : RawMessage) : Option UUID :=
  match json.members member with
  | some [(key, _)] =>
    if key = protectedReferenceKey then some ((json.reference member).getD .nil) else none
  | _ => none

/-- Adds the reference that `member` is, if it is one. -/
def addReference (references : List UUID) (member : RawMessage) :
    Except ContractViolation (List UUID) :=
  match protectedReference json member with
  | none => .ok references
  | some ref =>
    if ref = .nil then .error .invalidReference
    else if ref ∈ references then .error (.repeatedReference ref)
    else .ok (ref :: references)

/-- The protected references of the top-level members of `before` and `after`. -/
def deltaReferences (delta : Delta) : Except ContractViolation (List UUID) :=
  let records := [delta.before, delta.after].filterMap fun record =>
    if record.isEmpty then none else json.members record
  (records.flatten.map Prod.snd).foldlM (addReference json) []

/-- The owner when the target states one, else the target itself. -/
def protectedSubject (target : Target) : UUID :=
  if target.ownerId ≠ .nil then target.ownerId else target.id

/-- Pairs each protected value with one reference. -/
def pairProtected (target : Target) : List UUID → List ProtectedValue → Check
  | _, [] => .ok ()
  | references, value :: values =>
    if value.subjectId ≠ protectedSubject target then
      .error (.protectedSubject value.ref value.subjectId)
    else if value.ref ∉ references then .error (.protectedReferenceMissing value.ref)
    else if !json.valid value.value then .error (.protectedValueInvalid value.ref)
    else pairProtected target (references.erase value.ref) values

def validateProtected (event : Event) : Check := do
  let references ← match event.delta with
    | none => .ok []
    | some delta => deltaReferences json delta
  if references.isEmpty && event.protectedValues.isEmpty then return
  match event.context.target with
  | none => .error .protectedTarget
  | some target =>
    if references.length ≠ event.protectedValues.length then
      .error (.protectedCount references.length event.protectedValues.length)
    else pairProtected json target references event.protectedValues

/-! ### The contract -/

/-- The checks of the event's format; `pair` also checks the protected values. -/
def validateEventContract (event : Event) (pair : Bool) : Check :=
  if event.context.auditFormatVersion = auditFormatLegacy then validateLegacyEvent event
  else if event.context.auditFormatVersion = auditFormatComplete then do
    validateCompleteEvent event
    if pair then validateProtected json event
  else .error (.unsupportedFormat event.context.auditFormatVersion)

/-- `ValidateEvent`.  The source adds the event ID to the message. -/
def validateEvent (event : Event) : Check := validateEventContract json event true

def validateStoredEvent (event : Event) : Check := validateEventContract json event false

end Tack.Audit

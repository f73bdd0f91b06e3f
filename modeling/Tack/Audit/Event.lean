import Tack.Lib.Time
import Tack.Lib.Utf8
import Tack.Lib.Uuid

/-!
# Audit events

The record every audit writer produces, with the types of its fields.  The texts of an event are Unicode
strings: a ledger column, a Kafka record and a JSON body hold nothing else.  The texts of a target are the
bytes of the strings that a caller passes, which need not be UTF-8 before they are encoded.  A
`json.RawMessage` is the bytes of a JSON text, empty when the field is absent.

## Main definitions

* `Audit.Event`, `Audit.EventContext`, `Audit.Target`, `Audit.ReadEvidence` — the event and the
  parts of it that the format rules are about.
* `Audit.isTerminalOutcome`, `Audit.allowedPhases`, `Audit.actorKindCode` — the closed tables over
  the text fields.
-/

namespace Tack.Audit

open Lib

/-- A byte slice or a string of any bytes. -/
abbrev Bytes := List Byte

/-- The bytes of an ASCII text. -/
def ascii (s : String) : Bytes := utf8 s.toList

/-- The bytes of a JSON text; empty when the field is absent. -/
abbrev RawMessage := Bytes

/-- More bytes than any slice holds: the heap addresses have 48 bits. -/
def maxSliceBytes : ℕ := 2 ^ 48

/-! ### Text fields with known values -/

abbrev ActorType := String

namespace ActorType

abbrev user : ActorType := "user"

abbrev service : ActorType := "service"

abbrev system : ActorType := "system"

abbrev token : ActorType := "api_token"

abbrev operator : ActorType := "operator"

abbrev unauthenticated : ActorType := "unauthenticated"

end ActorType

abbrev Outcome := String

namespace Outcome

abbrev ok : Outcome := "ok"

abbrev error : Outcome := "error"

abbrev pending : Outcome := "pending"

abbrev unrecorded : Outcome := "unrecorded"

abbrev completed : Outcome := "completed"

abbrev refused : Outcome := "refused"

abbrev failed : Outcome := "failed"

abbrev partiallyCompleted : Outcome := "partially_completed"

abbrev incomplete : Outcome := "incomplete"

end Outcome

abbrev OperationClass := String

namespace OperationClass

abbrev read : OperationClass := "read"

abbrev databaseChange : OperationClass := "database_change"

abbrev external : OperationClass := "external"

end OperationClass

abbrev Phase := String

namespace Phase

abbrev intent : Phase := "intent"

abbrev result : Phase := "result"

abbrev change : Phase := "change"

abbrev read : Phase := "read"

end Phase

namespace TargetKind

abbrev node : Bytes := ascii "node"

abbrev relationship : Bytes := ascii "relationship"

abbrev resource : Bytes := ascii "resource"

abbrev external : Bytes := ascii "external"

end TargetKind

abbrev auditFormatLegacy : ℕ := 0

abbrev auditFormatComplete : ℕ := 2

/-! ### The event -/

/-- Who triggered the event. -/
structure Actor where
  type : ActorType
  id : UUID
  email : String
  name : String
  sessionId : String
  ip : String
  userAgent : String
  requestId : String
  apiTokenLabel : String
  deriving DecidableEq, Repr, Inhabited

/-- What the event is about. -/
structure Entity where
  type : String
  nodeType : String
  id : UUID
  identifier : String
  name : String
  deriving DecidableEq, Repr, Inhabited

/-- The object an event acts on.  `kind` determines which fields the target requires. -/
structure Target where
  kind : Bytes
  nodeType : Bytes
  reference : Bytes
  name : Bytes
  uri : Bytes
  relationType : Bytes
  id : UUID
  sourceId : UUID
  targetId : UUID
  ownerId : UUID
  deriving DecidableEq, Repr, Inhabited

/-- A finished read: the count, digest and format of its payload, and the digest and part count of
the list of returned identities. -/
structure ReadEvidence where
  count : ℕ
  payloadSHA256 : String
  payloadFormat : String
  manifestSHA256 : String
  manifestParts : ℕ
  deriving DecidableEq, Repr, Inhabited

/-- The arguments that selected a read's result. -/
structure ReadSelection where
  reference : String
  /-- The entries of a map, by ascending name. -/
  criteria : List (String × RawMessage)
  deriving DecidableEq, Repr, Inhabited

/-- Scope and provenance of an event. -/
structure EventContext where
  orgId : UUID
  workspaceId : UUID
  scopeId : UUID
  parentId : UUID
  requestId : String
  traceId : String
  source : String
  tool : String
  rpc : String
  reason : String
  apiTokenId : UUID
  commitVersion : String
  auditFormatVersion : ℕ
  operationClass : OperationClass
  phase : Phase
  operationId : UUID
  parentOperationId : UUID
  startedAt : Time
  completedAt : Time
  target : Option Target
  read : Option ReadEvidence
  committedSteps : List String
  selection : Option ReadSelection
  httpMethod : String
  requestPath : String
  deriving DecidableEq, Repr, Inhabited

/-- The values before and after a change. -/
structure Delta where
  before : RawMessage
  after : RawMessage
  changed : List String
  deriving DecidableEq, Repr, Inhabited

structure EventError where
  code : String
  message : String
  deriving DecidableEq, Repr, Inhabited

/-- The subject and the JSON value behind one reference of a delta. -/
structure ProtectedValue where
  ref : UUID
  subjectId : UUID
  value : RawMessage
  deriving DecidableEq, Repr, Inhabited

structure Event where
  verb : String
  eventId : UUID
  actor : Actor
  entity : Entity
  context : EventContext
  delta : Option Delta
  outcome : Outcome
  error : Option EventError
  idempotencyKey : String
  occurredAt : Time
  extra : RawMessage
  protectedValues : List ProtectedValue
  deriving DecidableEq, Repr, Inhabited

/-! ### Tables over the text fields -/

def isTerminalOutcome (outcome : Outcome) : Bool :=
  outcome ∈ [Outcome.completed, .refused, .failed, .partiallyCompleted, .incomplete]

/-- The phases of an operation class, or `none` for an unknown class. -/
def allowedPhases (cls : OperationClass) : Option (List Phase) :=
  if cls = .read then some [.read]
  else if cls = .databaseChange then some [.change, .result]
  else if cls = .external then some [.intent, .result]
  else none

/-- The number that stands for an actor type in the ledger; `0` for an unknown one. -/
def actorKindCode (t : ActorType) : ℤ :=
  if t = .user then 1
  else if t = .service then 2
  else if t = .system then 3
  else if t = .token then 4
  else if t = .operator then 5
  else if t = .unauthenticated then 6
  else 0

/-- The organization of global operator commands. -/
def systemOrgId : UUID := 0x5ee

end Tack.Audit

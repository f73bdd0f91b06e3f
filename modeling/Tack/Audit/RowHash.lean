import Tack.Audit.EventJson
import Tack.Audit.EventValidate

/-!
# Row hashes

The hash that binds a ledger row to its content and to the row before it, in the three versions the
ledger has written, and the check of a stored row against its hash.

Versions 1 and 2 hashed the nanoseconds of the producer, of which the ledger keeps microseconds, so
the check tries every remainder.  Version 3 hashes microseconds and its own number.

## Main definitions

* `Audit.canonicalJSON`, `Audit.hashRow` — the canonical bytes of a payload and their chained hash.
* `Audit.hashRowForEvent` — the hash of a row in its version.
* `Audit.Row`, `Audit.exportEvent`, `Audit.rowHashInputFor` — a stored row, and what its hash covers.
* `Audit.checkRowHash` — the check of a stored row.
-/

namespace Tack.Audit

open Lib Lib.Json

/-! ### Canonical bytes -/

/-- `canonicalJSON` of a value; `none` when a number overflows. -/
def canonicalJSON (v : Json) : Option Bytes := v.canonical.map marshal

/-- What is hashed: the previous hash, the length of the payload in eight bytes and the payload. -/
def rowPreimage (prevHash canonical : Bytes) : Bytes :=
  prevHash ++ (beBytes 8 canonical.length ++ canonical)

section Hash

variable (sum : Bytes → Bytes)

/-- The hash of a payload after a previous hash.  A payload that no slice can hold has none. -/
def hashRow (prevHash : Bytes) (payload : Json) : Option Bytes :=
  (canonicalJSON payload).bind fun canonical =>
    if canonical.length < maxSliceBytes then some (sum (rowPreimage prevHash canonical)) else none

/-! ### Hash versions -/

/-- What the hash of a row covers. -/
structure RowHashInput where
  event : Event
  eventId : UUID
  shard : Int16
  seq : Int64
  piiRef : UUID
  contextJSON : Bytes
  deltaJSON : Bytes
  lastHash : Bytes
  version : Int16

def auditHashVersion1 : Int16 := 1

def auditHashVersion2 : Int16 := 2

def auditHashVersion3 : Int16 := 3

def auditHashVersionCurrent : Int16 := auditHashVersion3

/-- The time of a row as it is hashed: version 3 drops what the ledger does not store. -/
def RowHashInput.eventTime (input : RowHashInput) : String :=
  if input.version = auditHashVersion3 then
    (input.event.occurredAt.utc.truncate Time.microsecond).rfc3339Nano
  else input.event.occurredAt.utc.rfc3339Nano

theorem RowHashInput.eventTime_of_eq {input : RowHashInput} (h : input.version = auditHashVersion3) :
    input.eventTime = (input.event.occurredAt.utc.truncate Time.microsecond).rfc3339Nano :=
  if_pos h

theorem RowHashInput.eventTime_of_ne {input : RowHashInput} (h : input.version ≠ auditHashVersion3) :
    input.eventTime = input.event.occurredAt.utc.rfc3339Nano :=
  if_neg h

def intJson (n : ℤ) : Json := .num (.ofInt n)

/-- The members of the payload of version 1, given the values of the raw ones. -/
def rowHashPayloadV1 (input : RowHashInput) (context delta : Json) : Members :=
  [("org_id", .str input.event.context.orgId.text), ("shard", intJson input.shard.toInt),
    ("seq", intJson input.seq.toInt), ("event_id", .str input.eventId.text),
    ("event_time", .str input.eventTime), ("actor_id", .str input.event.actor.id.text),
    ("actor_kind", .str input.event.actor.type), ("action", .str input.event.verb),
    ("entity_kind", .str input.event.entity.type), ("entity_id", .str input.event.entity.id.text),
    ("pii_ref", .str input.piiRef.text), ("context", context), ("delta", delta),
    ("idempotency", .str input.event.idempotencyKey)]

/-- The members that version 2 adds. -/
def rowHashPayloadV2 (input : RowHashInput) (extra : Json) : Members :=
  [("outcome", .str input.event.outcome), ("error", EventError.toJson input.event.error),
    ("extra", extra)]

/-- The member that version 3 adds. -/
def rowHashPayloadV3 (input : RowHashInput) : Members :=
  [("hash_version", intJson input.version.toInt)]

/-- The payload of the version; `none` when a raw member is not JSON or the version is unknown. -/
def rowHashPayload (input : RowHashInput) : Option Members :=
  (rawJson input.contextJSON).bind fun context =>
    (rawJson input.deltaJSON).bind fun delta =>
      let v1 := rowHashPayloadV1 input context delta
      if input.version = auditHashVersion1 then some v1
      else
        (rawJson input.event.extra).bind fun extra =>
          let v2 := v1 ++ rowHashPayloadV2 input extra
          if input.version = auditHashVersion2 then some v2
          else if input.version = auditHashVersion3 then some (v2 ++ rowHashPayloadV3 input)
          else none

def hashRowForEvent (input : RowHashInput) : Option Bytes :=
  (rowHashPayload input).bind fun payload => hashRow sum input.lastHash (.obj payload)

/-- The bytes that are hashed for an input. -/
def inputPreimage (input : RowHashInput) : Option Bytes :=
  (rowHashPayload input).bind fun payload => (canonicalJSON (.obj payload)).bind fun canonical =>
    if canonical.length < maxSliceBytes then some (rowPreimage input.lastHash canonical) else none

theorem hashRowForEvent_eq (input : RowHashInput) :
    hashRowForEvent sum input = (inputPreimage input).map sum := by
  simp only [hashRowForEvent, hashRow, inputPreimage, Option.map_bind, Function.comp_def,
    apply_ite (Option.map sum), Option.map_some, Option.map_none]

/-! ### Rows that have a hash -/

theorem small_uuid (id : UUID) : Small 218 (.str id.text) := small_str (UUID.length_text id).le

theorem rowHashPayload_current {input : RowHashInput} {context delta extra : Json}
    (hversion : input.version = auditHashVersion3)
    (hcontext : rawJson input.contextJSON = some context)
    (hdelta : rawJson input.deltaJSON = some delta)
    (hextra : rawJson input.event.extra = some extra) :
    rowHashPayload input = some (rowHashPayloadV1 input context delta ++
      rowHashPayloadV2 input extra ++ rowHashPayloadV3 input) := by
  have hne1 : auditHashVersion3 ≠ auditHashVersion1 := by decide
  have hne2 : auditHashVersion3 ≠ auditHashVersion2 := by decide
  simp only [rowHashPayload, hcontext, hdelta, hextra, hversion, Option.bind_some, hne1, hne2,
    if_false, if_true]

/-- A row of short texts, without an error, has bytes to hash in the current version. -/
theorem exists_inputPreimage {input : RowHashInput} {context delta extra : Json}
    (hversion : input.version = auditHashVersion3)
    (hcontext : rawJson input.contextJSON = some context)
    (hdelta : rawJson input.deltaJSON = some delta)
    (hextra : rawJson input.event.extra = some extra) (herror : input.event.error = none)
    (hsmall : ∀ j ∈ [context, delta, extra], Small 4001 j)
    (htext : ∀ s ∈ [input.eventTime, input.event.actor.type, input.event.verb,
      input.event.entity.type, input.event.idempotencyKey, input.event.outcome],
      s.toList.length ≤ 36)
    (hseq : input.seq.toInt.natAbs ≤ 2 ^ 53) : ∃ x, inputPreimage input = some x := by
  have huuid (id : UUID) : Small 4001 (.str id.text) := (small_uuid id).mono (by decide)
  have hstr {s : String} (hs : s.toList.length ≤ 36) : Small 4001 (.str s) :=
    (small_str hs).mono (by decide)
  have hnull : Small 4001 .null := small_null.mono (by decide)
  have hshard : input.shard.toInt.natAbs ≤ 2 ^ 53 := by
    have := input.shard.le_toInt
    have := input.shard.toInt_lt
    omega
  have hnumber : Small 4001 (intJson input.version.toInt) := by
    rw [hversion]
    exact small_exactInt (by decide)
  simp only [List.forall_mem_cons, List.not_mem_nil, false_imp_iff, implies_true, and_true]
    at hsmall htext
  obtain ⟨hc, hd, hx⟩ := hsmall
  obtain ⟨htime, hactor, hverb, hentity, hkey, houtcome⟩ := htext
  have h : Small (18 * (6 * 12 + 4001 + 4) + 2) (.obj (rowHashPayloadV1 input context delta ++
      rowHashPayloadV2 input extra ++ rowHashPayloadV3 input)) := by
    refine small_obj ?_
    simp only [rowHashPayloadV1, rowHashPayloadV2, rowHashPayloadV3, herror, EventError.toJson,
      List.cons_append, List.nil_append, List.forall_mem_cons, List.not_mem_nil, false_imp_iff,
      implies_true, and_true]
    exact ⟨⟨by decide, huuid _⟩, ⟨by decide, small_exactInt hshard⟩, ⟨by decide, small_exactInt hseq⟩,
      ⟨by decide, huuid _⟩, ⟨by decide, hstr htime⟩, ⟨by decide, huuid _⟩, ⟨by decide, hstr hactor⟩,
      ⟨by decide, hstr hverb⟩, ⟨by decide, hstr hentity⟩, ⟨by decide, huuid _⟩, ⟨by decide, huuid _⟩,
      ⟨by decide, hc⟩, ⟨by decide, hd⟩, ⟨by decide, hstr hkey⟩, ⟨by decide, hstr houtcome⟩,
      ⟨by decide, hnull⟩, ⟨by decide, hx⟩, by decide, hnumber⟩
  obtain ⟨c, hc, hlen⟩ := h
  have hbytes : (marshal c).length < maxSliceBytes :=
    lt_of_le_of_lt (length_utf8_le _) (lt_of_le_of_lt (Nat.mul_le_mul_left 4 hlen) (by decide))
  rw [inputPreimage, rowHashPayload_current hversion hcontext hdelta hextra, Option.bind_some,
    canonicalJSON, hc, Option.map_some, Option.bind_some, if_pos hbytes]
  exact ⟨_, rfl⟩

/-! ### Stored rows -/

/-- One permanent part of a read manifest. -/
structure ManifestPart where
  index : ℕ
  digest : String
  payload : Bytes
  deriving DecidableEq, Repr

/-- A row as it is read back or found in an export. -/
structure Row where
  orgId : UUID
  eventTime : Time
  eventId : UUID
  seq : Int64
  shard : Int16
  actorId : UUID
  actorKind : Int16
  action : String
  outcome : Outcome
  entityKind : String
  entityId : UUID
  context : EventContext
  delta : Option Delta
  error : Option EventError
  extra : RawMessage
  piiRef : Option UUID
  prevHash : Bytes
  rowHash : Bytes
  hashVersion : Int16
  idempotencyKey : String
  manifestParts : List ManifestPart

def actorTypeFromCode (code : Int16) : ActorType :=
  if code = 1 then .user
  else if code = 2 then .service
  else if code = 3 then .system
  else if code = 4 then .token
  else if code = 5 then .operator
  else if code = 6 then .unauthenticated
  else ""

/-- The event that the hash of a stored row covers; its organization is that of the column. -/
def exportEvent (row : Row) : Event where
  verb := row.action
  eventId := row.eventId
  actor := ⟨actorTypeFromCode row.actorKind, row.actorId, "", "", "", "", "", "", ""⟩
  entity := ⟨row.entityKind, "", row.entityId, "", ""⟩
  context := { row.context with orgId := row.orgId }
  delta := row.delta
  outcome := row.outcome
  error := row.error
  idempotencyKey := row.idempotencyKey
  occurredAt := row.eventTime
  extra := row.extra
  protectedValues := []

/-- The hash input of a row for a JSON text of its context. -/
def rowHashInputWith (row : Row) (context : Option Json) : Option RowHashInput :=
  context.bind fun context => (Delta.toJson row.delta).map fun delta =>
    { event := exportEvent row, eventId := row.eventId, shard := row.shard, seq := row.seq,
      piiRef := row.piiRef.getD .nil, contextJSON := marshal context, deltaJSON := marshal delta,
      lastHash := row.prevHash, version := row.hashVersion }

def rowHashInputFor (row : Row) : Option RowHashInput := rowHashInputWith row row.context.toJson

def computeRowHash (row : Row) : Option Bytes :=
  (rowHashInputFor row).bind (hashRowForEvent sum)

/-! ### The check -/

/-- Why a row is refused. -/
inductive RowHashReason
  /-- The row claims a hash version that the ledger never wrote. -/
  | neverWritten (version : Int16)
  /-- The row claims an early version with a timestamp that the ledger cannot store. -/
  | subMicrosecond (version : Int16)
  | contract (violation : ContractViolation)
  | hashMismatch
  deriving DecidableEq

/-- What the check of a row says. -/
inductive RowHashVerdict
  | accepted
  | refused (reason : RowHashReason)
  deriving DecidableEq

def legacyNanosecondCandidates : ℕ := 1000

/-- The violation of the stored event contract; format 0 rows are not checked. -/
def contractViolation (json : JsonReader) (row : Row) : Option ContractViolation :=
  if row.context.auditFormatVersion = auditFormatLegacy then none
  else match validateStoredEvent json (exportEvent row) with
    | .ok () => none
    | .error v => some v

def RowHashInput.at (input : RowHashInput) (t : Time) : RowHashInput :=
  { input with event := { input.event with occurredAt := t } }

/-- Tries the remainders from `remainder` on. -/
def tryRemainders (row : Row) (input : RowHashInput) : ℕ → ℕ → Option RowHashVerdict
  | 0, _ => some (.refused .hashMismatch)
  | n + 1, remainder =>
    (hashRowForEvent sum (input.at (row.eventTime.add remainder))).bind fun expected =>
      if expected = row.rowHash then some .accepted else tryRemainders row input n (remainder + 1)

/-- A row of version 1 or 2 is tried at every remainder. -/
def checkLegacyRowHash (row : Row) : Option RowHashVerdict :=
  (rowHashInputFor row).bind fun input => tryRemainders sum row input legacyNanosecondCandidates 0

/-- The second try for a row of version 3 without a token ID. -/
def checkZeroTokenIdRowHash (row : Row) : Option RowHashVerdict :=
  if row.context.apiTokenId ≠ .nil then some (.refused .hashMismatch)
  else
    (rowHashInputFor row).bind fun _ =>
      (rowHashInputWith row row.context.toJsonWithZeroTokenId).bind fun input =>
        (hashRowForEvent sum input).map fun expected =>
          if expected = row.rowHash then .accepted else .refused .hashMismatch

/-- The check of a stored row; `none` when its hash cannot be computed. -/
def checkRowHash (json : JsonReader) (row : Row) : Option RowHashVerdict :=
  if row.hashVersion < auditHashVersion1 ∨ row.hashVersion > auditHashVersionCurrent then
    some (.refused (.neverWritten row.hashVersion))
  else if row.hashVersion < auditHashVersion3 ∧
      row.eventTime.nanosecond % legacyNanosecondCandidates ≠ 0 then
    some (.refused (.subMicrosecond row.hashVersion))
  else match contractViolation json row with
    | some v => some (.refused (.contract v))
    | none =>
      if row.hashVersion < auditHashVersion3 then checkLegacyRowHash sum row
      else (computeRowHash sum row).bind fun expected =>
        if expected = row.rowHash then some .accepted else checkZeroTokenIdRowHash sum row

end Hash

end Tack.Audit

import Tack.Audit.ReadManifest
import Tack.Lib.JsonRead

/-!
# Events as transport messages

`EncodeEvent` turns an event and its read targets into one JSON envelope and cuts the envelope into
parts.  Each part travels as a JSON message; a manifest message, the header, follows the parts.

The JSON text of a transport message is modelled in full; its reader is not.  The envelope is
assembled from the encodings of the event and of the targets.

## Main definitions

* `Audit.encodeEvent` — the envelope of an event, its digest, its parts and its header.
* `Audit.TransportMessage`, `Audit.encodeTransportMessage`.
-/

namespace Tack.Audit

open Lib

/-! ### Shards -/

/-- One bit of the CRC-32 division by the IEEE polynomial. -/
def crcBit (c : BitVec 32) : BitVec 32 :=
  if c.getLsbD 0 then (c >>> 1) ^^^ 0xEDB88320#32 else c >>> 1

/-- `crc32.ChecksumIEEE`. -/
def crc32 (bytes : Bytes) : BitVec 32 :=
  ~~~(bytes.foldl (fun c b => crcBit^[8] (c ^^^ BitVec.ofNat 32 b.val)) (~~~0#32))

def shardCount : ℕ := 256

/-- The shard of an event: a checksum of its actor and its identity. -/
def shardOf (actor eventId : UUID) : ℤ := (crc32 (actor.bytes ++ eventId.bytes)).toNat % shardCount

/-! ### Transport messages -/

/-- A part or manifest message. -/
structure TransportMessage where
  message : String
  formatVersion : ℕ
  eventId : UUID
  orgId : UUID
  shard : ℤ
  partCount : ℕ
  transportDigest : String
  partIndex : ℕ
  partDigest : String
  payload : Bytes
  commitVersion : String
  deriving DecidableEq, Repr, Inhabited

def eventPartsFormatVersion : ℕ := 1

def messageKindManifest : String := "event_manifest"

/-- The fields of a message. -/
inductive MessageField
  | message | formatVersion | eventId | orgId | shard | partCount | transportDigest | partIndex
  | partDigest | payload | commitVersion
  deriving DecidableEq, Repr

namespace MessageField

/-- The JSON name of a field. -/
def name : MessageField → String
  | message => "audit_message"
  | formatVersion => "format_version"
  | eventId => "event_id"
  | orgId => "org_id"
  | shard => "shard"
  | partCount => "part_count"
  | transportDigest => "transport_digest"
  | partIndex => "part_index"
  | partDigest => "part_digest"
  | payload => "payload"
  | commitVersion => "commit_version"

end MessageField

/-- The member of a field that is omitted when it is empty. -/
def omitEmpty (empty : Bool) (field : MessageField) (value : Json) : List (String × Json) :=
  if empty then [] else [(field.name, value)]

/-- The JSON object of a message. -/
def TransportMessage.toJson (m : TransportMessage) : Json :=
  .obj ((MessageField.message.name, .str m.message) ::
    (MessageField.formatVersion.name, .num (.ofInt m.formatVersion)) ::
    (MessageField.eventId.name, .str m.eventId.text) ::
    (MessageField.orgId.name, .str m.orgId.text) ::
    (MessageField.shard.name, .num (.ofInt m.shard)) ::
    (MessageField.partCount.name, .num (.ofInt m.partCount)) ::
    (MessageField.transportDigest.name, .str m.transportDigest) ::
    (omitEmpty (m.partIndex == 0) .partIndex (.num (.ofInt m.partIndex)) ++
      (omitEmpty (m.partDigest == "") .partDigest (.str m.partDigest) ++
      (omitEmpty m.payload.isEmpty .payload (.str (String.ofList (base64Encode m.payload))) ++
      omitEmpty (m.commitVersion == "") .commitVersion (.str m.commitVersion)))))

def encodeTransportMessage (m : TransportMessage) : Bytes := utf8 m.toJson.render

/-! ### The envelope -/

/-- One segment of an envelope. -/
structure EventPart where
  eventId : UUID
  index : ℕ
  count : ℕ
  digest : String
  transportDigest : String
  payload : Bytes
  deriving DecidableEq, Repr

/-- An event ready for transport.  The transport digest does not cover the header. -/
structure EncodedEvent where
  eventId : UUID
  transportDigest : String
  header : Bytes
  parts : List EventPart
  single : Bool
  deriving DecidableEq, Repr

/-- The JSON text of an event with its read targets. -/
def Codec.envelope (codec : Codec) (event : Event) (targets : List Target) : Option Bytes := do
  let e ← codec.event event
  let ts ← codec.targets targets
  return ascii "\x7b\"event\":" ++ e ++ ascii ",\"read_targets\":" ++ ts ++ ascii "\x7d"

/-- Segments of `eventPartMaxBytes` bytes, the last one of what remains; the first argument bounds
their number. -/
def splitEnvelope : ℕ → Bytes → List Bytes
  | 0, _ => []
  | n + 1, envelope =>
    if envelope.isEmpty then []
    else envelope.take eventPartMaxBytes :: splitEnvelope n (envelope.drop eventPartMaxBytes)

/-- The manifest of an event. -/
def newManifestMessage (event : Event) (count : ℕ) (transportDigest : String) :
    TransportMessage :=
  ⟨messageKindManifest, eventPartsFormatVersion, event.eventId, event.context.orgId,
    shardOf event.actor.id event.eventId, count, transportDigest, 0, "", [], ""⟩

section

variable (codec : Codec) (sha : Sha256)

/-- The parts of an envelope. -/
def envelopeParts (eventId : UUID) (envelope : Bytes) : List EventPart :=
  let payloads := splitEnvelope envelope.length envelope
  payloads.zipIdx.map fun p =>
    ⟨eventId, p.2, payloads.length, sha.hex p.1, sha.hex envelope, p.1⟩

/-- What is made of the envelope. -/
def encodedEnvelope (event : Event) (targets : List Target) (envelope : Bytes) : EncodedEvent :=
  let parts := envelopeParts sha event.eventId envelope
  ⟨event.eventId, sha.hex envelope,
    encodeTransportMessage (newManifestMessage event parts.length (sha.hex envelope)), parts,
    parts.length == 1 && targets.isEmpty⟩

/-- Checks the read evidence, encodes the envelope and splits it. -/
def encodeEvent (event : Event) (targets : List Target) : Except EncodeError EncodedEvent :=
  if event.eventId = .nil then .error .eventIdMissing
  else match checkReadManifest codec sha event targets with
    | .error e => .error e
    | .ok () =>
      match codec.envelope event targets with
      | none => .error .envelope
      | some envelope =>
        if envelope.length ≥ maxSliceBytes then .error .outOfMemory
        else .ok (encodedEnvelope sha event targets envelope)

end

namespace EncodedEvent

def multipart (e : EncodedEvent) : Bool := !e.single

end EncodedEvent

end Tack.Audit

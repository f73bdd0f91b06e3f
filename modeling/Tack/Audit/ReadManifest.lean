import Tack.Audit.EventValidate

/-!
# Read manifests

The identities a read returned are stored as JSON arrays of bounded size.  `ManifestBuilder` groups
targets into such arrays; `readManifestParts` runs it over a whole list, and the consumer runs it
target by target.

`encoding/json` and SHA-256 are parameters: the encodings of events and targets with their
decoders, and a function from bytes to thirty-two bytes.

## Main definitions

* `Audit.Codec`, `Audit.Sha256` — the parameters.
* `Audit.ManifestBuilder.add`, `Audit.ManifestBuilder.finish` — the grouping.
* `Audit.readManifestParts`, `Audit.readManifestDigest` — the arrays of a list and their digest.
* `Audit.checkReadManifest` — the check of an event's read evidence against its targets.
-/

namespace Tack.Audit

open Lib

/-- The JSON encodings of events and targets. -/
structure Codec where
  /-- `json.Marshal` of an event; `none` when a raw field is not JSON. -/
  event : Event → Option Bytes
  /-- `json.Marshal` of a target. -/
  target : Target → Option Bytes
  /-- `json.Unmarshal` into an event. -/
  unmarshalEvent : Bytes → Option Event
  /-- Decoding of an event that refuses unknown members. -/
  decodeEvent : Bytes → Option Event
  /-- Decoding of a target that refuses unknown members. -/
  decodeTarget : Bytes → Option Target

/-- SHA-256. -/
structure Sha256 where
  sum : Bytes → Bytes
  length_sum : ∀ bytes, (sum bytes).length = 32

/-- A hash for examples. -/
def sampleSha : Sha256 := ⟨sampleDigest, length_sampleDigest⟩

/-- The digest in lowercase hexadecimal. -/
def Sha256.hex (sha : Sha256) (payload : Bytes) : String := String.ofList (hexEncode (sha.sum payload))

/-! ### The builder -/

def eventPartMaxBytes : ℕ := 65536

def readManifestMaxEntries : ℕ := 256

/-- Why a list of targets has no manifest. -/
inductive ManifestError
  | targetEncode
  | partEncode
  /-- The target exceeds the part size limit. -/
  | targetTooLarge (bytes : ℕ)
  deriving DecidableEq, Repr

/-- Encodings in a row with commas between them. -/
def joinComma : List Bytes → Bytes
  | [] => []
  | [b] => b
  | b :: c :: bs => b ++ ascii "," ++ joinComma (c :: bs)

/-- `json.Marshal` of a list of targets. -/
def Codec.targets (codec : Codec) (targets : List Target) : Option Bytes :=
  (targets.mapM codec.target).map fun encoded => ascii "[" ++ joinComma encoded ++ ascii "]"

/-- The unfinished array. -/
structure ManifestBuilder where
  current : List Target
  currentBytes : ℕ
  deriving DecidableEq, Repr

def newManifestBuilder : ManifestBuilder := ⟨[], 2⟩

namespace ManifestBuilder

variable (codec : Codec)

/-- Encodes the unfinished array and starts a new one. -/
def flush (b : ManifestBuilder) : Except ManifestError (ManifestBuilder × Bytes) :=
  match codec.targets b.current with
  | none => .error .partEncode
  | some payload => .ok (newManifestBuilder, payload)

/-- The array has its number of targets, or the next target does not fit. -/
def full (b : ManifestBuilder) (targetBytes : ℕ) : Bool :=
  b.current.length == readManifestMaxEntries || b.currentBytes + targetBytes > eventPartMaxBytes

/-- Appends a target, after the array is finished when it is full.  The list holds the finished
array. -/
def add (b : ManifestBuilder) (target : Target) :
    Except ManifestError (ManifestBuilder × List Bytes) :=
  match codec.target target with
  | none => .error .targetEncode
  | some encoded =>
    let targetBytes := encoded.length + 1
    let push (b : ManifestBuilder) : ManifestBuilder :=
      ⟨b.current ++ [target], b.currentBytes + targetBytes⟩
    if encoded.length + 2 > eventPartMaxBytes then .error (.targetTooLarge encoded.length)
    else if b.full targetBytes then do
      let (next, payload) ← b.flush codec
      return (push next, [payload])
    else return (push b, [])

/-- Finishes the unfinished array when it is not empty. -/
def finish (b : ManifestBuilder) : Except ManifestError (List Bytes) :=
  if b.current.isEmpty then return []
  else do
    let (_, payload) ← b.flush codec
    return [payload]

/-- The arrays that the remaining targets finish. -/
def build (b : ManifestBuilder) : List Target → Except ManifestError (List Bytes)
  | [] => b.finish codec
  | target :: targets => do
    let (next, emitted) ← b.add codec target
    let rest ← next.build targets
    return emitted ++ rest

end ManifestBuilder

/-! ### The manifest of a list -/

section

variable (codec : Codec) (sha : Sha256)

/-- The JSON arrays of the targets, in order. -/
def readManifestParts (targets : List Target) : Except ManifestError (List Bytes) :=
  newManifestBuilder.build codec targets

/-- The digest of the arrays in a row, and their number in thirty-two bits. -/
def readManifestDigest (targets : List Target) : Except ManifestError (String × ℕ) := do
  let parts ← readManifestParts codec targets
  return (sha.hex parts.flatten, parts.length % 2 ^ 32)

/-- Why an event cannot be encoded with its targets. -/
inductive EncodeError
  /-- Event ID is missing. -/
  | eventIdMissing
  /-- Has read targets without read evidence. -/
  | targetsWithoutEvidence
  /-- Has read evidence that does not match its read targets. -/
  | evidenceMismatch
  | manifest (e : ManifestError)
  | envelope
  /-- No slice has so many bytes: the allocation ends the process. -/
  | outOfMemory
  deriving DecidableEq, Repr

/-- Rejects targets without read evidence and evidence that differs from the manifest of the
targets. -/
def checkReadManifest (event : Event) (targets : List Target) : Except EncodeError Unit :=
  match event.context.read with
  | none => if targets.isEmpty then .ok () else .error .targetsWithoutEvidence
  | some read =>
    if targets.isEmpty && read.manifestSHA256 == "" && read.manifestParts == 0 then .ok ()
    else match readManifestDigest codec sha targets with
      | .error e => .error (.manifest e)
      | .ok (digest, partCount) =>
        if digest ≠ read.manifestSHA256 ∨ partCount ≠ read.manifestParts then
          .error .evidenceMismatch
        else .ok ()

end

end Tack.Audit

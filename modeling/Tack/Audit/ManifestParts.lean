import Tack.Audit.EventParts
import Tack.Audit.RowHash
import Tack.Lib.JsonBytes
import Tack.Lib.Tx

/-!
# Manifest parts and their validator

The targets of a read are stored as JSON arrays; an export and the manifest check read them back.  The
builder reckons with one byte for a comma behind every target, also behind the last one, so its estimate
is one byte above the size of the array.  A target that fills an array to the last byte therefore never
seems to fit, and an array that is still empty is finished for it.

## Main definitions

* `Audit.decodeTargets` — the targets of a JSON array, unknown members refused.
* `Audit.ManifestValidator` — the check of the parts of one manifest.
* `Audit.ExactManifest` — parts that hold the targets and that the validator accepts.

## Main results

* `Audit.decodeTarget_toJson` — an encoded target is read back.
* `Audit.exact_manifest_iff` — the parts are exact unless the first target fills an array.
-/

namespace Tack.Audit

open Lib

/-! ### Writing targets -/

/-- The members of an object, each by its name and the text of its value. -/
abbrev Fields := List (String × List Char)

/-- The member of a Go string.  A byte that is not UTF-8 is written as an escape of U+FFFD. -/
def bytesField (name : String) (bytes : Bytes) : Fields :=
  if bytes.isEmpty then [] else [(name, quoteBytes bytes)]

def uuidField (name : String) (id : UUID) : Fields :=
  if id == .nil then [] else [(name, quote id.text.toList)]

def Target.fields (target : Target) : Fields :=
  bytesField "kind" target.kind ++ bytesField "node_type" target.nodeType ++
    bytesField "reference" target.reference ++ bytesField "name" target.name ++
    bytesField "uri" target.uri ++ bytesField "relation_type" target.relationType ++
    uuidField "id" target.id ++ uuidField "source_id" target.sourceId ++
    uuidField "target_id" target.targetId ++ uuidField "owner_id" target.ownerId

/-- The members of an object with commas between them. -/
def renderFields : Fields → List Char
  | [] => []
  | [(name, value)] => quote name.toList ++ ':' :: value
  | (name, value) :: field :: fields =>
    quote name.toList ++ ':' :: value ++ ',' :: renderFields (field :: fields)

/-- `json.Marshal` of a target. -/
def Target.encode (target : Target) : Bytes := utf8 ('\x7b' :: renderFields target.fields ++ ['\x7d'])

/-! ### Reading targets -/

/-- The bytes of a decoded string. -/
def readBytes (v : Json) (target : Target) (set : Bytes → Target) : Option Target :=
  readString v target fun s => set (utf8 s.toList)

/-- Stores one member; `none` for an unknown member or a value of another shape. -/
def setMember (target : Target) (member : String × Json) : Option Target :=
  match String.ofList (foldName member.1) with
  | "kind" => readBytes member.2 target fun v => { target with kind := v }
  | "node_type" => readBytes member.2 target fun v => { target with nodeType := v }
  | "reference" => readBytes member.2 target fun v => { target with reference := v }
  | "name" => readBytes member.2 target fun v => { target with name := v }
  | "uri" => readBytes member.2 target fun v => { target with uri := v }
  | "relation_type" => readBytes member.2 target fun v => { target with relationType := v }
  | "id" => readUUID member.2 target fun v => { target with id := v }
  | "source_id" => readUUID member.2 target fun v => { target with sourceId := v }
  | "target_id" => readUUID member.2 target fun v => { target with targetId := v }
  | "owner_id" => readUUID member.2 target fun v => { target with ownerId := v }
  | _ => none

def Target.zero : Target := ⟨[], [], [], [], [], [], .nil, .nil, .nil, .nil⟩

def decodeTarget : Json → Option Target
  | .null => some .zero
  | .obj members => members.foldlM setMember .zero
  | _ => none

def decodeTargets : Json → Option (List Target)
  | .null => some []
  | .arr items => items.mapM decodeTarget
  | _ => none

/-- The targets of a part: one JSON value and nothing behind it. -/
def manifestTargets (payload : Bytes) : Option (List Target) :=
  (Json.parse (utf8Decode payload)).bind decodeTargets

/-- A codec with the encoding of targets that `encoding/json` has. -/
def Codec.withTargets (codec : Codec) : Codec :=
  { codec with
    target := fun target => some target.encode
    decodeTarget := fun bytes => (Json.parse (utf8Decode bytes)).bind Audit.decodeTarget }

/-! ### The validator -/

/-- Counts a valid, nonempty list of read targets. -/
def manifestPayloadCount (payload : Bytes) (validateIdentities : Bool) : ℕ :=
  match manifestTargets payload with
  | none => 0
  | some targets =>
    if targets.length = 0 ∨ targets.length > readManifestMaxEntries then 0
    else if validateIdentities && !targets.all fun target => validateTarget target matches .ok _ then 0
    else targets.length

/-- What was read so far: the bytes given to the hash of the root, and the counters of thirty-two and
sixty-four bits. -/
structure ManifestValidator where
  root : Bytes
  parts : ℕ
  identities : ℕ
  deriving DecidableEq, Repr

def newManifestValidator : ManifestValidator := ⟨[], 0, 0⟩

namespace ManifestValidator

variable (sha : Sha256)

/-- Checks one part; the text is the violation. -/
def add (v : ManifestValidator) (part : ManifestPart) (validateIdentities : Bool) :
    Except String ManifestValidator :=
  if part.index ≠ v.parts then
    .error ("does not provide read manifest part " ++ toString v.parts ++ " in index order")
  else if part.payload.length > eventPartMaxBytes ∨ sha.hex part.payload ≠ part.digest then
    .error ("has read manifest part " ++ toString part.index ++
      " with a payload that exceeds the size limit or does not match its digest")
  else
    let count := manifestPayloadCount part.payload validateIdentities
    if count = 0 then
      .error ("has read manifest part " ++ toString part.index ++
        " that does not decode as a valid list of read targets")
    else .ok ⟨v.root ++ part.payload, (v.parts + 1) % 2 ^ 32, (v.identities + count) % 2 ^ 64⟩

def finish (v : ManifestValidator) (read : ReadEvidence) (checkCount : Bool) : Except String Unit :=
  if v.parts ≠ read.manifestParts then
    .error ("has " ++ toString v.parts ++ " of " ++ toString read.manifestParts ++ " read manifest parts")
  else if sha.hex v.root ≠ read.manifestSHA256 then
    .error "has read manifest parts that do not match the manifest digest"
  else if checkCount && v.identities != read.count then
    .error ("has " ++ toString v.identities ++ " of " ++ toString read.count ++
      " declared read identities")
  else .ok ()

/-- The parts one after another, and the end. -/
def verify (read : ReadEvidence) (strict : Bool) (v : ManifestValidator) :
    List ManifestPart → Except String Unit
  | [] => v.finish sha read strict
  | part :: parts => do
    let next ← v.add sha part strict
    next.verify read strict parts

end ManifestValidator

/-- Payloads in index order with their digests, from an index on. -/
def indexedParts (sha : Sha256) (start : ℕ) : List Bytes → List ManifestPart
  | [] => []
  | payload :: payloads =>
    ⟨start % 2 ^ 32, sha.hex payload, payload⟩ :: indexedParts sha (start + 1) payloads

/-- The evidence names the digest and the number of parts of the manifest. -/
def ReadEvidence.Names (read : ReadEvidence) (digest : String) (count : ℕ) : Prop :=
  read.manifestSHA256 = digest ∧ read.manifestParts = count

/-- Parts that hold the targets in order, within the limits, and that the validator accepts: without a
look at the identities, and with one when every target is valid and the count is declared. -/
structure ExactManifest (sha : Sha256) (targets : List Target) (parts : List Bytes) (digest : String)
    (count : ℕ) : Prop where
  lists : ∃ groups : List (List Target), parts.map manifestTargets = groups.map some ∧ groups.flatten = targets ∧
    ∀ group ∈ groups, group ≠ [] ∧ group.length ≤ readManifestMaxEntries
  bytes : ∀ part ∈ parts, part.length ≤ eventPartMaxBytes
  accepted : ∀ read : ReadEvidence, read.Names digest count →
    newManifestValidator.verify sha read false (indexedParts sha 0 parts) = .ok ()
  accepted_strictly : ∀ read : ReadEvidence, read.Names digest count →
    (∀ target ∈ targets, validateTarget target = .ok ()) → read.count = targets.length % 2 ^ 64 →
      newManifestValidator.verify sha read true (indexedParts sha 0 parts) = .ok ()

/-! ### Encoded targets are read back -/

/-- The texts of a target. -/
def Target.texts (target : Target) : List Bytes :=
  [target.kind, target.nodeType, target.reference, target.name, target.uri, target.relationType]

/-- Every text is UTF-8. -/
def Target.ValidTexts (target : Target) : Prop := ∀ text ∈ target.texts, ValidUtf8 text

section ReadBack

theorem renderFields_map (ms : Members) :
    renderFields (ms.map fun m => (m.1, m.2.render)) = Json.renderMembers ms := by
  induction ms with
  | nil => rfl
  | cons m ms ih =>
    cases ms with
    | nil => rfl
    | cons m' ms => rw [List.map_cons, List.map_cons, renderFields, Json.renderMembers, ← ih]; rfl

variable {name : String} {target next : Target}

theorem bytesField_eq {bytes : Bytes} (h : ValidUtf8 bytes) :
    bytesField name bytes = (bytesUnlessEmpty name bytes).map fun m => (m.1, m.2.render) := by
  rw [bytesField, bytesUnlessEmpty, memberUnless, quoteBytes_eq_quote h]
  split_ifs
  · rfl
  · rw [List.map_singleton, Json.render, String.toList_ofList]

theorem uuidField_eq (name : String) (id : UUID) :
    uuidField name id = (uuidUnlessZero name id).map fun m => (m.1, m.2.render) := by
  rw [uuidField, uuidUnlessZero, memberUnless]
  split_ifs <;> rfl

/-- The encoding of a target with valid texts is that of its JSON value. -/
theorem Target.encode_eq (h : target.ValidTexts) : target.encode = marshal target.toJson := by
  simp only [Target.ValidTexts, Target.texts, List.forall_mem_cons] at h
  obtain ⟨hkind, hnodeType, hreference, hname, huri, hrelationType, -⟩ := h
  rw [encode, marshal, toJson, Json.render, ← renderFields_map]
  simp only [List.map_append, ← uuidField_eq, ← bytesField_eq hkind, ← bytesField_eq hnodeType,
    ← bytesField_eq hreference, ← bytesField_eq hname, ← bytesField_eq huri, ← bytesField_eq hrelationType]
  rfl

theorem foldlM_memberUnless {empty : Bool} {j : Json}
    (hempty : empty = true → next = target) (hset : setMember target (name, j) = some next) :
    (memberUnless empty name j).foldlM setMember target = some next := by
  rw [memberUnless]
  split_ifs with h
  · rw [hempty h]
    rfl
  · simp [hset]

theorem foldlM_bytesUnlessEmpty {bytes : Bytes} (set : Bytes → Target)
    (hvalid : ValidUtf8 bytes) (hempty : set [] = target)
    (hset : ∀ s : String, setMember target (name, .str s) = some (set (utf8 s.toList))) :
    (bytesUnlessEmpty name bytes).foldlM setMember target = some (set bytes) := by
  refine foldlM_memberUnless (fun h => by rw [List.isEmpty_iff.mp h, hempty]) ?_
  rw [hset, String.toList_ofList, hvalid]

theorem foldlM_uuidUnlessZero {id : UUID} (set : UUID → Target)
    (hzero : set .nil = target) (hset : setMember target (name, .str id.text) = some (set id)) :
    (uuidUnlessZero name id).foldlM setMember target = some (set id) :=
  foldlM_memberUnless (fun h => by rw [eq_of_beq h, hzero]) hset

/-- The members of an encoded target. -/
def memberNames : List String := ["kind", "node_type", "reference", "name", "uri", "relation_type", "id",
  "source_id", "target_id", "owner_id"]

theorem foldName_of_mem (h : name ∈ memberNames) :
    String.ofList (foldName name) = name := by
  have hall : memberNames.all (fun name => String.ofList (foldName name) == name) = true := by decide
  exact eq_of_beq (List.all_eq_true.mp hall name h)

/-- **An encoded target with valid texts is read back.** -/
theorem decodeTarget_toJson {t : Target} (h : t.ValidTexts) : decodeTarget t.toJson = some t := by
  obtain ⟨kind, nodeType, reference, name, uri, relationType, id, sourceId, targetId, ownerId⟩ := t
  simp only [Target.ValidTexts, Target.texts, List.forall_mem_cons] at h
  obtain ⟨hkind, hnodeType, hreference, hname, huri, hrelationType, -⟩ := h
  rw [Target.toJson, decodeTarget, Target.zero]
  simp only [List.foldlM_append, Option.bind_eq_bind]
  -- the fields are stored in the order they are written
  rw [foldlM_bytesUnlessEmpty (⟨·, [], [], [], [], [], .nil, .nil, .nil, .nil⟩) hkind rfl fun s => by
    simp only [setMember, foldName_of_mem (by decide : "kind" ∈ memberNames), readBytes, readString], Option.bind_some]
  rw [foldlM_bytesUnlessEmpty (⟨kind, ·, [], [], [], [], .nil, .nil, .nil, .nil⟩) hnodeType rfl fun s => by
    simp only [setMember, foldName_of_mem (by decide : "node_type" ∈ memberNames), readBytes, readString], Option.bind_some]
  rw [foldlM_bytesUnlessEmpty (⟨kind, nodeType, ·, [], [], [], .nil, .nil, .nil, .nil⟩) hreference rfl fun s => by
    simp only [setMember, foldName_of_mem (by decide : "reference" ∈ memberNames), readBytes, readString], Option.bind_some]
  rw [foldlM_bytesUnlessEmpty (⟨kind, nodeType, reference, ·, [], [], .nil, .nil, .nil, .nil⟩) hname rfl fun s => by
    simp only [setMember, foldName_of_mem (by decide : "name" ∈ memberNames), readBytes, readString], Option.bind_some]
  rw [foldlM_bytesUnlessEmpty (⟨kind, nodeType, reference, name, ·, [], .nil, .nil, .nil, .nil⟩) huri rfl fun s => by
    simp only [setMember, foldName_of_mem (by decide : "uri" ∈ memberNames), readBytes, readString], Option.bind_some]
  rw [foldlM_bytesUnlessEmpty (⟨kind, nodeType, reference, name, uri, ·, .nil, .nil, .nil, .nil⟩) hrelationType rfl fun s => by
    simp only [setMember, foldName_of_mem (by decide : "relation_type" ∈ memberNames), readBytes, readString], Option.bind_some]
  rw [foldlM_uuidUnlessZero (⟨kind, nodeType, reference, name, uri, relationType, ·, .nil, .nil, .nil⟩) rfl (by
    simp only [setMember, foldName_of_mem (by decide : "id" ∈ memberNames), readUUID, UUID.parse_text,
      Option.map_some]), Option.bind_some]
  rw [foldlM_uuidUnlessZero (⟨kind, nodeType, reference, name, uri, relationType, id, ·, .nil, .nil⟩) rfl (by
    simp only [setMember, foldName_of_mem (by decide : "source_id" ∈ memberNames), readUUID, UUID.parse_text,
      Option.map_some]), Option.bind_some]
  rw [foldlM_uuidUnlessZero (⟨kind, nodeType, reference, name, uri, relationType, id, sourceId, ·, .nil⟩) rfl (by
    simp only [setMember, foldName_of_mem (by decide : "target_id" ∈ memberNames), readUUID, UUID.parse_text,
      Option.map_some]), Option.bind_some]
  rw [foldlM_uuidUnlessZero (⟨kind, nodeType, reference, name, uri, relationType, id, sourceId, targetId, ·⟩) rfl (by
    simp only [setMember, foldName_of_mem (by decide : "owner_id" ∈ memberNames), readUUID, UUID.parse_text,
      Option.map_some])]

theorem readBytes_eq_some {v : Json} {set : Bytes → Target}
    (h : readBytes v target set = some next) : next = target ∨ ∃ s : String, next = set (utf8 s.toList) := by
  cases v with
  | null => exact .inl (Option.some.inj h).symm
  | str s => exact .inr ⟨s, (Option.some.inj h).symm⟩
  | _ => cases h

theorem readUUID_eq_some {v : Json} {set : UUID → Target}
    (h : readUUID v target set = some next) : next = target ∨ ∃ id, next = set id := by
  cases v with
  | null => exact .inl (Option.some.inj h).symm
  | str s =>
    obtain ⟨id, -, rfl⟩ := Option.map_eq_some_iff.mp h
    exact .inr ⟨id, rfl⟩
  | _ => cases h

/-- What a member stores is UTF-8. -/
theorem setMember_validTexts {member : String × Json}
    (h : setMember target member = some next) (hvalid : target.ValidTexts) : next.ValidTexts := by
  simp only [Target.ValidTexts, Target.texts, List.forall_mem_cons] at hvalid ⊢
  obtain ⟨hkind, hnodeType, hreference, hname, huri, hrelationType, hnil⟩ := hvalid
  rw [setMember] at h
  split at h
  -- a text field, an ID field, or an unknown member
  all_goals first
    | (obtain rfl | ⟨s, rfl⟩ := readBytes_eq_some h <;> simp [validUtf8_utf8, *])
    | (obtain rfl | ⟨id, rfl⟩ := readUUID_eq_some h <;> simp [*])
    | cases h

theorem foldlM_setMember_validTexts {members : Members}
    (h : members.foldlM setMember target = some next) (hvalid : target.ValidTexts) : next.ValidTexts := by
  induction members generalizing target with
  | nil =>
    cases h
    exact hvalid
  | cons member members ih =>
    obtain ⟨stored, hstored, h⟩ := Option.bind_eq_some_iff.mp h
    exact ih h (setMember_validTexts hstored hvalid)

theorem Target.zero_validTexts : Target.zero.ValidTexts := by
  simp [ValidTexts, texts, zero, ValidUtf8, utf8]

theorem exists_of_mem_mapM {items : List Json} {targets : List Target}
    (h : items.mapM decodeTarget = some targets) (htarget : target ∈ targets) :
    ∃ item, decodeTarget item = some target := by
  induction items generalizing targets with
  | nil =>
    cases h
    cases htarget
  | cons item items ih =>
    rw [List.mapM_cons] at h
    obtain ⟨first, hfirst, h⟩ := Option.bind_eq_some_iff.mp h
    obtain ⟨rest, hrest, h⟩ := Option.bind_eq_some_iff.mp h
    cases h
    obtain rfl | htarget := List.mem_cons.mp htarget
    · exact ⟨item, hfirst⟩
    · exact ih hrest htarget

/-- **What is read from a part is UTF-8**, whatever was written. -/
theorem validTexts_of_manifestTargets {payload : Bytes} {targets : List Target}
    (h : manifestTargets payload = some targets) : ∀ target ∈ targets, target.ValidTexts := by
  obtain ⟨v, -, h⟩ := Option.bind_eq_some_iff.mp h
  cases v with
  | null =>
    cases h
    exact fun _ ht => absurd ht List.not_mem_nil
  | arr items =>
    intro target htarget
    obtain ⟨item, hitem⟩ := exists_of_mem_mapM h htarget
    cases item with
    | null =>
      cases hitem
      exact Target.zero_validTexts
    | obj members => exact foldlM_setMember_validTexts hitem Target.zero_validTexts
    | _ => cases hitem
  | _ => cases h

end ReadBack

/-! ### What the builder finishes -/

/-- The size of an encoded target. -/
def Target.size (target : Target) : ℕ := target.encode.length

/-- The array of a list of targets. -/
def encodeTargets (targets : List Target) : Bytes :=
  ascii "[" ++ joinComma (targets.map Target.encode) ++ ascii "]"

/-- The targets with a comma behind each. -/
def reckonedBytes (targets : List Target) : ℕ := (targets.map fun t => t.size + 1).sum

theorem utf8_renderItems (js : List Json) :
    utf8 (Json.renderItems js) = joinComma (js.map marshal) := by
  induction js with
  | nil => rfl
  | cons j js ih =>
    cases js with
    | nil => rfl
    | cons k ks =>
      change _ = marshal j ++ ascii "," ++ joinComma ((k :: ks).map marshal)
      rw [Json.renderItems, utf8_append, utf8_cons, ih, List.append_assoc]
      rfl

/-- An array of targets with valid texts is read back. -/
theorem manifestTargets_encodeTargets {targets : List Target} (h : ∀ target ∈ targets, target.ValidTexts) :
    manifestTargets (encodeTargets targets) = some targets := by
  have hencode : encodeTargets targets = marshal (.arr (targets.map Target.toJson)) := by
    rw [encodeTargets, marshal, Json.render, utf8_append, utf8_cons, utf8_renderItems, List.map_map,
      List.map_congr_left fun t ht => Target.encode_eq (h t ht)]
    rfl
  rw [hencode, manifestTargets, marshal, utf8Decode_utf8, Json.parse_render, Option.bind_some, decodeTargets]
  clear hencode
  induction targets with
  | nil => rfl
  | cons t ts ih =>
    rw [List.map_cons, List.mapM_cons, decodeTarget_toJson (h t List.mem_cons_self),
      ih fun t' ht' => h t' (List.mem_cons_of_mem t ht')]
    rfl

theorem targets_withTargets (codec : Codec) (targets : List Target) :
    codec.withTargets.targets targets = some (encodeTargets targets) := by
  have hmap : targets.mapM codec.withTargets.target = some (targets.map Target.encode) := by
    induction targets with
    | nil => rfl
    | cons t ts ih => rw [List.mapM_cons, ih]; rfl
  rw [Codec.targets, hmap, Option.map_some, encodeTargets]

theorem length_joinComma {encoded : List Bytes} (h : encoded ≠ []) :
    (joinComma encoded).length + 1 = (encoded.map fun b => b.length + 1).sum := by
  induction encoded with
  | nil => exact absurd rfl h
  | cons b bs ih =>
    cases bs with
    | nil => simp [joinComma]
    | cons c cs =>
      have := ih (List.cons_ne_nil c cs)
      rw [List.map_cons, List.sum_cons, ← this, joinComma, List.length_append, List.length_append]
      change b.length + 1 + _ + 1 = _
      omega

/-- **The builder reckons one byte too many** for an array that is not empty. -/
theorem length_encodeTargets {targets : List Target} (h : targets ≠ []) :
    (encodeTargets targets).length + 1 = 2 + reckonedBytes targets := by
  have hne : targets.map Target.encode ≠ [] := by simpa using h
  have hlen := length_joinComma hne
  rw [List.map_map] at hlen
  have hbrackets : (ascii "[").length = 1 ∧ (ascii "]").length = 1 := by decide
  rw [encodeTargets, List.length_append, List.length_append, hbrackets.1, hbrackets.2, reckonedBytes]
  simp only [Function.comp_def, Target.size] at hlen ⊢
  omega

/-- An unfinished array within its limits. -/
structure ManifestBuilder.Fits (b : ManifestBuilder) : Prop where
  nonempty : b.current ≠ []
  entries : b.current.length ≤ readManifestMaxEntries
  reckoned : b.currentBytes = 2 + reckonedBytes b.current
  bytes : b.currentBytes ≤ eventPartMaxBytes + 1

/-- An array of the manifest. -/
structure ManifestGroup (targets : List Target) : Prop where
  nonempty : targets ≠ []
  entries : targets.length ≤ readManifestMaxEntries
  bytes : (encodeTargets targets).length ≤ eventPartMaxBytes

namespace ManifestBuilder

variable {codec : Codec} {b next : ManifestBuilder} {target : Target} {emitted parts : List Bytes}

theorem Fits.group (h : b.Fits) : ManifestGroup b.current := by
  refine ⟨h.nonempty, h.entries, ?_⟩
  have hlen := length_encodeTargets h.nonempty
  have hbytes := h.bytes
  rw [h.reckoned] at hbytes
  omega

theorem add_ok (h : b.add codec.withTargets target = .ok (next, emitted)) :
    target.size + 2 ≤ eventPartMaxBytes ∧
    ((b.full (target.size + 1) = true ∧ next = ⟨[target], 2 + (target.size + 1)⟩ ∧
        emitted = [encodeTargets b.current]) ∨
      (b.full (target.size + 1) = false ∧
        next = ⟨b.current ++ [target], b.currentBytes + (target.size + 1)⟩ ∧ emitted = [])) := by
  have htarget : codec.withTargets.target target = some target.encode := rfl
  rw [add, htarget] at h
  simp only [flush, targets_withTargets] at h
  split_ifs at h with hsize hfull
  · refine ⟨Nat.not_lt.mp hsize, .inl ⟨hfull, ?_⟩⟩
    cases h
    exact ⟨rfl, rfl⟩
  · refine ⟨Nat.not_lt.mp hsize, .inr ⟨Bool.eq_false_iff.mpr hfull, ?_⟩⟩
    cases h
    exact ⟨rfl, rfl⟩

theorem full_eq_false {n : ℕ} : b.full n = false ↔
    b.current.length ≠ readManifestMaxEntries ∧ b.currentBytes + n ≤ eventPartMaxBytes := by
  simp [full]

/-- A target keeps an unfinished array within its limits. -/
theorem Fits.add (h : b.Fits) (hadd : b.add codec.withTargets target = .ok (next, emitted)) :
    next.Fits ∧ ∃ groups : List (List Target), emitted = groups.map encodeTargets ∧
      groups.flatten ++ next.current = b.current ++ [target] ∧ ∀ group ∈ groups, ManifestGroup group := by
  obtain ⟨hsize, ⟨-, rfl, rfl⟩ | ⟨hfull, rfl, rfl⟩⟩ := add_ok hadd
  · refine ⟨⟨List.cons_ne_nil _ _, by simp [readManifestMaxEntries], by simp [reckonedBytes], ?_⟩,
      [b.current], rfl, by simp, ?_⟩
    · dsimp only
      omega
    · intro group hgroup
      rw [List.mem_singleton.mp hgroup]
      exact h.group
  · obtain ⟨hcount, hbytes⟩ := full_eq_false.mp hfull
    have hentries := h.entries
    refine ⟨⟨by simp, ?_, ?_, ?_⟩, [], rfl, rfl, by simp⟩
    · rw [List.length_append, List.length_singleton]
      omega
    · simp only [h.reckoned, reckonedBytes, List.map_append, List.sum_append, List.map_cons, List.map_nil,
        List.sum_cons, List.sum_nil]
      omega
    · dsimp only
      omega

theorem Fits.finish (h : b.Fits) (hfinish : b.finish codec.withTargets = .ok parts) :
    parts = [encodeTargets b.current] := by
  have hne : b.current.isEmpty = false := by simpa using h.nonempty
  rw [ManifestBuilder.finish, hne] at hfinish
  simp only [flush, targets_withTargets] at hfinish
  cases hfinish
  rfl

/-- The arrays that are finished behind an unfinished one. -/
theorem Fits.build {targets : List Target} (h : b.Fits) (hbuild : b.build codec.withTargets targets = .ok parts) :
    ∃ groups : List (List Target), parts = groups.map encodeTargets ∧
      groups.flatten = b.current ++ targets ∧ ∀ group ∈ groups, ManifestGroup group := by
  induction targets generalizing b parts with
  | nil =>
    rw [ManifestBuilder.build] at hbuild
    refine ⟨[b.current], h.finish hbuild, by simp, fun group hgroup => ?_⟩
    rw [List.mem_singleton.mp hgroup]
    exact h.group
  | cons target targets ih =>
    rw [ManifestBuilder.build] at hbuild
    obtain ⟨⟨next, emitted⟩, hadd, hbuild⟩ := except_bind_ok.mp hbuild
    obtain ⟨rest, hrest, hbuild⟩ := except_bind_ok.mp hbuild
    cases hbuild
    obtain ⟨hnext, groups, rfl, hflat, hgroups⟩ := h.add hadd
    obtain ⟨groups', rfl, hflat', hgroups'⟩ := ih hnext hrest
    refine ⟨groups ++ groups', (List.map_append ..).symm, ?_, ?_⟩
    · rw [List.flatten_append, hflat', ← List.append_assoc, hflat, List.append_assoc]
      rfl
    · intro group hgroup
      exact (List.mem_append.mp hgroup).elim (hgroups group) (hgroups' group)

end ManifestBuilder

/-- The first target does not fill an array to its last byte. -/
def LeavesRoom (targets : List Target) : Prop :=
  ∀ target ∈ targets.head?, target.size + 2 ≠ eventPartMaxBytes

/-! ### What the validator accepts -/

section Accepts

variable (sha : Sha256)

variable {targets : List Target} {parts : List Bytes} {digest : String} {count : ℕ}

/-- The number of targets of an array. -/
theorem manifestPayloadCount_encodeTargets {strict : Bool}
    (h : ManifestGroup targets) (htexts : ∀ target ∈ targets, target.ValidTexts)
    (hvalid : strict = true → ∀ target ∈ targets, validateTarget target = .ok ()) :
    manifestPayloadCount (encodeTargets targets) strict = targets.length := by
  have hpos : ¬(targets.length = 0 ∨ targets.length > readManifestMaxEntries) := by
    have := List.length_pos_of_ne_nil h.nonempty
    have := h.entries
    omega
  have hall : (strict && !targets.all fun target => validateTarget target matches .ok _) = false := by
    cases strict with
    | false => rfl
    | true =>
      rw [Bool.true_and, Bool.not_eq_false', List.all_eq_true]
      intro target htarget
      rw [hvalid rfl target htarget]
  rw [manifestPayloadCount, manifestTargets_encodeTargets htexts]
  dsimp only
  rw [if_neg hpos, hall]
  rfl

/-- An array is taken as the next part. -/
theorem add_encodeTargets {strict : Bool} (h : ManifestGroup targets) (htexts : ∀ target ∈ targets, target.ValidTexts)
    (hvalid : strict = true → ∀ target ∈ targets, validateTarget target = .ok ()) (root : Bytes)
    (start identities : ℕ) :
    ManifestValidator.add sha ⟨root, start % 2 ^ 32, identities % 2 ^ 64⟩
        ⟨start % 2 ^ 32, sha.hex (encodeTargets targets), encodeTargets targets⟩ strict =
      .ok ⟨root ++ encodeTargets targets, (start + 1) % 2 ^ 32,
        (identities + targets.length) % 2 ^ 64⟩ := by
  have hpos := List.length_pos_of_ne_nil h.nonempty
  rw [ManifestValidator.add]
  dsimp only
  rw [if_neg (not_not.mpr rfl), if_neg (not_or.mpr ⟨Nat.not_lt.mpr h.bytes, not_not.mpr rfl⟩),
    manifestPayloadCount_encodeTargets h htexts hvalid, if_neg (by omega), Nat.mod_add_mod, Nat.mod_add_mod]

/-- All arrays are taken, and the end compares what they add up to. -/
theorem verify_encodeTargets (read : ReadEvidence) (strict : Bool) {groups : List (List Target)}
    (h : ∀ group ∈ groups, ManifestGroup group) (htexts : ∀ target ∈ groups.flatten, target.ValidTexts)
    (hvalid : strict = true → ∀ target ∈ groups.flatten, validateTarget target = .ok ())
    (root : Bytes) (start identities : ℕ) :
    ManifestValidator.verify sha read strict ⟨root, start % 2 ^ 32, identities % 2 ^ 64⟩
        (indexedParts sha start (groups.map encodeTargets)) =
      ManifestValidator.finish sha ⟨root ++ (groups.map encodeTargets).flatten,
        (start + groups.length) % 2 ^ 32, (identities + groups.flatten.length) % 2 ^ 64⟩ read strict := by
  induction groups generalizing root start identities with
  | nil =>
    rw [List.map_nil, indexedParts, ManifestValidator.verify, List.flatten_nil, List.append_nil]
    rfl
  | cons group groups ih =>
    have hhere : ∀ target ∈ group, target ∈ (group :: groups).flatten := fun target ht =>
      List.mem_flatten_of_mem List.mem_cons_self ht
    have hlater : ∀ target ∈ groups.flatten, target ∈ (group :: groups).flatten := fun target ht =>
      List.mem_append_right group ht
    have hgroup := add_encodeTargets sha (h group List.mem_cons_self) (fun t ht => htexts t (hhere t ht))
      (fun hs target ht => hvalid hs target (hhere target ht)) root start identities
    rw [List.map_cons, indexedParts, ManifestValidator.verify, hgroup]
    change ManifestValidator.verify sha read strict _ _ = _
    rw [ih (fun g hg => h g (List.mem_cons_of_mem _ hg)) (fun t ht => htexts t (hlater t ht))
      fun hs target ht => hvalid hs target (hlater target ht)]
    rw [List.flatten_cons, List.flatten_cons, List.length_append, List.length_cons, List.append_assoc,
      Nat.add_assoc start, Nat.add_comm 1, Nat.add_assoc identities]

/-- Arrays of the manifest with valid texts are exact. -/
theorem exactManifest_of_groups {groups : List (List Target)} (h : ∀ group ∈ groups, ManifestGroup group)
    (htexts : ∀ target ∈ groups.flatten, target.ValidTexts) :
    ExactManifest sha groups.flatten (groups.map encodeTargets)
      (sha.hex (groups.map encodeTargets).flatten) ((groups.map encodeTargets).length % 2 ^ 32) := by
  have haccept : ∀ (read : ReadEvidence) (strict : Bool),
      read.Names (sha.hex (groups.map encodeTargets).flatten) ((groups.map encodeTargets).length % 2 ^ 32) →
      (strict = true → ∀ target ∈ groups.flatten, validateTarget target = .ok ()) →
      (strict = true → read.count = groups.flatten.length % 2 ^ 64) →
        newManifestValidator.verify sha read strict (indexedParts sha 0 (groups.map encodeTargets)) =
          .ok () := by
    intro read strict hnames hvalid hcount
    have hverify := verify_encodeTargets sha read strict h htexts hvalid [] 0 0
    rw [List.nil_append, Nat.zero_add, Nat.zero_add] at hverify
    refine hverify.trans ?_
    have hidentities : (strict && (groups.flatten.length % 2 ^ 64 != read.count)) = false := by
      cases strict with
      | false => rfl
      | true => rw [hcount rfl]; simp
    rw [ManifestValidator.finish]
    dsimp only
    rw [hnames.1, hnames.2, List.length_map, if_neg (not_not.mpr rfl), if_neg (not_not.mpr rfl), hidentities]
    rfl
  refine ⟨⟨groups, ?_, rfl, fun group hgroup => ⟨(h group hgroup).nonempty, (h group hgroup).entries⟩⟩,
    fun part hpart => ?_, fun read hnames => ?_, fun read hnames hvalid hcount => ?_⟩
  · rw [List.map_map]
    exact List.map_congr_left fun group hgroup => manifestTargets_encodeTargets fun target ht =>
      htexts target (List.mem_flatten_of_mem hgroup ht)
  · obtain ⟨group, hgroup, rfl⟩ := List.mem_map.mp hpart
    exact (h group hgroup).bytes
  · exact haccept read false hnames nofun nofun
  · exact haccept read true hnames (fun _ => hvalid) fun _ => hcount

/-- A part without targets is in no exact manifest. -/
theorem not_exactManifest_of_empty (h : encodeTargets [] ∈ parts) : ¬ ExactManifest sha targets parts digest count := by
  intro hexact
  obtain ⟨groups, hgroups, -, hlimits⟩ := hexact.lists
  have hmem : some [] ∈ groups.map some := by
    rw [← hgroups]
    exact List.mem_map.mpr ⟨_, h, manifestTargets_encodeTargets (by simp)⟩
  obtain ⟨group, hgroup, hnil⟩ := List.mem_map.mp hmem
  exact (hlimits group hgroup).1 (Option.some.inj hnil)

/-- The targets of an exact manifest are read from its parts, so their texts are valid. -/
theorem ExactManifest.validTexts
    (h : ExactManifest sha targets parts digest count) : ∀ target ∈ targets, target.ValidTexts := by
  obtain ⟨groups, hgroups, rfl, -⟩ := h.lists
  intro target htarget
  obtain ⟨group, hgroup, htarget⟩ := List.mem_flatten.mp htarget
  have hread : some group ∈ parts.map manifestTargets := hgroups ▸ List.mem_map_of_mem hgroup
  obtain ⟨part, -, hpart⟩ := List.mem_map.mp hread
  exact validTexts_of_manifestTargets hpart target htarget

/-- **When a manifest is exact.**  The parts hold the targets in order within their limits and the validator
accepts them exactly when every text is UTF-8 and the first target does not fill an array: for a target that
fills one the builder finishes the array that is still empty, and invalid bytes are read back as U+FFFD. -/
theorem exact_manifest_iff (codec : Codec) (sha : Sha256) (targets : List Target) (hparts : readManifestParts codec.withTargets targets = .ok parts)
    (hdigest : readManifestDigest codec.withTargets sha targets = .ok (digest, count)) :
    ExactManifest sha targets parts digest count ↔
      LeavesRoom targets ∧ ∀ target ∈ targets, target.ValidTexts := by
  rw [readManifestDigest, hparts] at hdigest
  cases hdigest
  rw [readManifestParts] at hparts
  cases targets with
  | nil =>
    cases hparts
    exact iff_of_true (exactManifest_of_groups sha (fun _ h => absurd h List.not_mem_nil) (by simp))
      (by simp [LeavesRoom])
  | cons target targets =>
    rw [ManifestBuilder.build] at hparts
    obtain ⟨⟨next, emitted⟩, hadd, hbuild⟩ := except_bind_ok.mp hparts
    obtain ⟨rest, hrest, hbuild⟩ := except_bind_ok.mp hbuild
    cases hbuild
    have hroom : LeavesRoom (target :: targets) ↔ target.size + 2 ≠ eventPartMaxBytes := by
      simp [LeavesRoom]
    obtain ⟨hsize, ⟨hfull, rfl, rfl⟩ | ⟨hfull, rfl, rfl⟩⟩ := ManifestBuilder.add_ok hadd
    · -- the empty array is finished
      rw [hroom]
      refine iff_of_false (not_exactManifest_of_empty sha List.mem_cons_self) fun h => h.1 ?_
      rw [← Bool.not_eq_false, ManifestBuilder.full_eq_false] at hfull
      simp only [newManifestBuilder, List.length_nil, readManifestMaxEntries, ne_eq, OfNat.zero_ne_ofNat,
        not_false_eq_true, true_and] at hfull
      omega
    · obtain ⟨-, hbytes⟩ := ManifestBuilder.full_eq_false.mp hfull
      rw [newManifestBuilder] at hbytes
      have hfits : ManifestBuilder.Fits ⟨[] ++ [target], 2 + (target.size + 1)⟩ :=
        ⟨by simp, by simp [readManifestMaxEntries], by simp [reckonedBytes], by dsimp only at hbytes ⊢; omega⟩
      obtain ⟨groups, hgroups, hflat, hlimits⟩ := hfits.build hrest
      constructor
      · intro hexact
        refine ⟨hroom.mpr ?_, hexact.validTexts⟩
        dsimp only at hbytes
        omega
      · rintro ⟨-, htexts⟩
        have hexact := exactManifest_of_groups sha hlimits (hflat ▸ htexts)
        rwa [hflat, ← hgroups] at hexact

end Accepts

/-! ### Targets that fill an array -/

namespace ManifestBuilder

variable (codec : Codec) {b : ManifestBuilder} {target : Target}

theorem add_eq_of_fits (h : b.full (target.size + 1) = false) (hsize : target.size + 2 ≤ eventPartMaxBytes) :
    b.add codec.withTargets target =
      .ok (⟨b.current ++ [target], b.currentBytes + (target.size + 1)⟩, []) := by
  have htarget : codec.withTargets.target target = some target.encode := rfl
  rw [Target.size] at h hsize
  rw [add, htarget]
  simp only [h, if_neg (Nat.not_lt.mpr hsize)]
  rfl

theorem add_eq_of_full (h : b.full (target.size + 1) = true) (hsize : target.size + 2 ≤ eventPartMaxBytes) :
    b.add codec.withTargets target =
      .ok (⟨[target], 2 + (target.size + 1)⟩, [encodeTargets b.current]) := by
  have htarget : codec.withTargets.target target = some target.encode := rfl
  rw [Target.size] at h hsize
  rw [add, htarget]
  simp only [h, if_neg (Nat.not_lt.mpr hsize), if_true, flush, targets_withTargets]
  rfl

theorem build_singleton (bytes : ℕ) (target : Target) :
    build codec.withTargets ⟨[target], bytes⟩ [] = .ok [encodeTargets [target]] := by
  simp only [build, finish, flush, targets_withTargets]
  rfl

/-- A target that fills an array does not seem to fit, not even in an empty one. -/
theorem full_of_size (h : target.size + 2 = eventPartMaxBytes) (hbytes : 2 ≤ b.currentBytes) :
    b.full (target.size + 1) = true := by
  rw [← Bool.not_eq_false, full_eq_false]
  omega

end ManifestBuilder

theorem validTexts_named (cs : List Char) : Target.ValidTexts { Target.zero with name := utf8 cs } := by
  have hempty : ValidUtf8 [] := rfl
  simp [Target.ValidTexts, Target.texts, Target.zero, validUtf8_utf8, hempty]

/-- A target that has only a name, of `n` letters. -/
def namedTarget (n : ℕ) : Target := { Target.zero with name := utf8 (List.replicate n 'a') }

/-- A target whose array has exactly as many bytes as a part may have. -/
def fullTarget : Target := namedTarget 65523

theorem quote_replicate (n : ℕ) : quote (List.replicate n 'a') =
    '\x22' :: List.replicate n 'a' ++ ['\x22'] := by
  have hescape : escapeChar 'a' = ['a'] := by decide
  rw [quote, List.flatMap_replicate, hescape, List.flatten_replicate_singleton]

theorem length_utf8_replicate (n : ℕ) : (utf8 (List.replicate n 'a')).length = n := by
  have hchar : (utf8Char 'a').length = 1 := by decide
  rw [utf8, List.length_flatMap, List.map_replicate, hchar]
  simp

theorem size_namedTarget {n : ℕ} (h : n ≠ 0) : (namedTarget n).size = n + 11 := by
  have hne : (utf8 (List.replicate n 'a')).isEmpty = false := by
    rw [List.isEmpty_eq_false_iff, ← List.length_pos_iff, length_utf8_replicate]
    omega
  have hfields : (namedTarget n).fields = [("name", quote (List.replicate n 'a'))] := by
    simp [namedTarget, Target.fields, Target.zero, bytesField, uuidField, hne,
      quoteBytes_eq_quote (validUtf8_utf8 _), utf8Decode_utf8]
  have hhead : (utf8 ('\x7b' :: quote "name".toList ++ [':', '\x22'])).length = 9 := by decide
  have hfoot : (utf8 ['\x22', '\x7d']).length = 2 := by decide
  have htext : '\x7b' :: renderFields (namedTarget n).fields ++ ['\x7d'] =
      ('\x7b' :: quote "name".toList ++ [':', '\x22']) ++ (List.replicate n 'a' ++ ['\x22', '\x7d']) := by
    rw [hfields, renderFields, quote_replicate]
    simp
  rw [Target.size, Target.encode, htext, utf8_append, List.length_append, hhead, utf8_append,
    List.length_append, length_utf8_replicate, hfoot]
  omega

theorem size_fullTarget : fullTarget.size + 2 = eventPartMaxBytes := by
  rw [fullTarget, size_namedTarget (by decide)]
  rfl

/-- A codec of events that is never asked. -/
def blankCodec : Codec := ⟨fun _ => none, fun _ => none, fun _ => none, fun _ => none, fun _ => none⟩

/-- A name of two letters; its second one has two bytes. -/
def shortTarget : Target := { Target.zero with name := utf8 ['n', 'é'] }

theorem readManifestParts_short_full : readManifestParts blankCodec.withTargets [shortTarget, fullTarget] =
    .ok [encodeTargets [shortTarget], encodeTargets [fullTarget]] := by
  have hsize : shortTarget.size = 14 := by decide
  have hfits : newManifestBuilder.full (shortTarget.size + 1) = false := by
    rw [hsize]
    rfl
  have hfull : ManifestBuilder.full ⟨[shortTarget], 2 + (shortTarget.size + 1)⟩ (fullTarget.size + 1) = true :=
    ManifestBuilder.full_of_size size_fullTarget (Nat.le_add_right 2 _)
  have hshort := ManifestBuilder.add_eq_of_fits blankCodec hfits (by rw [hsize]; decide)
  have hnext := ManifestBuilder.add_eq_of_full blankCodec hfull size_fullTarget.le
  rw [newManifestBuilder, List.nil_append] at hshort
  refine except_bind_ok.mpr ⟨_, hshort, except_bind_ok.mpr ⟨_, ?_, rfl⟩⟩
  refine except_bind_ok.mpr ⟨_, hnext, except_bind_ok.mpr ⟨_, ?_, rfl⟩⟩
  exact ManifestBuilder.build_singleton blankCodec _ fullTarget

/-- A target that fills an array is the second one of the list: the array before it is finished for it. -/
theorem exact_manifest_full_second :
    ExactManifest sampleSha [shortTarget, fullTarget] [encodeTargets [shortTarget], encodeTargets [fullTarget]]
      (sampleSha.hex [encodeTargets [shortTarget], encodeTargets [fullTarget]].flatten) 2 := by
  have hdigest : readManifestDigest blankCodec.withTargets sampleSha [shortTarget, fullTarget] =
      .ok (sampleSha.hex [encodeTargets [shortTarget], encodeTargets [fullTarget]].flatten, 2) := by
    rw [readManifestDigest, readManifestParts_short_full]
    rfl
  refine (exact_manifest_iff blankCodec sampleSha _ readManifestParts_short_full hdigest).mpr ⟨?_, ?_⟩
  · have hroom : shortTarget.size + 2 ≠ eventPartMaxBytes := by decide
    simpa [LeavesRoom] using hroom
  · intro target htarget
    simp only [List.mem_cons, List.not_mem_nil, or_false] at htarget
    obtain rfl | rfl := htarget
    · exact validTexts_named ['n', 'é']
    · exact validTexts_named (List.replicate 65523 'a')

/-- **A full first target has a manifest that no check accepts**: its first part is an empty array. -/
theorem full_target_rejected :
    ∃ parts digest count, readManifestParts blankCodec.withTargets [fullTarget] = .ok parts ∧
      readManifestDigest blankCodec.withTargets sampleSha [fullTarget] = .ok (digest, count) ∧
      ∀ read : ReadEvidence, read.Names digest count →
        newManifestValidator.verify sampleSha read false (indexedParts sampleSha 0 parts) =
          .error "has read manifest part 0 that does not decode as a valid list of read targets" := by
  have hfull := ManifestBuilder.full_of_size (b := newManifestBuilder) size_fullTarget le_rfl
  have hadd := ManifestBuilder.add_eq_of_full blankCodec hfull size_fullTarget.le
  have hparts : readManifestParts blankCodec.withTargets [fullTarget] =
      .ok [encodeTargets [], encodeTargets [fullTarget]] :=
    except_bind_ok.mpr ⟨_, hadd, except_bind_ok.mpr ⟨_, ManifestBuilder.build_singleton blankCodec _ _, rfl⟩⟩
  refine ⟨_, _, _, hparts, by rw [readManifestDigest, hparts]; rfl, fun read _ => ?_⟩
  rfl

end Tack.Audit

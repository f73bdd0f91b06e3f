import Tack.Lib.Run
import Tack.Lib.Totals
import Tack.Nodes.Db
import Tack.Search.Rescan

/-!
# The metadata of an organization

The property definitions and node types of one organization with what their writes keep up to date: the
metadata epoch, the projection and the rescan.  A metadata pass of the rescan computes the digest of the
projection anew and activates it when no write came in between.

## Main definitions

* `Search.MetadataState` — the records, the epoch, the projection and the rescan.
* `Search.applyProjectionChange` — the digest after one write.
* `Search.updatePropertyDefinition`, `Search.updateNodeTypeIndex` — what a write keeps up to date.
* `Search.indexMetadata` — one page of the metadata pass.
* `Search.MetadataMove`, `Search.metadataStep` — the operations of the stores and of the rescan.
-/

namespace Tack.Search

open Lib

structure MetadataEnv where
  orgId : UUID
  sha : List Byte → BitVec 256

structure MetadataState (Key : Type) where
  definitions : Table UUID (Stored DefinitionRecord)
  types : Table UUID (Stored TypeRecord)
  epoch : ℕ
  /-- The digest that releases without projection records read. -/
  legacyDigest : List Byte
  projection : Option ProjectionState
  rescan : RescanState Key

variable {Key : Type}

/-- The sum of the contributions of all stored records. -/
def MetadataState.total (sha : List Byte → BitVec 256) (s : MetadataState Key) : ℤ :=
  s.definitions.total (definitionWeight sha) + s.types.total (typeWeight sha)

/-- The rendering inputs of all stored records. -/
def MetadataState.inputs (s : MetadataState Key) : List Json :=
  (s.definitions.entries.map fun e => definitionContributionInput e.2.record) ++
    s.types.entries.map fun e => typeContributionInput e.2.record

/-! ### The projection -/

/-- What one write changes: the contributions and legacy hashes before and after, and whether the record
is new. -/
structure ProjectionChange where
  previous : Option (BitVec 256)
  next : Option (BitVec 256)
  legacyPrevious : Option (BitVec 256)
  legacyNext : Option (BitVec 256)
  created : Bool

/-- A write that keeps the bytes of the record keeps the epoch. -/
def bumpMetadataEpoch {α : Type*} [DecidableEq α] (previous next : Option (Stored α)) (s : MetadataState Key) :
    Option (MetadataState Key) :=
  if previous = next then some s
  else if s.epoch = maxCounter then none
  else some { s with epoch := s.epoch + 1 }

def updateProjectionDigest (previous next : Option (BitVec 256)) (s : MetadataState Key) : MetadataState Key :=
  if previous = next then s
  else { s with legacyDigest := sumContributions s.legacyDigest previous next }

def organizationHasNoMetadata (s : MetadataState Key) : Bool :=
  s.definitions.entries.isEmpty && s.types.entries.isEmpty

def applyProjectionChange (change : ProjectionChange) (s : MetadataState Key) : Option (MetadataState Key) :=
  match s.projection with
  | some state =>
    if state.writerProjection then
      (replaceContribution state.digest change.previous change.next).map fun digest =>
        { s with projection := some { state with digest := digest } }
    else some { s with projection := none }
  | none =>
    let s := updateProjectionDigest change.legacyPrevious change.legacyNext s
    -- the first metadata record of the organization
    if change.created && organizationHasNoMetadata s then
      some { s with projection := some ⟨searchRendererVersion, searchProjectionFormat,
        String.ofList (hexEncode (sumContributions [] none change.next)), 0⟩ }
    else some s

def requestMetadataRescan (request : RescanRequest) (s : MetadataState Key) : Option (MetadataState Key) :=
  (requestSearchRescan s.epoch request s.rescan).map fun rescan => { s with rescan := rescan }

/-! ### Property definitions -/

def definitionProjectionChange (sha : List Byte → BitVec 256) (old next : Option DefinitionRecord) :
    ProjectionChange where
  previous := definitionContribution sha old
  next := definitionContribution sha next
  legacyPrevious := declarationHash sha old
  legacyNext := declarationHash sha next
  created := old.isNone

/-- The distinct old and new names of a definition. -/
def affectedPropertyNames (old next : Option DefinitionRecord) : List String :=
  ((old.toList ++ next.toList).map fun d => d.name).foldl
    (fun names name => if name ∈ names then names else names ++ [name]) []

def updatePropertyDefinition (sha : List Byte → BitVec 256) (rescan : Bool)
    (previous : Option (Stored DefinitionRecord)) (next : Option DefinitionRecord) (s : MetadataState Key) :
    Option (MetadataState Key) := do
  let old := previous.map Stored.record
  let s ← bumpMetadataEpoch previous (next.map DefinitionRecord.marshal) s
  let change := definitionProjectionChange sha old next
  if change.previous = change.next ∧ change.legacyPrevious = change.legacyNext then return s
  let s ← applyProjectionChange change s
  if !rescan then return s
  requestMetadataRescan ⟨false, affectedPropertyNames old next, [], [], false, false⟩ s

/-- `EffectiveSearchProjection` has a projection for a definition without a declaration. -/
def DefinitionRecord.hasDefaultProjection (d : DefinitionRecord) : Bool :=
  d.referenceTargetTypeKey ≠ "" || ["text", "url", "number", "date", "timestamp", "select", "multi_select",
    "checkbox", "uuid"].contains d.type

def setPropertyDef (env : MetadataEnv) (rescan : Bool) (d : DefinitionRecord) (s : MetadataState Key) :
    Option (MetadataState Key) :=
  let previous := s.definitions.get d.id
  -- a reference must be indexed, and a new definition needs a projection
  if d.orgId ≠ env.orgId ∨ (d.type = "uuid" ∧ d.referenceTargetTypeKey ≠ "" ∧ d.indexed = false) then none
  else if previous = none ∧ d.search = none ∧ d.hasDefaultProjection = false then none
  else (updatePropertyDefinition env.sha rescan previous (some d) s).map fun s =>
    { s with definitions := s.definitions.set d.id d.marshal }

/-- A record that does not match `before` is left alone. -/
def replacePropertyDef (env : MetadataEnv) (rescan : Bool) (before after : DefinitionRecord)
    (s : MetadataState Key) : Option (MetadataState Key) :=
  if after.orgId ≠ env.orgId then none
  else match s.definitions.get after.id with
    | none => some s
    | some stored =>
      if stored.record.decoded = before.decoded then
        (updatePropertyDefinition env.sha rescan (some stored) (some after) s).map fun s =>
          { s with definitions := s.definitions.set after.id after.marshal }
      else some s

def deletePropertyDef (env : MetadataEnv) (rescan : Bool) (id : UUID) (s : MetadataState Key) :
    Option (MetadataState Key) :=
  (updatePropertyDefinition env.sha rescan (s.definitions.get id) none s).map fun s =>
    { s with definitions := s.definitions.erase id }

/-- Stores a declaration for a definition without one.  Neither the digest nor the epoch changes. -/
def setProjectionIfNil (env : MetadataEnv) (id : UUID) (projection : Json) (s : MetadataState Key) :
    Option (MetadataState Key) := do
  let stored ← s.definitions.get id
  if stored.record.orgId ≠ env.orgId ∨ stored.record.id ≠ id then none
  else match stored.record.search with
    | some current => if current = projection then some s else none
    | none =>
      some { s with
        definitions := s.definitions.set id { stored.record with search := some projection }.marshal }

/-! ### Node types -/

def TypeRecord.accessDeclaration (t : TypeRecord) :
    String × Option (List String) × Option (List String) × Option (List String) :=
  (t.typeKey, t.features, t.canLiveUnder, t.canContain)

/-- The distinct nonempty type keys before and after. -/
def typeKeysOf (old next : Option TypeRecord) : List String :=
  ((old.toList ++ next.toList).map fun t => t.typeKey).foldl
    (fun keys key => if key = "" ∨ key ∈ keys then keys else keys ++ [key]) []

/-- The features that only one side declares. -/
def changedFeatures (old next : Option TypeRecord) : List String :=
  let before := (old.bind fun t => t.features).getD []
  let after := (next.bind fun t => t.features).getD []
  let changed := before.foldl
    (fun changed f => if f ∉ after ∧ f ∉ changed then changed ++ [f] else changed) []
  after.foldl (fun changed f => if f ∉ before ∧ f ∉ changed then changed ++ [f] else changed) changed

def applyTypeProjectionChange (sha : List Byte → BitVec 256) (old next : Option TypeRecord)
    (s : MetadataState Key) : Option (MetadataState Key) :=
  let change : ProjectionChange := ⟨typeContribution sha old, typeContribution sha next, none, none, old.isNone⟩
  if change.previous = change.next then some s else applyProjectionChange change s

def updateNodeTypeIndex (sha : List Byte → BitVec 256) (rescan : Bool) (previous : Option (Stored TypeRecord))
    (next : Option TypeRecord) (s : MetadataState Key) : Option (MetadataState Key) := do
  let old := previous.map Stored.record
  let s ← bumpMetadataEpoch previous (next.map TypeRecord.marshal) s
  let s ← applyTypeProjectionChange sha old next s
  let request : RescanRequest := ⟨false, [], typeKeysOf old next, changedFeatures old next,
    decide (old.map TypeRecord.accessDeclaration ≠ next.map TypeRecord.accessDeclaration), false⟩
  if !rescan || !request.access && request.features.isEmpty then return s
  requestMetadataRescan request s

def setNodeType (env : MetadataEnv) (rescan : Bool) (t : TypeRecord) (s : MetadataState Key) :
    Option (MetadataState Key) :=
  if t.orgId ≠ env.orgId then none
  else (updateNodeTypeIndex env.sha rescan (s.types.get t.id) (some t) s).map fun s =>
    { s with types := s.types.set t.id t.marshal }

/-- The members of a stored object with those that differ between `before` and `after` taken from `after`. -/
def patchMembers (stored before after : List (String × Json)) : List (String × Json) :=
  let changed (name : String) : Bool := decide (before.lookup name ≠ after.lookup name)
  let kept := stored.filterMap fun m => if changed m.1 then (after.lookup m.1).map (m.1, ·) else some m
  kept ++ after.filter fun m => changed m.1 && (stored.lookup m.1).isNone

/-- A field of the patched record. -/
def patchField {α : Type*} [DecidableEq α] (stored before after : α) : α :=
  if before = after then stored else after

/-- The stored record with the fields that differ between `before` and `after` taken from `after`. -/
def patchedNodeType (stored : Stored TypeRecord) (before after : TypeRecord) : Stored TypeRecord where
  record :=
    { id := patchField stored.record.id before.id after.id
      orgId := patchField stored.record.orgId before.orgId after.orgId
      typeKey := patchField stored.record.typeKey before.typeKey after.typeKey
      features := patchField stored.record.features before.features after.features
      canContain := patchField stored.record.canContain before.canContain after.canContain
      canLiveUnder := patchField stored.record.canLiveUnder before.canLiveUnder after.canLiveUnder
      rest := patchMembers stored.record.rest before.rest after.rest }
  spelling := stored.spelling

def replaceNodeType (env : MetadataEnv) (rescan : Bool) (before after : TypeRecord) (s : MetadataState Key) :
    Option (MetadataState Key) :=
  if after.orgId ≠ env.orgId then none
  else match s.types.get after.id with
    | none => some s
    | some stored =>
      if stored.record.decoded = before.decoded then
        (updateNodeTypeIndex env.sha rescan (some stored) (some after) s).map fun s =>
          { s with types := s.types.set after.id (patchedNodeType stored before.decoded after.decoded) }
      else some s

def deleteNodeType (env : MetadataEnv) (rescan : Bool) (id : UUID) (s : MetadataState Key) :
    Option (MetadataState Key) :=
  (updateNodeTypeIndex env.sha rescan (s.types.get id) none s).map fun s =>
    { s with types := s.types.erase id }

/-! ### The metadata pass -/

def addTargetContribution (target : Option ProjectionTarget) (contribution : Option (BitVec 256)) :
    Option (Option ProjectionTarget) :=
  match target with
  | none => some none
  | some target => (replaceContribution target.sum none contribution).map fun sum =>
      some { target with sum := sum }

def MetadataState.withScan (s : MetadataState Key) (state : ScanRecord Key) : MetadataState Key :=
  { s with rescan := { s.rescan with scan := some state } }

/-- The target becomes the projection of the organization. -/
def activateProjection (target : ProjectionTarget) (state : ScanRecord Key) (s : MetadataState Key) :
    MetadataState Key × ScanRecord Key :=
  let previous := s.projection.getD .legacy
  let state := { state with projection := none }
  ({ s with projection := some ⟨target.renderer, target.format, target.sum, s.rescan.generation⟩ },
    if previous.renderer ≠ target.renderer then selectAllContent state else state)

def finishMetadataPass (state : ScanRecord Key) (s : MetadataState Key) : MetadataState Key :=
  match state.projection with
  | none => s.withScan { state with position := .nodes state.stop }
  | some target =>
    if s.epoch ≠ target.epoch then s.withScan (restartProjectionPass state s.epoch)
    else
      let (s, state) := activateProjection target state s
      s.withScan { state with position := .nodes state.stop }

def indexMetadata (sha : List Byte → BitVec 256) (s : MetadataState Key) : Option (MetadataState Key) := do
  let state ← s.rescan.scan
  match state.position with
  | .nodes _ => none
  | .definitions cursor =>
    let (items, done) := s.definitions.page maxSearchScanNodes cursor
    let target ← items.foldlM
      (fun target e => addTargetContribution target (definitionContribution sha (some e.2.record)))
      state.projection
    let state := { state with projection := target }
    if done then return s.withScan { state with position := .types none }
    else return s.withScan { state with position := .definitions (items.getLast?.map Prod.fst) }
  | .types cursor =>
    let (items, done) := s.types.page maxSearchScanNodes cursor
    let target ← items.foldlM
      (fun target e => addTargetContribution target (typeContribution sha (some e.2.record)))
      state.projection
    let state := { state with projection := target }
    if done then return finishMetadataPass state s
    else return s.withScan { state with position := .types (items.getLast?.map Prod.fst) }

/-- The checkpoint after one page of nodes.  The work that the page schedules belongs to the nodes. -/
def completeRescan [LinearOrder Key] (scan : ScanResult Key) (s : MetadataState Key) :
    Option (MetadataState Key) := do
  let state ← s.rescan.scan
  match state.position with
  | .nodes _ => some { s with rescan := { s.rescan with scan := advanceScan state scan } }
  | .definitions _ | .types _ => none

/-! ### Moves -/

/-- One transaction.  A store with search work enabled also requests a rescan. -/
inductive MetadataMove (Key : Type)
  | setPropertyDef (rescan : Bool) (d : DefinitionRecord)
  | replacePropertyDef (rescan : Bool) (before after : DefinitionRecord)
  | deletePropertyDef (rescan : Bool) (id : UUID)
  | setProjectionIfNil (id : UUID) (projection : Json)
  | setNodeType (rescan : Bool) (t : TypeRecord)
  | replaceNodeType (rescan : Bool) (before after : TypeRecord)
  | deleteNodeType (rescan : Bool) (id : UUID)
  | requestRescan (request : RescanRequest)
  | indexMetadata
  | completeRescan (scan : ScanResult Key)

/-- One move; `none` when its transaction fails. -/
def metadataStep [LinearOrder Key] (env : MetadataEnv) (s : MetadataState Key) :
    MetadataMove Key → Option (MetadataState Key)
  | .setPropertyDef rescan d => setPropertyDef env rescan d s
  | .replacePropertyDef rescan before after => replacePropertyDef env rescan before after s
  | .deletePropertyDef rescan id => deletePropertyDef env rescan id s
  | .setProjectionIfNil id projection => setProjectionIfNil env id projection s
  | .setNodeType rescan t => setNodeType env rescan t s
  | .replaceNodeType rescan before after => replaceNodeType env rescan before after s
  | .deleteNodeType rescan id => deleteNodeType env rescan id s
  | .requestRescan request => requestMetadataRescan request s
  | .indexMetadata => indexMetadata env.sha s
  | .completeRescan scan => completeRescan scan s

end Tack.Search

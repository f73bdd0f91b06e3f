import Mathlib
import Tack.Nodes.SubtreeJob

/-!
# Schema writes and the activation of strict validation

A write of a node type or of a property definition counts up the metadata epoch of its organization when
the record changes.  Strict validation is activated after a scan: the epochs are captured, all node
records are read page by page and checked, and the activation is written when every epoch is still the
one that was captured.

## Main definitions

* `Nodes.writeNodeType`, `Nodes.writePropertyDef` — the schema writes.
* `Nodes.readStrictEvidence`, `Nodes.StrictEvidence.compare` — the epochs.
* `Nodes.activateStrict` — the activation.

## Main results

* `Nodes.writeNodeType_ok`, `Nodes.writePropertyDef_ok`, `Nodes.activateStrict_ok` — what a write does.
-/

namespace Tack.Nodes

open Lib

/-! ### Schema writes -/

/-- The epochs after a write that replaced `previous` by `next`. -/
def bumpMetadataEpoch {α : Type} [DecidableEq α] (epochs : Table UUID ℕ) (orgId : UUID)
    (previous next : Option α) : Table UUID ℕ :=
  if previous = next then epochs else epochs.set orgId ((epochs.get orgId).getD 0 + 1)

/-- The index of type keys after a write that replaced `old` by `next`. -/
def updateNodeTypeIndex (index : Table TypeIndexKey Unit) (orgId typeId : UUID)
    (old next : Option NodeType) : Table TypeIndexKey Unit :=
  let cleared := match old with
    | some old =>
      if old.typeKey ≠ "" ∧ next.map NodeType.typeKey ≠ some old.typeKey then
        index.erase ⟨orgId, old.typeKey, typeId⟩
      else index
    | none => index
  match next with
  | some next => if next.typeKey ≠ "" then cleared.set ⟨orgId, next.typeKey, typeId⟩ () else cleared
  | none => cleared

/-- A table after a record was written or cleared. -/
def putRecord {K V : Type} [LinearOrder K] (table : Table K V) (k : K) : Option V → Table K V
  | some v => table.set k v
  | none => table.erase k

/-- Writes a node type, or deletes it when there is no next value. -/
def writeNodeType (orgId typeId : UUID) (next : Option NodeType) : Step Unit := do
  startAttempt
  let previous ← readDb fun db => .ok (db.nodeTypes.get ⟨orgId, typeId⟩)
  writeDb fun db => { db with
    nodeTypesByKey := updateNodeTypeIndex db.nodeTypesByKey orgId typeId previous next
    epochs := bumpMetadataEpoch db.epochs orgId previous next
    nodeTypes := putRecord db.nodeTypes ⟨orgId, typeId⟩ next }
  record (.node "node_type" typeId) (previous.map .nodeType) (next.map .nodeType)
  append orgId

def setNodeType (nodeType : NodeType) : Step Unit :=
  writeNodeType nodeType.orgId nodeType.id (some nodeType)

def deleteNodeType (orgId typeId : UUID) : Step Unit := writeNodeType orgId typeId none

/-- Replaces a node type when it is the one that the caller read. -/
def replaceNodeType (before after : NodeType) : Step Unit := do
  startAttempt
  let previous ← readDb fun db => .ok (db.nodeTypes.get ⟨after.orgId, after.id⟩)
  if previous = some before then setNodeType after else pure ()

/-- Writes a property definition, or deletes it when there is no next value. -/
def writePropertyDef (orgId definitionId : UUID) (next : Option PropertyDef) : Step Unit := do
  startAttempt
  let previous ← readDb fun db => .ok (db.propertyDefs.get ⟨orgId, definitionId⟩)
  writeDb fun db => { db with
    epochs := bumpMetadataEpoch db.epochs orgId previous next
    propertyDefs := putRecord db.propertyDefs ⟨orgId, definitionId⟩ next }
  record (.node "property_def" definitionId) (previous.map .propertyDef) (next.map .propertyDef)
  append orgId

/-- A reference must be indexed. -/
def setPropertyDef (definition : PropertyDef) : Step Unit := do
  startAttempt
  Tx.require (definition.isReference = true → definition.indexed = true)
    ⟨.invalidArgument, "a reference must set Indexed"⟩
  writePropertyDef definition.orgId definition.id (some definition)

def deletePropertyDef (orgId definitionId : UUID) : Step Unit := writePropertyDef orgId definitionId none

def replacePropertyDef (before after : PropertyDef) : Step Unit := do
  startAttempt
  let previous ← readDb fun db => .ok (db.propertyDefs.get ⟨after.orgId, after.id⟩)
  if previous = some before then writePropertyDef after.orgId after.id (some after) else pure ()

variable {s s' : Attempt} {u : Unit}

/-- A write of one record in a transaction that recorded nothing before. -/
theorem writeRecord_ok {db : Db} {f : Db → Db} {target : Target} {before after : Option Record} {orgId : UUID}
    (h : (do writeDb f; record target before after; append orgId : Step Unit) ⟨db, []⟩ = .ok u s') :
    s'.db = f db ∧ s'.changes.length ≤ 1 := by
  obtain ⟨-, h⟩ := record_bind.mp (writeDb_bind.mp h)
  obtain ⟨-, rfl⟩ := append_ok.mp h
  exact ⟨rfl, length_changeOf _ _ _⟩

theorem writeNodeType_ok {orgId typeId : UUID} {next : Option NodeType}
    (h : writeNodeType orgId typeId next s = .ok u s') :
    s'.db = { s.db with
      nodeTypesByKey := updateNodeTypeIndex s.db.nodeTypesByKey orgId typeId
        (s.db.nodeTypes.get ⟨orgId, typeId⟩) next
      epochs := bumpMetadataEpoch s.db.epochs orgId (s.db.nodeTypes.get ⟨orgId, typeId⟩) next
      nodeTypes := putRecord s.db.nodeTypes ⟨orgId, typeId⟩ next } ∧ s'.changes.length ≤ 1 :=
  writeRecord_ok (getDb_bind.mp (startAttempt_bind.mp h))

theorem writePropertyDef_ok {orgId definitionId : UUID} {next : Option PropertyDef}
    (h : writePropertyDef orgId definitionId next s = .ok u s') :
    s'.db = { s.db with
      epochs := bumpMetadataEpoch s.db.epochs orgId (s.db.propertyDefs.get ⟨orgId, definitionId⟩) next
      propertyDefs := putRecord s.db.propertyDefs ⟨orgId, definitionId⟩ next } ∧ s'.changes.length ≤ 1 :=
  writeRecord_ok (getDb_bind.mp (startAttempt_bind.mp h))

/-- A replacement writes the new node type or nothing. -/
theorem replaceNodeType_ok {before after : NodeType} (h : replaceNodeType before after s = .ok u s') :
    s' = ⟨s.db, []⟩ ∨ ∃ t, t.db = s.db ∧ writeNodeType after.orgId after.id (some after) t = .ok u s' := by
  have h := getDb_bind.mp (startAttempt_bind.mp h)
  split_ifs at h
  · exact .inr ⟨_, rfl, h⟩
  · obtain ⟨-, rfl⟩ := Tx.pure_ok.mp h
    exact .inl rfl

theorem replacePropertyDef_ok {before after : PropertyDef}
    (h : replacePropertyDef before after s = .ok u s') : s' = ⟨s.db, []⟩ ∨
      ∃ t, t.db = s.db ∧ writePropertyDef after.orgId after.id (some after) t = .ok u s' := by
  have h := getDb_bind.mp (startAttempt_bind.mp h)
  split_ifs at h
  · exact .inr ⟨_, rfl, h⟩
  · obtain ⟨-, rfl⟩ := Tx.pure_ok.mp h
    exact .inl rfl

theorem setPropertyDef_ok {definition : PropertyDef} (h : setPropertyDef definition s = .ok u s') :
    ∃ t, t.db = s.db ∧
      writePropertyDef definition.orgId definition.id (some definition) t = .ok u s' := by
  obtain ⟨_, _, hrequire, h⟩ := Tx.bind_ok.mp (startAttempt_bind.mp h)
  obtain ⟨-, rfl⟩ := Tx.require_ok.mp hrequire
  exact ⟨_, rfl, h⟩

/-! ### Evidence -/

structure StrictEvidence where
  buckets : List ℕ
  metadataEpochs : Table UUID ℕ

def readStrictEvidence (db : Db) : StrictEvidence where
  buckets := (List.range writeFenceBuckets).map fun bucket => (db.buckets.get bucket).getD 0
  metadataEpochs := db.epochs

/-- The buckets and organizations whose epochs differ. -/
structure StrictEvidenceChange where
  buckets : List ℕ
  organizations : List UUID

def StrictEvidenceChange.empty (change : StrictEvidenceChange) : Bool :=
  change.buckets.isEmpty && change.organizations.isEmpty

namespace StrictEvidence

def compare (evidence later : StrictEvidence) : StrictEvidenceChange where
  buckets := (List.range (max evidence.buckets.length later.buckets.length)).filter fun bucket =>
    evidence.buckets.getD bucket 0 ≠ later.buckets.getD bucket 0
  organizations :=
    (((evidence.metadataEpochs.entries.filter fun e =>
        (later.metadataEpochs.get e.1).getD 0 ≠ e.2).map Prod.fst) ++
      (later.metadataEpochs.entries.filter fun e =>
        evidence.metadataEpochs.get e.1 = none ∧ e.2 ≠ 0).map Prod.fst).insertionSort (· ≤ ·)

end StrictEvidence

/-! ### The scan -/

/-- Writes the activation when no epoch changed since the evidence was captured. -/
def activateStrict (evidence : StrictEvidence) (activation : StrictActivation) : Step Unit := do
  startAttempt
  readDb fun db =>
    if db.strict then .error ⟨.conflict, "strict validation is already active"⟩ else .ok ()
  readDb fun db =>
    if (evidence.compare (readStrictEvidence db)).empty then .ok ()
    else .error ⟨.strictEvidenceChanged, "activate strict validation"⟩
  writeDb fun db => { db with activation := some activation }

theorem activateStrict_ok {evidence : StrictEvidence} {activation : StrictActivation}
    (h : activateStrict evidence activation s = .ok u s') :
    s.db.strict = false ∧ (evidence.compare (readStrictEvidence s.db)).empty = true ∧
      s' = ⟨{ s.db with activation := some activation }, []⟩ := by
  obtain ⟨_, hinactive, h⟩ := readDb_bind.mp (startAttempt_bind.mp h)
  obtain ⟨_, hunchanged, h⟩ := readDb_bind.mp h
  refine ⟨?_, ?_, writeDb_ok.mp h⟩
  · by_contra hstrict
    rw [Bool.not_eq_false] at hstrict
    rw [if_pos hstrict] at hinactive
    cases hinactive
  · by_contra hchanged
    rw [if_neg hchanged] at hunchanged
    cases hunchanged

end Tack.Nodes

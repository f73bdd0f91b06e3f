import Tack.Nodes.References
import Tack.Nodes.Strict

/-!
# Node writes

The transactions that create, update and delete one node, that replace its references, and that add or
remove one relationship.

## Main definitions

* `Nodes.createAtomic`, `Nodes.updateAtomic`, `Nodes.setReferenceKeys`, `Nodes.deleteRead`.
* `Nodes.addRelationship`, `Nodes.removeRelationship`.
* `Nodes.clearNode` — what a deletion clears.

## Main results

* `Nodes.createAtomic_ok`, `Nodes.updateAtomic_ok`, `Nodes.clearNode_ok` and their like — the database
  and the changes after a transaction that succeeded.
-/

namespace Tack.Nodes

open Lib

/-! ### Records and property indexes -/

def nodeInstanceKey (current : Node) : NodeKey := ⟨current.orgId, current.nodeType, current.id⟩

variable {current stored : Node} {orgId nodeId : UUID} {args : CreateArgs} {refs : Refs}

theorem nodeInstanceKey_marshalled (h : current.marshalled = some stored) :
    nodeInstanceKey stored = nodeInstanceKey current := by
  obtain ⟨props, -, rfl⟩ := Node.marshalled_eq_some h
  rfl

/-- The database with a node record and its resolution record. -/
def Db.putNode (db : Db) (stored : Node) : Db :=
  { db with
    nodes := db.nodes.set (nodeInstanceKey stored) stored
    resolves := db.resolves.set stored.id ⟨stored.orgId, stored.nodeType⟩ }

/-- Writes the node and resolution records and returns the stored node. -/
def writeNodeRecords (current : Node) : Step Node :=
  match current.marshalled with
  | none => throw ⟨.malformed, "marshal node"⟩
  | some stored => do
    writeDb fun db => db.putNode stored
    return stored

abbrev PropIndex := Table PropKey Unit

/-- The index entry of a property value. -/
def nodeByPropertyKey (current : Node) (name : String) (value : RawMessage) : PropKey :=
  ⟨current.orgId, current.nodeType, name, value, current.id⟩

def writeCreatePropertyIndexes (index : PropIndex) (current : Node) (indexedProps : List String) :
    PropIndex :=
  indexedProps.foldl (fun index name =>
    if current.prop name ≠ "" then index.set (nodeByPropertyKey current name (current.prop name)) ()
    else index) index

/-- Moves the index entry of one property from its old value to its new one. -/
def reconcileProperty (current : Node) (oldProps : Props) (index : PropIndex) (name : String) :
    PropIndex :=
  let oldValue := (oldProps.get name).getD ""
  let newValue := current.prop name
  if oldValue = newValue then index
  else
    let index := if oldValue ≠ "" then index.erase (nodeByPropertyKey current name oldValue) else index
    if newValue ≠ "" then index.set (nodeByPropertyKey current name newValue) () else index

def reconcilePropertyIndexes (index : PropIndex) (current : Node) (oldProps : Props)
    (indexedProps : List String) : PropIndex :=
  indexedProps.foldl (reconcileProperty current oldProps) index

/-- Clears the entries of the properties that the caller knows. -/
def clearPropertyIndexes (index : PropIndex) (current : Node) : PropIndex :=
  current.props.entries.foldl (fun index e => index.erase (nodeByPropertyKey current e.1 e.2)) index

/-! ### Creating and updating -/

/-- Writes the idempotency record of a create; a key that exists is a conflict. -/
def writeCreateIdempotency (orgId : UUID) : Option IdempotencyRecord → Step Unit
  | none => pure ()
  | some idempotency => do
    readDb fun db =>
      if db.idempotency.get ⟨orgId, idempotency.key⟩ = none then .ok ()
      else .error ⟨.conflict, "idempotency key already exists"⟩
    writeDb fun db => { db with
      idempotency := db.idempotency.set ⟨orgId, idempotency.key⟩ idempotency }

/-- Relationships without an organization get the node's. -/
def stampOrg (orgId : UUID) (relationship : Relationship) : Relationship :=
  if relationship.orgId = UUID.nil then { relationship with orgId := orgId } else relationship

structure CreateArgs where
  current : Node
  relationships : List Relationship
  indexedProps : List String
  referenceKeys : List ReferenceKey
  idempotency : Option IdempotencyRecord

def CreateArgs.stamped (args : CreateArgs) : List Relationship :=
  args.relationships.map (stampOrg args.current.orgId)

def createAtomic (env : Env) (args : CreateArgs) : Step Unit := do
  let current := args.current
  startAttempt
  let strict ← fenceAttempt current.orgId current.id
  writeCreateIdempotency current.orgId args.idempotency
  let source ← readDb fun db => .ok (db.nodes.get (nodeInstanceKey current))
  let encoded ← writeNodeRecords current
  writeDb fun db => { db with
    byProperty := writeCreatePropertyIndexes db.byProperty current args.indexedProps }
  claimReferenceKeys current.orgId current.id args.referenceKeys
  addRelationships args.stamped
  readDb fun db => checkStrictWrite env db strict current [⟨args.stamped, []⟩]
  record (nodeTarget current) (source.map .node) (some (.node encoded))
  append current.orgId

structure UpdateArgs where
  /-- The digest that the caller read, when the write depends on it. -/
  readDigest : Option Digest
  current : Node
  oldProps : Props
  indexedProps : List String
  /-- `none` keeps the references. -/
  referenceKeys : Option (List ReferenceKey)
  relationshipChanges : List RelationshipChanges

/-- The stored record has the digest that the caller read. -/
def checkReadDigest (env : Env) (readDigest : Option Digest) (source : Option Node) :
    Except Refusal Unit :=
  if readDigest = none ∨ readDigest = some ((source.map env.primaryDigest).getD env.emptyDigest) then .ok ()
  else .error ⟨.conflict, "stored node changed after the command read it"⟩

def replaceReferenceKeys (orgId nodeId : UUID) : Option (List ReferenceKey) → Step Unit
  | none => pure ()
  | some keys => writeReferenceKeys orgId nodeId keys

def updateAtomic (env : Env) (args : UpdateArgs) : Step Unit := do
  let current := args.current
  startAttempt
  let source ← readDb fun db => .ok (db.nodes.get (nodeInstanceKey current))
  readDb fun _ => checkReadDigest env args.readDigest source
  let strict ← fenceAttempt current.orgId current.id
  let encoded ← writeNodeRecords current
  writeDb fun db => { db with
    byProperty := reconcilePropertyIndexes db.byProperty current args.oldProps args.indexedProps }
  replaceReferenceKeys current.orgId current.id args.referenceKeys
  applyRelationshipChanges args.relationshipChanges
  readDb fun db => checkStrictWrite env db strict current args.relationshipChanges
  record (nodeTarget current) (source.map .node) (some (.node encoded))
  append current.orgId

/-- The change of the references that a node owns, recorded for the node of the organization. -/
def recordReferenceChange (orgId nodeId : UUID) (before : Table String String)
    (keys : List ReferenceKey) : Step Unit := do
  let resolve ← readDb fun db =>
    match db.resolves.get nodeId with
    | none => .error ⟨.malformed, "decode the resolution record"⟩
    | some resolve =>
      if resolve.orgId ≠ orgId then .error ⟨.malformed, "the node does not belong to the org"⟩
      else .ok resolve
  let after : Table String String :=
    keys.foldl (fun after key => after.set key.templateName key.encoded) .empty
  record (.node resolve.nodeType nodeId) (some (.references before)) (some (.references after))

def setReferenceKeys (orgId nodeId : UUID) (keys : List ReferenceKey) : Step Unit := do
  startAttempt
  let _ ← fenceAttempt orgId nodeId
  let before ← readDb fun db => .ok (db.refs.readOwnedReferences orgId nodeId)
  writeReferenceKeys orgId nodeId keys
  recordReferenceChange orgId nodeId before keys
  append orgId

/-! ### Deleting -/

/-- Clears the records, the relationships, the index entries and the references of a node. -/
def clearNode (current : Node) : Step Unit := do
  let encoded ← readDb fun db => .ok (db.nodes.get (nodeInstanceKey current))
  record (nodeTarget current) (encoded.map .node) none
  writeDb fun db => { db with
    nodes := db.nodes.erase (nodeInstanceKey current)
    resolves := db.resolves.erase current.id }
  clearSourceRelationships current.orgId current.id
  clearTargetRelationships current.orgId current.id
  writeDb fun db => { db with byProperty := clearPropertyIndexes db.byProperty current }
  clearReferenceKeys current.orgId current.id

/-- The deletion of a node that the caller read in an earlier transaction. -/
def deleteRead (orgId nodeId : UUID) (current : Node) : Step Unit := do
  startAttempt
  let _ ← fenceAttempt orgId nodeId
  clearNode current
  append orgId

/-! ### Single relationships -/

def addRelationship (rel : Relationship) (memberTarget : Bool) : Step Unit := do
  startAttempt
  let strict ← fenceAttempt rel.orgId rel.sourceId
  readDb fun db => checkStrictRelationship db strict rel memberTarget
  addRelationships [rel]
  append rel.orgId

def removeRelationship (orgId sourceId : UUID) (relationType : String) (targetId : UUID) :
    Step Unit := do
  startAttempt
  readDb fun db => refuseOnlyParentRemoval db orgId sourceId relationType targetId
  let _ ← fenceAttempt orgId sourceId
  removeRelationships [edgeRecord ⟨orgId, sourceId, relationType, targetId⟩]
  append orgId

/-! ### What a transaction that succeeded did -/

variable {env : Env} {s s' : Attempt} {u : Unit}

theorem writeNodeRecords_ok :
    writeNodeRecords current s = .ok stored s' ↔
      current.marshalled = some stored ∧ s' = { s with db := s.db.putNode stored } := by
  rw [writeNodeRecords]
  cases hmarshal : current.marshalled with
  | none => exact iff_of_false Tx.throw_ok (by simp)
  | some encoded =>
    dsimp only
    rw [Tx.bind_ok]
    constructor
    · rintro ⟨_, t, hwrite, hpure⟩
      obtain ⟨rfl, rfl⟩ := Tx.pure_ok.mp hpure
      exact ⟨rfl, writeDb_ok.mp hwrite⟩
    · rintro ⟨hstored, rfl⟩
      obtain rfl := Option.some.inj hstored
      exact ⟨(), _, writeDb_ok.mpr rfl, Tx.pure_ok.mpr ⟨rfl, rfl⟩⟩

theorem writeNodeRecords_bind {β : Type} {f : Node → Step β} {b : β} :
    (writeNodeRecords current >>= f) s = .ok b s' ↔ ∃ stored, current.marshalled = some stored ∧
      f stored { s with db := s.db.putNode stored } = .ok b s' := by
  simp [Tx.bind_ok, writeNodeRecords_ok, and_assoc]

/-- The records of one node were put. -/
structure Db.Put (db db' : Db) (stored : Node) : Prop where
  nodes : db'.nodes = db.nodes.set (nodeInstanceKey stored) stored
  resolves : db'.resolves = db.resolves.set stored.id ⟨stored.orgId, stored.nodeType⟩

/-- The idempotency records after a create. -/
def withIdempotency (records : Table IdempotencyKey IdempotencyRecord) (orgId : UUID) :
    Option IdempotencyRecord → Table IdempotencyKey IdempotencyRecord
  | none => records
  | some idempotency => records.set ⟨orgId, idempotency.key⟩ idempotency

theorem writeCreateIdempotency_ok {idempotency : Option IdempotencyRecord}
    (h : writeCreateIdempotency orgId idempotency s = .ok u s') :
    s' = { s with db := { s.db with
      idempotency := withIdempotency s.db.idempotency orgId idempotency } } := by
  cases idempotency with
  | none => exact (Tx.pure_ok.mp h).2.symm
  | some idempotency =>
    obtain ⟨_, -, h⟩ := readDb_bind.mp h
    exact writeDb_ok.mp h

/-- The references after a claim. -/
def Claimed (refs : Refs) (orgId nodeId : UUID) (keys : List ReferenceKey) (refs' : Refs) : Prop :=
  keys = [] ∧ refs' = refs ∨ keys ≠ [] ∧ refs.writeReferenceKeys orgId nodeId keys = .ok refs'

/-- The references after a replacement. -/
def Replaced (refs : Refs) (orgId nodeId : UUID) (keys : Option (List ReferenceKey)) (refs' : Refs) :
    Prop :=
  keys = none ∧ refs' = refs ∨
    ∃ list, keys = some list ∧ refs.writeReferenceKeys orgId nodeId list = .ok refs'

theorem claimed_of_ok {keys : List ReferenceKey} (h : claimReferenceKeys orgId nodeId keys s = .ok u s') :
    ∃ refs, Claimed s.db.refs orgId nodeId keys refs ∧ s' = { s with db := { s.db with refs := refs } } := by
  obtain ⟨hkeys, rfl⟩ | ⟨hkeys, refs, hrefs, rfl⟩ := claimReferenceKeys_ok h
  · exact ⟨_, .inl ⟨hkeys, rfl⟩, rfl⟩
  · exact ⟨refs, .inr ⟨hkeys, hrefs⟩, rfl⟩

theorem replaced_of_ok {keys : Option (List ReferenceKey)} (h : replaceReferenceKeys orgId nodeId keys s = .ok u s') :
    ∃ refs, Replaced s.db.refs orgId nodeId keys refs ∧ s' = { s with db := { s.db with refs := refs } } := by
  cases keys with
  | none =>
    obtain ⟨-, rfl⟩ := Tx.pure_ok.mp h
    exact ⟨_, .inl ⟨rfl, rfl⟩, rfl⟩
  | some list =>
    obtain ⟨refs, hrefs, rfl⟩ := writeReferenceKeys_ok.mp h
    exact ⟨refs, .inr ⟨list, rfl, hrefs⟩, rfl⟩

/-- What a create that succeeded did. -/
structure CreateSpec (env : Env) (args : CreateArgs) (s s' : Attempt) (stored : Node) (refs : Refs)
    (written : List (Relationship × Option Relationship)) : Prop where
  marshalled : args.current.marshalled = some stored
  claimed : Claimed s.db.refs args.current.orgId args.current.id args.referenceKeys refs
  edges : marshalAll (s.db.edges.withValues args.stamped) = some written
  strict : checkStrictWrite env s'.db s.db.strict args.current [⟨args.stamped, []⟩] = .ok ()
  valid : s.db.nodes.get (nodeInstanceKey args.current) = some stored ∨ (nodeTarget args.current).valid
  validEdges : ∀ p ∈ written, p.2 = some p.1 ∨ (relationshipTarget p.1).valid
  db : s'.db = { (s.db.fence args.current.orgId args.current.id).putNode stored with
    idempotency := withIdempotency s.db.idempotency args.current.orgId args.idempotency
    byProperty := writeCreatePropertyIndexes s.db.byProperty args.current args.indexedProps
    refs := refs
    edges := s.db.edges.putAll (written.map Prod.fst) }
  changes : s'.changes = addedChanges written ++ changeOf (nodeTarget args.current)
    ((s.db.nodes.get (nodeInstanceKey args.current)).map .node) (some (.node stored))

theorem CreateSpec.put {written : List (Relationship × Option Relationship)}
    (h : CreateSpec env args s s' stored refs written) :
    s.db.Put s'.db stored := by
  constructor <;> rw [h.db] <;> rfl

/-- Recorded node values are equal when the nodes are. -/
theorem eq_some_of_map_record {before : Option Node}
    (h : before.map Record.node = some (.node stored)) : before = some stored := by
  obtain ⟨old, hold, heq⟩ := Option.map_eq_some_iff.mp h
  rw [hold, Record.node.inj heq]

theorem createAtomic_ok (h : createAtomic env args s = .ok u s') :
    ∃ stored refs written, CreateSpec env args s s' stored refs written := by
  have h := fenceAttempt_bind.mp (startAttempt_bind.mp h)
  obtain ⟨_, _, hidem, h⟩ := Tx.bind_ok.mp h
  obtain rfl := writeCreateIdempotency_ok hidem
  have h := getDb_bind.mp h
  obtain ⟨stored, hmarshal, h⟩ := writeNodeRecords_bind.mp h
  obtain ⟨_, _, hclaim, h⟩ := Tx.bind_ok.mp (writeDb_bind.mp h)
  obtain ⟨refs, hclaimed, rfl⟩ := claimed_of_ok hclaim
  obtain ⟨_, _, hadd, h⟩ := Tx.bind_ok.mp h
  obtain ⟨written, hwritten, rfl, hvalidEdges⟩ := addRelationships_ok hadd
  obtain ⟨_, hstrict, h⟩ := readDb_bind.mp h
  obtain ⟨hvalid, h⟩ := record_bind.mp h
  obtain ⟨-, rfl⟩ := append_ok.mp h
  exact ⟨stored, refs, written,
    { marshalled := hmarshal
      claimed := hclaimed
      edges := hwritten
      strict := hstrict
      valid := hvalid.imp_left eq_some_of_map_record
      validEdges := hvalidEdges
      db := rfl
      changes := rfl }⟩

/-- What an update that succeeded did. -/
structure UpdateSpec (env : Env) (args : UpdateArgs) (s s' : Attempt) (stored : Node) (refs : Refs)
    (edges : Edges) (edgeChanges : List Change) : Prop where
  marshalled : args.current.marshalled = some stored
  digest : checkReadDigest env args.readDigest (s.db.nodes.get (nodeInstanceKey args.current)) = .ok ()
  replaced : Replaced s.db.refs args.current.orgId args.current.id args.referenceKeys refs
  edgesChanged : EdgesChanged s.db.edges args.relationshipChanges edges edgeChanges
  strict : checkStrictWrite env s'.db s.db.strict args.current args.relationshipChanges = .ok ()
  valid : s.db.nodes.get (nodeInstanceKey args.current) = some stored ∨ (nodeTarget args.current).valid
  db : s'.db = { (s.db.fence args.current.orgId args.current.id).putNode stored with
    byProperty := reconcilePropertyIndexes s.db.byProperty args.current args.oldProps args.indexedProps
    refs := refs
    edges := edges }
  changes : s'.changes = edgeChanges ++ changeOf (nodeTarget args.current)
    ((s.db.nodes.get (nodeInstanceKey args.current)).map .node) (some (.node stored))

theorem UpdateSpec.put {args : UpdateArgs} {edges : Edges} {edgeChanges : List Change}
    (h : UpdateSpec env args s s' stored refs edges edgeChanges) :
    s.db.Put s'.db stored := by
  constructor <;> rw [h.db] <;> rfl

theorem updateAtomic_ok {args : UpdateArgs} (h : updateAtomic env args s = .ok u s') :
    ∃ stored refs edges edgeChanges, UpdateSpec env args s s' stored refs edges edgeChanges := by
  have h := getDb_bind.mp (startAttempt_bind.mp h)
  obtain ⟨_, hdigest, h⟩ := readDb_bind.mp h
  have h := fenceAttempt_bind.mp h
  obtain ⟨stored, hmarshal, h⟩ := writeNodeRecords_bind.mp h
  obtain ⟨_, _, hreplace, h⟩ := Tx.bind_ok.mp (writeDb_bind.mp h)
  obtain ⟨refs, hreplaced, rfl⟩ := replaced_of_ok hreplace
  obtain ⟨_, _, happly, h⟩ := Tx.bind_ok.mp h
  obtain ⟨edges, edgeChanges, hedges, rfl⟩ := applyRelationshipChanges_ok happly
  obtain ⟨_, hstrict, h⟩ := readDb_bind.mp h
  obtain ⟨hvalid, h⟩ := record_bind.mp h
  obtain ⟨-, rfl⟩ := append_ok.mp h
  exact ⟨stored, refs, edges, edgeChanges,
    { marshalled := hmarshal
      digest := hdigest
      replaced := hreplaced
      edgesChanged := hedges
      strict := hstrict
      valid := hvalid.imp_left eq_some_of_map_record
      db := rfl
      changes := rfl }⟩

/-- What a replacement of references that succeeded did. -/
theorem setReferenceKeys_ok {keys : List ReferenceKey} (h : setReferenceKeys orgId nodeId keys s = .ok u s') :
    ∃ refs nodeType, s.db.refs.writeReferenceKeys orgId nodeId keys = .ok refs ∧
      s.db.resolves.get nodeId = some ⟨orgId, nodeType⟩ ∧
      s'.db = { s.db.fence orgId nodeId with refs := refs } ∧ s'.changes.length ≤ 1 := by
  have h := getDb_bind.mp (fenceAttempt_bind.mp (startAttempt_bind.mp h))
  obtain ⟨_, _, hwrite, h⟩ := Tx.bind_ok.mp h
  obtain ⟨refs, hrefs, rfl⟩ := writeReferenceKeys_ok.mp hwrite
  obtain ⟨_, _, hchange, happend⟩ := Tx.bind_ok.mp h
  obtain ⟨resolve, hfound, hrecord⟩ := readDb_bind.mp hchange
  obtain ⟨-, rfl⟩ := record_ok.mp hrecord
  obtain ⟨-, rfl⟩ := append_ok.mp happend
  refine ⟨refs, resolve.nodeType, hrefs, ?_, rfl, length_changeOf _ _ _⟩
  dsimp only at hfound
  split at hfound
  · cases hfound
  case h_2 stored hstored =>
    split_ifs at hfound with horg
    cases hfound
    rw [not_not] at horg
    subst horg
    exact hstored

/-- The database without a node. -/
def Db.clearedNode (db : Db) (current : Node) : Db :=
  { db with
    nodes := db.nodes.erase (nodeInstanceKey current)
    resolves := db.resolves.erase current.id
    edges := (db.edges.clearSource current.orgId current.id).clearTarget current.orgId current.id
    byProperty := clearPropertyIndexes db.byProperty current
    refs := db.refs.clearReferenceKeys current.orgId current.id }

/-- The changes that clearing a node records. -/
def Db.clearedNodeChanges (db : Db) (current : Node) : List Change :=
  let edges := db.edges.clearSource current.orgId current.id
  changeOf (nodeTarget current) ((db.nodes.get (nodeInstanceKey current)).map .node) none ++
    clearedChanges (db.edges.outgoing current.orgId current.id "") ++
    removedChanges (edges.withValues ((edges.incomingEdges current.orgId current.id).map edgeRecord))

/-- The targets that clearing a node records are valid. -/
def Db.Clearable (db : Db) (current : Node) : Prop :=
  let edges := db.edges.clearSource current.orgId current.id
  (db.nodes.get (nodeInstanceKey current) = none ∨ (nodeTarget current).valid) ∧
    (∀ p ∈ db.edges.outgoing current.orgId current.id "",
      (Target.relationship p.1.near p.1.relationType p.1.far).valid) ∧
    ∀ k ∈ edges.incomingEdges current.orgId current.id, edges.forward.get k = none ∨
      (Target.relationship k.near k.relationType k.far).valid

/-- **What clearing a node does.** -/
theorem clearNode_ok :
    clearNode current s = .ok u s' ↔ s.db.Clearable current ∧
      s' = ⟨s.db.clearedNode current, s.changes ++ s.db.clearedNodeChanges current⟩ := by
  have hnone : (s.db.nodes.get (nodeInstanceKey current)).map Record.node = none ↔
      s.db.nodes.get (nodeInstanceKey current) = none := Option.map_eq_none_iff
  rw [clearNode, getDb_bind, record_bind, hnone, Db.Clearable, and_assoc]
  refine and_congr_right fun _ => ?_
  rw [writeDb_bind, Tx.bind_ok]
  simp only [clearSourceRelationships_ok, and_assoc, exists_and_left, exists_eq_left, exists_const]
  refine and_congr_right fun _ => ?_
  rw [Tx.bind_ok]
  simp only [clearTargetRelationships_ok, and_assoc, exists_and_left, exists_eq_left, exists_const]
  refine and_congr_right fun _ => ?_
  rw [writeDb_bind, clearReferenceKeys, writeDb_ok]
  simp [Db.clearedNode, Db.clearedNodeChanges]

theorem deleteRead_ok (h : deleteRead orgId nodeId current s = .ok u s') :
    (s.db.fence orgId nodeId).Clearable current ∧
      s' = ⟨(s.db.fence orgId nodeId).clearedNode current, s.db.clearedNodeChanges current⟩ := by
  have h := fenceAttempt_bind.mp (startAttempt_bind.mp h)
  obtain ⟨_, _, hclear, h⟩ := Tx.bind_ok.mp h
  obtain ⟨hclearable, rfl⟩ := clearNode_ok.mp hclear
  obtain ⟨-, rfl⟩ := append_ok.mp h
  exact ⟨hclearable, rfl⟩

theorem addRelationship_ok {rel : Relationship} {memberTarget : Bool}
    (h : addRelationship rel memberTarget s = .ok u s') :
    ∃ written, marshalAll (s.db.edges.withValues [rel]) = some written ∧
      checkStrictRelationship s.db s.db.strict rel memberTarget = .ok () ∧
      (∀ p ∈ written, p.2 = some p.1 ∨ (relationshipTarget p.1).valid) ∧
      s' = ⟨{ s.db.fence rel.orgId rel.sourceId with
        edges := s.db.edges.putAll (written.map Prod.fst) }, addedChanges written⟩ := by
  have h := fenceAttempt_bind.mp (startAttempt_bind.mp h)
  obtain ⟨_, hstrict, h⟩ := readDb_bind.mp h
  obtain ⟨_, _, hadd, h⟩ := Tx.bind_ok.mp h
  obtain ⟨written, hwritten, rfl, hvalid⟩ := addRelationships_ok hadd
  obtain ⟨-, rfl⟩ := append_ok.mp h
  exact ⟨written, hwritten, hstrict, hvalid, rfl⟩

theorem removeRelationship_ok {sourceId targetId : UUID} {relationType : String}
    (h : removeRelationship orgId sourceId relationType targetId s = .ok u s') :
    refuseOnlyParentRemoval s.db orgId sourceId relationType targetId = .ok () ∧
      s' = ⟨{ s.db.fence orgId sourceId with
          edges := s.db.edges.dropAll [⟨orgId, sourceId, relationType, targetId⟩] },
        removedChanges (s.db.edges.withValues
          [edgeRecord ⟨orgId, sourceId, relationType, targetId⟩])⟩ := by
  obtain ⟨_, hallowed, h⟩ := readDb_bind.mp (startAttempt_bind.mp h)
  have h := fenceAttempt_bind.mp h
  obtain ⟨_, _, hremove, h⟩ := Tx.bind_ok.mp h
  obtain ⟨-, rfl⟩ := removeRelationships_ok.mp hremove
  obtain ⟨-, rfl⟩ := append_ok.mp h
  exact ⟨hallowed, rfl⟩

end Tack.Nodes

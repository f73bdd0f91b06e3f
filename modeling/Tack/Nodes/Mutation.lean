import Tack.Nodes.Write

/-!
# Checked mutations

A mutation plan lists what its preparation read: the digest of the node, the records of the parent chain
and of references, and the relationships that the mutation removes.  The transaction reads all of it
again and refuses when something differs; then it writes the result of the plan.

## Main definitions

* `Nodes.MutationPlan`, `Nodes.DeletionPlan`.
* `Nodes.applyMutation` — one attempt of a checked create or update.
* `Nodes.deleteNode` — one attempt of a checked deletion.

## Main results

* `Nodes.applyMutation_ok`, `Nodes.deleteNode_ok` — the database and the changes after an attempt that
  succeeded.
-/

namespace Tack.Nodes

open Lib

/-! ### Plans -/

structure SourceExpectation where
  absent : Bool
  primaryDigest : Digest

structure GraphRecord where
  nodeId : UUID
  primaryDigest : Digest

structure RelationshipExpectation where
  relationType : String
  targetId : UUID
  digest : Digest

structure IncomingRelationshipExpectation where
  sourceId : UUID
  relationType : String
  digest : Digest

structure GraphExpectation where
  records : List GraphRecord
  relationships : List RelationshipExpectation
  incoming : List IncomingRelationshipExpectation

/-- A create or an update; `props` is a patch in which an empty or null value removes a property. -/
structure MutationPlan where
  orgId : UUID
  nodeId : UUID
  nodeType : String
  actorId : UUID
  source : SourceExpectation
  metadataEpoch : ℤ
  graph : GraphExpectation
  name : Option String
  props : Props
  parent : Option UUID
  referenceKeys : Option (List ReferenceKey)
  relationships : RelationshipChanges
  idempotency : Option IdempotencyRecord

structure DeletionPlan where
  orgId : UUID
  nodeId : UUID
  source : SourceExpectation
  graph : GraphExpectation

/-! ### Checks -/

/-- The idempotency record of a create exists; an error when it does not fit the plan. -/
def readCreateIdempotency (db : Db) (plan : MutationPlan) : Except Refusal Bool :=
  match plan.idempotency with
  | none => .ok false
  | some idempotency =>
    match db.idempotency.get ⟨plan.orgId, idempotency.key⟩ with
    | none => .ok false
    | some existing =>
      if existing.fingerprint ≠ "" ∧ idempotency.fingerprint ≠ "" ∧
          existing.fingerprint ≠ idempotency.fingerprint then
        .error ⟨.conflict, "the idempotency key was used with a different request"⟩
      else if (readMutationSource db plan.orgId existing.nodeId).isNone then
        .error ⟨.conflict, s!"the idempotency record identifies node {existing.nodeId.text}, which does not exist"⟩
      else .ok true

def checkSource (env : Env) (expected : SourceExpectation) (source : Option MutationSource) :
    Except Refusal Unit :=
  match source with
  | none =>
    if expected.absent then .ok ()
    else .error ⟨.conflict, "the plan expects a stored node, but the node does not exist"⟩
  | some source =>
    if expected.absent then .error ⟨.conflict, "the plan expects no node, but the node exists"⟩
    else if env.primaryDigest source.node ≠ expected.primaryDigest then
      .error ⟨.conflict, "the stored node differs from the expected source"⟩
    else .ok ()

/-- A plan sets the parent and its edge through `parent` only, and keeps the type of a stored node. -/
def checkPlanShape (plan : MutationPlan) (source : Option MutationSource) : Except Refusal Unit :=
  if plan.props.get parentIDProperty ≠ none then
    .error ⟨.invalidArgument, "the plan sets parent_id in Props instead of Parent"⟩
  else if (plan.relationships.add ++ plan.relationships.remove).any
      fun relationship => relationship.relationType = relChildOf then
    .error ⟨.reservedParentRelation, "mutate node"⟩
  else if source.any fun source => source.typeKey ≠ plan.nodeType then
    .error ⟨.conflict, "the stored node type differs from the plan"⟩
  else .ok ()

/-- The metadata epoch of an organization. -/
def Db.metadataEpoch (db : Db) (orgId : UUID) : ℕ := (db.epochs.get orgId).getD 0

/-- The schema of the plan's type with all definitions. -/
def checkMutationSchema (db : Db) (plan : MutationPlan) : Except Refusal (NodeType × Schema) :=
  if (db.metadataEpoch plan.orgId : ℤ) ≠ plan.metadataEpoch then
    .error ⟨.conflict, "the metadata epoch changed after preparation"⟩
  else do
    match ← cachedNodeTypeByKey db plan.orgId plan.nodeType with
    | none => .error ⟨.invalidArgument, "node type does not exist"⟩
    | some kind =>
      return (kind, ⟨plan.orgId, Table.empty.set kind.typeKey kind, db.definitionsOf plan.orgId⟩)

/-- The stored sources of the expected records. -/
def checkGraphRecords (env : Env) (db : Db) (orgId : UUID) :
    List GraphRecord → Except Refusal (Table UUID MutationSource)
  | [] => .ok .empty
  | expected :: rest =>
    match readMutationSource db orgId expected.nodeId with
    | none => .error ⟨.conflict, "the stored record differs from the graph expectation"⟩
    | some source =>
      if env.primaryDigest source.node ≠ expected.primaryDigest then
        .error ⟨.conflict, "the stored record differs from the graph expectation"⟩
      else do
        let sources ← checkGraphRecords env db orgId rest
        return sources.set expected.nodeId source

/-- Follows the parents from `currentId` through the listed records.  A node is visited once, so that
one step more than there are records is enough. -/
def followParents (db : Db) (orgId nodeId parentId : UUID) (records : Table UUID MutationSource) :
    ℕ → UUID → List UUID → Except Refusal Unit
  | 0, _, _ => .error ⟨.malformed, "more ancestors than records"⟩
  | fuel + 1, currentId, visited =>
    if currentId = UUID.nil then .ok ()
    else if currentId = nodeId ∨ currentId ∈ visited then
      .error ⟨.invalidArgument, "parent is the node, one of its descendants, or in a parent_id cycle"⟩
    else match records.get currentId with
      | some ancestor =>
        followParents db orgId nodeId parentId records fuel ancestor.node.parentID (currentId :: visited)
      | none =>
        if (readMutationSource db orgId currentId).isSome then
          .error ⟨.conflict, "the graph expectation does not list an ancestor"⟩
        else if currentId ≠ parentId then .ok ()
        else .error ⟨.invalidArgument, "parent is not a node in the organization"⟩

def checkParentChain (db : Db) (orgId nodeId parentId : UUID) (records : Table UUID MutationSource) :
    Except Refusal Unit :=
  followParents db orgId nodeId parentId records (records.entries.length + 2) parentId []

def checkPlanParent (db : Db) (plan : MutationPlan) (records : Table UUID MutationSource) :
    Except Refusal Unit :=
  match plan.parent with
  | none => .ok ()
  | some parentId => checkParentChain db plan.orgId plan.nodeId parentId records

/-- The parent chain from `currentId` in the records contains the scope. -/
def chainContains (records : Table UUID MutationSource) (scopeId : UUID) : ℕ → UUID → Bool
  | 0, _ => false
  | fuel + 1, currentId =>
    if currentId = UUID.nil then false
    else if currentId = scopeId then true
    else match records.get currentId with
      | none => false
      | some ancestor => chainContains records scopeId fuel ancestor.node.parentID

def checkMoveScope (plan : MutationPlan) (source : Option MutationSource) (result : Node)
    (records : Table UUID MutationSource) : Except Refusal Unit :=
  match plan.parent, source with
  | some parentId, some source =>
    let scopeId := storedUUID (result.prop scopeIDProperty)
    if scopeId = UUID.nil ∨ parentId = source.node.parentID then .ok ()
    else if chainContains records scopeId (records.entries.length + 2) parentId then .ok ()
    else .error ⟨.invalidArgument, "the parent chain does not contain the scope"⟩
  | _, _ => .ok ()

/-! ### The result -/

/-- The patched properties. -/
def patchProps (props patch : Props) : Props :=
  patch.entries.foldl (fun props e =>
    if e.2 = "" ∨ e.2 = "null" then props.erase e.1 else props.set e.1 e.2) props

/-- The node before the patch. -/
def mutationBase (plan : MutationPlan) (source : Option MutationSource) (now : Time) : Node :=
  match source with
  | none => ⟨plan.nodeId, plan.orgId, plan.nodeType, "", .empty, plan.actorId, plan.actorId, now, now⟩
  | some source => { source.node with updatedBy := plan.actorId, updatedAt := now }

def mutationResult (plan : MutationPlan) (source : Option MutationSource) (now : Time) : Node :=
  let base := mutationBase plan source now
  { base with name := plan.name.getD base.name, props := patchProps base.props plan.props }

def expectsRelationship (env : Env) (expected : List RelationshipExpectation) (edge : Relationship) :
    Bool :=
  expected.any fun candidate => candidate.relationType = edge.relationType &&
    candidate.targetId = edge.targetId && candidate.digest = env.relationshipDigest edge

/-- The child_of edge that a mutation writes. -/
def parentEdge (plan : MutationPlan) (targetId : UUID) (now : Time) : Relationship :=
  ⟨plan.orgId, plan.nodeId, relChildOf, targetId, plan.actorId, now, .empty⟩

/-- The result with its parent. -/
def withParentID (plan : MutationPlan) (result : Node) : Node :=
  match plan.parent with
  | none => result
  | some targetId => { result with props := result.props.set parentIDProperty (quoteUUID targetId) }

/-- A new node has the key that its plan names. -/
theorem nodeInstanceKey_mutationResult_none (plan : MutationPlan) (now : Time) :
    nodeInstanceKey (withParentID plan (mutationResult plan none now)) =
      ⟨plan.orgId, plan.nodeType, plan.nodeId⟩ := by
  rw [withParentID]
  cases plan.parent <;> rfl

/-- A stored node keeps its key. -/
theorem nodeInstanceKey_mutationResult_some (plan : MutationPlan) (source : MutationSource) (now : Time) :
    nodeInstanceKey (withParentID plan (mutationResult plan (some source) now)) =
      nodeInstanceKey source.node := by
  rw [withParentID]
  cases plan.parent <;> rfl

/-- The child_of changes that leave one edge to the parent of the plan: the edges to other targets
must be expected. -/
def childOfChanges (env : Env) (db : Db) (plan : MutationPlan) (source : Option MutationSource)
    (now : Time) : Except Refusal RelationshipChanges :=
  match plan.parent with
  | none => .ok ⟨[], []⟩
  | some targetId =>
    let edges := if source.isSome then readOutgoingSnapshots db plan.orgId plan.nodeId relChildOf else []
    let others := edges.filter fun edge => edge.targetId ≠ targetId
    if others.all (expectsRelationship env plan.graph.relationships) then
      .ok
        { remove := others.map fun edge => { edge with orgId := plan.orgId, sourceId := plan.nodeId }
          add := if edges.any fun edge => edge.targetId = targetId then [] else
            [parentEdge plan targetId now] }
    else .error ⟨.conflict, "the child_of edge differs from the graph expectation"⟩

/-- Added relationships get the organization and the source of the plan when they have none. -/
def planRelationshipChanges (plan : MutationPlan) : RelationshipChanges where
  add := plan.relationships.add.map fun relationship =>
    let stamped := stampOrg plan.orgId relationship
    if stamped.sourceId = UUID.nil then { stamped with sourceId := plan.nodeId } else stamped
  remove := plan.relationships.remove

def managedProperties : List String := ["parent_id", "scope_id", "sequence"]

/-- The issues that a write rejects before strict validation is active. -/
def ordinaryIssue (issue : PropertyIssue) : Bool :=
  match issue.code with
  | .invalidParent => false
  | .notApplicable => !managedProperties.contains issue.property
  | _ => true

/-- The stored nodes that the checked references name. -/
def readResultGraph (db : Db) (plan : MutationPlan) (result : Node) (schema : Schema)
    (checked : String → Bool) : ResultGraph where
  orgId := plan.orgId
  childOf := []
  targets targetId :=
    if targetId ≠ UUID.nil ∧ (schema.definitions.any fun definition =>
        definition.isReference && checked definition.name &&
          storedUUID (result.prop definition.name) = targetId) then
      match readMutationSource db plan.orgId targetId with
      | some target => ⟨true, plan.orgId, target.typeKey⟩
      | none => ⟨false, plan.orgId, ""⟩
    else .absent

/-- Checks every property of a new node, and of a stored node those that the plan patches. -/
def checkMutationResult (env : Env) (db : Db) (plan : MutationPlan) (source : Option MutationSource)
    (result : Node) (schema : Schema) : Except Refusal Unit :=
  let checked name := source.isNone || (plan.props.get name).isSome
  let graph := readResultGraph db plan result schema checked
  let validated := schema.validateResult env.absoluteURL plan.nodeType result.props graph
  if validated.failures ≠ [] then .error ⟨.schemaRead, "interpret node type properties"⟩
  else if validated.invalid.any fun issue => checked issue.property && ordinaryIssue issue then
    .error ⟨.invalidArgument, "node type properties are invalid"⟩
  else .ok ()

/-! ### The transactions -/

/-- What an attempt has read and checked before it writes. -/
structure CheckedPlan where
  source : Option MutationSource
  kind : NodeType
  schema : Schema
  result : Node
  parentChanges : RelationshipChanges

/-- The reads and checks of an attempt that come before the write fence. -/
def checkPlan (env : Env) (db : Db) (plan : MutationPlan) (now : Time) : Except Refusal CheckedPlan := do
  let source := readMutationSource db plan.orgId plan.nodeId
  checkSource env plan.source source
  checkPlanShape plan source
  let (kind, schema) ← checkMutationSchema db plan
  let records ← checkGraphRecords env db plan.orgId plan.graph.records
  checkPlanParent db plan records
  let result := mutationResult plan source now
  checkMoveScope plan source result records
  let parentChanges ← childOfChanges env db plan source now
  return ⟨source, kind, schema, withParentID plan result, parentChanges⟩

/-- The references of a mutation: those of a stored node are replaced when the plan lists some, those
of a new node are claimed. -/
def writeMutationReferences (plan : MutationPlan) (source : Option MutationSource) : Step Unit :=
  match source with
  | some _ => replaceReferenceKeys plan.orgId plan.nodeId plan.referenceKeys
  | none => claimReferenceKeys plan.orgId plan.nodeId (plan.referenceKeys.getD [])

def writeMutation (plan : MutationPlan) (checked : CheckedPlan)
    (relationshipChanges : List RelationshipChanges) : Step Unit := do
  let encoded ← writeNodeRecords checked.result
  record (nodeTarget checked.result) (checked.source.map fun source => .node source.node)
    (some (.node encoded))
  writeDb fun db => { db with
    byProperty := reconcilePropertyIndexes db.byProperty checked.result
      ((checked.source.map fun source => source.node.props).getD .empty)
      (indexedPropertyNames checked.schema.definitions checked.kind) }
  writeMutationReferences plan checked.source
  applyRelationshipChanges relationshipChanges
  writeDb fun db => { db with
    idempotency := withIdempotency db.idempotency plan.orgId plan.idempotency }

/-- The part of an attempt that writes. -/
def applyChecked (env : Env) (plan : MutationPlan) (now : Time) : Step Unit := do
  let checked ← readDb fun db => checkPlan env db plan now
  let strict ← fenceAttempt plan.orgId plan.nodeId
  readDb fun db => checkStrictMutation env db strict checked.result plan.parent
  readDb fun db => checkMutationResult env db plan checked.source checked.result checked.schema
  let relationshipChanges := [planRelationshipChanges plan, checked.parentChanges]
  writeMutation plan checked relationshipChanges
  readDb fun db => checkStrictRelationshipAdds db strict relationshipChanges

/-- One attempt: a create whose idempotency record exists writes nothing. -/
def applyMutation (env : Env) (plan : MutationPlan) (now : Time) : Step Unit := do
  startAttempt
  let existing ← readDb fun db => readCreateIdempotency db plan
  bif existing then pure () else applyChecked env plan now
  append plan.orgId

/-- A node with the hierarchy parent `nodeId` among the sources of child_of edges refuses a deletion. -/
def refuseHierarchyChild (db : Db) (orgId nodeId : UUID) : List HierarchyNode → Except Refusal Unit
  | [] => .ok ()
  | source :: rest =>
    if !source.found then refuseHierarchyChild db orgId nodeId rest
    else do
      if ← hasHierarchyParent db orgId source nodeId then
        .error ⟨.failedPrecondition, "a node is a hierarchy child of the node"⟩
      else refuseHierarchyChild db orgId nodeId rest

/-- A node that the index lists as a reference to the node. -/
def isReferenced (db : Db) (orgId : UUID) (source : MutationSource) : Bool :=
  let value := quoteUUID source.node.id
  let kinds := (db.nodeTypes.scan fun k => k.org == orgId).map Prod.snd
  (db.definitionsOf orgId).any fun definition =>
    definition.type = .uuid && definition.indexed &&
      definition.referenceTargetTypeKey = source.typeKey &&
      kinds.any fun kind => propertyAppliesTo definition kind &&
        !(db.byProperty.scan fun k => k.org == orgId && k.nodeType == kind.typeKey &&
          k.name == definition.name && inTextRange value k.value).isEmpty

def outgoingMatches (env : Env) (expected : List RelationshipExpectation) (stored : List Relationship) :
    Bool :=
  expected.length = stored.length && stored.all (expectsRelationship env expected)

def incomingMatches (env : Env) (expected : List IncomingRelationshipExpectation)
    (stored : List Relationship) : Bool :=
  expected.length = stored.length && stored.all fun edge => expected.any fun candidate =>
    candidate.sourceId = edge.sourceId && candidate.relationType = edge.relationType &&
      candidate.digest = env.relationshipDigest edge

/-- The reads and checks of a deletion, and the node that it deletes. -/
def checkDeletion (env : Env) (db : Db) (plan : DeletionPlan) : Except Refusal Node := do
  if plan.source.absent then
    .error ⟨.invalidArgument, "a deletion requires an expected stored node"⟩
  else
    match readMutationSource db plan.orgId plan.nodeId with
    | none => .error ⟨.conflict, "the plan expects a stored node, but the node does not exist"⟩
    | some source =>
      checkSource env plan.source (some source)
      let _ ← checkGraphRecords env db plan.orgId plan.graph.records
      let outgoing := readOutgoingSnapshots db plan.orgId plan.nodeId ""
      match ← readIncomingSnapshots db plan.orgId plan.nodeId with
      | none => .error ⟨.failedPrecondition, "the node has more relationships than one transaction deletes"⟩
      | some incoming =>
        if outgoing.length > mutationEdgeLimit then
          .error ⟨.failedPrecondition, "the node has more relationships than one transaction deletes"⟩
        else
          let sources ← readHierarchyNodes db plan.orgId
            ((incoming.filter fun edge => edge.relationType = relChildOf).map Relationship.sourceId)
          refuseHierarchyChild db plan.orgId plan.nodeId sources
          if isReferenced db plan.orgId source then
            .error ⟨.failedPrecondition, "a node references the node"⟩
          else if outgoingMatches env plan.graph.relationships outgoing &&
              incomingMatches env plan.graph.incoming incoming then
            return source.node
          else .error ⟨.conflict, "the stored relationships differ from the graph expectation"⟩

def deleteNode (env : Env) (plan : DeletionPlan) : Step Unit := do
  startAttempt
  let current ← readDb fun db => checkDeletion env db plan
  let _ ← fenceAttempt plan.orgId plan.nodeId
  clearNode current
  append plan.orgId

/-! ### What an attempt that succeeded did -/

variable {env : Env} {db : Db} {plan : MutationPlan} {now : Time} {s s' : Attempt} {u : Unit}

/-- What the checks of a plan found. -/
structure CheckSpec (env : Env) (db : Db) (plan : MutationPlan) (now : Time) (checked : CheckedPlan) :
    Prop where
  source : checked.source = readMutationSource db plan.orgId plan.nodeId
  expected : checkSource env plan.source checked.source = .ok ()
  shape : checkPlanShape plan checked.source = .ok ()
  kind : cachedNodeTypeByKey db plan.orgId plan.nodeType = .ok (some checked.kind)
  schema : checked.schema =
    ⟨plan.orgId, Table.empty.set checked.kind.typeKey checked.kind, db.definitionsOf plan.orgId⟩
  result : checked.result = withParentID plan (mutationResult plan checked.source now)
  parentChanges : childOfChanges env db plan checked.source now = .ok checked.parentChanges

theorem checkMutationSchema_ok {kind : NodeType} {schema : Schema}
    (h : checkMutationSchema db plan = .ok (kind, schema)) :
    cachedNodeTypeByKey db plan.orgId plan.nodeType = .ok (some kind) ∧
      schema = ⟨plan.orgId, Table.empty.set kind.typeKey kind, db.definitionsOf plan.orgId⟩ := by
  rw [checkMutationSchema] at h
  split_ifs at h
  obtain ⟨found, hfound, h⟩ := except_bind_ok.mp h
  cases found with
  | none => cases h
  | some found =>
    cases h
    exact ⟨hfound, rfl⟩

theorem checkPlan_ok {checked : CheckedPlan} (h : checkPlan env db plan now = .ok checked) :
    CheckSpec env db plan now checked := by
  obtain ⟨_, hsource, h⟩ := except_bind_ok.mp h
  obtain ⟨_, hshape, h⟩ := except_bind_ok.mp h
  obtain ⟨⟨kind, schema⟩, hschema, h⟩ := except_bind_ok.mp h
  obtain ⟨records, -, h⟩ := except_bind_ok.mp h
  obtain ⟨_, -, h⟩ := except_bind_ok.mp h
  obtain ⟨_, -, h⟩ := except_bind_ok.mp h
  obtain ⟨parentChanges, hparent, h⟩ := except_bind_ok.mp h
  cases h
  obtain ⟨hkind, rfl⟩ := checkMutationSchema_ok hschema
  exact ⟨rfl, hsource, hshape, hkind, rfl, rfl, hparent⟩

/-- The references after a mutation. -/
def MutationRefs (plan : MutationPlan) (source : Option MutationSource) (refs refs' : Refs) : Prop :=
  source = none ∧ Claimed refs plan.orgId plan.nodeId (plan.referenceKeys.getD []) refs' ∨
    source ≠ none ∧ Replaced refs plan.orgId plan.nodeId plan.referenceKeys refs'

theorem writeMutationReferences_ok {source : Option MutationSource}
    (h : writeMutationReferences plan source s = .ok u s') :
    ∃ refs, MutationRefs plan source s.db.refs refs ∧ s' = { s with db := { s.db with refs := refs } } := by
  cases source with
  | none =>
    obtain ⟨refs, hrefs, rfl⟩ := claimed_of_ok h
    exact ⟨refs, .inl ⟨rfl, hrefs⟩, rfl⟩
  | some source =>
    obtain ⟨refs, hrefs, rfl⟩ := replaced_of_ok h
    exact ⟨refs, .inr ⟨by simp, hrefs⟩, rfl⟩

/-- What a mutation that wrote did. -/
structure MutationSpec (env : Env) (plan : MutationPlan) (now : Time) (s s' : Attempt)
    (checked : CheckedPlan) (stored : Node) (refs : Refs) (edges : Edges) (edgeChanges : List Change) :
    Prop where
  checkedPlan : checkPlan env s.db plan now = .ok checked
  checks : CheckSpec env s.db plan now checked
  marshalled : checked.result.marshalled = some stored
  refsChanged : MutationRefs plan checked.source s.db.refs refs
  edgesChanged : EdgesChanged s.db.edges [planRelationshipChanges plan, checked.parentChanges] edges
    edgeChanges
  strict : checkStrictMutation env (s.db.fence plan.orgId plan.nodeId) s.db.strict checked.result
    plan.parent = .ok ()
  ordinary : checkMutationResult env (s.db.fence plan.orgId plan.nodeId) plan checked.source
    checked.result checked.schema = .ok ()
  strictAdds : checkStrictRelationshipAdds s'.db s.db.strict
    [planRelationshipChanges plan, checked.parentChanges] = .ok ()
  valid : (checked.source.map fun source => source.node) = some stored ∨
    (nodeTarget checked.result).valid
  db : s'.db = { (s.db.fence plan.orgId plan.nodeId).putNode stored with
    byProperty := reconcilePropertyIndexes s.db.byProperty checked.result
      ((checked.source.map fun source => source.node.props).getD .empty)
      (indexedPropertyNames (s.db.definitionsOf plan.orgId) checked.kind)
    refs := refs
    edges := edges
    idempotency := withIdempotency s.db.idempotency plan.orgId plan.idempotency }
  changes : s'.changes = changeOf (nodeTarget checked.result)
    (checked.source.map fun source => .node source.node) (some (.node stored)) ++ edgeChanges

theorem MutationSpec.put {checked : CheckedPlan} {stored : Node} {refs : Refs} {edges : Edges}
    {edgeChanges : List Change}
    (h : MutationSpec env plan now s s' checked stored refs edges edgeChanges) : s.db.Put s'.db stored := by
  constructor <;> rw [h.db] <;> rfl

theorem applyMutation_ok (h : applyMutation env plan now s = .ok u s') :
    readCreateIdempotency s.db plan = .ok true ∧ s' = ⟨s.db, []⟩ ∨
      readCreateIdempotency s.db plan = .ok false ∧ ∃ checked stored refs edges edgeChanges,
        MutationSpec env plan now s s' checked stored refs edges edgeChanges := by
  obtain ⟨existing, hexisting, h⟩ := readDb_bind.mp (startAttempt_bind.mp h)
  obtain ⟨_, _, hbody, happend⟩ := Tx.bind_ok.mp h
  obtain ⟨-, rfl⟩ := append_ok.mp happend
  cases existing with
  | true =>
    obtain ⟨-, rfl⟩ := Tx.pure_ok.mp hbody
    exact .inl ⟨hexisting, rfl⟩
  | false =>
    right
    obtain ⟨checked, hplan, h⟩ := readDb_bind.mp hbody
    have h := fenceAttempt_bind.mp h
    obtain ⟨_, hstrict, h⟩ := readDb_bind.mp h
    obtain ⟨_, hordinary, h⟩ := readDb_bind.mp h
    obtain ⟨_, _, hwrite, hadds⟩ := Tx.bind_ok.mp h
    obtain ⟨hadds, rfl⟩ := readDb_ok.mp hadds
    have hchecked := checkPlan_ok hplan
    obtain ⟨stored, hmarshal, h⟩ := writeNodeRecords_bind.mp hwrite
    obtain ⟨hvalid, h⟩ := record_bind.mp h
    obtain ⟨_, _, hrefs, h⟩ := Tx.bind_ok.mp (writeDb_bind.mp h)
    obtain ⟨refs, hrefs', rfl⟩ := writeMutationReferences_ok hrefs
    obtain ⟨_, _, hedges, h⟩ := Tx.bind_ok.mp h
    obtain ⟨edges, edgeChanges, hedges', rfl⟩ := applyRelationshipChanges_ok hedges
    obtain rfl := writeDb_ok.mp h
    refine ⟨hexisting, checked, stored, refs, edges, edgeChanges,
      { checkedPlan := hplan
        checks := hchecked
        marshalled := hmarshal
        refsChanged := hrefs'
        edgesChanged := hedges'
        strict := hstrict
        ordinary := hordinary
        strictAdds := hadds
        valid := hvalid.imp_left fun heq => eq_some_of_map_record (by rw [Option.map_map]; exact heq)
        db := ?_
        changes := rfl }⟩
    rw [hchecked.schema]
    rfl

/-- What the checks of a deletion found. -/
structure DeletionSpec (env : Env) (db : Db) (plan : DeletionPlan) (source : MutationSource)
    (incoming : List Relationship) (sources : List HierarchyNode) : Prop where
  readSource : readMutationSource db plan.orgId plan.nodeId = some source
  readIncoming : readIncomingSnapshots db plan.orgId plan.nodeId = .ok (some incoming)
  readSources : readHierarchyNodes db plan.orgId
    ((incoming.filter fun edge => edge.relationType = relChildOf).map Relationship.sourceId) = .ok sources
  noChild : refuseHierarchyChild db plan.orgId plan.nodeId sources = .ok ()
  notReferenced : isReferenced db plan.orgId source = false

theorem checkDeletion_ok {plan : DeletionPlan} {current : Node} (h : checkDeletion env db plan = .ok current) :
    ∃ source incoming sources, DeletionSpec env db plan source incoming sources ∧
      current = source.node := by
  rw [checkDeletion] at h
  split_ifs at h
  split at h
  · cases h
  case h_2 source hsource =>
    obtain ⟨_, -, h⟩ := except_bind_ok.mp h
    obtain ⟨_, -, h⟩ := except_bind_ok.mp h
    obtain ⟨incoming, hincoming, h⟩ := except_bind_ok.mp h
    cases incoming with
    | none => cases h
    | some incoming =>
      dsimp only at h
      by_cases hmany : (readOutgoingSnapshots db plan.orgId plan.nodeId "").length > mutationEdgeLimit
      · rw [if_pos hmany] at h
        cases h
      rw [if_neg hmany] at h
      obtain ⟨sources, hsources, h⟩ := except_bind_ok.mp h
      obtain ⟨_, hchild, h⟩ := except_bind_ok.mp h
      split_ifs at h with hreferenced
      cases h
      exact ⟨source, incoming, sources, ⟨hsource, hincoming, hsources, hchild, by simpa using hreferenced⟩,
        rfl⟩

theorem deleteNode_ok {plan : DeletionPlan} (h : deleteNode env plan s = .ok u s') :
    ∃ source incoming sources, DeletionSpec env s.db plan source incoming sources ∧
      checkDeletion env s.db plan = .ok source.node ∧
      (s.db.fence plan.orgId plan.nodeId).Clearable source.node ∧
      s' = ⟨(s.db.fence plan.orgId plan.nodeId).clearedNode source.node,
        s.db.clearedNodeChanges source.node⟩ := by
  obtain ⟨current, hcheck, h⟩ := readDb_bind.mp (startAttempt_bind.mp h)
  have h := fenceAttempt_bind.mp h
  obtain ⟨_, _, hclear, h⟩ := Tx.bind_ok.mp h
  obtain ⟨hclearable, rfl⟩ := clearNode_ok.mp hclear
  obtain ⟨-, rfl⟩ := append_ok.mp h
  obtain ⟨source, incoming, sources, hspec, rfl⟩ := checkDeletion_ok hcheck
  exact ⟨source, incoming, sources, hspec, hcheck, hclearable, rfl⟩

end Tack.Nodes

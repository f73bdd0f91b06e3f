import Tack.Nodes.Relationships
import Tack.Nodes.Schema

/-!
# Reads of node transactions, and strict validation

What node transactions read before they write: node types by key, the nodes of the hierarchy, the
stored source of a mutation, and the surroundings of a record.  When strict validation is active, a
write is refused unless its complete result is valid.

## Main definitions

* `Nodes.cachedNodeTypeByKey`, `Nodes.readHierarchyNodes`, `Nodes.hasHierarchyParent`.
* `Nodes.readMutationSource` — a stored node.
* `Nodes.readStrictGraph`, `Nodes.checkStrictMutation`, `Nodes.checkStrictRelationship`.
* `Nodes.refuseOnlyParentRemoval` — the guard of a relationship removal.
-/

namespace Tack.Nodes

open Lib

/-! ### Node types and definitions -/

def maxIndexedMatches : ℕ := 2

/-- The IDs of the node types in the range of a type key. -/
def indexedTypeIDs (db : Db) (orgId : UUID) (typeKey : String) : List UUID :=
  ((db.nodeTypesByKey.scan fun k => k.org == orgId && inTextRange typeKey k.typeKey).map
    fun e => e.1.id).take maxIndexedMatches

/-- The node type of a key. -/
def cachedNodeTypeByKey (db : Db) (orgId : UUID) (typeKey : String) :
    Except Refusal (Option NodeType) :=
  match indexedTypeIDs db orgId typeKey with
  | [] => .ok none
  | [typeId] => .ok ((db.nodeTypes.get ⟨orgId, typeId⟩).filter fun kind => kind.typeKey = typeKey)
  | _ => .error ⟨.malformed, "node type key is used by several node types"⟩

/-- The property definitions of an organization. -/
def Db.definitionsOf (db : Db) (orgId : UUID) : List PropertyDef :=
  (db.propertyDefs.scan fun k => k.org == orgId).map Prod.snd

/-- The names of the indexed definitions that apply to a type. -/
def indexedPropertyNames (definitions : List PropertyDef) (kind : NodeType) : List String :=
  (definitions.filter fun definition => definition.indexed && propertyAppliesTo definition kind).map
    PropertyDef.name

/-! ### Nodes of the hierarchy -/

structure HierarchyNode where
  id : UUID
  typeKey : String
  kind : Option NodeType
  found : Bool

def readHierarchyNode (db : Db) (orgId nodeId : UUID) : Except Refusal HierarchyNode :=
  match db.resolves.get nodeId with
  | none => .ok ⟨nodeId, "", none, false⟩
  | some resolved =>
    if resolved.orgId ≠ orgId then .ok ⟨nodeId, "", none, false⟩
    else do
      let kind ← cachedNodeTypeByKey db orgId resolved.nodeType
      return ⟨nodeId, resolved.nodeType, kind, true⟩

theorem readHierarchyNode_id {db : Db} {orgId nodeId : UUID} {top : HierarchyNode}
    (h : readHierarchyNode db orgId nodeId = .ok top) : top.id = nodeId := by
  rw [readHierarchyNode] at h
  split at h
  · cases h
    rfl
  · split_ifs at h
    · cases h
      rfl
    · obtain ⟨kind, -, h⟩ := except_bind_ok.mp h
      cases h
      rfl

def readHierarchyNodes (db : Db) (orgId : UUID) : List UUID → Except Refusal (List HierarchyNode)
  | [] => .ok []
  | nodeId :: rest => do
    let read ← readHierarchyNode db orgId nodeId
    let nodes ← readHierarchyNodes db orgId rest
    return read :: nodes

/-- The hierarchy parent of a node is `parentId`; contradictory edges are an error. -/
def hasHierarchyParent (db : Db) (orgId : UUID) (source : HierarchyNode) (parentId : UUID) :
    Except Refusal Bool :=
  let targets := (readDeleteEdges db orgId source.id relChildOf false).map RelKey.far
  match hierarchyParent source.kind targets with
  | none => .error ⟨.noHierarchyParent, "read the hierarchy parent"⟩
  | some found => .ok (found == parentId)

/-! ### Stored nodes -/

/-- The stored node with its type key, when the organization has one with the ID. -/
structure MutationSource where
  typeKey : String
  node : Node

def readMutationSource (db : Db) (orgId nodeId : UUID) : Option MutationSource :=
  match db.resolves.get nodeId with
  | none => none
  | some resolve =>
    if resolve.orgId ≠ orgId then none
    else (db.nodes.get ⟨orgId, resolve.nodeType, nodeId⟩).map fun current => ⟨resolve.nodeType, current⟩

/-- A source is a node that both its resolution record and its instance record name. -/
theorem readMutationSource_eq_some {db : Db} {orgId nodeId : UUID} {source : MutationSource} :
    readMutationSource db orgId nodeId = some source ↔
      db.resolves.get nodeId = some ⟨orgId, source.typeKey⟩ ∧
        db.nodes.get ⟨orgId, source.typeKey, nodeId⟩ = some source.node := by
  obtain ⟨typeKey, current⟩ := source
  rw [readMutationSource]
  cases hresolve : db.resolves.get nodeId with
  | none => simp
  | some resolve =>
    obtain ⟨resolvedOrg, resolvedType⟩ := resolve
    by_cases horg : resolvedOrg = orgId
    · subst horg
      simp only [ne_eq, not_true_eq_false, if_false, Option.map_eq_some_iff, MutationSource.mk.injEq,
        Option.some.injEq, NodeResolve.mk.injEq, true_and]
      constructor
      · rintro ⟨stored, hget, rfl, rfl⟩
        exact ⟨rfl, hget⟩
      · rintro ⟨rfl, hget⟩
        exact ⟨current, hget, rfl, rfl⟩
    · simp [horg]

/-- What a caller reads before it deletes a node. -/
def Db.getNode (db : Db) (orgId nodeId : UUID) : Option Node :=
  (readMutationSource db orgId nodeId).map MutationSource.node

/-! ### Surroundings of a record -/

def strictChildOfLimit : ℕ := 2

def readResultTarget (db : Db) (targetId : UUID) : ResultTarget :=
  match db.resolves.get targetId with
  | none => .absent
  | some resolve => ⟨true, resolve.orgId, resolve.nodeType⟩

/-- The IDs that a record names: its parent and its references. -/
def targetIDs (definitions : List PropertyDef) (record : Node) : List UUID :=
  record.parentID :: (definitions.filter PropertyDef.isReference).map fun definition =>
    storedUUID (record.prop definition.name)

/-- The targets of the child_of edges of a node, at most two of them. -/
def Db.childOf (db : Db) (orgId nodeId : UUID) : List UUID :=
  ((db.edges.outgoing orgId nodeId relChildOf).take strictChildOfLimit).map fun e => e.1.far

def readStrictGraph (db : Db) (definitions : List PropertyDef) (record : Node) : ResultGraph where
  orgId := record.orgId
  childOf := db.childOf record.orgId record.id
  targets targetId :=
    if targetId ≠ UUID.nil ∧ targetId ∈ targetIDs definitions record then readResultTarget db targetId
    else .absent

/-- The schema and the surroundings of a result; `none` when its type does not exist. -/
def readStrictSchema (db : Db) (record : Node) : Except Refusal (Option (Schema × ResultGraph)) := do
  let kind ← cachedNodeTypeByKey db record.orgId record.nodeType
  match kind with
  | none => return none
  | some kind =>
    let definitions := db.definitionsOf record.orgId
    let graph := readStrictGraph db definitions record
    let types : Table String NodeType := Table.empty.set kind.typeKey kind
    let parent := graph.targets record.parentID
    if !parent.found || parent.orgId ≠ record.orgId then
      return some (⟨record.orgId, types, definitions⟩, graph)
    else
      let parentKind ← cachedNodeTypeByKey db record.orgId parent.nodeType
      let types := match parentKind with
        | some parentKind => types.set parentKind.typeKey parentKind
        | none => types
      return some (⟨record.orgId, types, definitions⟩, graph)

/-! ### Strict validation -/

def strictResultError (result : PropertyResult) : Except Refusal Unit :=
  if result.accepted then .ok ()
  else if result.failures ≠ [] then
    .error ⟨.schemaRead, "validate the complete result"⟩
  else .error ⟨.invalidArgument, "strict validation refuses the complete result"⟩

/-- Checks a complete result; `parent` is the parent that the mutation is about to write. -/
def checkStrictMutation (env : Env) (db : Db) (strict : Bool) (result : Node) (parent : Option UUID) :
    Except Refusal Unit :=
  if !strict then .ok ()
  else do
    match ← readStrictSchema db result with
    | none => .error ⟨.invalidArgument, "node type does not exist"⟩
    | some (schema, graph) =>
      let graph := match parent with
        | some targetId => { graph with childOf := [targetId] }
        | none => graph
      strictResultError (schema.validateResult env.absoluteURL result.nodeType result.props graph)

def checkStrictRecord (env : Env) (db : Db) (strict : Bool) (record : Node) : Except Refusal Unit :=
  checkStrictMutation env db strict record none

/-- Checks the ends of an added relationship. -/
def checkStrictRelationship (db : Db) (strict : Bool) (rel : Relationship) (memberTarget : Bool) :
    Except Refusal Unit :=
  let source := readResultTarget db rel.sourceId
  let target := readResultTarget db rel.targetId
  if !strict then .ok ()
  else if rel.relationType = relChildOf then .error ⟨.reservedParentRelation, "add relationship"⟩
  else if !source.found || source.orgId ≠ rel.orgId then
    .error ⟨.invalidArgument, "the relationship source does not exist in the organization"⟩
  else if target.found && target.orgId ≠ rel.orgId then
    .error ⟨.invalidArgument, "the relationship target is a node in another organization"⟩
  else if !target.found && !memberTarget then
    .error ⟨.invalidArgument, "the relationship target is neither a node nor a member of the organization"⟩
  else .ok ()

def checkRelationshipAdds (db : Db) (strict : Bool) : List Relationship → Except Refusal Unit
  | [] => .ok ()
  | rel :: rest =>
    if rel.relationType = relChildOf then checkRelationshipAdds db strict rest
    else do
      checkStrictRelationship db strict rel false
      checkRelationshipAdds db strict rest

/-- Checks every added relationship but the child_of ones. -/
def checkStrictRelationshipAdds (db : Db) (strict : Bool) (changesList : List RelationshipChanges) :
    Except Refusal Unit :=
  if !strict then .ok ()
  else checkRelationshipAdds db strict (changesList.flatMap RelationshipChanges.add)

def checkStrictWrite (env : Env) (db : Db) (strict : Bool) (record : Node)
    (changesList : List RelationshipChanges) : Except Refusal Unit := do
  checkStrictRelationshipAdds db strict changesList
  checkStrictRecord env db strict record

/-! ### The guard of a removal -/

/-- A stored parent: the nil ID when there is none, an error when it is no JSON string with a UUID. -/
def parentIDValue (raw : RawMessage) : Except Refusal UUID :=
  if raw = "" then .ok UUID.nil
  else match Json.parse raw.toList with
    | some (.str text) =>
      match UUID.parse text with
      | some parentId => .ok parentId
      | none => .error ⟨.failedPrecondition, "parent_id is not a UUID string"⟩
    -- a null decodes into a string variable without a change, and the empty text is no UUID
    | _ => .error ⟨.failedPrecondition, "parent_id is not a UUID string"⟩

def storedParentID (db : Db) (orgId : UUID) (source : HierarchyNode) : Except Refusal UUID :=
  if !source.found then .ok UUID.nil
  else match db.nodes.get ⟨orgId, source.typeKey, source.id⟩ with
    | none => .ok UUID.nil
    | some current => parentIDValue (current.prop parentIDProperty)

def parentGuardEdgeLimit : ℕ := 2

/-- The target of another child_of edge among the first two. -/
def otherParentTarget (db : Db) (orgId sourceId : UUID) (removedKey : RelKey) : Option UUID :=
  ((((db.edges.outgoing orgId sourceId relChildOf).map Prod.fst).take parentGuardEdgeLimit).find?
    fun k => k ≠ removedKey).map RelKey.far

/-- Refuses to remove the child_of edge that a node needs. -/
def refuseOnlyParentRemoval (db : Db) (orgId sourceId : UUID) (relationType : String)
    (targetId : UUID) : Except Refusal Unit :=
  let removedKey : RelKey := ⟨orgId, sourceId, relationType, targetId⟩
  if relationType ≠ relChildOf ∨ db.edges.forward.get removedKey = none then .ok ()
  else do
    let source ← readHierarchyNode db orgId sourceId
    let canonicalId ← storedParentID db orgId source
    if canonicalId ≠ UUID.nil ∧ canonicalId ≠ targetId then .ok ()
    else if canonicalId = UUID.nil ∧
        (hierarchyParent source.kind (otherParentTarget db orgId sourceId removedKey).toList).isSome then
      .ok ()
    else .error ⟨.failedPrecondition, "the node needs a hierarchy parent, and this is its only one"⟩

end Tack.Nodes

import Tack.Nodes.Db

/-!
# Writing and reading relationships

A relationship is stored under its source, with its record, and under its target.  This file holds the
routines that write or clear both keys, what each of them did when it succeeded, and the reads by one
end of a relationship.

## Main definitions

* `Nodes.addRelationships`, `Nodes.removeRelationships`, `Nodes.applyRelationshipChanges`.
* `Nodes.clearSourceRelationships`, `Nodes.clearTargetRelationships` — clearing the relationships of a
  deleted node.
* `Nodes.readDeleteEdges`, `Nodes.listBySource`, `Nodes.listByTarget` — the reads.

## Main results

* `Nodes.removeRelationships_ok`, `Nodes.addRelationships_ok`, `Nodes.clearSourceRelationships_ok`,
  `Nodes.clearTargetRelationships_ok` — the database and the changes after each routine.
-/

namespace Tack.Nodes

open Lib

/-! ### Keys of a relationship -/

/-- The key of a relationship under its other end. -/
def RelKey.flip (k : RelKey) : RelKey := ⟨k.org, k.far, k.relationType, k.near⟩

@[simp] theorem RelKey.flip_flip (k : RelKey) : k.flip.flip = k := rfl

theorem RelKey.flip_injective : Function.Injective RelKey.flip := fun a b h => by
  rw [← a.flip_flip, h, b.flip_flip]

/-- The key of a relationship in the forward family. -/
def relationshipKey (relationship : Relationship) : RelKey :=
  ⟨relationship.orgId, relationship.sourceId, relationship.relationType, relationship.targetId⟩

def relationshipTarget (relationship : Relationship) : Target :=
  .relationship relationship.sourceId relationship.relationType relationship.targetId

/-- A relationship that only names an edge. -/
def edgeRecord (k : RelKey) : Relationship where
  orgId := k.org
  sourceId := k.near
  relationType := k.relationType
  targetId := k.far
  createdBy := UUID.nil
  createdAt := Time.zero
  props := .empty

theorem Relationship.marshalled_eq_some {relationship stored : Relationship}
    (h : relationship.marshalled = some stored) : relationshipKey stored = relationshipKey relationship ∧
      relationshipTarget stored = relationshipTarget relationship := by
  obtain ⟨props, -, rfl⟩ := Option.map_eq_some_iff.mp h
  exact ⟨rfl, rfl⟩

namespace Edges

/-- Writes both keys of a relationship. -/
def put (edges : Edges) (relationship : Relationship) : Edges :=
  ⟨edges.forward.set (relationshipKey relationship) relationship,
    edges.reverse.set (relationshipKey relationship).flip ()⟩

/-- Clears both keys of a relationship. -/
def drop (edges : Edges) (k : RelKey) : Edges := ⟨edges.forward.erase k, edges.reverse.erase k.flip⟩

/-- The stored value of a relationship. -/
def value (edges : Edges) (relationship : Relationship) : Option Relationship :=
  edges.forward.get (relationshipKey relationship)

/-- Each relationship with its stored value. -/
def withValues (edges : Edges) (relationships : List Relationship) :
    List (Relationship × Option Relationship) :=
  relationships.map fun relationship => (relationship, edges.value relationship)

end Edges

/-! ### Lists of relationships -/

/-- Clears each relationship and records its deletion. -/
def removeEach : List (Relationship × Option Relationship) → Step Unit
  | [] => pure ()
  | (relationship, stored) :: rest => do
    writeDb fun db => { db with edges := db.edges.drop (relationshipKey relationship) }
    record (relationshipTarget relationship) (stored.map .relationship) none
    removeEach rest

/-- The values are read before the first of them is cleared. -/
def removeRelationships (removed : List Relationship) : Step Unit := do
  let stored ← readDb fun db => .ok (db.edges.withValues removed)
  removeEach stored

/-- Writes each relationship and records its change. -/
def addEach : List (Relationship × Option Relationship) → Step Unit
  | [] => pure ()
  | (relationship, stored) :: rest =>
    match relationship.marshalled with
    | none => throw ⟨.malformed, "marshal relationship"⟩
    | some metadata => do
      writeDb fun db => { db with edges := db.edges.put metadata }
      record (relationshipTarget relationship) (stored.map .relationship) (some (.relationship metadata))
      addEach rest

/-- The values are read before the first of them is written. -/
def addRelationships (added : List Relationship) : Step Unit := do
  let stored ← readDb fun db => .ok (db.edges.withValues added)
  addEach stored

/-- Processes the sets in order; each set removes relationships before it adds some. -/
def applyRelationshipChanges : List RelationshipChanges → Step Unit
  | [] => pure ()
  | set :: rest => do
    removeRelationships set.remove
    addRelationships set.add
    applyRelationshipChanges rest

/-! ### Ranges -/

/-- The relation type lies in the range of a type; the empty type stands for all. -/
def inTypeRange (relationType value : String) : Bool :=
  relationType == "" || inTextRange relationType value

/-- The range of the relationships of a node, of one type or of all. -/
def inNodeRange (orgId nodeId : UUID) (relationType : String) (k : RelKey) : Bool :=
  k.org == orgId && k.near == nodeId && inTypeRange relationType k.relationType

/-- The relationships from a node. -/
def Edges.outgoing (edges : Edges) (orgId nodeId : UUID) (relationType : String) :
    List (RelKey × Relationship) :=
  edges.forward.scan (inNodeRange orgId nodeId relationType)

/-- The keys of the relationships to a node, as the reverse family holds them. -/
def Edges.incoming (edges : Edges) (orgId nodeId : UUID) (relationType : String) : List RelKey :=
  (edges.reverse.scan (inNodeRange orgId nodeId relationType)).map Prod.fst

/-- Clears the reverse key of each relationship from a node and records the deletion. -/
def clearSourceEach : List (RelKey × Relationship) → Step Unit
  | [] => pure ()
  | (k, stored) :: rest => do
    writeDb fun db => { db with edges := { db.edges with reverse := db.edges.reverse.erase k.flip } }
    record (.relationship k.near k.relationType k.far) (some (.relationship stored)) none
    clearSourceEach rest

def clearSourceRelationships (orgId nodeId : UUID) : Step Unit := do
  let items ← readDb fun db => .ok (db.edges.outgoing orgId nodeId "")
  clearSourceEach items
  writeDb fun db => { db with edges := { db.edges with
    forward := db.edges.forward.keep fun k => !inNodeRange orgId nodeId "" k } }

def clearTargetRelationships (orgId nodeId : UUID) : Step Unit := do
  let items ← readDb fun db => .ok (db.edges.incoming orgId nodeId "")
  removeRelationships (items.map fun k => edgeRecord k.flip)
  writeDb fun db => { db with edges := { db.edges with
    reverse := db.edges.reverse.keep fun k => !inNodeRange orgId nodeId "" k } }

/-! ### Reads -/

/-- The edges that one subtree delete step reads of a node in each direction. -/
def maxDeleteEdgePage : ℕ := 100

def mutationEdgeLimit : ℕ := 100

/-- At most one edge more than a page, each by its key under its source. -/
def readDeleteEdges (db : Db) (orgId nodeId : UUID) (relationType : String) (incoming : Bool) :
    List RelKey :=
  if incoming then
    ((db.edges.incoming orgId nodeId relationType).take (maxDeleteEdgePage + 1)).map RelKey.flip
  else ((db.edges.outgoing orgId nodeId relationType).map Prod.fst).take (maxDeleteEdgePage + 1)

def clearDeleteEdges (edges : List RelKey) : Step Unit := removeRelationships (edges.map edgeRecord)

def readOutgoingSnapshots (db : Db) (orgId nodeId : UUID) (relationType : String) :
    List Relationship :=
  (db.edges.outgoing orgId nodeId relationType).map Prod.snd

/-- The stored records of edges; an edge without a record does not decode. -/
def readSnapshots (db : Db) : List RelKey → Except Refusal (List Relationship)
  | [] => .ok []
  | k :: rest =>
    match db.edges.forward.get k with
    | none => .error ⟨.malformed, "decode relationship metadata"⟩
    | some stored => do return stored :: (← readSnapshots db rest)

/-- The relationships to a node, or `none` when they are more than a mutation reads. -/
def readIncomingSnapshots (db : Db) (orgId nodeId : UUID) :
    Except Refusal (Option (List Relationship)) :=
  let edges := readDeleteEdges db orgId nodeId "" true
  if edges.length > mutationEdgeLimit then .ok none else do return some (← readSnapshots db edges)

def listBySource (db : Db) (orgId sourceId : UUID) (relationType : String) : List Relationship :=
  (db.edges.outgoing orgId sourceId relationType).map Prod.snd

/-- The stored records of the reverse keys; a key without a record is skipped. -/
def listByTarget (db : Db) (orgId targetId : UUID) (relationType : String) : List Relationship :=
  (db.edges.incoming orgId targetId relationType).filterMap fun k =>
    db.edges.forward.get ⟨orgId, k.far, k.relationType, targetId⟩

/-! ### What a routine that succeeded did -/

/-- The edges after relationships were cleared. -/
def Edges.dropAll (edges : Edges) (keys : List RelKey) : Edges := keys.foldl Edges.drop edges

/-- The edges after relationships were written. -/
def Edges.putAll (edges : Edges) (relationships : List Relationship) : Edges :=
  relationships.foldl Edges.put edges

/-- The deletions that are recorded for relationships with their stored values. -/
def removedChanges (stored : List (Relationship × Option Relationship)) : List Change :=
  stored.flatMap fun p => changeOf (relationshipTarget p.1) (p.2.map .relationship) none

/-- The changes that are recorded for relationships with their stored values. -/
def addedChanges (stored : List (Relationship × Option Relationship)) : List Change :=
  stored.flatMap fun p =>
    changeOf (relationshipTarget p.1) (p.2.map .relationship) (some (.relationship p.1))

/-- The records that a list of relationships is stored as. -/
def marshalAll : List (Relationship × Option Relationship) →
    Option (List (Relationship × Option Relationship))
  | [] => some []
  | (relationship, stored) :: rest => do
    let metadata ← relationship.marshalled
    let rest ← marshalAll rest
    return (metadata, stored) :: rest

variable {s s' : Attempt}

theorem removeEach_ok {stored : List (Relationship × Option Relationship)} {u : Unit} :
    removeEach stored s = .ok u s' ↔
      (∀ p ∈ stored, p.2 = none ∨ (relationshipTarget p.1).valid) ∧
      s' = ⟨{ s.db with edges := s.db.edges.dropAll (stored.map fun p => relationshipKey p.1) },
        s.changes ++ removedChanges stored⟩ := by
  induction stored generalizing s with
  | nil =>
    rw [removeEach, Tx.pure_ok]
    simp [Edges.dropAll, removedChanges, eq_comm]
  | cons p rest ih =>
    obtain ⟨relationship, value⟩ := p
    have hvalue : (value.map Record.relationship = none ∨ (relationshipTarget relationship).valid) ↔
        (value = none ∨ (relationshipTarget relationship).valid) := by
      rw [Option.map_eq_none_iff]
    rw [removeEach]
    constructor
    · intro h
      obtain ⟨hvalid, h⟩ := record_bind.mp (writeDb_bind.mp h)
      obtain ⟨hrest, rfl⟩ := ih.mp h
      refine ⟨fun p hp => ?_, ?_⟩
      · rcases List.mem_cons.mp hp with rfl | hp
        · exact hvalue.mp hvalid
        · exact hrest p hp
      · simp [Edges.dropAll, removedChanges]
    · rintro ⟨hvalid, rfl⟩
      refine writeDb_bind.mpr (record_bind.mpr ⟨hvalue.mpr (hvalid _ List.mem_cons_self), ?_⟩)
      refine ih.mpr ⟨fun p hp => hvalid p (List.mem_cons_of_mem _ hp), ?_⟩
      simp [Edges.dropAll, removedChanges]

/-- **What removing relationships does.** -/
theorem removeRelationships_ok {removed : List Relationship} {u : Unit} :
    removeRelationships removed s = .ok u s' ↔
      (∀ r ∈ removed, s.db.edges.value r = none ∨ (relationshipTarget r).valid) ∧
      s' = ⟨{ s.db with edges := s.db.edges.dropAll (removed.map relationshipKey) },
        s.changes ++ removedChanges (s.db.edges.withValues removed)⟩ := by
  have hkeys : (s.db.edges.withValues removed).map (fun p => relationshipKey p.1) =
      removed.map relationshipKey := by
    simp [Edges.withValues]
  have hread : removeRelationships removed s = removeEach (s.db.edges.withValues removed) s := rfl
  rw [hread, removeEach_ok, hkeys]
  simp [Edges.withValues]

theorem addEach_ok {stored : List (Relationship × Option Relationship)} {u : Unit}
    (h : addEach stored s = .ok u s') : ∃ written, marshalAll stored = some written ∧
      s' = ⟨{ s.db with edges := s.db.edges.putAll (written.map Prod.fst) },
        s.changes ++ addedChanges written⟩ ∧
      ∀ p ∈ written, p.2 = some p.1 ∨ (relationshipTarget p.1).valid := by
  induction stored generalizing s with
  | nil =>
    obtain ⟨-, rfl⟩ := Tx.pure_ok.mp h
    exact ⟨[], rfl, by simp [Edges.putAll, addedChanges], by simp⟩
  | cons p rest ih =>
    obtain ⟨relationship, value⟩ := p
    rw [addEach] at h
    cases hmarshal : relationship.marshalled with
    | none =>
      rw [hmarshal] at h
      exact absurd h Tx.throw_ok
    | some metadata =>
      rw [hmarshal] at h
      obtain ⟨hvalid, h⟩ := record_bind.mp (writeDb_bind.mp h)
      obtain ⟨written, hrest, rfl, hall⟩ := ih h
      have htarget := (Relationship.marshalled_eq_some hmarshal).2
      refine ⟨(metadata, value) :: written, by simp [marshalAll, hmarshal, hrest], ?_, ?_⟩
      · simp [Edges.putAll, addedChanges, htarget]
      · intro p hp
        rcases List.mem_cons.mp hp with rfl | hp
        · rw [htarget]
          refine hvalid.imp_left fun heq => ?_
          obtain ⟨r, hr, hr'⟩ := Option.map_eq_some_iff.mp heq
          rw [hr, Record.relationship.inj hr']
        · exact hall p hp

/-- The written records have the keys of the list and its stored values. -/
theorem marshalAll_eq_some {stored written : List (Relationship × Option Relationship)}
    (h : marshalAll stored = some written) :
    written.map (fun p => (relationshipKey p.1, p.2)) =
      stored.map fun p => (relationshipKey p.1, p.2) := by
  induction stored generalizing written with
  | nil =>
    cases h
    rfl
  | cons p rest ih =>
    obtain ⟨relationship, value⟩ := p
    obtain ⟨metadata, hmarshal, h⟩ := Option.bind_eq_some_iff.mp h
    obtain ⟨tail, htail, h⟩ := Option.bind_eq_some_iff.mp h
    cases h
    simp [ih htail, (Relationship.marshalled_eq_some hmarshal).1]

/-- **What adding relationships does.** -/
theorem addRelationships_ok {added : List Relationship} {u : Unit} (h : addRelationships added s = .ok u s') :
    ∃ written, marshalAll (s.db.edges.withValues added) = some written ∧
      s' = ⟨{ s.db with edges := s.db.edges.putAll (written.map Prod.fst) },
        s.changes ++ addedChanges written⟩ ∧
      ∀ p ∈ written, p.2 = some p.1 ∨ (relationshipTarget p.1).valid :=
  addEach_ok h

/-- `EdgesChanged edges sets edges' changes`: the sets lead from `edges` to `edges'` and record
`changes`. -/
inductive EdgesChanged : Edges → List RelationshipChanges → Edges → List Change → Prop
  | nil (edges : Edges) : EdgesChanged edges [] edges []
  | cons {edges edges' : Edges} {set : RelationshipChanges} {rest : List RelationshipChanges}
      {written : List (Relationship × Option Relationship)} {changes : List Change}
      (removable : ∀ r ∈ set.remove, edges.value r = none ∨ (relationshipTarget r).valid)
      (marshalled : marshalAll ((edges.dropAll (set.remove.map relationshipKey)).withValues set.add) =
        some written)
      (valid : ∀ p ∈ written, p.2 = some p.1 ∨ (relationshipTarget p.1).valid)
      (tail : EdgesChanged ((edges.dropAll (set.remove.map relationshipKey)).putAll
        (written.map Prod.fst)) rest edges' changes) :
      EdgesChanged edges (set :: rest) edges'
        (removedChanges (edges.withValues set.remove) ++ addedChanges written ++ changes)

/-- **What changing relationships does.** -/
theorem applyRelationshipChanges_ok {sets : List RelationshipChanges} {u : Unit}
    (h : applyRelationshipChanges sets s = .ok u s') :
    ∃ edges changes, EdgesChanged s.db.edges sets edges changes ∧
      s' = ⟨{ s.db with edges := edges }, s.changes ++ changes⟩ := by
  induction sets generalizing s with
  | nil =>
    obtain ⟨-, rfl⟩ := Tx.pure_ok.mp h
    exact ⟨_, _, .nil _, by simp⟩
  | cons set rest ih =>
    obtain ⟨_, s₁, hremove, h⟩ := Tx.bind_ok.mp h
    obtain ⟨_, s₂, hadd, h⟩ := Tx.bind_ok.mp h
    obtain ⟨hremovable, rfl⟩ := removeRelationships_ok.mp hremove
    obtain ⟨written, hwritten, rfl, hvalid⟩ := addRelationships_ok hadd
    obtain ⟨edges, changes, hrest, rfl⟩ := ih h
    exact ⟨edges, _, .cons hremovable hwritten hvalid hrest, by simp⟩

/-- The deletions that clearing the relationships from a node records. -/
def clearedChanges (items : List (RelKey × Relationship)) : List Change :=
  items.flatMap fun p =>
    changeOf (.relationship p.1.near p.1.relationType p.1.far) (some (.relationship p.2)) none

theorem clearSourceEach_ok {items : List (RelKey × Relationship)} {u : Unit} :
    clearSourceEach items s = .ok u s' ↔
      (∀ p ∈ items, (Target.relationship p.1.near p.1.relationType p.1.far).valid) ∧
      s' = ⟨{ s.db with edges := { s.db.edges with
          reverse := items.foldl (fun reverse p => reverse.erase p.1.flip) s.db.edges.reverse } },
        s.changes ++ clearedChanges items⟩ := by
  induction items generalizing s with
  | nil =>
    rw [clearSourceEach, Tx.pure_ok]
    simp [clearedChanges, eq_comm]
  | cons p rest ih =>
    obtain ⟨k, stored⟩ := p
    rw [clearSourceEach]
    constructor
    · intro h
      obtain ⟨hvalid, h⟩ := record_bind.mp (writeDb_bind.mp h)
      obtain ⟨hrest, rfl⟩ := ih.mp h
      refine ⟨fun p hp => ?_, by simp [clearedChanges]⟩
      rcases List.mem_cons.mp hp with rfl | hp
      · exact hvalid.resolve_left (by simp)
      · exact hrest p hp
    · rintro ⟨hvalid, rfl⟩
      refine writeDb_bind.mpr (record_bind.mpr ⟨.inr (hvalid _ List.mem_cons_self), ?_⟩)
      refine ih.mpr ⟨fun p hp => hvalid p (List.mem_cons_of_mem _ hp), by simp [clearedChanges]⟩

/-- The edges after the relationships from a node were cleared. -/
def Edges.clearSource (edges : Edges) (orgId nodeId : UUID) : Edges where
  forward := edges.forward.keep fun k => !inNodeRange orgId nodeId "" k
  reverse := (edges.outgoing orgId nodeId "").foldl (fun reverse p => reverse.erase p.1.flip)
    edges.reverse

/-- **What clearing the relationships from a node does.** -/
theorem clearSourceRelationships_ok {orgId nodeId : UUID} {u : Unit} :
    clearSourceRelationships orgId nodeId s = .ok u s' ↔
      (∀ p ∈ s.db.edges.outgoing orgId nodeId "",
        (Target.relationship p.1.near p.1.relationType p.1.far).valid) ∧
      s' = ⟨{ s.db with edges := s.db.edges.clearSource orgId nodeId },
        s.changes ++ clearedChanges (s.db.edges.outgoing orgId nodeId "")⟩ := by
  rw [clearSourceRelationships, getDb_bind, Tx.bind_ok]
  simp [clearSourceEach_ok, and_assoc, writeDb_ok, Edges.clearSource]

/-- The relationships to a node by their keys under their sources. -/
def Edges.incomingEdges (edges : Edges) (orgId nodeId : UUID) : List RelKey :=
  (edges.incoming orgId nodeId "").map RelKey.flip

/-- The edges after the relationships to a node were cleared. -/
def Edges.clearTarget (edges : Edges) (orgId nodeId : UUID) : Edges :=
  let dropped := edges.dropAll (edges.incomingEdges orgId nodeId)
  { dropped with reverse := dropped.reverse.keep fun k => !inNodeRange orgId nodeId "" k }

/-- **What clearing the relationships to a node does.** -/
theorem clearTargetRelationships_ok {orgId nodeId : UUID} {u : Unit} :
    clearTargetRelationships orgId nodeId s = .ok u s' ↔
      (∀ k ∈ s.db.edges.incomingEdges orgId nodeId, s.db.edges.forward.get k = none ∨
        (Target.relationship k.near k.relationType k.far).valid) ∧
      s' = ⟨{ s.db with edges := s.db.edges.clearTarget orgId nodeId },
        s.changes ++ removedChanges (s.db.edges.withValues
          ((s.db.edges.incomingEdges orgId nodeId).map edgeRecord))⟩ := by
  have hmap : (s.db.edges.incoming orgId nodeId "").map (fun k => edgeRecord k.flip) =
      (s.db.edges.incomingEdges orgId nodeId).map edgeRecord := by
    simp [Edges.incomingEdges]
  have hkeys : ((s.db.edges.incomingEdges orgId nodeId).map edgeRecord).map relationshipKey =
      s.db.edges.incomingEdges orgId nodeId := by
    rw [List.map_map]
    exact List.map_id _
  rw [clearTargetRelationships, getDb_bind, Tx.bind_ok]
  simp only [hmap, removeRelationships_ok, and_assoc, writeDb_ok, hkeys, List.forall_mem_map, exists_and_left,
    exists_eq_left, exists_const]
  rfl

end Tack.Nodes

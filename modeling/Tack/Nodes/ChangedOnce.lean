import Tack.Nodes.EdgeSymmetry
import Tack.Nodes.Stored

/-!
# What one transaction changes

A transaction records a change for each record that it writes.  Nearly every call changes a record once in each
way: creates it, updates it or deletes it.  The exceptions are the calls whose caller lists relationships, since a
list may name one relationship twice with different values.

A step of a subtree delete job works on the node at the end of its path: it clears relationships of that node, or
moves a child away from it, or deletes it.  So it changes only what is next to that node when it begins.

## Main definitions

* `Nodes.ChangeKind`, `Nodes.Once` — the ways of a change, and a list that changes a record once in each way.
* `Nodes.ListsOnce` — the lists of a caller give each relationship one value.
* `Nodes.Db.inReach` — a record that a step of a job can change, in the given way.

## Main results

* `Nodes.once_of_edgesChanged` — lists that give each relationship one value change it once in each way.
* `Nodes.once_of_attempt` — so does every transaction of a call whose lists do.
* `Nodes.stepped_of_advanced` — what a step of a job changes was next to the node it worked on.

## References

`internal/adapters/foundationdb/node_delete_step.go`, `node_delete_move.go`, `relationship.go` and `audit_changes.go`.
-/

namespace Tack.Nodes

open Lib

/-! ### Ways of a change -/

/-- How a record changed. -/
inductive ChangeKind
  | create
  | update
  | delete
  deriving DecidableEq

def Change.kind (change : Change) : ChangeKind :=
  match change.before, change.after with
  | none, _ => .create
  | some _, none => .delete
  | some _, some _ => .update

theorem Change.kind_eq_create {c : Change} : c.kind = .create ↔ c.before = none := by
  obtain ⟨target, before, after⟩ := c
  cases before <;> cases after <;> simp [Change.kind]

theorem Change.kind_eq_delete {c : Change} : c.kind = .delete ↔ c.before ≠ none ∧ c.after = none := by
  obtain ⟨target, before, after⟩ := c
  cases before <;> cases after <;> simp [Change.kind]

/-- Two changes of one record in the same way. -/
def Change.SameWay (c c' : Change) : Prop := c.kind = c'.kind ∧ c.target = c'.target

/-- A list changes a record once in each way. -/
def Once (changes : List Change) : Prop := ∀ c ∈ changes, ∀ c' ∈ changes, c.SameWay c' → c = c'

/-- The lists of one call give each relationship one value.  Additions of one relationship are equal, removals of
one are of one organization, and one that two lists remove is added by none. -/
structure ListsOnce (sets : List RelationshipChanges) : Prop where
  adds : ∀ set ∈ sets, ∀ r ∈ set.add, ∀ set' ∈ sets, ∀ r' ∈ set'.add,
    relationshipTarget r = relationshipTarget r' → r = r'
  removes : ∀ set ∈ sets, ∀ r ∈ set.remove, ∀ set' ∈ sets, ∀ r' ∈ set'.remove,
    relationshipTarget r = relationshipTarget r' → relationshipKey r = relationshipKey r'
  again : sets.Pairwise fun set set' => ∀ r ∈ set.remove, ∀ r' ∈ set'.remove,
    relationshipTarget r = relationshipTarget r' →
      ∀ other ∈ sets, ∀ added ∈ other.add, relationshipTarget added ≠ relationshipTarget r

instance (sets : List RelationshipChanges) : Decidable (ListsOnce sets) :=
  decidable_of_iff
    ((∀ set ∈ sets, ∀ r ∈ set.add, ∀ set' ∈ sets, ∀ r' ∈ set'.add,
      relationshipTarget r = relationshipTarget r' → r = r') ∧
    (∀ set ∈ sets, ∀ r ∈ set.remove, ∀ set' ∈ sets, ∀ r' ∈ set'.remove,
      relationshipTarget r = relationshipTarget r' → relationshipKey r = relationshipKey r') ∧
    sets.Pairwise fun set set' => ∀ r ∈ set.remove, ∀ r' ∈ set'.remove,
      relationshipTarget r = relationshipTarget r' →
        ∀ other ∈ sets, ∀ added ∈ other.add, relationshipTarget added ≠ relationshipTarget r)
    ⟨fun h => ⟨h.1, h.2.1, h.2.2⟩, fun h => ⟨h.adds, h.removes, h.again⟩⟩

/-- The relationships that the caller lists, as the call writes them. -/
def Call.relationshipSets : Call → List RelationshipChanges
  | create args => [⟨args.stamped, []⟩]
  | update args => args.relationshipChanges
  | mutate plan => [planRelationshipChanges plan]
  | _ => []

/-- A mutation lists no relation type that the range of the child_of edges covers, except child_of itself, which it
refuses. -/
def Call.plainTypes : Call → Bool
  | mutate plan => (plan.relationships.add ++ plan.relationships.remove).all fun r =>
    r.relationType = relChildOf || !inTypeRange relChildOf r.relationType
  | _ => true

/-- The caller lists each relationship with one value. -/
structure Call.ListsOnce (call : Call) : Prop where
  once : Nodes.ListsOnce call.relationshipSets
  plain : call.plainTypes = true

instance (call : Call) : Decidable call.ListsOnce :=
  decidable_of_iff (Nodes.ListsOnce call.relationshipSets ∧ call.plainTypes = true)
    ⟨fun h => ⟨h.1, h.2⟩, fun h => ⟨h.once, h.plain⟩⟩

section Transaction

variable {env : Env} {db : Db}

variable {changes : List Change} {c : Change} {edges moved edges' : Edges} {keys others : List RelKey} {k : RelKey}
  {job : SubtreeDeleteJob} {topId orgId nodeId : UUID} {now : Time} {current : Node} {t s : Attempt} {u : Unit}
  {r value : Relationship} {added : List Relationship} {written : List (Relationship × Option Relationship)}
  {sets : List RelationshipChanges} {plan : MutationPlan} {checked : CheckedPlan} {changed put : Option Change}

/-- The changes are determined by what they change and how. -/
theorem once_of_fun (f : Target → ChangeKind → Change) (h : ∀ c ∈ changes, c = f c.target c.kind) : Once changes := by
  intro c hc c' hc' hsame
  rw [h c hc, h c' hc', hsame.1, hsame.2]

theorem once_of_length_le (h : changes.length ≤ 1) : Once changes := by
  intro c hc c' hc' _
  cases changes with
  | nil => cases hc
  | cons d rest =>
    rw [List.length_cons] at h
    obtain rfl : rest = [] := List.length_eq_zero_iff.mp (by omega)
    rw [List.mem_singleton.mp hc, List.mem_singleton.mp hc']

theorem mem_changeOf {target : Target} {before after : Option Record}
    (h : c ∈ changeOf target before after) : c = ⟨target, before, after⟩ := by
  rw [changeOf] at h
  split_ifs at h
  · cases h
  · exact List.mem_singleton.mp h

theorem once_append {changes' : List Change} (h : Once changes) (h' : Once changes')
    (hcross : ∀ c ∈ changes, ∀ c' ∈ changes', c.SameWay c' → c = c') : Once (changes ++ changes') := by
  intro c hc c' hc' hsame
  obtain hc | hc := List.mem_append.mp hc <;> obtain hc' | hc' := List.mem_append.mp hc'
  · exact h c hc c' hc' hsame
  · exact hcross c hc c' hc' hsame
  · exact (hcross c' hc' c hc ⟨hsame.1.symm, hsame.2.symm⟩).symm
  · exact h' c hc c' hc' hsame

/-- A deletion that is recorded for a relationship has its stored value. -/
theorem mem_removedChanges_withValues {removed : List Relationship}
    (h : c ∈ removedChanges (edges.withValues removed)) : ∃ r ∈ removed, ∃ stored, edges.value r = some stored ∧
      c = ⟨relationshipTarget r, some (.relationship stored), none⟩ := by
  obtain ⟨p, hp, hc⟩ := List.mem_flatMap.mp h
  obtain ⟨r, hr, rfl⟩ := List.mem_map.mp hp
  cases hget : edges.value r with
  | none =>
    rw [hget] at hc
    cases hc
  | some stored =>
    rw [hget] at hc
    exact ⟨r, hr, stored, hget, mem_changeOf hc⟩

theorem mem_removedChanges (h : c ∈ removedChanges (edges.withValues (keys.map edgeRecord))) :
    ∃ k ∈ keys, ∃ stored, edges.forward.get k = some stored ∧
      c = ⟨.relationship k.near k.relationType k.far, some (.relationship stored), none⟩ := by
  obtain ⟨r, hr, stored, hget, hc⟩ := mem_removedChanges_withValues h
  obtain ⟨k, hk, rfl⟩ := List.mem_map.mp hr
  exact ⟨k, hk, stored, hget, hc⟩

/-! ### What a step of a job can change -/

/-- The node that a record belongs to: the node itself, or the source of a relationship. -/
def Target.subject : Target → UUID
  | node _ id => id
  | relationship sourceId _ _ => sourceId

/-- The record is that of the node or of a relationship of it. -/
def Target.names (nodeId : UUID) : Target → Bool
  | node _ id => id = nodeId
  | relationship sourceId _ targetId => sourceId = nodeId || targetId = nodeId

/-- The organization stores the record. -/
def Db.holds (db : Db) (orgId : UUID) : Target → Bool
  | .node nodeType id => (db.nodes.get ⟨orgId, nodeType, id⟩).isSome
  | .relationship sourceId relationType targetId =>
    (db.edges.forward.get ⟨orgId, sourceId, relationType, targetId⟩).isSome

/-- The node has a child_of edge to the parent. -/
def Db.isUnder (db : Db) (orgId parentId nodeId : UUID) : Bool :=
  (db.edges.reverse.get ⟨orgId, parentId, relChildOf, nodeId⟩).isSome

/-- What a step that works on a node can change.  A record that it deletes is stored and belongs to the node or to a
child that it moves; a record that it creates or updates belongs to a child that it moves. -/
def Db.inReach (db : Db) (orgId nodeId : UUID) (kind : ChangeKind) (target : Target) : Bool :=
  match kind with
  | .delete => db.holds orgId target && (target.names nodeId || db.isUnder orgId nodeId target.subject)
  | .create | .update => db.isUnder orgId nodeId target.subject

theorem inReach_of_edge {stored : Relationship} (hget : db.edges.forward.get k = some stored)
    (hnear : k.near = nodeId ∨ k.far = nodeId ∨ db.isUnder k.org nodeId k.near = true) :
    db.inReach k.org nodeId .delete (.relationship k.near k.relationType k.far) = true := by
  have hholds : db.holds k.org (.relationship k.near k.relationType k.far) = true := by
    rw [Db.holds, hget]
    rfl
  rw [Db.inReach, hholds, Target.names, Target.subject, Bool.true_and, Bool.or_eq_true, Bool.or_eq_true,
    decide_eq_true_eq, decide_eq_true_eq, or_assoc]
  exact hnear

/-- A change that a step working on a node can record: the one of a node, the one of an edge that it adds, or the
deletion of an edge that is stored. -/
inductive Stepped (db : Db) (orgId topId : UUID) (changed put : Option Change) (c : Change) : Prop
  | node {nodeType : String} {id : UUID} (is : changed = some c) (target : c.target = .node nodeType id)
      (reach : db.inReach orgId topId c.kind c.target = true)
  | added {r : Relationship} (is : put = some c) (target : c.target = relationshipTarget r) (after : c.after ≠ none)
      (reach : db.inReach orgId topId c.kind c.target = true)
  | cleared {k : RelKey} {stored : Relationship} (get : db.edges.forward.get k = some stored) (org : k.org = orgId)
      (near : k.near = topId ∨ k.far = topId ∨ db.isUnder orgId topId k.near = true)
      (is : c = ⟨.relationship k.near k.relationType k.far, some (.relationship stored), none⟩)

theorem Stepped.inReach (h : Stepped db orgId topId changed put c) :
    db.inReach orgId topId c.kind c.target = true := by
  cases h with
  | node is target reach => exact reach
  | added is target after reach => exact reach
  | cleared get org near is =>
    subst is org
    exact inReach_of_edge get near

theorem once_of_stepped (h : ∀ c ∈ changes, Stepped db orgId topId changed put c) : Once changes := by
  refine once_of_fun (fun target kind => match target, kind with
    | .node nodeType id, _ => changed.getD ⟨.node nodeType id, none, none⟩
    | .relationship sourceId relationType targetId, .delete => ⟨.relationship sourceId relationType targetId,
      (db.edges.forward.get ⟨orgId, sourceId, relationType, targetId⟩).map .relationship, none⟩
    | target, _ => put.getD ⟨target, none, none⟩) fun c hc => ?_
  cases h c hc with
  | node is target reach => simp [target, is]
  | added is target after reach =>
    obtain ⟨target', before, after'⟩ := c
    obtain rfl : target' = _ := target
    cases after' with
    | none => exact absurd rfl after
    | some value => cases before <;> simp [relationshipTarget, Change.kind, is]
  | cleared get org near is =>
    subst is org
    simp [Change.kind, get]

/-- Edges at one node are cleared. -/
theorem stepped_of_removed (hkeys : ∀ k ∈ keys, k.org = orgId ∧ (k.near = topId ∨ k.far = topId))
    (hc : c ∈ removedChanges (db.edges.withValues (keys.map edgeRecord))) : Stepped db orgId topId none none c := by
  obtain ⟨k, hk, stored, hget, rfl⟩ := mem_removedChanges hc
  obtain ⟨horg, hends⟩ := hkeys k hk
  exact .cleared hget horg (hends.imp_right .inl) rfl

/-- A node is cleared. -/
theorem stepped_of_cleared (hc : c ∈ db.clearedNodeChanges current) : Stepped db current.orgId current.id
    (some ⟨nodeTarget current, (db.nodes.get (nodeInstanceKey current)).map .node, none⟩) none c := by
  rw [Db.clearedNodeChanges, List.mem_append, List.mem_append] at hc
  obtain (hnode | hout) | hin := hc
  · cases hget : db.nodes.get (nodeInstanceKey current) with
    | none =>
      rw [hget] at hnode
      cases hnode
    | some stored =>
      rw [hget] at hnode
      rw [mem_changeOf hnode]
      have hholds : db.holds current.orgId (.node current.nodeType current.id) = true := congrArg Option.isSome hget
      exact .node rfl rfl (by simp [Db.inReach, Change.kind, hholds, Target.names, nodeTarget])
  · obtain ⟨⟨k, stored⟩, hk, hc⟩ := List.mem_flatMap.mp hout
    obtain ⟨hget, hrange⟩ := Edges.mem_outgoing.mp hk
    obtain ⟨horg, hnear, -⟩ := inNodeRange_iff.mp hrange
    exact .cleared hget horg (.inl hnear) (mem_changeOf hc)
  · obtain ⟨k, hk, stored, hget, rfl⟩ := mem_removedChanges hin
    obtain ⟨horg, hfar, -⟩ := inNodeRange_iff.mp (Edges.mem_incomingEdges.mp hk).2
    rw [Edges.get_forward_clearSource] at hget
    split_ifs at hget
    exact .cleared hget horg (.inr (.inl hfar)) rfl

/-- The edges that a search passed are no hierarchy children, and the one it found is. -/
theorem firstChild_ok {pairs : List (RelKey × HierarchyNode)} {found : Option HierarchyNode}
    (h : firstChild db job topId pairs = .ok (found, others)) :
    (∀ k ∈ others, ∃ source, (k, source) ∈ pairs ∧ isHierarchyChild db job topId k source = .ok false) ∧
      ∀ child, found = some child →
        ∃ edge, (edge, child) ∈ pairs ∧ isHierarchyChild db job topId edge child = .ok true := by
  induction pairs generalizing found others with
  | nil =>
    cases h
    exact ⟨by simp, by simp⟩
  | cons p rest ih =>
    obtain ⟨edge, source⟩ := p
    obtain ⟨isChild, hchild, h⟩ := except_bind_ok.mp h
    cases isChild with
    | true =>
      cases h
      refine ⟨by simp, fun child heq => ?_⟩
      cases heq
      exact ⟨edge, List.mem_cons_self, hchild⟩
    | false =>
      obtain ⟨⟨found', others'⟩, hrest, h⟩ := except_bind_ok.mp h
      cases h
      obtain ⟨hothers, hfound⟩ := ih hrest
      refine ⟨fun k hk => ?_, fun child heq => ?_⟩
      · obtain rfl | hk := List.mem_cons.mp hk
        · exact ⟨source, List.mem_cons_self, hchild⟩
        · obtain ⟨source', hmem, hnot⟩ := hothers k hk
          exact ⟨source', List.mem_cons_of_mem _ hmem, hnot⟩
      · obtain ⟨edge', hmem, his⟩ := hfound child heq
        exact ⟨edge', List.mem_cons_of_mem _ hmem, his⟩

/-- The sources of edges are read by the near ends of the edges. -/
theorem readHierarchyNode_of_mem_zip {edges : List RelKey} {sources : List HierarchyNode}
    (h : readHierarchyNodes db orgId (edges.map RelKey.near) = .ok sources)
    {source : HierarchyNode} (hmem : (k, source) ∈ edges.zip sources) :
    k ∈ edges ∧ readHierarchyNode db orgId k.near = .ok source := by
  induction edges generalizing sources with
  | nil => cases hmem
  | cons edge rest ih =>
    obtain ⟨read, hread, h⟩ := except_bind_ok.mp h
    obtain ⟨nodes, hnodes, h⟩ := except_bind_ok.mp h
    cases h
    rw [List.zip_cons_cons, List.mem_cons] at hmem
    obtain heq | hmem := hmem
    · cases heq
      exact ⟨List.mem_cons_self, hread⟩
    · obtain ⟨hk, hsource⟩ := ih hnodes hmem
      exact ⟨List.mem_cons_of_mem _ hk, hsource⟩

/-- **The edges that a step passes**: they are edges of the node, and none of them is a child_of edge
from the child that the step takes, which has such an edge. -/
theorem findHierarchyChild_ok {edges : List RelKey}
    {found : Option HierarchyNode} (h : findHierarchyChild db job topId edges = .ok (found, others)) :
    (∀ k ∈ others, k ∈ edges) ∧ (∀ child, found = some child → ∀ k ∈ others,
      ¬(k.near = child.id ∧ k.relationType = relChildOf)) ∧
      ∀ child, found = some child → ∃ k ∈ edges, k.near = child.id ∧ k.relationType = relChildOf := by
  obtain ⟨sources, hsources, h⟩ := except_bind_ok.mp h
  obtain ⟨hothers, hfound⟩ := firstChild_ok h
  refine ⟨fun k hk => ?_, fun child hchild k hk hnear => ?_, fun child hchild => ?_⟩
  · obtain ⟨source, hmem, -⟩ := hothers k hk
    exact (readHierarchyNode_of_mem_zip hsources hmem).1
  · obtain ⟨source, hmem, hnot⟩ := hothers k hk
    obtain ⟨edge, hedge, his⟩ := hfound child hchild
    have hsource := (readHierarchyNode_of_mem_zip hsources hmem).2
    have hread := (readHierarchyNode_of_mem_zip hsources hedge).2
    rw [hnear.1, readHierarchyNode_id hread, hread] at hsource
    obtain rfl := Except.ok.inj hsource
    rw [isHierarchyChild] at his hnot
    split_ifs at his with hcond
    · rw [if_pos ⟨hnear.2, hcond.2⟩, his] at hnot
      cases hnot
    · cases his
  · obtain ⟨edge, hedge, his⟩ := hfound child hchild
    obtain ⟨hmem, hread⟩ := readHierarchyNode_of_mem_zip hsources hedge
    rw [isHierarchyChild] at his
    split_ifs at his with hcond
    · exact ⟨edge, hmem, (readHierarchyNode_id hread).symm, hcond.1⟩
    · cases his

/-- The edges that a step reads are at its node. -/
theorem ends_of_mem_readDeleteEdges {relationType : String} {incoming : Bool}
    (h : k ∈ readDeleteEdges db orgId nodeId relationType incoming) :
    k.org = orgId ∧ if incoming then k.far = nodeId ∧ db.edges.reverse.get k.flip ≠ none else k.near = nodeId := by
  rw [readDeleteEdges] at h
  split_ifs at h with hincoming
  · obtain ⟨k', hk', rfl⟩ := List.mem_map.mp h
    obtain ⟨hget, hrange⟩ := Edges.mem_incoming.mp (List.mem_of_mem_take hk')
    obtain ⟨horg, hnear, -⟩ := inNodeRange_iff.mp hrange
    rw [if_pos hincoming]
    exact ⟨horg, hnear, hget⟩
  · obtain ⟨⟨k', stored⟩, hk', rfl⟩ := List.mem_map.mp (List.mem_of_mem_take h)
    obtain ⟨horg, hnear, -⟩ := inNodeRange_iff.mp (Edges.mem_outgoing.mp hk').2
    rw [if_neg hincoming]
    exact ⟨horg, hnear⟩

/-- What a move does to the edges. -/
theorem edgesChanged_move {childId : UUID} {edges : List RelKey} {before : Edges}
    (h : EdgesChanged before [parentEdgeChanges job childId edges now] moved changes) :
    ∃ added stored, relationshipKey added = ⟨job.orgId, childId, relChildOf, job.rootParentId⟩ ∧
      moved = (before.dropAll edges).putAll [added] ∧
      changes = removedChanges (before.withValues (edges.map edgeRecord)) ++
        changeOf (relationshipTarget added) stored (some (.relationship added)) := by
  have hkeys : (parentEdgeChanges job childId edges now).remove.map relationshipKey = edges := by
    rw [parentEdgeChanges, List.map_map]
    exact List.map_id _
  cases h with
  | cons removable marshalled valid tail =>
    cases tail
    rw [hkeys] at marshalled
    simp only [parentEdgeChanges, Edges.withValues, List.map_cons, List.map_nil, marshalAll] at marshalled
    obtain ⟨added, hadded, h⟩ := Option.bind_eq_some_iff.mp marshalled
    obtain ⟨rest, hrest, h⟩ := Option.bind_eq_some_iff.mp h
    cases hrest
    cases h
    refine ⟨added, ?stored, (Relationship.marshalled_eq_some hadded).1, by rw [hkeys]; rfl, ?changes⟩
    case changes =>
      rw [addedChanges, List.flatMap_singleton, List.append_nil]
      rfl

/-- A step that deletes a node deletes the one that it works on. -/
theorem topNode_key (hdb : WellStored db) {top : HierarchyNode} (h : readHierarchyNode db job.orgId topId = .ok top) :
    (topNode db job top).orgId = job.orgId ∧ (topNode db job top).id = topId := by
  rw [topNode]
  cases hget : db.nodes.get ⟨job.orgId, top.typeKey, top.id⟩ with
  | none => exact ⟨rfl, readHierarchyNode_id h⟩
  | some current =>
    obtain ⟨horg, -, hid⟩ := NodeKey.mk.inj (hdb.keyed hget)
    exact ⟨horg, hid.trans (readHierarchyNode_id h)⟩

/-- What a move records: the child, its child_of edges, the new one, and the edges that the step passed.  Those are not
among the edges of the move, so that they are deleted with the values that the database stores. -/
theorem stepped_of_move (hdb : WellStored db) {child : HierarchyNode} {edges : List RelKey} {stored : Node}
    {edgeChanges : List Change} (hdecision : decideStep db job topId = .ok (.take child others))
    (hread : readMove db job child = .ok (some (current, edges)))
    (hspec : MoveSpec env job child.id current edges now ⟨db, []⟩ t stored moved edgeChanges) :
    ∃ changed put, ∀ c ∈ (t.clearEdges others).changes, Stepped db job.orgId topId changed put c := by
  obtain ⟨added, before, hkey, hmoved, hchanges⟩ := edgesChanged_move hspec.edgesChanged
  obtain ⟨-, hcurrent, hedges, -⟩ := readMove_some hread
  obtain ⟨-, -, hid⟩ := NodeKey.mk.inj (hdb.keyed hcurrent)
  cases decided_of_ok hdecision with
  | take read found first =>
    obtain ⟨hsubset, hothers, hchild⟩ := findHierarchyChild_ok first
    have hunder : db.isUnder job.orgId topId child.id = true := by
      obtain ⟨k, hk, hnear, htype⟩ := hchild child rfl
      obtain ⟨horg, hfar, hget⟩ := ends_of_mem_readDeleteEdges (List.mem_of_mem_take hk)
      obtain ⟨korg, knear, ktype, kfar⟩ := k
      obtain rfl : korg = job.orgId := horg
      obtain rfl : knear = child.id := hnear
      obtain rfl : ktype = relChildOf := htype
      obtain rfl : kfar = topId := hfar
      exact Option.isSome_iff_ne_none.mpr hget
    refine ⟨some ⟨nodeTarget current, some (.node current), some (.node stored)⟩,
      some ⟨relationshipTarget added, before, some (.relationship added)⟩, fun c hc => ?_⟩
    rw [Attempt.clearEdges, hspec.changes, hchanges, List.mem_append, List.mem_append, List.nil_append,
      List.mem_append] at hc
    obtain (hnode | hremoved | hadded) | hpassed := hc
    · rw [mem_changeOf hnode]
      exact .node rfl rfl ((congrArg (db.isUnder job.orgId topId) hid).trans hunder)
    · obtain ⟨k, hk, value, hget, rfl⟩ := mem_removedChanges hremoved
      obtain ⟨horg, hnear⟩ := ends_of_mem_readDeleteEdges (hedges ▸ hk)
      exact .cleared hget horg (.inr (.inr (hnear ▸ hunder))) rfl
    · rw [mem_changeOf hadded]
      have hsource : (relationshipTarget added).subject = child.id := congrArg RelKey.near hkey
      refine .added rfl rfl (by simp) ?_
      cases before <;> exact (congrArg (db.isUnder job.orgId topId) hsource).trans hunder
    · obtain ⟨k, hk, value, hget, rfl⟩ := mem_removedChanges hpassed
      obtain ⟨horg, hfar, -⟩ := ends_of_mem_readDeleteEdges (List.mem_of_mem_take (hsubset k hk))
      have hne : k ∉ [added].map relationshipKey := by
        rw [List.map_singleton, hkey, List.mem_singleton]
        rintro rfl
        exact hothers child rfl _ hk ⟨rfl, rfl⟩
      rw [hspec.db] at hget
      simp only [hmoved] at hget
      rw [Edges.get_forward_putAll_of_notMem hne] at hget
      by_cases hmem : k ∈ edges
      · rw [Edges.get_forward_dropAll_of_mem hmem] at hget
        cases hget
      · rw [Edges.get_forward_dropAll_of_notMem hmem] at hget
        exact .cleared hget horg (.inr (.inl hfar)) rfl

/-- **What a step of a job changes** is next to the node that it works on. -/
theorem stepped_of_advanced (hdb : WellStored db) {job' : SubtreeDeleteJob}
    (h : Advanced env job now ⟨db, []⟩ t job') : t.changes = [] ∨ ∃ topId, job.stack.head? = some topId ∧
      ∃ changed put, ∀ c ∈ t.changes, Stepped db job.orgId topId changed put c := by
  have hincoming : ∀ {topId found others}, findHierarchyChild db job topId
      ((readDeleteEdges db job.orgId topId "" true).take maxDeleteEdgePage) = .ok (found, others) →
      ∀ k ∈ others, k.org = job.orgId ∧ k.far = topId := fun first k hk => by
    obtain ⟨horg, hfar, -⟩ := ends_of_mem_readDeleteEdges (List.mem_of_mem_take ((findHierarchyChild_ok first).1 k hk))
    exact ⟨horg, hfar⟩
  cases h with
  | idle => exact .inl rfl
  | pop => exact .inl rfl
  | @push topId below child others stack decision =>
    cases decided_of_ok decision with
    | take read found first =>
      exact .inr ⟨topId, by rw [stack]; rfl, none, none, fun c hc => stepped_of_removed
        (fun k hk => (hincoming first k hk).imp_right .inr) hc⟩
  | @move topId child others current edges t stored moved edgeChanges stack decision read spec =>
    exact .inr ⟨topId, by rw [stack]; rfl, stepped_of_move hdb decision read spec⟩
  | @page topId below edges stack decision =>
    generalize hpage : Decision.page edges = found at decision
    cases decided_of_ok decision with
    | page read found first =>
      cases hpage
      refine .inr ⟨topId, by rw [stack]; rfl, none, none, fun c hc => stepped_of_removed (fun k hk => ?_) hc⟩
      obtain hk | hk := List.mem_append.mp hk
      · exact (hincoming first k hk).imp_right .inr
      · exact (ends_of_mem_readDeleteEdges (List.mem_of_mem_take hk)).imp_right .inl
    | _ => cases hpage
  | @delete topId below current stack decision =>
    generalize hdelete : Decision.delete current = found at decision
    cases decided_of_ok decision with
    | delete read =>
      cases hdelete
      obtain ⟨horg, hid⟩ := topNode_key hdb read
      refine .inr ⟨topId, by rw [stack]; rfl, ?changed, none, fun c hc => ?stepped⟩
      case stepped =>
        have hcleared := stepped_of_cleared hc
        rw [horg, hid] at hcleared
        exact hcleared
    | _ => cases hdelete

/-! ### Listed relationships -/

theorem relationshipTarget_of_key {r' : Relationship} (h : relationshipKey r = relationshipKey r') :
    relationshipTarget r = relationshipTarget r' := by
  obtain ⟨-, hsource, htype, htarget⟩ := RelKey.mk.inj h
  rw [relationshipTarget, relationshipTarget, hsource, htype, htarget]

/-- What is written for an added relationship, with its stored value. -/
theorem exists_of_mem_written (h : marshalAll (edges.withValues added) = some written)
    {p : Relationship × Option Relationship} (hp : p ∈ written) :
    ∃ r ∈ added, r.marshalled = some p.1 ∧ p.2 = edges.value r := by
  induction added generalizing written with
  | nil =>
    cases h
    cases hp
  | cons r rest ih =>
    obtain ⟨value, hmarshal, h⟩ := Option.bind_eq_some_iff.mp h
    obtain ⟨tail, htail, h⟩ := Option.bind_eq_some_iff.mp h
    cases h
    obtain rfl | hp := List.mem_cons.mp hp
    · exact ⟨r, List.mem_cons_self, hmarshal, rfl⟩
    · obtain ⟨r', hr', hmarshal⟩ := ih htail hp
      exact ⟨r', List.mem_cons_of_mem r hr', hmarshal⟩

/-- A key that is written is the key of an added relationship. -/
theorem exists_of_mem_written_keys (h : marshalAll (edges.withValues added) = some written) (hr : relationshipKey r ∈ (written.map Prod.fst).map relationshipKey) :
    ∃ r' ∈ added, relationshipTarget r' = relationshipTarget r := by
  rw [List.map_map] at hr
  obtain ⟨p, hp, hkey⟩ := List.mem_map.mp hr
  obtain ⟨r', hr', hmarshal, -⟩ := exists_of_mem_written h hp
  exact ⟨r', hr', (Relationship.marshalled_eq_some hmarshal).2.symm.trans (relationshipTarget_of_key hkey)⟩

theorem mem_written_keys (h : marshalAll (edges.withValues added) = some written) (hr : r ∈ added) : relationshipKey r ∈ (written.map Prod.fst).map relationshipKey := by
  have hkeys := congrArg (List.map Prod.fst) (marshalAll_eq_some h)
  simp only [List.map_map, Function.comp_def, Edges.withValues] at hkeys
  rw [List.map_map]
  exact hkeys ▸ List.mem_map_of_mem hr

/-- What is recorded for an added relationship: its stored value and the one that is written. -/
theorem mem_addedChanges (hwritten : marshalAll (edges.withValues added) = some written) (h : c ∈ addedChanges written) : ∃ r ∈ added, ∃ value, r.marshalled = some value ∧
      edges.value r ≠ some value ∧
      c = ⟨relationshipTarget r, (edges.value r).map .relationship, some (.relationship value)⟩ := by
  obtain ⟨p, hp, hc⟩ := List.mem_flatMap.mp h
  obtain ⟨r, hr, hmarshal, hvalue⟩ := exists_of_mem_written hwritten hp
  refine ⟨r, hr, p.1, hmarshal, fun hsame => ?_, ?_⟩
  · simp [hvalue, hsame, changeOf] at hc
  · rw [mem_changeOf hc, (Relationship.marshalled_eq_some hmarshal).2, hvalue]

/-- A relationship that the lists add with one value is stored with it. -/
theorem get_forward_putAll {written : List Relationship}
    (hwritten : ∀ r ∈ written, relationshipKey r = k → r = value) : (edges.putAll written).forward.get k =
      if k ∈ written.map relationshipKey then some value else edges.forward.get k := by
  induction written generalizing edges with
  | nil => rfl
  | cons r written ih =>
    refine (ih fun r' hr' => hwritten r' (List.mem_cons_of_mem r hr')).trans ?_
    by_cases hr : relationshipKey r = k
    · obtain rfl := hwritten r List.mem_cons_self hr
      simp [Edges.put, hr]
    · simp [Edges.put, Ne.symm hr, Table.get_set_ne _ _ hr]

/-- A list that adds a relationship with one value stores it so. -/
theorem value_putAll (h : marshalAll (edges.withValues added) = some written) (hmarshal : r.marshalled = some value)
    (hadded : ∀ r' ∈ added, relationshipTarget r' = relationshipTarget r → r' = r) :
    (edges.putAll (written.map Prod.fst)).value r =
      if relationshipKey r ∈ (written.map Prod.fst).map relationshipKey then some value else edges.value r := by
  refine get_forward_putAll fun w hw hkey => ?_
  obtain ⟨p, hp, rfl⟩ := List.mem_map.mp hw
  obtain ⟨r', hr', hvalue, -⟩ := exists_of_mem_written h hp
  obtain rfl := hadded r' hr' ((Relationship.marshalled_eq_some hvalue).2.symm.trans (relationshipTarget_of_key hkey))
  exact Option.some.inj (hvalue.symm.trans hmarshal)

/-- Every change of the lists is a deletion or sets the value of an addition. -/
theorem removed_or_added (h : EdgesChanged edges sets edges' changes) (hc : c ∈ changes) :
    (∃ set ∈ sets, ∃ r ∈ set.remove, c.target = relationshipTarget r ∧ c.before ≠ none ∧ c.after = none) ∨
      ∃ set ∈ sets, ∃ r ∈ set.add, ∃ value, r.marshalled = some value ∧ c.target = relationshipTarget r ∧
        c.after = some (.relationship value) := by
  induction h with
  | nil => cases hc
  | @cons edges edges' set rest written changes removable marshalled valid tail ih =>
    obtain hc | hc := List.mem_append.mp hc
    · obtain hc | hc := List.mem_append.mp hc
      · obtain ⟨r, hr, stored, -, rfl⟩ := mem_removedChanges_withValues hc
        exact .inl ⟨set, List.mem_cons_self, r, hr, rfl, by simp, rfl⟩
      · obtain ⟨r, hr, value, hvalue, -, rfl⟩ := mem_addedChanges marshalled hc
        exact .inr ⟨set, List.mem_cons_self, r, hr, value, hvalue, rfl, rfl⟩
    · obtain ⟨set', hset', h⟩ | ⟨set', hset', h⟩ := ih hc
      · exact .inl ⟨set', List.mem_cons_of_mem set hset', h⟩
      · exact .inr ⟨set', List.mem_cons_of_mem set hset', h⟩

/-- A deleted relationship was stored before the lists, or one of them adds it. -/
theorem stored_of_removed (h : EdgesChanged edges sets edges' changes) (hc : c ∈ changes) (hafter : c.after = none) :
    ∃ set ∈ sets, ∃ r ∈ set.remove, c.target = relationshipTarget r ∧ (edges.value r ≠ none ∨
      ∃ set' ∈ sets, ∃ added ∈ set'.add, relationshipTarget added = relationshipTarget r) := by
  induction h with
  | nil => cases hc
  | @cons edges edges' set rest written changes removable marshalled valid tail ih =>
    obtain hc | hc := List.mem_append.mp hc
    · obtain hc | hc := List.mem_append.mp hc
      · obtain ⟨r, hr, stored, hstored, rfl⟩ := mem_removedChanges_withValues hc
        exact ⟨set, List.mem_cons_self, r, hr, rfl, .inl (by simp [hstored])⟩
      · obtain ⟨r, hr, value, -, -, rfl⟩ := mem_addedChanges marshalled hc
        cases hafter
    · obtain ⟨set', hset', r, hr, htarget, hstored⟩ := ih hc
      refine ⟨set', List.mem_cons_of_mem set hset', r, hr, htarget, ?_⟩
      obtain hstored | ⟨other, hother, h⟩ := hstored
      · by_cases hadded : relationshipKey r ∈ (written.map Prod.fst).map relationshipKey
        · -- stored by the first list
          exact .inr ⟨set, List.mem_cons_self, exists_of_mem_written_keys marshalled hadded⟩
        · rw [Edges.value, Edges.get_forward_putAll_of_notMem hadded] at hstored
          by_cases hdropped : relationshipKey r ∈ set.remove.map relationshipKey
          · exact absurd (Edges.get_forward_dropAll_of_mem hdropped) hstored
          · rw [Edges.get_forward_dropAll_of_notMem hdropped] at hstored
            exact .inl hstored
      · exact .inr ⟨other, List.mem_cons_of_mem set hother, h⟩

/-- A relationship with the value that the lists give it is not updated. -/
theorem not_updated (h : EdgesChanged edges sets edges' changes) (hmarshal : r.marshalled = some value)
    (hadds : ∀ set ∈ sets, ∀ r' ∈ set.add, relationshipTarget r' = relationshipTarget r → r' = r)
    (hstored : edges.value r = none ∨ edges.value r = some value) (hc : c ∈ changes)
    (htarget : c.target = relationshipTarget r) (hafter : c.after ≠ none) : c.before = none := by
  induction h with
  | nil => cases hc
  | @cons edges edges' set rest written changes removable marshalled valid tail ih =>
    have hdropped : (edges.dropAll (set.remove.map relationshipKey)).value r = none ∨
        (edges.dropAll (set.remove.map relationshipKey)).value r = some value := by
      by_cases hmem : relationshipKey r ∈ set.remove.map relationshipKey
      · exact .inl (Edges.get_forward_dropAll_of_mem hmem)
      · rw [Edges.value, Edges.get_forward_dropAll_of_notMem hmem]
        exact hstored
    obtain hc | hc := List.mem_append.mp hc
    · obtain hc | hc := List.mem_append.mp hc
      · obtain ⟨r', hr', stored, -, rfl⟩ := mem_removedChanges_withValues hc
        exact absurd rfl hafter
      · obtain ⟨r', hr', value', hvalue', hne, rfl⟩ := mem_addedChanges marshalled hc
        obtain rfl := hadds set List.mem_cons_self r' hr' htarget
        obtain rfl := Option.some.inj (hvalue'.symm.trans hmarshal)
        obtain hnone | hsome := hdropped
        · rw [hnone]
          rfl
        · exact absurd hsome hne
    · refine ih (fun set' hset' => hadds set' (List.mem_cons_of_mem set hset')) ?_ hc
      rw [value_putAll marshalled hmarshal (hadds set List.mem_cons_self)]
      split_ifs
      · exact .inr rfl
      · exact hdropped

theorem ListsOnce.tail {set : RelationshipChanges} {rest : List RelationshipChanges} (h : ListsOnce (set :: rest)) :
    ListsOnce rest where
  adds set' hset' r hr other hother :=
    h.adds set' (List.mem_cons_of_mem set hset') r hr other (List.mem_cons_of_mem set hother)
  removes set' hset' r hr other hother :=
    h.removes set' (List.mem_cons_of_mem set hset') r hr other (List.mem_cons_of_mem set hother)
  again := (List.pairwise_cons.mp h.again).2.imp fun hagain r hr r' hr' htarget other hother =>
    hagain r hr r' hr' htarget other (List.mem_cons_of_mem set hother)

/-- **Lists that give each relationship one value change it once in each way.** -/
theorem once_of_edgesChanged
    (h : EdgesChanged edges sets edges' changes) (hlists : ListsOnce sets) : Once changes := by
  induction h with
  | nil => exact once_of_length_le (by simp)
  | @cons edges edges' set rest written changes removable marshalled valid tail ih =>
    refine once_append (once_append (fun c hc c' hc' hsame => ?_) (fun c hc c' hc' hsame => ?_)
      fun c hc c' hc' hsame => ?_) (ih hlists.tail) fun c hc c' hc' hsame => ?_
    · -- two deletions of one relationship read one value
      obtain ⟨r, hr, stored, hstored, rfl⟩ := mem_removedChanges_withValues hc
      obtain ⟨r', hr', stored', hstored', rfl⟩ := mem_removedChanges_withValues hc'
      have htarget : relationshipTarget r = relationshipTarget r' := hsame.2
      have hkey := hlists.removes set List.mem_cons_self r hr set List.mem_cons_self r' hr' htarget
      rw [Edges.value, hkey] at hstored
      rw [htarget, Option.some.inj (hstored.symm.trans hstored')]
    · obtain ⟨r, hr, value, hvalue, -, rfl⟩ := mem_addedChanges marshalled hc
      obtain ⟨r', hr', value', hvalue', -, rfl⟩ := mem_addedChanges marshalled hc'
      obtain rfl := hlists.adds set List.mem_cons_self r hr set List.mem_cons_self r' hr' hsame.2
      rw [Option.some.inj (hvalue.symm.trans hvalue')]
    · obtain ⟨r, hr, stored, -, rfl⟩ := mem_removedChanges_withValues hc
      obtain ⟨r', hr', value, -, -, rfl⟩ := mem_addedChanges marshalled hc'
      have hkind := hsame.1
      cases hbefore : (edges.dropAll (set.remove.map relationshipKey)).value r' <;>
        simp [Change.kind, hbefore] at hkind
    · obtain hc | hc := List.mem_append.mp hc
      · -- a relationship that was deleted is not stored for a later list
        obtain ⟨r, hr, stored, hstored, rfl⟩ := mem_removedChanges_withValues hc
        obtain ⟨set', hset', r', hr', htarget, hagain⟩ := stored_of_removed tail hc' 
          (Change.kind_eq_delete.mp hsame.1.symm).2
        have htargets : relationshipTarget r = relationshipTarget r' := hsame.2.trans htarget
        have hnone := (List.pairwise_cons.mp hlists.again).1 set' hset' r hr r' hr' htargets
        have hkey := hlists.removes set List.mem_cons_self r hr set' (List.mem_cons_of_mem set hset') r' hr' htargets
        obtain hagain | ⟨other, hother, added, hadded, heq⟩ := hagain
        · have hnotAdded : relationshipKey r ∉ (written.map Prod.fst).map relationshipKey := by
            intro hmem
            obtain ⟨added, hadded, heq⟩ := exists_of_mem_written_keys marshalled hmem
            exact hnone set List.mem_cons_self added hadded heq
          rw [Edges.value, ← hkey, Edges.get_forward_putAll_of_notMem hnotAdded] at hagain
          exact absurd (Edges.get_forward_dropAll_of_mem (List.mem_map_of_mem hr)) hagain
        · exact absurd (heq.trans htargets.symm) (hnone other (List.mem_cons_of_mem set hother) added hadded)
      · obtain ⟨r, hr, value, hvalue, hne, rfl⟩ := mem_addedChanges marshalled hc
        obtain ⟨-, -, -, -, -, hdeleted⟩ | ⟨set', hset', r', hr', value', hvalue', htarget, hafter⟩ :=
          removed_or_added tail hc'
        · have hkind := Change.kind_eq_delete.mp (hsame.1.trans (Change.kind_eq_delete.mpr hdeleted))
          cases hkind.2
        · obtain rfl := hlists.adds set List.mem_cons_self r hr set' (List.mem_cons_of_mem set hset') r' hr'
            (hsame.2.trans htarget)
          obtain rfl := Option.some.inj (hvalue.symm.trans hvalue')
          -- the list stores the value, so that a later one can only create the relationship again
          have hadds : ∀ other ∈ set :: rest, ∀ added ∈ other.add, relationshipTarget added = relationshipTarget r →
              added = r := fun other hother added hadded =>
            hlists.adds other hother added hadded set List.mem_cons_self r hr
          have hstored : ((edges.dropAll (set.remove.map relationshipKey)).putAll (written.map Prod.fst)).value r =
              some value := by
            rw [value_putAll marshalled hvalue (hadds set List.mem_cons_self), if_pos]
            exact mem_written_keys marshalled hr
          have hnone := not_updated tail hvalue (fun other hother => hadds other (List.mem_cons_of_mem set hother))
            (.inr hstored) hc' htarget (by simp [hafter])
          have hbefore := Change.kind_eq_create.mp (hsame.1.trans (Change.kind_eq_create.mpr hnone))
          obtain ⟨target, before, after⟩ := c'
          obtain rfl : target = _ := htarget
          obtain rfl : after = _ := hafter
          obtain rfl : before = _ := hnone
          exact congrArg (fun before => (⟨relationshipTarget r, before, some (.relationship value)⟩ : Change)) hbefore

/-- The relationships that a plan lists are not in the range of the child_of edges. -/
theorem planTypes (h : CheckSpec env db plan now checked) (hplain : (Call.mutate plan).plainTypes = true)
    (hr : r ∈ (planRelationshipChanges plan).add ++ (planRelationshipChanges plan).remove) :
    inTypeRange relChildOf r.relationType = false := by
  have hlisted : ∃ r' ∈ plan.relationships.add ++ plan.relationships.remove, r'.relationType = r.relationType := by
    obtain hr | hr := List.mem_append.mp hr
    · obtain ⟨r', hr', rfl⟩ := List.mem_map.mp hr
      refine ⟨r', List.mem_append_left _ hr', ?_⟩
      dsimp only [stampOrg]
      split_ifs <;> rfl
    · exact ⟨r, List.mem_append_right _ hr, rfl⟩
  obtain ⟨r', hr', htype⟩ := hlisted
  have hshape := h.shape
  rw [checkPlanShape] at hshape
  split_ifs at hshape with hparent hreserved
  have hne : r'.relationType ≠ relChildOf := fun heq => hreserved (List.any_eq_true.mpr ⟨r', hr', by simp [heq]⟩)
  have hrange := List.all_eq_true.mp hplain r' hr'
  rw [← htype]
  simpa [hne] using hrange

/-- The relationships that a mutation changes for its parent are from its node and in the range of child_of edges,
and it adds at most one. -/
theorem parentTypes (hdb : db.edges.Symmetric)
    (h : CheckSpec env db plan now checked) : checked.parentChanges.add.length ≤ 1 ∧
      ∀ r ∈ checked.parentChanges.add ++ checked.parentChanges.remove,
        r.orgId = plan.orgId ∧ r.sourceId = plan.nodeId ∧ inTypeRange relChildOf r.relationType = true := by
  have hedges : ∀ edge ∈ if checked.source.isSome then readOutgoingSnapshots db plan.orgId plan.nodeId relChildOf else [],
      inTypeRange relChildOf edge.relationType = true := by
    intro edge hedge
    split_ifs at hedge
    · obtain ⟨⟨k, stored⟩, hk, rfl⟩ := List.mem_map.mp hedge
      obtain ⟨hget, hrange⟩ := Edges.mem_outgoing.mp hk
      have htype : stored.relationType = k.relationType := congrArg RelKey.relationType (hdb.keyed hget)
      exact (congrArg (inTypeRange relChildOf) htype).trans (inNodeRange_iff.mp hrange).2.2
    · cases hedge
  have hchanges := h.parentChanges
  rw [childOfChanges] at hchanges
  cases hparent : plan.parent with
  | none =>
    rw [hparent] at hchanges
    rw [← Except.ok.inj hchanges]
    exact ⟨Nat.zero_le 1, fun r hr => absurd hr List.not_mem_nil⟩
  | some targetId =>
    rw [hparent] at hchanges
    dsimp only at hchanges
    generalize (if checked.source.isSome then _ else _) = edges at hchanges hedges
    split at hchanges
    · rw [← Except.ok.inj hchanges]
      refine ⟨by dsimp only; split_ifs <;> simp, fun r hr => ?_⟩
      obtain hr | hr := List.mem_append.mp hr
      · split_ifs at hr
        · cases hr
        · rw [List.mem_singleton.mp hr]
          exact ⟨rfl, rfl, (by decide : inTypeRange relChildOf relChildOf = true)⟩
      · obtain ⟨edge, hedge, rfl⟩ := List.mem_map.mp hr
        exact ⟨rfl, rfl, hedges edge (List.mem_of_mem_filter hedge)⟩
    · cases hchanges

theorem listsOnce_mutation (hdb : db.edges.Symmetric)
    (h : CheckSpec env db plan now checked) (hlists : (Call.mutate plan).ListsOnce) :
    ListsOnce [planRelationshipChanges plan, checked.parentChanges] := by
  obtain ⟨hone, hparent⟩ := parentTypes hdb h
  -- a relationship of the plan is none of the parent's
  have hapart : ∀ r ∈ (planRelationshipChanges plan).add ++ (planRelationshipChanges plan).remove,
      ∀ r' ∈ checked.parentChanges.add ++ checked.parentChanges.remove, relationshipTarget r ≠ relationshipTarget r' := by
    intro r hr r' hr' htarget
    obtain ⟨-, htype, -⟩ := Target.relationship.inj htarget
    have hin := (hparent r' hr').2.2
    rw [← htype, planTypes h hlists.plain hr] at hin
    cases hin
  have hmem : ∀ {set}, set ∈ [planRelationshipChanges plan, checked.parentChanges] →
      set = planRelationshipChanges plan ∨ set = checked.parentChanges := by simp
  refine ⟨fun set hset r hr set' hset' r' hr' htarget => ?_, fun set hset r hr set' hset' r' hr' htarget => ?_, ?_⟩
  · obtain rfl | rfl := hmem hset <;> obtain rfl | rfl := hmem hset'
    · exact hlists.once.adds _ List.mem_cons_self r hr _ List.mem_cons_self r' hr' htarget
    · exact absurd htarget (hapart r (List.mem_append_left _ hr) r' (List.mem_append_left _ hr'))
    · exact absurd htarget.symm (hapart r' (List.mem_append_left _ hr') r (List.mem_append_left _ hr))
    · obtain ⟨added, hadded⟩ := List.length_eq_one_iff.mp (le_antisymm hone (List.length_pos_of_mem hr))
      rw [hadded, List.mem_singleton] at hr hr'
      rw [hr, hr']
  · obtain rfl | rfl := hmem hset <;> obtain rfl | rfl := hmem hset'
    · exact hlists.once.removes _ List.mem_cons_self r hr _ List.mem_cons_self r' hr' htarget
    · exact absurd htarget (hapart r (List.mem_append_right _ hr) r' (List.mem_append_right _ hr'))
    · exact absurd htarget.symm (hapart r' (List.mem_append_right _ hr') r (List.mem_append_right _ hr))
    · obtain ⟨horg, hsource, -⟩ := hparent r (List.mem_append_right _ hr)
      obtain ⟨horg', hsource', -⟩ := hparent r' (List.mem_append_right _ hr')
      obtain ⟨-, htype, hfar⟩ := Target.relationship.inj htarget
      rw [relationshipKey, relationshipKey, horg, horg', hsource, hsource', htype, hfar]
  · refine List.pairwise_pair.mpr fun r hr r' hr' htarget => ?_
    exact absurd htarget (hapart r (List.mem_append_right _ hr) r' (List.mem_append_right _ hr'))

/-- The changes of lists and of a node. -/
theorem once_append_node (h : EdgesChanged edges sets edges' changes) (hlists : ListsOnce sets) (current : Node)
    (before after : Option Record) : Once (changes ++ changeOf (nodeTarget current) before after) := by
  refine once_append (once_of_edgesChanged h hlists) (once_of_length_le (length_changeOf _ _ _))
    fun c hc c' hc' hsame => ?_
  have htarget := hsame.2
  rw [mem_changeOf hc'] at htarget
  obtain ⟨_, _, _, _, hedge, -⟩ | ⟨_, _, _, _, _, _, hedge, -⟩ := removed_or_added h hc
  all_goals
    rw [hedge] at htarget
    cases htarget

theorem Once.append_comm {changes' : List Change} (h : Once (changes ++ changes')) :
    Once (changes' ++ changes) := fun c hc c' hc' =>
  h c (List.perm_append_comm.mem_iff.mp hc) c' (List.perm_append_comm.mem_iff.mp hc')

/-- **A transaction changes a record once in each way**, when the lists of its caller give each relationship one
value. -/
theorem once_of_attempt (hdb : WellStored db) (hedges : db.edges.Symmetric) {call : Call} {times : StepTimes}
    (h : call.attempt env times ⟨db, []⟩ = .ok () t) (hlists : call.ListsOnce) :
    Once t.changes := by
  cases call with
  | create args =>
    obtain ⟨stored, refs, written, hspec⟩ := createAtomic_ok h
    have hchanged : EdgesChanged db.edges [⟨args.stamped, []⟩] _ ([] ++ addedChanges written ++ []) :=
      .cons (by simp) hspec.edges hspec.validEdges (.nil _)
    rw [hspec.changes]
    rw [List.nil_append, List.append_nil] at hchanged
    exact once_append_node hchanged hlists.once _ _ _
  | update args =>
    obtain ⟨stored, refs, edges, edgeChanges, hspec⟩ := updateAtomic_ok h
    rw [hspec.changes]
    exact once_append_node hspec.edgesChanged hlists.once _ _ _
  | mutate plan =>
    obtain ⟨-, rfl⟩ | ⟨-, checked, stored, refs, edges, edgeChanges, hspec⟩ := applyMutation_ok h
    · exact once_of_length_le (by simp)
    · rw [hspec.changes]
      exact (once_append_node hspec.edgesChanged (listsOnce_mutation hedges hspec.checks hlists) _ _ _).append_comm
  | delete orgId nodeId current =>
    obtain ⟨-, rfl⟩ := deleteRead_ok h
    exact once_of_stepped fun c hc => stepped_of_cleared hc
  | deleteNode plan =>
    obtain ⟨source, incoming, sources, -, -, -, rfl⟩ := deleteNode_ok h
    exact once_of_stepped fun c hc => stepped_of_cleared hc
  | setReferences orgId nodeId keys => 
    obtain ⟨_, _, _, _, _, hchanges⟩ := setReferenceKeys_ok h
    exact once_of_length_le hchanges
  | addRelationship rel memberTarget =>
    obtain ⟨written, hwritten, -, -, rfl⟩ := addRelationship_ok h
    have hlength := congrArg List.length (marshalAll_eq_some hwritten)
    rw [List.length_map, List.length_map] at hlength
    obtain ⟨p, rfl⟩ := List.length_eq_one_iff.mp hlength
    rw [addedChanges, List.flatMap_singleton]
    exact once_of_length_le (length_changeOf _ _ _)
  | removeRelationship orgId sourceId relationType targetId =>
    obtain ⟨-, rfl⟩ := removeRelationship_ok h
    have hkeys : ∀ k ∈ [(⟨orgId, sourceId, relationType, targetId⟩ : RelKey)],
        k.org = orgId ∧ (k.near = sourceId ∨ k.far = sourceId) := fun k hk => by simp [List.mem_singleton.mp hk]
    exact once_of_stepped fun c hc => stepped_of_removed hkeys hc
  | startSubtreeDelete job =>
    obtain ⟨parentId, -, rfl⟩ := startSubtreeDelete_ok h
    exact once_of_length_le (by simp)
  | deleteSubtreeStep jobId =>
    obtain ⟨progress, s, hstep, hreturn⟩ := Tx.bind_ok.mp h
    obtain ⟨-, rfl⟩ := Tx.pure_ok.mp hreturn
    obtain ⟨rfl, -, -⟩ | ⟨job, job', t, -, -, hadvanced, rfl, -⟩ := deleteSubtreeStep_ok hstep
    · exact once_of_length_le (by simp)
    · obtain hnone | ⟨topId, -, changed, put, hstepped⟩ := stepped_of_advanced hdb hadvanced
      · exact once_of_length_le (by simp [hnone])
      · exact once_of_stepped hstepped
  | setNodeType nodeType => exact once_of_length_le (writeNodeType_ok h).2
  | deleteNodeType orgId typeId => exact once_of_length_le (writeNodeType_ok h).2
  | replaceNodeType before after =>
    obtain rfl | ⟨s, -, hwrite⟩ := replaceNodeType_ok h
    · exact once_of_length_le (by simp)
    · exact once_of_length_le (writeNodeType_ok hwrite).2
  | setPropertyDef definition =>
    obtain ⟨s, -, hwrite⟩ := setPropertyDef_ok h
    exact once_of_length_le (writePropertyDef_ok hwrite).2
  | deletePropertyDef orgId definitionId => exact once_of_length_le (writePropertyDef_ok h).2
  | replacePropertyDef before after =>
    obtain rfl | ⟨s, -, hwrite⟩ := replacePropertyDef_ok h
    · exact once_of_length_le (by simp)
    · exact once_of_length_le (writePropertyDef_ok hwrite).2
  | activateStrict evidence activation =>
    obtain ⟨-, -, rfl⟩ := activateStrict_ok h
    exact once_of_length_le (by simp)

end Transaction

end Tack.Nodes

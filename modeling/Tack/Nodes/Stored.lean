import Tack.Nodes.System

/-!
# Stored records

What holds of the node records in every reachable state, whatever the calls were: a record stands under
its own key, its property values are as `json.Marshal` writes them, and a resolution record names a
stored node.

## Main definitions

* `Nodes.WellStored` — the three facts.
* `Nodes.SameSchema` — two databases with the same node types and property definitions.

## Main results

* `Nodes.wellStored_of_committed` — every call keeps the records well stored.
* `Nodes.sameSchema_of_committed` — only the calls of the schema change it.
-/

namespace Tack.Nodes

open Lib

variable {env : Env} {times : StepTimes} {db db' : Db} {call : Call} {t : Attempt}

/-! ### Records -/

/-- The node records are under their own keys and compact, and a resolution record names one of them. -/
structure WellStored (db : Db) : Prop where
  keyed {k : NodeKey} {current : Node} : db.nodes.get k = some current → nodeInstanceKey current = k
  compact {k : NodeKey} {current : Node} {name : String} {raw : RawMessage} :
    db.nodes.get k = some current → current.props.get name = some raw → Compact raw
  resolved {id : UUID} {resolve : NodeResolve} : db.resolves.get id = some resolve →
    db.nodes.get ⟨resolve.orgId, resolve.nodeType, id⟩ ≠ none

theorem wellStored_of_empty (hnodes : db.nodes = .empty) (hresolves : db.resolves = .empty) :
    WellStored db where
  keyed h := by
    rw [hnodes] at h
    cases h
  compact h := by
    rw [hnodes] at h
    cases h
  resolved h := by
    rw [hresolves] at h
    cases h

/-- A node that was stored still is after a write. -/
theorem get_set_ne_none {nodes : Table NodeKey Node} {k k' : NodeKey} {stored : Node}
    (h : nodes.get k' ≠ none) : (nodes.set k stored).get k' ≠ none := by
  rw [Table.get_set]
  split_ifs
  · simp
  · exact h

theorem wellStored_of_recordsChanged (h : RecordsChanged db db') (hdb : WellStored db) :
    WellStored db' := by
  cases h with
  | kept nodes resolves =>
    refine ⟨?_, ?_, ?_⟩
    · rw [nodes]
      exact hdb.keyed
    · rw [nodes]
      exact hdb.compact
    · rw [nodes, resolves]
      exact hdb.resolved
  | put current stored marshalled nodes resolves =>
    refine ⟨fun {k found} hget => ?_, fun {k found name raw} hget hraw => ?_,
      fun {id resolve} hget => ?_⟩
    · rw [nodes, Table.get_set] at hget
      split_ifs at hget with hk
      · rw [← hk, Option.some.inj hget]
      · exact hdb.keyed hget
    · rw [nodes, Table.get_set] at hget
      split_ifs at hget with hk
      · obtain rfl := Option.some.inj hget
        obtain ⟨props, hprops, rfl⟩ := Node.marshalled_eq_some marshalled
        exact compact_of_marshalProps hprops hraw
      · exact hdb.compact hget hraw
    · rw [resolves, Table.get_set] at hget
      rw [nodes]
      split_ifs at hget with hid
      · obtain rfl := Option.some.inj hget
        subst hid
        rw [← nodeInstanceKey, Table.get_set_self]
        simp
      · exact get_set_ne_none (hdb.resolved hget)
  | cleared current nodes resolves edges refs =>
    refine ⟨fun {k found} hget => ?_, fun {k found name raw} hget hraw => ?_,
      fun {id resolve} hget => ?_⟩
    · rw [nodes, Table.get_erase] at hget
      split_ifs at hget
      exact hdb.keyed hget
    · rw [nodes, Table.get_erase] at hget
      split_ifs at hget
      exact hdb.compact hget hraw
    · rw [resolves, Table.get_erase] at hget
      split_ifs at hget with hid
      rw [nodes, Table.get_erase_ne]
      · exact hdb.resolved hget
      · intro hkey
        exact hid (congrArg NodeKey.id hkey)

/-- **Every call keeps the records well stored.** -/
theorem wellStored_of_committed (h : Committed env times db call t) (hdb : WellStored db) :
    WellStored t.db :=
  wellStored_of_recordsChanged (recordsChanged_of_committed h) hdb

/-- The key of a stored node that a mutation or a deletion reads. -/
theorem WellStored.source_key (hdb : WellStored db) {orgId nodeId : UUID} {source : MutationSource}
    (h : readMutationSource db orgId nodeId = some source) :
    nodeInstanceKey source.node = ⟨orgId, source.typeKey, nodeId⟩ :=
  hdb.keyed (readMutationSource_eq_some.mp h).2

/-! ### The schema -/

/-- Two databases with the same node types and property definitions. -/
structure SameSchema (db db' : Db) : Prop where
  nodeTypes : db'.nodeTypes = db.nodeTypes
  nodeTypesByKey : db'.nodeTypesByKey = db.nodeTypesByKey
  propertyDefs : db'.propertyDefs = db.propertyDefs

theorem SameSchema.cachedNodeTypeByKey (h : SameSchema db db') (orgId : UUID) (typeKey : String) :
    cachedNodeTypeByKey db' orgId typeKey = cachedNodeTypeByKey db orgId typeKey := by
  rw [Nodes.cachedNodeTypeByKey, Nodes.cachedNodeTypeByKey, indexedTypeIDs, indexedTypeIDs, h.nodeTypes,
    h.nodeTypesByKey]

theorem SameSchema.definitionsOf (h : SameSchema db db') (orgId : UUID) :
    db'.definitionsOf orgId = db.definitionsOf orgId := by
  rw [Db.definitionsOf, Db.definitionsOf, h.propertyDefs]

/-- **Only the calls of the schema change it.** -/
theorem sameSchema_of_committed (h : Committed env times db call t) (hcall : call.writesSchema = false) :
    SameSchema db t.db := by
  cases h with
  | created spec =>
    rw [spec.db]
    exact ⟨rfl, rfl, rfl⟩
  | updated spec =>
    rw [spec.db]
    exact ⟨rfl, rfl, rfl⟩
  | mutated fresh spec =>
    rw [spec.db]
    exact ⟨rfl, rfl, rfl⟩
  | jobStepped found unfinished advanced =>
    cases advanced with
    | move stack decision read spec =>
      rw [Attempt.clearEdges, spec.db]
      exact ⟨rfl, rfl, rfl⟩
    | _ => exact ⟨rfl, rfl, rfl⟩
  | schemaWritten schema written =>
    rw [hcall] at schema
    cases schema
  | _ => exact ⟨rfl, rfl, rfl⟩

end Tack.Nodes

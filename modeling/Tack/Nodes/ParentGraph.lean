import Tack.Lib.ParentForest
import Tack.Nodes.Dangling

/-!
# Cycles in the parent graph

`ApplyMutation` walks the whole chain above a new parent, so it never closes a cycle.
`DeleteSubtreeStep` moves a child of the deleted root to the parent that was read when the job
started, and walks nothing: when other mutations have meanwhile put that parent below the child,
the move closes a cycle (`subtree_delete_closes_cycle`).  Without such a move, and when every node
ID is used in one organization only, the graph stays a forest (`parents_acyclic`).

## Main definitions

* `Nodes.Db.parent` — the parent that the record of a node names.
* `Nodes.stepMoves` — the child and the parent of the move that a step makes.
* `Nodes.Admissible` — a call that makes no move under a descendant and keeps IDs in their organization.

## Main results

* `Nodes.not_isAncestor_of_checkParentChain` — the chain walk is sound.
* `Nodes.Forest.committed` — every admissible call keeps the forest.
* `Nodes.parents_acyclic` — the graph stays a forest, and only a move under a descendant breaks it.

## References

`internal/adapters/foundationdb/node_mutation_check.go`, `node_mutation_apply.go`, `node_delete_step.go` and
`node_delete_move.go`.
-/

namespace Tack.Nodes

open Lib

/-! ### The graph -/

/-- The parent a record stores. -/
def Node.parent (current : Node) : Option UUID :=
  if current.parentID = UUID.nil then none else some current.parentID

/-- The parent of the node that an ID resolves to. -/
def Db.parent (db : Db) (id : UUID) : Option UUID :=
  (db.resolves.get id).bind fun resolve =>
    (db.nodes.get ⟨resolve.orgId, resolve.nodeType, id⟩).bind Node.parent

section Graph

variable {env : Env} {db db' : Db}

/-- The parents after one record was written. -/
theorem Db.parent_put {stored : Node} (hnodes : db'.nodes = db.nodes.set (nodeInstanceKey stored) stored)
    (hresolves : db'.resolves = db.resolves.set stored.id ⟨stored.orgId, stored.nodeType⟩) :
    db'.parent = Function.update db.parent stored.id stored.parent := by
  funext id
  rw [Db.parent, hresolves, hnodes]
  rcases eq_or_ne id stored.id with rfl | hne
  · rw [Table.get_set_self, Option.bind_some, ← nodeInstanceKey, Table.get_set_self, Option.bind_some,
      Function.update_self]
  · rw [Table.get_set_ne _ _ hne.symm, Function.update_of_ne hne, Db.parent]
    refine Option.bind_congr fun resolve _ => ?_
    rw [Table.get_set_ne]
    exact fun hkey => hne (congrArg NodeKey.id hkey).symm

/-- The parents after a node was cleared. -/
theorem Db.parent_clear {current : Node} (hnodes : db'.nodes = db.nodes.erase (nodeInstanceKey current))
    (hresolves : db'.resolves = db.resolves.erase current.id) :
    db'.parent = Function.update db.parent current.id none := by
  funext id
  rw [Db.parent, hresolves, hnodes]
  rcases eq_or_ne id current.id with rfl | hne
  · rw [Table.get_erase_self, Option.bind_none, Function.update_self]
  · rw [Table.get_erase_ne _ hne, Function.update_of_ne hne, Db.parent]
    refine Option.bind_congr fun resolve _ => ?_
    rw [Table.get_erase_ne]
    exact fun hkey => hne (congrArg NodeKey.id hkey)

/-- Every stored ID belongs to one organization, which is also that of its parent. -/
def AtHome (home : UUID → UUID) (db : Db) : Prop :=
  ∀ k current, db.nodes.get k = some current →
    k.org = home k.id ∧ ∀ parentId, current.parent = some parentId → home parentId = home k.id

/-! ### The chain walk -/

/-- The records that `checkGraphRecords` returns are the stored ones. -/
theorem readMutationSource_of_checkGraphRecords {orgId : UUID} {expected : List GraphRecord}
    {records : Table UUID MutationSource} (h : checkGraphRecords env db orgId expected = .ok records) {id : UUID}
    {source : MutationSource} (hget : records.get id = some source) : readMutationSource db orgId id = some source := by
  induction expected generalizing records with
  | nil =>
    cases h
    cases hget
  | cons record rest ih =>
    rw [checkGraphRecords] at h
    cases hread : readMutationSource db orgId record.nodeId with
    | none =>
      rw [hread] at h
      cases h
    | some found =>
      rw [hread] at h
      dsimp only at h
      split_ifs at h
      obtain ⟨sources, hsources, h⟩ := except_bind_ok.mp h
      cases h
      rw [Table.get_set] at hget
      split_ifs at hget with hid
      · rw [← hid, hread, hget]
      · exact ih hsources hget

variable {home : UUID → UUID} {orgId nodeId parentId : UUID} {records : Table UUID MutationSource}

/-- The parent of a node that an organization reads. -/
theorem parent_of_readMutationSource {source : MutationSource} (h : readMutationSource db orgId nodeId = some source) :
    db.parent nodeId = source.node.parent := by
  obtain ⟨hresolve, hnode⟩ := readMutationSource_eq_some.mp h
  rw [Db.parent, hresolve, Option.bind_some, hnode, Option.bind_some]

/-- The walk from `current` passes every ancestor, so it meets the node when the node is one. -/
theorem not_isAncestor_of_followParents (hdb : AtHome home db)
    (hrecords : ∀ id source, records.get id = some source → readMutationSource db orgId id = some source) :
    ∀ (fuel : ℕ) (currentId : UUID) (visited : List UUID), currentId ≠ UUID.nil →
      (currentId ≠ parentId → home currentId = orgId) →
      followParents db orgId nodeId parentId records fuel currentId visited = .ok () →
      home currentId = orgId ∧ ¬IsAncestor db.parent currentId nodeId := by
  intro fuel
  induction fuel with
  | zero => intro currentId visited _ _ h; cases h
  | succ fuel ih =>
    intro currentId visited hnil hhome h
    by_cases hvisited : currentId = nodeId ∨ currentId ∈ visited
    · rw [followParents, if_neg hnil, if_pos hvisited] at h
      cases h
    rw [followParents, if_neg hnil, if_neg hvisited] at h
    have hne : currentId ≠ nodeId := fun heq => hvisited (.inl heq)
    cases hget : records.get currentId with
    | some ancestor =>
      -- a listed ancestor: the walk goes on at its parent
      rw [hget] at h
      have hread := hrecords _ _ hget
      obtain ⟨horg, hparent⟩ := hdb _ _ (readMutationSource_eq_some.mp hread).2
      refine ⟨horg.symm, fun hanc => ?_⟩
      rcases Relation.ReflTransGen.cases_head hanc with heq | ⟨next, hstep, hrest⟩
      · exact hne heq
      · rw [HasParent, parent_of_readMutationSource hread] at hstep
        have hhomeNext := hparent next hstep
        rw [Node.parent] at hstep
        split_ifs at hstep with hnext
        obtain rfl := Option.some.inj hstep
        exact (ih _ _ hnext (fun _ => hhomeNext.trans horg.symm) h).2 hrest
    | none =>
      -- a node that the organization does not store has no parent: the chain ends here
      rw [hget] at h
      dsimp only at h
      split_ifs at h with hread hparent
      have horg := hhome hparent
      refine ⟨horg, fun hanc => ?_⟩
      rcases Relation.ReflTransGen.cases_head hanc with heq | ⟨next, hstep, -⟩
      · exact hne heq
      · obtain ⟨resolve, hresolve, hstep⟩ := Option.bind_eq_some_iff.mp hstep
        obtain ⟨current, hcurrent, -⟩ := Option.bind_eq_some_iff.mp hstep
        have hsame : resolve.orgId = orgId := (hdb _ _ hcurrent).1.trans horg
        refine hread (Option.isSome_iff_exists.mpr ⟨⟨resolve.nodeType, current⟩, readMutationSource_eq_some.mpr ?_⟩)
        rw [← hsame]
        exact ⟨hresolve, hcurrent⟩

/-- **The chain walk is sound**: a parent it accepts does not have the node among its ancestors. -/
theorem not_isAncestor_of_checkParentChain (hdb : AtHome home db)
    (hrecords : ∀ id source, records.get id = some source → readMutationSource db orgId id = some source)
    (hnil : parentId ≠ UUID.nil) (h : checkParentChain db orgId nodeId parentId records = .ok ()) :
    home parentId = orgId ∧ ¬IsAncestor db.parent parentId nodeId :=
  not_isAncestor_of_followParents hdb hrecords _ _ _ hnil (fun hne => absurd rfl hne) h

/-! ### What a mutation stores -/

/-- A stored record names the parent that was written. -/
theorem parentID_of_marshalled {current stored : Node} (h : current.marshalled = some stored)
    (hcompact : ∀ raw, current.props.get parentIDProperty = some raw → Compact raw) :
    stored.parentID = current.parentID := by
  obtain ⟨props, hprops, rfl⟩ := Node.marshalled_eq_some h
  rw [Node.parentID, Node.parentID, Node.prop, Node.prop, (marshalProps_eq_some hprops).1, Table.get_map]
  cases hraw : current.props.get parentIDProperty with
  | none => rfl
  | some raw => rw [Option.map_some, (hcompact raw hraw).rawSpelling]

/-- The parent_id value of the node that a mutation writes: that of the plan, or that of the stored node. -/
theorem parentIDProperty_of_checkSpec {plan : MutationPlan} {now : Time} {checked : CheckedPlan}
    (h : CheckSpec env db plan now checked) : checked.result.props.get parentIDProperty =
      match plan.parent with
      | some targetId => some (quoteUUID targetId)
      | none => checked.source.bind fun source => source.node.props.get parentIDProperty := by
  rw [h.result, withParentID]
  cases hparent : plan.parent with
  | some targetId => exact Table.get_set_self _ _ _
  | none =>
    refine (get_patchProps _ _ _).trans ?_
    rw [(shape_of_ok h.shape).1]
    cases checked.source <;> rfl

/-- A plan that was checked has the chain above its parent walked, through the stored records. -/
theorem chain_of_checkPlan {plan : MutationPlan} {now : Time} {checked : CheckedPlan}
    (h : checkPlan env db plan now = .ok checked) : ∃ records,
      checkGraphRecords env db plan.orgId plan.graph.records = .ok records ∧ checkPlanParent db plan records = .ok () := by
  obtain ⟨_, -, h⟩ := except_bind_ok.mp h
  obtain ⟨_, -, h⟩ := except_bind_ok.mp h
  obtain ⟨_, -, h⟩ := except_bind_ok.mp h
  obtain ⟨records, hrecords, h⟩ := except_bind_ok.mp h
  obtain ⟨_, hchain, -⟩ := except_bind_ok.mp h
  exact ⟨records, hrecords, hchain⟩

/-- **What a mutation does to the parent of its node**: it keeps the stored one, or it sets one whose chain was
walked. -/
theorem parent_of_mutationSpec (hstored : WellStored db) (hdb : AtHome home db) {plan : MutationPlan} {now : Time}
    {t : Attempt} {checked : CheckedPlan} {stored : Node} {refs : Refs} {edges : Edges} {edgeChanges : List Change}
    (hspec : MutationSpec env plan now ⟨db, []⟩ t checked stored refs edges edgeChanges) {newParent : UUID}
    (h : stored.parent = some newParent) : db.parent plan.nodeId = some newParent ∨
      home newParent = plan.orgId ∧ ¬IsAncestor db.parent newParent plan.nodeId := by
  have hvalue := parentIDProperty_of_checkSpec hspec.checks
  have hcompact : ∀ raw, checked.result.props.get parentIDProperty = some raw → Compact raw := by
    intro raw hraw
    rw [hvalue] at hraw
    cases hparent : plan.parent with
    | some targetId =>
      rw [hparent] at hraw
      exact Option.some.inj hraw ▸ compact_quoteUUID targetId
    | none =>
      rw [hparent] at hraw
      obtain ⟨source, hsource, hraw⟩ := Option.bind_eq_some_iff.mp hraw
      exact hstored.compact (readMutationSource_eq_some.mp (hspec.checks.source.symm.trans hsource)).2 hraw
  rw [Node.parent, parentID_of_marshalled hspec.marshalled hcompact, Node.parentID, Node.prop, hvalue] at h
  cases hparent : plan.parent with
  | some targetId =>
    rw [hparent] at h
    simp only [Option.getD_some, storedUUID_quoteUUID] at h
    split_ifs at h with hnil
    obtain rfl := Option.some.inj h
    obtain ⟨records, hrecords, hchain⟩ := chain_of_checkPlan hspec.checkedPlan
    rw [checkPlanParent, hparent] at hchain
    exact .inr (not_isAncestor_of_checkParentChain hdb
      (fun id source => readMutationSource_of_checkGraphRecords hrecords) hnil hchain)
  | none =>
    rw [hparent] at h
    cases hsource : checked.source with
    | none =>
      rw [hsource] at h
      dsimp only [Option.bind_none, Option.getD_none] at h
      rw [if_pos (by decide +kernel : storedUUID "" = UUID.nil)] at h
      cases h
    | some source =>
      rw [hsource] at h
      rw [parent_of_readMutationSource (hspec.checks.source.symm.trans hsource)]
      exact .inl h

end Graph

/-! ### Moves -/

/-- The child that the next step of a job moves and the parent that it gets: the root of the job has a hierarchy child
that can live under the parent that was stored with the job. -/
def jobMove (db : Db) (job : SubtreeDeleteJob) : Option (UUID × UUID) :=
  match job.finished, job.stack with
  | false, [topId] =>
    match decideStep db job topId with
    | .ok (.take child _) =>
      match readMove db job child with
      | .ok (some _) => some (child.id, job.rootParentId)
      | _ => none
    | _ => none
  | _, _ => none

/-- The child and the parent of the move that a step of a job commits. -/
def stepMoves (env : Env) (s : State) (move : Move) : Option (UUID × UUID) :=
  match move.call, runCall env move s.db with
  | .deleteSubtreeStep jobId, .ok _ => (s.db.jobs.get jobId).bind (jobMove s.db)
  | _, _ => none

/-- A call that keeps every ID in its organization and moves no node under one of its descendants.  The second is what
`checkParentChain` checks for `ApplyMutation` and `moveChild` does not.  The older calls that write a node with any
properties are left out. -/
def Admissible (env : Env) (home : UUID → UUID) (s : State) (move : Move) : Prop :=
  match move.call with
  | .create _ | .update _ => False
  | .mutate plan => plan.orgId = home plan.nodeId
  | .deleteSubtreeStep _ =>
    ∀ childId parentId, stepMoves env s move = some (childId, parentId) → ¬IsAncestor s.db.parent parentId childId
  | _ => True

section Moves

variable {env : Env} {db : Db} {home : UUID → UUID}

/-- **What a move does to the parents**: the child gets the parent that was stored with the job. -/
theorem parent_of_moveSpec (hdb : WellStored db) {job : SubtreeDeleteJob} {child : HierarchyNode} {current stored : Node}
    {edges : List RelKey} {now : Time} {t : Attempt} {moved : Edges} {edgeChanges : List Change}
    (hread : readMove db job child = .ok (some (current, edges)))
    (hspec : MoveSpec env job child.id current edges now ⟨db, []⟩ t stored moved edgeChanges) :
    stored.orgId = job.orgId ∧ stored.id = child.id ∧ stored.parent = some job.rootParentId := by
  obtain ⟨hnil, hcurrent, -⟩ := readMove_some hread
  obtain ⟨horg, -, hid⟩ := NodeKey.mk.inj (hdb.keyed hcurrent)
  have hvalue : (movedNode job current now).props.get parentIDProperty = some (quoteUUID job.rootParentId) :=
    Table.get_set_self _ _ _
  have hparent : stored.parentID = job.rootParentId := by
    rw [parentID_of_marshalled hspec.marshalled, Node.parentID, Node.prop, hvalue, Option.getD_some, storedUUID_quoteUUID]
    intro raw hraw
    rw [hvalue] at hraw
    exact Option.some.inj hraw ▸ compact_quoteUUID _
  obtain ⟨props, -, rfl⟩ := Node.marshalled_eq_some hspec.marshalled
  exact ⟨horg, hid, by rw [Node.parent, hparent, if_neg hnil]⟩

theorem jobMove_eq_some {job : SubtreeDeleteJob} {childId parentId : UUID} (h : jobMove db job = some (childId, parentId)) :
    job.finished = false ∧ ∃ topId child others found, job.stack = [topId] ∧
      decideStep db job topId = .ok (.take child others) ∧ readMove db job child = .ok (some found) ∧
      childId = child.id ∧ parentId = job.rootParentId := by
  rw [jobMove] at h
  split at h
  · next topId hunfinished hstack =>
    split at h
    · next child others hdecision =>
      split at h
      · next found hread =>
        cases h
        exact ⟨hunfinished, topId, child, others, found, hstack, hdecision, hread, rfl, rfl⟩
      · cases h
    · cases h
  · cases h

/-- **A step that moves a child commits, and the child gets the parent that was stored with the job.** -/
theorem parent_of_stepMoves {s : State} {move : Move} (hdb : WellStored s.db) {childId parentId : UUID}
    (h : stepMoves env s move = some (childId, parentId)) :
    ∃ s', step env s move = some s' ∧ s'.db.parent = Function.update s.db.parent childId (some parentId) := by
  rw [stepMoves] at h
  split at h
  · next jobId t hcall hrun =>
    obtain ⟨job, hjob, h⟩ := Option.bind_eq_some_iff.mp h
    obtain ⟨hunfinished, topId, child, others, found, hstack, hdecision, hread, rfl, rfl⟩ := jobMove_eq_some h
    have hstep : step env s move = some ⟨t.db, s.db :: s.past⟩ := by
      rw [step, hcall, hrun]
      rfl
    refine ⟨_, hstep, ?_⟩
    have hcommitted := committed_of_attempt (runCall_ok.mp hrun)
    rw [hcall] at hcommitted
    cases hcommitted with
    | jobIdle finished =>
      rw [finished job hjob] at hunfinished
      cases hunfinished
    | @jobStepped _ _ job' t hfound _ advanced =>
      obtain rfl := Option.some.inj (hfound.symm.trans hjob)
      -- the step reads what `jobMove` reads, so that no other outcome is possible
      cases advanced with
      | move stack decision read spec =>
        rw [hstack] at stack
        cases stack
        rw [hdecision] at decision
        cases decision
        rw [hread] at read
        cases read
        obtain ⟨-, hid, hparent⟩ := parent_of_moveSpec hdb hread spec
        rw [← hid, ← hparent]
        exact Db.parent_put spec.put.nodes spec.put.resolves
      | idle stack =>
        rw [hstack] at stack
        cases stack
      | push stack decision stays =>
        rw [hstack] at stack
        cases stack
        rw [hdecision] at decision
        cases decision
        rw [hread] at stays
        simp at stays
      | _ stack decision =>
        rw [hstack] at stack
        cases stack
        rw [hdecision] at decision
        cases decision
    | schemaKept schema => cases schema
    | schemaWritten schema => cases schema
  · cases h

end Moves

/-! ### Whole runs -/

/-- The parent graph is a forest, and organizations do not share IDs. -/
structure Forest (home : UUID → UUID) (db : Db) : Prop where
  stored : WellStored db
  atHome : AtHome home db
  acyclic : Acyclic db.parent

section Forest

variable {env : Env} {home : UUID → UUID} {db db' : Db}

theorem forest_empty (home : UUID → UUID) : Forest home Db.empty where
  stored := wellStored_of_empty rfl rfl
  atHome k current h := by cases h
  acyclic := acyclic_none

/-- Nothing that keeps the records can break the forest. -/
theorem Forest.kept (h : Forest home db) (hstored : WellStored db') (hnodes : db'.nodes = db.nodes)
    (hresolves : db'.resolves = db.resolves) : Forest home db' where
  stored := hstored
  atHome k current hget := h.atHome k current (hnodes ▸ hget)
  acyclic := by
    have hparent : db'.parent = db.parent := by
      funext id
      rw [Db.parent, Db.parent, hnodes, hresolves]
    rw [hparent]
    exact h.acyclic

/-- Fewer parents, no cycle. -/
theorem acyclic_update_none {parent : UUID → Option UUID} (h : Acyclic parent) (id : UUID) :
    Acyclic (Function.update parent id none) := by
  refine h.of_le fun a b hab => ?_
  rcases eq_or_ne a id with rfl | hne
  · rw [Function.update_self] at hab
    cases hab
  · rwa [Function.update_of_ne hne] at hab

/-- Clearing a node keeps the forest. -/
theorem Forest.clear (h : Forest home db) (hstored : WellStored db') {current : Node}
    (hnodes : db'.nodes = db.nodes.erase (nodeInstanceKey current))
    (hresolves : db'.resolves = db.resolves.erase current.id) : Forest home db' where
  stored := hstored
  atHome k found hget := by
    rw [hnodes, Table.get_erase] at hget
    split_ifs at hget
    exact h.atHome k found hget
  acyclic := by
    rw [Db.parent_clear hnodes hresolves]
    exact acyclic_update_none h.acyclic current.id

/-- Writing a record keeps the forest when its parent does not have the node as an ancestor. -/
theorem Forest.write (h : Forest home db) (hstored : WellStored db') {stored : Node}
    (hnodes : db'.nodes = db.nodes.set (nodeInstanceKey stored) stored)
    (hresolves : db'.resolves = db.resolves.set stored.id ⟨stored.orgId, stored.nodeType⟩)
    (horg : stored.orgId = home stored.id)
    (hparent : ∀ parentId, stored.parent = some parentId → db.parent stored.id = some parentId ∨
      home parentId = home stored.id ∧ ¬IsAncestor db.parent parentId stored.id) : Forest home db' where
  stored := hstored
  atHome k found hget := by
    rw [hnodes, Table.get_set] at hget
    split_ifs at hget with hk
    · obtain rfl := Option.some.inj hget
      subst hk
      refine ⟨horg, fun parentId hfound => ?_⟩
      obtain hsame | ⟨hhome, -⟩ := hparent parentId hfound
      · obtain ⟨resolve, -, hsame⟩ := Option.bind_eq_some_iff.mp hsame
        obtain ⟨current, hcurrent, hsame⟩ := Option.bind_eq_some_iff.mp hsame
        exact (h.atHome _ _ hcurrent).2 parentId hsame
      · exact hhome
    · exact h.atHome k found hget
  acyclic := by
    rw [Db.parent_put hnodes hresolves]
    cases hnew : stored.parent with
    | none => exact acyclic_update_none h.acyclic stored.id
    | some parentId =>
      obtain hsame | ⟨-, hanc⟩ := hparent parentId hnew
      · rw [← hsame, Function.update_eq_self]
        exact h.acyclic
      · exact h.acyclic.update_some hanc

/-- A node that a step finds belongs to the organization of the job. -/
theorem home_of_readHierarchyNode (h : Forest home db) {orgId nodeId : UUID} {top : HierarchyNode}
    (hread : readHierarchyNode db orgId nodeId = .ok top) (hfound : top.found = true) : home nodeId = orgId := by
  rw [readHierarchyNode] at hread
  cases hresolve : db.resolves.get nodeId with
  | none =>
    rw [hresolve] at hread
    cases hread
    cases hfound
  | some resolve =>
    rw [hresolve] at hread
    dsimp only at hread
    split_ifs at hread with horg
    · cases hread
      cases hfound
    · obtain ⟨current, hcurrent⟩ := Option.ne_none_iff_exists'.mp (h.stored.resolved hresolve)
      exact (h.atHome _ _ hcurrent).1.symm.trans (not_not.mp horg)

/-- **Every admissible call keeps the forest.** -/
theorem Forest.committed {s : State} {move : Move} {t : Attempt} (h : Forest home s.db)
    (hok : Admissible env home s move) (hrun : runCall env move s.db = .ok t) : Forest home t.db := by
  have hcommitted := committed_of_attempt (runCall_ok.mp hrun)
  have hstored := wellStored_of_committed hcommitted h.stored
  rw [Admissible, stepMoves, hrun] at hok
  generalize move.call = call at hok hcommitted
  cases hcommitted with
  | created spec => cases hok
  | updated spec => cases hok
  | mutated fresh spec =>
    obtain ⟨horg, -, hid⟩ := NodeKey.mk.inj (spec.key h.stored)
    refine h.write hstored spec.put.nodes spec.put.resolves (by rw [horg, hid]; exact hok) fun parentId hparent => ?_
    rw [hid]
    refine (parent_of_mutationSpec h.stored h.atHome spec hparent).imp_right fun hnew => ⟨?_, hnew.2⟩
    exact hnew.1.trans hok
  | @deletedRead orgId nodeId current => exact h.clear hstored rfl rfl
  | @deletedNode plan source => exact h.clear hstored rfl rfl
  | jobStepped found unfinished advanced =>
    cases advanced with
    | @move topId child others current edges t stored moved edgeChanges stack decision read spec =>
      obtain ⟨horg, hid, hparent⟩ := parent_of_moveSpec h.stored read spec
      obtain ⟨-, hcurrent, -, -, parent, hread, hfound, -⟩ := readMove_some read
      refine h.write hstored spec.put.nodes spec.put.resolves ?_ fun parentId hnew => .inr ?_
      · rw [horg, hid]
        exact (h.atHome _ _ hcurrent).1
      · obtain rfl := Option.some.inj (hparent.symm.trans hnew)
        rw [hid]
        refine ⟨?_, hok _ _ ?_⟩
        · rw [← (h.atHome _ _ hcurrent).1]
          exact home_of_readHierarchyNode h hread hfound
        · dsimp only
          rw [found, Option.bind_some, jobMove, unfinished, stack]
          simp only [decision, read]
    | @delete topId below current => exact h.clear hstored rfl rfl
    | _ => exact h.kept hstored rfl rfl
  | schemaWritten schema written => cases written <;> exact h.kept hstored rfl rfl
  | _ => exact h.kept hstored rfl rfl

end Forest

/-- **The parent graph stays acyclic as long as no step moves a child under one of its descendants.**  For any
assignment of IDs to organizations, in every run of admissible calls from the empty store no node is reached from
itself by following stored `parent_id` values; and a step that does move a child under one of its descendants commits
and closes a cycle. -/
theorem parents_acyclic (env : Env) (home : UUID → UUID) {s : State}
    (h : Reach (step env) (Admissible env home) .init s) :
    Acyclic s.db.parent ∧ ∀ move childId parentId, stepMoves env s move = some (childId, parentId) →
      IsAncestor s.db.parent parentId childId → ∃ s', step env s move = some s' ∧ ¬Acyclic s'.db.parent := by
  have hforest : Forest home s.db := by
    refine h.invariant (I := fun s => Forest home s.db) (forest_empty home) fun hu hok hs => ?_
    obtain ⟨-, rfl⟩ | ⟨t, hrun, -, -, rfl⟩ := step_cases hs
    · exact hu
    · exact hu.committed hok hrun
  refine ⟨hforest.acyclic, fun move childId parentId hmoves hanc => ?_⟩
  obtain ⟨s', hstep, hparent⟩ := parent_of_stepMoves hforest.stored hmoves
  refine ⟨s', hstep, ?_⟩
  rw [hparent]
  exact not_acyclic_update hanc

/-! ### Two jobs -/

/-- A create or a move of a node in organization 1, with the ancestors and the child_of edges that it expects. -/
def putUnder (nodeId : UUID) (absent : Bool) (parent : Option UUID) (ancestors parents : List UUID) : Move :=
  .once (.mutate ⟨1, nodeId, "task", 9, ⟨absent, 0⟩, 2, ⟨ancestors.map fun id => ⟨id, 0⟩,
    parents.map fun id => ⟨relChildOf, id, 0⟩, []⟩, none, .empty, parent, none, ⟨[], []⟩, none⟩)

/-- A node type that contains itself, and the chain 3 under 2 under 1. -/
def chainOfThree : List Move :=
  [.once (.setNodeType ⟨2, 1, "task", [], ["task"], [], [], ""⟩),
    .once (.setPropertyDef ⟨8, 1, "parent_id", .uuid, [], true, [], false, "", ""⟩), putUnder 1 true none [] [],
    putUnder 2 true (some 1) [1] [], putUnder 3 true (some 2) [2, 1] []]

/-- A subtree delete of node 2 begins. -/
def deleteTwo : Move := .once (.startSubtreeDelete ⟨7, 1, 2, 0, 9, [], 0, 0, Time.zero, Time.zero⟩)

/-- A check that is enough for an admissible call: moves go under nodes without parent. -/
def movesUnderRoots (s : State) (move : Move) : Bool :=
  match move.call with
  | .create _ | .update _ => false
  | .mutate plan => plan.orgId = 1
  | .deleteSubtreeStep _ =>
    (stepMoves .constant s move).all fun m => (s.db.parent m.2).isNone && m.2 != m.1
  | _ => true

theorem admissible_of_movesUnderRoots (s : State) (move : Move) (h : movesUnderRoots s move = true) :
    Admissible .constant (fun _ => 1) s move := by
  rw [movesUnderRoots] at h
  rw [Admissible]
  cases hcall : move.call with
  | create args => rw [hcall] at h; cases h
  | update args => rw [hcall] at h; cases h
  | mutate plan =>
    rw [hcall] at h
    exact of_decide_eq_true h
  | deleteSubtreeStep jobId =>
    rw [hcall] at h
    intro childId parentId hmoves
    simp only [hmoves, Option.all_some, Bool.and_eq_true, Option.isNone_iff_eq_none, bne_iff_ne] at h
    exact not_isAncestor_of_none h.1 h.2
  | _ => trivial

/-- A delete of node 2 moves node 3 under node 1, where no cycle can close, and the job goes on to delete node 2. -/
theorem parents_acyclic_after_move : ∃ s, Reach (step .constant) (Admissible .constant fun _ => 1) .init s ∧
    s.db.parent 3 = some 1 ∧ s.db.resolves.get 2 = none ∧ Acyclic s.db.parent := by
  obtain ⟨s, hreach, hrun⟩ := exists_reach_of_runChecked (step .constant) admissible_of_movesUnderRoots .init
    (chainOfThree ++ [deleteTwo, .once (.deleteSubtreeStep 7), .once (.deleteSubtreeStep 7)])
    (fun s => s.db.parent 3 = some 1 ∧ s.db.resolves.get 2 = none) (by decide +kernel)
  obtain ⟨hparent, hgone⟩ := of_decide_eq_true hrun
  exact ⟨s, hreach, hparent, hgone, (parents_acyclic .constant (fun _ => 1) hreach).1⟩

/-- A delete of node 2 starts and remembers the parent 1.  Then node 2 moves under node 4, which frees node 1 to move
under node 3.  The next step of the job moves node 3 under node 1. -/
def staleRootParent : List Move :=
  chainOfThree ++ [putUnder 4 true none [] [], deleteTwo, putUnder 2 false (some 4) [4] [1],
    putUnder 1 false (some 3) [3, 2, 4] [], .once (.deleteSubtreeStep 7)]

/-- A subtree delete closes a cycle: from the empty store, node 1 becomes the parent of its parent. -/
theorem subtree_delete_closes_cycle : ∃ s, Reach (step .constant) anyMove .init s ∧
    s.db.parent 1 = some 3 ∧ s.db.parent 3 = some 1 ∧ ¬Acyclic s.db.parent := by
  obtain ⟨s, hreach, hrun⟩ := exists_reach_of_run (step .constant) .init staleRootParent
    (fun s => s.db.parent 1 = some 3 ∧ s.db.parent 3 = some 1) (by decide +kernel)
  obtain ⟨hone, hthree⟩ := of_decide_eq_true hrun
  exact ⟨s, hreach, hone, hthree, fun hacyclic => hacyclic 1 (Relation.TransGen.tail (.single hone) hthree)⟩

end Tack.Nodes

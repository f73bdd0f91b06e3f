import Tack.Nodes.Mutation

/-!
# Subtree deletion

A subtree is deleted by a job in many transactions.  The job keeps the path from the root to the node that
the next step examines.  A step deletes the last node of the path when it has no hierarchy child, and
otherwise takes one child: a direct child of the root moves to the root's parent when its type allows,
every other child is put on the path.  A step reads at most a page of edges in each direction and clears
the edges that it passed.

## Main definitions

* `Nodes.startSubtreeDelete`, `Nodes.deleteSubtreeStep` — the transactions.
* `Nodes.decideStep` — what a step finds at the end of the path.
* `Nodes.Advanced` — the moves of a step, one constructor for each.

## Main results

* `Nodes.deleteSubtreeStep_ok` — the database and the changes after a step.
-/

namespace Tack.Nodes

open Lib

/-! ### What a step reads -/

def isHierarchyChild (db : Db) (job : SubtreeDeleteJob) (topId : UUID) (edge : RelKey)
    (source : HierarchyNode) : Except Refusal Bool :=
  if edge.relationType = relChildOf ∧ source.found = true ∧ source.id ∉ job.stack then
    hasHierarchyParent db job.orgId source topId
  else .ok false

/-- The source of the first edge that is a hierarchy child, and the edges before it. -/
def firstChild (db : Db) (job : SubtreeDeleteJob) (topId : UUID) :
    List (RelKey × HierarchyNode) → Except Refusal (Option HierarchyNode × List RelKey)
  | [] => .ok (none, [])
  | (edge, source) :: rest => do
    if ← isHierarchyChild db job topId edge source then return (some source, [])
    else
      let found ← firstChild db job topId rest
      return (found.1, edge :: found.2)

def findHierarchyChild (db : Db) (job : SubtreeDeleteJob) (topId : UUID) (edges : List RelKey) :
    Except Refusal (Option HierarchyNode × List RelKey) := do
  let sources ← readHierarchyNodes db job.orgId (edges.map RelKey.near)
  firstChild db job topId (edges.zip sources)

/-- What a step finds at the end of the path. -/
inductive Decision
  /-- The node does not exist any more. -/
  | pop
  /-- The node has a hierarchy child; the edges before the child's are cleared. -/
  | take (child : HierarchyNode) (others : List RelKey)
  /-- The node has no child among the edges of a page, and more edges than a page. -/
  | page (edges : List RelKey)
  /-- The node can be deleted. -/
  | delete (current : Node)

/-- The stored node, or one without properties when its record does not exist. -/
def topNode (db : Db) (job : SubtreeDeleteJob) (top : HierarchyNode) : Node :=
  (db.nodes.get ⟨job.orgId, top.typeKey, top.id⟩).getD
    ⟨top.id, job.orgId, top.typeKey, "", .empty, UUID.nil, UUID.nil, job.updatedAt, job.updatedAt⟩

def decideStep (db : Db) (job : SubtreeDeleteJob) (topId : UUID) : Except Refusal Decision := do
  let top ← readHierarchyNode db job.orgId topId
  if !top.found then return .pop
  else
    let incoming := readDeleteEdges db job.orgId topId "" true
    let outgoing := readDeleteEdges db job.orgId topId "" false
    let found ← findHierarchyChild db job topId (incoming.take maxDeleteEdgePage)
    match found.1 with
    | some child => return .take child found.2
    | none =>
      if incoming.length > maxDeleteEdgePage ∨ outgoing.length > maxDeleteEdgePage then
        return .page (found.2 ++ outgoing.take maxDeleteEdgePage)
      else return .delete (topNode db job top)

/-- What a step read before its decision. -/
inductive Decided (db : Db) (job : SubtreeDeleteJob) (topId : UUID) : Decision → Prop
  | pop {top : HierarchyNode} (read : readHierarchyNode db job.orgId topId = .ok top)
      (missing : top.found = false) : Decided db job topId .pop
  | take {top child : HierarchyNode} {others : List RelKey}
      (read : readHierarchyNode db job.orgId topId = .ok top) (found : top.found = true)
      (first : findHierarchyChild db job topId
        ((readDeleteEdges db job.orgId topId "" true).take maxDeleteEdgePage) = .ok (some child, others)) :
      Decided db job topId (.take child others)
  | page {top : HierarchyNode} {others : List RelKey}
      (read : readHierarchyNode db job.orgId topId = .ok top) (found : top.found = true)
      (first : findHierarchyChild db job topId
        ((readDeleteEdges db job.orgId topId "" true).take maxDeleteEdgePage) = .ok (none, others))
      (more : (readDeleteEdges db job.orgId topId "" true).length > maxDeleteEdgePage ∨
        (readDeleteEdges db job.orgId topId "" false).length > maxDeleteEdgePage) :
      Decided db job topId
        (.page (others ++ (readDeleteEdges db job.orgId topId "" false).take maxDeleteEdgePage))
  | delete {top : HierarchyNode} {others : List RelKey}
      (read : readHierarchyNode db job.orgId topId = .ok top) (found : top.found = true)
      (first : findHierarchyChild db job topId
        ((readDeleteEdges db job.orgId topId "" true).take maxDeleteEdgePage) = .ok (none, others))
      (fits : ¬((readDeleteEdges db job.orgId topId "" true).length > maxDeleteEdgePage ∨
        (readDeleteEdges db job.orgId topId "" false).length > maxDeleteEdgePage)) :
      Decided db job topId (.delete (topNode db job top))

variable {job : SubtreeDeleteJob} {current : Node} {edges : List RelKey} {u : Unit} {childId : UUID}

theorem decided_of_ok {db : Db} {topId : UUID} {decision : Decision}
    (h : decideStep db job topId = .ok decision) : Decided db job topId decision := by
  obtain ⟨top, hread, h⟩ := except_bind_ok.mp h
  cases hfound : top.found with
  | false =>
    rw [hfound] at h
    cases h
    exact .pop hread hfound
  | true =>
    rw [hfound] at h
    obtain ⟨⟨child, others⟩, hfirst, h⟩ := except_bind_ok.mp h
    cases child with
    | some child =>
      cases h
      exact .take hread hfound hfirst
    | none =>
      dsimp only at h
      by_cases hmore : (readDeleteEdges db job.orgId topId "" true).length > maxDeleteEdgePage ∨
          (readDeleteEdges db job.orgId topId "" false).length > maxDeleteEdgePage
      · rw [if_pos hmore] at h
        cases h
        exact .page hread hfound hfirst hmore
      · rw [if_neg hmore] at h
        cases h
        exact .delete hread hfound hfirst hmore

/-! ### Moving a child -/

def livesUnderKinds : Option NodeType → Option NodeType → Bool
  | some child, some parent => livesUnder child parent
  | _, _ => false

/-- The record and the child_of edges of a child that moves to the root's parent. -/
def readMove (db : Db) (job : SubtreeDeleteJob) (child : HierarchyNode) :
    Except Refusal (Option (Node × List RelKey)) :=
  if job.rootParentId = UUID.nil then .ok none
  else do
    let parent ← readHierarchyNode db job.orgId job.rootParentId
    if !parent.found || !livesUnderKinds child.kind parent.kind then return none
    else
      let edges := readDeleteEdges db job.orgId child.id relChildOf false
      if edges.length > maxDeleteEdgePage then return none
      else return (db.nodes.get ⟨job.orgId, child.typeKey, child.id⟩).map fun current => (current, edges)

/-- A child that moves is stored, its type lives under the type of the root's parent, and its child_of edges
fit in a page. -/
theorem readMove_some {db : Db} {child : HierarchyNode} (h : readMove db job child = .ok (some (current, edges))) :
    job.rootParentId ≠ UUID.nil ∧ db.nodes.get ⟨job.orgId, child.typeKey, child.id⟩ = some current ∧
      edges = readDeleteEdges db job.orgId child.id relChildOf false ∧ edges.length ≤ maxDeleteEdgePage ∧
      ∃ parent, readHierarchyNode db job.orgId job.rootParentId = .ok parent ∧ parent.found = true ∧
        livesUnderKinds child.kind parent.kind = true := by
  rw [readMove] at h
  split_ifs at h with hnil
  · cases h
  obtain ⟨parent, hparent, h⟩ := except_bind_ok.mp h
  dsimp only at h
  by_cases hstays : (!parent.found || !livesUnderKinds child.kind parent.kind) = true
  · rw [if_pos hstays] at h
    cases h
  by_cases hmany : (readDeleteEdges db job.orgId child.id relChildOf false).length > maxDeleteEdgePage
  · rw [if_neg hstays, if_pos hmany] at h
    cases h
  rw [if_neg hstays, if_neg hmany] at h
  obtain ⟨found, hget, heq⟩ := Option.map_eq_some_iff.mp (Except.ok.inj h)
  cases heq
  simp only [Bool.or_eq_true, Bool.not_eq_true', not_or, Bool.not_eq_false] at hstays
  exact ⟨hnil, hget, rfl, not_lt.mp hmany, parent, hparent, hstays.1, hstays.2⟩

/-- Moves the index entry of parent_id when the old value has one. -/
def moveParentIndexEntry (index : PropIndex) (current : Node) (oldValue : RawMessage) : PropIndex :=
  let oldKey := nodeByPropertyKey current parentIDProperty oldValue
  if oldValue = "" ∨ index.get oldKey = none then index
  else (index.erase oldKey).set
    (nodeByPropertyKey current parentIDProperty (current.prop parentIDProperty)) ()

/-- Every child_of edge of the child is removed, and one to the root's parent is added. -/
def parentEdgeChanges (job : SubtreeDeleteJob) (childId : UUID) (edges : List RelKey) (now : Time) :
    RelationshipChanges where
  remove := edges.map edgeRecord
  add := [⟨job.orgId, childId, relChildOf, job.rootParentId, job.actorId, now, .empty⟩]

/-- The record of a child that moved. -/
def movedNode (job : SubtreeDeleteJob) (current : Node) (now : Time) : Node :=
  { current with
    props := current.props.set parentIDProperty (quoteUUID job.rootParentId)
    updatedAt := now
    updatedBy := job.actorId }

def moveChild (env : Env) (job : SubtreeDeleteJob) (childId : UUID) (current : Node)
    (edges : List RelKey) (now : Time) : Step Unit := do
  let moved := movedNode job current now
  let strict ← fenceAttempt job.orgId childId
  let encoded ← writeNodeRecords moved
  record (nodeTarget moved) (some (.node current)) (some (.node encoded))
  writeDb fun db => { db with
    byProperty := moveParentIndexEntry db.byProperty moved (current.prop parentIDProperty) }
  applyRelationshipChanges [parentEdgeChanges job childId edges now]
  readDb fun db => checkStrictRecord env db strict moved

/-! ### The transactions -/

def SubtreeDeleteJob.push (job : SubtreeDeleteJob) (childId : UUID) : SubtreeDeleteJob :=
  { job with stack := childId :: job.stack }

/-- A direct child of the root moves when it can; every other child joins the path. -/
def takeChild (env : Env) (job : SubtreeDeleteJob) (child : HierarchyNode) (now : Time) :
    Step SubtreeDeleteJob := do
  let move ← readDb fun db => if job.stack.length = 1 then readMove db job child else .ok none
  match move with
  | some (current, edges) => do
    moveChild env job child.id current edges now
    return { job with moved := job.moved + 1 }
  | none => return job.push child.id

/-- Examines the last node of the path. -/
def advance (env : Env) (job : SubtreeDeleteJob) (now : Time) : Step SubtreeDeleteJob :=
  match job.stack with
  | [] => pure job
  | topId :: below => do
    let decision ← readDb fun db => decideStep db job topId
    match decision with
    | .pop => return { job with stack := below }
    | .take child others => do
      let job' ← takeChild env job child now
      clearDeleteEdges others
      return job'
    | .page edges => do
      clearDeleteEdges edges
      return job
    | .delete current => do
      let _ ← fenceAttempt job.orgId topId
      clearNode current
      return { job with stack := below, deleted := job.deleted + 1 }

structure SubtreeDeleteProgress where
  deleted : ℕ
  moved : ℕ
  done : Bool
  deriving DecidableEq

/-- The times that a step reads: one for a move and one for the job record. -/
structure StepTimes where
  moved : Time
  now : Time

/-- The job record that a step writes. -/
def SubtreeDeleteJob.stamped (job : SubtreeDeleteJob) (now : Time) : SubtreeDeleteJob :=
  { job with
    finishedAt := if job.stack = [] then now else job.finishedAt
    updatedAt := now }

/-- A step of a job that is not finished. -/
def runJob (env : Env) (job : SubtreeDeleteJob) (times : StepTimes) : Step SubtreeDeleteProgress := do
  let job' ← advance env job times.moved
  writeDb fun db => { db with jobs := db.jobs.set job'.id (job'.stamped times.now) }
  append job.orgId
  return ⟨job'.deleted, job'.moved, job'.stack.isEmpty⟩

def deleteSubtreeStep (env : Env) (jobId : UUID) (times : StepTimes) : Step SubtreeDeleteProgress := do
  startAttempt
  let job ← readDb fun db => .ok (db.jobs.get jobId)
  match job with
  | none => return ⟨0, 0, true⟩
  | some job => if job.finished then return ⟨job.deleted, job.moved, true⟩ else runJob env job times

/-- The hierarchy parent of the root, when it is a node of the organization. -/
def readRootParent (db : Db) (orgId rootId : UUID) : Except Refusal UUID :=
  let edges := readDeleteEdges db orgId rootId relChildOf false
  if edges = [] ∨ edges.length > maxDeleteEdgePage then .ok UUID.nil
  else match hierarchyParent none (edges.map RelKey.far) with
    | none => .error ⟨.noHierarchyParent, "read the hierarchy parent of deleted node"⟩
    | some parentId => do
      let parent ← readHierarchyNode db orgId parentId
      return if parent.found then parentId else UUID.nil

/-- The record of a job that starts. -/
def startedJob (job : SubtreeDeleteJob) (parentId : UUID) (now : Time) : SubtreeDeleteJob :=
  { job with
    rootParentId := parentId
    stack := [job.rootId]
    deleted := 0
    moved := 0
    updatedAt := now
    finishedAt := Time.zero }

/-- Starts a job; it records no changes. -/
def startSubtreeDelete (job : SubtreeDeleteJob) (now : Time) : Step Unit := do
  startAttempt
  let parentId ← readDb fun db => readRootParent db job.orgId job.rootId
  writeDb fun db => { db with jobs := db.jobs.set job.id (startedJob job parentId now) }

/-! ### What a transaction that succeeded did -/

variable {env : Env} {s s' : Attempt} {now : Time}

theorem startSubtreeDelete_ok (h : startSubtreeDelete job now s = .ok u s') :
    ∃ parentId, readRootParent s.db job.orgId job.rootId = .ok parentId ∧
      s' = ⟨{ s.db with jobs := s.db.jobs.set job.id (startedJob job parentId now) }, []⟩ := by
  obtain ⟨parentId, hparent, h⟩ := readDb_bind.mp (startAttempt_bind.mp h)
  exact ⟨parentId, hparent, writeDb_ok.mp h⟩

/-- What a move did. -/
structure MoveSpec (env : Env) (job : SubtreeDeleteJob) (childId : UUID) (current : Node)
    (edges : List RelKey) (now : Time) (s s' : Attempt) (stored : Node) (moved : Edges)
    (edgeChanges : List Change) : Prop where
  marshalled : (movedNode job current now).marshalled = some stored
  edgesChanged : EdgesChanged s.db.edges [parentEdgeChanges job childId edges now] moved edgeChanges
  strict : checkStrictRecord env s'.db s.db.strict (movedNode job current now) = .ok ()
  valid : current = stored ∨ (nodeTarget current).valid
  db : s'.db = { (s.db.fence job.orgId childId).putNode stored with
    byProperty := moveParentIndexEntry s.db.byProperty (movedNode job current now)
      (current.prop parentIDProperty)
    edges := moved }
  changes : s'.changes = s.changes ++ changeOf (nodeTarget current) (some (.node current))
    (some (.node stored)) ++ edgeChanges

theorem MoveSpec.put {stored : Node} {moved : Edges} {edgeChanges : List Change}
    (h : MoveSpec env job childId current edges now s s' stored moved edgeChanges) : s.db.Put s'.db stored := by
  constructor <;> rw [h.db] <;> rfl

theorem moveChild_ok (h : moveChild env job childId current edges now s = .ok u s') :
    ∃ stored moved edgeChanges,
      MoveSpec env job childId current edges now s s' stored moved edgeChanges := by
  have h := fenceAttempt_bind.mp h
  obtain ⟨stored, hmarshal, h⟩ := writeNodeRecords_bind.mp h
  obtain ⟨hvalid, h⟩ := record_bind.mp h
  obtain ⟨_, _, hedges, h⟩ := Tx.bind_ok.mp (writeDb_bind.mp h)
  obtain ⟨moved, edgeChanges, hmoved, rfl⟩ := applyRelationshipChanges_ok hedges
  obtain ⟨hstrict, rfl⟩ := readDb_ok.mp h
  exact ⟨stored, moved, edgeChanges,
    { marshalled := hmarshal
      edgesChanged := hmoved
      strict := hstrict
      valid := hvalid.imp_left fun heq => Record.node.inj (Option.some.inj heq)
      db := rfl
      changes := rfl }⟩

/-- The attempt after edges were cleared. -/
def Attempt.clearEdges (s : Attempt) (edges : List RelKey) : Attempt :=
  ⟨{ s.db with edges := s.db.edges.dropAll edges },
    s.changes ++ removedChanges (s.db.edges.withValues (edges.map edgeRecord))⟩

theorem clearDeleteEdges_ok (h : clearDeleteEdges edges s = .ok u s') : s' = s.clearEdges edges := by
  obtain ⟨-, rfl⟩ := removeRelationships_ok.mp h
  have hkeys : (edges.map edgeRecord).map relationshipKey = edges := by
    rw [List.map_map]
    exact List.map_id _
  rw [hkeys]
  rfl

/-- `Advanced env job now s s' job'`: examining the end of the path leads from `s` to `s'` and from
`job` to `job'`. -/
inductive Advanced (env : Env) (job : SubtreeDeleteJob) (now : Time) (s : Attempt) :
    Attempt → SubtreeDeleteJob → Prop
  | idle (stack : job.stack = []) : Advanced env job now s s job
  | pop {topId : UUID} {below : List UUID} (stack : job.stack = topId :: below)
      (decision : decideStep s.db job topId = .ok .pop) :
      Advanced env job now s s { job with stack := below }
  | push {topId : UUID} {below : List UUID} {child : HierarchyNode} {others : List RelKey}
      (stack : job.stack = topId :: below)
      (decision : decideStep s.db job topId = .ok (.take child others))
      (stays : below ≠ [] ∨ readMove s.db job child = .ok none) :
      Advanced env job now s (s.clearEdges others) (job.push child.id)
  | move {topId : UUID} {child : HierarchyNode} {others : List RelKey} {current : Node}
      {edges : List RelKey} {t : Attempt} {stored : Node} {moved : Edges} {edgeChanges : List Change}
      (stack : job.stack = [topId])
      (decision : decideStep s.db job topId = .ok (.take child others))
      (read : readMove s.db job child = .ok (some (current, edges)))
      (spec : MoveSpec env job child.id current edges now s t stored moved edgeChanges) :
      Advanced env job now s (t.clearEdges others) { job with moved := job.moved + 1 }
  | page {topId : UUID} {below : List UUID} {edges : List RelKey} (stack : job.stack = topId :: below)
      (decision : decideStep s.db job topId = .ok (.page edges)) :
      Advanced env job now s (s.clearEdges edges) job
  | delete {topId : UUID} {below : List UUID} {current : Node} (stack : job.stack = topId :: below)
      (decision : decideStep s.db job topId = .ok (.delete current))
      (clearable : (s.db.fence job.orgId topId).Clearable current) :
      Advanced env job now s
        ⟨(s.db.fence job.orgId topId).clearedNode current, s.changes ++ s.db.clearedNodeChanges current⟩
        { job with stack := below, deleted := job.deleted + 1 }

theorem advance_ok {job' : SubtreeDeleteJob} (h : advance env job now s = .ok job' s') :
    Advanced env job now s s' job' := by
  unfold advance at h
  cases hstack : job.stack with
  | nil =>
    rw [hstack] at h
    obtain ⟨rfl, rfl⟩ := Tx.pure_ok.mp h
    exact .idle hstack
  | cons topId below =>
    rw [hstack] at h
    obtain ⟨decision, hdecision, h⟩ := readDb_bind.mp h
    cases decision with
    | pop =>
      obtain ⟨rfl, rfl⟩ := Tx.pure_ok.mp h
      exact .pop hstack hdecision
    | take child others =>
      obtain ⟨taken, _, htake, h⟩ := Tx.bind_ok.mp h
      obtain ⟨_, _, hclear, hreturn⟩ := Tx.bind_ok.mp h
      obtain ⟨rfl, rfl⟩ := Tx.pure_ok.mp hreturn
      obtain rfl := clearDeleteEdges_ok hclear
      obtain ⟨move, hmove, htake⟩ := readDb_bind.mp htake
      cases move with
      | none =>
        obtain ⟨rfl, rfl⟩ := Tx.pure_ok.mp htake
        refine .push hstack hdecision ?_
        rw [hstack, List.length_cons] at hmove
        split_ifs at hmove with hone
        · exact .inr hmove
        · refine .inl fun hnil => hone ?_
          rw [hnil, List.length_nil]
      | some moved =>
        obtain ⟨current, edges⟩ := moved
        obtain ⟨_, _, hmoved, hreturn⟩ := Tx.bind_ok.mp htake
        obtain ⟨rfl, rfl⟩ := Tx.pure_ok.mp hreturn
        obtain ⟨stored, edges', edgeChanges, hspec⟩ := moveChild_ok hmoved
        rw [hstack, List.length_cons] at hmove
        split_ifs at hmove with hone
        · have hbelow : below = [] := List.length_eq_zero_iff.mp (by omega)
          exact .move (hbelow ▸ hstack) hdecision hmove hspec
        · cases hmove
    | page edges =>
      obtain ⟨_, s₂, hclear, hreturn⟩ := Tx.bind_ok.mp h
      obtain ⟨rfl, rfl⟩ := Tx.pure_ok.mp hreturn
      obtain rfl := clearDeleteEdges_ok hclear
      exact .page hstack hdecision
    | delete current =>
      have h := fenceAttempt_bind.mp h
      obtain ⟨_, _, hclear, hreturn⟩ := Tx.bind_ok.mp h
      obtain ⟨rfl, rfl⟩ := Tx.pure_ok.mp hreturn
      obtain ⟨hclearable, rfl⟩ := clearNode_ok.mp hclear
      exact .delete hstack hdecision hclearable

/-- **What a step does**: nothing when the job is missing or finished, and otherwise it examines the
end of the path and writes the job. -/
theorem deleteSubtreeStep_ok {jobId : UUID} {times : StepTimes} {progress : SubtreeDeleteProgress}
    (h : deleteSubtreeStep env jobId times s = .ok progress s') :
    s' = ⟨s.db, []⟩ ∧ progress.done = true ∧ (∀ job, s.db.jobs.get jobId = some job → job.finished = true) ∨
      ∃ job job' t, s.db.jobs.get jobId = some job ∧ job.finished = false ∧
        Advanced env job times.moved ⟨s.db, []⟩ t job' ∧
        s' = ⟨{ t.db with jobs := t.db.jobs.set job'.id (job'.stamped times.now) }, t.changes⟩ ∧
        progress = ⟨job'.deleted, job'.moved, job'.stack.isEmpty⟩ := by
  have h := getDb_bind.mp (startAttempt_bind.mp h)
  cases hjob : s.db.jobs.get jobId with
  | none =>
    rw [hjob] at h
    obtain ⟨rfl, rfl⟩ := Tx.pure_ok.mp h
    exact .inl ⟨rfl, rfl, by simp⟩
  | some job =>
    rw [hjob] at h
    dsimp only at h
    by_cases hfinished : job.finished = true
    · rw [if_pos hfinished] at h
      obtain ⟨rfl, rfl⟩ := Tx.pure_ok.mp h
      refine .inl ⟨rfl, rfl, fun other hother => ?_⟩
      rwa [← Option.some.inj hother]
    · rw [if_neg hfinished] at h
      obtain ⟨job', t, hadvance, h⟩ := Tx.bind_ok.mp h
      obtain ⟨_, _, happend, hreturn⟩ := Tx.bind_ok.mp (writeDb_bind.mp h)
      obtain ⟨-, rfl⟩ := append_ok.mp happend
      obtain ⟨rfl, rfl⟩ := Tx.pure_ok.mp hreturn
      exact .inr ⟨job, job', t, rfl, by simpa using hfinished, advance_ok hadvance, rfl, rfl⟩

end Tack.Nodes

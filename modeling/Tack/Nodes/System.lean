import Tack.Lib.Run
import Tack.Nodes.Activation

/-!
# Runs of the node store

The calls of the node store, each a transaction that runs in attempts until one of them commits or
refuses, and the states that any interleaving of calls leads to.  Attempts share memory: what an
aborted attempt recorded is still there when the next one starts.

## Main definitions

* `Nodes.Call` — the calls, and `Nodes.Call.attempt`, one attempt of a call.
* `Nodes.runCall` — a call whose last attempt ends, after any number of aborted ones.
* `Nodes.step` — the committed database after a call.
* `Nodes.Committed` — what a call that committed did, one constructor for each outcome.

## Main results

* `Nodes.runCall_ok` — aborted attempts leave nothing behind.
* `Nodes.committed_of_attempt`, `Nodes.step_cases` — a call that commits did what its own
  specification says, and every other call changes nothing.
-/

namespace Tack.Nodes

open Lib

/-- A call of the store.  A deletion carries the node that it read before its transaction. -/
inductive Call
  | create (args : CreateArgs)
  | update (args : UpdateArgs)
  | mutate (plan : MutationPlan)
  | delete (orgId nodeId : UUID) (current : Node)
  | deleteNode (plan : DeletionPlan)
  | setReferences (orgId nodeId : UUID) (keys : List ReferenceKey)
  | addRelationship (rel : Relationship) (memberTarget : Bool)
  | removeRelationship (orgId sourceId : UUID) (relationType : String) (targetId : UUID)
  | startSubtreeDelete (job : SubtreeDeleteJob)
  | deleteSubtreeStep (jobId : UUID)
  | setNodeType (nodeType : NodeType)
  | deleteNodeType (orgId typeId : UUID)
  | replaceNodeType (before after : NodeType)
  | setPropertyDef (definition : PropertyDef)
  | deletePropertyDef (orgId definitionId : UUID)
  | replacePropertyDef (before after : PropertyDef)
  | activateStrict (evidence : StrictEvidence) (activation : StrictActivation)

/-- One attempt of a call; every attempt reads the clock itself. -/
def Call.attempt (env : Env) (times : StepTimes) : Call → Step Unit
  | create args => createAtomic env args
  | update args => updateAtomic env args
  | mutate plan => applyMutation env plan times.now
  | delete orgId nodeId current => deleteRead orgId nodeId current
  | deleteNode plan => Nodes.deleteNode env plan
  | setReferences orgId nodeId keys => setReferenceKeys orgId nodeId keys
  | addRelationship rel memberTarget => Nodes.addRelationship rel memberTarget
  | removeRelationship orgId sourceId relationType targetId =>
    Nodes.removeRelationship orgId sourceId relationType targetId
  | startSubtreeDelete job => Nodes.startSubtreeDelete job times.now
  | deleteSubtreeStep jobId => do
    let _ ← Nodes.deleteSubtreeStep env jobId times
  | setNodeType nodeType => Nodes.setNodeType nodeType
  | deleteNodeType orgId typeId => Nodes.deleteNodeType orgId typeId
  | replaceNodeType before after => Nodes.replaceNodeType before after
  | setPropertyDef definition => Nodes.setPropertyDef definition
  | deletePropertyDef orgId definitionId => Nodes.deletePropertyDef orgId definitionId
  | replacePropertyDef before after => Nodes.replacePropertyDef before after
  | activateStrict evidence activation => Nodes.activateStrict evidence activation

/-- The calls that write node types and property definitions. -/
def Call.writesSchema : Call → Bool
  | setNodeType .. | deleteNodeType .. | replaceNodeType .. => true
  | setPropertyDef .. | deletePropertyDef .. | replacePropertyDef .. => true
  | _ => false

/-- The recorded changes that an aborted attempt leaves in memory. -/
def leftover (attempt : Step Unit) (changes : List Change) (db : Db) : List Change :=
  match attempt ⟨db, changes⟩ with
  | .ok _ s => s.changes
  | .error _ s => s.changes

/-- A call with the databases and times of its aborted attempts and the times of its last one. -/
structure Move where
  call : Call
  aborted : List (StepTimes × Db)
  times : StepTimes

/-- The last attempt of a call: the database and the changes that it commits. -/
def runCall (env : Env) (move : Move) (db : Db) : Except Refusal Attempt :=
  let left := move.aborted.foldl
    (fun changes a => leftover (move.call.attempt env a.1) changes a.2) []
  match move.call.attempt env move.times ⟨db, left⟩ with
  | .ok _ s => .ok s
  | .error refusal _ => .error refusal

/-- The committed database and the ones before it. -/
structure State where
  db : Db
  past : List Db

def State.init : State := ⟨.empty, []⟩

/-- A deletion read its node from the committed database at some time. -/
def State.enabled (s : State) : Call → Bool
  | .delete orgId nodeId current => (s.db :: s.past).any fun db => db.getNode orgId nodeId = some current
  | _ => true

/-- The state after a call: a refused call changes nothing. -/
def step (env : Env) (s : State) (move : Move) : Option State :=
  if s.enabled move.call then
    match runCall env move s.db with
    | .ok t => some ⟨t.db, s.db :: s.past⟩
    | .error _ => some s
  else none

/-- The call of one attempt at time zero. -/
def Move.once (call : Call) : Move := ⟨call, [], ⟨Time.zero, Time.zero⟩⟩

/-- An environment for runs whose outcome does not depend on digests. -/
def Env.constant : Env := ⟨fun _ => false, 0, fun _ => 0, fun _ => 0⟩

/-! ### What a call that committed did -/

variable {env : Env}

/-- Every attempt forgets what was recorded before it. -/
theorem Call.attempt_forgets (call : Call) (times : StepTimes) (db : Db) (changes : List Change) :
    call.attempt env times ⟨db, changes⟩ = call.attempt env times ⟨db, []⟩ := by
  cases call <;> rfl

variable {db : Db} {t : Attempt} {times : StepTimes} {call : Call}

/-- **Aborted attempts leave nothing behind.** -/
theorem runCall_ok {move : Move} :
    runCall env move db = .ok t ↔ move.call.attempt env move.times ⟨db, []⟩ = .ok () t := by
  rw [runCall, Call.attempt_forgets]
  cases h : move.call.attempt env move.times ⟨db, []⟩ with
  | ok u s => simp
  | error refusal s => simp

/-- A write of a node type or of a property definition. -/
inductive SchemaWritten (db : Db) : Db → Prop
  | nodeType (orgId typeId : UUID) (next : Option NodeType) : SchemaWritten db
      { db with
        nodeTypesByKey := updateNodeTypeIndex db.nodeTypesByKey orgId typeId
          (db.nodeTypes.get ⟨orgId, typeId⟩) next
        epochs := bumpMetadataEpoch db.epochs orgId (db.nodeTypes.get ⟨orgId, typeId⟩) next
        nodeTypes := putRecord db.nodeTypes ⟨orgId, typeId⟩ next }
  | propertyDef (orgId definitionId : UUID) (next : Option PropertyDef) : SchemaWritten db
      { db with
        epochs := bumpMetadataEpoch db.epochs orgId
          (db.propertyDefs.get ⟨orgId, definitionId⟩) next
        propertyDefs := putRecord db.propertyDefs ⟨orgId, definitionId⟩ next }

/-- What a call that committed did, one constructor for each outcome. -/
inductive Committed (env : Env) (times : StepTimes) (db : Db) : Call → Attempt → Prop
  | created {args : CreateArgs} {t : Attempt} {stored : Node} {refs : Refs}
      {written : List (Relationship × Option Relationship)}
      (spec : CreateSpec env args ⟨db, []⟩ t stored refs written) : Committed env times db (.create args) t
  | updated {args : UpdateArgs} {t : Attempt} {stored : Node} {refs : Refs} {edges : Edges}
      {edgeChanges : List Change}
      (spec : UpdateSpec env args ⟨db, []⟩ t stored refs edges edgeChanges) :
      Committed env times db (.update args) t
  | replayed {plan : MutationPlan} (existing : readCreateIdempotency db plan = .ok true) :
      Committed env times db (.mutate plan) ⟨db, []⟩
  | mutated {plan : MutationPlan} {t : Attempt} {checked : CheckedPlan} {stored : Node} {refs : Refs}
      {edges : Edges} {edgeChanges : List Change}
      (fresh : readCreateIdempotency db plan = .ok false)
      (spec : MutationSpec env plan times.now ⟨db, []⟩ t checked stored refs edges edgeChanges) :
      Committed env times db (.mutate plan) t
  | deletedRead {orgId nodeId : UUID} {current : Node}
      (clearable : (db.fence orgId nodeId).Clearable current) :
      Committed env times db (.delete orgId nodeId current)
        ⟨(db.fence orgId nodeId).clearedNode current, db.clearedNodeChanges current⟩
  | deletedNode {plan : DeletionPlan} {source : MutationSource} {incoming : List Relationship}
      {sources : List HierarchyNode} (spec : DeletionSpec env db plan source incoming sources)
      (checked : checkDeletion env db plan = .ok source.node)
      (clearable : (db.fence plan.orgId plan.nodeId).Clearable source.node) :
      Committed env times db (.deleteNode plan)
        ⟨(db.fence plan.orgId plan.nodeId).clearedNode source.node, db.clearedNodeChanges source.node⟩
  | referencesSet {orgId nodeId : UUID} {keys : List ReferenceKey} {refs : Refs}
      {nodeType : String} {changes : List Change}
      (written : db.refs.writeReferenceKeys orgId nodeId keys = .ok refs)
      (resolve : db.resolves.get nodeId = some ⟨orgId, nodeType⟩) :
      Committed env times db (.setReferences orgId nodeId keys)
        ⟨{ db.fence orgId nodeId with refs := refs }, changes⟩
  | related {rel : Relationship} {memberTarget : Bool}
      {written : List (Relationship × Option Relationship)}
      (marshalled : marshalAll (db.edges.withValues [rel]) = some written)
      (strict : checkStrictRelationship db db.strict rel memberTarget = .ok ())
      (valid : ∀ p ∈ written, p.2 = some p.1 ∨ (relationshipTarget p.1).valid) :
      Committed env times db (.addRelationship rel memberTarget)
        ⟨{ db.fence rel.orgId rel.sourceId with edges := db.edges.putAll (written.map Prod.fst) },
          addedChanges written⟩
  | unrelated {orgId sourceId targetId : UUID} {relationType : String}
      (allowed : refuseOnlyParentRemoval db orgId sourceId relationType targetId = .ok ()) :
      Committed env times db (.removeRelationship orgId sourceId relationType targetId)
        ⟨{ db.fence orgId sourceId with
            edges := db.edges.dropAll [⟨orgId, sourceId, relationType, targetId⟩] },
          removedChanges (db.edges.withValues [edgeRecord ⟨orgId, sourceId, relationType, targetId⟩])⟩
  | jobStarted {job : SubtreeDeleteJob} {parentId : UUID}
      (parent : readRootParent db job.orgId job.rootId = .ok parentId) :
      Committed env times db (.startSubtreeDelete job)
        ⟨{ db with jobs := db.jobs.set job.id (startedJob job parentId times.now) }, []⟩
  | jobIdle {jobId : UUID} (finished : ∀ job, db.jobs.get jobId = some job → job.finished = true) :
      Committed env times db (.deleteSubtreeStep jobId) ⟨db, []⟩
  | jobStepped {jobId : UUID} {job job' : SubtreeDeleteJob} {t : Attempt}
      (found : db.jobs.get jobId = some job) (unfinished : job.finished = false)
      (advanced : Advanced env job times.moved ⟨db, []⟩ t job') :
      Committed env times db (.deleteSubtreeStep jobId)
        ⟨{ t.db with jobs := t.db.jobs.set job'.id (job'.stamped times.now) }, t.changes⟩
  | schemaKept {call : Call} {changes : List Change} (schema : call.writesSchema = true) :
      Committed env times db call ⟨db, changes⟩
  | schemaWritten {call : Call} {db' : Db} {changes : List Change} (schema : call.writesSchema = true)
      (written : SchemaWritten db db') : Committed env times db call ⟨db', changes⟩
  | activated {evidence : StrictEvidence} {activation : StrictActivation}
      (inactive : db.strict = false)
      (unchanged : (evidence.compare (readStrictEvidence db)).empty = true) :
      Committed env times db (.activateStrict evidence activation)
        ⟨{ db with activation := some activation }, []⟩

/-- A write of a node type after a preparation that leaves the database alone. -/
theorem committed_of_writeNodeType {s : Attempt}
    {orgId typeId : UUID} {next : Option NodeType} {u : Unit} (hcall : call.writesSchema = true)
    (hdb : s.db = db) (h : writeNodeType orgId typeId next s = .ok u t) :
    Committed env times db call t := by
  subst hdb
  have hwritten : SchemaWritten s.db t.db := by
    rw [(writeNodeType_ok h).1]
    exact .nodeType orgId typeId next
  exact .schemaWritten hcall hwritten

theorem committed_of_writePropertyDef {s : Attempt}
    {orgId definitionId : UUID} {next : Option PropertyDef} {u : Unit} (hcall : call.writesSchema = true)
    (hdb : s.db = db) (h : writePropertyDef orgId definitionId next s = .ok u t) :
    Committed env times db call t := by
  subst hdb
  have hwritten : SchemaWritten s.db t.db := by
    rw [(writePropertyDef_ok h).1]
    exact .propertyDef orgId definitionId next
  exact .schemaWritten hcall hwritten

/-- **A call that commits did what its own specification says.** -/
theorem committed_of_attempt (h : call.attempt env times ⟨db, []⟩ = .ok () t) : Committed env times db call t := by
  cases call with
  | create args =>
    obtain ⟨stored, refs, written, hspec⟩ := createAtomic_ok h
    exact .created hspec
  | update args =>
    obtain ⟨stored, refs, edges, edgeChanges, hspec⟩ := updateAtomic_ok h
    exact .updated hspec
  | mutate plan =>
    obtain ⟨hexisting, rfl⟩ | ⟨hfresh, checked, stored, refs, edges, edgeChanges, hspec⟩ :=
      applyMutation_ok h
    · exact .replayed hexisting
    · exact .mutated hfresh hspec
  | delete orgId nodeId current =>
    obtain ⟨hclearable, rfl⟩ := deleteRead_ok h
    exact .deletedRead hclearable
  | deleteNode plan =>
    obtain ⟨source, incoming, sources, hspec, hchecked, hclearable, rfl⟩ := deleteNode_ok h
    exact .deletedNode hspec hchecked hclearable
  | setReferences orgId nodeId keys =>
    obtain ⟨refs, nodeType, hrefs, hresolve, hdb, -⟩ := setReferenceKeys_ok h
    obtain ⟨db', changes⟩ := t
    obtain rfl : db' = _ := hdb
    exact .referencesSet hrefs hresolve
  | addRelationship rel memberTarget =>
    obtain ⟨written, hwritten, hstrict, hvalid, rfl⟩ := addRelationship_ok h
    exact .related hwritten hstrict hvalid
  | removeRelationship orgId sourceId relationType targetId =>
    obtain ⟨hallowed, rfl⟩ := removeRelationship_ok h
    exact .unrelated hallowed
  | startSubtreeDelete job =>
    obtain ⟨parentId, hparent, rfl⟩ := startSubtreeDelete_ok h
    exact .jobStarted hparent
  | deleteSubtreeStep jobId =>
    obtain ⟨progress, s, hstep, hreturn⟩ := Tx.bind_ok.mp h
    obtain ⟨-, rfl⟩ := Tx.pure_ok.mp hreturn
    obtain ⟨rfl, -, hfinished⟩ | ⟨job, job', t, hjob, hunfinished, hadvanced, rfl, -⟩ :=
      deleteSubtreeStep_ok hstep
    · exact .jobIdle hfinished
    · exact .jobStepped hjob hunfinished hadvanced
  | setNodeType nodeType => exact committed_of_writeNodeType rfl rfl h
  | deleteNodeType orgId typeId => exact committed_of_writeNodeType rfl rfl h
  | replaceNodeType before after =>
    obtain rfl | ⟨s, hdb, hwrite⟩ := replaceNodeType_ok h
    · exact .schemaKept rfl
    · exact committed_of_writeNodeType rfl hdb hwrite
  | setPropertyDef definition =>
    obtain ⟨s, hdb, hwrite⟩ := setPropertyDef_ok h
    exact committed_of_writePropertyDef rfl hdb hwrite
  | deletePropertyDef orgId definitionId => exact committed_of_writePropertyDef rfl rfl h
  | replacePropertyDef before after =>
    obtain rfl | ⟨s, hdb, hwrite⟩ := replacePropertyDef_ok h
    · exact .schemaKept rfl
    · exact committed_of_writePropertyDef rfl hdb hwrite
  | activateStrict evidence activation =>
    obtain ⟨hinactive, hunchanged, rfl⟩ := activateStrict_ok h
    exact .activated hinactive hunchanged

/-- What a call can do to the records of nodes. -/
inductive RecordsChanged (db db' : Db) : Prop
  | kept (nodes : db'.nodes = db.nodes) (resolves : db'.resolves = db.resolves)
  | put (current stored : Node) (marshalled : current.marshalled = some stored)
      (nodes : db'.nodes = db.nodes.set (nodeInstanceKey stored) stored)
      (resolves : db'.resolves = db.resolves.set stored.id ⟨stored.orgId, stored.nodeType⟩)
  | cleared (current : Node) (nodes : db'.nodes = db.nodes.erase (nodeInstanceKey current))
      (resolves : db'.resolves = db.resolves.erase current.id)
      (edges : db'.edges =
        (db.edges.clearSource current.orgId current.id).clearTarget current.orgId current.id)
      (refs : db'.refs = db.refs.clearReferenceKeys current.orgId current.id)

/-- **A call writes the records of one node, or clears one node, or leaves the records alone.** -/
theorem recordsChanged_of_committed (h : Committed env times db call t) : RecordsChanged db t.db := by
  cases h with
  | created spec => exact .put _ _ spec.marshalled spec.put.nodes spec.put.resolves
  | updated spec => exact .put _ _ spec.marshalled spec.put.nodes spec.put.resolves
  | mutated fresh spec => exact .put _ _ spec.marshalled spec.put.nodes spec.put.resolves
  | @deletedRead orgId nodeId current => exact .cleared current rfl rfl rfl rfl
  | @deletedNode plan source => exact .cleared source.node rfl rfl rfl rfl
  | jobStepped found unfinished advanced =>
    cases advanced with
    | move stack decision read spec => exact .put _ _ spec.marshalled spec.put.nodes spec.put.resolves
    | @delete topId below current => exact .cleared current rfl rfl rfl rfl
    | _ => exact .kept rfl rfl
  | schemaWritten schema written => cases written <;> exact .kept rfl rfl
  | _ => exact .kept rfl rfl

/-- **A step**: a call that was refused changes nothing, and any other one committed. -/
theorem step_cases {s s' : State} {move : Move} (h : step env s move = some s') :
    (∃ refusal, runCall env move s.db = .error refusal) ∧ s' = s ∨
      ∃ t, runCall env move s.db = .ok t ∧ s.enabled move.call = true ∧
        Committed env move.times s.db move.call t ∧ s' = ⟨t.db, s.db :: s.past⟩ := by
  rw [step] at h
  split_ifs at h with henabled
  cases hrun : runCall env move s.db with
  | error refusal =>
    rw [hrun] at h
    cases h
    exact .inl ⟨⟨refusal, rfl⟩, rfl⟩
  | ok t =>
    rw [hrun] at h
    cases h
    exact .inr ⟨t, rfl, henabled, committed_of_attempt (runCall_ok.mp hrun), rfl⟩

/-- The invariant rule for runs of calls. -/
theorem invariant_of_committed {ok : State → Move → Prop} {I : Db → Prop} {s s' : State}
    (h0 : I s.db) (hstep : ∀ {u : State} {move t}, I u.db → ok u move →
      Committed env move.times u.db move.call t → I t.db)
    (h : Reach (step env) ok s s') : I s'.db := by
  refine h.invariant (I := fun s => I s.db) h0 fun hu hok hs => ?_
  obtain ⟨-, rfl⟩ | ⟨t, -, -, hcommitted, rfl⟩ := step_cases hs
  · exact hu
  · exact hstep hu hok hcommitted

end Tack.Nodes

import Tack.Lib.Run
import Tack.Nodes.ChangedOnce

/-!
# The IDs of change events

A change event is identified by a name-based UUID: the base of its call, the kind of the change and the
record that changed.  A call makes its base before its first transaction, and all steps of a subtree
delete job share the base that the operation and the job give.  The ledger keeps one row for each ID.

## Main definitions

* `Nodes.EventId` — IDs as they are made, so that two of them are equal only when they are made alike.
* `Nodes.eventID`, `Nodes.targetKey`.
* `Nodes.AuditState`, `Nodes.auditStep` — runs of calls with the change events that they commit.
* `Nodes.EventIdsDistinct` — events with one ID are one event.
* `Nodes.KeepsIdsDistinct` — the condition on a transaction: what its caller lists, what its call committed
  before, and what is there again that its job changed before.

## Main results

* `Nodes.eventID_inj` — an ID determines its base, the kind of the change and the record.
* `Nodes.event_ids_distinct` — the IDs stay distinct as long as every transaction meets the condition.
* `Nodes.event_ids_repeat` — a record that another call restores between two steps of a job.

## References

`internal/adapters/foundationdb/audit_changes.go`, `node_delete_job.go` and `node_delete_step.go`.
-/

namespace Tack.Nodes

open Lib

/-! ### IDs -/

/-- An ID, by the way it is made. -/
inductive EventId
  /-- An ID that `uuid.NewV7` made; the numbers count its calls. -/
  | fresh (n : ℕ)
  /-- The ID of an operation. -/
  | operation (id : UUID)
  /-- `uuid.NewSHA1`. -/
  | name (space : EventId) (text : String)
  deriving DecidableEq

def targetKey : Target → String
  | .node nodeType id => "node:" ++ nodeType ++ ":" ++ id.text
  | .relationship sourceId relationType targetId =>
    "relationship:" ++ sourceId.text ++ ":" ++ relationType ++ ":" ++ targetId.text

def ChangeKind.text : ChangeKind → String
  | create => "create"
  | update => "update"
  | delete => "delete"

def eventID (base : EventId) (change : Change) : EventId :=
  .name base (change.kind.text ++ ":" ++ targetKey change.target)

/-- The base of the changes that a job's steps record. -/
def jobBase (operationId jobId : UUID) : EventId := .name (.operation operationId) ("job:" ++ jobId.text)

theorem ChangeKind.text_inj {kind kind' : ChangeKind} (h : kind.text = kind'.text) : kind = kind' := by
  cases kind <;> cases kind' <;> first | rfl | exact absurd h (by decide)

theorem ChangeKind.length_text (kind : ChangeKind) : kind.text.toList.length = 6 := by
  cases kind <;> rfl

theorem targetKey_injective : Function.Injective targetKey := by
  intro target target' h
  have hlist := congrArg String.toList h
  cases target with
  | node nodeType id =>
    cases target' with
    | node nodeType' id' =>
      simp only [targetKey, String.toList_append, List.append_assoc] at hlist
      have hrest := List.append_cancel_left hlist
      obtain ⟨htype, hid⟩ := List.append_inj' hrest (by simp [UUID.length_text])
      rw [String.toList_inj.mp htype, UUID.text_injective (String.toList_inj.mp (List.append_cancel_left hid))]
    | relationship sourceId relationType targetId =>
      simp [targetKey] at hlist
  | relationship sourceId relationType targetId =>
    cases target' with
    | node nodeType' id' => simp [targetKey] at hlist
    | relationship sourceId' relationType' targetId' =>
      simp only [targetKey, String.toList_append, List.append_assoc] at hlist
      have hrest := List.append_cancel_left hlist
      obtain ⟨hsource, hrest⟩ := List.append_inj hrest (by simp [UUID.length_text])
      obtain ⟨htype, htarget⟩ := List.append_inj' (List.append_cancel_left hrest) (by simp [UUID.length_text])
      rw [UUID.text_injective (String.toList_inj.mp hsource), String.toList_inj.mp htype,
        UUID.text_injective (String.toList_inj.mp (List.append_cancel_left htarget))]

/-- **An ID determines its base, the kind of the change and the record.** -/
theorem eventID_inj {base base' : EventId} {change change' : Change} :
    eventID base change = eventID base' change' ↔
      base = base' ∧ change.kind = change'.kind ∧ change.target = change'.target := by
  constructor
  · intro h
    obtain ⟨hbase, htext⟩ := EventId.name.inj h
    have hlist := congrArg String.toList htext
    simp only [String.toList_append, List.append_assoc] at hlist
    obtain ⟨hkind, hrest⟩ := List.append_inj hlist (by simp only [ChangeKind.length_text])
    exact ⟨hbase, ChangeKind.text_inj (String.toList_inj.mp hkind),
      targetKey_injective (String.toList_inj.mp (List.append_cancel_left hrest))⟩
  · rintro ⟨rfl, hkind, htarget⟩
    rw [eventID, eventID, hkind, htarget]

theorem jobBase_inj {operationId operationId' jobId jobId' : UUID} :
    jobBase operationId jobId = jobBase operationId' jobId' ↔
      operationId = operationId' ∧ jobId = jobId' := by
  constructor
  · intro h
    obtain ⟨hoperation, htext⟩ := EventId.name.inj h
    have hlist := congrArg String.toList htext
    simp only [String.toList_append] at hlist
    exact ⟨EventId.operation.inj hoperation,
      UUID.text_injective (String.toList_inj.mp (List.append_cancel_left hlist))⟩
  · rintro ⟨rfl, rfl⟩
    rfl

/-! ### Runs of calls with their change events -/

/-- Where a change comes from: a call, or a job with the operation that started it. -/
inductive Origin
  | call (i : ℕ)
  | job (operationId jobId : UUID)
  deriving DecidableEq

def Origin.base : Origin → EventId
  | call i => .fresh i
  | job operationId jobId => jobBase operationId jobId

theorem Origin.base_injective : Function.Injective Origin.base := by
  intro origin origin' h
  cases origin with
  | call i =>
    cases origin' with
    | call i' => exact congrArg Origin.call (EventId.fresh.inj h)
    | job operationId jobId => cases h
  | job operationId jobId =>
    cases origin' with
    | call i => cases h
    | job operationId' jobId' =>
      obtain ⟨rfl, rfl⟩ := jobBase_inj.mp h
      rfl

/-- A change event of a committed transaction. -/
structure AuditEntry where
  /-- The number of the transaction. -/
  commit : ℕ
  origin : Origin
  change : Change
  deriving DecidableEq

def AuditEntry.id (e : AuditEntry) : EventId := eventID e.origin.base e.change

structure AuditState where
  store : State
  /-- The calls so far with the operation of each. -/
  calls : List (Call × UUID)
  /-- The operation that the record of a job holds. -/
  operations : Table UUID UUID
  commits : ℕ
  log : List AuditEntry

def AuditState.init : AuditState := ⟨.init, [], .empty, 0, []⟩

/-- The job that a call starts. -/
def Call.startedJobId : Call → Option UUID
  | startSubtreeDelete job => some job.id
  | _ => none

/-- A call begins, or a transaction of it commits or is refused.  A call that did not learn that its
transaction committed runs it again. -/
inductive AuditMove
  | begin (call : Call) (operationId : UUID)
  | transact (i : ℕ) (aborted : List (StepTimes × Db)) (times : StepTimes)

/-- The recorder of a call: its own, or the one of the job that it advances. -/
def AuditState.origin (s : AuditState) (i : ℕ) : Call → Origin
  | .deleteSubtreeStep jobId => .job ((s.operations.get jobId).getD UUID.nil) jobId
  | _ => .call i

/-- The operations of jobs after a call committed. -/
def AuditState.withOperation (s : AuditState) (call : Call) (operationId : UUID) : Table UUID UUID :=
  match call.startedJobId with
  | some jobId => s.operations.set jobId operationId
  | none => s.operations

/-- The state after a transaction of a call committed. -/
def AuditState.committed (s : AuditState) (i : ℕ) (call : Call) (operationId : UUID) (t : Attempt) :
    AuditState :=
  { s with
    store := ⟨t.db, s.store.db :: s.store.past⟩
    operations := s.withOperation call operationId
    commits := s.commits + 1
    log := s.log ++ t.changes.map (AuditEntry.mk s.commits (s.origin i call)) }

/-- The state after a transaction of a call. -/
def AuditState.transact (env : Env) (s : AuditState) (i : ℕ) (call : Call) (operationId : UUID)
    (aborted : List (StepTimes × Db)) (times : StepTimes) : AuditState :=
  match runCall env ⟨call, aborted, times⟩ s.store.db with
  | .error _ => s
  | .ok t => s.committed i call operationId t

/-- A step of a run.  Two starts of jobs differ in the job or in the operation. -/
def auditStep (env : Env) (s : AuditState) : AuditMove → Option AuditState
  | .begin call operationId =>
    if call.startedJobId ≠ none ∧
        s.calls.any fun c => c.1.startedJobId = call.startedJobId && c.2 = operationId then none
    else some { s with calls := s.calls ++ [(call, operationId)] }
  | .transact i aborted times => s.calls[i]?.bind fun c =>
    if s.store.enabled c.1 then some (s.transact env i c.1 c.2 aborted times) else none

/-! ### Every run -/

/-- Events with one ID are one event: they are of one transaction and describe the same change. -/
def EventIdsDistinct (s : AuditState) : Prop :=
  ∀ e ∈ s.log, ∀ e' ∈ s.log, e.id = e'.id → e.commit = e'.commit ∧ e.change = e'.change

/-- The next step of the job can make the change again: a record that was deleted is stored again next to the node
at the end of the path, or a child that was moved away from that node is under it again. -/
def Db.restored (db : Db) (jobId : UUID) (change : Change) : Bool :=
  (db.jobs.get jobId).any fun job => job.stack.head?.any fun topId =>
    db.inReach job.orgId topId change.kind change.target

/-- Nothing that a step of the job changed is restored. -/
def AuditState.NothingRestored (s : AuditState) (i : ℕ) (jobId : UUID) : Prop :=
  ∀ e ∈ s.log, e.origin = s.origin i (.deleteSubtreeStep jobId) → s.store.db.restored jobId e.change = false

/-- The call has not committed a change yet: it does not run again after a commit that it did not learn of. -/
def AuditState.NotRerun (s : AuditState) (i : ℕ) : Prop := ∀ e ∈ s.log, e.origin ≠ .call i

/-- The job that a call advances. -/
def Call.steppedJobId : Call → Option UUID
  | deleteSubtreeStep jobId => some jobId
  | _ => none

/-- What a call may find when it runs a transaction. -/
def AuditState.Unrepeated (s : AuditState) (i : ℕ) (call : Call) : Prop :=
  match call.steppedJobId with
  | some jobId => s.NothingRestored i jobId
  | none => s.NotRerun i

/-- The caller lists each relationship with one value, and the call or its job does not find again what it changed
before. -/
def KeepsIdsDistinct (s : AuditState) : AuditMove → Prop
  | .begin _ _ => True
  | .transact i _ _ => ∀ c ∈ s.calls[i]?, c.1.ListsOnce ∧ s.Unrepeated i c.1

instance (s : AuditState) (i : ℕ) (call : Call) : Decidable (s.Unrepeated i call) := by
  unfold AuditState.Unrepeated AuditState.NothingRestored AuditState.NotRerun
  cases call.steppedJobId <;> infer_instance

instance (s : AuditState) (move : AuditMove) : Decidable (KeepsIdsDistinct s move) := by
  cases move <;> unfold KeepsIdsDistinct <;> infer_instance

section Runs

variable {env : Env} {s s' : AuditState}

theorem AuditEntry.id_eq_iff {e e' : AuditEntry} :
    e.id = e'.id ↔ e.origin = e'.origin ∧ e.change.SameWay e'.change := by
  rw [AuditEntry.id, AuditEntry.id, eventID_inj, Origin.base_injective.eq_iff]
  rfl

/-- A step adds a call, or changes nothing, or commits a transaction. -/
theorem auditStep_cases {move : AuditMove} (h : auditStep env s move = some s') :
    (s'.log = s.log ∧ s'.commits = s.commits ∧ s'.store = s.store) ∨
      ∃ i aborted times call operationId t, move = .transact i aborted times ∧
        s.calls[i]? = some (call, operationId) ∧
        runCall env ⟨call, aborted, times⟩ s.store.db = .ok t ∧ s' = s.committed i call operationId t := by
  cases move with
  | begin call operationId =>
    rw [auditStep] at h
    split_ifs at h
    cases h
    exact .inl ⟨rfl, rfl, rfl⟩
  | transact i aborted times =>
    obtain ⟨⟨call, operationId⟩, hcall, h⟩ := Option.bind_eq_some_iff.mp h
    split_ifs at h
    cases h
    rw [AuditState.transact]
    cases hrun : runCall env ⟨call, aborted, times⟩ s.store.db with
    | error refusal => exact .inl ⟨rfl, rfl, rfl⟩
    | ok t => exact .inr ⟨i, aborted, times, call, operationId, t, rfl, hcall, hrun, rfl⟩

/-- What holds in every state of a run. -/
structure AuditState.Sound (s : AuditState) : Prop where
  /-- The entries of the log are of earlier transactions. -/
  numbered : ∀ e ∈ s.log, e.commit < s.commits
  stored : WellStored s.store.db
  symmetric : s.store.db.edges.Symmetric

theorem AuditState.Sound.step {move : AuditMove} (hs : s.Sound) (h : auditStep env s move = some s') : s'.Sound := by
  obtain ⟨hlog, hcommits, hstore⟩ | ⟨i, aborted, times, call, operationId, t, -, -, hrun, rfl⟩ := auditStep_cases h
  · exact ⟨by rw [hlog, hcommits]; exact hs.numbered, by rw [hstore]; exact hs.stored,
      by rw [hstore]; exact hs.symmetric⟩
  · have hcommitted := committed_of_attempt (runCall_ok.mp hrun)
    refine ⟨fun e he => ?_, wellStored_of_committed hcommitted hs.stored, symmetric_of_committed hcommitted hs.symmetric⟩
    obtain he | he := List.mem_append.mp he
    · exact (hs.numbered e he).trans (Nat.lt_succ_self _)
    · obtain ⟨c, -, rfl⟩ := List.mem_map.mp he
      exact Nat.lt_succ_self _

/-- **No transaction repeats a change of its call or job**, when neither finds again what it changed before. -/
theorem not_sameWay_of_unrepeated (hs : s.Sound) {i : ℕ} {call : Call} {times : StepTimes} {t : Attempt}
    (h : call.attempt env times ⟨s.store.db, []⟩ = .ok () t) (hcall : s.Unrepeated i call) {e : AuditEntry}
    (he : e ∈ s.log) (horigin : e.origin = s.origin i call) {c : Change} (hc : c ∈ t.changes) :
    ¬e.change.SameWay c := by
  intro hsame
  cases call with
  | deleteSubtreeStep jobId =>
    obtain ⟨progress, s₁, hstep, hreturn⟩ := Tx.bind_ok.mp h
    obtain ⟨-, rfl⟩ := Tx.pure_ok.mp hreturn
    obtain ⟨rfl, -, -⟩ | ⟨job, job', t, hjob, -, hadvanced, rfl, -⟩ := deleteSubtreeStep_ok hstep
    · cases hc
    · obtain hnone | ⟨topId, htop, _, _, hstepped⟩ := stepped_of_advanced hs.stored hadvanced
      · rw [hnone] at hc
        cases hc
      · have hrestored : s.store.db.restored jobId e.change = false := hcall e he horigin
        rw [Db.restored, hjob, Option.any_some, htop, Option.any_some, hsame.1, hsame.2, (hstepped c hc).inReach]
          at hrestored
        cases hrestored
  | _ => exact hcall e he horigin

/-- A transaction that meets the condition keeps the IDs distinct. -/
theorem distinct_committed {i : ℕ} {call : Call} {operationId : UUID} {t : Attempt}
    {aborted : List (StepTimes × Db)} {times : StepTimes} (hs : s.Sound) (hdistinct : EventIdsDistinct s)
    (hrun : runCall env ⟨call, aborted, times⟩ s.store.db = .ok t) (hlists : call.ListsOnce)
    (hcall : s.Unrepeated i call) : EventIdsDistinct (s.committed i call operationId t) := by
  have hattempt := runCall_ok.mp hrun
  intro e he e' he' hid
  obtain ⟨horigin, hsame⟩ := AuditEntry.id_eq_iff.mp hid
  obtain he | he := List.mem_append.mp he <;> obtain he' | he' := List.mem_append.mp he'
  · exact hdistinct e he e' he' hid
  · obtain ⟨c, hc, rfl⟩ := List.mem_map.mp he'
    exact absurd hsame (not_sameWay_of_unrepeated hs hattempt hcall he horigin hc)
  · obtain ⟨c, hc, rfl⟩ := List.mem_map.mp he
    exact absurd ⟨hsame.1.symm, hsame.2.symm⟩ (not_sameWay_of_unrepeated hs hattempt hcall he' horigin.symm hc)
  · obtain ⟨c, hc, rfl⟩ := List.mem_map.mp he
    obtain ⟨c', hc', rfl⟩ := List.mem_map.mp he'
    exact ⟨rfl, once_of_attempt hs.stored hs.symmetric hattempt hlists c hc c' hc' hsame⟩

theorem distinct_step {move : AuditMove} (hs : s.Sound) (hdistinct : EventIdsDistinct s)
    (hok : KeepsIdsDistinct s move) (h : auditStep env s move = some s') : EventIdsDistinct s' := by
  obtain ⟨hlog, -, -⟩ | ⟨i, aborted, times, call, operationId, t, rfl, hcall, hrun, rfl⟩ := auditStep_cases h
  · rw [EventIdsDistinct, hlog]
    exact hdistinct
  · obtain ⟨hlists, hunrepeated⟩ := hok (call, operationId) hcall
    exact distinct_committed hs hdistinct hrun hlists hunrepeated

end Runs

/-- **The IDs of change events.**  No two events with different changes have one ID, as long as callers list each
relationship with one value, no call runs again after a commit that it did not learn of, and no step of a job finds
again what an earlier one changed. -/
theorem event_ids_distinct (env : Env) {s : AuditState} (h : Reach (auditStep env) KeepsIdsDistinct .init s) :
    EventIdsDistinct s := by
  have hinit : AuditState.init.Sound := ⟨fun e he => absurd he List.not_mem_nil, wellStored_of_empty rfl rfl,
    Edges.symmetric_empty⟩
  have hboth : s.Sound ∧ EventIdsDistinct s := by
    refine h.invariant (I := fun s => s.Sound ∧ EventIdsDistinct s) ⟨hinit, fun e he => absurd he List.not_mem_nil⟩
      fun hu hok hs => ⟨hu.1.step hs, distinct_step hu.1 hu.2 hok hs⟩
  exact hboth.2

/-- A call and one transaction of it. -/
def auditCall (i : ℕ) (call : Call) : List AuditMove :=
  [.begin call 20, .transact i [] ⟨⟨1, 0⟩, ⟨1, 0⟩⟩]

/-- Node 5 with its child 7 is under node 4.  A job deletes node 5 and moves the child; between its steps a call adds
an edge to node 4 like the one that the first step cleared, and another call gives node 7 a new name. -/
def movedRun : List AuditMove :=
  auditCall 0 (.setNodeType ⟨3, 1, "task", [], [], ["task"], [], ""⟩) ++
    auditCall 1 (.create ⟨plainNode 1 "task" 4, [], [], [], none⟩) ++
    auditCall 2 (.create ⟨plainNode 1 "task" 5, [plainRelationship 1 5 "child_of" 4], [], [], none⟩) ++
    auditCall 3 (.create ⟨plainNode 1 "task" 7, [plainRelationship 1 7 "child_of" 5], [], [], none⟩) ++
    auditCall 4 (.addRelationship (plainRelationship 1 6 "blocks" 5) false) ++
    auditCall 5 (.startSubtreeDelete ⟨30, 1, 5, 0, 9, [], 0, 0, Time.zero, Time.zero⟩) ++
    auditCall 6 (.deleteSubtreeStep 30) ++
    auditCall 7 (.addRelationship (plainRelationship 1 6 "blocks" 4) false) ++
    auditCall 8 (.update ⟨none, { plainNode 1 "task" 7 with name := "kept" }, .empty, [], none, []⟩) ++
    auditCall 9 (.deleteSubtreeStep 30)

/-- The events from the first step of the job on.  Node 7 is updated by the job and by a call, and node 5 loses an edge
in each step; all IDs differ. -/
def movedLog : List (ℕ × ChangeKind × Target) :=
  [(6, .update, .node "task" 7), (6, .delete, .relationship 7 "child_of" 5), (6, .create, .relationship 7 "child_of" 4),
    (6, .delete, .relationship 6 "blocks" 5), (7, .create, .relationship 6 "blocks" 4), (8, .update, .node "task" 7),
    (9, .delete, .node "task" 5), (9, .delete, .relationship 5 "child_of" 4)]

theorem event_ids_distinct_moved : ∃ s, Reach (auditStep .constant) KeepsIdsDistinct .init s ∧
    (s.log.drop 7).map (fun e => (e.commit, e.change.kind, e.change.target)) = movedLog ∧ EventIdsDistinct s := by
  obtain ⟨s, hreach, hlog⟩ := exists_reach_of_runChecked (auditStep .constant)
    (fun s move => of_decide_eq_true (p := KeepsIdsDistinct s move)) .init movedRun
    (fun s => (s.log.drop 7).map (fun e => (e.commit, e.change.kind, e.change.target)) = movedLog) (by decide +kernel)
  exact ⟨s, hreach, of_decide_eq_true hlog, event_ids_distinct .constant hreach⟩

/-- A job deletes node 5 with its child 7.  Its first step passes the edge from node 6 and clears it;
another call adds the edge again; and the step that deletes node 5 clears it once more. -/
def relinkedRun : List AuditMove :=
  auditCall 0 (.setNodeType ⟨3, 1, "task", [], [], ["task"], [], ""⟩) ++
    auditCall 1 (.create ⟨plainNode 1 "task" 5, [], [], [], none⟩) ++
    auditCall 2 (.create ⟨plainNode 1 "task" 7, [plainRelationship 1 7 "child_of" 5], [], [], none⟩) ++
    auditCall 3 (.addRelationship (plainRelationship 1 6 "blocks" 5) false) ++
    auditCall 4 (.startSubtreeDelete ⟨30, 1, 5, 0, 9, [], 0, 0, Time.zero, Time.zero⟩) ++
    auditCall 5 (.deleteSubtreeStep 30) ++
    auditCall 6 (.addRelationship (plainRelationship 1 6 "blocks" 5) false) ++
    auditCall 7 (.deleteSubtreeStep 30) ++ auditCall 8 (.deleteSubtreeStep 30)

/-- Both deletions of the edge have one ID. -/
theorem event_ids_repeat : ∃ s, Reach (auditStep .constant) anyMove .init s ∧
    (∃ e ∈ s.log, ∃ e' ∈ s.log, e.id = e'.id ∧ e.commit ≠ e'.commit) ∧ ¬EventIdsDistinct s := by
  obtain ⟨s, hreach, hrun⟩ := exists_reach_of_run (auditStep .constant) .init relinkedRun
    (fun s => s.log.any fun e => s.log.any fun e' => e.commit ≠ e'.commit ∧ e.origin = e'.origin ∧
      e.change.kind = e'.change.kind ∧ e.change.target = e'.change.target) (by decide +kernel)
  obtain ⟨e, he, hrun⟩ := List.any_eq_true.mp hrun
  obtain ⟨e', he', hrun⟩ := List.any_eq_true.mp hrun
  obtain ⟨hcommit, horigin, hsame⟩ := of_decide_eq_true hrun
  have hid : e.id = e'.id := AuditEntry.id_eq_iff.mpr ⟨horigin, hsame⟩
  exact ⟨s, hreach, ⟨e, he, e', he', hid, hcommit⟩,
    fun hdistinct => hcommit (hdistinct e he e' he' hid).1⟩

end Tack.Nodes

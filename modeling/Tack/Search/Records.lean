import Mathlib
import Tack.Lib.Time
import Tack.Lib.Uuid

/-!
# The search records of one node

FoundationDB keeps the pending search work of a node in four classes, with one claim and one checkpoint
for each class, beside two counters, the recorded access, the exclusion, the issued page documents and
the counterparts that a deletion left.  Every change of the node increments its generation and rewrites
the pending records by a table of plans.

## Main definitions

* `Search.NodeRecords` — all search records of a node.
* `Search.scheduleSearchChange` — the search work that a change of the node records.
* `Search.scheduleDeletedFanout`, `Search.finishDeletedClass` — the work of a deleted node.
* `Search.scheduleCopy`, `Search.scheduleMirrorCopy` — copies to a replacement index.

## Main results

* `Search.scheduleSearchChange_ok` — what a change does to the counters and to each class.
-/

namespace Tack.Search

open Lib

/-! ### Records -/

/-- The work classes of a node. -/
inductive WorkClass
  | live
  | access
  | cleanup
  | copy
  deriving DecidableEq

inductive WorkPhase
  | pages
  | refresh
  | dependents
  deriving DecidableEq

structure WorkRecord where
  generation : ℕ
  revision : ℕ
  deleted : Bool
  deriving DecidableEq

/-- The lease of one work item.  No owner marks a released item. -/
structure ClaimRecord where
  owner : Option ℕ
  generation : ℕ
  leaseUntil : Time
  target : String
  mirror : String
  deriving DecidableEq

structure ProgressRecord where
  revision : ℕ
  generation : ℕ
  projection : String
  cursor : String
  ordinal : ℕ
  phase : WorkPhase
  deriving DecidableEq

structure SearchAccess where
  versions : List String
  keys : List String
  generation : ℕ
  deriving DecidableEq

structure AccessRecord where
  access : SearchAccess
  pagesPending : Bool
  dependentsPending : Bool
  pageAccess : Option SearchAccess
  pageAccessTracked : Bool
  deriving DecidableEq

/-- The identity of one page document of the node. -/
structure IssuedDocument where
  revision : ℕ
  ordinal : ℕ
  projection : String
  deriving DecidableEq

/-- The search records of one node. -/
structure NodeRecords where
  /-- The node has its resolution record. -/
  stored : Bool
  generation : ℕ
  revision : ℕ
  work : WorkClass → Option WorkRecord
  claim : WorkClass → Option ClaimRecord
  progress : WorkClass → Option ProgressRecord
  access : Option AccessRecord
  excluded : Bool
  issued : List IssuedDocument
  fanout : List UUID

/-- A node that search has never seen. -/
def NodeRecords.empty : NodeRecords where
  stored := false
  generation := 0
  revision := 0
  work _ := none
  claim _ := none
  progress _ := none
  access := none
  excluded := false
  issued := []
  fanout := []

namespace NodeRecords

def setWork (s : NodeRecords) (c : WorkClass) (record : Option WorkRecord) : NodeRecords :=
  { s with work := Function.update s.work c record }

def setClaim (s : NodeRecords) (c : WorkClass) (claim : Option ClaimRecord) : NodeRecords :=
  { s with claim := Function.update s.claim c claim }

def setProgress (s : NodeRecords) (c : WorkClass) (progress : Option ProgressRecord) : NodeRecords :=
  { s with progress := Function.update s.progress c progress }

/-- The record, the claim and the checkpoint of a class are gone. -/
def clearClass (s : NodeRecords) (c : WorkClass) : NodeRecords :=
  ((s.setWork c none).setClaim c none).setProgress c none

theorem setWork_work (s : NodeRecords) (c : WorkClass) (record : Option WorkRecord) :
    (s.setWork c record).work c = record := by
  simp [setWork]

theorem setClaim_claim (s : NodeRecords) (c : WorkClass) (claim : Option ClaimRecord) :
    (s.setClaim c claim).claim c = claim := by
  simp [setClaim]

theorem clearClass_work (s : NodeRecords) (c : WorkClass) : (s.clearClass c).work c = none := by
  simp [clearClass, setWork, setClaim, setProgress]

end NodeRecords

/-! ### Changes -/

inductive SearchChange
  | content
  | access
  | deletion
  | exclusion
  | repair
  deriving DecidableEq

inductive RecordPlan
  | rewrite
  | restart
  | put
  | remove
  deriving DecidableEq

def searchRecordPlanFor : SearchChange → WorkClass → RecordPlan
  | .content, .live => .put
  | .content, .access => .restart
  | .content, .cleanup => .rewrite
  | .content, .copy => .remove
  | .access, .live => .rewrite
  | .access, .access => .put
  | .access, .cleanup => .rewrite
  | .access, .copy => .rewrite
  | .deletion, .live => .remove
  | .deletion, .access => .remove
  | .deletion, .cleanup => .put
  | .deletion, .copy => .remove
  | .exclusion, .live => .remove
  | .exclusion, .access => .remove
  | .exclusion, .cleanup => .put
  | .exclusion, .copy => .remove
  | .repair, .live => .put
  | .repair, .access => .put
  | .repair, .cleanup => .rewrite
  | .repair, .copy => .remove

def applySearchRecordPlan (c : WorkClass) (plan : RecordPlan) (current : WorkRecord) (s : NodeRecords) :
    NodeRecords :=
  match plan, s.work c with
  | .remove, _ => s.clearClass c
  | .put, _ => (s.setProgress c none).setWork c (some current)
  | _, none => s
  | .rewrite, some existing =>
    s.setWork c (some { current with revision := existing.revision, deleted := existing.deleted })
  | .restart, some _ => (s.setProgress c none).setWork c (some current)

/-- The change to schedule: an access change of an excluded node repairs it. -/
def exclusionAdjustedChange (s : NodeRecords) : SearchChange → SearchChange
  | .access => if s.excluded then .repair else .access
  | change => change

/-- A counter holds a signed 64-bit number. -/
def maxCounter : ℕ := 2 ^ 63 - 1

/-- Records the write versions for a node without an access record.  Page access is tracked when the
node has no issued document. -/
def initializeSearchAccess (versions : List String) (s : NodeRecords) : NodeRecords :=
  match s.access with
  | some _ => s
  | none => { s with access := some ⟨⟨versions, [], 0⟩, false, false, none, s.issued.isEmpty⟩ }

def SearchChange.startsRevision : SearchChange → Bool
  | .content | .exclusion | .repair => true
  | .access | .deletion => false

/-- The record of the new generation. -/
def changeRecord (s : NodeRecords) (change : SearchChange) : WorkRecord where
  generation := s.generation + 1
  revision := if change.startsRevision then s.generation + 1 else s.revision
  deleted := change = .deletion

def applyPlans (change : SearchChange) (current : WorkRecord) (s : NodeRecords) : NodeRecords :=
  [WorkClass.live, .access, .cleanup, .copy].foldl
    (fun s c => applySearchRecordPlan c (searchRecordPlanFor change c) current s) s

/-- Records the search work of a change; `none` when the generation overflows. -/
def scheduleSearchChange (versions : List String) (change : SearchChange) (s : NodeRecords) :
    Option (NodeRecords × WorkRecord) :=
  let change := exclusionAdjustedChange s change
  if s.generation = maxCounter then none
  else
    let current := changeRecord s change
    let planned := applyPlans change current
      { s with
        generation := current.generation
        revision := current.revision
        excluded := s.excluded && change ≠ .deletion }
    some (if change = .deletion then planned else initializeSearchAccess versions planned, current)

/-- A change of a node that is stored. -/
def scheduleExistingSearchChange (versions : List String) (change : SearchChange) (s : NodeRecords) :
    Option NodeRecords :=
  if s.stored then (scheduleSearchChange versions change s).map Prod.fst else some s

/-- Marks the pages of a node as pending and schedules its access work. -/
def scheduleAccessRepair (versions : List String) (s : NodeRecords) : Option NodeRecords :=
  scheduleExistingSearchChange versions .access
    { s with access := s.access.map fun record => { record with pagesPending := true } }

/-! ### Deleted nodes -/

/-- The access work of a deleted node schedules its recorded counterparts. -/
def scheduleDeletedFanout (nodeId : UUID) (deletion : WorkRecord) (counterparts : List UUID)
    (s : NodeRecords) : NodeRecords :=
  let recorded := counterparts.filter fun counterpart => counterpart ≠ nodeId ∧ counterpart ≠ UUID.nil
  if recorded.isEmpty then s
  else (({ s with fanout := s.fanout ++ recorded.filter (· ∉ s.fanout) }).setWork .access
    (some deletion)).setProgress .access
      (some ⟨deletion.revision, deletion.generation, "", "", 0, .dependents⟩)

/-- Removes every search key of a deleted node but its issued documents. -/
def clearDeletedSearchState (s : NodeRecords) : NodeRecords where
  stored := s.stored
  generation := 0
  revision := 0
  work _ := none
  claim _ := none
  progress _ := none
  access := none
  excluded := s.excluded
  issued := s.issued
  fanout := []

/-- The class that finishes last clears the search state of a deleted node. -/
def finishDeletedClass (c : WorkClass) (s : NodeRecords) : NodeRecords :=
  let cleared := s.clearClass c
  let other := if c = .access then WorkClass.cleanup else .access
  if (cleared.work other).isSome then cleared else clearDeletedSearchState cleared

theorem finishDeletedClass_eq (c : WorkClass) (s : NodeRecords) :
    finishDeletedClass c s = s.clearClass c ∨
      finishDeletedClass c s = clearDeletedSearchState (s.clearClass c) := by
  rw [finishDeletedClass]
  generalize (if c = .access then WorkClass.cleanup else .access) = other
  split
  · exact .inl rfl
  · exact .inr rfl

/-! ### Copies to a replacement index -/

/-- The copy of a node without pending live work. -/
def scheduleCopy (versions : List String) (s : NodeRecords) : NodeRecords :=
  if (s.work .live).isSome then s
  else
    let counted := if s.revision ≠ 0 then s else
      let generation := if s.generation = 0 then 1 else s.generation
      initializeSearchAccess versions { s with generation := generation, revision := generation }
    (counted.setProgress .copy none).setWork .copy (some ⟨counted.generation, counted.revision, false⟩)

/-- A pending copy at this generation and revision starts at the page or before it. -/
def copyCovers (s : NodeRecords) (existing : WorkRecord) (generation revision ordinal : ℕ) : Bool :=
  if existing.generation ≠ generation ∨ existing.revision ≠ revision then false
  else match s.progress .copy with
    | none => true
    | some progress =>
      decide (progress.generation ≠ existing.generation ∨ progress.revision ≠ existing.revision) ||
        decide (progress.ordinal ≤ ordinal)

/-- Owes the replacement index the pages from a missed one on. -/
def scheduleMirrorCopy (generation revision ordinal : ℕ) (projection cursor : String) (s : NodeRecords) :
    NodeRecords :=
  if (s.work .copy).any fun existing => copyCovers s existing generation revision ordinal then s
  else (s.setWork .copy (some ⟨generation, revision, false⟩)).setProgress .copy
    (some ⟨revision, generation, projection, cursor, ordinal, .pages⟩)

/-! ### What a change does -/

/-- The pending record of a class after a plan. -/
def RecordPlan.work (current : WorkRecord) (existing : Option WorkRecord) : RecordPlan → Option WorkRecord
  | .remove => none
  | .put => some current
  | .restart => existing.map fun _ => current
  | .rewrite => existing.map fun record =>
    { current with revision := record.revision, deleted := record.deleted }

/-- The claim of a class after a plan. -/
def RecordPlan.claim (claim : Option ClaimRecord) : RecordPlan → Option ClaimRecord
  | .remove => none
  | _ => claim

/-- The checkpoint of a class after a plan. -/
def RecordPlan.progress (existing : Option WorkRecord) (progress : Option ProgressRecord) :
    RecordPlan → Option ProgressRecord
  | .remove | .put => none
  | .restart => if existing.isSome then none else progress
  | .rewrite => progress

theorem applySearchRecordPlan_eq (c : WorkClass) (plan : RecordPlan) (current : WorkRecord) (s : NodeRecords) :
    applySearchRecordPlan c plan current s =
      { s with
        work := Function.update s.work c (plan.work current (s.work c))
        claim := Function.update s.claim c (plan.claim (s.claim c))
        progress := Function.update s.progress c (plan.progress (s.work c) (s.progress c)) } := by
  cases hwork : s.work c with
  | none =>
    have hself : Function.update s.work c none = s.work := by
      rw [← hwork, Function.update_eq_self]
    cases plan <;>
      simp [applySearchRecordPlan, hwork, hself, RecordPlan.work, RecordPlan.claim,
        RecordPlan.progress, NodeRecords.clearClass, NodeRecords.setWork, NodeRecords.setClaim,
        NodeRecords.setProgress]
  | some existing =>
    cases plan <;>
      simp [applySearchRecordPlan, hwork, RecordPlan.work, RecordPlan.claim,
        RecordPlan.progress, NodeRecords.clearClass, NodeRecords.setWork, NodeRecords.setClaim,
        NodeRecords.setProgress]

/-- The plans of a change, class by class. -/
theorem applyPlans_eq (change : SearchChange) (current : WorkRecord) (s : NodeRecords) :
    applyPlans change current s =
      { s with
        work := fun c => (searchRecordPlanFor change c).work current (s.work c)
        claim := fun c => (searchRecordPlanFor change c).claim (s.claim c)
        progress := fun c => (searchRecordPlanFor change c).progress (s.work c) (s.progress c) } := by
  simp only [applyPlans, List.foldl_cons, List.foldl_nil, applySearchRecordPlan_eq]
  congr 1
  all_goals
    funext c
    cases c <;> simp

/-- A deletion with counterparts changes only the access class and the recorded counterparts. -/
theorem scheduleDeletedFanout_eq (nodeId : UUID) (deletion : WorkRecord) (counterparts : List UUID)
    (s : NodeRecords) :
    ∃ fanout record progress, (record = s.work .access ∨ record = some deletion) ∧
      scheduleDeletedFanout nodeId deletion counterparts s =
        (({ s with fanout := fanout }).setWork .access record).setProgress .access progress := by
  rw [scheduleDeletedFanout]
  split
  · refine ⟨s.fanout, s.work .access, s.progress .access, .inl rfl, ?_⟩
    simp [NodeRecords.setWork, NodeRecords.setProgress]
  · exact ⟨_, _, _, .inr rfl, rfl⟩

theorem initializeSearchAccess_eq (versions : List String) (s : NodeRecords) :
    initializeSearchAccess versions s =
      { s with access := (initializeSearchAccess versions s).access } := by
  cases h : s.access with
  | none => simp [initializeSearchAccess, h]
  | some record =>
    have hsame : initializeSearchAccess versions s = s := by simp [initializeSearchAccess, h]
    rw [hsame]

/-- A copy is scheduled without live work.  It gives a node without a revision its first one. -/
theorem scheduleCopy_eq (versions : List String) (s : NodeRecords) :
    scheduleCopy versions s = s ∨ s.work .live = none ∧ ∃ generation revision access,
      (s.revision ≠ 0 ∧ generation = s.generation ∧ revision = s.revision ∨
        s.revision = 0 ∧ revision = generation ∧ 0 < generation ∧
          (generation = s.generation ∨ s.generation = 0)) ∧
      scheduleCopy versions s =
        ((({ s with generation := generation, revision := revision, access := access }).setProgress
          .copy none).setWork .copy (some ⟨generation, revision, false⟩)) := by
  rw [scheduleCopy]
  split
  · exact .inl rfl
  next hlive =>
  refine .inr ⟨Option.not_isSome_iff_eq_none.mp hlive, ?_⟩
  by_cases hrevision : s.revision = 0
  · refine ⟨if s.generation = 0 then 1 else s.generation, _, (initializeSearchAccess versions s).access,
      .inr ⟨hrevision, rfl, ?_⟩, ?_⟩
    · split <;> omega
    · rw [if_neg (not_not.mpr hrevision), initializeSearchAccess_eq]
      cases haccess : s.access <;> simp [initializeSearchAccess, haccess]
  · exact ⟨s.generation, s.revision, s.access, .inl ⟨hrevision, rfl, rfl⟩, by rw [if_pos hrevision]⟩

/-- What one change does to the records of its node. -/
structure Scheduled (versions : List String) (change : SearchChange) (s s' : NodeRecords) : Prop where
  stored : s'.stored = s.stored
  generation : s'.generation = s.generation + 1
  revision : s'.revision = if change.startsRevision then s.generation + 1 else s.revision
  work : ∀ c, s'.work c = (searchRecordPlanFor change c).work (changeRecord s change) (s.work c)
  claim : ∀ c, s'.claim c = (searchRecordPlanFor change c).claim (s.claim c)
  progress : ∀ c, s'.progress c = (searchRecordPlanFor change c).progress (s.work c) (s.progress c)
  excluded : s'.excluded = (s.excluded && change ≠ .deletion)
  issued : s'.issued = s.issued
  fanout : s'.fanout = s.fanout
  access : s'.access = if change = .deletion then s.access else (initializeSearchAccess versions s).access

theorem scheduleSearchChange_ok {versions : List String} {change : SearchChange} {s s' : NodeRecords}
    {current : WorkRecord} (h : scheduleSearchChange versions change s = some (s', current)) :
    Scheduled versions (exclusionAdjustedChange s change) s s' ∧
      current = changeRecord s (exclusionAdjustedChange s change) := by
  rw [scheduleSearchChange] at h
  split at h
  · cases h
  · cases h
    refine ⟨?_, rfl⟩
    rw [applyPlans_eq]
    by_cases hdeletion : exclusionAdjustedChange s change = .deletion
    · rw [if_pos hdeletion]
      exact ⟨rfl, rfl, rfl, fun _ => rfl, fun _ => rfl, fun _ => rfl, rfl, rfl, rfl, by rw [if_pos hdeletion]⟩
    · rw [if_neg hdeletion, initializeSearchAccess_eq]
      refine ⟨rfl, rfl, rfl, fun _ => rfl, fun _ => rfl, fun _ => rfl, rfl, rfl, rfl, ?_⟩
      rw [if_neg hdeletion]
      cases haccess : s.access <;> simp [initializeSearchAccess, haccess]

end Tack.Search

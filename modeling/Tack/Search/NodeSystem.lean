import Tack.Lib.Run
import Tack.Search.Work

/-!
# Workers on the search work of one node

Any number of workers claim, lose and take over the search work of a node, while the node is created,
changed and deleted and while the organization's projection, its write versions and the index replacement
change.  A worker does one slice at a time.  It may stop after any transaction, so that a transaction whose
reply is lost is one that commits before its worker stops.

Beside the records the state keeps what the statements speak about: the committed pages and refreshes, the
refreshes since the node was created, and whether an access change waits for its first access step.

## Main definitions

* `Search.NodeState`, `Search.NodeMove`, `Search.nodeStep` — the system.

## Main results

* `Search.nodeStep_effect` — what each move does to the records and to the workers.
-/

namespace Tack.Search

open Lib

/-! ### The system -/

/-- How far a worker is in its slice. -/
inductive Stage
  | claimed
  | read (page : ContentPage)
  | registered (page : ContentPage)
  | begun (access : SearchAccess)
  /-- Only the claim is left to give back. -/
  | settling

structure Held where
  work : Work
  stage : Stage

structure CompletedPage where
  revision : ℕ
  ordinal : ℕ
  projection : String
  /-- The cursor that the page was read with. -/
  under : String
  /-- The cursor that the checkpoint stores. -/
  cursor : String
  done : Bool
  deriving DecidableEq

inductive SearchCommit
  | page (entry : CompletedPage)
  /-- A finished revision, with the organization's projection at that time. -/
  | refresh (revision : ℕ) (projection : String) (active : ProjectionState)
  deriving DecidableEq

structure NodeState where
  records : NodeRecords
  org : OrgState
  workers : ℕ → Option Held
  /-- The committed live pages and refreshes, in order. -/
  log : List SearchCommit
  /-- The revisions refreshed since the node was created. -/
  refreshed : List ℕ
  /-- The last access change since the node was created waits for its first access step. -/
  accessChanged : Bool
  /-- The node was created before. -/
  created : Bool

/-- No search work yet.  The node may be older than its search records. -/
def NodeState.init (stored : Bool) (org : OrgState) : NodeState :=
  ⟨{ NodeRecords.empty with stored := stored }, org, fun _ => none, [], [], false, stored⟩

inductive NodeMove
  | create
  | delete (counterparts : List UUID)
  | change (change : SearchChange)
  | repairAccess
  | copyNode
  | mirrorMiss (revision ordinal : ℕ) (projection cursor : String)
  | setOrg (org : OrgState)
  | claim (worker : ℕ) (c : WorkClass) (now : Time) (lease : Time.Duration)
  | read (worker : ℕ) (page : ContentPage)
  | register (worker : ℕ) (now : Time)
  | completePage (worker : ℕ) (now : Time) (missed : Bool)
  | completeRefresh (worker : ℕ) (now : Time)
  | restart (worker : ℕ) (now : Time)
  | beginAccess (worker : ℕ) (now : Time) (compiled : SearchAccess)
  | completeAccess (worker : ℕ) (now : Time) (accepted : List IssuedDocument) (pagesDone : Bool)
  | scheduleDependents (worker : ℕ) (now : Time) (page : IDPage)
  | completeRetirement (worker : ℕ) (now : Time) (accepted : List IssuedDocument) (done : Bool)
  | exclude (worker : ℕ) (now : Time)
  | yield (worker : ℕ) (now : Time)
  | release (worker : ℕ) (now : Time) (delay : Time.Duration)
  | stop (worker : ℕ)

namespace NodeState

def hold (s : NodeState) (i : ℕ) (held : Option Held) : NodeState :=
  { s with workers := Function.update s.workers i held }

def withRecords (s : NodeState) (records : NodeRecords) : NodeState := { s with records := records }

end NodeState

/-- A change of the stored node by its own transactions, by a rescan, by a rollout or by the work of a
node that it depends on. -/
def environmentChange (s : NodeState) (change : SearchChange) : Option NodeState :=
  if !s.records.stored ∨ (change ≠ .content ∧ change ≠ .access) then none
  else (scheduleExistingSearchChange s.org.writeVersions change s.records).map fun records =>
    { s with records := records, accessChanged := s.accessChanged || change = .access }

def createNode (s : NodeState) : Option NodeState :=
  if s.records.stored then none
  else (scheduleSearchChange s.org.writeVersions .content { s.records with stored := true }).map
    fun scheduled =>
      { s with records := scheduled.1, refreshed := [], accessChanged := false, created := true }

def deleteNode (nodeId : UUID) (s : NodeState) (counterparts : List UUID) : Option NodeState :=
  if !s.records.stored then none
  else (scheduleSearchChange s.org.writeVersions .deletion s.records).map fun scheduled =>
    s.withRecords (scheduleDeletedFanout nodeId scheduled.2 counterparts
      { scheduled.1 with stored := false })

section Worker

variable (env : StoreEnv) (nodeId : UUID) (s : NodeState) (i : ℕ) (held : Held)

def claimStep (now : Time) (lease : Time.Duration) (c : WorkClass) : Option NodeState :=
  match s.workers i with
  | some _ => none
  | none => (claimWorkItem s.org now lease i c s.records).map fun claimed =>
    (s.withRecords claimed.1).hold i (claimed.2.map fun work => ⟨work, .claimed⟩)

def readStep (page : ContentPage) : Option NodeState :=
  match held.stage with
  | .claimed =>
    if (held.work.workClass = .live ∨ held.work.workClass = .copy) ∧ held.work.phase ≠ .refresh then
      some (s.hold i (some ⟨held.work, .read page⟩))
    else none
  | _ => none

def registerStep (now : Time) : Option NodeState :=
  match held.stage with
  | .read page => (register env s.org now s.records held.work page).map fun records =>
    (s.withRecords records).hold i (some ⟨held.work, .registered page⟩)
  | _ => none

/-- The work after a committed page. -/
def Work.after (work : Work) (page : ContentPage) : Work :=
  { work with
    cursor := page.nextCursor
    ordinal := page.ordinal + 1
    projection := page.projection
    phase := if page.done then .refresh else work.phase }

/-- A page that the work commits. -/
def Work.committed (work : Work) (page : ContentPage) : CompletedPage :=
  ⟨page.revision, page.ordinal, page.projection, work.cursor, page.nextCursor, page.done⟩

def completePageStep (now : Time) (missed : Bool) : Option NodeState :=
  match held.stage with
  | .registered page =>
    if held.work.workClass ≠ .live ∧ held.work.workClass ≠ .copy then none
    else (completePage s.org now s.records held.work page missed).map fun records =>
    { (s.withRecords records).hold i (some ⟨held.work.after page, .claimed⟩) with
      log := if held.work.workClass = .live then s.log ++ [.page (held.work.committed page)] else s.log }
  | _ => none

def completeRefreshStep (now : Time) : Option NodeState :=
  match held.stage with
  | .claimed =>
    if held.work.phase ≠ .refresh ∨ (held.work.workClass ≠ .live ∧ held.work.workClass ≠ .copy) then none
    else (completeRefresh env s.org now s.records held.work).map fun refreshed =>
      match refreshed with
      | .restarted records => (s.withRecords records).hold i none
      | .completed records record =>
        if held.work.workClass = .live then
          { (s.withRecords records).hold i none with
            log := s.log ++ [.refresh record.revision
              (readProgress s.records .live record).projection s.org.projection]
            refreshed := s.refreshed ++ [record.revision] }
        else (s.withRecords records).hold i none
  | _ => none

def restartStep (now : Time) : Option NodeState :=
  match held.stage with
  | .claimed | .read _ =>
    if held.work.workClass = .live ∨ held.work.workClass = .copy then
      (restart s.org now s.records held.work).map fun records => (s.withRecords records).hold i none
    else none
  | _ => none

def beginAccessStep (now : Time) (compiled : SearchAccess) : Option NodeState :=
  match held.stage with
  | .claimed =>
    if held.work.workClass ≠ .access ∨ held.work.phase = .dependents then none
    else (beginAccess s.org now s.records held.work compiled).map fun plan =>
      match plan with
      | .finished records => { (s.withRecords records).hold i none with accessChanged := false }
      | .pages records work =>
        { (s.withRecords records).hold i (some ⟨work, .begun compiled⟩) with accessChanged := false }
      | .dependents records work =>
        { (s.withRecords records).hold i (some ⟨work, .claimed⟩) with accessChanged := false }
  | _ => none

def completeAccessStep (now : Time) (accepted : List IssuedDocument) (pagesDone : Bool) :
    Option NodeState :=
  match held.stage with
  | .begun access =>
    (completeAccess env s.org now s.records held.work access accepted pagesDone).map fun records =>
      (s.withRecords records).hold i (some ⟨held.work, .settling⟩)
  | _ => none

def scheduleDependentsStep (now : Time) (page : IDPage) : Option NodeState :=
  match held.stage with
  | .claimed =>
    if held.work.workClass ≠ .access ∨ held.work.phase ≠ .dependents then none
    else (scheduleDependents s.org nodeId now s.records held.work page).map fun records =>
      { (s.withRecords records).hold i (some ⟨held.work, .settling⟩) with
        accessChanged := s.accessChanged || (nodeId ∈ page.ids ∧ s.records.stored) }
  | _ => none

def completeRetirementStep (now : Time) (accepted : List IssuedDocument) (done : Bool) :
    Option NodeState :=
  match held.stage with
  | .claimed =>
    if held.work.workClass ≠ .cleanup then none
    else (completeRetirement s.org now s.records held.work accepted done).map fun records =>
      (s.withRecords records).hold i (some ⟨held.work, .settling⟩)
  | _ => none

end Worker

/-- One move. -/
def nodeStep (env : StoreEnv) (nodeId : UUID) (s : NodeState) : NodeMove → Option NodeState
  | .create => createNode s
  | .delete counterparts => deleteNode nodeId s counterparts
  | .change change => environmentChange s change
  | .repairAccess =>
    if !s.records.stored then none
    else (scheduleAccessRepair s.org.writeVersions s.records).map fun records =>
      { s with records := records, accessChanged := true }
  | .copyNode =>
    if !s.records.stored then none
    else some (s.withRecords (scheduleCopy s.org.writeVersions s.records))
  | .mirrorMiss revision ordinal projection cursor =>
    if s.records.revision ≠ revision ∨ (s.records.work .live).isNone then none
    else some (s.withRecords
      (scheduleMirrorCopy s.records.generation revision ordinal projection cursor s.records))
  | .setOrg org => some { s with org := org }
  | .claim i c now lease => claimStep s i now lease c
  | .read i page => (s.workers i).bind fun held => readStep s i held page
  | .register i now => (s.workers i).bind fun held => registerStep env s i held now
  | .completePage i now missed => (s.workers i).bind fun held => completePageStep s i held now missed
  | .completeRefresh i now => (s.workers i).bind fun held => completeRefreshStep env s i held now
  | .restart i now => (s.workers i).bind fun held => restartStep s i held now
  | .beginAccess i now compiled =>
    (s.workers i).bind fun held => beginAccessStep s i held now compiled
  | .completeAccess i now accepted pagesDone =>
    (s.workers i).bind fun held => completeAccessStep env s i held now accepted pagesDone
  | .scheduleDependents i now page =>
    (s.workers i).bind fun held => scheduleDependentsStep nodeId s i held now page
  | .completeRetirement i now accepted done =>
    (s.workers i).bind fun held => completeRetirementStep s i held now accepted done
  | .exclude i now => (s.workers i).bind fun held =>
    (exclude s.org now s.records held.work).map fun records => (s.withRecords records).hold i none
  | .yield i now => (s.workers i).bind fun held =>
    (yieldClaim s.org now s.records held.work).map fun records => (s.withRecords records).hold i none
  | .release i now delay => (s.workers i).bind fun held =>
    (release s.org now delay s.records held.work).map fun records => (s.withRecords records).hold i none
  | .stop i => some (s.hold i none)

/-! ### What a move does -/

/-- The lease that a claim of a pending record gives. -/
def leasedWork (s : NodeRecords) (c : WorkClass) (record : WorkRecord) (owner : ℕ)
    (target mirror : String) : Work :=
  let progress := readProgress s c record
  ⟨c, record.generation, record.revision, progress.projection, progress.cursor, progress.ordinal,
    progress.phase, record.deleted, owner, target, mirror⟩

/-- The effect of each move, one constructor for each outcome. -/
inductive NodeEffect (env : StoreEnv) (nodeId : UUID) (s : NodeState) : NodeMove → NodeState → Prop
  | create {records : NodeRecords} : s.records.stored = false →
      Scheduled s.org.writeVersions .content { s.records with stored := true } records →
      NodeEffect env nodeId s .create
        { s with records := records, refreshed := [], accessChanged := false, created := true }
  | delete {counterparts : List UUID} {records : NodeRecords} : s.records.stored = true →
      Scheduled s.org.writeVersions .deletion s.records records →
      NodeEffect env nodeId s (.delete counterparts) (s.withRecords (scheduleDeletedFanout nodeId
        (changeRecord s.records .deletion) counterparts { records with stored := false }))
  | change {change : SearchChange} {records : NodeRecords} : s.records.stored = true →
      (change = .content ∨ change = .access) →
      Scheduled s.org.writeVersions (exclusionAdjustedChange s.records change) s.records records →
      NodeEffect env nodeId s (.change change)
        { s with records := records, accessChanged := s.accessChanged || change = .access }
  | repairAccess {access : Option AccessRecord} {records : NodeRecords} : s.records.stored = true →
      Scheduled s.org.writeVersions (exclusionAdjustedChange s.records .access)
        { s.records with access := access } records →
      NodeEffect env nodeId s .repairAccess { s with records := records, accessChanged := true }
  | copyNode : s.records.stored = true →
      NodeEffect env nodeId s .copyNode (s.withRecords (scheduleCopy s.org.writeVersions s.records))
  | mirrorMiss {revision ordinal : ℕ} {projection cursor : String} {copy : Option WorkRecord}
      {progress : Option ProgressRecord} : s.records.revision = revision →
      (s.records.work .live).isSome →
      (copy = s.records.work .copy ∨ copy = some ⟨s.records.generation, revision, false⟩) →
      NodeEffect env nodeId s (.mirrorMiss revision ordinal projection cursor)
        (s.withRecords ((s.records.setWork .copy copy).setProgress .copy progress))
  | setOrg {org : OrgState} : NodeEffect env nodeId s (.setOrg org) { s with org := org }
  | dropped {i : ℕ} {c : WorkClass} {now : Time} {lease : Time.Duration} {scope : ClaimScope}
      {record : WorkRecord} : s.workers i = none → s.org.scope = some scope →
      s.records.work c = some record →
      (scope.targets c = none ∨ s.records.generation ≠ record.generation) →
      NodeEffect env nodeId s (.claim i c now lease)
        ((s.withRecords (dropSearchWork s.records c)).hold i none)
  | leased {i : ℕ} {c : WorkClass} {now : Time} {lease : Time.Duration} {record : WorkRecord}
      {target mirror : String} {scope : ClaimScope} : s.workers i = none → s.org.scope = some scope →
      scope.rebuild.any Rebuild.paused = false → scope.targets c = some (target, mirror) →
      s.records.work c = some record → s.records.generation = record.generation →
      NodeEffect env nodeId s (.claim i c now lease)
        ((s.withRecords (s.records.setClaim c
          (some ⟨some i, record.generation, now.add lease, target, mirror⟩))).hold i
            (some ⟨leasedWork s.records c record i target mirror, .claimed⟩))
  | read {i : ℕ} {page : ContentPage} {held : Held} : s.workers i = some held →
      (held.work.workClass = .live ∨ held.work.workClass = .copy) →
      NodeEffect env nodeId s (.read i page) (s.hold i (some ⟨held.work, .read page⟩))
  | register {i : ℕ} {now : Time} {held : Held} {page : ContentPage} {record : WorkRecord}
      {access : AccessRecord} : s.workers i = some held → held.stage = .read page →
      Granted s.org now s.records held.work → VerifiedPage s.records held.work page record access →
      validatePage held.work page = true → activeProjection env s.org page.projection = true →
      NodeEffect env nodeId s (.register i now) ((s.withRecords { s.records with
        access := some (trackRegisteredAccess access page.access)
        issued := if (⟨page.revision, page.ordinal, page.projection⟩ : IssuedDocument) ∈ s.records.issued
          then s.records.issued
          else s.records.issued ++ [⟨page.revision, page.ordinal, page.projection⟩] }).hold i
            (some ⟨held.work, .registered page⟩))
  | completePage {i : ℕ} {now : Time} {missed : Bool} {held : Held} {page : ContentPage}
      {record : WorkRecord} {access : AccessRecord} {copy : Option WorkRecord}
      {progress : Option ProgressRecord} : s.workers i = some held →
      (held.work.workClass = .live ∨ held.work.workClass = .copy) → held.stage = .registered page →
      VerifiedPage s.records held.work page record access →
      (copy = s.records.work .copy ∨ copy = some ⟨held.work.generation, page.revision, false⟩) →
      NodeEffect env nodeId s (.completePage i now missed)
        { (s.withRecords (((s.records.setWork .copy copy).setProgress .copy progress).setProgress
            held.work.workClass (some (pageProgress held.work page)))).hold i
              (some ⟨held.work.after page, .claimed⟩) with
          log := if held.work.workClass = .live then s.log ++ [.page (held.work.committed page)]
            else s.log }
  | refreshRestarted {i : ℕ} {now : Time} {held : Held} {record : WorkRecord} {records : NodeRecords} :
      s.workers i = some held → (held.work.workClass = .live ∨ held.work.workClass = .copy) →
      Verified s.records held.work record →
      Scheduled s.org.writeVersions .content (s.records.setClaim held.work.workClass none) records →
      NodeEffect env nodeId s (.completeRefresh i now) ((s.withRecords records).hold i none)
  | refreshCompleted {i : ℕ} {now : Time} {held : Held} {record : WorkRecord} :
      s.workers i = some held → (held.work.workClass = .live ∨ held.work.workClass = .copy) →
      Verified s.records held.work record →
      (readProgress s.records held.work.workClass record).phase = .refresh →
      activeProjection env s.org (readProgress s.records held.work.workClass record).projection = true →
      NodeEffect env nodeId s (.completeRefresh i now)
        { (s.withRecords (afterRefresh s.records held.work record)).hold i none with
          log := if held.work.workClass = .live then
              s.log ++ [.refresh record.revision
                (readProgress s.records .live record).projection s.org.projection]
            else s.log
          refreshed := if held.work.workClass = .live then s.refreshed ++ [record.revision]
            else s.refreshed }
  | restart {i : ℕ} {now : Time} {held : Held} {record : WorkRecord} {records : NodeRecords} :
      s.workers i = some held → (held.work.workClass = .live ∨ held.work.workClass = .copy) →
      Verified s.records held.work record →
      Scheduled s.org.writeVersions .content (s.records.setClaim held.work.workClass none) records →
      NodeEffect env nodeId s (.restart i now) ((s.withRecords records).hold i none)
  | beginFinished {i : ℕ} {now : Time} {compiled : SearchAccess} {held : Held} {record : WorkRecord} :
      s.workers i = some held → held.work.workClass = .access → Verified s.records held.work record →
      NodeEffect env nodeId s (.beginAccess i now compiled)
        { (s.withRecords (clearSearchWork s.records .access)).hold i none with accessChanged := false }
  | begun {i : ℕ} {now : Time} {compiled : SearchAccess} {held held' : Held} {record : WorkRecord}
      {access : Option AccessRecord} {progress : Option ProgressRecord} :
      s.workers i = some held → held.work.workClass = .access → Verified s.records held.work record →
      (progress = s.records.progress .access ∨ ∃ phase cursor,
        progress = some ⟨record.revision, record.generation, "", cursor, 0, phase⟩) →
      SameLease held.work held'.work → (held'.stage = .begun compiled ∨ held'.stage = .claimed) →
      NodeEffect env nodeId s (.beginAccess i now compiled)
        { (s.withRecords (({ s.records with access := access }).setProgress .access progress)).hold i
            (some held') with accessChanged := false }
  | accessCompleted {i : ℕ} {now : Time} {accepted : List IssuedDocument} {pagesDone : Bool}
      {held : Held} {begun : SearchAccess} {record : WorkRecord} {recorded : Option AccessRecord}
      {records : NodeRecords} :
      s.workers i = some held → held.stage = .begun begun → Verified s.records held.work record →
      (records = clearSearchWork { s.records with access := recorded } held.work.workClass ∨
        ∃ phase cursor, records =
          writeAccessProgress { s.records with access := recorded } record phase cursor) →
      NodeEffect env nodeId s (.completeAccess i now accepted pagesDone)
        ((s.withRecords records).hold i (some ⟨held.work, .settling⟩))
  | dependentsScheduled {i : ℕ} {now : Time} {page : IDPage} {held : Held} {record : WorkRecord}
      {self records : NodeRecords} {fanout : List UUID} :
      s.workers i = some held → held.work.workClass = .access → held.work.phase = .dependents →
      Verified s.records held.work record → SelfScheduled s.org.writeVersions s.records self →
      ((nodeId ∉ page.ids → self = s.records) ∧
        (nodeId ∈ page.ids → s.records.stored = true → s.records.generation < self.generation)) →
      (page.done = false ∧ records =
          writeAccessProgress { self with fanout := fanout } record .dependents page.nextCursor ∨
        page.done = true ∧ record.deleted = true ∧
          records = finishDeletedClass .access { self with fanout := fanout } ∨
        page.done = true ∧ record.deleted = false ∧ ∃ access,
          records = clearSearchWork { self with fanout := fanout, access := access } .access) →
      NodeEffect env nodeId s (.scheduleDependents i now page)
        { (s.withRecords records).hold i (some ⟨held.work, .settling⟩) with
          accessChanged := s.accessChanged || (nodeId ∈ page.ids ∧ s.records.stored) }
  | retired {i : ℕ} {now : Time} {accepted : List IssuedDocument} {done : Bool} {held : Held}
      {record : WorkRecord} {retired records : NodeRecords} :
      s.workers i = some held → held.work.workClass = .cleanup → held.stage = .claimed →
      Granted s.org now s.records held.work → Verified s.records held.work record →
      retired = { s.records with issued := s.records.issued.filter (· ∉ accepted) } →
      (done = false ∧ records = retired ∨
        done = true ∧ record.deleted = true ∧ records = finishDeletedClass .cleanup retired ∨
        done = true ∧ record.deleted = false ∧ records = clearSearchWork retired .cleanup) →
      NodeEffect env nodeId s (.completeRetirement i now accepted done)
        ((s.withRecords records).hold i (some ⟨held.work, .settling⟩))
  | excluded {i : ℕ} {now : Time} {held : Held} {record : WorkRecord} {scheduled : NodeRecords}
      {access : AccessRecord} :
      s.workers i = some held → Verified s.records held.work record → held.work.excludable = true →
      Scheduled s.org.writeVersions .exclusion (clearSearchWork s.records held.work.workClass)
        scheduled →
      NodeEffect env nodeId s (.exclude i now)
        ((s.withRecords { scheduled with access := some access, excluded := true }).hold i none)
  | yielded {i : ℕ} {now : Time} {held : Held} {record : WorkRecord} :
      s.workers i = some held → Verified s.records held.work record →
      NodeEffect env nodeId s (.yield i now)
        ((s.withRecords (s.records.setClaim held.work.workClass none)).hold i none)
  | released {i : ℕ} {now : Time} {delay : Time.Duration} {held : Held} {record : WorkRecord}
      {claim : ClaimRecord} : s.workers i = some held → Verified s.records held.work record →
      claim.owner = none → claim.generation = held.work.generation →
      NodeEffect env nodeId s (.release i now delay)
        ((s.withRecords (s.records.setClaim held.work.workClass (some claim))).hold i none)
  | stopped {i : ℕ} : NodeEffect env nodeId s (.stop i) (s.hold i none)

section Effects

variable {env : StoreEnv} {nodeId : UUID} {s s' : NodeState} {i : ℕ} {held : Held} {now : Time}

theorem createNode_effect (h : createNode s = some s') : NodeEffect env nodeId s .create s' := by
  rw [createNode] at h
  split at h
  · cases h
  next hstored =>
  obtain ⟨scheduled, hscheduled, rfl⟩ := Option.map_eq_some_iff.mp h
  exact .create (Bool.eq_false_of_not_eq_true hstored) (scheduleSearchChange_ok hscheduled).1

theorem deleteNode_effect {counterparts : List UUID} (h : deleteNode nodeId s counterparts = some s') :
    NodeEffect env nodeId s (.delete counterparts) s' := by
  rw [deleteNode] at h
  split at h
  · cases h
  next hstored =>
  obtain ⟨scheduled, hscheduled, rfl⟩ := Option.map_eq_some_iff.mp h
  obtain ⟨hrecords, hcurrent⟩ := scheduleSearchChange_ok hscheduled
  rw [hcurrent]
  exact .delete (by simpa using hstored) hrecords

theorem environmentChange_effect {change : SearchChange} (h : environmentChange s change = some s') :
    NodeEffect env nodeId s (.change change) s' := by
  rw [environmentChange] at h
  split at h
  · cases h
  next hguard =>
  obtain ⟨records, hrecords, rfl⟩ := Option.map_eq_some_iff.mp h
  rw [not_or] at hguard
  have hstored : s.records.stored = true := by simpa using hguard.1
  rcases scheduleExistingSearchChange_ok hrecords with ⟨hnot, -⟩ | ⟨-, hscheduled⟩
  · exact absurd (hnot.symm.trans hstored) Bool.false_ne_true
  · refine .change hstored ?_ hscheduled
    by_contra hother
    exact hguard.2 (not_or.mp hother)

theorem repairAccess_effect
    (h : nodeStep env nodeId s .repairAccess = some s') : NodeEffect env nodeId s .repairAccess s' := by
  rw [nodeStep] at h
  split at h
  · cases h
  next hguard =>
  obtain ⟨records, hrecords, rfl⟩ := Option.map_eq_some_iff.mp h
  have hstored : s.records.stored = true := by simpa using hguard
  rcases scheduleExistingSearchChange_ok hrecords with ⟨hnot, -⟩ | ⟨-, hscheduled⟩
  · exact absurd (hnot.symm.trans hstored) Bool.false_ne_true
  · exact .repairAccess hstored hscheduled

theorem mirrorMiss_effect {revision ordinal : ℕ} {projection cursor : String}
    (h : nodeStep env nodeId s (.mirrorMiss revision ordinal projection cursor) = some s') :
    NodeEffect env nodeId s (.mirrorMiss revision ordinal projection cursor) s' := by
  rw [nodeStep] at h
  split at h
  · cases h
  next hguard =>
  cases h
  rw [not_or, not_not] at hguard
  obtain ⟨copy, progress, hcopy, heq⟩ := scheduleMirrorCopy_eq s.records.generation revision ordinal
    projection cursor s.records
  rw [heq]
  exact .mirrorMiss hguard.1 (Option.isSome_iff_ne_none.mpr fun hnone => hguard.2 (by simp [hnone])) hcopy

theorem claimStep_effect {c : WorkClass} {lease : Time.Duration}
    (h : claimStep s i now lease c = some s') : NodeEffect env nodeId s (.claim i c now lease) s' := by
  rw [claimStep] at h
  split at h
  · cases h
  next hfree =>
  obtain ⟨⟨records, claimed⟩, hclaimed, rfl⟩ := Option.map_eq_some_iff.mp h
  obtain ⟨scope, record, hscope, hrecord, hdropped | hleased⟩ := claimWorkItem_ok hclaimed
  · obtain ⟨rfl, rfl, hreason⟩ := hdropped
    exact .dropped hfree hscope hrecord hreason
  · obtain ⟨target, mirror, hpaused, htargets, hgeneration, rfl, rfl⟩ := hleased
    exact .leased hfree hscope hpaused htargets hrecord hgeneration

theorem readStep_effect {page : ContentPage} (hheld : s.workers i = some held)
    (h : readStep s i held page = some s') : NodeEffect env nodeId s (.read i page) s' := by
  rw [readStep] at h
  split at h
  · split at h
    next hguard =>
      cases h
      exact .read hheld hguard.1
    · cases h
  · cases h

theorem registerStep_effect (hheld : s.workers i = some held)
    (h : registerStep env s i held now = some s') : NodeEffect env nodeId s (.register i now) s' := by
  rw [registerStep] at h
  split at h
  next page hstage =>
    obtain ⟨records, hrecords, rfl⟩ := Option.map_eq_some_iff.mp h
    obtain ⟨hgranted, record, access, hpage, hvalid, hactive, rfl⟩ := register_ok hrecords
    exact .register hheld hstage hgranted hpage hvalid hactive
  · cases h

theorem completePageStep_effect {missed : Bool} (hheld : s.workers i = some held)
    (h : completePageStep s i held now missed = some s') :
    NodeEffect env nodeId s (.completePage i now missed) s' := by
  rw [completePageStep] at h
  split at h
  next page hstage =>
    split at h
    · cases h
    next hguard =>
    have hclass : held.work.workClass = .live ∨ held.work.workClass = .copy := by
      by_contra hother
      exact hguard (not_or.mp hother)
    obtain ⟨records, hrecords, rfl⟩ := Option.map_eq_some_iff.mp h
    obtain ⟨record, access, hpage, copy, progress, hcopy, rfl⟩ := completePage_ok hrecords
    exact .completePage hheld hclass hstage hpage hcopy
  · cases h

theorem completeRefreshStep_effect (hheld : s.workers i = some held)
    (h : completeRefreshStep env s i held now = some s') :
    NodeEffect env nodeId s (.completeRefresh i now) s' := by
  rw [completeRefreshStep] at h
  split at h
  · split at h
    · cases h
    next hguard =>
    have hclass : held.work.workClass = .live ∨ held.work.workClass = .copy := by
      by_contra hother
      exact hguard (.inr (not_or.mp hother))
    obtain ⟨refreshed, hrefreshed, rfl⟩ := Option.map_eq_some_iff.mp h
    obtain ⟨record, hclaim, hphase, ⟨records, rfl, hscheduled⟩ | ⟨rfl, hactive⟩⟩ :=
      completeRefresh_ok hrefreshed
    · exact .refreshRestarted hheld hclass hclaim hscheduled
    · have heffect : NodeEffect env nodeId s (.completeRefresh i now) _ :=
        .refreshCompleted hheld hclass hclaim hphase hactive
      by_cases hlive : held.work.workClass = .live
      · simp only [if_pos hlive] at heffect ⊢
        exact heffect
      · simp only [if_neg hlive] at heffect ⊢
        exact heffect
  · cases h

theorem restartStep_effect (hheld : s.workers i = some held)
    (h : restartStep s i held now = some s') : NodeEffect env nodeId s (.restart i now) s' := by
  rw [restartStep] at h
  split at h
  case h_3 => exact absurd h (Option.some_ne_none _).symm
  all_goals
    split at h
    next hclass =>
      obtain ⟨records, hrecords, rfl⟩ := Option.map_eq_some_iff.mp h
      obtain ⟨record, hclaim, hscheduled⟩ := restart_ok hrecords
      exact .restart hheld hclass hclaim hscheduled
    · cases h

theorem beginAccessStep_effect {compiled : SearchAccess} (hheld : s.workers i = some held)
    (h : beginAccessStep s i held now compiled = some s') :
    NodeEffect env nodeId s (.beginAccess i now compiled) s' := by
  rw [beginAccessStep] at h
  split at h
  · split at h
    · cases h
    next hguard =>
    rw [not_or, not_not] at hguard
    obtain ⟨plan, hplan, rfl⟩ := Option.map_eq_some_iff.mp h
    obtain ⟨record, hclaim, rfl | ⟨access, progress, work, _, rfl, hprogress, hsame, hshape⟩⟩ := beginAccess_ok hplan
    · rw [hguard.1]
      exact .beginFinished hheld hguard.1 hclaim
    · rcases hshape with rfl | rfl
      · exact .begun hheld hguard.1 hclaim hprogress hsame (.inl rfl)
      · exact .begun hheld hguard.1 hclaim hprogress hsame (.inr rfl)
  · cases h

theorem completeAccessStep_effect {accepted : List IssuedDocument} {pagesDone : Bool}
    (hheld : s.workers i = some held)
    (h : completeAccessStep env s i held now accepted pagesDone = some s') :
    NodeEffect env nodeId s (.completeAccess i now accepted pagesDone) s' := by
  rw [completeAccessStep] at h
  split at h
  next access hstage =>
    obtain ⟨records, hrecords, rfl⟩ := Option.map_eq_some_iff.mp h
    obtain ⟨record, hclaim, recorded, hshape⟩ := completeAccess_ok hrecords
    exact .accessCompleted hheld hstage hclaim hshape
  · cases h

theorem scheduleDependentsStep_effect {page : IDPage} (hheld : s.workers i = some held)
    (h : scheduleDependentsStep nodeId s i held now page = some s') :
    NodeEffect env nodeId s (.scheduleDependents i now page) s' := by
  rw [scheduleDependentsStep] at h
  split at h
  · split at h
    · cases h
    next hguard =>
    simp only [not_or, not_not] at hguard
    obtain ⟨records, hrecords, rfl⟩ := Option.map_eq_some_iff.mp h
    obtain ⟨record, self, fanout, hclaim, hself, hsame, hshape⟩ := scheduleDependents_ok hrecords
    rw [hguard.1] at hshape
    exact .dependentsScheduled hheld hguard.1 hguard.2 hclaim hself hsame hshape
  · cases h

theorem completeRetirementStep_effect {accepted : List IssuedDocument} {done : Bool} (hheld : s.workers i = some held)
    (h : completeRetirementStep s i held now accepted done = some s') :
    NodeEffect env nodeId s (.completeRetirement i now accepted done) s' := by
  rw [completeRetirementStep] at h
  split at h
  next hstage =>
    split at h
    · cases h
    next hguard =>
    rw [not_not] at hguard
    obtain ⟨records, hrecords, rfl⟩ := Option.map_eq_some_iff.mp h
    obtain ⟨hgranted, record, hclaim, retired, hretired, hshape⟩ := completeRetirement_ok hrecords
    rw [hguard] at hshape
    exact .retired hheld hguard hstage hgranted hclaim hretired hshape
  · cases h

/-- **What each move does.** -/
theorem nodeStep_effect {move : NodeMove} (h : nodeStep env nodeId s move = some s') :
    NodeEffect env nodeId s move s' := by
  -- a move of a worker needs the work that the worker holds
  have hworker : ∀ {i} {f : Held → Option NodeState}, (s.workers i).bind f = some s' →
      (∀ held, s.workers i = some held → f held = some s' → NodeEffect env nodeId s move s') →
      NodeEffect env nodeId s move s' := by
    intro i f hbind heffect
    obtain ⟨held, hheld, hstep⟩ := Option.bind_eq_some_iff.mp hbind
    exact heffect held hheld hstep
  cases move with
  | create => exact createNode_effect h
  | delete counterparts => exact deleteNode_effect h
  | change change => exact environmentChange_effect h
  | repairAccess => exact repairAccess_effect h
  | copyNode =>
    rw [nodeStep] at h
    split at h
    · cases h
    next hguard =>
    cases h
    exact .copyNode (by simpa using hguard)
  | mirrorMiss revision ordinal projection cursor => exact mirrorMiss_effect h
  | setOrg org =>
    cases h
    exact .setOrg
  | claim i c now lease => exact claimStep_effect h
  | read i page => exact hworker h fun _ hheld h => readStep_effect hheld h
  | register i now => exact hworker h fun _ hheld h => registerStep_effect hheld h
  | completePage i now missed => exact hworker h fun _ hheld h => completePageStep_effect hheld h
  | completeRefresh i now => exact hworker h fun _ hheld h => completeRefreshStep_effect hheld h
  | restart i now => exact hworker h fun _ hheld h => restartStep_effect hheld h
  | beginAccess i now compiled => exact hworker h fun _ hheld h => beginAccessStep_effect hheld h
  | completeAccess i now accepted pagesDone => exact hworker h fun _ hheld h => completeAccessStep_effect hheld h
  | scheduleDependents i now page => exact hworker h fun _ hheld h => scheduleDependentsStep_effect hheld h
  | completeRetirement i now accepted done => exact hworker h fun _ hheld h => completeRetirementStep_effect hheld h
  | exclude i now =>
    obtain ⟨held, hheld, h⟩ := Option.bind_eq_some_iff.mp h
    obtain ⟨records, hrecords, rfl⟩ := Option.map_eq_some_iff.mp h
    obtain ⟨record, hclaim, hexcludable, scheduled, access, hscheduled, rfl⟩ := exclude_ok hrecords
    exact .excluded hheld hclaim hexcludable hscheduled
  | yield i now =>
    obtain ⟨held, hheld, h⟩ := Option.bind_eq_some_iff.mp h
    obtain ⟨records, hrecords, rfl⟩ := Option.map_eq_some_iff.mp h
    obtain ⟨record, hclaim, rfl⟩ := yieldClaim_ok hrecords
    exact .yielded hheld hclaim
  | release i now delay =>
    obtain ⟨held, hheld, h⟩ := Option.bind_eq_some_iff.mp h
    obtain ⟨records, hrecords, rfl⟩ := Option.map_eq_some_iff.mp h
    obtain ⟨record, hclaim, claim, howner, hgeneration, rfl⟩ := release_ok hrecords
    exact .released hheld hclaim howner hgeneration
  | stop i =>
    cases h
    exact .stopped

end Effects

/-! ### A small organization for concrete runs -/

def sampleEnv : StoreEnv where
  identity state := state.digest
  issuedCursor document := document.projection

/-- One serving index and a projection that this writer produces. -/
def sampleOrg : OrgState where
  scope := some ⟨"pages", none⟩
  projection := ⟨searchRendererVersion, searchProjectionFormat, "v1", 1⟩
  writeVersions := [stableVersion]

/-- A page of the first revision of a node. -/
def samplePage (ordinal : ℕ) (nextCursor : String) (done : Bool) : ContentPage :=
  ⟨1, "v1", "text", ⟨[stableVersion], ["org"], 1⟩, ordinal, 0, nextCursor, done⟩

end Tack.Search

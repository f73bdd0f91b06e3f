import Tack.Search.Records

/-!
# Claims and steps of search workers

A worker leases one pending record of a node and works under that claim.  Every later transaction of the
worker verifies the claim again: the pending record, the generation, the owner, the lease and the index
that the claim writes.

## Main definitions

* `Search.claimWorkItem`, `Search.verifyClaim` — taking and checking a claim.
* `Search.register`, `Search.completePage`, `Search.completeRefresh`, `Search.restart` — content work.
* `Search.beginAccess`, `Search.completeAccess`, `Search.scheduleDependents` — access work.
* `Search.completeRetirement`, `Search.exclude`, `Search.yieldClaim`, `Search.release`.

## Main results

* `Search.verifyClaim_ok` — what a verified claim says.
-/

namespace Tack.Search

open Lib

/-! ### The organization and the indexes -/

inductive RebuildState
  | creating
  | copying
  | verifying
  | switching
  | retiring
  | failed
  deriving DecidableEq

/-- The index replacement as a claim reads it. -/
structure Rebuild where
  targetIndex : String
  state : RebuildState
  paused : Bool
  deriving DecidableEq

/-- The replacement index that every write also goes to. -/
def Rebuild.mirror (rebuild : Rebuild) : String :=
  match rebuild.state with
  | .copying | .verifying | .switching => rebuild.targetIndex
  | .creating | .retiring | .failed => ""

structure ClaimScope where
  serving : String
  rebuild : Option Rebuild
  deriving DecidableEq

/-- The index that a claim of a class writes and the replacement index that it also writes. -/
def ClaimScope.targets (scope : ClaimScope) (c : WorkClass) : Option (String × String) :=
  match scope.rebuild with
  | none => if c = .copy then none else some (scope.serving, "")
  | some rebuild =>
    if c = .copy then if rebuild.mirror = "" then none else some (rebuild.targetIndex, "")
    else some (scope.serving, rebuild.mirror)

def searchRendererVersion : ℕ := 1

def searchProjectionFormat : ℕ := 2

structure ProjectionState where
  renderer : ℕ
  format : ℕ
  digest : String
  activation : ℕ
  deriving DecidableEq

/-- The state of an organization without a projection record. -/
def ProjectionState.legacy : ProjectionState := ⟨0, 1, "", 0⟩

def ProjectionState.writerProjection (state : ProjectionState) : Bool :=
  state.renderer = searchRendererVersion ∧ state.format = searchProjectionFormat

/-- What the claims and steps read beside the records of the node. -/
structure OrgState where
  /-- The serving index and the replacement; `none` while no serving index is recorded. -/
  scope : Option ClaimScope
  projection : ProjectionState
  writeVersions : List String
  deriving DecidableEq

/-- The functions that the store uses: the identity of a projection and the cursor of a document. -/
structure StoreEnv where
  identity : ProjectionState → String
  issuedCursor : IssuedDocument → String

/-! ### Claims -/

/-- A leased claim. -/
structure Work where
  workClass : WorkClass
  generation : ℕ
  revision : ℕ
  projection : String
  cursor : String
  ordinal : ℕ
  phase : WorkPhase
  deleted : Bool
  owner : ℕ
  target : String
  mirror : String
  deriving DecidableEq

/-- Live and copy work stays pending while this writer does not produce the active projection. -/
def projectionGate (org : OrgState) : WorkClass → Bool
  | .live | .copy => !org.projection.writerProjection
  | .access | .cleanup => false

/-- The stored checkpoint of a record, or the first page. -/
def readProgress (s : NodeRecords) (c : WorkClass) (record : WorkRecord) : ProgressRecord :=
  let initial : ProgressRecord := ⟨record.revision, record.generation, "", "", 0, .pages⟩
  match s.progress c with
  | none => initial
  | some progress =>
    if c = .live ∧ progress.revision ≠ record.revision then initial
    else if c ≠ .live ∧ progress.generation ≠ record.generation then initial
    else progress

def dropSearchWork (s : NodeRecords) (c : WorkClass) : NodeRecords :=
  (s.setWork c none).setClaim c none

/-- A claim that keeps others away. -/
def ClaimRecord.holds (claim : ClaimRecord) (generation : ℕ) (target mirror : String) (now : Time) : Bool :=
  claim.generation = generation ∧ claim.target = target ∧ claim.mirror = mirror ∧
    claim.leaseUntil.after now

/-- Leases the pending record of a class.  A record that no claim can take is dropped. -/
def claimWorkItem (org : OrgState) (now : Time) (lease : Time.Duration) (owner : ℕ) (c : WorkClass)
    (s : NodeRecords) : Option (NodeRecords × Option Work) := do
  let scope ← org.scope
  let record ← s.work c
  if scope.rebuild.any Rebuild.paused then none
  else match scope.targets c with
    | none => some (dropSearchWork s c, none)
    | some (target, mirror) =>
      if s.generation ≠ record.generation then some (dropSearchWork s c, none)
      else if projectionGate org c then none
      else if (s.claim c).any fun claim => claim.holds record.generation target mirror now then none
      else
        let progress := readProgress s c record
        some (s.setClaim c (some ⟨some owner, record.generation, now.add lease, target, mirror⟩),
          some ⟨c, record.generation, record.revision, progress.projection, progress.cursor,
            progress.ordinal, progress.phase, record.deleted, owner, target, mirror⟩)

/-- The pending record of a claim that still holds. -/
def verifyClaim (org : OrgState) (now : Time) (s : NodeRecords) (work : Work) : Option WorkRecord := do
  let record ← s.work work.workClass
  if record.generation ≠ work.generation ∨ s.generation ≠ work.generation then none
  else
    let claim ← s.claim work.workClass
    if claim.owner ≠ some work.owner ∨ claim.generation ≠ work.generation ∨
        claim.target ≠ work.target ∨ claim.mirror ≠ work.mirror ∨ !claim.leaseUntil.after now then none
    else
      let scope ← org.scope
      if scope.targets work.workClass ≠ some (work.target, work.mirror) then none
      else some record

/-! ### Content work -/

/-- One page of a node's projected text. -/
structure ContentPage where
  revision : ℕ
  projection : String
  text : String
  access : SearchAccess
  ordinal : ℕ
  overlapBytes : ℕ
  nextCursor : String
  done : Bool
  deriving DecidableEq

def maxPageBytes : ℕ := 4096

def validatePageText (text : String) : Bool := text ≠ "" ∧ text.utf8ByteSize ≤ maxPageBytes

/-- Opaque values are sorted and unique, and none is empty. -/
def validateAccess (access : SearchAccess) : Bool :=
  access.versions ≠ [] ∧ access.keys ≠ [] ∧ access.versions.Pairwise (· < ·) ∧
    access.keys.Pairwise (· < ·) ∧ "" ∉ access.versions ∧ "" ∉ access.keys

def validatePage (work : Work) (page : ContentPage) : Bool :=
  (work.workClass = .live ∨ work.workClass = .copy) ∧ work.target ≠ "" ∧ 0 < work.generation ∧
    page.projection ≠ "" ∧ validatePageText page.text ∧ page.overlapBytes ≤ maxPageBytes / 4 ∧
    page.overlapBytes < page.text.utf8ByteSize ∧ page.access.generation = work.generation ∧
    validateAccess page.access

/-- The projection is the one that the organization's pages use now. -/
def activeProjection (env : StoreEnv) (org : OrgState) (projection : String) : Bool :=
  org.projection.writerProjection && env.identity org.projection == projection

/-- The access record of a node whose next page this is. -/
def verifyPage (org : OrgState) (now : Time) (s : NodeRecords) (work : Work) (page : ContentPage) :
    Option AccessRecord := do
  let record ← verifyClaim org now s work
  let progress := readProgress s work.workClass record
  let access ← s.access
  if record.revision ≠ page.revision ∨ s.revision ≠ page.revision then none
  else if progress.phase ≠ .pages ∨ page.ordinal ≠ progress.ordinal then none
  else if 0 < progress.ordinal ∧ page.projection ≠ progress.projection then none
  else if access.access.versions ≠ page.access.versions then none
  else some access

/-- The same versions and keys, at any generation. -/
def sameAccess (recorded compiled : SearchAccess) : Bool :=
  recorded.versions = compiled.versions ∧ recorded.keys = compiled.keys

def trackRegisteredAccess (state : AccessRecord) (registered : SearchAccess) : AccessRecord :=
  if !state.pageAccessTracked then state
  else match state.pageAccess with
    | none => { state with pageAccess := some registered }
    | some recorded =>
      if !sameAccess recorded registered then
        { state with pageAccess := none, pageAccessTracked := false }
      else { state with
        pageAccess := some { recorded with generation := min recorded.generation registered.generation } }

/-- Records the document of a page before it is written to an index. -/
def register (env : StoreEnv) (org : OrgState) (now : Time) (s : NodeRecords) (work : Work)
    (page : ContentPage) : Option NodeRecords :=
  if !validatePage work page then none
  else do
  let access ← verifyPage org now s work page
  let document : IssuedDocument := ⟨page.revision, page.ordinal, page.projection⟩
  -- an earlier owner may have issued the same ordinal under another projection
  if s.issued.any fun issued => issued.revision = page.revision ∧ issued.ordinal = page.ordinal ∧
      issued.projection ≠ page.projection then none
  else if !activeProjection env org page.projection then none
  else some { s with
    access := some (trackRegisteredAccess access page.access)
    issued := if document ∈ s.issued then s.issued else s.issued ++ [document] }

/-- Commits the checkpoint after a page; `missed` says that the replacement index missed the page. -/
def completePage (org : OrgState) (now : Time) (s : NodeRecords) (work : Work) (page : ContentPage)
    (missed : Bool) : Option NodeRecords := do
  let _ ← verifyPage org now s work page
  let mirrored := if missed then
      scheduleMirrorCopy work.generation page.revision page.ordinal work.projection work.cursor s
    else s
  return mirrored.setProgress work.workClass (some ⟨page.revision, work.generation, page.projection,
    page.nextCursor, page.ordinal + 1, if page.done then .refresh else .pages⟩)

/-- Schedules a new revision of a node under a claim. -/
def restart (org : OrgState) (now : Time) (s : NodeRecords) (work : Work) : Option NodeRecords := do
  let _ ← verifyClaim org now s work
  let scheduled ← scheduleSearchChange org.writeVersions .content (s.setClaim work.workClass none)
  return scheduled.1

/-- The work of a class is finished. -/
def clearSearchWork (s : NodeRecords) (c : WorkClass) : NodeRecords := s.clearClass c

inductive Refreshed
  | restarted (s : NodeRecords)
  | completed (s : NodeRecords) (record : WorkRecord)

/-- The records after finished content work: the exclusion is gone, and live work leaves the cleanup of
the older revisions. -/
def afterRefresh (s : NodeRecords) (work : Work) (record : WorkRecord) : NodeRecords :=
  let cleared := { clearSearchWork s work.workClass with excluded := false }
  if work.workClass = .copy then cleared
  else cleared.setWork .cleanup (some { record with deleted := false })

/-- Finishes content work after the index was refreshed.  A page under an obsolete projection restarts
the node. -/
def completeRefresh (env : StoreEnv) (org : OrgState) (now : Time) (s : NodeRecords) (work : Work) :
    Option Refreshed := do
  let record ← verifyClaim org now s work
  let progress := readProgress s work.workClass record
  if progress.phase ≠ .refresh then none
  else if !activeProjection env org progress.projection then
    let scheduled ← scheduleSearchChange org.writeVersions .content (s.setClaim work.workClass none)
    return .restarted scheduled.1
  else return .completed (afterRefresh s work record) record

/-! ### Access work -/

/-- The access state of a node without a record: the stable policy version and no keys. -/
def stableVersion : String := "org-scope-v1"

def accessRecordFor (s : NodeRecords) : AccessRecord :=
  s.access.getD ⟨⟨[stableVersion], [], 0⟩, false, false, none, false⟩

inductive RegisteredPages
  | stored
  | untracked
  | differ
  deriving DecidableEq

/-- How the registered pages compare with compiled access, and the generation that the access gets. -/
def checkRegisteredPages (state : AccessRecord) (compiled : SearchAccess) (generation : ℕ) :
    RegisteredPages × ℕ :=
  if !state.pageAccessTracked || state.pagesPending then (.untracked, generation)
  else match state.pageAccess with
    | none => (.stored, generation)
    | some recorded =>
      if !sameAccess recorded compiled then (.differ, generation) else (.stored, recorded.generation)

/-- Records compiled access that differs from the recorded one. -/
def recordCompiledAccess (state : AccessRecord) (compiled : SearchAccess) (generation : ℕ) :
    AccessRecord × WorkPhase :=
  match checkRegisteredPages state compiled generation with
  | (.stored, generation) =>
    (⟨{ compiled with generation := generation }, false, true, none, false⟩, .dependents)
  | (.untracked, _) | (.differ, _) =>
    (⟨{ compiled with generation := generation }, true, true, none, false⟩, .pages)

def writeAccessProgress (s : NodeRecords) (record : WorkRecord) (phase : WorkPhase) (cursor : String) :
    NodeRecords :=
  s.setProgress .access (some ⟨record.revision, record.generation, "", cursor, 0, phase⟩)

inductive AccessPlan
  | finished (s : NodeRecords)
  | pages (s : NodeRecords) (work : Work)
  | dependents (s : NodeRecords) (work : Work)

/-- Records the compiled access of a node before any page is updated. -/
def beginAccess (org : OrgState) (now : Time) (s : NodeRecords) (work : Work) (compiled : SearchAccess) :
    Option AccessPlan := do
  let record ← verifyClaim org now s work
  let state := accessRecordFor s
  let toDependents : Work := { work with phase := .dependents, cursor := "" }
  if !sameAccess state.access compiled then
    match recordCompiledAccess state compiled work.generation with
    | (recorded, .dependents) =>
      return .dependents (writeAccessProgress { s with access := some recorded } record .dependents "")
        toDependents
    | (recorded, _) =>
      return .pages (writeAccessProgress { s with access := some recorded } record .pages "")
        { work with phase := .pages, cursor := "" }
  else if state.pagesPending then return .pages s work
  else if state.dependentsPending then
    return .dependents (writeAccessProgress s record .dependents "") toDependents
  else return .finished (clearSearchWork s work.workClass)

/-- Commits the accepted documents of one access batch. -/
def completeAccess (env : StoreEnv) (org : OrgState) (now : Time) (s : NodeRecords) (work : Work)
    (access : SearchAccess) (accepted : List IssuedDocument) (pagesDone : Bool) : Option NodeRecords := do
  let record ← verifyClaim org now s work
  let state := accessRecordFor s
  let cursor := (accepted.getLast?.map env.issuedCursor).getD work.cursor
  if !sameAccess state.access access then none
  else if !pagesDone then return writeAccessProgress s record work.phase cursor
  else
    let updated := { s with access := some { state with pagesPending := false } }
    if !state.dependentsPending then return clearSearchWork updated work.workClass
    else return writeAccessProgress updated record .dependents ""

/-- One bounded page of node IDs. -/
structure IDPage where
  ids : List UUID
  nextCursor : String
  done : Bool

/-- The node's own records after a page of its dependents is scheduled.  When the page lists the node
itself, its access work is scheduled like that of the others, before the page is checkpointed. -/
def scheduleDependents (org : OrgState) (nodeId : UUID) (now : Time) (s : NodeRecords) (work : Work)
    (page : IDPage) : Option NodeRecords := do
  let record ← verifyClaim org now s work
  let self ← (page.ids.filter (· = nodeId)).foldlM
    (fun s _ => scheduleExistingSearchChange org.writeVersions .access s) s
  let scheduled := if record.deleted then { self with fanout := self.fanout.filter (· ∉ page.ids) } else self
  if !page.done then return writeAccessProgress scheduled record .dependents page.nextCursor
  else if record.deleted then return finishDeletedClass work.workClass scheduled
  else
    let state := accessRecordFor scheduled
    return clearSearchWork { scheduled with access := some { state with dependentsPending := false } }
      work.workClass

/-! ### Cleanup, exclusion and release -/

/-- Clears the documents that the indexes retired. -/
def completeRetirement (org : OrgState) (now : Time) (s : NodeRecords) (work : Work)
    (accepted : List IssuedDocument) (done : Bool) : Option NodeRecords := do
  let record ← verifyClaim org now s work
  let retired := { s with issued := s.issued.filter (· ∉ accepted) }
  if !done then return retired
  else if record.deleted then return finishDeletedClass work.workClass retired
  else return clearSearchWork retired work.workClass

def Work.excludable (work : Work) : Bool := !work.deleted ∧ work.workClass ≠ .cleanup

/-- Excludes a node that search cannot index. -/
def exclude (org : OrgState) (now : Time) (s : NodeRecords) (work : Work) : Option NodeRecords := do
  let _ ← verifyClaim org now s work
  if !work.excludable then none
  else
    let scheduled ← scheduleSearchChange org.writeVersions .exclusion (clearSearchWork s work.workClass)
    let state := scheduled.1.access.getD ⟨⟨[], [], 0⟩, false, false, none, false⟩
    return { scheduled.1 with
      access := some { state with
        access := { state.access with keys := [] }, pagesPending := false, dependentsPending := false }
      excluded := true }

def yieldClaim (org : OrgState) (now : Time) (s : NodeRecords) (work : Work) : Option NodeRecords := do
  let _ ← verifyClaim org now s work
  return s.setClaim work.workClass none

/-- Keeps the work pending and delays its next claim. -/
def release (org : OrgState) (now : Time) (delay : Time.Duration) (s : NodeRecords) (work : Work) :
    Option NodeRecords := do
  let _ ← verifyClaim org now s work
  return s.setClaim work.workClass
    (some ⟨none, work.generation, now.add delay, work.target, work.mirror⟩)

/-! ### What a step says -/

section Steps

variable {env : StoreEnv} {org : OrgState} {now : Time} {s s' : NodeRecords} {work : Work}
  {record : WorkRecord} {page : ContentPage}

/-- A claim that still holds. -/
structure Verified (s : NodeRecords) (work : Work) (record : WorkRecord) : Prop where
  pending : s.work work.workClass = some record
  recordGeneration : record.generation = work.generation
  generation : s.generation = work.generation
  lease : ∃ claim, s.claim work.workClass = some claim ∧ claim.owner = some work.owner ∧
    claim.generation = work.generation

/-- The lease of a claim still runs, and its indexes are still the ones that claims write. -/
structure Granted (org : OrgState) (now : Time) (s : NodeRecords) (work : Work) : Prop where
  lease : ∃ claim, s.claim work.workClass = some claim ∧ claim.owner = some work.owner ∧
    claim.leaseUntil.after now = true
  scope : ∃ scope, org.scope = some scope ∧
    scope.targets work.workClass = some (work.target, work.mirror)

theorem verifyClaim_ok (h : verifyClaim org now s work = some record) :
    Verified s work record ∧ Granted org now s work := by
  obtain ⟨record', hwork, h⟩ := Option.bind_eq_some_iff.mp h
  obtain ⟨hgeneration, h⟩ := Option.ite_none_left_eq_some.mp h
  obtain ⟨claim, hclaim, h⟩ := Option.bind_eq_some_iff.mp h
  obtain ⟨hheld, h⟩ := Option.ite_none_left_eq_some.mp h
  obtain ⟨scope, hscope, h⟩ := Option.bind_eq_some_iff.mp h
  obtain ⟨htargets, h⟩ := Option.ite_none_left_eq_some.mp h
  cases h
  simp only [not_or, not_not] at hgeneration hheld htargets
  exact ⟨⟨hwork, hgeneration.1, hgeneration.2, claim, hclaim, hheld.1, hheld.2.1⟩,
    ⟨claim, hclaim, hheld.1, by simpa using hheld.2.2.2.2⟩, scope, hscope, htargets⟩

/-- A step under a claim that holds. -/
theorem verifyClaim_bind {β : Type} {f : WorkRecord → Option β} {b : β}
    (h : (verifyClaim org now s work).bind f = some b) :
    ∃ record, Verified s work record ∧ Granted org now s work ∧ f record = some b := by
  obtain ⟨record, hclaim, h⟩ := Option.bind_eq_some_iff.mp h
  exact ⟨record, (verifyClaim_ok hclaim).1, (verifyClaim_ok hclaim).2, h⟩

/-- The same lease, whatever the progress. -/
structure SameLease (work work' : Work) : Prop where
  workClass : work'.workClass = work.workClass
  generation : work'.generation = work.generation
  revision : work'.revision = work.revision
  deleted : work'.deleted = work.deleted
  owner : work'.owner = work.owner
  target : work'.target = work.target
  mirror : work'.mirror = work.mirror

theorem SameLease.refl (work : Work) : SameLease work work := ⟨rfl, rfl, rfl, rfl, rfl, rfl, rfl⟩

/-- The next page of a verified claim. -/
structure VerifiedPage (s : NodeRecords) (work : Work) (page : ContentPage) (record : WorkRecord)
    (access : AccessRecord) : Prop where
  claim : Verified s work record
  recordRevision : record.revision = page.revision
  revision : s.revision = page.revision
  phase : (readProgress s work.workClass record).phase = .pages
  ordinal : page.ordinal = (readProgress s work.workClass record).ordinal
  projection : 0 < page.ordinal → page.projection = (readProgress s work.workClass record).projection
  recorded : s.access = some access
  versions : access.access.versions = page.access.versions

theorem verifyPage_ok {access : AccessRecord} (h : verifyPage org now s work page = some access) :
    Granted org now s work ∧ ∃ record, VerifiedPage s work page record access := by
  obtain ⟨record, hclaim, hgranted, h⟩ := verifyClaim_bind h
  obtain ⟨access', haccess, h⟩ := Option.bind_eq_some_iff.mp h
  obtain ⟨hrevision, h⟩ := Option.ite_none_left_eq_some.mp h
  obtain ⟨hphase, h⟩ := Option.ite_none_left_eq_some.mp h
  obtain ⟨hprojection, h⟩ := Option.ite_none_left_eq_some.mp h
  obtain ⟨hversions, h⟩ := Option.ite_none_left_eq_some.mp h
  cases h
  simp only [not_or, not_not] at hrevision hphase hversions
  refine ⟨hgranted, record, hclaim, hrevision.1, hrevision.2, hphase.1, hphase.2, fun hpos => ?_,
    haccess, hversions⟩
  by_contra hne
  exact hprojection ⟨hphase.2 ▸ hpos, hne⟩

theorem register_ok (h : register env org now s work page = some s') :
    Granted org now s work ∧ ∃ record access, VerifiedPage s work page record access ∧
      validatePage work page = true ∧
      activeProjection env org page.projection = true ∧
      s' = { s with
        access := some (trackRegisteredAccess access page.access)
        issued := if (⟨page.revision, page.ordinal, page.projection⟩ : IssuedDocument) ∈ s.issued
          then s.issued else s.issued ++ [⟨page.revision, page.ordinal, page.projection⟩] } := by
  rw [register] at h
  obtain ⟨hvalid, h⟩ := Option.ite_none_left_eq_some.mp h
  obtain ⟨access, haccess, h⟩ := Option.bind_eq_some_iff.mp h
  obtain ⟨hgranted, record, hpage⟩ := verifyPage_ok haccess
  obtain ⟨-, h⟩ := Option.ite_none_left_eq_some.mp h
  obtain ⟨hactive, h⟩ := Option.ite_none_left_eq_some.mp h
  cases h
  simp only [Bool.not_eq_true', Bool.not_eq_false] at hactive hvalid
  exact ⟨hgranted, record, access, hpage, hvalid, hactive, rfl⟩

/-- The checkpoint after a page. -/
def pageProgress (work : Work) (page : ContentPage) : ProgressRecord :=
  ⟨page.revision, work.generation, page.projection, page.nextCursor, page.ordinal + 1,
    if page.done then .refresh else .pages⟩

/-- What the copy of a missed page does. -/
theorem scheduleMirrorCopy_eq (generation revision ordinal : ℕ) (projection cursor : String) (s : NodeRecords) :
    ∃ record progress, (record = s.work .copy ∨ record = some ⟨generation, revision, false⟩) ∧
      scheduleMirrorCopy generation revision ordinal projection cursor s =
        (s.setWork .copy record).setProgress .copy progress := by
  rw [scheduleMirrorCopy]
  split
  · refine ⟨s.work .copy, s.progress .copy, .inl rfl, ?_⟩
    simp [NodeRecords.setWork, NodeRecords.setProgress]
  · exact ⟨_, _, .inr rfl, rfl⟩

theorem completePage_ok {missed : Bool} (h : completePage org now s work page missed = some s') :
    ∃ record access, VerifiedPage s work page record access ∧
      ∃ copy progress, (copy = s.work .copy ∨ copy = some ⟨work.generation, page.revision, false⟩) ∧
        s' = (((s.setWork .copy copy).setProgress .copy progress).setProgress work.workClass
          (some (pageProgress work page))) := by
  obtain ⟨access, haccess, h⟩ := Option.bind_eq_some_iff.mp h
  obtain ⟨-, record, hpage⟩ := verifyPage_ok haccess
  cases h
  refine ⟨record, access, hpage, ?_⟩
  cases missed with
  | true =>
    obtain ⟨copy, progress, hcopy, heq⟩ := scheduleMirrorCopy_eq work.generation page.revision
      page.ordinal work.projection work.cursor s
    exact ⟨copy, progress, hcopy, by rw [if_pos rfl, heq]; rfl⟩
  | false =>
    refine ⟨s.work .copy, s.progress .copy, .inl rfl, ?_⟩
    rw [if_neg Bool.false_ne_true]
    simp [NodeRecords.setWork, NodeRecords.setProgress, pageProgress]

theorem restart_ok (h : restart org now s work = some s') :
    ∃ record, Verified s work record ∧
      Scheduled org.writeVersions .content (s.setClaim work.workClass none) s' := by
  obtain ⟨record, hclaim, -, h⟩ := verifyClaim_bind h
  obtain ⟨scheduled, hscheduled, h⟩ := Option.bind_eq_some_iff.mp h
  cases h
  exact ⟨record, hclaim, (scheduleSearchChange_ok hscheduled).1⟩

/-- A refresh either restarts the node, or it finishes work whose projection is the active one. -/
theorem completeRefresh_ok {refreshed : Refreshed} (h : completeRefresh env org now s work = some refreshed) :
    ∃ record, Verified s work record ∧ (readProgress s work.workClass record).phase = .refresh ∧
      ((∃ s', refreshed = .restarted s' ∧
        Scheduled org.writeVersions .content (s.setClaim work.workClass none) s') ∨
      (refreshed = .completed (afterRefresh s work record) record ∧
        activeProjection env org (readProgress s work.workClass record).projection = true)) := by
  obtain ⟨record, hclaim, -, h⟩ := verifyClaim_bind h
  refine ⟨record, hclaim, ?_⟩
  dsimp only at h
  obtain ⟨hphase, h⟩ := Option.ite_none_left_eq_some.mp h
  rw [not_not] at hphase
  refine ⟨hphase, ?_⟩
  split at h
  · obtain ⟨scheduled, hscheduled, h⟩ := Option.bind_eq_some_iff.mp h
    cases h
    exact .inl ⟨_, rfl, (scheduleSearchChange_ok hscheduled).1⟩
  next hactive =>
  simp only [Bool.not_eq_true', Bool.not_eq_false] at hactive
  cases h
  exact .inr ⟨rfl, hactive⟩

/-- What the first access step does: it clears the work, or it stores the access and the checkpoint. -/
theorem beginAccess_ok {compiled : SearchAccess} {plan : AccessPlan}
    (h : beginAccess org now s work compiled = some plan) :
    ∃ record, Verified s work record ∧
      (plan = .finished (clearSearchWork s work.workClass) ∨
      ∃ access progress work' s', s' = ({ s with access := access }).setProgress .access progress ∧
        (progress = s.progress .access ∨ ∃ phase cursor,
          progress = some ⟨record.revision, record.generation, "", cursor, 0, phase⟩) ∧
        SameLease work work' ∧ (plan = .pages s' work' ∨ plan = .dependents s' work')) := by
  obtain ⟨record, hclaim, -, h⟩ := verifyClaim_bind h
  refine ⟨record, hclaim, ?_⟩
  dsimp only at h
  split at h
  · split at h
    next recorded _ =>
      cases h
      exact .inr ⟨some recorded, _, { work with phase := .dependents, cursor := "" }, _, rfl,
        .inr ⟨_, _, rfl⟩, ⟨rfl, rfl, rfl, rfl, rfl, rfl, rfl⟩, .inr rfl⟩
    next recorded _ _ _ =>
      cases h
      exact .inr ⟨some recorded, _, { work with phase := .pages, cursor := "" }, _, rfl,
        .inr ⟨_, _, rfl⟩, ⟨rfl, rfl, rfl, rfl, rfl, rfl, rfl⟩, .inl rfl⟩
  · split at h
    · cases h
      refine .inr ⟨s.access, s.progress .access, work, s, ?_, .inl rfl, .refl _, .inl rfl⟩
      simp [NodeRecords.setProgress]
    · split at h
      · cases h
        exact .inr ⟨s.access, _, { work with phase := .dependents, cursor := "" }, _, rfl,
          .inr ⟨_, _, rfl⟩, ⟨rfl, rfl, rfl, rfl, rfl, rfl, rfl⟩, .inr rfl⟩
      · cases h
        exact .inl rfl

theorem completeAccess_ok {access : SearchAccess} {accepted : List IssuedDocument} {pagesDone : Bool}
    (h : completeAccess env org now s work access accepted pagesDone = some s') :
    ∃ record, Verified s work record ∧ ∃ access,
      (s' = clearSearchWork { s with access := access } work.workClass ∨
        ∃ phase cursor, s' = writeAccessProgress { s with access := access } record phase cursor) := by
  obtain ⟨record, hclaim, -, h⟩ := verifyClaim_bind h
  refine ⟨record, hclaim, ?_⟩
  dsimp only at h
  obtain ⟨-, h⟩ := Option.ite_none_left_eq_some.mp h
  split at h
  · cases h
    exact ⟨s.access, .inr ⟨_, _, rfl⟩⟩
  split at h
  · cases h
    exact ⟨_, .inl rfl⟩
  · cases h
    exact ⟨_, .inr ⟨_, _, rfl⟩⟩

/-- The outcomes of a retirement that is checkpointed. -/
theorem completeRetirement_ok {accepted : List IssuedDocument} {done : Bool}
    (h : completeRetirement org now s work accepted done = some s') :
    Granted org now s work ∧ ∃ record, Verified s work record ∧ ∃ retired,
      retired = { s with issued := s.issued.filter (· ∉ accepted) } ∧
      (done = false ∧ s' = retired ∨
        done = true ∧ record.deleted = true ∧ s' = finishDeletedClass work.workClass retired ∨
        done = true ∧ record.deleted = false ∧ s' = clearSearchWork retired work.workClass) := by
  obtain ⟨record, hclaim, hgranted, h⟩ := verifyClaim_bind h
  refine ⟨hgranted, record, hclaim, _, rfl, ?_⟩
  split at h
  next hdone =>
    cases h
    exact .inl ⟨by simpa using hdone, rfl⟩
  next hdone =>
  split at h
  next hdeleted =>
    cases h
    exact .inr (.inl ⟨by simpa using hdone, hdeleted, rfl⟩)
  next hdeleted =>
    cases h
    exact .inr (.inr ⟨by simpa using hdone, by simpa using hdeleted, rfl⟩)

theorem exclude_ok (h : exclude org now s work = some s') :
    ∃ record, Verified s work record ∧ work.excludable = true ∧ ∃ scheduled access,
      Scheduled org.writeVersions .exclusion (clearSearchWork s work.workClass) scheduled ∧
      s' = { scheduled with access := some access, excluded := true } := by
  obtain ⟨record, hclaim, -, h⟩ := verifyClaim_bind h
  obtain ⟨hexcludable, h⟩ := Option.ite_none_left_eq_some.mp h
  obtain ⟨scheduled, hscheduled, h⟩ := Option.bind_eq_some_iff.mp h
  cases h
  simp only [Bool.not_eq_true', Bool.not_eq_false] at hexcludable
  exact ⟨record, hclaim, hexcludable, _, _, (scheduleSearchChange_ok hscheduled).1, rfl⟩

theorem yieldClaim_ok (h : yieldClaim org now s work = some s') :
    ∃ record, Verified s work record ∧ s' = s.setClaim work.workClass none := by
  obtain ⟨record, hclaim, -, h⟩ := verifyClaim_bind h
  cases h
  exact ⟨record, hclaim, rfl⟩

theorem release_ok {delay : Time.Duration} (h : release org now delay s work = some s') :
    ∃ record, Verified s work record ∧ ∃ claim : ClaimRecord, claim.owner = none ∧
      claim.generation = work.generation ∧ s' = s.setClaim work.workClass (some claim) := by
  obtain ⟨record, hclaim, -, h⟩ := verifyClaim_bind h
  cases h
  exact ⟨record, hclaim, _, rfl, rfl, rfl⟩

/-- A claim either drops a record that no claim can take, or it leases the record with its checkpoint. -/
theorem claimWorkItem_ok {lease : Time.Duration} {owner : ℕ} {c : WorkClass} {claimed : Option Work}
    (h : claimWorkItem org now lease owner c s = some (s', claimed)) :
    ∃ scope record, org.scope = some scope ∧ s.work c = some record ∧
      ((claimed = none ∧ s' = dropSearchWork s c ∧
        (scope.targets c = none ∨ s.generation ≠ record.generation)) ∨
      ∃ target mirror, scope.rebuild.any Rebuild.paused = false ∧ scope.targets c = some (target, mirror) ∧
        s.generation = record.generation ∧
        s' = s.setClaim c (some ⟨some owner, record.generation, now.add lease, target, mirror⟩) ∧
        claimed = some ⟨c, record.generation, record.revision, (readProgress s c record).projection,
          (readProgress s c record).cursor, (readProgress s c record).ordinal,
          (readProgress s c record).phase, record.deleted, owner, target, mirror⟩) := by
  obtain ⟨scope, hscope, h⟩ := Option.bind_eq_some_iff.mp h
  obtain ⟨record, hrecord, h⟩ := Option.bind_eq_some_iff.mp h
  refine ⟨scope, record, hscope, hrecord, ?_⟩
  obtain ⟨hpaused, h⟩ := Option.ite_none_left_eq_some.mp h
  split at h
  next htargets =>
    cases h
    exact .inl ⟨rfl, rfl, .inl htargets⟩
  next target mirror htargets =>
  split at h
  next hgeneration =>
    cases h
    exact .inl ⟨rfl, rfl, .inr hgeneration⟩
  next hgeneration =>
  obtain ⟨-, h⟩ := Option.ite_none_left_eq_some.mp h
  obtain ⟨-, h⟩ := Option.ite_none_left_eq_some.mp h
  cases h
  exact .inr ⟨target, mirror, Bool.eq_false_of_not_eq_true hpaused, htargets, not_not.mp hgeneration, rfl,
    rfl⟩

/-- The access changes of a page that lists the node itself. -/
inductive SelfScheduled (versions : List String) : NodeRecords → NodeRecords → Prop
  | refl (s : NodeRecords) : SelfScheduled versions s s
  | step {s t u : NodeRecords} : s.stored = true →
      Scheduled versions (exclusionAdjustedChange s .access) s t → SelfScheduled versions t u →
      SelfScheduled versions s u

theorem SelfScheduled.stored {versions : List String} (h : SelfScheduled versions s s') :
    s'.stored = s.stored := by
  induction h with
  | refl => rfl
  | step _ hscheduled _ ih => exact ih.trans hscheduled.stored

theorem SelfScheduled.generation_le {versions : List String} (h : SelfScheduled versions s s') :
    s.generation ≤ s'.generation := by
  induction h with
  | refl => exact le_rfl
  | step _ hscheduled _ ih =>
    rw [hscheduled.generation] at ih
    exact (Nat.le_succ _).trans ih

theorem scheduleExistingSearchChange_ok {versions : List String} {change : SearchChange}
    (h : scheduleExistingSearchChange versions change s = some s') :
    (s.stored = false ∧ s' = s) ∨
      (s.stored = true ∧ Scheduled versions (exclusionAdjustedChange s change) s s') := by
  rw [scheduleExistingSearchChange] at h
  split at h
  next hstored =>
    obtain ⟨scheduled, hscheduled, rfl⟩ := Option.map_eq_some_iff.mp h
    exact .inr ⟨hstored, (scheduleSearchChange_ok hscheduled).1⟩
  next hstored =>
    cases h
    exact .inl ⟨by simpa using hstored, rfl⟩

theorem foldlM_scheduleExisting_ok {versions : List String} (ids : List UUID)
    (h : ids.foldlM (fun s _ => scheduleExistingSearchChange versions .access s) s = some s') :
    SelfScheduled versions s s' ∧ (ids = [] → s' = s) ∧
      (ids ≠ [] → s.stored = true → s.generation < s'.generation) := by
  induction ids generalizing s with
  | nil =>
    cases h
    exact ⟨.refl _, fun _ => rfl, fun hne => absurd rfl hne⟩
  | cons id ids ih =>
    rw [List.foldlM_cons] at h
    obtain ⟨after, hafter, hrest⟩ := Option.bind_eq_some_iff.mp h
    obtain ⟨hself, -⟩ := ih hrest
    rcases scheduleExistingSearchChange_ok hafter with ⟨hunstored, rfl⟩ | ⟨hstored, hscheduled⟩
    · exact ⟨hself, fun hnil => absurd hnil (List.cons_ne_nil _ _), fun _ hstored =>
        absurd (hunstored.symm.trans hstored) Bool.false_ne_true⟩
    · refine ⟨.step hstored hscheduled hself, fun hnil => absurd hnil (List.cons_ne_nil _ _), fun _ _ => ?_⟩
      have hle := hself.generation_le
      rw [hscheduled.generation] at hle
      exact hle

theorem scheduleDependents_ok {nodeId : UUID} {page : IDPage}
    (h : scheduleDependents org nodeId now s work page = some s') :
    ∃ record self fanout, Verified s work record ∧ SelfScheduled org.writeVersions s self ∧
      ((nodeId ∉ page.ids → self = s) ∧
        (nodeId ∈ page.ids → s.stored = true → s.generation < self.generation)) ∧
      (page.done = false ∧
          s' = writeAccessProgress { self with fanout := fanout } record .dependents page.nextCursor ∨
        page.done = true ∧ record.deleted = true ∧
          s' = finishDeletedClass work.workClass { self with fanout := fanout } ∨
        page.done = true ∧ record.deleted = false ∧ ∃ access,
          s' = clearSearchWork { self with fanout := fanout, access := access } work.workClass) := by
  obtain ⟨record, hclaim, -, h⟩ := verifyClaim_bind h
  obtain ⟨self, hself, h⟩ := Option.bind_eq_some_iff.mp h
  obtain ⟨hscheduled, hsame, hlater⟩ := foldlM_scheduleExisting_ok _ hself
  have hnone : nodeId ∉ page.ids → self = s := by
    intro hnot
    refine hsame (List.filter_eq_nil_iff.mpr fun id hid => ?_)
    rw [decide_eq_true_eq]
    rintro rfl
    exact hnot hid
  refine ⟨record, self, if record.deleted then self.fanout.filter (· ∉ page.ids) else self.fanout,
    hclaim, hscheduled, ⟨hnone, fun hlisted => hlater fun hnil => ?_⟩, ?_⟩
  · exact absurd (hnil ▸ List.mem_filter.mpr ⟨hlisted, decide_eq_true rfl⟩) List.not_mem_nil
  have hfanout : (if record.deleted = true then
      { self with fanout := self.fanout.filter (· ∉ page.ids) } else self) =
      { self with fanout :=
        if record.deleted then self.fanout.filter (· ∉ page.ids) else self.fanout } := by
    cases record.deleted <;> rfl
  dsimp only at h
  rw [hfanout] at h
  generalize (if record.deleted = true then self.fanout.filter (· ∉ page.ids) else self.fanout) = fanout
    at h ⊢
  split at h
  next hdone =>
    cases h
    exact .inl ⟨by simpa using hdone, rfl⟩
  next hdone =>
  split at h
  next hdeleted =>
    cases h
    exact .inr (.inl ⟨by simpa using hdone, hdeleted, rfl⟩)
  next hdeleted =>
    cases h
    exact .inr (.inr ⟨by simpa using hdone, by simpa using hdeleted, _, rfl⟩)

end Steps

end Tack.Search

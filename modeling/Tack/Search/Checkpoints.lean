import Tack.Search.Lifetime

/-!
# Page checkpoints commit once and in order

The pages of one content revision are committed by whichever worker holds the live claim at the time.  A
checkpoint survives an access change, which increments the generation, and a content change discards it.
The invariant ties the stored checkpoint of the pending live record to the pages that the log holds for its
revision, and the cursor of the worker whose claim holds to the stored checkpoint.

## Main definitions

* `Search.PagesInOrder`, `Search.RevisionInOrder` — what the log says about one revision.
* `Search.CheckpointInv` — the invariant.

## Main results

* `Search.checkpoints_exactly_once` — the pages of every revision are committed once and in order, a refresh
  only after the last of them, and at most one worker's claim on a class is accepted.
-/

namespace Tack.Search

open Lib

/-! ### The log of one revision -/

def SearchCommit.revision : SearchCommit → ℕ
  | .page entry => entry.revision
  | .refresh revision _ _ => revision

/-- The commits of one revision, in order. -/
def revisionEntries (revision : ℕ) (log : List SearchCommit) : List SearchCommit :=
  log.filter fun entry => entry.revision = revision

/-- Ordinals 0, 1, 2, ..., each page under the cursor that the one before it stored, all with one
projection, and none after a page that is marked done. -/
structure PagesInOrder (pages : List CompletedPage) : Prop where
  ordinals : pages.map CompletedPage.ordinal = List.range pages.length
  cursors : pages.map CompletedPage.under = ("" :: pages.map CompletedPage.cursor).take pages.length
  projections : ∀ page ∈ pages, ∀ other ∈ pages, page.projection = other.projection
  unfinished : ∀ page ∈ pages.dropLast, page.done = false

/-- The pages of the revision in order, then at most one refresh: after a page that was marked done, and
with its projection the active one of the organization. -/
def RevisionInOrder (env : StoreEnv) (revision : ℕ) (entries : List SearchCommit) : Prop :=
  ∃ pages refreshes, entries = pages.map SearchCommit.page ++ refreshes ∧ PagesInOrder pages ∧
    (refreshes = [] ∨ ∃ last active, pages.getLast? = some last ∧ last.done = true ∧
      refreshes = [.refresh revision last.projection active] ∧ active.writerProjection = true ∧
      env.identity active = last.projection)

/-- A checkpoint after these pages. -/
structure CheckpointAfter (pages : List CompletedPage) (progress : ProgressRecord) : Prop where
  ordinal : progress.ordinal = pages.length
  cursor : progress.cursor = ((pages.map CompletedPage.cursor).getLast?).getD ""
  projection : ∀ page ∈ pages, page.projection = progress.projection
  phase : progress.phase = if pages.getLast?.any CompletedPage.done then .refresh else .pages

/-- The log holds pages of the revision in order and no refresh, and the checkpoint follows them. -/
def Checkpointed (log : List SearchCommit) (revision : ℕ) (progress : ProgressRecord) : Prop :=
  ∃ pages, revisionEntries revision log = pages.map SearchCommit.page ∧ PagesInOrder pages ∧
    CheckpointAfter pages progress

theorem revisionEntries_append (revision : ℕ) (log : List SearchCommit) (entry : SearchCommit) :
    revisionEntries revision (log ++ [entry]) =
      if entry.revision = revision then revisionEntries revision log ++ [entry]
      else revisionEntries revision log := by
  rw [revisionEntries, List.filter_append]
  by_cases hrevision : entry.revision = revision
  · simp [revisionEntries, hrevision]
  · simp [revisionEntries, hrevision]

variable {revision : ℕ} {log : List SearchCommit} {progress : ProgressRecord} {env : StoreEnv}

theorem revisionEntries_eq_nil (h : ∀ entry ∈ log, entry.revision < revision) : revisionEntries revision log = [] :=
  List.filter_eq_nil_iff.mpr fun entry hentry => by simpa using (h entry hentry).ne

theorem pagesInOrder_nil : PagesInOrder [] :=
  ⟨rfl, rfl, fun _ h => absurd h List.not_mem_nil, fun _ h => absurd h List.not_mem_nil⟩

/-- A page at the checkpoint continues the pages before it. -/
theorem PagesInOrder.append {pages : List CompletedPage} {page : CompletedPage}
    (h : PagesInOrder pages) (hcheckpoint : CheckpointAfter pages progress)
    (hphase : progress.phase = .pages) (hordinal : page.ordinal = progress.ordinal)
    (hunder : page.under = progress.cursor)
    (hprojection : 0 < page.ordinal → page.projection = progress.projection) :
    PagesInOrder (pages ++ [page]) := by
  have hnotDone : pages.getLast?.any CompletedPage.done = false := by
    rw [hcheckpoint.phase] at hphase
    by_contra hdone
    rw [if_pos (by simpa using hdone)] at hphase
    exact absurd hphase (by decide)
  refine ⟨?_, ?_, ?_, ?_⟩
  · rw [List.map_append, h.ordinals, List.length_append, List.length_singleton, List.range_succ,
      List.map_singleton, hordinal, hcheckpoint.ordinal]
  · rw [List.map_append, h.cursors, List.map_singleton, hunder, hcheckpoint.cursor]
    rcases List.eq_nil_or_concat pages with rfl | ⟨front, last, rfl⟩
    · rfl
    · simp [List.take_append, List.take_of_length_le]
  · have hnew : ∀ other ∈ pages, page.projection = other.projection := by
      intro other hother
      rw [hcheckpoint.projection other hother]
      exact hprojection (hordinal ▸ hcheckpoint.ordinal ▸ List.length_pos_of_mem hother)
    intro one hone other hother
    rw [List.mem_append, List.mem_singleton] at hone hother
    rcases hone with hone | rfl <;> rcases hother with hother | rfl
    · exact h.projections one hone other hother
    · exact (hnew one hone).symm
    · exact hnew other hother
    · rfl
  · intro one hone
    rw [List.dropLast_concat] at hone
    rcases List.eq_nil_or_concat pages with rfl | ⟨front, last, rfl⟩
    · exact absurd hone List.not_mem_nil
    · rw [List.concat_eq_append] at hone hnotDone h
      rw [List.mem_append, List.mem_singleton] at hone
      rcases hone with hone | rfl
      · exact h.unfinished one (by rwa [List.dropLast_concat])
      · simpa using hnotDone

/-- The checkpoint after one more page. -/
theorem Checkpointed.append {next : ProgressRecord}
    {page : CompletedPage} (h : Checkpointed log revision progress) (hrevision : page.revision = revision)
    (hphase : progress.phase = .pages) (hordinal : page.ordinal = progress.ordinal)
    (hunder : page.under = progress.cursor)
    (hprojection : 0 < page.ordinal → page.projection = progress.projection)
    (hnext : next.ordinal = page.ordinal + 1 ∧ next.cursor = page.cursor ∧
      next.projection = page.projection ∧ next.phase = if page.done then .refresh else .pages) :
    Checkpointed (log ++ [.page page]) revision next := by
  obtain ⟨pages, hentries, hpages, hcheckpoint⟩ := h
  obtain ⟨hnextOrdinal, hnextCursor, hnextProjection, hnextPhase⟩ := hnext
  have hall := hpages.append hcheckpoint hphase hordinal hunder hprojection
  refine ⟨pages ++ [page], ?_, hall, ?_, ?_, ?_, ?_⟩
  · have hpage : (SearchCommit.page page).revision = revision := hrevision
    rw [revisionEntries_append, if_pos hpage, hentries, List.map_append, List.map_singleton]
  · rw [hnextOrdinal, hordinal, hcheckpoint.ordinal, List.length_append, List.length_singleton]
  · simp [hnextCursor]
  · intro other hother
    rw [hnextProjection]
    exact hall.projections other hother page (by simp)
  · simp [hnextPhase]

/-- A revision that the log does not know starts with the first page. -/
theorem checkpointed_initial (h : ∀ entry ∈ log, entry.revision < revision)
    (hprogress : progress.ordinal = 0 ∧ progress.cursor = "" ∧ progress.phase = .pages) :
    Checkpointed log revision progress := by
  obtain ⟨hordinal, hcursor, hphase⟩ := hprogress
  exact ⟨[], revisionEntries_eq_nil h, pagesInOrder_nil, hordinal, hcursor,
    fun _ hpage => absurd hpage List.not_mem_nil, hphase⟩

/-- The commits of a revision after a page at its checkpoint. -/
theorem Checkpointed.inOrder (h : Checkpointed log revision progress) :
    RevisionInOrder env revision (revisionEntries revision log) := by
  obtain ⟨pages, hentries, hpages, -⟩ := h
  exact ⟨pages, [], by rw [hentries, List.append_nil], hpages, .inl rfl⟩

/-- The commits of a revision after its refresh. -/
theorem Checkpointed.refreshed {active : ProjectionState} (h : Checkpointed log revision progress)
    (hphase : progress.phase = .refresh) (hwriter : active.writerProjection = true)
    (hidentity : env.identity active = progress.projection) :
    RevisionInOrder env revision
      (revisionEntries revision (log ++ [.refresh revision progress.projection active])) := by
  obtain ⟨pages, hentries, hpages, hcheckpoint⟩ := h
  have hdone : pages.getLast?.any CompletedPage.done = true := by
    rw [hcheckpoint.phase] at hphase
    by_contra hnot
    rw [if_neg hnot] at hphase
    exact absurd hphase (by decide)
  obtain ⟨last, hlast, hlastDone⟩ : ∃ last, pages.getLast? = some last ∧ last.done = true := by
    cases hlast : pages.getLast? with
    | none => simp [hlast] at hdone
    | some last => exact ⟨last, rfl, by simpa [hlast] using hdone⟩
  have hprojection : last.projection = progress.projection :=
    hcheckpoint.projection last (List.mem_of_getLast? hlast)
  refine ⟨pages, [.refresh revision progress.projection active], ?_, hpages,
    .inr ⟨last, active, hlast, hlastDone, by rw [hprojection], hwriter, hidentity.trans hprojection.symm⟩⟩
  rw [revisionEntries_append, if_pos (show SearchCommit.revision _ = revision from rfl), hentries]

/-! ### The invariant -/

/-- What the live record, its claim and the workers of a node say about the log. -/
structure Linked (records : NodeRecords) (workers : ℕ → Option Held) (log : List SearchCommit) : Prop where
  logged : ∀ entry ∈ log, entry.revision ≤ records.revision
  live : ∀ record, records.work .live = some record →
    Checkpointed log records.revision (readProgress records .live record)
  held : ∀ i held claim record, workers i = some held → held.work.workClass = .live →
    records.claim .live = some claim → claim.owner = some i → claim.generation = held.work.generation →
    held.work.generation = records.generation → records.work .live = some record →
    held.work.cursor = (readProgress records .live record).cursor

structure CheckpointInv (env : StoreEnv) (s : NodeState) : Prop where
  fresh : s.created = false → s.records = .empty ∧ s.log = []
  coherent : Coherent s.records
  owned : ∀ i held, s.workers i = some held → held.OwnedBy i
  ordered : ∀ revision, RevisionInOrder env revision (revisionEntries revision s.log)
  state : Settled s.records ∨ Linked s.records s.workers s.log

section Linked

variable {records records' : NodeRecords} {workers workers' : ℕ → Option Held} {log log' : List SearchCommit}

/-- Without live work only the revision matters. -/
theorem linked_of_none (hnone : records.work .live = none)
    (hlogged : ∀ entry ∈ log, entry.revision ≤ records.revision) : Linked records workers log where
  logged := hlogged
  live _ hrecord := absurd (hnone.symm.trans hrecord) (Option.some_ne_none _).symm
  held _ _ _ _ _ _ _ _ _ _ hrecord := absurd (hnone.symm.trans hrecord) (Option.some_ne_none _).symm

/-- The claims of the live record after a step: those before it, or a released one. -/
def ClaimsKept (records records' : NodeRecords) : Prop :=
  ∀ claim, records'.claim .live = some claim → records.claim .live = some claim ∨ claim.owner = none

theorem claimsKept_of_eq (h : records'.claim .live = records.claim .live) : ClaimsKept records records' :=
  fun _ hclaim => .inl (h ▸ hclaim)

theorem readProgress_congr {c : WorkClass} (h : records'.progress c = records.progress c)
    (record : WorkRecord) : readProgress records' c record = readProgress records c record := by
  rw [readProgress, readProgress, h]

variable {record : WorkRecord} {i : ℕ} {held : Held} {versions : List String}

/-- A live checkpoint belongs to a revision, whatever the generation. -/
theorem readProgress_live_eq {record' : WorkRecord}
    (h : records'.progress .live = records.progress .live) (hrevision : record'.revision = record.revision) :
    ∃ generation, readProgress records' .live record' =
      { readProgress records .live record with generation := generation } := by
  rw [readProgress, readProgress, h]
  cases records.progress .live with
  | none => exact ⟨record'.generation, by rw [hrevision]⟩
  | some progress =>
    by_cases hsame : progress.revision = record.revision
    · exact ⟨progress.generation, by simp [hrevision, hsame.symm]⟩
    · exact ⟨record'.generation, by simp [hsame, hrevision]⟩

/-- A step that leaves the counters, the live record and its checkpoint as they are. -/
theorem Linked.of_same (h : Linked records workers log) (hwork : records'.work .live = records.work .live)
    (hprogress : records'.progress .live = records.progress .live)
    (hgeneration : records'.generation = records.generation)
    (hrevision : records'.revision = records.revision) (hclaims : ClaimsKept records records') :
    Linked records' workers log where
  logged := by rw [hrevision]; exact h.logged
  live record hrecord := by
    rw [hrevision, readProgress_congr hprogress]
    exact h.live record (hwork ▸ hrecord)
  held i held claim record hheld hclass hclaim howner hheldGeneration hcurrent hrecord := by
    rw [readProgress_congr hprogress]
    rcases hclaims claim hclaim with hbefore | hnone
    · exact h.held i held claim record hheld hclass hbefore howner hheldGeneration
        (hcurrent.trans hgeneration) (hwork ▸ hrecord)
    · exact absurd (hnone.symm.trans howner) (Option.some_ne_none _).symm

/-- A step on one class that leaves no live work behind when the class is the live one. -/
theorem Linked.of_class (h : Linked records workers log) (c : WorkClass)
    (hwork : ∀ other, other ≠ c → records'.work other = records.work other)
    (hclaim : ∀ other, other ≠ c → records'.claim other = records.claim other)
    (hprogress : ∀ other, other ≠ c → records'.progress other = records.progress other)
    (hgeneration : records'.generation = records.generation)
    (hrevision : records'.revision = records.revision) (hlive : c = .live → records'.work .live = none) :
    Linked records' workers log := by
  by_cases hc : c = .live
  · exact linked_of_none (hlive hc) (hrevision ▸ h.logged)
  · have hne : WorkClass.live ≠ c := Ne.symm hc
    exact h.of_same (hwork _ hne) (hprogress _ hne) hgeneration hrevision (claimsKept_of_eq (hclaim _ hne))

/-- A worker that keeps its work, or that holds no live work. -/
theorem Linked.hold (h : Linked records workers log) (i : ℕ) (now : Option Held)
    (hnow : ∀ held', now = some held' → held'.work.workClass = .live →
      ∃ held, workers i = some held ∧ held.work = held'.work) :
    Linked records (Function.update workers i now) log where
  logged := h.logged
  live := h.live
  held j held' claim record hheld hclass hclaim howner hgeneration hcurrent hrecord := by
    by_cases hj : j = i
    · subst hj
      rw [Function.update_self] at hheld
      obtain ⟨held, hbefore, hsame⟩ := hnow held' hheld hclass
      rw [← hsame] at hclass hgeneration hcurrent ⊢
      exact h.held j held claim record hbefore hclass hclaim howner hgeneration hcurrent hrecord
    · rw [Function.update_of_ne hj] at hheld
      exact h.held j held' claim record hheld hclass hclaim howner hgeneration hcurrent hrecord

theorem Linked.drop (h : Linked records workers log) (i : ℕ) :
    Linked records (Function.update workers i none) log :=
  h.hold i none none_ne_some

theorem Linked.keep (h : Linked records workers log) (hheld : workers i = some held)
    (stage : Stage) : Linked records (Function.update workers i (some ⟨held.work, stage⟩)) log := by
  refine h.hold i _ fun held' hnow _ => ⟨held, hheld, ?_⟩
  cases hnow
  rfl

/-- The access, the exclusion, the issued documents and the counterparts do not matter. -/
theorem Linked.aside (h : Linked records workers log) (access : Option AccessRecord) (excluded : Bool)
    (issued : List IssuedDocument) (fanout : List UUID) :
    Linked { records with access := access, excluded := excluded, issued := issued, fanout := fanout }
      workers log :=
  ⟨h.logged, h.live, h.held⟩

theorem Linked.setAccessProgress (h : Linked records workers log) (progress : Option ProgressRecord) :
    Linked (records.setProgress .access progress) workers log :=
  h.of_class .access (fun _ _ => rfl) (fun _ _ => rfl) (fun _ hne => Function.update_of_ne hne _ _) rfl rfl
    (fun hc => absurd hc (by decide))

theorem Linked.clearClass (h : Linked records workers log) (c : WorkClass) :
    Linked (records.clearClass c) workers log :=
  h.of_class c (fun _ hne => Function.update_of_ne hne _ _) (fun _ hne => Function.update_of_ne hne _ _)
    (fun _ hne => Function.update_of_ne hne _ _) rfl rfl fun hc => hc ▸ records.clearClass_work c

theorem Linked.dropSearchWork (h : Linked records workers log) (c : WorkClass) :
    Linked (dropSearchWork records c) workers log :=
  h.of_class c (fun _ hne => Function.update_of_ne hne _ _) (fun _ hne => Function.update_of_ne hne _ _)
    (fun _ _ => rfl) rfl rfl fun hc => hc ▸ records.setWork_work c none

/-- A claim that is given back. -/
theorem Linked.setClaim (h : Linked records workers log) (c : WorkClass) {claim : Option ClaimRecord}
    (hreleased : ∀ released, claim = some released → released.owner = none) :
    Linked (records.setClaim c claim) workers log := by
  refine h.of_same rfl rfl rfl rfl fun held hheld => ?_
  rcases update_eq_some hheld with ⟨-, hbefore⟩ | ⟨-, hnew⟩
  · exact .inl hbefore
  · exact .inr (hreleased held hnew)

/-- A change that does not remove the node. -/
theorem Linked.scheduled {change : SearchChange} (h : Linked records workers log) (hcoherent : Coherent records)
    (hscheduled : Scheduled versions change records records') : Linked records' workers log := by
  have hle := hcoherent.revision_le
  have hrevision : records.revision ≤ records'.revision := by
    rw [hscheduled.revision]
    split <;> omega
  refine
    { logged := fun entry hentry => (h.logged entry hentry).trans hrevision
      live := fun record hrecord => ?_
      held := ?_ }
  · -- a new revision starts at its first page, an access change keeps the revision and the checkpoint
    rw [hscheduled.work] at hrecord
    have hstarts : change.startsRevision = true → searchRecordPlanFor change .live = .put →
        Checkpointed log records'.revision (readProgress records' .live record) := by
      intro hstarts hplan
      have hnone : records'.progress .live = none := by rw [hscheduled.progress, hplan]; rfl
      refine checkpointed_initial (fun entry hentry => ?_) ?_
      · have hlogged := h.logged entry hentry
        rw [hscheduled.revision, if_pos hstarts]
        omega
      · rw [readProgress, hnone]
        exact ⟨rfl, rfl, rfl⟩
    cases change with
    | content => exact hstarts rfl rfl
    | repair => exact hstarts rfl rfl
    | deletion => cases hrecord
    | exclusion => cases hrecord
    | access =>
      obtain ⟨before, hbefore, rfl⟩ := Option.map_eq_some_iff.mp hrecord
      obtain ⟨pages, hentries, hpages, hafter⟩ := h.live before hbefore
      have hkept : records'.revision = records.revision := hscheduled.revision
      obtain ⟨generation, hprogress⟩ := readProgress_live_eq (hscheduled.progress .live)
        (show ({ changeRecord records .access with
          revision := before.revision, deleted := before.deleted } : WorkRecord).revision =
            before.revision from rfl)
      rw [hkept, hprogress]
      exact ⟨pages, hentries, hpages, hafter.ordinal, hafter.cursor, hafter.projection, hafter.phase⟩
  · -- every claim is of an earlier generation
    intro i held claim record _ _ hclaim _ hheld hcurrent
    have hstale := hscheduled.claim_lt hcoherent hclaim
    exact absurd (hheld.trans hcurrent) hstale.ne

theorem Linked.selfScheduled (h : Linked records workers log)
    (hcoherent : Coherent records) (hself : SelfScheduled versions records records') :
    Linked records' workers log := by
  induction hself with
  | refl => exact h
  | step _ hscheduled _ ih =>
    exact ih (h.scheduled hcoherent hscheduled)
      (hcoherent.changed (exclusionAdjustedChange_ne_deletion (by decide)) hscheduled)

/-- A deletion, with the work of the counterparts. -/
theorem Linked.deleted {nodeId : UUID} {deletion : WorkRecord}
    {counterparts : List UUID} (h : Linked records workers log)
    (hscheduled : Scheduled versions .deletion records records') :
    Linked (scheduleDeletedFanout nodeId deletion counterparts { records' with stored := false })
      workers log := by
  obtain ⟨fanout, record, progress, -, heq⟩ :=
    scheduleDeletedFanout_eq nodeId deletion counterparts { records' with stored := false }
  have hrevision : records'.revision = records.revision := hscheduled.revision
  rw [heq]
  refine linked_of_none (hscheduled.work .live) ?_
  show ∀ entry ∈ log, entry.revision ≤ records'.revision
  rw [hrevision]
  exact h.logged

/-- A new claim starts at the stored checkpoint. -/
theorem Linked.leased {c : WorkClass} {leaseUntil : Time}
    {target mirror : String} (h : Linked records workers log) (hwork : records.work c = some record) :
    Linked (records.setClaim c (some ⟨some i, record.generation, leaseUntil, target, mirror⟩))
      (Function.update workers i (some ⟨leasedWork records c record i target mirror, .claimed⟩)) log := by
  by_cases hc : WorkClass.live = c
  · subst hc
    refine
      { logged := h.logged
        live := h.live
        held := fun j held claim record' hheld _ hclaim howner _ _ hrecord => ?_ }
    rw [records.setClaim_claim] at hclaim
    cases hclaim
    cases howner
    rw [Function.update_self] at hheld
    cases hheld
    cases Option.some.inj (hwork.symm.trans hrecord)
    rfl
  · have hkept : Linked (records.setClaim c
        (some ⟨some i, record.generation, leaseUntil, target, mirror⟩)) workers log :=
      h.of_same rfl rfl rfl rfl (claimsKept_of_eq (Function.update_of_ne hc _ _))
    refine hkept.hold i _ fun held' hheld hlive => ?_
    cases hheld
    exact absurd hlive.symm hc

theorem Linked.scheduleCopy (h : Linked records workers log) :
    Linked (scheduleCopy versions records) workers log := by
  rcases scheduleCopy_eq versions records with
    hsame | ⟨hnone, generation, revision, access, hcounters, heq⟩
  · rw [hsame]
    exact h
  have hle : records.revision ≤ revision := by omega
  rw [heq]
  exact linked_of_none hnone fun entry hentry => (h.logged entry hentry).trans hle

/-- The page of the worker whose claim holds. -/
theorem Linked.completePage {page : ContentPage} {access : AccessRecord} (h : Linked records workers log)
    (howned : ∀ j held, workers j = some held → held.OwnedBy j) (hheld : workers i = some held)
    (hlive : held.work.workClass = .live) (hpage : VerifiedPage records held.work page record access) :
    Checkpointed (log ++ [.page (held.work.committed page)]) page.revision (pageProgress held.work page) ∧
      Linked (records.setProgress .live (some (pageProgress held.work page)))
        (Function.update workers i (some ⟨held.work.after page, .claimed⟩))
        (log ++ [.page (held.work.committed page)]) := by
  obtain ⟨claim, hclaim, hclaimOwner, hclaimGeneration⟩ := hpage.claim.lease
  have hpending := hpage.claim.pending
  have hphase := hpage.phase
  have hordinal := hpage.ordinal
  have hprojection := hpage.projection
  rw [hlive] at hclaim hpending hphase hordinal hprojection
  have hcursor : held.work.cursor = (readProgress records .live record).cursor :=
    h.held i held claim record hheld hlive hclaim ((howned i held hheld).1 ▸ hclaimOwner) hclaimGeneration
      hpage.claim.generation.symm hpending
  have hnext : Checkpointed (log ++ [.page (held.work.committed page)]) page.revision
      (pageProgress held.work page) :=
    (hpage.revision ▸ h.live record hpending).append rfl hphase hordinal hcursor hprojection
      ⟨rfl, rfl, rfl, rfl⟩
  have hread : ∀ other, records.work .live = some other → readProgress
      (records.setProgress .live (some (pageProgress held.work page))) .live other =
        pageProgress held.work page := by
    intro other hother
    cases Option.some.inj (hpending.symm.trans hother)
    simp [readProgress, NodeRecords.setProgress, pageProgress, hpage.recordRevision]
  refine ⟨hnext,
    { logged := fun entry hentry => ?_
      live := fun other hother => ?_
      held := fun j held' claim' other hheld' _ hclaim' howner' _ _ hother => ?_ }⟩
  · rw [List.mem_append, List.mem_singleton] at hentry
    rcases hentry with hentry | rfl
    · exact h.logged entry hentry
    · exact hpage.revision.ge
  · rw [hread other hother]
    exact hpage.revision ▸ hnext
  · -- the claim names one owner
    cases Option.some.inj (hclaim.symm.trans hclaim')
    rw [hclaimOwner, (howned i held hheld).1] at howner'
    cases howner'
    rw [Function.update_self] at hheld'
    cases hheld'
    rw [hread other hother]
    rfl

/-- Finished live work leaves the cleanup of the older revisions. -/
theorem Linked.refreshed {projection : String}
    {active : ProjectionState} (h : Linked records workers log) (hcoherent : Coherent records)
    (hlive : held.work.workClass = .live) (hclaim : Verified records held.work record) :
    Linked (afterRefresh records held.work record) (Function.update workers i none)
      (log ++ [.refresh record.revision projection active]) := by
  have hpending := hclaim.pending
  rw [hlive] at hpending
  rw [afterRefresh, hlive, if_neg (by decide)]
  refine linked_of_none ?_ ?_
  · simp [clearSearchWork, NodeRecords.clearClass, NodeRecords.setWork, NodeRecords.setClaim,
      NodeRecords.setProgress]
  · intro entry hentry
    rw [List.mem_append, List.mem_singleton] at hentry
    rcases hentry with hentry | rfl
    · exact h.logged entry hentry
    · exact (hcoherent.live record hpending).le

/-- Finished work of another class. -/
theorem Linked.afterRefresh {work : Work} (h : Linked records workers log) :
    Linked (afterRefresh records work record) workers log := by
  have hcleared : Linked { clearSearchWork records work.workClass with excluded := false } workers log :=
    (h.clearClass work.workClass).aside _ _ _ _
  rw [Search.afterRefresh]
  split
  · exact hcleared
  · exact hcleared.of_class .cleanup (fun _ hne => Function.update_of_ne hne _ _) (fun _ _ => rfl)
      (fun _ _ => rfl) rfl rfl (fun hc => absurd hc (by decide))

/-- The class of a deleted node that finishes last leaves nothing pending. -/
theorem Linked.finishDeletedClass (h : Linked records workers log) (c : WorkClass)
    (hstored : records.stored = false) :
    Settled (finishDeletedClass c records) ∨ Linked (finishDeletedClass c records) workers log := by
  rcases finishDeletedClass_eq c records with heq | heq <;> rw [heq]
  · exact .inr (h.clearClass c)
  · exact .inl ⟨hstored, fun _ => rfl⟩

end Linked

/-! ### The moves -/

section Moves

variable {env : StoreEnv} {nodeId : UUID} {s s' : NodeState} {move : NodeMove}

/-- The linked state after a move, or nothing is left of the node. -/
theorem Linked.step (h : Linked s.records s.workers s.log) (hcoherent : Coherent s.records)
    (howned : ∀ i held, s.workers i = some held → held.OwnedBy i)
    (heffect : NodeEffect env nodeId s move s') (hmove : move ≠ .create) :
    Settled s'.records ∨ Linked s'.records s'.workers s'.log := by
  cases heffect
  case create => exact absurd rfl hmove
  case delete hscheduled => exact .inr (h.deleted hscheduled)
  case change hscheduled => exact .inr (h.scheduled hcoherent hscheduled)
  case repairAccess hscheduled =>
    exact .inr ((h.aside _ _ _ _).scheduled (hcoherent.aside _ _ _ _) hscheduled)
  case copyNode => exact .inr h.scheduleCopy
  case mirrorMiss => exact .inr (h.of_same rfl rfl rfl rfl (claimsKept_of_eq rfl))
  case setOrg => exact .inr h
  case dropped => exact .inr ((h.dropSearchWork _).drop _)
  case leased hrecord _ => exact .inr (h.leased hrecord)
  case read hheld _ => exact .inr (h.keep hheld _)
  case register hheld _ _ _ _ _ => exact .inr ((h.aside _ _ _ _).keep hheld _)
  case completePage i _ _ held page _ _ copy progress hheld _ _ hpage _ =>
    refine .inr ?_
    by_cases hlive : held.work.workClass = .live
    · have hdone := (h.completePage howned hheld hlive hpage).2
      rw [hlive, if_pos rfl]
      exact hdone.of_same rfl rfl rfl rfl (claimsKept_of_eq rfl)
    · rw [if_neg hlive]
      have hcopied : Linked (((s.records.setWork .copy copy).setProgress .copy progress).setProgress
          held.work.workClass (some (pageProgress held.work page))) s.workers s.log :=
        h.of_same rfl (Function.update_of_ne (Ne.symm hlive) _ _) rfl rfl (claimsKept_of_eq rfl)
      refine hcopied.hold i _ fun _ hnow hafter => ?_
      cases hnow
      exact absurd hafter hlive
  case refreshRestarted hscheduled =>
    exact .inr (((h.setClaim _ none_ne_some).scheduled (hcoherent.setClaim _ none_ne_some)
      hscheduled).drop _)
  case refreshCompleted held record _ _ hclaim _ _ =>
    refine .inr ?_
    by_cases hlive : held.work.workClass = .live
    · rw [if_pos hlive]
      exact h.refreshed hcoherent hlive hclaim
    · rw [if_neg hlive]
      exact h.afterRefresh.drop _
  case restart hscheduled =>
    exact .inr (((h.setClaim _ none_ne_some).scheduled (hcoherent.setClaim _ none_ne_some)
      hscheduled).drop _)
  case beginFinished => exact .inr ((h.clearClass _).drop _)
  case begun hclass _ _ hlease _ =>
    refine .inr (((h.aside _ _ _ _).setAccessProgress _).hold _ _ fun _ hnow hlive => ?_)
    cases hnow
    exact absurd (hclass.symm.trans (hlease.workClass.symm.trans hlive)) (by decide)
  case accessCompleted hheld _ _ hshape =>
    rcases hshape with rfl | ⟨phase, cursor, rfl⟩
    · exact .inr (((h.aside _ _ _ _).clearClass _).keep hheld _)
    · exact .inr (((h.aside _ _ _ _).setAccessProgress _).keep hheld _)
  case dependentsScheduled self _ fanout hheld _ _ hclaim hself _ hshape =>
    have hafter := (h.selfScheduled hcoherent hself).aside self.access self.excluded self.issued fanout
    rcases hshape with ⟨-, rfl⟩ | ⟨-, hdeleted, rfl⟩ | ⟨-, -, access, rfl⟩
    · exact .inr ((hafter.setAccessProgress _).keep hheld _)
    · exact (hafter.finishDeletedClass .access (hself.stored.trans
        (hcoherent.unstored hclaim hdeleted))).imp_right fun hlinked => hlinked.keep hheld _
    · exact .inr (((hafter.aside access _ _ _).clearClass _).keep hheld _)
  case retired accepted _ _ _ _ _ hheld _ _ _ hclaim hretired hshape =>
    have hafter := h.aside s.records.access s.records.excluded (s.records.issued.filter (· ∉ accepted))
      s.records.fanout
    subst hretired
    rcases hshape with ⟨-, rfl⟩ | ⟨-, hdeleted, rfl⟩ | ⟨-, -, rfl⟩
    · exact .inr (hafter.keep hheld _)
    · exact (hafter.finishDeletedClass .cleanup (hcoherent.unstored hclaim hdeleted)).imp_right
        fun hlinked => hlinked.keep hheld _
    · exact .inr ((hafter.clearClass _).keep hheld _)
  case excluded hscheduled =>
    exact .inr ((((h.clearClass _).scheduled (hcoherent.clearClass _) hscheduled).aside _ _ _ _).drop _)
  case yielded => exact .inr ((h.setClaim _ none_ne_some).drop _)
  case released howner _ =>
    refine .inr ((h.setClaim _ fun released hreleased => ?_).drop _)
    cases hreleased
    exact howner
  case stopped => exact .inr (h.drop _)

/-- A commit that keeps its own revision in order keeps every revision in order. -/
theorem ordered_append {log : List SearchCommit} {entry : SearchCommit}
    (h : ∀ revision, RevisionInOrder env revision (revisionEntries revision log))
    (hentry : RevisionInOrder env entry.revision (revisionEntries entry.revision (log ++ [entry])))
    (revision : ℕ) : RevisionInOrder env revision (revisionEntries revision (log ++ [entry])) := by
  by_cases hrevision : entry.revision = revision
  · exact hrevision ▸ hentry
  · rw [revisionEntries_append, if_neg hrevision]
    exact h revision

theorem Linked.ordered (h : Linked s.records s.workers s.log) (hcoherent : Coherent s.records)
    (howned : ∀ i held, s.workers i = some held → held.OwnedBy i)
    (hordered : ∀ revision, RevisionInOrder env revision (revisionEntries revision s.log))
    (heffect : NodeEffect env nodeId s move s') :
    ∀ revision, RevisionInOrder env revision (revisionEntries revision s'.log) := by
  cases heffect
  case completePage held page _ _ _ _ hheld _ _ hpage _ =>
    by_cases hlive : held.work.workClass = .live
    · have hnext := (h.completePage howned hheld hlive hpage).1
      rw [if_pos hlive]
      exact ordered_append hordered hnext.inOrder
    · rw [if_neg hlive]
      exact hordered
  case refreshCompleted held record _ _ hclaim hphase hactive =>
    by_cases hlive : held.work.workClass = .live
    · have hpending := hclaim.pending
      rw [hlive] at hpending hphase hactive
      have hcheckpoint := h.live record hpending
      rw [← hcoherent.live record hpending] at hcheckpoint
      rw [activeProjection, Bool.and_eq_true, beq_iff_eq] at hactive
      rw [if_pos hlive]
      exact ordered_append hordered (hcheckpoint.refreshed hphase hactive.1 hactive.2)
    · rw [if_neg hlive]
      exact hordered
  all_goals exact hordered

theorem checkpointInv_init (stored : Bool) (org : OrgState) :
    CheckpointInv env (NodeState.init stored org) where
  fresh hfresh := by
    cases stored
    · exact ⟨rfl, rfl⟩
    · exact absurd hfresh.symm Bool.false_ne_true
  coherent := coherent_empty stored
  owned _ _ hheld := absurd hheld (Option.some_ne_none _).symm
  ordered _ := ⟨[], [], rfl, pagesInOrder_nil, .inl rfl⟩
  state := .inr (linked_of_none rfl fun _ hentry => absurd hentry List.not_mem_nil)

/-- The first create finds no record at all. -/
theorem CheckpointInv.createsClean (h : CheckpointInv env s) (hmove : NotReused s move) :
    CreatesClean s move := by
  cases move
  case create =>
    have hempty := (h.fresh hmove).1
    intro c record hrecord
    rw [hempty] at hrecord
    cases hrecord
  all_goals trivial

/-- **The step lemma.** -/
theorem CheckpointInv.step (h : CheckpointInv env s) (hmove : NotReused s move)
    (hstep : nodeStep env nodeId s move = some s') : CheckpointInv env s' := by
  have heffect := nodeStep_effect hstep
  have howned := heffect.owned h.owned
  have hcoherent := h.coherent.step heffect (h.createsClean hmove)
  by_cases hcreate : move = .create
  · subst hcreate
    obtain ⟨hempty, hlog⟩ := h.fresh hmove
    cases heffect with
    | create hstored hscheduled =>
      rw [hempty] at hscheduled
      refine ⟨fun hfresh => absurd hfresh.symm Bool.false_ne_true, hcoherent, howned, h.ordered, .inr ?_⟩
      refine Linked.scheduled (linked_of_none rfl ?_) (coherent_empty true) hscheduled
      rw [hlog]
      exact fun _ hentry => absurd hentry List.not_mem_nil
  · have hfresh : s.created = false → Settled s.records := fun hfresh =>
      (h.fresh hfresh).1 ▸ ⟨rfl, fun _ => rfl⟩
    by_cases hsettled : Settled s.records
    · obtain ⟨hrecords, hlog, hcreated⟩ := heffect.settled hsettled hcreate
      refine ⟨fun hnew => ?_, hcoherent, howned, hlog ▸ h.ordered, .inl (hrecords ▸ hsettled)⟩
      rw [hrecords, hlog]
      exact h.fresh (hcreated ▸ hnew)
    · have hlinked := h.state.resolve_left hsettled
      have hcreated : s'.created = s.created := by
        cases heffect
        case create => exact absurd rfl hcreate
        all_goals rfl
      exact ⟨fun hnew => absurd (hfresh (hcreated ▸ hnew)) hsettled, hcoherent, howned,
        hlinked.ordered h.coherent h.owned h.ordered heffect,
        hlinked.step h.coherent h.owned heffect hcreate⟩

end Moves

/-! ### The result -/

/-- **Page checkpoints commit once and in order.**  In every run, the pages of each content revision have
the ordinals 0, 1, 2, ..., one projection and each the cursor that the page before it stored.  The revision is
refreshed at most once, after the page that was marked done, and under the active projection.  At most one
worker holds accepted work of a class. -/
theorem checkpoints_exactly_once {nodeId : UUID} {stored : Bool} {org : OrgState}
    {s : NodeState} (hreach : Reach (nodeStep env nodeId) NotReused (NodeState.init stored org) s) :
    (∀ revision, RevisionInOrder env revision (revisionEntries revision s.log)) ∧
    ∀ i j held held' now now' record record', s.workers i = some held → s.workers j = some held' →
      held.work.workClass = held'.work.workClass →
      verifyClaim s.org now s.records held.work = some record →
      verifyClaim s.org now' s.records held'.work = some record' → i = j := by
  have hinv : CheckpointInv env s := hreach.invariant (checkpointInv_init stored org)
    fun hinv hmove hstep => hinv.step hmove hstep
  refine ⟨hinv.ordered, ?_⟩
  intro i j held held' now now' record record' hi hj hclass hverified hverified'
  obtain ⟨claim, hclaim, howner, -⟩ := (verifyClaim_ok hverified).1.lease
  obtain ⟨claim', hclaim', howner', -⟩ := (verifyClaim_ok hverified').1.lease
  rw [← hclass] at hclaim'
  cases Option.some.inj (hclaim.symm.trans hclaim')
  rw [← (hinv.owned i held hi).1, ← (hinv.owned j held' hj).1]
  exact Option.some.inj (howner.symm.trans howner')

/-- Two workers index a node in two pages: the second takes the work over after the first lease ends. -/
def takeoverRun : List NodeMove :=
  [.create, .claim 0 .live .zero 10, .read 0 (samplePage 0 "c" false), .register 0 .zero,
    .completePage 0 .zero false, .claim 1 .live ⟨20, 0⟩ 10, .read 1 (samplePage 1 "" true),
    .register 1 ⟨20, 0⟩, .completePage 1 ⟨20, 0⟩ false, .completeRefresh 1 ⟨20, 0⟩]

theorem checkpoints_exactly_once_takeover : ∃ s : NodeState, s.log.length = 3 ∧
    Reach (nodeStep sampleEnv 7) NotReused (NodeState.init false sampleOrg) s ∧
    (∀ revision, RevisionInOrder sampleEnv revision (revisionEntries revision s.log)) ∧
    ∀ i j held held' now now' record record', s.workers i = some held → s.workers j = some held' →
      held.work.workClass = held'.work.workClass →
      verifyClaim s.org now s.records held.work = some record →
      verifyClaim s.org now' s.records held'.work = some record' → i = j := by
  obtain ⟨s, hreach, hlog⟩ := exists_reach_of_runChecked (nodeStep sampleEnv 7) notReused_ok
    (NodeState.init false sampleOrg) takeoverRun (fun s => s.log.length == 3) (by decide +kernel)
  exact ⟨s, beq_iff_eq.mp hlog, hreach, checkpoints_exactly_once hreach⟩

end Tack.Search

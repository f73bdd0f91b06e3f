import Tack.Search.Coherent

/-!
# Which runs keep the search work of a node

A stored node waits for its current content revision with pending live work, or a worker refreshed that
revision, or the node is excluded.  An access change that no access step has processed waits with pending
access work.  A run loses this work in four ways: a create under an ID whose deletion is still being cleaned
up, an exclusion while an access change waits, a last page of dependents that lists its own node, and a
finished copy of an excluded node.  Every other run keeps it.

## Main definitions

* `Search.NoLostWork` — what a state must say about the work of a node.
* `Search.KeepsWork` — the moves that lose no work.

## Main results

* `Search.no_work_lost` — a run of such moves loses no work.
* `Search.recreated_node_loses_work` — a run that creates a node again loses its live work.
-/

namespace Tack.Search

open Lib

/-- The current revision of a stored node is pending, refreshed or excluded. -/
def ContentKept (records : NodeRecords) (refreshed : List ℕ) : Prop :=
  (∃ record, records.work .live = some record ∧ record.revision = records.revision) ∨
    records.revision ∈ refreshed ∨ records.excluded = true

/-- The current content revision and the last access change of a stored node are pending or done. -/
def NoLostWork (s : NodeState) : Prop :=
  s.records.stored = true → ContentKept s.records s.refreshed ∧
    (s.accessChanged = true → (s.records.work .access).isSome = true)

/-- The moves that lose no work. -/
def KeepsWork (nodeId : UUID) (s : NodeState) : NodeMove → Prop
  | .create => NoDeletion s.records
  | .exclude _ _ => s.accessChanged = false
  | .scheduleDependents _ _ page => nodeId ∈ page.ids → s.records.stored = true → page.done = false
  | .completeRefresh i _ =>
    (∀ held, s.workers i = some held → held.work.workClass = .live) ∨ s.records.excluded = false
  | _ => True

/-! ### The invariant -/

/-- The worker processed the access change of its work: it began the update, or it schedules dependents. -/
def Held.processed (held : Held) : Prop :=
  held.work.workClass = .access ∧
    ((∃ access, held.stage = .begun access) ∨ held.work.phase = .dependents)

/-- A worker past the first access step whose claim holds implies `p`. -/
def HeldImplies (records : NodeRecords) (workers : ℕ → Option Held) (p : Prop) : Prop :=
  ∀ i held claim, workers i = some held → held.processed → records.claim .access = some claim →
    claim.owner = some i → claim.generation = held.work.generation →
    held.work.generation = records.generation → p

/-- A checkpoint of the current generation past the pages implies `p`. -/
def CheckpointImplies (records : NodeRecords) (p : Prop) : Prop :=
  ∀ progress, records.progress .access = some progress → progress.generation = records.generation →
    progress.phase = .dependents → p

/-- What the records and the workers of a stored node say about its work; `changed` is set while an access
change waits for its first access step. -/
structure Kept (records : NodeRecords) (workers : ℕ → Option Held) (refreshed : List ℕ) (changed : Bool) :
    Prop where
  positive : 0 < records.revision
  held : HeldImplies records workers (changed = false)
  checkpoint : CheckpointImplies records (changed = false)
  content : ContentKept records refreshed
  access : changed = true → (records.work .access).isSome = true

structure KeptInv (s : NodeState) : Prop where
  coherent : Coherent s.records
  owned : ∀ i held, s.workers i = some held → held.OwnedBy i
  kept : s.records.stored = true → Kept s.records s.workers s.refreshed s.accessChanged

section Parts

variable {records records' : NodeRecords} {refreshed : List ℕ} {versions : List String}
  {change : SearchChange} {workers : ℕ → Option Held} {changed : Bool} {i : ℕ} {held : Held}
  {record : WorkRecord}

theorem ContentKept.congr (h : ContentKept records refreshed)
    (hwork : records'.work .live = records.work .live) (hrevision : records'.revision = records.revision)
    (hexcluded : records'.excluded = records.excluded) : ContentKept records' refreshed := by
  rw [ContentKept, hwork, hrevision, hexcluded]
  exact h

theorem contentKept_started (hchange : change = .content ∨ change = .repair)
    (hscheduled : Scheduled versions change records records') : ContentKept records' refreshed := by
  have hwork := hscheduled.work .live
  have hrevision := hscheduled.revision
  rcases hchange with rfl | rfl
  · exact .inl ⟨_, hwork, hrevision.symm⟩
  · exact .inl ⟨_, hwork, hrevision.symm⟩

/-- A change that keeps the node either starts a pending revision or leaves the revision as it was. -/
theorem ContentKept.scheduled (h : ContentKept records refreshed)
    (hchange : change = .content ∨ change = .access ∨ change = .repair)
    (hscheduled : Scheduled versions change records records') : ContentKept records' refreshed := by
  rcases hchange with hcontent | rfl | hrepair
  · exact contentKept_started (.inl hcontent) hscheduled
  · have hwork := hscheduled.work .live
    have hrevision : records'.revision = records.revision := hscheduled.revision
    have hexcluded : records'.excluded = records.excluded := by
      rw [hscheduled.excluded]
      exact Bool.and_true _
    rcases h with ⟨record, hrecord, hsame⟩ | hother
    · rw [hrecord] at hwork
      exact .inl ⟨_, hwork, hsame.trans hrevision.symm⟩
    · refine .inr ?_
      rw [hexcluded, hrevision]
      exact hother
  · exact contentKept_started (.inr hrepair) hscheduled

theorem exclusionAdjustedChange_cases (hchange : change = .content ∨ change = .access) :
    exclusionAdjustedChange records change = .content ∧ change = .content ∨
      exclusionAdjustedChange records change = .access ∨ exclusionAdjustedChange records change = .repair := by
  rcases hchange with rfl | rfl
  · exact .inl ⟨rfl, rfl⟩
  · rw [exclusionAdjustedChange]
    split
    · exact .inr (.inr rfl)
    · exact .inr (.inl rfl)

/-- A counted revision stays counted. -/
theorem Scheduled.positive (h : Scheduled versions change records records') (hrevision : 0 < records.revision) :
    0 < records'.revision := by
  rw [h.revision]
  split
  · exact Nat.succ_pos _
  · exact hrevision

/-- Pending access work outlives every change but an exclusion and a deletion. -/
theorem Scheduled.access_isSome (h : Scheduled versions change records records')
    (hchange : change = .content ∧ (records.work .access).isSome = true ∨ change = .access ∨ change = .repair) :
    (records'.work .access).isSome = true := by
  rw [h.work]
  rcases hchange with ⟨rfl, hpending⟩ | rfl | rfl
  · obtain ⟨record, hrecord⟩ := Option.isSome_iff_exists.mp hpending
    rw [hrecord]
    rfl
  · rfl
  · rfl

/-- After a change no claim is current. -/
theorem Scheduled.heldImplies {p : Prop} (h : Scheduled versions change records records')
    (hcoherent : Coherent records) : HeldImplies records' workers p := by
  intro i held claim _ _ hclaim _ hheld hcurrent
  exact absurd (hheld.trans hcurrent) (h.claim_lt hcoherent hclaim).ne

/-- After a change no access checkpoint is current. -/
theorem Scheduled.checkpointImplies {p : Prop} (h : Scheduled versions change records records')
    (hcoherent : Coherent records) : CheckpointImplies records' p :=
  fun _ hprogress hcurrent _ => absurd hcurrent (h.progress_lt hcoherent hprogress).ne

/-! ### What a step keeps -/

/-- Once the access change is processed, only the content matters. -/
theorem kept_of_processed (hchanged : changed = false) (hrevision : 0 < records.revision)
    (hcontent : ContentKept records refreshed) : Kept records workers refreshed changed where
  positive := hrevision
  held _ _ _ _ _ _ _ _ _ := hchanged
  checkpoint _ _ _ _ := hchanged
  content := hcontent
  access hwaits := absurd (hchanged.symm.trans hwaits) Bool.false_ne_true

/-- A step that leaves the counters, the live and the access record as they are. -/
theorem Kept.of_same (h : Kept records workers refreshed changed)
    (hlive : records'.work .live = records.work .live) (haccess : records'.work .access = records.work .access)
    (hgeneration : records'.generation = records.generation) (hrevision : records'.revision = records.revision)
    (hexcluded : records'.excluded = records.excluded)
    (hprogress : ∀ progress, records'.progress .access = some progress →
      records.progress .access = some progress ∨ progress.phase ≠ .dependents)
    (hclaim : ∀ claim, records'.claim .access = some claim →
      records.claim .access = some claim ∨ claim.owner = none) : Kept records' workers refreshed changed where
  positive := hrevision ▸ h.positive
  held i held claim hheld hprocessed hclaimed howner hsame hcurrent := by
    rcases hclaim claim hclaimed with hbefore | hnone
    · exact h.held i held claim hheld hprocessed hbefore howner hsame (hcurrent.trans hgeneration)
    · exact absurd (hnone.symm.trans howner) (Option.some_ne_none _).symm
  checkpoint progress hprogressed hcurrent hphase := by
    rcases hprogress progress hprogressed with hbefore | hne
    · exact h.checkpoint progress hbefore (hcurrent.trans hgeneration) hphase
    · exact absurd hphase hne
  content := h.content.congr hlive hrevision hexcluded
  access hwaits := haccess ▸ h.access hwaits

/-- A worker that did no access step, or that keeps its work. -/
theorem Kept.hold (h : Kept records workers refreshed changed) (i : ℕ) (now : Option Held)
    (hnow : ∀ held', now = some held' → held'.processed → ∃ held, workers i = some held ∧
      held.processed ∧ held.work.generation = held'.work.generation) :
    Kept records (Function.update workers i now) refreshed changed := by
  refine ⟨h.positive, fun j held' claim hheld hprocessed hclaim howner hsame hcurrent => ?_, h.checkpoint,
    h.content, h.access⟩
  by_cases hj : j = i
  · subst hj
    rw [Function.update_self] at hheld
    obtain ⟨held, hbefore, hprocessed, heq⟩ := hnow held' hheld hprocessed
    exact h.held j held claim hbefore hprocessed hclaim howner (hsame.trans heq.symm) (heq.trans hcurrent)
  · rw [Function.update_of_ne hj] at hheld
    exact h.held j held' claim hheld hprocessed hclaim howner hsame hcurrent

theorem Kept.drop (h : Kept records workers refreshed changed) (i : ℕ) :
    Kept records (Function.update workers i none) refreshed changed :=
  h.hold i none none_ne_some

theorem Kept.keep {stage : Stage} (h : Kept records workers refreshed changed) (hheld : workers i = some held)
    (hstage : ∀ access, stage ≠ .begun access) :
    Kept records (Function.update workers i (some ⟨held.work, stage⟩)) refreshed changed := by
  refine h.hold i _ fun held' hnow hprocessed => ?_
  cases hnow
  refine ⟨held, hheld, ⟨hprocessed.1, .inr ?_⟩, rfl⟩
  exact hprocessed.2.resolve_left fun hbegun => hbegun.elim hstage

theorem Kept.setClaim (h : Kept records workers refreshed changed) (c : WorkClass) {claim : Option ClaimRecord}
    (hreleased : ∀ released, claim = some released → released.owner = none) :
    Kept (records.setClaim c claim) workers refreshed changed := by
  refine h.of_same rfl rfl rfl rfl rfl (fun _ => .inl) fun held hheld => ?_
  rcases update_eq_some hheld with ⟨-, hbefore⟩ | ⟨-, hnew⟩
  · exact .inl hbefore
  · exact .inr (hreleased held hnew)

/-- A change that keeps the node, which may itself be an access change. -/
theorem Kept.scheduled {now : Bool} (h : Kept records workers refreshed changed) (hcoherent : Coherent records)
    (hchange : change = .content ∧ now = changed ∨ change = .access ∨ change = .repair)
    (hscheduled : Scheduled versions change records records') : Kept records' workers refreshed now where
  positive := hscheduled.positive h.positive
  held := hscheduled.heldImplies hcoherent
  checkpoint := hscheduled.checkpointImplies hcoherent
  content := h.content.scheduled (hchange.imp_left And.left) hscheduled
  access hwaits := by
    refine hscheduled.access_isSome (hchange.imp_left fun hcontent => ⟨hcontent.1, ?_⟩)
    exact h.access (hcontent.2 ▸ hwaits)

/-- Only the copy changes: the counters of a stored node are set. -/
theorem Kept.scheduleCopy (h : Kept records workers refreshed changed) :
    Kept (scheduleCopy versions records) workers refreshed changed := by
  rcases scheduleCopy_eq versions records with hsame | ⟨-, generation, revision, access, hcounters, heq⟩
  · rw [hsame]
    exact h
  · have hpositive := h.positive
    obtain ⟨-, rfl, rfl⟩ | ⟨hzero, -⟩ := hcounters
    · rw [heq]
      exact h.of_same rfl rfl rfl rfl rfl (fun _ => .inl) fun _ => .inl
    · omega

/-- A new claim starts at the stored checkpoint. -/
theorem Kept.leased {c : WorkClass} {leaseUntil : Time} {target mirror : String}
    (h : Kept records workers refreshed changed) (hgeneration : records.generation = record.generation) :
    Kept (records.setClaim c (some ⟨some i, record.generation, leaseUntil, target, mirror⟩))
      (Function.update workers i (some ⟨leasedWork records c record i target mirror, .claimed⟩)) refreshed
      changed := by
  by_cases hc : WorkClass.access = c
  · subst hc
    refine ⟨h.positive, fun j held' claim hheld hprocessed hclaim howner _ _ => ?_, h.checkpoint,
      h.content.congr rfl rfl rfl, h.access⟩
    rw [records.setClaim_claim] at hclaim
    cases hclaim
    cases howner
    rw [Function.update_self] at hheld
    cases hheld
    have hread : (readProgress records .access record).phase = .dependents :=
      hprocessed.2.resolve_left (by simp)
    rw [readProgress] at hread
    cases hprogress : records.progress .access with
    | none => simp [hprogress] at hread
    | some progress =>
      by_cases hcurrent : progress.generation = record.generation
      · refine h.checkpoint progress hprogress (hcurrent.trans hgeneration.symm) ?_
        simpa [hprogress, hcurrent] using hread
      · simp [hprogress, hcurrent] at hread
  · have hkept : Kept (records.setClaim c (some ⟨some i, record.generation, leaseUntil, target, mirror⟩))
        workers refreshed changed :=
      h.of_same rfl rfl rfl rfl rfl (fun _ => .inl)
        fun claim hclaim => .inl ((Function.update_of_ne hc _ _).symm.trans hclaim)
    refine hkept.hold i _ fun held' hnow hprocessed => ?_
    cases hnow
    exact absurd hprocessed.1.symm hc

/-- A committed page, with the copy that it owes. -/
theorem Kept.completePage {page : ContentPage} {copy : Option WorkRecord} {progress : Option ProgressRecord}
    (h : Kept records workers refreshed changed) (hheld : workers i = some held) :
    Kept (((records.setWork .copy copy).setProgress .copy progress).setProgress held.work.workClass
        (some (pageProgress held.work page)))
      (Function.update workers i (some ⟨held.work.after page, .claimed⟩)) refreshed changed := by
  have hne : (if page.done = true then WorkPhase.refresh else .pages) ≠ .dependents := by
    split <;> decide
  refine Kept.hold ?_ i _ fun held' hnow hprocessed => ⟨held, hheld, ?_, ?_⟩
  · refine h.of_same rfl rfl rfl rfl rfl (fun new hnew => ?_) fun _ => .inl
    rcases update_eq_some hnew with ⟨-, hbefore⟩ | ⟨-, hpage⟩
    · exact .inl hbefore
    · cases hpage
      exact .inr hne
  · cases hnow
    refine ⟨hprocessed.1, .inr ?_⟩
    have hphase : (if page.done = true then WorkPhase.refresh else held.work.phase) = .dependents :=
      hprocessed.2.resolve_left (by simp)
    split at hphase
    · exact absurd hphase (by decide)
    · exact hphase
  · cases hnow
    rfl

/-- A finished refresh of the current revision, or a finished copy of a node that is not excluded. -/
theorem Kept.afterRefresh (h : Kept records workers refreshed changed) (hcoherent : Coherent records)
    (hclaim : Verified records held.work record)
    (hclass : held.work.workClass = .live ∨ held.work.workClass = .copy ∧ records.excluded = false) :
    Kept (afterRefresh records held.work record) workers
      (if held.work.workClass = .live then refreshed ++ [record.revision] else refreshed) changed := by
  rcases hclass with hlive | ⟨hcopy, hexcluded⟩
  · have hpending := hclaim.pending
    rw [hlive] at hpending
    rw [Search.afterRefresh, hlive, if_pos rfl, hcoherent.live record hpending]
    exact ⟨h.positive, h.held, h.checkpoint,
      .inr (.inl (List.mem_append_right _ (List.mem_singleton_self _))), h.access⟩
  · rw [Search.afterRefresh, hcopy]
    exact h.of_same rfl rfl rfl rfl hexcluded.symm (fun _ => .inl) fun _ => .inl

/-- What the access changes of a page that lists its own node keep. -/
theorem SelfScheduled.kept (h : SelfScheduled versions records records')
    (hcontent : ContentKept records refreshed) (hrevision : 0 < records.revision)
    (haccess : (records.work .access).isSome = true) :
    ContentKept records' refreshed ∧ 0 < records'.revision ∧ (records'.work .access).isSome = true := by
  induction h with
  | refl => exact ⟨hcontent, hrevision, haccess⟩
  | @step records _ _ _ hscheduled _ ih =>
    have hchange := @exclusionAdjustedChange_cases records .access (.inr rfl)
    exact ih (hcontent.scheduled (hchange.imp_left And.left) hscheduled) (hscheduled.positive hrevision)
      (hscheduled.access_isSome (hchange.imp_left fun hcontent => ⟨hcontent.1, haccess⟩))

/-- After such changes no claim is current. -/
theorem SelfScheduled.heldImplies {p : Prop} (h : SelfScheduled versions records records')
    (hcoherent : Coherent records) (hlater : records.generation < records'.generation) :
    HeldImplies records' workers p := by
  induction h with
  | refl => exact absurd hlater (lt_irrefl _)
  | step _ hscheduled hrest ih =>
    have hbetween := hcoherent.changed (exclusionAdjustedChange_ne_deletion (by decide)) hscheduled
    cases hrest with
    | refl => exact hscheduled.heldImplies hcoherent
    | step hstored' hscheduled' hrest' =>
      refine ih hbetween ?_
      have hle := hrest'.generation_le
      rw [hscheduled'.generation] at hle
      exact hle

end Parts

/-! ### The moves -/

section Moves

variable {env : StoreEnv} {nodeId : UUID} {s s' : NodeState} {move : NodeMove}

/-- A worker past the first access step whose claim holds. -/
theorem KeptInv.processed {i : ℕ} {held : Held} {record : WorkRecord} (h : KeptInv s)
    (hstored : s.records.stored = true) (hheld : s.workers i = some held) (hprocessed : held.processed)
    (hclaim : Verified s.records held.work record) : s.accessChanged = false := by
  obtain ⟨claim, hclaimed, howner, hgeneration⟩ := hclaim.lease
  rw [hprocessed.1] at hclaimed
  exact (h.kept hstored).held i held claim hheld hprocessed hclaimed ((h.owned i held hheld).1 ▸ howner)
    hgeneration hclaim.generation.symm

/-- A page of dependents: the node's own change, when the page lists it, is scheduled again and is not
covered by the checkpoint of the page. -/
theorem KeptInv.dependentsScheduled {page : IDPage} {i : ℕ} {held : Held} {record : WorkRecord}
    {self records : NodeRecords} {fanout : List UUID} (h : KeptInv s) (hbefore : s.records.stored = true)
    (hmove : nodeId ∈ page.ids → page.done = false) (hheld : s.workers i = some held)
    (hclass : held.work.workClass = .access) (hphase : held.work.phase = .dependents)
    (hclaim : Verified s.records held.work record)
    (hself : SelfScheduled s.org.writeVersions s.records self)
    (hlater : nodeId ∈ page.ids → s.records.generation < self.generation)
    (hshape : page.done = false ∧ records =
        writeAccessProgress { self with fanout := fanout } record .dependents page.nextCursor ∨
      page.done = true ∧ ∃ access,
        records = clearSearchWork { self with fanout := fanout, access := access } .access) :
    Kept records (Function.update s.workers i (some ⟨held.work, .settling⟩)) s.refreshed
      (s.accessChanged || (nodeId ∈ page.ids ∧ s.records.stored)) := by
  have hkept := h.kept hbefore
  have hnone := h.processed hbefore hheld ⟨hclass, .inr hphase⟩ hclaim
  have hpending : (s.records.work .access).isSome = true := by
    rw [← hclass, hclaim.pending]
    rfl
  obtain ⟨hcontent, hrevision, haccess⟩ := hself.kept hkept.content hkept.positive hpending
  by_cases hlisted : nodeId ∈ page.ids
  · rcases hshape with ⟨-, rfl⟩ | ⟨hdone, -⟩
    · refine ⟨hrevision, hself.heldImplies h.coherent (hlater hlisted), ?_, hcontent.congr rfl rfl rfl,
        fun _ => haccess⟩
      -- the checkpoint of the page is of the generation before
      intro progress hprogress hcurrent _
      obtain rfl : _ = progress := Option.some.inj hprogress
      have hstale : record.generation = self.generation := hcurrent
      rw [hclaim.recordGeneration, ← hclaim.generation] at hstale
      exact absurd hstale (hlater hlisted).ne
    · exact absurd ((hmove hlisted).symm.trans hdone) Bool.false_ne_true
  · have hchanged : (s.accessChanged || decide (nodeId ∈ page.ids ∧ s.records.stored = true)) = false := by
      simp [hnone, hlisted]
    rcases hshape with ⟨-, rfl⟩ | ⟨-, access, rfl⟩
    · exact kept_of_processed hchanged hrevision (hcontent.congr rfl rfl rfl)
    · exact kept_of_processed hchanged hrevision (hcontent.congr rfl rfl rfl)

/-- A move of a stored node other than its create. -/
theorem KeptInv.kept_step (h : KeptInv s) (heffect : NodeEffect env nodeId s move s')
    (hmove : KeepsWork nodeId s move) (hcreate : move ≠ .create) (hstored : s'.records.stored = true) :
    Kept s'.records s'.workers s'.refreshed s'.accessChanged := by
  have hbefore := (heffect.stored hstored).resolve_left hcreate
  have hkept := h.kept hbefore
  cases heffect
  case create => exact absurd rfl hcreate
  case delete =>
    exact absurd ((scheduleDeletedFanout_stored _ _ _).symm.trans hstored) Bool.false_ne_true
  case change hchange hscheduled =>
    refine hkept.scheduled h.coherent ((exclusionAdjustedChange_cases hchange).imp_left ?_) hscheduled
    rintro ⟨hcontent, rfl⟩
    exact ⟨hcontent, by simp⟩
  case repairAccess access records _ hscheduled =>
    have haside : Kept { s.records with access := access } s.workers s.refreshed s.accessChanged :=
      hkept.of_same rfl rfl rfl rfl rfl (fun _ => .inl) fun _ => .inl
    refine haside.scheduled (h.coherent.aside _ _ _ _) ?_ hscheduled
    refine (exclusionAdjustedChange_cases (.inr rfl)).imp_left fun hcontent => ?_
    exact absurd hcontent.2 (by decide)
  case copyNode => exact hkept.scheduleCopy
  case mirrorMiss => exact hkept.of_same rfl rfl rfl rfl rfl (fun _ => .inl) fun _ => .inl
  case setOrg => exact hkept
  case dropped hrecord hreason =>
    rw [h.coherent.dropped_copy hrecord hreason]
    refine Kept.drop ?_ _
    exact hkept.of_same rfl rfl rfl rfl rfl (fun _ => .inl) fun _ => .inl
  case leased hgeneration => exact hkept.leased hgeneration
  case read hheld _ => exact hkept.keep hheld (by simp)
  case register hheld _ _ _ _ _ =>
    exact Kept.keep (hkept.of_same rfl rfl rfl rfl rfl (fun _ => .inl) fun _ => .inl) hheld (by simp)
  case completePage hheld _ _ _ _ => exact hkept.completePage hheld
  case refreshRestarted hscheduled =>
    exact ((hkept.setClaim _ none_ne_some).scheduled (h.coherent.setClaim _ none_ne_some)
      (.inl ⟨rfl, rfl⟩) hscheduled).drop _
  case refreshCompleted hheld hclass hclaim _ _ =>
    refine (hkept.afterRefresh h.coherent hclaim (hclass.imp_right fun hcopy => ⟨hcopy, ?_⟩)).drop _
    exact hmove.resolve_left fun hlive => absurd ((hlive _ hheld).symm.trans hcopy) (by decide)
  case restart hscheduled =>
    exact ((hkept.setClaim _ none_ne_some).scheduled (h.coherent.setClaim _ none_ne_some)
      (.inl ⟨rfl, rfl⟩) hscheduled).drop _
  case beginFinished => exact kept_of_processed rfl hkept.positive (hkept.content.congr rfl rfl rfl)
  case begun => exact kept_of_processed rfl hkept.positive (hkept.content.congr rfl rfl rfl)
  case accessCompleted hheld hstage hclaim hshape =>
    have haccess := (h.owned _ _ hheld).2 _ hstage
    have hnone := h.processed hbefore hheld ⟨haccess, .inl ⟨_, hstage⟩⟩ hclaim
    rcases hshape with rfl | ⟨phase, cursor, rfl⟩
    · rw [haccess]
      exact kept_of_processed hnone hkept.positive (hkept.content.congr rfl rfl rfl)
    · exact kept_of_processed hnone hkept.positive (hkept.content.congr rfl rfl rfl)
  case dependentsScheduled hheld hclass hphase hclaim hself hsame hshape =>
    refine h.dependentsScheduled hbefore (fun hlisted => hmove hlisted hbefore) hheld hclass hphase hclaim hself
      (fun hlisted => hsame.2 hlisted hbefore) (hshape.imp_right fun hdone => ?_)
    rcases hdone with ⟨-, hdeleted, -⟩ | ⟨hdone, -, hcleared⟩
    · exact absurd ((h.coherent.unstored hclaim hdeleted).symm.trans hbefore) Bool.false_ne_true
    · exact ⟨hdone, hcleared⟩
  case retired hheld _ _ _ hclaim hretired hshape =>
    subst hretired
    rcases hshape with ⟨-, rfl⟩ | ⟨-, hdeleted, rfl⟩ | ⟨-, -, rfl⟩
    · exact Kept.keep (hkept.of_same rfl rfl rfl rfl rfl (fun _ => .inl) fun _ => .inl) hheld (by simp)
    · exact absurd ((h.coherent.unstored hclaim hdeleted).symm.trans hbefore) Bool.false_ne_true
    · exact Kept.keep (hkept.of_same rfl rfl rfl rfl rfl (fun _ => .inl) fun _ => .inl) hheld (by simp)
  case excluded hscheduled =>
    exact kept_of_processed hmove (hscheduled.positive hkept.positive) (.inr (.inr rfl))
  case yielded => exact (hkept.setClaim _ none_ne_some).drop _
  case released howner _ =>
    refine (hkept.setClaim _ fun released hreleased => ?_).drop _
    cases hreleased
    exact howner
  case stopped => exact hkept.drop _

theorem KeepsWork.createsClean (h : KeepsWork nodeId s move) : CreatesClean s move := by
  cases move
  case create => exact h
  all_goals trivial

theorem keptInv_init (org : OrgState) : KeptInv (NodeState.init false org) where
  coherent := coherent_empty false
  owned _ _ hheld := absurd hheld (Option.some_ne_none _).symm
  kept hstored := absurd hstored Bool.false_ne_true

/-- **The step lemma.** -/
theorem KeptInv.step (h : KeptInv s) (hmove : KeepsWork nodeId s move)
    (hstep : nodeStep env nodeId s move = some s') : KeptInv s' := by
  have heffect := nodeStep_effect hstep
  refine ⟨h.coherent.step heffect hmove.createsClean, heffect.owned h.owned, fun hstored => ?_⟩
  by_cases hcreate : move = .create
  · subst hcreate
    cases heffect with
    | create _ hscheduled =>
      have hrevision : _ = s.records.generation + 1 := hscheduled.revision
      exact kept_of_processed rfl (hrevision ▸ Nat.succ_pos _) (contentKept_started (.inl rfl) hscheduled)
  · exact h.kept_step heffect hmove hcreate hstored

end Moves

/-! ### The results -/

/-- **No search work is lost** in a run of moves that keep it. -/
theorem no_work_lost {env : StoreEnv} {nodeId : UUID} {org : OrgState} {s : NodeState}
    (hreach : Reach (nodeStep env nodeId) (KeepsWork nodeId) (NodeState.init false org) s) :
    NoLostWork s := by
  have hinv : KeptInv s := hreach.invariant (keptInv_init org) fun hinv hmove hstep => hinv.step hmove hstep
  exact fun hstored => ⟨(hinv.kept hstored).content, (hinv.kept hstored).access⟩

/-- A node is indexed and its access changes.  A worker updates its pages and schedules a page of
dependents that lists the node itself, and the next worker takes the access work up again. -/
def indexedRun : List NodeMove :=
  [.create, .claim 0 .live .zero 10, .read 0 (samplePage 0 "" true), .register 0 .zero,
    .completePage 0 .zero false, .completeRefresh 0 .zero, .change .access, .claim 1 .access .zero 10,
    .beginAccess 1 .zero ⟨[stableVersion], ["team"], 2⟩, .completeAccess 1 .zero [] true, .yield 1 .zero,
    .claim 1 .access .zero 10, .scheduleDependents 1 .zero ⟨[7], "next", false⟩, .stop 1,
    .claim 2 .access .zero 10]

/-- The check of `KeepsWork` on the moves of `indexedRun`. -/
def keepsIndexed (s : NodeState) : NodeMove → Bool
  | .create => (s.records.work .live).isNone && (s.records.work .access).isNone &&
      (s.records.work .cleanup).isNone && (s.records.work .copy).isNone
  | .exclude _ _ => false
  | .scheduleDependents _ _ page => !page.done
  | .completeRefresh _ _ => !s.records.excluded
  | _ => true

theorem keepsIndexed_ok (s : NodeState) (move : NodeMove) (h : keepsIndexed s move = true) :
    KeepsWork 7 s move := by
  cases move
  case create =>
    simp only [keepsIndexed, Bool.and_eq_true, Option.isNone_iff_eq_none] at h
    intro c record hrecord
    cases c <;> simp [h] at hrecord
  case completeRefresh => exact .inr ((Bool.not_eq_true' _).mp h)
  case exclude => exact absurd h Bool.false_ne_true
  case scheduleDependents => exact fun _ _ => (Bool.not_eq_true' _).mp h
  all_goals trivial

theorem no_work_lost_indexed : ∃ s : NodeState, s.records.stored = true ∧ s.refreshed = [1] ∧
    s.records.generation = 3 ∧ s.accessChanged = true ∧
    Reach (nodeStep sampleEnv 7) (KeepsWork 7) (NodeState.init false sampleOrg) s ∧ NoLostWork s := by
  obtain ⟨s, hreach, hs⟩ := exists_reach_of_runChecked (nodeStep sampleEnv 7) keepsIndexed_ok
    (NodeState.init false sampleOrg) indexedRun
    (fun s => s.records.stored && s.refreshed == [1] && s.records.generation == 3 && s.accessChanged)
    (by decide +kernel)
  simp only [Bool.and_eq_true, beq_iff_eq] at hs
  exact ⟨s, hs.1.1.1, hs.1.1.2, hs.1.2, hs.2, hreach, no_work_lost hreach⟩

/-- A node is deleted and created again, and then the cleanup of the deletion finishes. -/
def recreatedRun : List NodeMove :=
  [.create, .delete [], .create, .claim 0 .cleanup .zero 10, .completeRetirement 0 .zero [] true]

/-- The cleanup of a deletion clears the live work of the node that was created again under its ID. -/
theorem recreated_node_loses_work : ∃ s : NodeState,
    Reach (nodeStep sampleEnv 7) anyMove (NodeState.init false sampleOrg) s ∧ ¬ NoLostWork s := by
  obtain ⟨s, hreach, hs⟩ := exists_reach_of_run (nodeStep sampleEnv 7) (NodeState.init false sampleOrg)
    recreatedRun (fun s => s.records.stored && (s.records.work .live).isNone && s.refreshed == [] &&
      !s.records.excluded) (by decide +kernel)
  simp only [Bool.and_eq_true, beq_iff_eq, Option.isNone_iff_eq_none, Bool.not_eq_true'] at hs
  obtain ⟨⟨⟨hstored, hnone⟩, hrefreshed⟩, hexcluded⟩ := hs
  refine ⟨s, hreach, fun hkept => ?_⟩
  rcases (hkept hstored).1 with ⟨record, hrecord, -⟩ | hmem | htrue
  · exact absurd (hnone.symm.trans hrecord) (Option.some_ne_none _).symm
  · rw [hrefreshed] at hmem
    exact absurd hmem List.not_mem_nil
  · exact absurd (hexcluded.symm.trans htrue) Bool.false_ne_true

end Tack.Search

import Tack.Search.NodeSystem

/-!
# The records of a node belong together

Every pending record of a node carries the node's generation, and the live record its revision.  No claim and
no checkpoint is of a later generation, and a stored node has no record of its own deletion.  These facts hold
as long as a node is created only when no record of an earlier deletion under its ID is pending.

## Main definitions

* `Search.Coherent` — how the records, claims and checkpoints relate to the counters.
* `Search.CreatesClean` — no record of a deletion is pending when the node is created.

## Main results

* `Search.Coherent.step` — every move keeps the records coherent.
* `Search.NodeEffect.owned` — every worker owns the work that it holds.
-/

namespace Tack.Search

open Lib

/-- How the records, claims and checkpoints of a node relate to its counters. -/
structure Coherent (records : NodeRecords) : Prop where
  revision_le : records.revision ≤ records.generation
  generation : ∀ c record, records.work c = some record →
    record.generation = records.generation ∧ 0 < records.generation
  revision : ∀ c record, records.work c = some record → record.revision ≤ records.revision
  live : ∀ record, records.work .live = some record → record.revision = records.revision
  kept : records.stored = true → ∀ c record, records.work c = some record → record.deleted = false
  claimed : ∀ c claim, records.claim c = some claim → claim.generation ≤ records.generation
  progressed : ∀ progress, records.progress .access = some progress → progress.generation ≤ records.generation

/-- No record of a deletion is pending. -/
def NoDeletion (records : NodeRecords) : Prop :=
  ∀ c record, records.work c = some record → record.deleted = false

section Records

variable {records records' : NodeRecords}

/-- A node without pending records, claims and checkpoints. -/
theorem coherent_of_none (hrevision : records.revision ≤ records.generation) (hwork : ∀ c, records.work c = none)
    (hclaim : ∀ c, records.claim c = none) (hprogress : records.progress .access = none) : Coherent records where
  revision_le := hrevision
  generation c record h := by simp [hwork] at h
  revision c record h := by simp [hwork] at h
  live record h := by simp [hwork] at h
  kept _ c record h := by simp [hwork] at h
  claimed c claim h := by simp [hclaim] at h
  progressed progress h := by simp [hprogress] at h

theorem coherent_empty (stored : Bool) : Coherent { NodeRecords.empty with stored := stored } :=
  coherent_of_none le_rfl (fun _ => rfl) (fun _ => rfl) rfl

theorem coherent_cleared : Coherent (clearDeletedSearchState records) :=
  coherent_of_none le_rfl (fun _ => rfl) (fun _ => rfl) rfl

/-- A record that a step may leave: the one before it, or a new one of another class than the live one. -/
def MayPend (records : NodeRecords) (c : WorkClass) (record : WorkRecord) : Prop :=
  records.work c = some record ∨
    c ≠ .live ∧ record.generation = records.generation ∧ 0 < records.generation ∧
      record.revision ≤ records.revision ∧ (records.stored = true → record.deleted = false)

/-- A step that leaves the counters as they are. -/
theorem Coherent.frame (h : Coherent records) (hstored : records'.stored = records.stored)
    (hgeneration : records'.generation = records.generation)
    (hrevision : records'.revision = records.revision)
    (hwork : ∀ c record, records'.work c = some record → MayPend records c record)
    (hclaim : ∀ c claim, records'.claim c = some claim →
      records.claim c = some claim ∨ claim.generation ≤ records.generation)
    (hprogress : ∀ progress, records'.progress .access = some progress →
      records.progress .access = some progress ∨ progress.generation ≤ records.generation) :
    Coherent records' where
  revision_le := by rw [hgeneration, hrevision]; exact h.revision_le
  generation c record hrecord := by
    rw [hgeneration]
    rcases hwork c record hrecord with hbefore | ⟨-, hsame, hpos, -⟩
    · exact h.generation c record hbefore
    · exact ⟨hsame, hpos⟩
  revision c record hrecord := by
    rw [hrevision]
    rcases hwork c record hrecord with hbefore | ⟨-, -, -, hle, -⟩
    · exact h.revision c record hbefore
    · exact hle
  live record hrecord := by
    rw [hrevision]
    rcases hwork .live record hrecord with hbefore | ⟨hlive, -⟩
    · exact h.live record hbefore
    · exact absurd rfl hlive
  kept hkept c record hrecord := by
    rcases hwork c record hrecord with hbefore | ⟨-, -, -, -, hdeleted⟩
    · exact h.kept (hstored ▸ hkept) c record hbefore
    · exact hdeleted (hstored ▸ hkept)
  claimed c claim hclaimed := by
    rw [hgeneration]
    rcases hclaim c claim hclaimed with hbefore | hle
    · exact h.claimed c claim hbefore
    · exact hle
  progressed progress hprogressed := by
    rw [hgeneration]
    rcases hprogress progress hprogressed with hbefore | hle
    · exact h.progressed progress hbefore
    · exact hle

theorem Coherent.aside (h : Coherent records) (access : Option AccessRecord) (excluded : Bool)
    (issued : List IssuedDocument) (fanout : List UUID) :
    Coherent { records with access := access, excluded := excluded, issued := issued, fanout := fanout } :=
  ⟨h.revision_le, h.generation, h.revision, h.live, h.kept, h.claimed, h.progressed⟩

theorem Coherent.setClaim (h : Coherent records) (c : WorkClass) {claim : Option ClaimRecord}
    (hclaim : ∀ new, claim = some new → new.generation ≤ records.generation) :
    Coherent (records.setClaim c claim) := by
  refine h.frame rfl rfl rfl (fun _ _ => .inl) (fun other held hheld => ?_) (fun _ => .inl)
  rcases update_eq_some hheld with ⟨-, hbefore⟩ | ⟨-, hnew⟩
  · exact .inl hbefore
  · exact .inr (hclaim held hnew)

theorem Coherent.setProgress (h : Coherent records) (c : WorkClass) {progress : Option ProgressRecord}
    (hprogress : c = .access → ∀ new, progress = some new →
      records.progress .access = some new ∨ new.generation ≤ records.generation) :
    Coherent (records.setProgress c progress) := by
  refine h.frame rfl rfl rfl (fun _ _ => .inl) (fun _ _ => .inl) (fun held hheld => ?_)
  rcases update_eq_some hheld with ⟨-, hbefore⟩ | ⟨hc, hnew⟩
  · exact .inl hbefore
  · exact hprogress hc.symm held hnew

theorem Coherent.setWork (h : Coherent records) (c : WorkClass) {record : Option WorkRecord}
    (hrecord : ∀ new, record = some new → MayPend records c new) : Coherent (records.setWork c record) := by
  refine h.frame rfl rfl rfl (fun other pending hpending => ?_) (fun _ _ => .inl) (fun _ => .inl)
  rcases update_eq_some hpending with ⟨-, hbefore⟩ | ⟨rfl, hnew⟩
  · exact .inl hbefore
  · exact hrecord pending hnew

theorem none_ne_some {α : Type} {p : α → Prop} : ∀ new, none = some new → p new :=
  fun _ h => absurd h (Option.some_ne_none _).symm

theorem Coherent.dropSearchWork (h : Coherent records) (c : WorkClass) : Coherent (dropSearchWork records c) :=
  (h.setWork c none_ne_some).setClaim c none_ne_some

theorem Coherent.clearClass (h : Coherent records) (c : WorkClass) : Coherent (records.clearClass c) :=
  ((h.setWork c none_ne_some).setClaim c none_ne_some).setProgress c fun _ => none_ne_some

theorem Coherent.finishDeletedClass (h : Coherent records) (c : WorkClass) :
    Coherent (finishDeletedClass c records) := by
  rcases finishDeletedClass_eq c records with heq | heq <;> rw [heq]
  · exact h.clearClass c
  · exact coherent_cleared

variable {record : WorkRecord} {versions : List String} {change : SearchChange} {c : WorkClass}

/-- A pending record after a change is of the new generation. -/
theorem Scheduled.generation_eq (h : Scheduled versions change records records')
    (hrecord : records'.work c = some record) : record.generation = records'.generation := by
  rw [h.work] at hrecord
  rw [h.generation]
  cases hplan : searchRecordPlanFor change c <;> rw [hplan] at hrecord
  case rewrite =>
    obtain ⟨before, -, rfl⟩ := Option.map_eq_some_iff.mp hrecord
    rfl
  case restart =>
    obtain ⟨before, -, rfl⟩ := Option.map_eq_some_iff.mp hrecord
    rfl
  case put =>
    cases hrecord
    rfl
  case remove => exact absurd hrecord (Option.some_ne_none _).symm

theorem Scheduled.noDeletion (h : Scheduled versions change records records') (hchange : change ≠ .deletion)
    (hbefore : NoDeletion records) : NoDeletion records' := by
  intro c record hrecord
  have hcurrent : (changeRecord records change).deleted = false := by simpa [changeRecord] using hchange
  rw [h.work] at hrecord
  cases hplan : searchRecordPlanFor change c <;> rw [hplan] at hrecord
  case rewrite =>
    obtain ⟨before, hpending, rfl⟩ := Option.map_eq_some_iff.mp hrecord
    exact hbefore c before hpending
  case restart =>
    obtain ⟨before, -, rfl⟩ := Option.map_eq_some_iff.mp hrecord
    exact hcurrent
  case put =>
    cases hrecord
    exact hcurrent
  case remove => exact absurd hrecord (Option.some_ne_none _).symm

/-- The claims before a change are of an earlier generation. -/
theorem Scheduled.claim_lt
    {claim : ClaimRecord} (h : Scheduled versions change records records') (hcoherent : Coherent records)
    (hclaim : records'.claim c = some claim) : claim.generation < records'.generation := by
  rw [h.claim] at hclaim
  rw [h.generation, Nat.lt_succ_iff]
  cases hplan : searchRecordPlanFor change c <;> rw [hplan] at hclaim
  case remove => exact absurd hclaim (Option.some_ne_none _).symm
  all_goals exact hcoherent.claimed c claim hclaim

/-- The access checkpoint before a change is of an earlier generation. -/
theorem Scheduled.progress_lt {progress : ProgressRecord}
    (h : Scheduled versions change records records') (hcoherent : Coherent records)
    (hprogress : records'.progress .access = some progress) :
    progress.generation < records'.generation := by
  rw [h.progress] at hprogress
  rw [h.generation, Nat.lt_succ_iff]
  refine hcoherent.progressed progress ?_
  cases hplan : searchRecordPlanFor change .access <;> rw [hplan] at hprogress
  case rewrite => exact hprogress
  case restart =>
    rw [RecordPlan.progress] at hprogress
    split at hprogress
    · cases hprogress
    · exact hprogress
  all_goals exact absurd hprogress (Option.some_ne_none _).symm

theorem Scheduled.revision_le (h : Scheduled versions change records records') (hcoherent : Coherent records) :
    records.revision ≤ records'.revision := by
  have hle := hcoherent.revision_le
  rw [h.revision]
  split <;> omega

theorem Scheduled.record_revision_le (h : Scheduled versions change records records') (hcoherent : Coherent records)
    (hrecord : records'.work c = some record) : record.revision ≤ records'.revision := by
  have hcurrent : (changeRecord records change).revision = records'.revision := h.revision.symm
  rw [h.work] at hrecord
  cases hplan : searchRecordPlanFor change c <;> rw [hplan] at hrecord
  case rewrite =>
    obtain ⟨before, hbefore, rfl⟩ := Option.map_eq_some_iff.mp hrecord
    exact (hcoherent.revision c before hbefore).trans (h.revision_le hcoherent)
  case restart =>
    obtain ⟨before, -, rfl⟩ := Option.map_eq_some_iff.mp hrecord
    exact hcurrent.le
  case put =>
    cases hrecord
    exact hcurrent.le
  case remove => exact absurd hrecord (Option.some_ne_none _).symm

/-- A change of a node.  The node may be created or removed with it. -/
theorem Coherent.scheduled (h : Coherent records)
    (hscheduled : Scheduled versions change records records') (stored : Bool)
    (hkept : stored = true → NoDeletion records ∧ change ≠ .deletion) :
    Coherent { records' with stored := stored } where
  revision_le := by
    have hrevision := hscheduled.revision
    have hgeneration := hscheduled.generation
    have hle := h.revision_le
    show records'.revision ≤ records'.generation
    split at hrevision <;> omega
  generation c record hrecord := by
    refine ⟨hscheduled.generation_eq hrecord, ?_⟩
    show 0 < records'.generation
    rw [hscheduled.generation]
    exact Nat.succ_pos _
  revision c record hrecord := hscheduled.record_revision_le h hrecord
  live record hrecord := by
    have hpending : records'.work .live = some record := hrecord
    show record.revision = records'.revision
    rw [hscheduled.work] at hpending
    rw [hscheduled.revision]
    cases change with
    | content => cases hpending; rfl
    | repair => cases hpending; rfl
    | deletion => cases hpending
    | exclusion => cases hpending
    | access =>
      obtain ⟨before, hbefore, rfl⟩ := Option.map_eq_some_iff.mp hpending
      exact h.live before hbefore
  kept hstored := hscheduled.noDeletion (hkept hstored).2 (hkept hstored).1
  claimed c claim hclaim := (hscheduled.claim_lt h hclaim).le
  progressed progress hprogress := (hscheduled.progress_lt h hprogress).le

/-- A change that leaves the node stored or not. -/
theorem Coherent.changed (h : Coherent records)
    (hchange : change ≠ .deletion) (hscheduled : Scheduled versions change records records') :
    Coherent records' :=
  h.scheduled hscheduled records'.stored fun hstored => ⟨h.kept (hscheduled.stored ▸ hstored), hchange⟩

theorem exclusionAdjustedChange_ne_deletion (h : change ≠ .deletion) :
    exclusionAdjustedChange records change ≠ .deletion := by
  cases change
  case access =>
    rw [exclusionAdjustedChange]
    split <;> decide
  all_goals exact h

theorem Coherent.selfScheduled (h : Coherent records)
    (hself : SelfScheduled versions records records') : Coherent records' := by
  induction hself with
  | refl => exact h
  | step _ hscheduled _ ih =>
    exact ih (h.changed (exclusionAdjustedChange_ne_deletion (by decide)) hscheduled)

/-- A deletion, with the work of the counterparts. -/
theorem Coherent.deleted {nodeId : UUID} {counterparts : List UUID}
    (h : Coherent records) (hscheduled : Scheduled versions .deletion records records') :
    Coherent (scheduleDeletedFanout nodeId (changeRecord records .deletion) counterparts
      { records' with stored := false }) := by
  have hremoved : Coherent { records' with stored := false } :=
    h.scheduled hscheduled false fun hstored => absurd hstored Bool.false_ne_true
  have hgeneration : (changeRecord records .deletion).generation = records'.generation :=
    hscheduled.generation.symm
  have hpos : 0 < records'.generation := hgeneration ▸ Nat.succ_pos _
  rw [scheduleDeletedFanout]
  split
  · exact hremoved
  · refine ((hremoved.aside _ _ _ _).setWork .access fun new hnew => .inr ?_).setProgress .access
      fun _ new hnew => .inr ?_
    · cases hnew
      exact ⟨by decide, hgeneration, hpos, hscheduled.revision.ge,
        fun hstored => absurd hstored Bool.false_ne_true⟩
    · cases hnew
      exact hgeneration.le

theorem Coherent.scheduleCopy (h : Coherent records) :
    Coherent (scheduleCopy versions records) := by
  rcases scheduleCopy_eq versions records with
    hsame | ⟨hnone, generation, revision, access, hcounters, heq⟩
  · rw [hsame]
    exact h
  have hle : records.generation ≤ generation ∧ revision ≤ generation ∧ 0 < generation ∧
      records.revision ≤ revision := by
    have := h.revision_le
    omega
  have hcounted : Coherent { records with generation := generation, revision := revision, access := access } :=
    { revision_le := hle.2.1
      generation := fun c record hrecord => by
        obtain ⟨hsame, hpos⟩ := h.generation c record hrecord
        exact ⟨by show record.generation = generation; omega, hle.2.2.1⟩
      revision := fun c record hrecord => (h.revision c record hrecord).trans hle.2.2.2
      live := fun record hrecord => absurd (hnone.symm.trans hrecord) (Option.some_ne_none _).symm
      kept := h.kept
      claimed := fun c claim hclaim => (h.claimed c claim hclaim).trans hle.1
      progressed := fun progress hprogress => (h.progressed progress hprogress).trans hle.1 }
  rw [heq]
  refine (hcounted.setProgress .copy fun _ => none_ne_some).setWork .copy fun new hnew => .inr ?_
  cases hnew
  exact ⟨by decide, rfl, hle.2.2.1, le_rfl, fun _ => rfl⟩

/-- The copy that a page of current work owes the replacement index. -/
theorem Coherent.setCopy {copy : Option WorkRecord} {revision : ℕ} (h : Coherent records)
    (hpos : 0 < records.generation) (hrevision : revision ≤ records.revision)
    (hcopy : copy = records.work .copy ∨ copy = some ⟨records.generation, revision, false⟩)
    (progress : Option ProgressRecord) :
    Coherent ((records.setWork .copy copy).setProgress .copy progress) := by
  refine (h.setWork .copy fun new hnew => ?_).setProgress .copy fun hc => absurd hc (by decide)
  rcases hcopy with rfl | rfl
  · exact .inl hnew
  · cases hnew
    exact .inr ⟨by decide, rfl, hpos, hrevision, fun _ => rfl⟩

/-- The checkpoint of an access step under a claim that holds. -/
theorem Coherent.writeAccessProgress (h : Coherent records)
    (hgeneration : record.generation ≤ records.generation) (phase : WorkPhase) (cursor : String) :
    Coherent (writeAccessProgress records record phase cursor) := by
  refine h.setProgress .access fun _ new hnew => .inr ?_
  cases hnew
  exact hgeneration

/-- Only a node that is gone has deleted work. -/
theorem Coherent.unstored {work : Work} (h : Coherent records)
    (hclaim : Verified records work record) (hdeleted : record.deleted = true) : records.stored = false := by
  cases hstored : records.stored with
  | false => rfl
  | true =>
    exact absurd ((h.kept hstored _ record hclaim.pending).symm.trans hdeleted) Bool.false_ne_true

theorem Coherent.afterRefresh {work : Work} (h : Coherent records)
    (hclaim : Verified records work record) : Coherent (afterRefresh records work record) := by
  obtain ⟨hgeneration, hpos⟩ := h.generation _ record hclaim.pending
  have hcleared := (h.clearClass work.workClass).aside records.access false records.issued records.fanout
  rw [Search.afterRefresh]
  split
  · exact hcleared
  · refine hcleared.setWork .cleanup fun new hnew => .inr ?_
    cases hnew
    exact ⟨by decide, hgeneration, hpos, h.revision _ record hclaim.pending, fun _ => rfl⟩

end Records

/-! ### The moves -/

section Moves

variable {env : StoreEnv} {nodeId : UUID} {s s' : NodeState} {move : NodeMove}

/-- No record of an earlier deletion is pending when the node is created. -/
def CreatesClean (s : NodeState) : NodeMove → Prop
  | .create => NoDeletion s.records
  | _ => True

/-- **The step lemma.** -/
theorem Coherent.step (h : Coherent s.records) (heffect : NodeEffect env nodeId s move s')
    (hmove : CreatesClean s move) : Coherent s'.records := by
  cases heffect
  case create hscheduled =>
    have hnew : Coherent { s.records with stored := true } :=
      ⟨h.revision_le, h.generation, h.revision, h.live, fun _ => hmove, h.claimed, h.progressed⟩
    exact hnew.changed (by decide) hscheduled
  case delete hscheduled => exact h.deleted hscheduled
  case change hchange hscheduled =>
    refine h.changed (exclusionAdjustedChange_ne_deletion ?_) hscheduled
    rcases hchange with rfl | rfl <;> decide
  case repairAccess hscheduled =>
    exact (h.aside _ _ _ _).changed
      (exclusionAdjustedChange_ne_deletion (show SearchChange.access ≠ .deletion by decide)) hscheduled
  case copyNode => exact h.scheduleCopy
  case mirrorMiss hrevision hlive hcopy =>
    obtain ⟨record, hrecord⟩ := Option.isSome_iff_exists.mp hlive
    exact h.setCopy (h.generation _ record hrecord).2 hrevision.ge hcopy _
  case setOrg => exact h
  case dropped => exact h.dropSearchWork _
  case leased hgeneration =>
    refine h.setClaim _ fun new hnew => ?_
    cases hnew
    exact hgeneration.ge
  case read => exact h
  case register => exact h.aside _ _ _ _
  case completePage hpage hcopy =>
    rw [← hpage.claim.generation] at hcopy
    have hpos := (h.generation _ _ hpage.claim.pending).2
    refine (h.setCopy hpos hpage.revision.ge hcopy _).setProgress _ fun _ new hnew => .inr ?_
    cases hnew
    exact hpage.claim.generation.ge
  case refreshRestarted hscheduled => exact (h.setClaim _ none_ne_some).changed (by decide) hscheduled
  case refreshCompleted hclaim _ _ => exact h.afterRefresh hclaim
  case restart hscheduled => exact (h.setClaim _ none_ne_some).changed (by decide) hscheduled
  case beginFinished => exact h.clearClass _
  case begun hclaim hprogress _ _ =>
    refine (h.aside _ _ _ _).setProgress .access fun _ new hnew => ?_
    rcases hprogress with rfl | ⟨phase, cursor, rfl⟩
    · exact .inl hnew
    · cases hnew
      exact .inr (h.generation _ _ hclaim.pending).1.le
  case accessCompleted recorded _ _ _ hclaim hshape =>
    have haside := h.aside recorded s.records.excluded s.records.issued s.records.fanout
    rcases hshape with rfl | ⟨phase, cursor, rfl⟩
    · exact haside.clearClass _
    · exact haside.writeAccessProgress (h.generation _ _ hclaim.pending).1.le _ _
  case dependentsScheduled self _ fanout _ _ _ hclaim hself _ hshape =>
    have hafter := h.selfScheduled hself
    rcases hshape with ⟨-, rfl⟩ | ⟨-, -, rfl⟩ | ⟨-, -, access, rfl⟩
    · refine (hafter.aside self.access self.excluded self.issued fanout).writeAccessProgress ?_ _ _
      exact (h.generation _ _ hclaim.pending).1.le.trans hself.generation_le
    · exact (hafter.aside self.access self.excluded self.issued fanout).finishDeletedClass .access
    · exact (hafter.aside access self.excluded self.issued fanout).clearClass _
  case retired hclaim hretired hshape =>
    subst hretired
    rcases hshape with ⟨-, rfl⟩ | ⟨-, -, rfl⟩ | ⟨-, -, rfl⟩
    · exact h.aside _ _ _ _
    · exact (h.aside _ _ _ _).finishDeletedClass .cleanup
    · exact (h.aside _ _ _ _).clearClass _
  case excluded hscheduled => exact ((h.clearClass _).changed (by decide) hscheduled).aside _ _ _ _
  case yielded => exact h.setClaim _ none_ne_some
  case released hclaim _ hgeneration =>
    refine h.setClaim _ fun new hnew => ?_
    cases hnew
    exact (hgeneration.trans hclaim.generation.symm).le
  case stopped => exact h

/-- The worker is the owner of the work that it holds, and only access work is begun. -/
def Held.OwnedBy (i : ℕ) (held : Held) : Prop :=
  held.work.owner = i ∧ ∀ access, held.stage = .begun access → held.work.workClass = .access

theorem NodeEffect.owned (heffect : NodeEffect env nodeId s move s')
    (h : ∀ i held, s.workers i = some held → held.OwnedBy i) :
    ∀ i held, s'.workers i = some held → held.OwnedBy i := by
  have hhold : ∀ i now, (∀ held, now = some held → held.OwnedBy i) →
      ∀ j held, Function.update s.workers i now j = some held → held.OwnedBy j := by
    intro i now hnow j held hheld
    by_cases hj : j = i
    · subst hj
      rw [Function.update_self] at hheld
      exact hnow held hheld
    · rw [Function.update_of_ne hj] at hheld
      exact h j held hheld
  have hnone : ∀ i j held, Function.update s.workers i none j = some held → held.OwnedBy j :=
    fun i => hhold i none none_ne_some
  have hsame : ∀ {i} {held now : Held}, s.workers i = some held → now.work.owner = held.work.owner →
      (∀ access, now.stage = .begun access → now.work.workClass = .access) →
      ∀ j held, Function.update s.workers i (some now) j = some held → held.OwnedBy j := by
    intro i held now hheld howner hbegun
    refine hhold i (some now) fun held' hheld' => ?_
    cases hheld'
    exact ⟨howner.trans (h i held hheld).1, hbegun⟩
  cases heffect
  case create => exact h
  case delete => exact h
  case change => exact h
  case repairAccess => exact h
  case copyNode => exact h
  case mirrorMiss => exact h
  case setOrg => exact h
  case dropped => exact hnone _
  case leased =>
    refine hhold _ _ fun held hheld => ?_
    cases hheld
    exact ⟨rfl, by simp⟩
  case read hheld _ => exact hsame hheld rfl (by simp)
  case register hheld _ _ _ _ _ => exact hsame hheld rfl (by simp)
  case completePage hheld _ _ _ _ => exact hsame hheld rfl (by simp)
  case begun hheld hclass _ _ hlease _ =>
    exact hsame hheld hlease.owner fun _ _ => hlease.workClass.trans hclass
  case accessCompleted hheld _ _ _ => exact hsame hheld rfl (by simp)
  case dependentsScheduled hheld _ _ _ _ _ _ => exact hsame hheld rfl (by simp)
  case retired hheld _ _ _ _ _ _ => exact hsame hheld rfl (by simp)
  all_goals exact hnone _

variable {c : WorkClass}

/-- Only a copy has no index to write. -/
theorem ClaimScope.eq_copy_of_targets {scope : ClaimScope} (h : scope.targets c = none) :
    c = .copy := by
  by_contra hne
  rw [ClaimScope.targets] at h
  cases hrebuild : scope.rebuild <;> simp [hrebuild, hne] at h

/-- A deletion leaves the node without its record. -/
theorem scheduleDeletedFanout_stored (deletion : WorkRecord) (counterparts : List UUID) (records : NodeRecords) :
    (scheduleDeletedFanout nodeId deletion counterparts { records with stored := false }).stored = false := by
  obtain ⟨fanout, record, progress, -, heq⟩ :=
    scheduleDeletedFanout_eq nodeId deletion counterparts { records with stored := false }
  rw [heq]
  rfl

theorem finishDeletedClass_stored {records : NodeRecords}
    (h : (finishDeletedClass c records).stored = true) : records.stored = true := by
  rcases finishDeletedClass_eq c records with heq | heq <;> rw [heq] at h <;> exact h

theorem afterRefresh_stored (records : NodeRecords) (work : Work) (record : WorkRecord) :
    (afterRefresh records work record).stored = records.stored := by
  rw [afterRefresh]
  split <;> rfl

/-- Only a create stores a node. -/
theorem NodeEffect.stored (heffect : NodeEffect env nodeId s move s') (hstored : s'.records.stored = true) :
    move = .create ∨ s.records.stored = true := by
  cases heffect
  case create => exact .inl rfl
  case delete =>
    exact absurd ((scheduleDeletedFanout_stored _ _ _).symm.trans hstored) Bool.false_ne_true
  case change hbefore _ _ => exact .inr hbefore
  case repairAccess hbefore _ => exact .inr hbefore
  case copyNode hbefore => exact .inr hbefore
  case refreshRestarted hscheduled => exact .inr (hscheduled.stored.symm.trans hstored)
  case refreshCompleted => exact .inr ((afterRefresh_stored _ _ _).symm.trans hstored)
  case restart hscheduled => exact .inr (hscheduled.stored.symm.trans hstored)
  case accessCompleted hshape =>
    rcases hshape with rfl | ⟨phase, cursor, rfl⟩
    · exact .inr hstored
    · exact .inr hstored
  case dependentsScheduled hself _ hshape =>
    refine .inr (hself.stored.symm.trans ?_)
    rcases hshape with ⟨-, rfl⟩ | ⟨-, -, rfl⟩ | ⟨-, -, access, rfl⟩
    · exact hstored
    · have hbefore := finishDeletedClass_stored hstored
      exact hbefore
    · exact hstored
  case retired hretired hshape =>
    subst hretired
    rcases hshape with ⟨-, rfl⟩ | ⟨-, -, rfl⟩ | ⟨-, -, rfl⟩
    · exact .inr hstored
    · have hbefore := finishDeletedClass_stored hstored
      exact .inr hbefore
    · exact .inr hstored
  case excluded hscheduled => exact .inr (hscheduled.stored.symm.trans hstored)
  all_goals exact .inr hstored

/-- A claim drops only a copy. -/
theorem Coherent.dropped_copy {scope : ClaimScope} {record : WorkRecord}
    (h : Coherent s.records) (hrecord : s.records.work c = some record)
    (hreason : scope.targets c = none ∨ s.records.generation ≠ record.generation) : c = .copy := by
  rcases hreason with hnone | hne
  · exact ClaimScope.eq_copy_of_targets hnone
  · exact absurd (h.generation c record hrecord).1.symm hne

end Moves

end Tack.Search

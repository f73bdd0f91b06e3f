import Tack.Audit.ExportInv

/-!
# A published export is whole

The only step that can break the invariant is a reclaim: it keeps the rows of the manifest it sees,
and when that manifest's renaming is not synced yet, a manifest that it does not see is in play too.

## Main definitions

* `Audit.Export.SafeReclaim` — a reclaim removes no rows of a manifest in play.

## Main results

* `Audit.Export.export_whole` — in every run whose reclaims are safe, the published export is whole
  in every reached state; a reclaim that is not safe leaves a disk that a power loss tears.
* `Audit.Export.unsafe_reclaim_tears` — a reclaim after an export was killed between renaming its
  manifest and syncing the directory, and then a power loss, leave a manifest without its rows.
-/

namespace Tack.Audit.Export

open Lib Lib.CrashDir Lib.CrashDir.Change

variable {sum : Bytes → Bytes} {sign : ExportManifest → String}
variable {disk disk' : Disk FileName Content} {call : ExportCall} {exportId : UUID}

/-! ### Every step -/

section Steps

variable (sum sign)

/-- A reclaim removes no file that a manifest in play names. -/
def SafeReclaim (s : State) : Label → Prop
  | .advance p => ∀ proc keep name names, s.procs[p]? = some proc →
      proc.phase = .removing keep (name :: names) → ∀ file manifest, Playing s.disk file →
        s.disk.content file = some (.manifest manifest) → bundleEventsFileName manifest ≠ some name
  | _ => True

variable {sum sign} {s s' : State}

theorem inv_empty : Inv sum sign State.empty := by
  refine ⟨?_, ?_, by simp [State.empty, Disk.empty], by simp [State.empty], List.nodup_nil,
    List.nil_subset _, by simp [State.empty]⟩
  · rintro file (h | ⟨c, hc, -⟩)
    · simp [State.empty, Disk.empty] at h
    · simp [State.empty, Disk.empty] at hc
  · rintro name file - (h | ⟨c, hc, -⟩)
    · simp [State.empty, Disk.empty] at h
    · simp [State.empty, Disk.empty] at hc

/-- A new export relies on no manifest in play having its ID. -/
theorem Inv.unnamed_of_not_used (h : Inv sum sign s) (hid : exportId ∉ s.used) :
    Unnamed s.disk exportId := by
  intro file f hplay hf
  obtain ⟨call, hused, hfile, -⟩ := h.manifests file hplay
  obtain rfl := Option.some.inj (hfile.symm.trans hf)
  exact fun heq => hid (FileName.staged.inj heq ▸ hused)

theorem Inv.begin (h : Inv sum sign s) (hid : call.exportId ∉ s.used)
    (hfree : ∀ proc ∈ s.procs, proc.phase.ownsBeacon = false) :
    Inv sum sign { s with
      procs := s.procs ++ [⟨call, .started⟩]
      used := call.exportId :: s.used } := by
  have hget : ∀ (q : ℕ) (proc : Proc), (s.procs ++ [⟨call, .started⟩])[q]? = some proc →
      s.procs[q]? = some proc ∨ (q = s.procs.length ∧ proc = ⟨call, .started⟩) := by
    intro q proc hq
    rw [List.getElem?_append] at hq
    split_ifs at hq with hlt
    · exact .inl hq
    · obtain ⟨hlt', heq⟩ := List.getElem?_eq_some_iff.mp hq
      rw [List.length_singleton] at hlt'
      refine .inr ⟨by omega, ?_⟩
      simpa [show q - s.procs.length = 0 by omega] using heq.symm
  have hids : exportIds (s.procs ++ [⟨call, .started⟩]) = exportIds s.procs ++ [call.exportId] :=
    List.map_append
  refine ⟨?_, h.born, h.uncleared, ?_, ?_, ?_, ?_⟩
  · intro file hplay
    obtain ⟨call', hused, hfile, hrows⟩ := h.manifests file hplay
    exact ⟨call', List.mem_cons_of_mem _ hused, hfile, hrows⟩
  · intro q proc hq
    obtain hq | ⟨-, rfl⟩ := hget q proc hq
    · exact h.procs q proc hq
    · exact h.unnamed_of_not_used hid
  · rw [hids, List.nodup_append_comm]
    exact List.nodup_cons.mpr ⟨fun hmem => hid (h.used hmem), h.ids⟩
  · rw [hids]
    exact List.append_subset.mpr ⟨List.subset_cons_of_subset _ h.used, by simp⟩
  · intro q q' proc proc' hq hq' hown hne
    obtain hold | ⟨-, rfl⟩ := hget q proc hq
    · rw [hfree proc (List.mem_of_getElem? hold)] at hown
      cases hown
    · cases hown

/-- A power loss brings back a manifest in play at most, and takes none of its rows. -/
theorem Inv.powerLoss (h : Inv sum sign s) {kept : List (Change FileName)}
    (hkept : kept.Sublist s.disk.pending) (garbage : ℕ → Content) :
    Inv sum sign { s with
      disk := s.disk.lose kept garbage
      procs := s.procs.map fun proc => { proc with phase := .done } } := by
  have hfiles : ∀ (file : ℕ) content name, s.disk.files[file]? = some ⟨content, true, name⟩ →
      (s.disk.lose kept garbage).files[file]? = some ⟨content, true, name⟩ := by
    intro file content name hf
    simp [Disk.lose, List.getElem?_mapIdx, hf]
  have hget : ∀ (q : ℕ) (proc : Proc), (s.procs.map fun proc => { proc with phase := .done })[q]? =
      some proc → ∃ old, s.procs[q]? = some old ∧ proc = { old with phase := .done } := by
    intro q proc hq
    rw [List.getElem?_map] at hq
    obtain ⟨old, hold, rfl⟩ := Option.map_eq_some_iff.mp hq
    exact ⟨old, hold, rfl⟩
  have hids : exportIds (s.procs.map fun proc => { proc with phase := .done }) = exportIds s.procs :=
    List.map_map ..
  refine ⟨?_, ?_, fun c hc => (by cases hc), ?_, hids ▸ h.ids, hids ▸ h.used, ?_⟩
  · rintro file (hplay | ⟨c, hc, -⟩)
    · have hplay' : Playing s.disk file := by
        rcases lookup_applyAll_cases hplay with hplay | ⟨c, hc, hset⟩
        · exact .inl hplay
        · exact .inr ⟨c, hkept.subset hc, hset⟩
      obtain ⟨call, hused, hfile, rows, hdurable, huntouched, hrows⟩ := h.manifests file hplay'
      refine ⟨call, hused, hfiles _ _ _ hfile, rows, ?_, fun c hc => (by cases hc), hfiles _ _ _ hrows⟩
      exact (lookup_applyAll_of_untouched (fun c hc => huntouched c (hkept.subset hc)) _).trans hdurable
    · cases hc
  · rintro name file hname (hset | ⟨c, hc, -⟩)
    · have hold : ∃ f, s.disk.files[file]? = some f ∧ f.born = name := by
        rcases lookup_applyAll_cases hset with hset | ⟨c, hc, hset⟩
        · exact h.born name file hname (.inl hset)
        · exact h.born name file hname (.inr ⟨c, hkept.subset hc, hset⟩)
      obtain ⟨f, hf, hborn⟩ := hold
      refine ⟨if f.synced then f else { f with content := garbage file, synced := true }, ?_, ?_⟩
      · simp [Disk.lose, List.getElem?_mapIdx, hf]
      · split_ifs <;> exact hborn
    · cases hc
  · intro q proc hq
    obtain ⟨old, -, rfl⟩ := hget q proc hq
    trivial
  · intro q q' proc proc' hq _ hown _
    obtain ⟨old, -, rfl⟩ := hget q proc hq
    cases hown

theorem alone_of_aloneWith {p q : ℕ} {proc : Proc} (h : aloneWith s p = true) (hne : q ≠ p)
    (hq : s.procs[q]? = some proc) :
    proc.phase.sharesBeacon = false ∧ proc.phase.ownsBeacon = false := by
  have hmem : proc ∈ s.procs.eraseIdx p := List.mem_eraseIdx_iff_getElem?.mpr ⟨q, hne, hq⟩
  simpa using List.all_eq_true.mp h proc hmem

/-- A file under its name after it was written or synced. -/
theorem getElem?_modify_self {file : ℕ} {f : File FileName Content}
    (g : File FileName Content → File FileName Content) (h : disk.files[file]? = some f) :
    (disk.files.modify file g)[file]? = some (g f) := by
  simp [h]

theorem openStaged_spec (exportId : UUID) (hborn : Born disk) :
    Local disk (Export.openStaged disk exportId).1 (.staged exportId) ∧
      ∃ synced, OpenStaged (Export.openStaged disk exportId).1 exportId
        (Export.openStaged disk exportId).2 (.raw []) synced := by
  unfold Export.openStaged
  cases hlookup : disk.entries.lookup (.staged exportId) with
  | some file =>
    obtain ⟨f, hf, hname⟩ := hborn (.staged exportId) file (by simp) (lookup_applyAll_cases hlookup)
    refine ⟨local_modify _ (fun _ => rfl) hf hname, false, hlookup, ?_⟩
    rw [← hname]
    exact getElem?_modify_self _ hf
  | none =>
    refine ⟨local_create _ _, false, ?_, ?_⟩
    · rw [Disk.entries_create]
      exact AList.lookup_insert _
    · simp [Disk.create]

theorem bundleEventsFileName_manifestFor (call : ExportCall) :
    bundleEventsFileName (manifestFor sum sign call) = some (.rows call.exportId) :=
  bundleEventsFileName_rows rfl

/-- The next operation of an export keeps the invariant. -/
theorem Inv.advance (h : Inv sum sign s) {p : ℕ} {proc : Proc} {phase : Phase}
    (hp : s.procs[p]? = some proc) (hsafe : SafeReclaim s (.advance p))
    (hadvance : proc.advance sum sign s.disk (aloneWith s p) = some (disk', phase)) :
    Inv sum sign { setPhase s p proc phase with disk := disk' } := by
  have hinv := h.procs p proc hp
  obtain ⟨call, phase₀⟩ := proc
  cases phase₀ with
  | started =>
    simp only [Proc.advance] at hadvance
    split_ifs at hadvance <;> cases hadvance
    · exact h.stay hp trivial (.inl rfl) (.inl rfl)
    · refine h.local hp (local_create _ _) (.inl rfl) hinv rfl rfl fun hu =>
        ⟨hu, .raw [], false, ?_, ?_⟩
      · rw [Disk.entries_create]
        exact AList.lookup_insert _
      · simp [Disk.create]
  | streaming file =>
    cases hadvance
    obtain ⟨hunnamed, content, synced, hlookup, hfile⟩ := hinv
    exact h.local hp (local_modify _ (fun _ => rfl) hfile rfl) (.inl rfl) hunnamed rfl rfl fun hu =>
      ⟨hu, false, hlookup, getElem?_modify_self _ hfile⟩
  | flushed file =>
    cases hadvance
    obtain ⟨hunnamed, synced, hlookup, hfile⟩ := hinv
    exact h.local hp (local_modify _ (fun _ => rfl) hfile rfl) (.inl rfl) hunnamed rfl rfl fun hu =>
      ⟨hu, hlookup, getElem?_modify_self _ hfile⟩
  | synced file =>
    cases hadvance
    exact h.stay hp hinv (.inr rfl) (.inl rfl)
  | closed file =>
    cases hadvance
    obtain ⟨hunnamed, hlookup, hfile⟩ := hinv
    exact h.sync hp rfl rfl ⟨hunnamed.syncDir, file, hlookup, fun c hc => (by cases hc), hfile⟩
  | rowsDurable =>
    cases hadvance
    obtain ⟨hunnamed, hrows⟩ := hinv
    obtain ⟨hlocal, synced, hopen⟩ := openStaged_spec call.exportId h.born
    exact h.local hp hlocal (.inr rfl) hunnamed rfl rfl fun hu =>
      ⟨hu, hlocal.rowsKept (by simp) hrows, .raw [], synced, hopen⟩
  | staging file =>
    cases hadvance
    obtain ⟨hunnamed, hrows, content, synced, hlookup, hfile⟩ := hinv
    have hlocal := local_modify (fun f => { f with
      content := .manifest (manifestFor sum sign call), synced := false }) (fun _ => rfl) hfile rfl
    exact h.local hp hlocal (.inr rfl) hunnamed rfl rfl fun hu =>
      ⟨hu, hlocal.rowsKept (by simp) hrows, false, hlookup, getElem?_modify_self _ hfile⟩
  | stagedWritten file =>
    cases hadvance
    obtain ⟨hunnamed, hrows, synced, hlookup, hfile⟩ := hinv
    have hlocal := local_modify (fun f => { f with synced := true }) (fun _ => rfl) hfile rfl
    exact h.local hp hlocal (.inr rfl) hunnamed rfl rfl fun hu =>
      ⟨hu, hlocal.rowsKept (by simp) hrows, hlookup, getElem?_modify_self _ hfile⟩
  | stagedSynced file =>
    cases hadvance
    exact h.stay hp hinv (.inr rfl) (.inl rfl)
  | stagedClosed file =>
    obtain ⟨hunnamed, hrows, hlookup, hfile⟩ := hinv
    simp only [Proc.advance, hlookup] at hadvance
    cases hadvance
    exact h.publish hp rfl hrows hfile
  | renamed =>
    cases hadvance
    exact h.sync hp rfl rfl trivial
  | published =>
    cases hadvance
    exact h.stay hp trivial (.inl rfl) (.inl rfl)
  | ended =>
    cases hadvance
    cases halone : aloneWith s p with
    | true =>
      exact h.move hp h.manifests h.born h.uncleared trivial (fun q proc' _ hq => h.procs q proc' hq)
        (.inl rfl) fun _ q proc' hne hq => alone_of_aloneWith halone hne hq
    | false => exact h.stay hp trivial (.inl rfl) (.inl rfl)
  | locked =>
    simp only [Proc.advance] at hadvance
    split at hadvance <;> cases hadvance
    · exact h.stay hp trivial (.inl rfl) (.inr rfl)
    · exact h.stay hp trivial (.inl rfl) (.inl rfl)
  | listing keep =>
    cases hadvance
    refine h.stay hp ?_ (.inl rfl) (.inr rfl)
    rintro name hname rfl
    have howned := (List.mem_filter.mp hname).2
    simp [FileName.exporterOwned] at howned
  | removing keep names =>
    cases names with
    | nil =>
      cases hadvance
      exact h.stay hp trivial (.inl rfl) (.inl rfl)
    | cons name names =>
      cases hadvance
      refine h.reclaim hp rfl rfl (hinv name List.mem_cons_self) ?_
        fun n hn => hinv n (List.mem_cons_of_mem _ hn)
      rintro call' file hplay hcontent rfl
      exact hsafe _ keep _ names hp rfl file _ hplay hcontent (bundleEventsFileName_manifestFor call')
  | cleanup names =>
    cases names with
    | nil =>
      cases hadvance
      exact h.stay hp trivial (.inl rfl) (.inl rfl)
    | cons name names =>
      cases hadvance
      exact h.local hp (local_removeEntry name) (hinv.2 name List.mem_cons_self) hinv.1 rfl rfl
        fun hu => ⟨hu, fun n hn => hinv.2 n (List.mem_cons_of_mem _ hn)⟩
  | done => cases hadvance

/-- A failed operation keeps the invariant. -/
theorem Inv.fail (h : Inv sum sign s) {p : ℕ} {proc : Proc} {phase : Phase}
    (hp : s.procs[p]? = some proc) (hfail : proc.fail = some phase) :
    Inv sum sign (setPhase s p proc phase) := by
  have hinv := h.procs p proc hp
  obtain ⟨call, phase₀⟩ := proc
  have hrows : ∀ name ∈ [FileName.rows call.exportId], OwnName call.exportId name :=
    fun name hname => .inl (List.mem_singleton.mp hname)
  have hboth : ∀ name ∈ bothFiles call, OwnName call.exportId name := by
    simp [bothFiles, OwnName]
  cases phase₀ with
  | started | renamed | ended | locked | listing =>
    cases hfail
    exact h.stay hp trivial (.inl rfl) (.inl rfl)
  | streaming | flushed | synced | closed =>
    cases hfail
    exact h.stay hp ⟨hinv.1, hrows⟩ (.inr rfl) (.inl rfl)
  | rowsDurable | staging | stagedWritten | stagedSynced | stagedClosed =>
    cases hfail
    exact h.stay hp ⟨hinv.1, hboth⟩ (.inr rfl) (.inl rfl)
  | removing keep names =>
    cases names with
    | nil => cases hfail
    | cons name names =>
      cases hfail
      exact h.stay hp (fun n hn => hinv n (List.mem_cons_of_mem _ hn)) (.inl rfl) (.inr rfl)
  | cleanup names =>
    cases names with
    | nil => cases hfail
    | cons name names =>
      cases hfail
      exact h.stay hp ⟨hinv.1, fun n hn => hinv.2 n (List.mem_cons_of_mem _ hn)⟩ (.inr rfl) (.inl rfl)
  | published | done => cases hfail

/-- Every step with a safe reclaim keeps the invariant. -/
theorem Inv.step {label : Label} (h : Inv sum sign s) (hsafe : SafeReclaim s label)
    (hstep : Export.step sum sign s label = some s') : Inv sum sign s' := by
  cases label with
  | begin call =>
    simp only [Export.step] at hstep
    split_ifs at hstep with hbusy
    cases hstep
    push Not at hbusy
    exact h.begin hbusy.1 (by simpa using hbusy.2)
  | advance p =>
    obtain ⟨proc, hp, hstep⟩ := Option.bind_eq_some_iff.mp hstep
    obtain ⟨⟨disk, phase⟩, hadvance, hstep⟩ := Option.bind_eq_some_iff.mp hstep
    cases hstep
    exact h.advance hp hsafe hadvance
  | fail p =>
    obtain ⟨proc, hp, hstep⟩ := Option.bind_eq_some_iff.mp hstep
    obtain ⟨phase, hfail, hstep⟩ := Option.bind_eq_some_iff.mp hstep
    cases hstep
    exact h.fail hp hfail
  | write p length =>
    obtain ⟨⟨call, phase⟩, hp, hstep⟩ := Option.bind_eq_some_iff.mp hstep
    cases phase <;> cases hstep
    obtain ⟨hunnamed, content, synced, hlookup, hfile⟩ := h.procs p _ hp
    exact h.local hp (local_modify _ (fun _ => rfl) hfile rfl) (.inl rfl) hunnamed rfl rfl fun hu =>
      ⟨hu, _, false, hlookup, getElem?_modify_self _ hfile⟩
  | kill p =>
    obtain ⟨proc, hp, hstep⟩ := Option.bind_eq_some_iff.mp hstep
    cases hstep
    exact h.stay hp trivial (.inl rfl) (.inl rfl)
  | powerLoss kept garbage =>
    simp only [Export.step] at hstep
    split_ifs at hstep with hkept
    cases hstep
    exact h.powerLoss hkept garbage

/-- Every state that a run with safe reclaims reaches meets the invariant. -/
theorem inv_of_reach (h : Reach (Export.step sum sign) SafeReclaim .empty s) : Inv sum sign s :=
  h.invariant inv_empty fun hinv hsafe hstep => hinv.step hsafe hstep

/-! ### Reclaims that are not safe -/

/-- Rows that were removed are gone for every manifest that the kept changes let stand. -/
theorem not_whole_of_removed {kept : List (Change FileName)} {file : ℕ} {garbage : ℕ → Content}
    {procs : List Proc} {used : List UUID}
    (hmanifest : disk.files[file]? =
      some ⟨.manifest (manifestFor sum sign call), true, .staged call.exportId⟩)
    (hlookup : (applyAll kept disk.durable).lookup .manifest = some file)
    (hrows : (applyAll kept disk.durable).lookup (.rows call.exportId) = none) :
    ¬ Whole sum ⟨disk.lose kept garbage, procs, used⟩ := by
  intro hwhole
  obtain ⟨manifest, hcontent, name, rows, bytes, hname, hfound, -⟩ := hwhole file hlookup
  have hfile : (disk.lose kept garbage).content file =
      some (.manifest (manifestFor sum sign call)) := by
    simp [Disk.content, Disk.lose, List.getElem?_mapIdx, hmanifest]
  obtain rfl := Content.manifest.inj (Option.some.inj (hfile.symm.trans hcontent))
  rw [bundleEventsFileName_manifestFor] at hname
  obtain rfl := Option.some.inj hname
  exact absurd (hfound.symm.trans hrows) (by simp)

/-- The changes that a power loss has to keep for a manifest in play to come back without a file. -/
theorem exists_tearing_changes {file : ℕ} {name : FileName} (hplay : Playing disk file)
    (hname : name ≠ .manifest) : ∃ kept, kept.Sublist (disk.pending ++ [.remove name]) ∧
      (applyAll kept disk.durable).lookup .manifest = some file ∧
      (applyAll kept disk.durable).lookup name = none := by
  rcases hplay with hdurable | ⟨c, hc, hset⟩
  · refine ⟨[.remove name], List.sublist_append_right _ _, ?_, ?_⟩
    · exact (AList.lookup_erase_ne (Ne.symm hname)).trans hdurable
    · exact AList.lookup_erase _ _
  · refine ⟨[c, .remove name], (List.singleton_sublist.mpr hc).append (List.Sublist.refl _), ?_, ?_⟩
    · refine (AList.lookup_erase_ne (Ne.symm hname)).trans ?_
      rw [lookup_apply, hset]
    · exact AList.lookup_erase _ _

/-- A reclaim that is not safe leaves a disk that a power loss tears. -/
theorem Inv.torn {label : Label} (h : Inv sum sign s) (htorn : ¬ SafeReclaim s label)
    (hstep : Export.step sum sign s label = some s') : ∃ kept garbage s'',
      Export.step sum sign s' (.powerLoss kept garbage) = some s'' ∧ ¬ Whole sum s'' := by
  cases label with
  | advance p =>
    simp only [SafeReclaim, not_forall, not_not] at htorn
    obtain ⟨proc, keep, name, names, hp, hphase, file, manifest, hplay, hcontent, hname⟩ := htorn
    obtain ⟨call, -, hfile, hkept⟩ := h.manifests file hplay
    have hsame : s.disk.content file = some (.manifest (manifestFor sum sign call)) := by
      rw [Disk.content, hfile]
      rfl
    obtain rfl := Content.manifest.inj (Option.some.inj (hsame.symm.trans hcontent))
    rw [bundleEventsFileName_manifestFor] at hname
    obtain rfl := Option.some.inj hname
    -- the rows are there, so that the reclaim does remove them
    obtain ⟨rows, hrows, -⟩ := hkept.lookup
    have hremove : removeEntry s.disk (.rows call.exportId) =
        s.disk.change (.remove (.rows call.exportId)) := by
      rw [removeEntry, if_pos (by rw [hrows]; rfl)]
    obtain ⟨kept, hsub, hlookup, hnone⟩ := exists_tearing_changes hplay
      (show FileName.rows call.exportId ≠ .manifest by simp)
    simp only [Export.step, hp, Option.bind_eq_bind, Option.bind_some, Proc.advance, hphase,
      hremove] at hstep
    cases hstep
    refine ⟨kept, fun _ => .raw [], _, if_pos hsub, not_whole_of_removed hfile hlookup hnone⟩
  | _ => exact absurd trivial htorn

/-- **A published export is whole as long as no reclaim removes the rows of a manifest that is, or that
a power loss can make, the published one.**  A reclaim that does is followed by a power loss after which
the published manifest names rows that are gone. -/
theorem export_whole (sum : Bytes → Bytes) (sign : ExportManifest → String) :
    (∀ s, Reach (Export.step sum sign) SafeReclaim .empty s → Whole sum s) ∧
      ∀ s label s', Reach (Export.step sum sign) SafeReclaim .empty s → ¬ SafeReclaim s label →
        Export.step sum sign s label = some s' → ∃ kept garbage s'',
          Export.step sum sign s' (.powerLoss kept garbage) = some s'' ∧ ¬ Whole sum s'' :=
  ⟨fun _ hreach => (inv_of_reach hreach).whole,
    fun _ _ _ hreach htorn hstep => (inv_of_reach hreach).torn htorn hstep⟩

end Steps

/-! ### A run that ends with a torn export -/

section Torn

/-- The published manifest is that of an export whose rows have no entry. -/
def rowsMissing (s : State) : Bool :=
  match s.disk.entries.lookup .manifest with
  | none => false
  | some file =>
    match s.disk.content file with
    | some (.manifest manifest) =>
      manifest.eventsFile == some (.rows manifest.exportId) &&
        (s.disk.entries.lookup (.rows manifest.exportId)).isNone
    | _ => false

theorem not_whole_of_rowsMissing {s : State} (h : rowsMissing s = true) : ¬ Whole sum s := by
  intro hwhole
  unfold rowsMissing at h
  split at h
  · cases h
  · next file hfile =>
    obtain ⟨manifest, hcontent, name, rows, bytes, hname, hfound, -⟩ := hwhole file hfile
    rw [hcontent] at h
    simp only [Bool.and_eq_true, beq_iff_eq, Option.isNone_iff_eq_none] at h
    rw [bundleEventsFileName_rows h.1] at hname
    obtain rfl := Option.some.inj hname
    exact absurd (hfound.symm.trans h.2) (by simp)

theorem lineBreak_notMem_row : 10 ∉ ascii "row" := by decide

/-- An export of one row. -/
def oneRowExport (exportId : UUID) : ExportCall :=
  ⟨exportId, ⟨1⟩, ⟨0, 0⟩, ⟨0, 0⟩, "k", [⟨ascii "row", lineBreak_notMem_row⟩]⟩

/-- The first export runs until its activity ended, the second is killed right after its renaming, and
the reclaim of the first removes the rows that the second no longer needs. -/
def reclaimRun : List Label :=
  [.begin (oneRowExport ⟨1⟩)] ++ List.replicate 12 (.advance 0) ++
    [.begin (oneRowExport ⟨2⟩)] ++ List.replicate 10 (.advance 1) ++ [.kill 1] ++
    List.replicate 4 (.advance 0)

/-- Both exports publish, and the reclaim of the second removes the rows of the first before a power
loss that keeps the removal. -/
def safeReclaimRun : List Label :=
  [.begin (oneRowExport ⟨1⟩)] ++ List.replicate 12 (.advance 0) ++ [.kill 0] ++
    [.begin (oneRowExport ⟨2⟩), .advance 1, .write 1 2] ++ List.replicate 15 (.advance 1) ++
    [.powerLoss [.remove (.rows ⟨1⟩)] fun _ => .raw []]

/-- The files that are, or that a power loss can make, the published manifest. -/
def playing (disk : Disk FileName Content) : List ℕ :=
  (disk.durable.lookup .manifest).toList ++ disk.pending.filterMap (·.sets .manifest)

/-- The check of `SafeReclaim`. -/
def safeReclaimCheck (s : State) : Label → Bool
  | .advance p =>
    match s.procs[p]? with
    | some ⟨_, .removing _ (name :: _)⟩ => (playing s.disk).all fun file =>
      match s.disk.content file with
      | some (.manifest manifest) => bundleEventsFileName manifest != some name
      | _ => true
    | _ => true
  | _ => true

theorem safeReclaim_of_check (s : State) (label : Label)
    (h : safeReclaimCheck s label = true) : SafeReclaim s label := by
  cases label with
  | advance p =>
    rintro ⟨call, phase⟩ keep name names hp rfl file manifest hplay hcontent
    have hmem : file ∈ playing s.disk := by
      rcases hplay with hdurable | ⟨c, hc, hset⟩
      · exact List.mem_append_left _ (Option.mem_toList.mpr hdurable)
      · exact List.mem_append_right _ (List.mem_filterMap.mpr ⟨c, hc, hset⟩)
    simp only [safeReclaimCheck, hp, List.all_eq_true] at h
    simpa [hcontent] using h file hmem
  | _ => trivial

theorem export_whole_after_reclaim :
    ∃ s, Reach (Export.step sampleDigest fun _ => "") SafeReclaim .empty s ∧
      (s.disk.entries.lookup .manifest).isSome = true ∧
      s.disk.entries.lookup (.rows ⟨1⟩) = none ∧ Whole sampleDigest s := by
  obtain ⟨s, hreach, hs⟩ := exists_reach_of_runChecked (Export.step sampleDigest fun _ => "")
    safeReclaim_of_check .empty safeReclaimRun (fun s => (s.disk.entries.lookup .manifest).isSome &&
      (s.disk.entries.lookup (.rows ⟨1⟩)).isNone) (by decide +kernel)
  rw [Bool.and_eq_true, Option.isNone_iff_eq_none] at hs
  exact ⟨s, hreach, hs.1, hs.2, (export_whole sampleDigest fun _ => "").1 s hreach⟩

/-- **A power loss takes the second renaming and keeps the removal: the first manifest is published
without its rows.** -/
theorem unsafe_reclaim_tears : ∃ s,
    Reach (Export.step sampleDigest fun _ => "") anyMove .empty s ∧ ¬ Whole sampleDigest s := by
  obtain ⟨s, hreach, hmissing⟩ := exists_reach_of_run (Export.step sampleDigest fun _ => "") .empty
    (reclaimRun ++ [.powerLoss [.remove (.rows ⟨1⟩)] fun _ => .raw []]) rowsMissing (by decide +kernel)
  exact ⟨s, hreach, not_whole_of_rowsMissing hmissing⟩

end Torn

end Tack.Audit.Export

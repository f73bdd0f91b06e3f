import Tack.Audit.Export

/-!
# What exports into one directory keep

A manifest is in play when it is the published one now or can be after a power loss.  The rows of
every manifest in play are synced, their entry is synced, and nothing since the last sync of the
directory touches it.

## Main definitions

* `Audit.Export.Playing`, `Audit.Export.RowsKept` — a manifest in play, and rows that no power loss
  takes.
* `Audit.Export.ProcInv` — what an export relies on in each phase.
* `Audit.Export.Inv` — what holds in every reached state.
* `Audit.Export.Local` — an operation that concerns one name.

## Main results

* `Audit.Export.Inv.whole` — the invariant makes the published export whole.
* `Audit.Export.Inv.local`, `Inv.sync`, `Inv.publish`, `Inv.reclaim` — what each kind of operation
  needs to keep it.
-/

namespace Tack.Audit.Export

open Lib Lib.CrashDir Lib.CrashDir.Change

variable {sum : Bytes → Bytes} {sign : ExportManifest → String}
variable {disk disk' : Disk FileName Content} {call : ExportCall} {exportId : UUID}

/-! ### Manifests in play -/

/-- The file is the published manifest after some power loss, or now. -/
def Playing (disk : Disk FileName Content) (file : ℕ) : Prop :=
  disk.durable.lookup .manifest = some file ∨ ∃ c ∈ disk.pending, c.sets .manifest = some file

/-- The rows of an export, whole and on stable storage with their entry. -/
def RowsKept (disk : Disk FileName Content) (call : ExportCall) : Prop :=
  ∃ file, disk.durable.lookup (.rows call.exportId) = some file ∧
    (∀ c ∈ disk.pending, ¬ c.Touches (.rows call.exportId)) ∧
    disk.files[file]? = some ⟨.raw (rowsContent call.lines), true, .rows call.exportId⟩

/-- No manifest in play is that of the export. -/
def Unnamed (disk : Disk FileName Content) (exportId : UUID) : Prop :=
  ∀ file f, Playing disk file → disk.files[file]? = some f → f.born ≠ .staged exportId

/-- Every entry but the manifest is of a file that was created under its name. -/
def Born (disk : Disk FileName Content) : Prop :=
  ∀ name file, name ≠ .manifest →
    (disk.durable.lookup name = some file ∨ ∃ c ∈ disk.pending, c.sets name = some file) →
      ∃ f, disk.files[file]? = some f ∧ f.born = name

theorem playing_of_lookup {file : ℕ} (h : disk.entries.lookup .manifest = some file) :
    Playing disk file :=
  lookup_applyAll_cases h

theorem RowsKept.lookup (h : RowsKept disk call) : ∃ file,
    disk.entries.lookup (.rows call.exportId) = some file ∧
      disk.content file = some (.raw (rowsContent call.lines)) := by
  obtain ⟨file, hdurable, huntouched, hfile⟩ := h
  exact ⟨file, (lookup_applyAll_of_untouched huntouched _).trans hdurable, by
    rw [Disk.content, hfile]
    rfl⟩

section Invariant

variable (sum sign)

/-- Every manifest in play is whole and synced, and its rows are kept. -/
def ManifestsKept (disk : Disk FileName Content) (used : List UUID) : Prop :=
  ∀ file, Playing disk file → ∃ call : ExportCall, call.exportId ∈ used ∧
    disk.files[file]? = some ⟨.manifest (manifestFor sum sign call), true, .staged call.exportId⟩ ∧
    RowsKept disk call

/-- The name belongs to an export. -/
def OwnName (exportId : UUID) (name : FileName) : Prop :=
  name = .rows exportId ∨ name = .staged exportId

/-- The file of the rows with some content. -/
def OpenRows (disk : Disk FileName Content) (exportId : UUID) (file : ℕ) (content : Content)
    (synced : Bool) : Prop :=
  disk.entries.lookup (.rows exportId) = some file ∧
    disk.files[file]? = some ⟨content, synced, .rows exportId⟩

/-- The file of the staged manifest with some content. -/
def OpenStaged (disk : Disk FileName Content) (exportId : UUID) (file : ℕ) (content : Content)
    (synced : Bool) : Prop :=
  disk.entries.lookup (.staged exportId) = some file ∧
    disk.files[file]? = some ⟨content, synced, .staged exportId⟩

/-- What an export relies on in each phase. -/
def ProcInv (disk : Disk FileName Content) (call : ExportCall) : Phase → Prop
  | .started => Unnamed disk call.exportId
  | .streaming file => Unnamed disk call.exportId ∧
      ∃ content synced, OpenRows disk call.exportId file content synced
  | .flushed file => Unnamed disk call.exportId ∧
      ∃ synced, OpenRows disk call.exportId file (.raw (rowsContent call.lines)) synced
  | .synced file | .closed file => Unnamed disk call.exportId ∧
      OpenRows disk call.exportId file (.raw (rowsContent call.lines)) true
  | .rowsDurable => Unnamed disk call.exportId ∧ RowsKept disk call
  | .staging file => Unnamed disk call.exportId ∧ RowsKept disk call ∧
      ∃ content synced, OpenStaged disk call.exportId file content synced
  | .stagedWritten file => Unnamed disk call.exportId ∧ RowsKept disk call ∧
      ∃ synced, OpenStaged disk call.exportId file (.manifest (manifestFor sum sign call)) synced
  | .stagedSynced file | .stagedClosed file => Unnamed disk call.exportId ∧ RowsKept disk call ∧
      OpenStaged disk call.exportId file (.manifest (manifestFor sum sign call)) true
  | .removing _ names => ∀ name ∈ names, name ≠ .manifest
  | .cleanup names => Unnamed disk call.exportId ∧
      ∀ name ∈ names, OwnName call.exportId name
  | .renamed | .published | .ended | .locked | .listing _ | .done => True

/-- The IDs of the exports that began since the directory was empty. -/
def exportIds (procs : List Proc) : List UUID := procs.map fun proc => proc.call.exportId

/-- What holds in every reached state. -/
structure Inv (s : State) : Prop where
  manifests : ManifestsKept sum sign s.disk s.used
  born : Born s.disk
  /-- Nothing removes the published manifest. -/
  uncleared : ∀ c ∈ s.disk.pending, c.clears .manifest = false
  procs : ∀ (p : ℕ) (proc : Proc), s.procs[p]? = some proc →
    ProcInv sum sign s.disk proc.call proc.phase
  ids : (exportIds s.procs).Nodup
  used : exportIds s.procs ⊆ s.used
  /-- A reclaim that holds the beacon is the only holder. -/
  beacon : ∀ (p q : ℕ) (proc proc' : Proc), s.procs[p]? = some proc → s.procs[q]? = some proc' →
    proc.phase.ownsBeacon = true → p ≠ q →
      proc'.phase.sharesBeacon = false ∧ proc'.phase.ownsBeacon = false

end Invariant

/-- **The invariant makes the published export whole.** -/
theorem Inv.whole {s : State} (h : Inv sum sign s) : Whole sum s := by
  intro file hfile
  obtain ⟨call, -, hmanifest, hrows⟩ := h.manifests file (playing_of_lookup hfile)
  obtain ⟨rows, hlookup, hcontent⟩ := hrows.lookup
  refine ⟨manifestFor sum sign call, by rw [Disk.content, hmanifest]; rfl, .rows call.exportId, rows,
    rowsContent call.lines, bundleEventsFileName_rows rfl, hlookup, hcontent, rfl, ?_⟩
  exact rowsIn_rowsContent call.lines

/-- Exports have different IDs. -/
theorem Inv.id_ne {s : State} (h : Inv sum sign s) {p q : ℕ} {proc proc' : Proc}
    (hp : s.procs[p]? = some proc) (hq : s.procs[q]? = some proc') (hne : q ≠ p) :
    proc'.call.exportId ≠ proc.call.exportId := by
  intro heq
  have hlt : q < (exportIds s.procs).length := by
    simpa [exportIds] using (List.getElem?_eq_some_iff.mp hq).1
  refine hne ((List.getElem?_inj hlt h.ids).mp ?_)
  simp [exportIds, hp, hq, heq]

theorem Inv.mem_used {s : State} (h : Inv sum sign s) {proc : Proc} (hmem : proc ∈ s.procs) :
    proc.call.exportId ∈ s.used :=
  h.used (List.mem_map_of_mem hmem)

/-! ### Operations on an export's own files -/

/-- The entries and files of other exports are as they were. -/
structure Agrees (disk disk' : Disk FileName Content) (exportId : UUID) : Prop where
  rows : disk'.entries.lookup (.rows exportId) = disk.entries.lookup (.rows exportId)
  staged : disk'.entries.lookup (.staged exportId) = disk.entries.lookup (.staged exportId)
  files : ∀ (file : ℕ) f, disk.files[file]? = some f →
    f.born = .rows exportId ∨ f.born = .staged exportId → disk'.files[file]? = some f
  kept : ∀ call : ExportCall, call.exportId = exportId → RowsKept disk call → RowsKept disk' call

theorem Agrees.openRows {file : ℕ} {content : Content} {synced : Bool}
    (h : Agrees disk disk' exportId) (ho : OpenRows disk exportId file content synced) :
    OpenRows disk' exportId file content synced :=
  ⟨h.rows.trans ho.1, h.files file _ ho.2 (.inl rfl)⟩

theorem Agrees.openStaged {file : ℕ} {content : Content} {synced : Bool}
    (h : Agrees disk disk' exportId) (ho : OpenStaged disk exportId file content synced) :
    OpenStaged disk' exportId file content synced :=
  ⟨h.staged.trans ho.1, h.files file _ ho.2 (.inr rfl)⟩

/-- What an export relies on holds on while others work. -/
theorem ProcInv.transfer {phase : Phase} (h : ProcInv sum sign disk call phase)
    (hagrees : Agrees disk disk' call.exportId)
    (hunnamed : Unnamed disk call.exportId → Unnamed disk' call.exportId) :
    ProcInv sum sign disk' call phase := by
  cases phase with
  | started => exact hunnamed h
  | streaming file =>
    obtain ⟨hu, content, synced, ho⟩ := h
    exact ⟨hunnamed hu, content, synced, hagrees.openRows ho⟩
  | flushed file =>
    obtain ⟨hu, synced, ho⟩ := h
    exact ⟨hunnamed hu, synced, hagrees.openRows ho⟩
  | synced file => exact ⟨hunnamed h.1, hagrees.openRows h.2⟩
  | closed file => exact ⟨hunnamed h.1, hagrees.openRows h.2⟩
  | rowsDurable => exact ⟨hunnamed h.1, hagrees.kept call rfl h.2⟩
  | staging file =>
    obtain ⟨hu, hk, content, synced, ho⟩ := h
    exact ⟨hunnamed hu, hagrees.kept call rfl hk, content, synced, hagrees.openStaged ho⟩
  | stagedWritten file =>
    obtain ⟨hu, hk, synced, ho⟩ := h
    exact ⟨hunnamed hu, hagrees.kept call rfl hk, synced, hagrees.openStaged ho⟩
  | stagedSynced file => exact ⟨hunnamed h.1, hagrees.kept call rfl h.2.1, hagrees.openStaged h.2.2⟩
  | stagedClosed file => exact ⟨hunnamed h.1, hagrees.kept call rfl h.2.1, hagrees.openStaged h.2.2⟩
  | cleanup names => exact ⟨hunnamed h.1, h.2⟩
  | locked => trivial
  | listing keep => trivial
  | removing keep names => exact h
  | renamed => trivial
  | published => trivial
  | ended => trivial
  | done => trivial

/-- An operation that concerns one name, and the files that were created under it. -/
structure Local (disk disk' : Disk FileName Content) (name : FileName) : Prop where
  durable : disk'.durable = disk.durable
  pending : ∃ cs, disk'.pending = disk.pending ++ cs ∧ ∀ c ∈ cs, ∀ name',
    (c.Touches name' → name' = name) ∧
      ∀ file, c.sets name' = some file → ∃ f, disk'.files[file]? = some f ∧ f.born = name'
  files : ∀ (file : ℕ) f, disk.files[file]? = some f → f.born ≠ name → disk'.files[file]? = some f
  born : ∀ (file : ℕ) f, disk.files[file]? = some f →
    ∃ f', disk'.files[file]? = some f' ∧ f'.born = f.born

theorem local_create (name : FileName) (content : Content) :
    Local disk (disk.create name content) name := by
  have hfiles : ∀ (file : ℕ) f, disk.files[file]? = some f →
      (disk.create name content).files[file]? = some f := by
    intro file f hf
    have hlt := (List.getElem?_eq_some_iff.mp hf).1
    exact (List.getElem?_append_left hlt).trans hf
  refine ⟨rfl, ⟨[.create name disk.files.length], rfl, ?_⟩, fun file f hf _ => hfiles file f hf,
    fun file f hf => ⟨f, hfiles file f hf, rfl⟩⟩
  intro c hc name'
  rw [List.mem_singleton.mp hc]
  by_cases heq : name = name'
  · subst heq
    refine ⟨fun _ => rfl, fun file hset => ?_⟩
    rw [sets, if_pos rfl] at hset
    obtain rfl := Option.some.inj hset
    exact ⟨⟨content, false, name⟩, by simp [Disk.create], rfl⟩
  · refine ⟨fun htouch => ?_, fun file hset => ?_⟩
    · rcases htouch with h | h
      · exact absurd (if_neg heq) h
      · cases h
    · rw [sets, if_neg heq] at hset
      cases hset

theorem local_removeEntry (name : FileName) : Local disk (removeEntry disk name) name := by
  unfold removeEntry
  split_ifs
  · refine ⟨rfl, ⟨[.remove name], rfl, ?_⟩, fun _ _ h _ => h, fun _ f h => ⟨f, h, rfl⟩⟩
    intro c hc name'
    rw [List.mem_singleton.mp hc]
    refine ⟨fun htouch => ?_, fun file hset => (by cases hset)⟩
    rcases htouch with h | h
    · exact absurd rfl h
    · exact (beq_iff_eq.mp h).symm
  · exact ⟨rfl, ⟨[], by simp, by simp⟩, fun _ _ h _ => h, fun _ f h => ⟨f, h, rfl⟩⟩

/-- A file may change as it likes. -/
theorem local_modify {file : ℕ} {f : File FileName Content} {name : FileName}
    (g : File FileName Content → File FileName Content) (hg : ∀ f, (g f).born = f.born)
    (hf : disk.files[file]? = some f) (hborn : f.born = name) :
    Local disk { disk with files := disk.files.modify file g } name := by
  refine ⟨rfl, ⟨[], by simp, by simp⟩, fun i f' hi hne => ?_, fun i f' hi => ?_⟩
  · rw [List.getElem?_modify]
    by_cases heq : file = i
    · subst heq
      obtain rfl := Option.some.inj (hf.symm.trans hi)
      exact absurd hborn hne
    · simp [heq, hi]
  · rw [List.getElem?_modify]
    by_cases heq : file = i
    · exact ⟨g f', by simp [heq, hi], hg f'⟩
    · exact ⟨f', by simp [heq, hi], rfl⟩

section Local

variable {name other : FileName}

theorem Local.untouched (h : Local disk disk' name) (hne : other ≠ name) :
    disk'.entries.lookup other = disk.entries.lookup other ∧
      ((∀ c ∈ disk.pending, ¬ c.Touches other) → ∀ c ∈ disk'.pending, ¬ c.Touches other) := by
  obtain ⟨cs, hcs, htouch⟩ := h.pending
  have hnone : ∀ c ∈ cs, ¬ c.Touches other := fun c hc ht => hne ((htouch c hc other).1 ht)
  constructor
  · have happly : disk'.entries = applyAll cs disk.entries := by
      rw [Disk.entries, h.durable, hcs, Disk.entries, applyAll, List.foldl_append]
      rfl
    rw [happly, lookup_applyAll_of_untouched hnone]
  · intro hold c hc
    rw [hcs] at hc
    exact (List.mem_append.mp hc).elim (hold c) (hnone c)

/-- The manifests in play are the same. -/
theorem Local.playing_iff (h : Local disk disk' name) (hname : name ≠ .manifest) {file : ℕ} :
    Playing disk' file ↔ Playing disk file := by
  obtain ⟨cs, hcs, htouch⟩ := h.pending
  rw [Playing, Playing, h.durable, hcs]
  refine or_congr_right ⟨?_, ?_⟩
  · rintro ⟨c, hc, hset⟩
    rcases List.mem_append.mp hc with hc | hc
    · exact ⟨c, hc, hset⟩
    · have hsome : c.Touches FileName.manifest := .inl (by rw [hset]; simp)
      exact absurd ((htouch c hc _).1 hsome).symm hname
  · rintro ⟨c, hc, hset⟩
    exact ⟨c, List.mem_append_left _ hc, hset⟩

theorem Local.rowsKept (h : Local disk disk' name) (hne : .rows call.exportId ≠ name)
    (hrows : RowsKept disk call) : RowsKept disk' call := by
  obtain ⟨file, hdurable, huntouched, hfile⟩ := hrows
  exact ⟨file, h.durable ▸ hdurable, (h.untouched hne).2 huntouched, h.files file _ hfile hne⟩

theorem Local.agrees (h : Local disk disk' name) (hrows : .rows exportId ≠ name)
    (hstaged : .staged exportId ≠ name) : Agrees disk disk' exportId := by
  refine ⟨(h.untouched hrows).1, (h.untouched hstaged).1, ?_, ?_⟩
  · rintro file f hf (hborn | hborn)
    · exact h.files file f hf (hborn ▸ hrows)
    · exact h.files file f hf (hborn ▸ hstaged)
  · rintro call rfl hkept
    exact h.rowsKept hrows hkept

theorem OwnName.ne_manifest (h : OwnName exportId name) : name ≠ .manifest := by
  rcases h with rfl | rfl <;> simp

theorem OwnName.agrees {other : UUID} (h : OwnName exportId name) (hne : other ≠ exportId)
    (hlocal : Local disk disk' name) : Agrees disk disk' other := by
  rcases h with rfl | rfl
  · exact hlocal.agrees (fun heq => hne (FileName.rows.inj heq)) (by simp)
  · exact hlocal.agrees (by simp) (fun heq => hne (FileName.staged.inj heq))

/-- The manifests in play stay as they are while an export works on files that none of them names. -/
theorem Local.manifest_agrees {used : List UUID} (h : Local disk disk' name)
    (hown : OwnName exportId name) (hunnamed : Unnamed disk exportId)
    (hkept : ManifestsKept sum sign disk used) {file : ℕ} (hplay : Playing disk file) :
    ∃ call : ExportCall, call.exportId ∈ used ∧ Agrees disk disk' call.exportId ∧
      disk.files[file]? = some ⟨.manifest (manifestFor sum sign call), true,
        .staged call.exportId⟩ ∧ RowsKept disk call := by
  obtain ⟨call, hused, hfile, hrows⟩ := hkept file hplay
  have hne : call.exportId ≠ exportId := fun heq => hunnamed file _ hplay hfile (heq ▸ rfl)
  exact ⟨call, hused, hown.agrees hne h, hfile, hrows⟩

theorem Local.manifestsKept {used : List UUID} (h : Local disk disk' name)
    (hown : OwnName exportId name) (hunnamed : Unnamed disk exportId)
    (hkept : ManifestsKept sum sign disk used) : ManifestsKept sum sign disk' used := by
  intro file hplay
  obtain ⟨call, hused, hagrees, hfile, hrows⟩ := h.manifest_agrees hown hunnamed hkept
    ((h.playing_iff hown.ne_manifest).mp hplay)
  exact ⟨call, hused, hagrees.files file _ hfile (.inr rfl), hagrees.kept call rfl hrows⟩

theorem Local.unnamed {used : List UUID} (h : Local disk disk' name) (hown : OwnName exportId name)
    (hunnamed : Unnamed disk exportId) (hkept : ManifestsKept sum sign disk used) {other : UUID}
    (hother : Unnamed disk other) : Unnamed disk' other := by
  intro file f hplay hf
  have hplay' := (h.playing_iff hown.ne_manifest).mp hplay
  obtain ⟨call, -, hagrees, hfile, -⟩ := h.manifest_agrees hown hunnamed hkept hplay'
  have hsame := hagrees.files file _ hfile (.inr rfl)
  obtain rfl := Option.some.inj (hsame.symm.trans hf)
  exact hother file _ hplay' hfile

theorem Local.uncleared (h : Local disk disk' name) (hname : name ≠ .manifest)
    (hold : ∀ c ∈ disk.pending, c.clears FileName.manifest = false) :
    ∀ c ∈ disk'.pending, c.clears FileName.manifest = false := by
  obtain ⟨cs, hcs, htouch⟩ := h.pending
  intro c hc
  rw [hcs] at hc
  rcases List.mem_append.mp hc with hc | hc
  · exact hold c hc
  · by_contra hclear
    exact hname ((htouch c hc FileName.manifest).1 (.inr (by simpa using hclear))).symm

theorem Local.bornKept (h : Local disk disk' name) (hold : Born disk) : Born disk' := by
  obtain ⟨cs, hcs, hnew⟩ := h.pending
  intro name file hname hset
  have hcases : (disk.durable.lookup name = some file ∨
      ∃ c ∈ disk.pending, c.sets name = some file) ∨ ∃ c ∈ cs, c.sets name = some file := by
    rw [h.durable, hcs] at hset
    rcases hset with hset | ⟨c, hc, hset⟩
    · exact .inl (.inl hset)
    · rcases List.mem_append.mp hc with hc | hc
      · exact .inl (.inr ⟨c, hc, hset⟩)
      · exact .inr ⟨c, hc, hset⟩
  rcases hcases with hset | ⟨c, hc, hset⟩
  · obtain ⟨f, hf, hborn⟩ := hold name file hname hset
    obtain ⟨f', hf', hborn'⟩ := h.born file f hf
    exact ⟨f', hf', hborn'.trans hborn⟩
  · exact (hnew c hc name).2 file hset

end Local

/-! ### Syncing the directory -/

theorem playing_of_playing_syncDir {file : ℕ} (h : Playing disk.syncDir file) :
    Playing disk file := by
  rcases h with h | ⟨c, hc, -⟩
  · exact playing_of_lookup h
  · cases hc

theorem RowsKept.syncDir (h : RowsKept disk call) : RowsKept disk.syncDir call := by
  obtain ⟨file, hdurable, huntouched, hfile⟩ := h
  exact ⟨file, (lookup_applyAll_of_untouched huntouched _).trans hdurable, fun c hc => (by cases hc),
    hfile⟩

theorem agrees_syncDir (exportId : UUID) : Agrees disk disk.syncDir exportId :=
  ⟨rfl, rfl, fun _ _ h _ => h, fun _ _ h => h.syncDir⟩

theorem Unnamed.syncDir (h : Unnamed disk exportId) : Unnamed disk.syncDir exportId :=
  fun file f hplay hf => h file f (playing_of_playing_syncDir hplay) hf

theorem ManifestsKept.syncDir {used : List UUID} (h : ManifestsKept sum sign disk used) :
    ManifestsKept sum sign disk.syncDir used := by
  intro file hplay
  obtain ⟨call, hused, hfile, hrows⟩ := h file (playing_of_playing_syncDir hplay)
  exact ⟨call, hused, hfile, hrows.syncDir⟩

theorem Born.syncDir (h : Born disk) : Born disk.syncDir := by
  rintro name file hname (hset | ⟨c, hc, -⟩)
  · exact h name file hname (lookup_applyAll_cases hset)
  · cases hc

/-! ### Publishing -/

/-- A change that lets no name but the manifest stand for a file. -/
theorem Born.change {c : Change FileName} (h : Born disk)
    (hc : ∀ name, name ≠ .manifest → c.sets name = none) : Born (disk.change c) := by
  rintro name file hname (hset | ⟨c', hc', hset⟩)
  · exact h name file hname (.inl hset)
  · rcases List.mem_append.mp hc' with hc' | hc'
    · exact h name file hname (.inr ⟨c', hc', hset⟩)
    · rw [List.mem_singleton.mp hc', hc name hname] at hset
      cases hset

/-- The renaming touches the staged name and the manifest. -/
theorem touches_publish {name : FileName} {file : ℕ}
    (h : (Change.rename (.staged exportId) .manifest file).Touches name) :
    name = .staged exportId ∨ name = .manifest := by
  rcases h with h | h
  · by_cases heq : FileName.manifest = name
    · exact .inr heq.symm
    · exact absurd (if_neg heq) h
  · simp only [clears, Bool.and_eq_true, beq_iff_eq] at h
    exact .inl h.1.symm

theorem playing_publish {file published : ℕ}
    (h : Playing (disk.change (.rename (.staged exportId) .manifest published)) file) :
    Playing disk file ∨ file = published := by
  rcases h with h | ⟨c, hc, hset⟩
  · exact .inl (.inl h)
  · rcases List.mem_append.mp hc with hc | hc
    · exact .inl (.inr ⟨c, hc, hset⟩)
    · rw [List.mem_singleton.mp hc, sets, if_pos rfl] at hset
      exact .inr (Option.some.inj hset).symm

theorem RowsKept.change {c : Change FileName} (h : RowsKept disk call)
    (hc : ¬ c.Touches (.rows call.exportId)) : RowsKept (disk.change c) call := by
  obtain ⟨file, hdurable, huntouched, hfile⟩ := h
  refine ⟨file, hdurable, fun c' hc' => ?_, hfile⟩
  rcases List.mem_append.mp hc' with hc' | hc'
  · exact huntouched c' hc'
  · rwa [List.mem_singleton.mp hc']

theorem lookup_change_of_untouched {c : Change FileName} {name : FileName} (hc : ¬ c.Touches name) :
    (disk.change c).entries.lookup name = disk.entries.lookup name := by
  rw [Disk.entries_change]
  exact @lookup_applyAll_of_untouched _ _ [c] name (by simpa using hc) disk.entries

theorem agrees_change {c : Change FileName} (hrows : ¬ c.Touches (.rows exportId))
    (hstaged : ¬ c.Touches (.staged exportId)) : Agrees disk (disk.change c) exportId :=
  ⟨lookup_change_of_untouched hrows, lookup_change_of_untouched hstaged, fun _ _ h _ => h,
    fun _ hid h => h.change (hid ▸ hrows)⟩

/-! ### One process moves -/

section Moves

variable {s : State} {p : ℕ} {proc : Proc} {phase : Phase}

/-- The invariant after a process moved. -/
theorem Inv.move (h : Inv sum sign s) (hp : s.procs[p]? = some proc)
    (hmanifests : ManifestsKept sum sign disk' s.used) (hborn : Born disk')
    (huncleared : ∀ c ∈ disk'.pending, c.clears FileName.manifest = false)
    (hself : ProcInv sum sign disk' proc.call phase)
    (hothers : ∀ (q : ℕ) (proc' : Proc), q ≠ p → s.procs[q]? = some proc' →
      ProcInv sum sign disk' proc'.call proc'.phase)
    (hshares : phase.sharesBeacon = false ∨ proc.phase.sharesBeacon = true)
    (howns : phase.ownsBeacon = true → ∀ (q : ℕ) (proc' : Proc), q ≠ p →
      s.procs[q]? = some proc' → proc'.phase.sharesBeacon = false ∧ proc'.phase.ownsBeacon = false) :
    Inv sum sign { setPhase s p proc phase with disk := disk' } := by
  have hlt := (List.getElem?_eq_some_iff.mp hp).1
  have hget : ∀ (q : ℕ) (proc' : Proc),
      (s.procs.set p { proc with phase := phase })[q]? = some proc' →
      (q = p ∧ proc' = { proc with phase := phase }) ∨ (q ≠ p ∧ s.procs[q]? = some proc') := by
    intro q proc' hq
    by_cases heq : q = p
    · subst heq
      rw [List.getElem?_set_self hlt] at hq
      exact .inl ⟨rfl, (Option.some.inj hq).symm⟩
    · rw [List.getElem?_set_ne (Ne.symm heq)] at hq
      exact .inr ⟨heq, hq⟩
  have hids : exportIds (s.procs.set p { proc with phase := phase }) = exportIds s.procs := by
    obtain ⟨_, rfl⟩ := List.getElem?_eq_some_iff.mp hp
    rw [exportIds, exportIds, List.map_set]
    exact (congrArg (List.set _ p) (List.getElem_map _).symm).trans
      (List.set_getElem_self ((List.length_map _).symm ▸ hlt))
  refine ⟨hmanifests, hborn, huncleared, ?_, hids ▸ h.ids, hids ▸ h.used, ?_⟩
  · intro q proc' hq
    obtain ⟨-, rfl⟩ | ⟨hne, hq⟩ := hget q proc' hq
    · exact hself
    · exact hothers q proc' hne hq
  · intro q q' proc₁ proc₂ hq hq' hown hne
    obtain ⟨rfl, rfl⟩ | ⟨hqp, hold⟩ := hget q proc₁ hq
    · obtain ⟨rfl, -⟩ | ⟨hne', hold'⟩ := hget q' proc₂ hq'
      · exact absurd rfl hne
      · exact howns hown q' proc₂ hne' hold'
    · obtain ⟨rfl, rfl⟩ | ⟨hne', hold'⟩ := hget q' proc₂ hq'
      · -- the holder is another process, so the one that moved held nothing and holds nothing
        obtain ⟨hnoshare, -⟩ := h.beacon q q' proc₁ proc hold hp hown hne
        refine ⟨hshares.resolve_right fun hs => ?_, Bool.eq_false_iff.mpr fun ho => ?_⟩
        · rw [hs] at hnoshare
          cases hnoshare
        · rw [(howns ho q proc₁ hqp hold).2] at hown
          cases hown
      · exact h.beacon q q' proc₁ proc₂ hold hold' hown hne

/-- The process moves and the disk stays. -/
theorem Inv.stay (h : Inv sum sign s) (hp : s.procs[p]? = some proc) (hself : ProcInv sum sign s.disk proc.call phase)
    (hshares : phase.sharesBeacon = false ∨ proc.phase.sharesBeacon = true)
    (howns : phase.ownsBeacon = false ∨ proc.phase.ownsBeacon = true) :
    Inv sum sign (setPhase s p proc phase) :=
  h.move hp h.manifests h.born h.uncleared hself (fun q proc' _ hq => h.procs q proc' hq) hshares
    fun ho q proc' hne hq => h.beacon p q proc proc' hp hq (howns.resolve_left (by simp [ho])) (Ne.symm hne)

/-- An export works on its own files. -/
theorem Inv.local (h : Inv sum sign s) (hp : s.procs[p]? = some proc) {name : FileName}
    (hlocal : Local s.disk disk' name) (hown : OwnName proc.call.exportId name)
    (hunnamed : Unnamed s.disk proc.call.exportId) (hshares : proc.phase.sharesBeacon = true)
    (howns : phase.ownsBeacon = false)
    (hself : Unnamed disk' proc.call.exportId → ProcInv sum sign disk' proc.call phase) :
    Inv sum sign { setPhase s p proc phase with disk := disk' } := by
  refine h.move hp (hlocal.manifestsKept hown hunnamed h.manifests) (hlocal.bornKept h.born)
    (hlocal.uncleared hown.ne_manifest h.uncleared)
    (hself (hlocal.unnamed hown hunnamed h.manifests hunnamed)) ?_ (.inr hshares)
    (fun ho => by rw [ho] at howns; cases howns)
  intro q proc' hne hq
  exact (h.procs q proc' hq).transfer (hown.agrees (h.id_ne hp hq hne) hlocal)
    (hlocal.unnamed hown hunnamed h.manifests)

/-- An export syncs the directory. -/
theorem Inv.sync (h : Inv sum sign s) (hp : s.procs[p]? = some proc)
    (hshares : proc.phase.sharesBeacon = true) (howns : phase.ownsBeacon = false)
    (hself : ProcInv sum sign s.disk.syncDir proc.call phase) :
    Inv sum sign { setPhase s p proc phase with disk := s.disk.syncDir } := by
  refine h.move hp h.manifests.syncDir h.born.syncDir (fun c hc => (by cases hc)) hself ?_
    (.inr hshares) (fun ho => by rw [ho] at howns; cases howns)
  intro q proc' _ hq
  exact (h.procs q proc' hq).transfer (agrees_syncDir _) Unnamed.syncDir

/-- An export publishes its manifest. -/
theorem Inv.publish (h : Inv sum sign s) (hp : s.procs[p]? = some proc) {file : ℕ}
    (hshares : proc.phase.sharesBeacon = true) (hrows : RowsKept s.disk proc.call)
    (hstaged : s.disk.files[file]? =
      some ⟨.manifest (manifestFor sum sign proc.call), true, .staged proc.call.exportId⟩) :
    Inv sum sign { setPhase s p proc .renamed with
      disk := s.disk.change (.rename (.staged proc.call.exportId) .manifest file) } := by
  have huntouched : ∀ exportId, ¬ (Change.rename (.staged proc.call.exportId) FileName.manifest
      file).Touches (.rows exportId) := by
    intro exportId ht
    rcases touches_publish ht with heq | heq <;> cases heq
  refine h.move hp ?_ (h.born.change fun name hname => if_neg (Ne.symm hname)) ?_ trivial ?_
    (.inr hshares) (fun ho => by cases ho)
  · intro file' hplay
    rcases playing_publish hplay with hplay | rfl
    · obtain ⟨call, hused, hfile, hkept⟩ := h.manifests file' hplay
      exact ⟨call, hused, hfile, hkept.change (huntouched _)⟩
    · exact ⟨proc.call, h.mem_used (List.mem_of_getElem? hp), hstaged, hrows.change (huntouched _)⟩
  · intro c hc
    rcases List.mem_append.mp hc with hc | hc
    · exact h.uncleared c hc
    · rw [List.mem_singleton.mp hc]
      rfl
  · intro q proc' hne hq
    have hid := h.id_ne hp hq hne
    refine (h.procs q proc' hq).transfer (agrees_change (huntouched _) fun ht => ?_) ?_
    · rcases touches_publish ht with heq | heq
      · exact hid (FileName.staged.inj heq)
      · cases heq
    · intro hunnamed file' f hplay hf
      rcases playing_publish hplay with hplay | rfl
      · exact hunnamed file' f hplay hf
      · obtain rfl := Option.some.inj (hstaged.symm.trans hf)
        exact fun heq => hid (FileName.staged.inj heq).symm

/-- A reclaim removes a file that no manifest in play names. -/
theorem Inv.reclaim (h : Inv sum sign s) (hp : s.procs[p]? = some proc) {name : FileName}
    (howns : proc.phase.ownsBeacon = true)
    (hshares' : phase.sharesBeacon = false) (hname : name ≠ .manifest)
    (hsafe : ∀ call : ExportCall, ∀ file, Playing s.disk file →
      s.disk.content file = some (.manifest (manifestFor sum sign call)) →
        name ≠ .rows call.exportId)
    (hself : ProcInv sum sign (removeEntry s.disk name) proc.call phase) :
    Inv sum sign { setPhase s p proc phase with disk := removeEntry s.disk name } := by
  have hothers : ∀ (q : ℕ) (proc' : Proc), q ≠ p → s.procs[q]? = some proc' →
      proc'.phase.sharesBeacon = false ∧ proc'.phase.ownsBeacon = false :=
    fun q proc' hne hq => h.beacon p q proc proc' hp hq howns (Ne.symm hne)
  refine h.move hp ?_ ?_ ?_ hself ?_ (.inl hshares') fun _ => hothers
  · unfold removeEntry
    split_ifs
    · intro file hplay
      have hplay' : Playing s.disk file := by
        rcases hplay with hplay | ⟨c, hc, hset⟩
        · exact .inl hplay
        · rcases List.mem_append.mp hc with hc | hc
          · exact .inr ⟨c, hc, hset⟩
          · rw [List.mem_singleton.mp hc] at hset
            cases hset
      obtain ⟨call, hused, hfile, hrows⟩ := h.manifests file hplay'
      have hcontent : s.disk.content file = some (.manifest (manifestFor sum sign call)) := by
        rw [Disk.content, hfile]
        rfl
      refine ⟨call, hused, hfile, hrows.change ?_⟩
      rintro (ht | ht)
      · exact ht rfl
      · exact hsafe call file hplay' hcontent (beq_iff_eq.mp ht)
    · exact h.manifests
  · unfold removeEntry
    split_ifs
    · exact h.born.change fun _ _ => rfl
    · exact h.born
  · unfold removeEntry
    split_ifs
    · intro c hc
      rcases List.mem_append.mp hc with hc | hc
      · exact h.uncleared c hc
      · rw [List.mem_singleton.mp hc]
        exact beq_eq_false_iff_ne.mpr hname
    · exact h.uncleared
  · -- every other process holds nothing, so it relies on nothing
    intro q proc' hne hq
    obtain ⟨hnoshare, hnoown⟩ := hothers q proc' hne hq
    cases hphase : proc'.phase <;>
      simp [hphase, Phase.sharesBeacon, Phase.ownsBeacon] at hnoshare hnoown <;> trivial

end Moves

end Tack.Audit.Export

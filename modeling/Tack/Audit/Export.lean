import Tack.Audit.Event
import Tack.Lib.CrashDir
import Tack.Lib.Hex
import Tack.Lib.Run

/-!
# Exports of the ledger

An export writes its rows under a name of its own, syncs them and the directory, stages a manifest that
names the rows with their digest and count, and renames it over the published manifest.  It then syncs
the directory again, stops counting as active and reclaims the files that the published manifest does
not name.  Any number of exports run in one directory.  Each can fail or be killed at every step, and
the power can be lost.

A file holds bytes or the manifest that its bytes encode.  The beacon is a lock: exports share it while
they write, and a reclaim holds it alone.

## Main definitions

* `Audit.Export.FileName`, `Audit.Export.exporterOwnedFile` — the names in a bundle directory.
* `Audit.Export.ExportManifest`, `Audit.Export.bundleEventsFileName`.
* `Audit.Export.Phase`, `Audit.Export.State`, `Audit.Export.step` — the exports as a step function.
* `Audit.Export.Whole` — the rows that the published manifest names are there.

## Main results

* `Audit.Export.bundleEventsFileName_rows` — which rows a manifest names.
-/

namespace Tack.Audit.Export

open Lib Lib.CrashDir

/-! ### Names -/

def exportManifestFile : String := "manifest.json"

def exportEventsStart : String := "events-"

def exportEventsEnd : String := ".jsonl"

def legacyExportEventsFile : String := "events.jsonl"

def stagedEnd : String := ".partial"

/-- A name in a bundle directory. -/
inductive FileName
  /-- The published manifest. -/
  | manifest
  /-- The rows of an export. -/
  | rows (exportId : UUID)
  /-- The manifest that an export has not published yet. -/
  | staged (exportId : UUID)
  | other (name : String)
  deriving DecidableEq

def exportEventsFileName (exportId : UUID) : String :=
  exportEventsStart ++ exportId.text ++ exportEventsEnd

def stagedExportPath (publishedPath : String) (exportId : UUID) : String :=
  publishedPath ++ "." ++ exportId.text ++ stagedEnd

def FileName.text : FileName → String
  | manifest => exportManifestFile
  | rows exportId => exportEventsFileName exportId
  | staged exportId => stagedExportPath exportManifestFile exportId
  | other name => name

/-- `strings.CutPrefix`. -/
def cutFront (front text : List Char) : Option (List Char) :=
  if front.isPrefixOf text then some (text.drop front.length) else none

/-- `strings.CutSuffix`. -/
def cutBack (back text : List Char) : Option (List Char) :=
  if back.isSuffixOf text then some (text.take (text.length - back.length)) else none

/-- The text is an export ID as the exporter renders one. -/
def isExportIDText (text : List Char) : Bool :=
  (UUID.parse (String.ofList text)).any fun parsed => parsed.text.toList == text

/-- The staged name is `base` followed by the ID of the export that staged it. -/
def stagedForExport (stagedName : List Char) (base : String) : Bool :=
  (cutFront (base.toList ++ ['.']) stagedName).any isExportIDText

/-- A name that the exporter writes.  The published manifest is none. -/
def exporterOwnedFile (name : String) : Bool :=
  if name = legacyExportEventsFile then true
  else
    match cutFront exportEventsStart.toList name.toList with
    | some rest => (cutBack exportEventsEnd.toList rest).any isExportIDText
    | none =>
      match cutBack stagedEnd.toList name.toList with
      | none => false
      | some stagedName =>
        stagedForExport stagedName exportManifestFile ||
          stagedForExport stagedName legacyExportEventsFile

/-- The ownership of a name of the directory. -/
def FileName.exporterOwned : FileName → Bool
  | manifest => false
  | rows _ => true
  | staged _ => true
  | other name => exporterOwnedFile name

/-- The digits of a UUID and its dashes are no separators of a path. -/
theorem separator_notMem_text (exportId : UUID) :
    '/' ∉ exportId.text.toList ∧ '\x5c' ∉ exportId.text.toList := by
  have hdigit : ∀ n < 16, hexDigit n ≠ '/' ∧ hexDigit n ≠ '\x5c' := by decide
  have hmem : ∀ c ∈ exportId.text.toList, c ≠ '/' ∧ c ≠ '\x5c' := by
    intro c hc
    rcases UUID.mem_text hc with rfl | ⟨n, hn, rfl⟩
    · decide
    · exact hdigit n hn
  exact ⟨fun h => (hmem _ h).1 rfl, fun h => (hmem _ h).2 rfl⟩

/-! ### Manifests -/

/-- An encoded row without its line break. -/
def Line := { bytes : Bytes // 10 ∉ bytes }

/-- One call of `Export`. -/
structure ExportCall where
  exportId : UUID
  orgId : UUID
  oldest : Time
  latest : Time
  keyId : String
  /-- The rows that the source streams, encoded. -/
  lines : List Line

structure ExportManifest where
  exportId : UUID
  orgId : UUID
  oldest : Time
  latest : Time
  rowCount : ℕ
  /-- The rows file; manifests of an early format name none. -/
  eventsFile : Option FileName
  fileSHA256 : String
  signatureBy : String
  signature : String

/-- The file that a manifest describes; `none` when its name is no plain name inside the bundle. -/
def bundleEventsFileName (manifest : ExportManifest) : Option FileName :=
  match manifest.eventsFile with
  | none => some (.other legacyExportEventsFile)
  | some name =>
    if name.text = "." ∨ name.text = ".." ∨ name.text = "" ∨ '/' ∈ name.text.toList ∨
        '\x5c' ∈ name.text.toList then none
    else some name

/-- The rows of an export are a plain name. -/
theorem bundleEventsFileName_rows {manifest : ExportManifest} {exportId : UUID}
    (h : manifest.eventsFile = some (.rows exportId)) :
    bundleEventsFileName manifest = some (.rows exportId) := by
  have hsep := separator_notMem_text exportId
  have htext : (FileName.text (.rows exportId)).toList =
      exportEventsStart.toList ++ (exportId.text.toList ++ exportEventsEnd.toList) := by
    simp [FileName.text, exportEventsFileName]
  have hlen : 8 < (FileName.text (.rows exportId)).toList.length := by
    rw [htext]
    simp [exportEventsStart, exportEventsEnd]
  have hne : ∀ s : String, s.toList.length ≤ 8 → FileName.text (.rows exportId) ≠ s := by
    intro s hs heq
    rw [heq] at hlen
    omega
  rw [bundleEventsFileName, h]
  simp only [htext]
  rw [if_neg]
  simp only [hne "." (by decide), hne ".." (by decide), hne "" (by decide), false_or, not_or,
    List.mem_append, hsep.1, hsep.2]
  decide

/-- What a file holds. -/
inductive Content
  | raw (bytes : Bytes)
  | manifest (manifest : ExportManifest)

/-- The bytes of all rows, a line each. -/
def rowsContent (lines : List Line) : Bytes := lines.flatMap fun line => line.1 ++ [10]

/-- The number of rows in a file. -/
def rowsIn (bytes : Bytes) : ℕ := bytes.count 10

theorem rowsIn_rowsContent (lines : List Line) : rowsIn (rowsContent lines) = lines.length := by
  induction lines with
  | nil => rfl
  | cons line lines ih =>
    rw [rowsIn, rowsContent] at ih
    rw [rowsIn, rowsContent, List.flatMap_cons, List.count_append, List.count_append, ih,
      List.count_eq_zero.mpr line.2]
    simp
    omega

section Model

variable (sum : Bytes → Bytes) (sign : ExportManifest → String)

/-- The hexadecimal digest of a file. -/
def fileDigest (bytes : Bytes) : String := String.ofList (hexEncode (sum bytes))

def unsignedManifest (call : ExportCall) : ExportManifest where
  exportId := call.exportId
  orgId := call.orgId
  oldest := call.oldest
  latest := call.latest
  rowCount := call.lines.length
  eventsFile := some (.rows call.exportId)
  fileSHA256 := fileDigest sum (rowsContent call.lines)
  signatureBy := call.keyId
  signature := ""

/-- The manifest of an export. -/
def manifestFor (call : ExportCall) : ExportManifest :=
  { unsignedManifest sum call with signature := sign (unsignedManifest sum call) }

/-! ### Processes -/

/-- Where an export is.  Numbers are those of the files it has open. -/
inductive Phase
  /-- Holds the beacon; `writeExportRows` comes next. -/
  | started
  /-- Streams the rows into the buffer. -/
  | streaming (file : ℕ)
  | flushed (file : ℕ)
  | synced (file : ℕ)
  /-- The rows file is closed and its directory entry not synced. -/
  | closed (file : ℕ)
  /-- `writeExportRows` returned. -/
  | rowsDurable
  /-- The staged manifest is created or truncated. -/
  | staging (file : ℕ)
  | stagedWritten (file : ℕ)
  | stagedSynced (file : ℕ)
  | stagedClosed (file : ℕ)
  /-- The manifest is renamed and the directory not synced. -/
  | renamed
  | published
  /-- The beacon is released; the reclaim comes next. -/
  | ended
  /-- Holds the beacon alone. -/
  | locked
  /-- Knows the rows that the manifest names. -/
  | listing (keep : Option FileName)
  | removing (keep : Option FileName) (names : List FileName)
  /-- A failed export removes what it wrote. -/
  | cleanup (names : List FileName)
  | done

/-- The export holds the beacon with the others. -/
def Phase.sharesBeacon : Phase → Bool
  | started | streaming _ | flushed _ | synced _ | closed _ | rowsDurable | staging _
  | stagedWritten _ | stagedSynced _ | stagedClosed _ | renamed | published | cleanup _ => true
  | ended | locked | listing _ | removing _ _ | done => false

/-- The reclaim holds the beacon alone. -/
def Phase.ownsBeacon : Phase → Bool
  | locked | listing _ | removing _ _ => true
  | _ => false

structure Proc where
  call : ExportCall
  phase : Phase

structure State where
  disk : Disk FileName Content
  procs : List Proc
  /-- The export IDs so far; a new one is none of them. -/
  used : List UUID

def State.empty : State := ⟨.empty, [], []⟩

inductive Label
  /-- A call of `Export` takes the beacon. -/
  | begin (call : ExportCall)
  /-- The next operation of an export succeeds. -/
  | advance (p : ℕ)
  /-- The next operation of an export fails. -/
  | fail (p : ℕ)
  /-- The buffer of an export writes some of the rows to the file. -/
  | write (p : ℕ) (length : ℕ)
  | kill (p : ℕ)
  | powerLoss (kept : List (Change FileName)) (garbage : ℕ → Content)

/-- Removes an entry if there is one; `os.Remove` reports the other case, and nobody reads it. -/
def removeEntry (disk : Disk FileName Content) (name : FileName) : Disk FileName Content :=
  if (disk.entries.lookup name).isSome then disk.change (.remove name) else disk

/-- Opens the staged manifest, truncated. -/
def openStaged (disk : Disk FileName Content) (exportId : UUID) : Disk FileName Content × ℕ :=
  match disk.entries.lookup (.staged exportId) with
  | some file => (disk.write file (.raw []), file)
  | none => (disk.create (.staged exportId) (.raw []), disk.files.length)

/-- The rows file that the published manifest names, if there is a manifest; `none` when the reclaim
may not run. -/
def publishedEventsFileName (disk : Disk FileName Content) : Option (Option FileName) :=
  match disk.entries.lookup .manifest with
  | none => some none
  | some file =>
    match disk.content file with
    | some (.manifest manifest) => (bundleEventsFileName manifest).map some
    | _ => none

/-- The names that the reclaim removes. -/
def reclaimable (disk : Disk FileName Content) (keep : Option FileName) : List FileName :=
  disk.entries.keys.filter fun name => some name != keep && name.exporterOwned

/-- The rows and the staged manifest of an export that failed to publish. -/
def bothFiles (call : ExportCall) : List FileName := [.staged call.exportId, .rows call.exportId]

/-- What the next operation of an export does when it succeeds.  `alone` says that no other process
holds the beacon. -/
def Proc.advance (proc : Proc) (disk : Disk FileName Content) (alone : Bool) :
    Option (Disk FileName Content × Phase) :=
  let exportId := proc.call.exportId
  match proc.phase with
  | .started =>
    -- the file must not exist
    if (disk.entries.lookup (.rows exportId)).isSome then some (disk, .done)
    else some (disk.create (.rows exportId) (.raw []), .streaming disk.files.length)
  | .streaming file => some (disk.write file (.raw (rowsContent proc.call.lines)), .flushed file)
  | .flushed file => some (disk.fsync file, .synced file)
  | .synced file => some (disk, .closed file)
  | .closed _ => some (disk.syncDir, .rowsDurable)
  | .rowsDurable =>
    let opened := openStaged disk exportId
    some (opened.1, .staging opened.2)
  | .staging file =>
    some (disk.write file (.manifest (manifestFor sum sign proc.call)), .stagedWritten file)
  | .stagedWritten file => some (disk.fsync file, .stagedSynced file)
  | .stagedSynced file => some (disk, .stagedClosed file)
  | .stagedClosed _ =>
    match disk.entries.lookup (.staged exportId) with
    | some file => some (disk.change (.rename (.staged exportId) .manifest file), .renamed)
    | none => some (disk, .cleanup (bothFiles proc.call))
  | .renamed => some (disk.syncDir, .published)
  | .published => some (disk, .ended)
  | .ended => some (disk, if alone then .locked else .done)
  | .locked =>
    match publishedEventsFileName disk with
    | some keep => some (disk, .listing keep)
    | none => some (disk, .done)
  | .listing keep => some (disk, .removing keep (reclaimable disk keep))
  | .removing keep (name :: names) => some (removeEntry disk name, .removing keep names)
  | .removing _ [] => some (disk, .done)
  | .cleanup (name :: names) => some (removeEntry disk name, .cleanup names)
  | .cleanup [] => some (disk, .done)
  | .done => none

/-- Where an export is after its next operation fails. -/
def Proc.fail (proc : Proc) : Option Phase :=
  match proc.phase with
  | .started => some .done
  | .streaming _ | .flushed _ | .synced _ | .closed _ => some (.cleanup [.rows proc.call.exportId])
  | .rowsDurable | .staging _ | .stagedWritten _ | .stagedSynced _ | .stagedClosed _ =>
    some (.cleanup (bothFiles proc.call))
  | .renamed => some .done
  | .published => none
  | .ended | .locked | .listing _ => some .done
  | .removing keep (_ :: names) => some (.removing keep names)
  | .removing _ [] => none
  | .cleanup (_ :: names) => some (.cleanup names)
  | .cleanup [] => none
  | .done => none

/-- No process other than `p` holds the beacon. -/
def aloneWith (s : State) (p : ℕ) : Bool :=
  (s.procs.eraseIdx p).all fun proc => !proc.phase.sharesBeacon && !proc.phase.ownsBeacon

def setPhase (s : State) (p : ℕ) (proc : Proc) (phase : Phase) : State :=
  { s with procs := s.procs.set p { proc with phase := phase } }

/-- One step of the exports in a directory. -/
def step (s : State) : Label → Option State
  | .begin call =>
    if call.exportId ∈ s.used ∨ s.procs.any (·.phase.ownsBeacon) then none
    else some { s with procs := s.procs ++ [⟨call, .started⟩], used := call.exportId :: s.used }
  | .advance p => do
    let proc ← s.procs[p]?
    let (disk, phase) ← proc.advance sum sign s.disk (aloneWith s p)
    return { setPhase s p proc phase with disk := disk }
  | .fail p => do
    let proc ← s.procs[p]?
    let phase ← proc.fail
    return setPhase s p proc phase
  | .write p length => do
    let proc ← s.procs[p]?
    match proc.phase with
    | .streaming file =>
      some { setPhase s p proc (.streaming file) with
        disk := s.disk.write file (.raw ((rowsContent proc.call.lines).take length)) }
    | _ => none
  | .kill p => do
    let proc ← s.procs[p]?
    return setPhase s p proc .done
  | .powerLoss kept garbage =>
    if kept.Sublist s.disk.pending then
      some { s with
        disk := s.disk.lose kept garbage
        procs := s.procs.map fun proc => { proc with phase := .done } }
    else none

/-- The rows that a manifest names exist and hold the bytes whose digest and count it declares. -/
def HoldsRows (disk : Disk FileName Content) (manifest : ExportManifest) : Prop :=
  ∃ name file bytes, bundleEventsFileName manifest = some name ∧
    disk.entries.lookup name = some file ∧ disk.content file = some (.raw bytes) ∧
    fileDigest sum bytes = manifest.fileSHA256 ∧ rowsIn bytes = manifest.rowCount

/-- **The published export is whole.** -/
def Whole (s : State) : Prop :=
  ∀ file, s.disk.entries.lookup .manifest = some file →
    ∃ manifest, s.disk.content file = some (.manifest manifest) ∧ HoldsRows sum s.disk manifest

end Model

end Tack.Audit.Export

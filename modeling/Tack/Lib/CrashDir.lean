import Mathlib

/-!
# Directories that survive a power loss

A directory on a disk: entries from names to files, the entries of the last completed sync, and the
changes made since.  After a power loss the entries are those of the last sync with any of the later
changes, and a file whose content was not synced holds anything.

## Main definitions

* `Lib.CrashDir.Change` — the creation, renaming or removal of an entry.
* `Lib.CrashDir.Disk` — the visible entries, the synced entries, the changes between them and the
  files.
* `Lib.CrashDir.Disk.create`, `rename`, `remove`, `write`, `fsync`, `syncDir`, `lose` — what a process
  or a power loss does to it.

## Main results

* `Lib.CrashDir.lookup_applyAll_of_untouched` — an entry that no change touches stays.
* `Lib.CrashDir.lookup_applyAll_cases` — an entry after some changes is the one before or the one some
  change sets.
-/

namespace Tack.Lib.CrashDir

variable {N C : Type*} [DecidableEq N]

/-- The entries of a directory: the number of the file that each name stands for. -/
abbrev Entries (N : Type*) := AList fun _ : N => ℕ

/-- A change of a directory, with the file of the new entry. -/
inductive Change (N : Type*)
  | create (name : N) (file : ℕ)
  | rename (source target : N) (file : ℕ)
  | remove (name : N)
  deriving DecidableEq

namespace Change

def apply : Change N → Entries N → Entries N
  | create name file, d => d.insert name file
  | rename source target file, d => (d.erase source).insert target file
  | remove name, d => d.erase name

/-- The file that the change lets a name stand for. -/
def sets (n : N) : Change N → Option ℕ
  | create name file => if name = n then some file else none
  | rename _ target file => if target = n then some file else none
  | remove _ => none

/-- The change takes the entry of a name away. -/
def clears (n : N) : Change N → Bool
  | create _ _ => false
  | rename source target _ => source == n && target != n
  | remove name => name == n

/-- The change sets or clears the entry of a name. -/
def Touches (n : N) (c : Change N) : Prop := c.sets n ≠ none ∨ c.clears n = true

theorem lookup_apply (c : Change N) (d : Entries N) (n : N) : (c.apply d).lookup n =
    match c.sets n with
    | some file => some file
    | none => if c.clears n then none else d.lookup n := by
  cases c with
  | create name file =>
    by_cases h : name = n
    · subst h
      simp [apply, sets]
    · simp [apply, sets, clears, h, AList.lookup_insert_ne (Ne.symm h)]
  | rename source target file =>
    by_cases h : target = n
    · subst h
      simp [apply, sets]
    · by_cases hs : source = n
      · subst hs
        simp [apply, sets, clears, h, AList.lookup_insert_ne (Ne.symm h)]
      · simp [apply, sets, clears, h, hs, AList.lookup_insert_ne (Ne.symm h),
          AList.lookup_erase_ne (Ne.symm hs)]
  | remove name =>
    by_cases h : name = n
    · subst h
      simp [apply, sets, clears]
    · simp [apply, sets, clears, h, AList.lookup_erase_ne (Ne.symm h)]

end Change

open Change

/-- The changes in a row. -/
def applyAll (cs : List (Change N)) (d : Entries N) : Entries N := cs.foldl (fun d c => c.apply d) d

theorem applyAll_cons (c : Change N) (cs : List (Change N)) (d : Entries N) :
    applyAll (c :: cs) d = applyAll cs (c.apply d) := rfl

theorem applyAll_append_singleton (cs : List (Change N)) (c : Change N) (d : Entries N) :
    applyAll (cs ++ [c]) d = c.apply (applyAll cs d) := by
  simp [applyAll]

/-- An entry that no change touches stays. -/
theorem lookup_applyAll_of_untouched {cs : List (Change N)} {n : N}
    (h : ∀ c ∈ cs, ¬ c.Touches n) (d : Entries N) : (applyAll cs d).lookup n = d.lookup n := by
  induction cs generalizing d with
  | nil => rfl
  | cons c cs ih =>
    have hc := h c List.mem_cons_self
    simp only [Touches, not_or, not_not, Bool.not_eq_true] at hc
    rw [applyAll_cons, ih fun c' hc' => h c' (List.mem_cons_of_mem c hc'), lookup_apply, hc.1, hc.2]
    rfl

/-- An entry after some changes is the one before, or one that some change sets. -/
theorem lookup_applyAll_cases {cs : List (Change N)} {d : Entries N} {n : N} {file : ℕ}
    (h : (applyAll cs d).lookup n = some file) :
    d.lookup n = some file ∨ ∃ c ∈ cs, c.sets n = some file := by
  induction cs generalizing d with
  | nil => exact .inl h
  | cons c cs ih =>
    rcases ih h with hd | ⟨c', hc', hset⟩
    · rw [lookup_apply] at hd
      cases hsets : c.sets n with
      | some file' =>
        simp only [hsets] at hd
        exact .inr ⟨c, List.mem_cons_self, hsets.trans hd⟩
      | none =>
        simp only [hsets] at hd
        split_ifs at hd
        exact .inl hd
    · exact .inr ⟨c', List.mem_cons_of_mem c hc', hset⟩

/-! ### Disks -/

/-- A file: what it holds, whether that was synced, and the name it was created under. -/
structure File (N C : Type*) where
  content : C
  synced : Bool
  born : N

/-- A disk with one directory. -/
structure Disk (N C : Type*) [DecidableEq N] where
  /-- The entries of the last completed sync. -/
  durable : Entries N
  /-- The changes since then. -/
  pending : List (Change N)
  /-- The files by their numbers. -/
  files : List (File N C)

namespace Disk

def empty : Disk N C := ⟨∅, [], []⟩

/-- The entries that processes see. -/
def entries (disk : Disk N C) : Entries N := applyAll disk.pending disk.durable

/-- What a file holds. -/
def content (disk : Disk N C) (file : ℕ) : Option C := (disk.files[file]?).map File.content

def change (disk : Disk N C) (c : Change N) : Disk N C := { disk with pending := disk.pending ++ [c] }

/-- Creates a file under a name. -/
def create (disk : Disk N C) (name : N) (content : C) : Disk N C :=
  { disk with
    pending := disk.pending ++ [.create name disk.files.length]
    files := disk.files ++ [⟨content, false, name⟩] }

/-- Writes what a file holds from now on. -/
def write (disk : Disk N C) (file : ℕ) (content : C) : Disk N C :=
  { disk with
    files := disk.files.modify file fun f => { f with content := content, synced := false } }

/-- Syncs the content of a file. -/
def fsync (disk : Disk N C) (file : ℕ) : Disk N C :=
  { disk with files := disk.files.modify file fun f => { f with synced := true } }

/-- Syncs the entries. -/
def syncDir (disk : Disk N C) : Disk N C := { disk with durable := disk.entries, pending := [] }

/-- A power loss: some of the changes since the last sync are kept, and what was not synced holds
anything. -/
def lose (disk : Disk N C) (kept : List (Change N)) (garbage : ℕ → C) : Disk N C :=
  { durable := applyAll kept disk.durable
    pending := []
    files := disk.files.mapIdx fun i f =>
      if f.synced then f else { f with content := garbage i, synced := true } }

variable (disk : Disk N C)

@[simp] theorem entries_change (c : Change N) : (disk.change c).entries = c.apply disk.entries :=
  applyAll_append_singleton _ _ _

@[simp] theorem entries_create (name : N) (content : C) :
    (disk.create name content).entries = disk.entries.insert name disk.files.length :=
  applyAll_append_singleton _ _ _

end Disk

end Tack.Lib.CrashDir

import Tack.Search.ProjectionDigest

/-!
# The rescan of an organization

A change of metadata asks for new content or access work of the nodes that it touches.  One rescan serves
all requests: it first reads the property definitions and node types, then the nodes, page by page.  A
request that arrives during the node pass makes the pass go around: after the last node it starts again
and ends where it stood when the request came.  A request that recomputes the projection starts the
metadata pass over.

## Main definitions

* `Search.ScanRecord` — the checkpoint of a rescan.
* `Search.mergeScanRequest`, `Search.requestSearchRescan` — one more request.
* `Search.restartProjectionPass` — the metadata pass with a sum of zero.
* `Search.advanceScan` — the checkpoint after one page of nodes.

## Main results

* `Search.mergeScanRequest_eq` — a request changes only what is selected.
-/

namespace Tack.Search

open Lib

/-! ### The checkpoint -/

/-- The phase of a rescan with its cursor, the last key that was read. -/
inductive ScanPosition (Key : Type)
  | definitions (cursor : Option UUID)
  | types (cursor : Option UUID)
  | nodes (cursor : Option Key)
  deriving DecidableEq

/-- A projection that the metadata pass recomputes: the sum over what the pass has read, and the metadata
epoch at its start. -/
structure ProjectionTarget where
  renderer : ℕ
  format : ℕ
  sum : String
  epoch : ℕ
  deriving DecidableEq

structure ScanRecord (Key : Type) where
  position : ScanPosition Key
  stop : Option Key
  wrapped : Bool
  content : Bool
  names : List String
  typeKeys : List String
  features : List String
  access : Bool
  projection : Option ProjectionTarget
  deriving DecidableEq

structure RescanRequest where
  allContent : Bool
  names : List String
  typeKeys : List String
  features : List String
  access : Bool
  projection : Bool
  deriving DecidableEq

def maxRescanNames : ℕ := 64

def maxSearchScanNodes : ℕ := 100

variable {Key : Type}

/-- The first checkpoint of a rescan. -/
def ScanRecord.initial : ScanRecord Key where
  position := .definitions none
  stop := none
  wrapped := false
  content := false
  names := []
  typeKeys := []
  features := []
  access := false
  projection := none

/-- The scan schedules content work for every node. -/
def ScanRecord.allContent (state : ScanRecord Key) : Bool :=
  state.content && state.names.isEmpty && state.typeKeys.isEmpty

def selectAllContent (state : ScanRecord Key) : ScanRecord Key :=
  { state with content := true, names := [], typeKeys := [], features := [] }

/-- The sorted distinct values of both lists; an empty name is not added. -/
def mergeNames (current added : List String) : List String :=
  let merged := added.foldl
    (fun merged name => if name ≠ "" ∧ name ∉ merged then merged ++ [name] else merged) current
  merged.mergeSort fun a b => decide (a ≤ b)

def mergeScanRequest (state : ScanRecord Key) (request : RescanRequest) : ScanRecord Key :=
  let state := { state with access := state.access || request.access }
  let selective := !request.names.isEmpty || !request.typeKeys.isEmpty && !request.features.isEmpty
  if request.allContent || state.allContent then selectAllContent state
  else if !selective then state
  else
    let state := { state with content := true, names := mergeNames state.names request.names }
    let state :=
      if request.features.isEmpty then state
      else { state with
        typeKeys := mergeNames state.typeKeys request.typeKeys
        features := mergeNames state.features request.features }
    if state.names.length > maxRescanNames ∨ state.typeKeys.length > maxRescanNames ∨
        state.features.length > maxRescanNames then selectAllContent state
    else state

def restartProjectionPass (state : ScanRecord Key) (epoch : ℕ) : ScanRecord Key :=
  { state with
    position := .definitions none
    projection := some ⟨searchRendererVersion, searchProjectionFormat,
      String.ofList (hexEncode (sumContributions [] none none)), epoch⟩ }

/-! ### Requests -/

/-- The rescan of an organization: the counter of its requests and the checkpoint while one is pending. -/
structure RescanState (Key : Type) where
  generation : ℕ
  scan : Option (ScanRecord Key)
  deriving DecidableEq

/-- The checkpoint that a request continues.  A pass over the nodes goes around to where it stands. -/
def ScanRecord.continued : Option (ScanRecord Key) → ScanRecord Key
  | none => .initial
  | some state =>
    match state.position with
    | .nodes cursor => { state with stop := cursor, wrapped := false }
    | .definitions _ | .types _ => state

def requestSearchRescan (epoch : ℕ) (request : RescanRequest) (s : RescanState Key) :
    Option (RescanState Key) :=
  if s.generation = maxCounter then none
  else
    let state := mergeScanRequest (ScanRecord.continued s.scan) request
    let state := if request.projection then restartProjectionPass state epoch else state
    some ⟨s.generation + 1, some state⟩

/-- **A request changes only what is selected.** -/
theorem mergeScanRequest_eq (state : ScanRecord Key) (request : RescanRequest) :
    ∃ content names typeKeys features access, mergeScanRequest state request =
      { state with content, names, typeKeys, features, access } := by
  unfold mergeScanRequest
  dsimp only
  split_ifs <;> exact ⟨_, _, _, _, _, rfl⟩

/-! ### The node pass -/

/-- One page of a scan over the nodes. -/
structure ScanResult (Key : Type) where
  nodes : List Key
  nextCursor : Option Key
  done : Bool
  deriving DecidableEq

variable [LinearOrder Key]

/-- The page ends at or after the stop; the last page has no next cursor. -/
def scanPassedStop (next stop : Option Key) : Bool :=
  match next, stop with
  | none, _ => true
  | some _, none => true
  | some next, some stop => decide (stop ≤ next)

/-- The checkpoint after one page of nodes; `none` when the rescan is finished. -/
def advanceScan (state : ScanRecord Key) (scan : ScanResult Key) : Option (ScanRecord Key) :=
  if state.wrapped then
    if scan.done || scanPassedStop scan.nextCursor state.stop then none
    else some { state with position := .nodes scan.nextCursor }
  else if !scan.done then some { state with position := .nodes scan.nextCursor }
  else if state.stop.isNone then none
  else some { state with position := .nodes none, wrapped := true }

end Tack.Search

import Mathlib
import Tack.Lib.FirstSeen
import Tack.Lib.Table
import Tack.Lib.Uuid
import Tack.SearchAccess.Filter

/-!
# Pages of a ranked search

A search reads its ranked hits from a snapshot in batches and returns them in pages.  A node may have
many hits; a session keeps the nodes that it consumed and the sort position of the last consumed hit,
and a page stops before a node that does not fit any more.

## Main definitions

* `Search.SearchQuerySettings` — the limits, with what their validation checks.
* `Search.readBatch`, `Search.consumeBatch`, `Search.admitSummary` — what a page is made of.
* `Search.Progress`, `Search.nextRead` — the reads of a page, one batch at a time.
* `Search.SessionRecord`, `Search.commitPage` — the session and the commit of a page.
* `Search.replayResults` — a page made again from its commit.
-/

namespace Tack.Search

open Lib

/-! ### Settings -/

def searchBatchMaximum : ℕ := 100

def searchBatchCountMaximum : ℕ := 4

def searchResultMaximum : ℕ := 25

def searchResponseByteMinimum : ℕ := 1024

def searchResponseByteMaximum : ℕ := 2 ^ 20

/-- The limits of a search that `Validate` accepts. -/
structure SearchQuerySettings where
  maxResponseBytes : ℕ
  batchSize : ℕ
  maxBatches : ℕ
  maxResults : ℕ
  responseBytes : searchResponseByteMinimum ≤ maxResponseBytes ∧ maxResponseBytes ≤ searchResponseByteMaximum
  batches : 1 ≤ batchSize ∧ batchSize ≤ searchBatchMaximum ∧ 1 ≤ maxBatches ∧
    maxBatches ≤ searchBatchCountMaximum
  results : 1 ≤ maxResults ∧ maxResults ≤ searchResultMaximum

/-! ### Nodes and hits -/

/-- What the summary reader finds of a stored node. -/
structure SummaryData where
  nodeType : String
  name : String
  accessKeys : List SearchAccess.Text
  deriving DecidableEq

/-- The nodes that the summary reader finds. -/
abbrev Catalog := UUID → Option SummaryData

structure Summary where
  id : UUID
  nodeType : String
  name : String
  deriving DecidableEq

/-- Who searches, and for which type of node; the empty type stands for all. -/
structure Caller where
  filter : SearchAccess.AccessFilter
  nodeType : String

/-- A hit of the ranking with its sort position. -/
structure RankHit (P : Type) where
  nodeId : UUID
  sort : P

def resultOverheadBytes : ℕ := 160

def responseReserveBytes : ℕ := 512

def resultBytes (summary : Summary) : ℕ :=
  summary.name.utf8ByteSize + summary.nodeType.utf8ByteSize + resultOverheadBytes

/-- The summary of a node that the caller may see. -/
def accepted (catalog : Catalog) (caller : Caller) (nodeId : UUID) : Option Summary :=
  match catalog nodeId with
  | none => none
  | some data =>
    if caller.filter.permits data.accessKeys &&
        (caller.nodeType == "" || data.nodeType == caller.nodeType) then
      some ⟨nodeId, data.nodeType, data.name⟩
    else none

/-! ### A page -/

variable {P : Type}

/-- The progress of one page.  The nodes of `visited` are the ones that the page has seen. -/
structure PageState (P : Type) where
  results : List Summary
  visited : List UUID
  bytes : ℕ
  position : Option P
  full : Bool
  /-- The page stops with hits after its position. -/
  pending : Bool

def PageState.init (position : Option P) : PageState P :=
  ⟨[], [], responseReserveBytes, position, false, false⟩

/-- The hits after a sort position. -/
def hitsAfter [LinearOrder P] (hits : List (RankHit P)) : Option P → List (RankHit P)
  | none => hits
  | some position => hits.filter fun hit => decide (position < hit.sort)

/-- The next hits of the snapshot after a position. -/
def readBatch [LinearOrder P] (settings : SearchQuerySettings) (hits : List (RankHit P))
    (position : Option P) : List (RankHit P) :=
  (hitsAfter hits position).take settings.batchSize

/-- Adds a summary to a page; `none` when it has to wait for the next page.  A summary that fits on no
page is withheld. -/
def admitSummary (settings : SearchQuerySettings) (page : PageState P) (summary : Summary) :
    Option (PageState P) :=
  let size := resultBytes summary
  if responseReserveBytes + size > settings.maxResponseBytes then some page
  else if page.results.length ≥ settings.maxResults ∨ page.bytes + size > settings.maxResponseBytes then
    none
  else some { page with results := page.results ++ [summary], bytes := page.bytes + size }

/-- Adds a node to a page; a node that is not accepted is consumed without a result. -/
def admitNode (settings : SearchQuerySettings) (catalog : Catalog) (caller : Caller) (page : PageState P)
    (nodeId : UUID) : Option (PageState P) :=
  match accepted catalog caller nodeId with
  | some summary => admitSummary settings page summary
  | none => some page

/-- The loop over the hits of a batch: `visited` are the nodes that the session has consumed. -/
def consumeHits (settings : SearchQuerySettings) (catalog : Catalog) (caller : Caller)
    (visited : List UUID) : List (RankHit P) → PageState P → PageState P
  | [], page => page
  | hit :: rest, page =>
    if hit.nodeId ∈ page.visited ∨ hit.nodeId ∈ visited then
      consumeHits settings catalog caller visited rest { page with position := some hit.sort }
    else
      match admitNode settings catalog caller page hit.nodeId with
      | none => { page with full := true, pending := true }
      | some page =>
        let page := { page with visited := page.visited ++ [hit.nodeId], position := some hit.sort }
        if page.results.length ≥ settings.maxResults then
          { page with full := true, pending := !rest.isEmpty }
        else consumeHits settings catalog caller visited rest page

inductive SearchError
  | tooManyVisited
  | tooManySummaries
  | pageTooLarge
  | sessionNotFound
  | sessionChanged
  | sessionExpired
  | sessionMismatch
  deriving DecidableEq

/-- The visited IDs that one page commit writes at most. -/
def maxSessionVisitedIDs : ℕ := 400

/-- The result IDs that one replay record stores at most. -/
def maxSessionResultIDs : ℕ := 25

/-- The bytes of a stored position and its point-in-time ID at most. -/
def maxSessionPositionBytes : ℕ := 8 * 1024

/-- The nodes that one read of summaries takes at most. -/
def maxSummaryBatch : ℕ := 100

/-- The nodes of a batch that the page has not seen. -/
def candidates (batch : List (RankHit P)) (page : PageState P) : List UUID :=
  firstSeen page.visited (batch.map RankHit.nodeId)

/-- Consumes a batch.  The visited records and the summaries are read with one call each, and each of
the reads has its bound. -/
def consumeBatch (settings : SearchQuerySettings) (catalog : Catalog) (caller : Caller)
    (visited : List UUID) (batch : List (RankHit P)) (page : PageState P) :
    Except SearchError (PageState P) :=
  if (candidates batch page).length > maxSessionVisitedIDs then .error .tooManyVisited
  else if ((candidates batch page).filter fun nodeId => nodeId ∉ visited).length > maxSummaryBatch then
    .error .tooManySummaries
  else .ok (consumeHits settings catalog caller visited batch page)

/-- A page that is read: the batches that are left, or the page with its completion. -/
inductive Progress (P : Type)
  | reading (page : PageState P) (remaining : ℕ)
  | ready (page : PageState P) (complete : Bool)

def Progress.init (settings : SearchQuerySettings) (position : Option P) : Progress P :=
  .reading (.init position) settings.maxBatches

/-- The next read of a page.  A full page that consumed its batch looks for one more hit. -/
def nextRead [LinearOrder P] (settings : SearchQuerySettings) (hits : List (RankHit P))
    (catalog : Catalog) (caller : Caller) (visited : List UUID) : Progress P → Except SearchError (Progress P)
  | .ready page complete => .ok (.ready page complete)
  | .reading page 0 => .ok (.ready page false)
  | .reading page (remaining + 1) =>
    let batch := readBatch settings hits page.position
    if page.full then .ok (.ready page (!page.pending && batch.isEmpty))
    else if batch.isEmpty then .ok (.ready page true)
    else do
      let page ← consumeBatch settings catalog caller visited batch page
      return .reading page remaining

/-! ### The session -/

structure Replay where
  resultIDs : List UUID
  complete : Bool
  deriving DecidableEq

structure SessionRecord (P : Type) where
  version : ℕ
  sort : Option P
  complete : Bool
  closing : Bool
  /-- The nodes with a visited record. -/
  visited : List UUID
  replays : Table ℕ Replay

def SessionRecord.init : SessionRecord P := ⟨0, none, false, false, [], .empty⟩

/-- The consumed position, the point-in-time ID of the index, and the response of one page. -/
structure PageCommit (P : Type) where
  sort : Option P
  /-- The length of the encoded position. -/
  sortBytes : ℕ
  pitId : String
  visited : List UUID
  resultIDs : List UUID
  complete : Bool

/-- What a finished page stores. -/
def PageState.commit (page : PageState P) (complete : Bool) (sortBytes : ℕ) (pitId : String) : PageCommit P :=
  ⟨page.position, sortBytes, pitId, page.visited, page.results.map Summary.id, complete⟩

/-- The session after a page. -/
def applyPageCommit (stored : SessionRecord P) (commit : PageCommit P) : SessionRecord P :=
  { stored with
    version := stored.version + 1
    sort := commit.sort
    complete := commit.complete
    visited := stored.visited ++ commit.visited
    replays := (if stored.version = 0 then stored.replays else stored.replays.erase (stored.version - 1)).set
      stored.version ⟨commit.resultIDs, commit.complete⟩ }

/-- Commits the page of a version; `expired` says that a deadline of the session has passed. -/
def commitPage (session : Option (SessionRecord P)) (version : ℕ) (commit : PageCommit P)
    (expired : Bool) : Except SearchError (SessionRecord P) :=
  if commit.visited.length > maxSessionVisitedIDs ∨ commit.resultIDs.length > maxSessionResultIDs ∨
      commit.sortBytes + commit.pitId.utf8ByteSize > maxSessionPositionBytes ∨ commit.pitId = "" then
    .error .pageTooLarge
  else match session with
    | none => .error .sessionNotFound
    | some stored =>
      if stored.version ≠ version then .error .sessionChanged
      else if stored.closing ∨ expired then .error .sessionExpired
      else .ok (applyPageCommit stored commit)

/-- The results of a replay: the committed nodes that the caller still sees and that still fit. -/
def replayResults (settings : SearchQuerySettings) (catalog : Catalog) (caller : Caller) :
    ℕ → List UUID → List Summary
  | _, [] => []
  | used, nodeId :: rest =>
    match accepted catalog caller nodeId with
    | none => replayResults settings catalog caller used rest
    | some summary =>
      if used + resultBytes summary > settings.maxResponseBytes then
        replayResults settings catalog caller used rest
      else summary :: replayResults settings catalog caller (used + resultBytes summary) rest

end Tack.Search

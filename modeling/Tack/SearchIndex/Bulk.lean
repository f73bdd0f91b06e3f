import Tack.SearchIndex.Documents

/-!
# Bulk requests

Operations are sent in bulk requests of bounded size, in order.  The results of a request are matched with
its operations, and the first one that is not accepted ends the submission.

## Main definitions

* `SearchIndex.BulkAction.encoded` — the two lines of an action.
* `SearchIndex.nextBulkRequest` — how many operations the next request takes.
* `SearchIndex.bulkItemOutcomeFor`, `SearchIndex.checkBulkItems` — the results of a request.

## Main results

* `SearchIndex.checkBulkItems_ok` — the counted operations were accepted one by one.
-/

namespace Tack.SearchIndex

open Lib

/-! ### Encoding -/

def PageAccess.toJson (access : PageAccess) : Json :=
  .obj [("versions", .arr (access.versions.map .str)), ("keys", .arr (access.keys.map .str)),
    ("generation", .num (.ofInt access.generation))]

def StoredPage.toJson : StoredPage → Json
  | .active fields generation access =>
    .obj [("node_id", .str fields.nodeId), ("node_type", .str fields.nodeType),
      ("node_revision", .str fields.nodeRevision), ("projection_version", .str fields.projectionVersion),
      ("page_ordinal", .num (.ofInt fields.pageOrdinal)), ("name", .str fields.name),
      ("page_text", .str fields.pageText), ("retired", .bool false),
      ("search_generation", .num (.ofInt generation)), ("access", access.toJson)]
  | .retired nodeId nodeRevision pageOrdinal generation =>
    .obj [("node_id", .str nodeId), ("node_revision", .str nodeRevision),
      ("page_ordinal", .num (.ofInt pageOrdinal)), ("retired", .bool true),
      ("search_generation", .num (.ofInt generation))]

/-- The header line of an action. -/
def BulkAction.header : BulkAction → Json
  | .create name id _ => .obj [("create", .obj [("_index", .str name), ("_id", .str id)])]
  | .index name id seqNo primaryTerm _ =>
    .obj [("index", .obj [("_index", .str name), ("_id", .str id), ("if_seq_no", .num (.ofInt seqNo)),
      ("if_primary_term", .num (.ofInt primaryTerm))])]
  | .update name id _ _ =>
    .obj [("update", .obj [("_index", .str name), ("_id", .str id),
      ("retry_on_conflict", .num (.ofInt accessRetryOnConflict))])]

/-- The document line of an action. -/
def BulkAction.document : BulkAction → Json
  | .create _ _ page => page.toJson
  | .index _ _ _ _ page => page.toJson
  | .update _ _ generation access =>
    .obj [("script", .obj [("source", .str accessUpdateScript), ("lang", .str "painless"),
      ("params", .obj [("generation", .num (.ofInt generation)), ("access", access.toJson),
        ("stale_marker", .str staleGenerationMarker)])])]

def BulkAction.encoded (action : BulkAction) : List Byte :=
  utf8 (action.header.render ++ '\n' :: action.document.render ++ ['\n'])

/-! ### Requests -/

def maxBulkDocuments : ℕ := 500

def maxBulkBytes : ℕ := 5 * 2 ^ 20

/-- The number of operations of a request that already holds `count` operations of `size` bytes. -/
def bulkRequestCount (count size : ℕ) : List BulkAction → ℕ
  | [] => count
  | action :: rest =>
    if maxBulkDocuments - 1 ≤ count ∨ (0 < count ∧ maxBulkBytes ≤ size + action.encoded.length) then count
    else bulkRequestCount (count + 1) (size + action.encoded.length) rest

/-- The number of operations of the next request. -/
def nextBulkRequest (operations : List BulkAction) : ℕ := bulkRequestCount 0 0 operations

theorem bulkRequestCount_bounds (operations : List BulkAction) (count size : ℕ) :
    count ≤ bulkRequestCount count size operations ∧
      bulkRequestCount count size operations ≤ count + operations.length := by
  induction operations generalizing count size with
  | nil => exact ⟨le_rfl, le_rfl⟩
  | cons action rest ih =>
    rw [bulkRequestCount, List.length_cons]
    split_ifs
    · omega
    · have hrest := ih (count + 1) (size + action.encoded.length)
      omega

theorem nextBulkRequest_le (operations : List BulkAction) :
    nextBulkRequest operations ≤ operations.length := by
  have hbounds := (bulkRequestCount_bounds operations 0 0).2
  rwa [Nat.zero_add] at hbounds

/-! ### Results -/

/-- The cause of a failed item. -/
inductive ErrorCause
  | mk (type : String) (reason : Option String) (causedBy : Option ErrorCause)

structure BulkItem where
  id : Option String
  status : ℕ
  error : Option ErrorCause

/-- One row of a response, with a field for every kind of action. -/
structure BulkRow where
  create : Option BulkItem
  delete : Option BulkItem
  index : Option BulkItem
  update : Option BulkItem

/-- The items of a row, in the order in which they are collected. -/
def BulkRow.items (row : BulkRow) : List BulkItem :=
  [row.create, row.delete, row.index, row.update].filterMap id

inductive BulkPolicy
  /-- Only a successful write is accepted. -/
  | guarded
  /-- A missing document is accepted too. -/
  | access
  deriving DecidableEq

inductive BulkItemOutcome
  | accepted
  | obsolete
  | conflict
  | rejected
  deriving DecidableEq

/-- `strings.Contains`. -/
def containsText (text part : String) : Bool := text.toList.tails.any fun rest => part.toList.isPrefixOf rest

/-- The reason of one of the first causes contains the marker. -/
def causeHasMarker : ℕ → Option ErrorCause → Bool
  | 0, _ => false
  | _, none => false
  | depth + 1, some (.mk _ reason causedBy) =>
    reason.any (fun text => containsText text staleGenerationMarker) || causeHasMarker depth causedBy

def hasStaleGenerationMarker (item : BulkItem) : Bool := causeHasMarker 3 item.error

/-- The engine says that it applied the operation. -/
def BulkItem.succeeded (item : BulkItem) : Bool :=
  item.error.isNone && 200 ≤ item.status && item.status < 300

def bulkItemOutcomeFor (item : BulkItem) (documentID : String) (policy : BulkPolicy) : BulkItemOutcome :=
  if item.id ≠ some documentID then .rejected
  else if item.succeeded then .accepted
  else if policy = .access ∧ item.status = 404 then .accepted
  else if policy = .access ∧ hasStaleGenerationMarker item then .obsolete
  else if policy = .guarded ∧ item.status = 409 then .conflict
  else .rejected

/-- Why a page write ends before its last page. -/
inductive WriteError
  | targetMissing
  | textInvalid
  /-- The multi-get fails. -/
  | readFailed
  /-- The bulk request has no answer. -/
  | requestFailed
  | itemsInvalid
  | rejected (documentID : String)
  /-- `ErrObsoleteWrite` -/
  | obsolete (documentID : String)
  /-- `ErrConcurrentWrite` -/
  | concurrent (documentID : String)
  /-- `ErrPageWritePending` -/
  | pending (documentID : String)
  deriving DecidableEq

/-- The accepted items before the first one that is not accepted. -/
def checkItems (policy : BulkPolicy) : List BulkItem → List BulkAction → ℕ × Option WriteError
  | item :: items, operation :: operations =>
    match bulkItemOutcomeFor item operation.documentID policy with
    | .accepted =>
      let rest := checkItems policy items operations
      (rest.1 + 1, rest.2)
    | .obsolete => (0, some (.obsolete (item.id.getD "")))
    | .conflict => (0, some (.concurrent (item.id.getD "")))
    | .rejected => (0, some (.rejected operation.documentID))
  | _, _ => (0, none)

def checkBulkItems (rows : List BulkRow) (operations : List BulkAction) (policy : BulkPolicy) :
    ℕ × Option WriteError :=
  let items := rows.flatMap BulkRow.items
  if items.length ≠ operations.length then (0, some .itemsInvalid) else checkItems policy items operations

theorem checkItems_ok {policy : BulkPolicy} {items : List BulkItem} {operations : List BulkAction}
    (hlength : items.length = operations.length) {count : ℕ} {error : Option WriteError}
    (h : checkItems policy items operations = (count, error)) :
    count ≤ operations.length ∧ (error = none → count = operations.length) ∧ ∀ k < count, ∃ item operation,
      items[k]? = some item ∧ operations[k]? = some operation ∧
      bulkItemOutcomeFor item operation.documentID policy = .accepted := by
  induction items generalizing operations count with
  | nil =>
    obtain rfl := List.length_eq_zero_iff.mp hlength.symm
    cases h
    exact ⟨le_rfl, fun _ => rfl, fun k hk => absurd hk (Nat.not_lt_zero k)⟩
  | cons item items ih =>
    cases operations with
    | nil => cases hlength
    | cons operation operations =>
      rw [checkItems] at h
      split at h
      next houtcome =>
        cases h
        obtain ⟨hle, hnone, hall⟩ := ih (Nat.succ.inj hlength) rfl
        refine ⟨Nat.succ_le_succ hle, fun herror => congrArg Nat.succ (hnone herror), fun k hk => ?_⟩
        cases k with
        | zero => exact ⟨item, operation, rfl, rfl, houtcome⟩
        | succ k => exact hall k (Nat.lt_of_succ_lt_succ hk)
      all_goals
        cases h
        exact ⟨Nat.zero_le _, fun herror => absurd herror (Option.some_ne_none _),
          fun k hk => absurd hk (Nat.not_lt_zero k)⟩

/-- **The counted operations were accepted one by one**, and all of them when there is no error. -/
theorem checkBulkItems_ok {policy : BulkPolicy} {rows : List BulkRow} {operations : List BulkAction}
    {count : ℕ} {error : Option WriteError} (h : checkBulkItems rows operations policy = (count, error)) :
    count ≤ operations.length ∧ (error = none → count = operations.length) ∧ ∀ k < count, ∃ item operation,
      (rows.flatMap BulkRow.items)[k]? = some item ∧ operations[k]? = some operation ∧
      bulkItemOutcomeFor item operation.documentID policy = .accepted := by
  rw [checkBulkItems] at h
  split_ifs at h with hlength
  · cases h
    exact ⟨Nat.zero_le _, fun herror => absurd herror (Option.some_ne_none _),
      fun k hk => absurd hk (Nat.not_lt_zero k)⟩
  · exact checkItems_ok (not_not.mp hlength) h

/-- An operation that is accepted under the guarded policy was applied, as the engine says. -/
theorem succeeded_of_guarded {item : BulkItem} {documentID : String}
    (h : bulkItemOutcomeFor item documentID .guarded = .accepted) :
    item.id = some documentID ∧ item.succeeded = true := by
  rw [bulkItemOutcomeFor] at h
  split_ifs at h with hid hsucceeded hmissing
  · exact ⟨not_not.mp hid, hsucceeded⟩
  · exact absurd hmissing.1 (by decide)

end Tack.SearchIndex

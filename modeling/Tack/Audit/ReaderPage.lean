import Mathlib
import Tack.Audit.ChainAppend
import Tack.Lib.Base64
import Tack.Lib.Decimal
import Tack.Lib.Keyset
import Tack.Lib.ParseTime

/-!
# Reading the ledger in pages

`QueryPage` returns the newest matching rows and a cursor that holds the time and the sequence number
of the last of them; the next call resumes below that pair.  Sequence numbers are those of one chain
each, so rows of different shards of an organization can have the same pair.

## Main definitions

* `Audit.QueryFilter`, `Audit.matchesColumns` — a filter, and the rows that its statement selects.
* `Audit.marshalQueryCursor`, `Audit.unmarshalQueryCursor` — the opaque cursor.
* `Audit.queryPage`, `Audit.queryAll` — one page, and the pages up to an empty cursor.

## Main results

* `Audit.unmarshalQueryCursor_marshalQueryCursor` — a cursor is read back when its year has four
  digits.
* `Audit.pages_exactly_once_iff` — paging returns every matching row exactly once exactly when every
  full page ends between two different pairs, at a time that a cursor keeps.
-/

namespace Tack.Audit

open Lib

/-! ### Filters -/

structure QueryFilter where
  orgId : UUID
  oldest : Time
  latest : Time
  action : String
  actorId : UUID
  entityId : UUID
  requestId : String
  traceId : String
  limit : ℤ
  /-- Only rows strictly before this time and sequence number return; a zero time disables it. -/
  beforeTime : Time
  beforeSeq : Int64
  /-- Asks for the rows stored under the nil organization. -/
  nilOrg : Bool

/-- Why a page is refused. -/
inductive QueryError
  /-- The nil organization set beside an organization. -/
  | nilOrgBeside (orgId : UUID)
  | orgIdRequired
  /-- The oldest and the latest time are required. -/
  | rangeRequired
  /-- The cursor is not base 64. -/
  | cursorEncoding
  /-- The cursor is not one of a previous page. -/
  | cursorShape
  | cursorTime
  | cursorSeq
  deriving DecidableEq, Repr

def QueryFilter.validate (f : QueryFilter) : Except QueryError Unit :=
  if f.nilOrg ∧ f.orgId ≠ .nil then .error (.nilOrgBeside f.orgId)
  else if f.orgId = .nil ∧ !f.nilOrg then .error .orgIdRequired
  else if f.oldest.isZero ∨ f.latest.isZero then .error .rangeRequired
  else .ok ()

/-! ### The statement -/

/-- The order of the statement: the time, then the sequence number. -/
abbrev RowKey := ℤ ×ₗ ℤ

def rowKey (row : Row) : RowKey := toLex (row.eventTime.nanos, row.seq.toInt)

/-- A time as the driver binds it, in microseconds. -/
def timestamp (t : Time) : ℤ := (t.truncate Time.microsecond).nanos

/-- The conditions of the statement that compare one column each. -/
def matchesColumns (f : QueryFilter) (row : Row) : Bool :=
  row.orgId == f.orgId && decide (timestamp f.oldest ≤ row.eventTime.nanos) &&
    decide (row.eventTime.nanos < timestamp f.latest) &&
    (f.action == "" || row.action == f.action) &&
    (f.actorId == .nil || row.actorId == f.actorId) &&
    (f.entityId == .nil || row.entityId == f.entityId) &&
    (f.requestId == "" || row.context.requestId == f.requestId) &&
    (f.traceId == "" || row.context.traceId == f.traceId)

/-- The pair that the rows of a filter stand below, if it has one. -/
def QueryFilter.before (f : QueryFilter) : Option RowKey :=
  if f.beforeTime.isZero then none else some (toLex (timestamp f.beforeTime, f.beforeSeq.toInt))

/-- The rows that the statement of a filter selects. -/
def matchingRows (ledger : Ledger) (f : QueryFilter) : List Row :=
  below rowKey (ledger.events.filter (matchesColumns f)) f.before

def defaultQueryPageLimit : ℕ := 100

def maxQueryPageLimit : ℕ := 1000

/-! ### Cursors -/

def queryCursorSeparator : Char := '|'

def marshalQueryCursor (eventTime : Time) (seq : Int64) : String :=
  String.ofList (base64RawURLEncode (utf8 (eventTime.utc.rfc3339Nano.toList ++
    queryCursorSeparator :: formatInt64 seq)))

/-- `strings.Cut`: the parts before and after the first separator. -/
def cutAt (c : Char) : List Char → Option (List Char × List Char)
  | [] => none
  | d :: rest => if d = c then some ([], rest) else (cutAt c rest).map fun r => (d :: r.1, r.2)

def unmarshalQueryCursor (cursor : String) : Except QueryError (Time × Int64) :=
  match base64RawURLDecode cursor.toList with
  | none => .error .cursorEncoding
  | some raw =>
    match cutAt queryCursorSeparator (utf8Decode raw) with
    | none => .error .cursorShape
    | some (timePart, seqPart) =>
      match Time.parseRFC3339Nano timePart with
      | none => .error .cursorTime
      | some beforeTime =>
        match parseInt64 seqPart with
        | none => .error .cursorSeq
        | some beforeSeq => .ok (beforeTime, beforeSeq)

/-! ### Pages -/

structure Page where
  rows : List Row
  /-- Nonempty exactly when the page filled. -/
  nextCursor : String

section Pages

variable (ledger : Ledger) (ties : TieBreaking rowKey)

/-- `Reader.Query`, as the query number `n` of a reader.  The database orders rows with equal keys as
it likes, for each query anew. -/
def query (n : ℕ) (f : QueryFilter) : Except QueryError (List Row) :=
  match f.validate with
  | .error e => .error e
  | .ok _ =>
    let limit := if f.limit ≤ 0 then defaultQueryPageLimit else f.limit.toNat
    .ok ((ties.order n (matchingRows ledger f)).take limit)

/-- The limit of a page. -/
def clampLimit (limit : ℤ) : ℕ :=
  if limit ≤ 0 then defaultQueryPageLimit
  else if limit > maxQueryPageLimit then maxQueryPageLimit
  else limit.toNat

/-- The filter that a cursor makes of a filter. -/
def resumeFilter (f : QueryFilter) (cursor : String) : Except QueryError QueryFilter :=
  if cursor = "" then .ok f
  else (unmarshalQueryCursor cursor).map fun r => { f with beforeTime := r.1, beforeSeq := r.2 }

def queryPage (n : ℕ) (f : QueryFilter) (cursor : String) : Except QueryError Page :=
  let f := { f with limit := clampLimit f.limit }
  match resumeFilter f cursor with
  | .error e => .error e
  | .ok f =>
    match query ledger ties n f with
    | .error e => .error e
    | .ok rows =>
      if (rows.length : ℤ) = f.limit then
        match rows.getLast? with
        | none => .ok ⟨rows, ""⟩
        | some last => .ok ⟨rows, marshalQueryCursor last.eventTime last.seq⟩
      else .ok ⟨rows, ""⟩

/-- The pages from a cursor up to an empty one; `none` when the fuel does not suffice. -/
def queryAll (f : QueryFilter) : ℕ → ℕ → String → Option (Except QueryError (List Row))
  | 0, _, _ => none
  | fuel + 1, n, cursor =>
    match queryPage ledger ties n f cursor with
    | .error e => some (.error e)
    | .ok page =>
      if page.nextCursor = "" then some (.ok page.rows)
      else (queryAll f fuel (n + 1) page.nextCursor).map fun rest => rest.map (page.rows ++ ·)

end Pages

/-- Paging from the empty cursor ends, and the pages hold every row that the filter matches exactly
once, the newest first, whatever the database does with equal keys. -/
def PagesExactlyOnce (ledger : Ledger) (f : QueryFilter) : Prop :=
  ∀ ties : TieBreaking rowKey, ∃ fuel rows,
    queryAll ledger ties f fuel 0 "" = some (.ok rows) ∧
      rows.Perm (matchingRows ledger f) ∧ Descending rowKey rows

/-! ### Cursors are read back -/

theorem cutAt_append {c : Char} {xs : List Char} (hx : c ∉ xs) (ys : List Char) :
    cutAt c (xs ++ c :: ys) = some (xs, ys) := by
  induction xs with
  | nil => simp [cutAt]
  | cons x xs ih =>
    obtain ⟨hne, hrest⟩ := not_or.mp (mt List.mem_cons.mpr hx)
    rw [List.cons_append, cutAt, if_neg (Ne.symm hne), ih hrest]
    rfl

/-- The text of an instant in UTC holds no separator. -/
theorem separator_notMem {t : Time} (ht : t.zone = 0) :
    queryCursorSeparator ∉ t.rfc3339Nano.toList := by
  have hdigits : ∀ w n, '|' ∉ padded w n := fun w n h =>
    absurd (isDigit_of_mem_padded h) (by decide)
  have hyear : ∀ y, '|' ∉ yearText y := by
    intro y
    unfold yearText
    split_ifs
    · simp [hdigits]
    · exact hdigits _ _
  have hfraction : ∀ n, '|' ∉ fractionText n := by
    intro n
    unfold fractionText
    split_ifs
    · simp
    · intro h
      rcases List.mem_cons.mp h with h | h
      · exact absurd h (by decide)
      · obtain ⟨k, hk⟩ := exists_trimZeros_append (padded 9 n)
        exact hdigits 9 n (hk ▸ List.mem_append_left _ h)
  rw [Time.rfc3339Nano_of_utc ht, dateText, clockText]
  simp [queryCursorSeparator, hdigits, hyear, hfraction]

/-- The text inside a cursor. -/
theorem decode_marshalQueryCursor (t : Time) (seq : Int64) :
    base64RawURLDecode (marshalQueryCursor t seq).toList =
      some (utf8 (t.utc.rfc3339Nano.toList ++ queryCursorSeparator :: formatInt64 seq)) := by
  rw [marshalQueryCursor, String.toList_ofList, base64RawURLDecode_base64RawURLEncode]

theorem marshalQueryCursor_ne_empty (t : Time) (seq : Int64) : marshalQueryCursor t seq ≠ "" := by
  intro h
  have hdecode := decode_marshalQueryCursor t seq
  rw [h] at hdecode
  have hnil : utf8 (t.utc.rfc3339Nano.toList ++ queryCursorSeparator :: formatInt64 seq) = [] :=
    (Option.some.inj hdecode).symm
  have hlen := length_le_length_utf8 (t.utc.rfc3339Nano.toList ++
    queryCursorSeparator :: formatInt64 seq)
  rw [hnil] at hlen
  simp at hlen

theorem unmarshalQueryCursor_eq (t : Time) (seq : Int64) :
    unmarshalQueryCursor (marshalQueryCursor t seq) =
      match Time.parseRFC3339Nano t.utc.rfc3339Nano.toList with
      | none => .error .cursorTime
      | some beforeTime => .ok (beforeTime, seq) := by
  have hsep : queryCursorSeparator ∉ t.utc.rfc3339Nano.toList := separator_notMem rfl
  rw [unmarshalQueryCursor, decode_marshalQueryCursor]
  simp only [utf8Decode_utf8, cutAt_append hsep, parseInt64_formatInt64]

/-- The years that a cursor keeps. -/
def HasCursor (t : Time) : Prop := 0 ≤ t.utc.date.year ∧ t.utc.date.year ≤ 9999

/-- **A cursor is read back** when its year has four digits. -/
theorem unmarshalQueryCursor_marshalQueryCursor {t : Time} (h : HasCursor t) (seq : Int64) :
    unmarshalQueryCursor (marshalQueryCursor t seq) = .ok (t.utc, seq) := by
  rw [unmarshalQueryCursor_eq, Time.parseRFC3339Nano_rfc3339Nano rfl h.1 h.2]

/-- A cursor of any other year is refused. -/
theorem unmarshalQueryCursor_eq_error {t : Time} (h : ¬ HasCursor t) (seq : Int64) :
    unmarshalQueryCursor (marshalQueryCursor t seq) = .error .cursorTime := by
  have hyear : t.utc.date.year < 0 ∨ 9999 < t.utc.date.year := by
    by_contra hnot
    push Not at hnot
    exact h hnot
  rw [unmarshalQueryCursor_eq, Time.parseRFC3339Nano_eq_none rfl hyear]

/-! ### Pages of the ledger are pages of its keys -/

/-- The bound that a cursor stands for. -/
def cursorBound (f : QueryFilter) (cursor : String) : Except QueryError (Option RowKey) :=
  (resumeFilter f cursor).map QueryFilter.before

/-- What is left of the key of a row once it went through a cursor. -/
def resumeKey (k : RowKey) : Except QueryError (Option RowKey) :=
  (unmarshalQueryCursor (marshalQueryCursor ⟨(ofLex k).1, 0⟩ (Int64.ofInt (ofLex k).2))).map fun r =>
    if r.1.isZero then none else some (toLex (timestamp r.1, r.2.toInt))

/-- A key that a cursor keeps: a time other than zero, with a year of four digits. -/
def CursorKeeps (k : RowKey) : Prop :=
  (ofLex k).1 ≠ 0 ∧ HasCursor ⟨(ofLex k).1, 0⟩

theorem clampLimit_pos (limit : ℤ) : 0 < clampLimit limit := by
  unfold clampLimit defaultQueryPageLimit maxQueryPageLimit
  split_ifs <;> omega

theorem resumeKey_rowKey (f : QueryFilter) {row : Row} (h : row.Storable) :
    cursorBound f (marshalQueryCursor row.eventTime row.seq) = resumeKey (rowKey row) := by
  have htime : (⟨row.eventTime.nanos, 0⟩ : Time) = row.eventTime := by rw [← h.1]
  rw [cursorBound, resumeFilter, if_neg (marshalQueryCursor_ne_empty _ _), resumeKey]
  simp only [rowKey, ofLex_toLex, htime, Int64.ofInt_toInt]
  cases unmarshalQueryCursor (marshalQueryCursor row.eventTime row.seq) with
  | error e => rfl
  | ok r => rfl

/-- What a cursor keeps of the key of a stored row. -/
theorem resumeKey_eq {row : Row} (h : row.Storable) : (¬ HasCursor row.eventTime ∧
      resumeKey (rowKey row) = .error .cursorTime) ∨
    (HasCursor row.eventTime ∧ resumeKey (rowKey row) =
      .ok (if row.eventTime.nanos = 0 then none else some (rowKey row))) := by
  have htime : (⟨row.eventTime.nanos, 0⟩ : Time) = row.eventTime := by rw [← h.1]
  have hstamp : timestamp row.eventTime.utc = row.eventTime.nanos := by
    rw [timestamp, Time.truncate, Time.utc]
    simp only [h.2, Int.sub_zero]
  by_cases hyear : HasCursor row.eventTime
  · refine .inr ⟨hyear, ?_⟩
    simp only [resumeKey, rowKey, ofLex_toLex, htime, Int64.ofInt_toInt,
      unmarshalQueryCursor_marshalQueryCursor hyear, Except.map, hstamp]
    by_cases hzero : row.eventTime.nanos = 0
    · simp [Time.isZero, Time.utc, hzero]
    · simp [Time.isZero, Time.utc, hzero]
  · refine .inl ⟨hyear, ?_⟩
    simp only [resumeKey, rowKey, ofLex_toLex, htime, Int64.ofInt_toInt,
      unmarshalQueryCursor_eq_error hyear, Except.map]

/-- A cursor keeps the key of a stored row exactly when it keeps its time. -/
theorem resumeKey_eq_some_iff {row : Row} (h : row.Storable) :
    resumeKey (rowKey row) = .ok (some (rowKey row)) ↔ CursorKeeps (rowKey row) := by
  have htime : (⟨row.eventTime.nanos, 0⟩ : Time) = row.eventTime := by rw [← h.1]
  have hkeeps : CursorKeeps (rowKey row) ↔ row.eventTime.nanos ≠ 0 ∧ HasCursor row.eventTime := by
    rw [CursorKeeps, rowKey, ofLex_toLex, htime]
  rw [hkeeps]
  obtain ⟨hyear, heq⟩ | ⟨hyear, heq⟩ := resumeKey_eq h
  · simp [heq, hyear]
  · by_cases hzero : row.eventTime.nanos = 0
    · simp [heq, hzero]
    · simp [heq, hyear, hzero]

section Collect

variable {ledger : Ledger} {ties : TieBreaking rowKey} {f : QueryFilter} {n fuel : ℕ}

/-- The rows that a filter selects by their columns. -/
def columnRows (ledger : Ledger) (f : QueryFilter) : List Row :=
  ledger.events.filter (matchesColumns f)

theorem storable_of_mem_columnRows {row : Row} (h : row ∈ columnRows ledger f) : row.Storable :=
  ledger.storable row (List.mem_of_mem_filter h)

/-- One page of a valid filter. -/
theorem queryPage_eq (hvalid : f.validate = .ok ()) (cursor : String) :
    queryPage ledger ties n f cursor =
      match cursorBound f cursor with
      | .error e => .error e
      | .ok bound =>
        let rows := page (clampLimit f.limit) (columnRows ledger f) ties n bound
        if rows.length = clampLimit f.limit then
          match rows.getLast? with
          | none => .ok ⟨rows, ""⟩
          | some last => .ok ⟨rows, marshalQueryCursor last.eventTime last.seq⟩
        else .ok ⟨rows, ""⟩ := by
  have hpos := clampLimit_pos f.limit
  have hquery : ∀ t s, query ledger ties n
      { f with limit := clampLimit f.limit, beforeTime := t, beforeSeq := s } =
      .ok (page (clampLimit f.limit) (columnRows ledger f) ties n
        (QueryFilter.before { f with beforeTime := t, beforeSeq := s })) := by
    intro t s
    have hv : QueryFilter.validate
        { f with limit := clampLimit f.limit, beforeTime := t, beforeSeq := s } = .ok () := hvalid
    rw [query, hv]
    simp only [if_neg (show ¬ ((clampLimit f.limit : ℕ) : ℤ) ≤ 0 by omega), Int.toNat_natCast]
    rfl
  unfold queryPage cursorBound resumeFilter
  by_cases hcursor : cursor = ""
  · simp only [hcursor, if_true]
    rw [hquery f.beforeTime f.beforeSeq]
    simp only [Nat.cast_inj]
    rfl
  · simp only [if_neg hcursor]
    cases unmarshalQueryCursor cursor with
    | error e => rfl
    | ok r =>
      simp only [Except.map]
      rw [hquery r.1 r.2]
      simp only [Nat.cast_inj]

/-- The pages of the ledger from a cursor on are those of its keys from the cursor's bound on. -/
theorem queryAll_eq_ok_iff (hvalid : f.validate = .ok ()) (cursor : String) {out : List Row} :
    queryAll ledger ties f fuel n cursor = some (.ok out) ↔
      ∃ bound, cursorBound f cursor = .ok bound ∧ collect resumeKey (clampLimit f.limit)
        (columnRows ledger f) ties fuel n bound = some (.ok out) := by
  induction fuel generalizing n cursor out with
  | zero => simp [queryAll, collect]
  | succ fuel ih =>
    rw [queryAll, queryPage_eq hvalid]
    cases hbound : cursorBound f cursor with
    | error e => simp
    | ok bound =>
      simp only [Except.ok.injEq, exists_eq_left', collect]
      generalize hrows : page (clampLimit f.limit) (columnRows ledger f) ties n bound = rows
      by_cases hfull : rows.length = clampLimit f.limit
      · simp only [if_pos hfull]
        cases hlast : rows.getLast? with
        | none => simp
        | some last =>
          have hmem : last ∈ columnRows ledger f := by
            have hpage : last ∈ page (clampLimit f.limit) (columnRows ledger f) ties n bound :=
              hrows ▸ List.mem_of_getLast? hlast
            exact (mem_below.mp (mem_below_of_mem_page hpage)).1
          have hresume := resumeKey_rowKey f (storable_of_mem_columnRows hmem)
          simp only [if_neg (marshalQueryCursor_ne_empty _ _), map_map_eq_ok, ih, hresume]
          cases resumeKey (rowKey last) with
          | error e => simp
          | ok next => simp only [Except.ok.injEq, exists_eq_left', map_map_eq_ok]
      · simp [if_neg hfull]

end Collect

/-! ### Exactly once -/

theorem not_pagesExactlyOnce_of_invalid {ledger : Ledger} {f : QueryFilter} {e : QueryError}
    (h : f.validate = .error e) : ¬ PagesExactlyOnce ledger f := by
  intro hpages
  obtain ⟨fuel, rows, hrows, -⟩ := hpages (TieBreaking.stable rowKey)
  have hv : QueryFilter.validate { f with limit := clampLimit f.limit } = .error e := h
  cases fuel with
  | zero => cases hrows
  | succ fuel =>
    simp [queryAll, queryPage, resumeFilter, query, hv] at hrows

/-- Paging a valid filter is exactly once exactly when its pages are separated. -/
theorem pagesExactlyOnce_iff_separated {ledger : Ledger} {f : QueryFilter}
    (hvalid : f.validate = .ok ()) : PagesExactlyOnce ledger f ↔
      Separated resumeKey (clampLimit f.limit) (descendingKeys rowKey (matchingRows ledger f)) := by
  have hbound : cursorBound f "" = .ok f.before := rfl
  have hcollect : (∀ ties : TieBreaking rowKey, CollectsExactly resumeKey (clampLimit f.limit)
      (columnRows ledger f) ties f.before) ↔ Separated resumeKey (clampLimit f.limit)
        (descendingKeys rowKey (matchingRows ledger f)) := by
    refine collect_exact_iff (clampLimit_pos f.limit) fun row hrow next hnext => ?_
    obtain ⟨-, heq⟩ | ⟨-, heq⟩ := resumeKey_eq (storable_of_mem_columnRows hrow)
    · rw [heq] at hnext
      cases hnext
    · rw [heq] at hnext
      obtain rfl := Except.ok.inj hnext
      split_ifs
      · exact .inl rfl
      · exact .inr rfl
  rw [← hcollect]
  refine forall_congr' fun ties => ?_
  simp only [CollectsExactly, queryAll_eq_ok_iff hvalid, hbound, Except.ok.injEq, exists_eq_left']
  rfl

/-- The keys of the matching rows in descending order, wherever equal keys stand. -/
def matchingKeys (ledger : Ledger) (f : QueryFilter) : List RowKey :=
  descendingKeys rowKey (matchingRows ledger f)

theorem exists_row_of_mem_matchingKeys {ledger : Ledger} {f : QueryFilter} {k : RowKey}
    (h : k ∈ matchingKeys ledger f) : ∃ row ∈ columnRows ledger f, rowKey row = k := by
  obtain ⟨row, hrow, rfl⟩ := List.mem_map.mp ((perm_descendingSort id _).subset h)
  exact ⟨row, (mem_below.mp hrow).1, rfl⟩

/-- **Paging is exactly once iff every full page ends between two different keys**, at a time that a
cursor keeps. -/
theorem pages_exactly_once_iff (ledger : Ledger) (f : QueryFilter) : PagesExactlyOnce ledger f ↔
    f.validate = .ok () ∧ ∀ j, 0 < j → ∀ k,
      (matchingKeys ledger f)[j * clampLimit f.limit - 1]? = some k →
        CursorKeeps k ∧ (matchingKeys ledger f)[j * clampLimit f.limit]? ≠ some k := by
  cases hvalid : f.validate with
  | error e => simp [not_pagesExactlyOnce_of_invalid hvalid]
  | ok u =>
    rw [pagesExactlyOnce_iff_separated hvalid]
    simp only [true_and]
    refine forall_congr' fun j => imp_congr_right fun _ => forall_congr' fun k =>
      imp_congr_right fun hk => and_congr_left' ?_
    obtain ⟨row, hrow, rfl⟩ := exists_row_of_mem_matchingKeys (List.mem_of_getElem? hk)
    exact resumeKey_eq_some_iff (storable_of_mem_columnRows hrow)

/-! ### Rows of two shards -/

section Twins

/-- The context of both events. -/
def twinContext : EventContext := { (default : EventContext) with orgId := 1 }

/-- Two events of one time that differ in their identity. -/
def twinEvent (eventId : UUID) : Event :=
  { (default : Event) with
    verb := "node.updated"
    eventId := eventId
    context := twinContext
    occurredAt := ⟨86400 * 10 ^ 9, 0⟩ }

def twinContextJSON : Json :=
  .obj [("org_id", .str (1 : UUID).text), ("workspace_id", .str UUID.nil.text),
    ("scope_id", .str UUID.nil.text), ("parent_id", .str UUID.nil.text), ("source", .str "")]

theorem twinContext_toJson : twinContext.toJson = some twinContextJSON := rfl

/-- The events go to different shards. -/
def twinInput (eventId : UUID) (shard : Int16) : ChainAppendInput where
  event := twinEvent eventId
  eventId := eventId
  shard := shard
  piiRef := .nil
  contextJSON := marshal twinContextJSON
  deltaJSON := marshal .null
  contextJSON_eq := congrArg (Option.map marshal) twinContext_toJson
  deltaJSON_eq := rfl

/-- Pages of one row over both days. -/
def twinFilter : QueryFilter where
  orgId := 1
  oldest := ⟨1000, 0⟩
  latest := ⟨2 * 86400 * 10 ^ 9, 0⟩
  action := ""
  actorId := .nil
  entityId := .nil
  requestId := ""
  traceId := ""
  limit := 1
  beforeTime := .zero
  beforeSeq := 0
  nilOrg := false

def twinLedger (hash hash' : Bytes) : Ledger :=
  appended (appended .empty (twinInput 1 0) hash) (twinInput 2 1) hash'

theorem small_twinContextJSON : Json.Small 4001 twinContextJSON := by
  have hsource : Json.Small 218 (.str "") := Json.small_str (by decide : "".toList.length ≤ 36)
  have h : Json.Small (5 * (6 * 12 + 218 + 4) + 2) twinContextJSON := by
    refine Json.small_obj ?_
    simp only [List.forall_mem_cons, List.not_mem_nil, false_imp_iff, implies_true, and_true]
    exact ⟨⟨by decide, small_uuid _⟩, ⟨by decide, small_uuid _⟩, ⟨by decide, small_uuid _⟩,
      ⟨by decide, small_uuid _⟩, by decide, hsource⟩
  exact h.mono (by decide)

theorem twinTime : ((twinEvent 0).occurredAt.utc.truncate Time.microsecond).rfc3339Nano =
    "0001-01-02T00:00:00Z" := by decide +kernel

/-- The first row of a chain of either event has a hash. -/
theorem exists_twinHash (sum : Bytes → Bytes) (eventId : UUID) (shard : Int16) : ∃ hash,
    hashRowForEvent sum ((twinInput eventId shard).hashInput (defaultOutcome (twinEvent eventId)) 1
      []) = some hash := by
  have htime : ((twinInput eventId shard).hashInput (defaultOutcome (twinEvent eventId)) 1
      []).eventTime = "0001-01-02T00:00:00Z" := by
    rw [RowHashInput.eventTime_of_eq rfl, ← twinTime]
    rfl
  obtain ⟨x, hx⟩ : ∃ x, inputPreimage ((twinInput eventId shard).hashInput
      (defaultOutcome (twinEvent eventId)) 1 []) = some x := by
    refine exists_inputPreimage rfl (rawJson_marshal _) (rawJson_marshal _)
      (rfl : _ = some Json.null) rfl ?_ ?_ (show (1 : Int64).toInt.natAbs ≤ 2 ^ 53 by decide)
    · simp only [List.forall_mem_cons, List.not_mem_nil, false_imp_iff, implies_true, and_true]
      exact ⟨small_twinContextJSON, Json.small_null.mono (by decide), Json.small_null.mono (by decide)⟩
    · rw [htime]
      change ∀ s ∈ ["0001-01-02T00:00:00Z", "", "node.updated", "", "", "ok"], s.toList.length ≤ 36
      decide
  exact ⟨sum x, by rw [hashRowForEvent_eq, hx, Option.map_some]⟩

/-- Both appends succeed. -/
theorem exists_twinLedger (sum : Bytes → Bytes) (json : JsonReader) :
    ∃ hash hash', Produced sum json (twinLedger hash hash') := by
  obtain ⟨hash, hhash⟩ := exists_twinHash sum 1 0
  obtain ⟨hash', hhash'⟩ := exists_twinHash sum 2 1
  refine ⟨hash, hash', ?_⟩
  have hfirst : appendStep sum json .empty (twinInput 1 0) =
      some (appended .empty (twinInput 1 0) hash) :=
    appendStep_eq_some.mpr ⟨_, appendChainRow_ok_iff.mpr
      ⟨hash, rfl, by simp [Ledger.empty], hhash, rfl, rfl, rfl⟩⟩
  have hsecond : appendStep sum json (appended .empty (twinInput 1 0) hash) (twinInput 2 1) =
      some (twinLedger hash hash') :=
    appendStep_eq_some.mpr ⟨_, appendChainRow_ok_iff.mpr
      ⟨hash', rfl, (by decide : (2 : UUID) ∉ [1]), hhash', rfl, rfl, rfl⟩⟩
  exact (Reach.refl.tail trivial hfirst).tail trivial hsecond

/-- Both rows match, and they have the same key. -/
theorem matchingKeys_twinLedger (hash hash' : Bytes) :
    matchingKeys (twinLedger hash hash') twinFilter =
      [toLex (86400 * 10 ^ 9, 1), toLex (86400 * 10 ^ 9, 1)] := by
  have hkeys : (matchingRows (twinLedger hash hash') twinFilter).map rowKey =
      [toLex (86400 * 10 ^ 9, 1), toLex (86400 * 10 ^ 9, 1)] := rfl
  change _ = List.replicate 2 (toLex (86400 * 10 ^ 9, 1))
  refine List.eq_replicate_iff.mpr ⟨?_, fun k hk => ?_⟩
  · rw [matchingKeys, length_descendingKeys, ← List.length_map (f := rowKey), hkeys]
    rfl
  · have hmem := (perm_descendingSort id _).subset hk
    rw [hkeys] at hmem
    simpa using hmem

/-- **A page boundary inside equal keys loses rows**: two events of one time in two shards of an
organization have the same time and sequence number, and with pages of one row the second is never
returned. -/
theorem twin_rows_lost (sum : Bytes → Bytes) (json : JsonReader) : ∃ hash hash',
    Produced sum json (twinLedger hash hash') ∧ twinFilter.validate = .ok () ∧
      ¬ PagesExactlyOnce (twinLedger hash hash') twinFilter := by
  obtain ⟨hash, hash', hproduced⟩ := exists_twinLedger sum json
  have hvalid : twinFilter.validate = .ok () := rfl
  refine ⟨hash, hash', hproduced, hvalid, fun hpages => ?_⟩
  have hsep := (pagesExactlyOnce_iff_separated hvalid).mp hpages
  have hkeys := matchingKeys_twinLedger hash hash'
  rw [matchingKeys] at hkeys
  rw [hkeys] at hsep
  exact (hsep 1 Nat.one_pos _ rfl).2 rfl

theorem twin_rows_not_paged : ∃ hash hash',
    Produced (fun _ => []) ⟨fun _ => true, fun _ => none, fun _ => none⟩ (twinLedger hash hash') ∧
      twinFilter.validate = .ok () ∧ ¬ PagesExactlyOnce (twinLedger hash hash') twinFilter :=
  twin_rows_lost _ _

end Twins

end Tack.Audit

import Tack.Audit.EventParts
import Tack.Search.Work

/-!
# Pages of the search text

A read cuts one page from the text of a node.  The first page starts at the beginning, and a later one
where its cursor says, which the page before it wrote.  A page overlaps the one before it by at most a
quarter of the byte bound and starts and ends between characters, so that the page of an ordinal is
a matter of the text and the bound alone.

## Main definitions

* `Search.ContentCursor`, `Search.marshalContentCursor`, `Search.unmarshalContentCursor`.
* `Search.contentPosition`, `Search.contentSlice`, `Search.contentPage` — one page.
* `Search.pageOffset` — where the page of an ordinal starts.
* `Search.projectionIdentity` — the digest of what pages depend on beside the node.

## Main results

* `Search.unmarshalContentCursor_marshal` — a cursor is read back.

## References

`internal/adapters/foundationdb/node_content.go`, `node_content_cursor.go`, `node_content_snapshot.go` and
`search_projection_state.go`.
-/

namespace Tack.Search

open Lib Audit

/-! ### Cursors -/

/-- White space for `strings.TrimSpace`. -/
def unicodeIsSpace (c : Char) : Bool :=
  c ∈ ['\t', '\n', '\x0b', '\x0c', '\r', ' ', '\u0085', '\u00a0', '\u1680', '\u2028', '\u2029', '\u202f',
    '\u205f', '\u3000'] || ('\u2000' ≤ c && c ≤ '\u200a')

/-- `strings.TrimSpace` leaves nothing. -/
def isBlank (text : String) : Bool := text.toList.all unicodeIsSpace

def searchCursorVersion : ℤ := 1

def minSearchPageBytes : ℤ := 16

/-- Binds a continuation to a node, a revision, a projection and a byte bound. -/
structure ContentCursor where
  version : ℤ
  nodeId : String
  revision : String
  projection : String
  maxBytes : ℤ
  nextOffset : ℤ
  ordinal : ℕ
  deriving DecidableEq

namespace ContentCursor

def toJson (cursor : ContentCursor) : Json :=
  .obj [("v", .num (.ofInt cursor.version)), ("n", .str cursor.nodeId), ("r", .str cursor.revision),
    ("p", .str cursor.projection), ("b", .num (.ofInt cursor.maxBytes)),
    ("o", .num (.ofInt cursor.nextOffset)), ("i", .num (.ofInt cursor.ordinal))]

def empty : ContentCursor := ⟨0, "", "", "", 0, 0, 0⟩

/-- Stores one member; `encoding/json` matches names without regard to case and passes over the others. -/
def readMember (cursor : ContentCursor) (member : String × Json) : Option ContentCursor :=
  match foldName member.1 with
  | ['v'] => readInt 63 member.2 cursor fun n => { cursor with version := n }
  | ['n'] => readString member.2 cursor fun s => { cursor with nodeId := s }
  | ['r'] => readString member.2 cursor fun s => { cursor with revision := s }
  | ['p'] => readString member.2 cursor fun s => { cursor with projection := s }
  | ['b'] => readInt 63 member.2 cursor fun n => { cursor with maxBytes := n }
  | ['o'] => readInt 63 member.2 cursor fun n => { cursor with nextOffset := n }
  | ['i'] => readUint 64 member.2 cursor fun n => { cursor with ordinal := n }
  | _ => some cursor

def ofJson : Json → Option ContentCursor
  | .obj members => members.foldlM readMember .empty
  | .null => some .empty
  | _ => none

/-- The fields that every continuation has. -/
def valid (cursor : ContentCursor) : Bool :=
  !(cursor.nextOffset ≤ 0 || cursor.ordinal == 0 || cursor.maxBytes ≤ 0 || isBlank cursor.revision ||
    cursor.projection == "")

/-- The numbers fit the fields that hold them. -/
structure Fits (cursor : ContentCursor) : Prop where
  version : -2 ^ 63 ≤ cursor.version ∧ cursor.version < 2 ^ 63
  maxBytes : -2 ^ 63 ≤ cursor.maxBytes ∧ cursor.maxBytes < 2 ^ 63
  nextOffset : -2 ^ 63 ≤ cursor.nextOffset ∧ cursor.nextOffset < 2 ^ 63
  ordinal : cursor.ordinal < 2 ^ 64

theorem ofJson_toJson {cursor : ContentCursor} (h : cursor.Fits) : ofJson cursor.toJson = some cursor := by
  have hv : foldName "v" = ['v'] := by decide
  have hn : foldName "n" = ['n'] := by decide
  have hr : foldName "r" = ['r'] := by decide
  have hp : foldName "p" = ['p'] := by decide
  have hb : foldName "b" = ['b'] := by decide
  have ho : foldName "o" = ['o'] := by decide
  have hi : foldName "i" = ['i'] := by decide
  simp only [toJson, ofJson, List.foldlM_cons, List.foldlM_nil, readMember, hv, hn, hr, hp, hb, ho, hi,
    readInt_ofInt h.version, readInt_ofInt h.maxBytes, readInt_ofInt h.nextOffset, readString,
    readUint_ofInt h.ordinal, Option.bind_eq_bind, Option.bind_some, Option.pure_def]

end ContentCursor

def marshalContentCursor (cursor : ContentCursor) : String :=
  String.ofList (base64RawURLEncode (utf8 cursor.toJson.render))

def unmarshalContentCursor (encoded : String) : Option ContentCursor := do
  let decoded ← base64RawURLDecode encoded.toList
  let value ← Json.parse (utf8Decode decoded)
  let cursor ← ContentCursor.ofJson value
  if cursor.valid then some cursor else none

/-- **A cursor is read back.** -/
theorem unmarshalContentCursor_marshal {cursor : ContentCursor} (hfits : cursor.Fits)
    (hvalid : cursor.valid = true) : unmarshalContentCursor (marshalContentCursor cursor) = some cursor := by
  rw [unmarshalContentCursor, marshalContentCursor, String.toList_ofList,
    base64RawURLDecode_base64RawURLEncode]
  simp [utf8Decode_utf8, Json.parse_render, ContentCursor.ofJson_toJson hfits, hvalid]

theorem marshalContentCursor_ne_empty {cursor : ContentCursor} (hfits : cursor.Fits)
    (hvalid : cursor.valid = true) : marshalContentCursor cursor ≠ "" := by
  intro hempty
  have hread := unmarshalContentCursor_marshal hfits hvalid
  have hnone : unmarshalContentCursor "" = none := by decide +kernel
  rw [hempty, hnone] at hread
  cases hread

/-! ### Slices of the text -/

/-- Why a read returns no page. -/
inductive ContentError
  /-- The cursor belongs to another text. -/
  | contentChanged
  /-- The bound of a page is out of range. -/
  | badBound
  | badCursor
  /-- The boundary of a page does not advance. -/
  | stuckBoundary

/-- `utf8.RuneStart`: the byte does not continue a character. -/
def runeStart (b : Byte) : Bool := b.val / 64 ≠ 2

/-- The end of a page, moved back to a character boundary after the offset. -/
def pageEnd (text : List Byte) (offset : ℕ) : ℕ → ℕ
  | 0 => 0
  | e + 1 =>
    if offset < e + 1 ∧ e + 1 < text.length ∧ (text.drop (e + 1)).head?.any (fun b => !runeStart b) then
      pageEnd text offset e
    else e + 1

/-- The start of a page, moved forward to a character boundary before the offset. -/
def pageStart (text : List Byte) (maxBytes offset ordinal : ℕ) : ℕ :=
  if ordinal = 0 then offset
  else
    let start := offset - maxBytes / 4
    start + (((text.drop start).take (offset - start)).takeWhile fun b => !runeStart b).length

/-- Where the page at an offset starts and ends. -/
def contentSlice (text : List Byte) (maxBytes offset ordinal : ℕ) : Except ContentError (ℕ × ℕ) :=
  if text.length < offset ∨ offset = text.length ∧ 0 < ordinal then .error .contentChanged
  else if 0 < ordinal ∧ offset < maxBytes / 4 then .error .contentChanged
  else
    let start := pageStart text maxBytes offset ordinal
    let stop := pageEnd text offset (min (start + maxBytes) text.length)
    if stop ≤ offset then .error .stuckBoundary else .ok (start, stop)

theorem pageEnd_le (text : List Byte) (offset e : ℕ) : pageEnd text offset e ≤ e := by
  induction e with
  | zero => exact le_rfl
  | succ e ih =>
    rw [pageEnd]
    split_ifs
    · exact ih.trans (Nat.le_succ e)
    · exact le_rfl

/-- A page ends after its offset and in the text. -/
theorem contentSlice_ok {text : List Byte} {maxBytes offset ordinal start stop : ℕ}
    (h : contentSlice text maxBytes offset ordinal = .ok (start, stop)) :
    offset < stop ∧ stop ≤ text.length := by
  rw [contentSlice] at h
  dsimp only at h
  split_ifs at h with _ _ hstop
  cases h
  exact ⟨not_le.mp hstop, (pageEnd_le _ _ _).trans (min_le_right _ _)⟩

/-- Where the page of an ordinal continues the text. -/
def pageOffset (text : List Byte) (maxBytes : ℕ) : ℕ → Option ℕ
  | 0 => some 0
  | i + 1 => (pageOffset text maxBytes i).bind fun offset =>
    match contentSlice text maxBytes offset i with
    | .ok (_, stop) => if stop < text.length then some stop else none
    | .error _ => none

theorem pageOffset_succ {text : List Byte} {maxBytes i offset start stop : ℕ}
    (h : pageOffset text maxBytes i = some offset)
    (hslice : contentSlice text maxBytes offset i = .ok (start, stop)) (hstop : stop < text.length) :
    pageOffset text maxBytes (i + 1) = some stop := by
  rw [pageOffset, h, Option.bind_some, hslice]
  exact if_pos hstop

/-- Every page advances, so that an ordinal is at most its offset. -/
theorem le_of_pageOffset {text : List Byte} {maxBytes i offset : ℕ}
    (h : pageOffset text maxBytes i = some offset) : i ≤ offset ∧ offset ≤ text.length := by
  induction i generalizing offset with
  | zero =>
    cases h
    exact ⟨le_rfl, Nat.zero_le _⟩
  | succ i ih =>
    obtain ⟨before, hbefore, h⟩ := Option.bind_eq_some_iff.mp h
    split at h
    next start stop hslice =>
      split_ifs at h with hstop
      cases h
      exact ⟨(ih hbefore).1.trans_lt (contentSlice_ok hslice).1, hstop.le⟩
    · cases h

/-! ### Reads -/

/-- What a reader asks for: the continuation of an earlier page, empty for the first one, and the bytes of a page,
zero for the default. -/
structure ContentRequest where
  cursor : String
  maxBytes : ℤ

/-- Where a read begins.  A cursor that another node, revision, projection or bound wrote is refused as a change of the
content. -/
def contentPosition (nodeId : UUID) (request : ContentRequest) (revision projection : String) :
    Except ContentError ContentCursor :=
  let maxBytes := if request.maxBytes = 0 then (maxPageBytes : ℤ) else request.maxBytes
  if maxBytes < minSearchPageBytes ∨ maxBytes > maxPageBytes then .error .badBound
  else if request.cursor = "" then
    .ok ⟨searchCursorVersion, nodeId.text, revision, projection, maxBytes, 0, 0⟩
  else match unmarshalContentCursor request.cursor with
    | none => .error .badCursor
    | some cursor =>
      if cursor.version ≠ searchCursorVersion ∨ cursor.nodeId ≠ nodeId.text ∨ cursor.revision ≠ revision ∨
          cursor.projection ≠ projection ∨ cursor.maxBytes ≠ maxBytes then .error .contentChanged
      else .ok cursor

/-- Cuts one page from the text. -/
def contentPage (text : List Byte) (revision : ℕ) (projection : String) (access : SearchAccess)
    (position : ContentCursor) : Except ContentError ContentPage :=
  if position.nextOffset < 0 then .error .contentChanged
  else
    let offset := position.nextOffset.toNat
    match contentSlice text position.maxBytes.toNat offset position.ordinal with
    | .error reason => .error reason
    | .ok (start, stop) => .ok
      { revision := revision
        projection := projection
        text := String.ofList (utf8Decode ((text.drop start).take (stop - start)))
        access := access
        ordinal := position.ordinal
        overlapBytes := offset - start
        nextCursor := if stop = text.length then "" else marshalContentCursor
          { position with nextOffset := stop, ordinal := (position.ordinal + 1) % 2 ^ 64 }
        done := decide (stop = text.length) }

/-- The decimal text of a revision. -/
def revisionText (revision : ℕ) : String := toString revision

/-! ### Cursors on the path through the text -/

theorem revisionText_injective : Function.Injective revisionText := fun a b h => by
  have htext : Nat.toDigits 10 a = Nat.toDigits 10 b := by
    simpa [revisionText] using congrArg String.toList h
  have hvalue := congrArg (fun cs => Nat.ofDigitChars 10 cs 0) htext
  simpa [Nat.ofDigitChars_ten_toDigits] using hvalue

theorem unicodeIsSpace_of_isDigit {c : Char} (h : c.isDigit = true) : unicodeIsSpace c = false := by
  have hall : ['\t', '\n', '\x0b', '\x0c', '\r', ' ', '\u0085', '\u00a0', '\u1680', '\u2028', '\u2029',
      '\u202f', '\u205f', '\u3000'].all (fun d => !d.isDigit) = true := by decide
  rw [unicodeIsSpace, Bool.or_eq_false_iff]
  constructor
  · refine decide_eq_false fun hmem => ?_
    have hnot := List.all_eq_true.mp hall c hmem
    rw [h] at hnot
    cases hnot
  · have hle : c ≤ '9' := by
      rw [Char.isDigit, Bool.and_eq_true] at h
      exact of_decide_eq_true h.2
    have hlt : c < '\u2000' := lt_of_le_of_lt hle (by decide)
    simp [not_le.mpr hlt]

theorem isBlank_revisionText (revision : ℕ) : isBlank (revisionText revision) = false := by
  have htext : (revisionText revision).toList = Nat.toDigits 10 revision := by simp [revisionText]
  rw [isBlank, htext]
  cases hdigits : Nat.toDigits 10 revision with
  | nil => exact absurd hdigits Nat.toDigits_ne_nil
  | cons d rest =>
    have hd : d.isDigit = true := isDigit_of_mem_toDigits (hdigits ▸ List.mem_cons_self)
    rw [List.all_cons, unicodeIsSpace_of_isDigit hd, Bool.false_and]

/-- The bound that a request asks for. -/
def ContentRequest.bound (request : ContentRequest) : ℕ :=
  if request.maxBytes = 0 then maxPageBytes else request.maxBytes.toNat

/-! ### The identity of a projection -/

/-- What pages depend on beside the node: the cursor format, the renderer, the format and digest of the projection, and
its activation. -/
def projectionIdentityInput (state : ProjectionState) : Json :=
  .obj [("pagination", .num (.ofInt searchCursorVersion)), ("renderer", .num (.ofInt state.renderer)),
    ("format", .num (.ofInt state.format)), ("digest", .str state.digest),
    ("activation", .num (.ofInt state.activation))]

/-- The identity of a projection: the hexadecimal SHA-256 of its input. -/
def projectionIdentity (sha : List Byte → BitVec 256) (state : ProjectionState) : String :=
  String.ofList (hexEncode (beBytes 32 (sha (utf8 (projectionIdentityInput state).render)).toNat))

theorem projectionIdentity_ne_empty (sha : List Byte → BitVec 256) (state : ProjectionState) :
    projectionIdentity sha state ≠ "" := by
  intro h
  have hlength : (projectionIdentity sha state).toList.length = 64 := by simp [projectionIdentity]
  rw [h] at hlength
  cases hlength

end Tack.Search

import Mathlib
import Tack.Lib.Utf8Boundary
import Tack.Search.ContentPages

/-!
# The pages of a text partition it

A reader starts without a cursor and follows the cursor of each page until a page is the last one.  Over
one text that reads every byte once: a page starts at most a quarter of the bound before the place its
cursor names and ends after it, both between characters, and what it repeats is the end of the page
before it.  A cursor names what it was issued for, and no other read takes it.

## Main definitions

* `Search.readPage`, `Search.followPages` — one read of a text, and a reader that follows the cursors.
* `Search.pageSlice` — the bytes of the page of an ordinal.
* `Search.PageCut`, `Search.Tiled` — where a page is cut, and the pages from an offset on.

## Main results

* `Search.exists_pageCut` — there is a page at every offset between characters.
* `Search.exists_followPages` — a reader reaches the end, whatever is left of the text.
* `Search.content_pages_partition` — the pages of a text partition it.
-/

namespace Tack.Search

open Lib Audit

/-! ### Cuts between characters -/

theorem beginsChar_iff_runeStart {bytes : List Byte} :
    BeginsChar bytes ↔ bytes.head?.any (fun b => !runeStart b) = false := by
  cases bytes with
  | nil => simp [BeginsChar]
  | cons b bs => simp [BeginsChar, continues, runeStart]

theorem le_pageEnd {text : List Byte} (offset : ℕ) {e p : ℕ} (hpe : p ≤ e)
    (hbegins : BeginsChar (text.drop p)) : p ≤ pageEnd text offset e := by
  induction e with
  | zero => exact hpe
  | succ e ih =>
    rw [pageEnd]
    split_ifs with hback
    · refine ih (Nat.le_of_lt_succ (lt_of_le_of_ne hpe fun heq => ?_))
      rw [heq, beginsChar_iff_runeStart, hback.2.2] at hbegins
      cases hbegins
    · exact hpe

theorem beginsChar_pageEnd {text : List Byte} {offset e : ℕ} (h : offset < pageEnd text offset e) :
    BeginsChar (text.drop (pageEnd text offset e)) := by
  induction e with
  | zero => cases h
  | succ e ih =>
    rw [pageEnd] at h ⊢
    split_ifs at h ⊢ with hback
    · exact ih h
    · rcases Nat.lt_or_ge (e + 1) text.length with hlt | hge
      · rw [beginsChar_iff_runeStart, ← Bool.not_eq_true]
        exact fun hany => hback ⟨h, hlt, hany⟩
      · rw [List.drop_eq_nil_of_le hge]
        exact beginsChar_nil

/-- Bytes taken while they continue a character end where one begins, or at the end of the window. -/
theorem beginsChar_drop_takeWhile {bytes : List Byte} {n : ℕ} (hn : BeginsChar (bytes.drop n)) :
    BeginsChar (bytes.drop ((bytes.take n).takeWhile fun b => !runeStart b).length) := by
  induction bytes generalizing n with
  | nil => simp [beginsChar_nil]
  | cons b bs ih =>
    cases n with
    | zero => exact hn
    | succ n =>
      rw [List.take_succ_cons, List.takeWhile_cons]
      split_ifs with hb
      · rw [List.length_cons, List.drop_succ_cons]
        exact ih hn
      · rw [List.length_nil, List.drop_zero, beginsChar_iff_runeStart]
        simpa using hb

theorem pageStart_spec (maxBytes ordinal : ℕ) {text : List Byte} {offset : ℕ}
    (hbegins : BeginsChar (text.drop offset)) :
    pageStart text maxBytes offset ordinal ≤ offset ∧
      offset ≤ pageStart text maxBytes offset ordinal + maxBytes / 4 ∧
      BeginsChar (text.drop (pageStart text maxBytes offset ordinal)) := by
  rw [pageStart]
  split_ifs with hfirst
  · exact ⟨le_rfl, Nat.le_add_right _ _, hbegins⟩
  · dsimp only
    have hwindow : (((text.drop (offset - maxBytes / 4)).take (offset - (offset - maxBytes / 4))).takeWhile
        fun b => !runeStart b).length ≤ offset - (offset - maxBytes / 4) :=
      (List.takeWhile_prefix _).length_le.trans (List.length_take_le _ _)
    refine ⟨by omega, by omega, ?_⟩
    rw [← List.drop_drop]
    apply beginsChar_drop_takeWhile
    rwa [List.drop_drop, Nat.add_sub_cancel' (Nat.sub_le _ _)]

/-- Where the page at an offset is cut. -/
structure PageCut (text : List Byte) (bound offset ordinal start stop : ℕ) : Prop where
  slice : contentSlice text bound offset ordinal = .ok (start, stop)
  start_le : start ≤ offset
  overlap : offset ≤ start + bound / 4
  advances : offset < stop
  stop_le : stop ≤ text.length
  short : stop ≤ start + bound
  /-- A page that is not the last one lacks at most the bytes of one character. -/
  full : stop < text.length → start + bound < stop + 4
  begins : BeginsChar (text.drop start)
  ends : BeginsChar (text.drop stop)

/-- **There is a page at every offset between characters.** -/
theorem exists_pageCut {text : List Byte} {bound offset ordinal : ℕ} (hvalid : ValidUtf8 text)
    (hbound : 16 ≤ bound) (hoffset : offset < text.length) (hbegins : BeginsChar (text.drop offset))
    (hmin : 0 < ordinal → bound / 4 ≤ offset) : ∃ start stop, PageCut text bound offset ordinal start stop := by
  obtain ⟨hle, hoverlap, hstart⟩ := pageStart_spec bound ordinal hbegins
  obtain ⟨cs, hcs⟩ := hvalid.exists_utf8
  have hslice : contentSlice text bound offset ordinal =
      if pageEnd text offset (min (pageStart text bound offset ordinal + bound) text.length) ≤ offset then
        .error .stuckBoundary
      else .ok (pageStart text bound offset ordinal,
        pageEnd text offset (min (pageStart text bound offset ordinal + bound) text.length)) := by
    rw [contentSlice, if_neg (by omega), if_neg (by omega)]
  generalize pageStart text bound offset ordinal = start at hle hoverlap hstart hslice
  generalize hasked : min (start + bound) text.length = asked at hslice
  -- the end of the text, or a character that begins after the offset
  obtain ⟨p, hp, hnear, hlast, hafter, hpbegins⟩ : ∃ p ≤ asked, asked < p + 4 ∧
      (asked = text.length → p = text.length) ∧ offset < p ∧ BeginsChar (text.drop p) := by
    by_cases hall : asked = text.length
    · refine ⟨asked, le_rfl, by omega, id, by omega, ?_⟩
      rw [List.drop_eq_nil_of_le hall.ge]
      exact beginsChar_nil
    · obtain ⟨p, hp, hnear, hpbegins⟩ := exists_beginsChar_drop (hcs ▸ (by omega) : asked ≤ (utf8 cs).length)
      exact ⟨p, hp, hnear, fun h => absurd h hall, by omega, hcs ▸ hpbegins⟩
  have hstop := le_pageEnd offset hp hpbegins
  have hstople := pageEnd_le text offset asked
  refine ⟨start, pageEnd text offset asked, ?_, hle, hoverlap, by omega, by omega, by omega, by omega, hstart,
    beginsChar_pageEnd (by omega)⟩
  rw [hslice, if_neg (by omega)]

/-! ### Reads of one text -/

/-- The bytes of the page of an ordinal. -/
def pageSlice (text : List Byte) (maxBytes ordinal : ℕ) : Option (List Byte) :=
  (pageOffset text maxBytes ordinal).bind fun offset =>
    match contentSlice text maxBytes offset ordinal with
    | .ok (start, stop) => some ((text.drop start).take (stop - start))
    | .error _ => none

/-- One read of a text at a cursor. -/
def readPage (text : List Byte) (nodeId : UUID) (revision : ℕ) (projection : String) (access : SearchAccess)
    (request : ContentRequest) (cursor : String) : Except ContentError ContentPage :=
  match contentPosition nodeId { request with cursor := cursor } (revisionText revision) projection with
  | .error reason => .error reason
  | .ok position => contentPage text revision projection access position

/-- A reader that follows the cursors; none when a read fails, or when the pages go on. -/
def followPages (read : String → Except ContentError ContentPage) : ℕ → String → Option (List ContentPage)
  | 0, _ => none
  | fuel + 1, cursor => match read cursor with
    | .error _ => none
    | .ok page => if page.done then some [page] else (followPages read fuel page.nextCursor).map (page :: ·)

/-- The bytes that a page holds, those that the page before it held included. -/
def pageBytes (page : ContentPage) : List Byte := utf8 page.text.toList

/-- The bytes of a page without its overlap. -/
def freshBytes (page : ContentPage) : List Byte := (pageBytes page).drop page.overlapBytes

/-- A page starts by repeating the end of the page before it, as its overlap says. -/
def Repeats (before page : ContentPage) : Prop :=
  ∃ overlap fresh, pageBytes page = overlap ++ fresh ∧ overlap.length = page.overlapBytes ∧
    overlap <:+ pageBytes before

/-- What a cursor says at an ordinal and an offset. -/
def positionAt (nodeId : UUID) (revision : ℕ) (projection : String) (bound ordinal offset : ℕ) :
    ContentCursor :=
  ⟨searchCursorVersion, nodeId.text, revisionText revision, projection, bound, offset, ordinal⟩

/-- The first page is read without a cursor. -/
def cursorAt (nodeId : UUID) (revision : ℕ) (projection : String) (bound ordinal offset : ℕ) : String :=
  if ordinal = 0 then ""
  else marshalContentCursor (positionAt nodeId revision projection bound ordinal offset)

/-- The page at an ordinal and an offset. -/
structure PageAt (text : List Byte) (bound ordinal offset start stop : ℕ) (page : ContentPage) : Prop
    extends PageCut text bound offset ordinal start stop where
  reached : pageOffset text bound ordinal = some offset
  ordinal_eq : page.ordinal = ordinal
  overlap_eq : page.overlapBytes = offset - start
  text_eq : page.text = String.ofList (utf8Decode ((text.drop start).take (stop - start)))
  done_eq : page.done = decide (stop = text.length)

/-- The pages from an ordinal and an offset on, each starting where the one before it stopped. -/
inductive Tiled (text : List Byte) (bound : ℕ) (cursor : ℕ → ℕ → String) : ℕ → ℕ → List ContentPage → Prop
  | last {ordinal offset start : ℕ} {page : ContentPage} :
      PageAt text bound ordinal offset start text.length page → page.nextCursor = "" →
      Tiled text bound cursor ordinal offset [page]
  | next {ordinal offset start stop : ℕ} {page : ContentPage} {pages : List ContentPage} :
      PageAt text bound ordinal offset start stop page → stop < text.length →
      page.nextCursor = cursor (ordinal + 1) stop → Tiled text bound cursor (ordinal + 1) stop pages →
      Tiled text bound cursor ordinal offset (page :: pages)

section

variable {text : List Byte} {bound ordinal offset start stop : ℕ} {page : ContentPage}
  {cursor : ℕ → ℕ → String} {pages : List ContentPage}

theorem PageAt.pageBytes_eq (h : PageAt text bound ordinal offset start stop page) (hvalid : ValidUtf8 text) :
    pageBytes page = (text.drop start).take (stop - start) := by
  have hslice := hvalid.slice (h.start_le.trans h.advances.le) h.begins h.ends
  rw [pageBytes, h.text_eq, String.toList_ofList]
  exact hslice

/-- The bytes of a page are its overlap, up to its offset, and what it adds. -/
theorem PageAt.pageBytes_append (h : PageAt text bound ordinal offset start stop page)
    (hvalid : ValidUtf8 text) : pageBytes page =
      (text.drop start).take (offset - start) ++ (text.drop offset).take (stop - offset) := by
  have hstart := h.start_le
  have hadvances := h.advances
  rw [h.pageBytes_eq hvalid, show stop - start = (offset - start) + (stop - offset) by omega,
    List.take_add, List.drop_drop, Nat.add_sub_cancel' hstart]

theorem PageAt.length_overlap (h : PageAt text bound ordinal offset start stop page) :
    ((text.drop start).take (offset - start)).length = page.overlapBytes := by
  have hadvances := h.advances
  have hstop := h.stop_le
  rw [h.overlap_eq, List.length_take, List.length_drop]
  omega

theorem PageAt.freshBytes_eq (h : PageAt text bound ordinal offset start stop page) (hvalid : ValidUtf8 text) :
    freshBytes page = (text.drop offset).take (stop - offset) := by
  rw [freshBytes, h.pageBytes_append hvalid, List.drop_left' h.length_overlap]

/-- The page after one that is not the last repeats only bytes of it. -/
theorem PageAt.repeats {start' stop' : ℕ} {page' : ContentPage}
    (h : PageAt text bound ordinal offset start stop page) (hbound : 16 ≤ bound) (hmore : stop < text.length)
    (h' : PageAt text bound (ordinal + 1) stop start' stop' page') (hvalid : ValidUtf8 text) :
    Repeats page page' := by
  refine ⟨_, _, h'.pageBytes_append hvalid, h'.length_overlap, ?_⟩
  have hfull := h.full hmore
  have hoverlap := h'.overlap
  have hle := h'.start_le
  have hsplit : stop - start = (start' - start) + (stop - start') := by omega
  rw [h.pageBytes_eq hvalid, hsplit, List.take_add, List.drop_drop,
    show start + (start' - start) = start' by omega]
  exact List.suffix_append _ _

theorem Tiled.head (h : Tiled text bound cursor ordinal offset (page :: pages)) :
    ∃ start stop, PageAt text bound ordinal offset start stop page := by
  cases h with
  | last hpage => exact ⟨_, _, hpage⟩
  | next hpage => exact ⟨_, _, hpage⟩

theorem Tiled.map_ordinal (h : Tiled text bound cursor ordinal offset pages) :
    pages.map (·.ordinal) = List.range' ordinal pages.length := by
  induction h with
  | last hpage => simp [hpage.ordinal_eq]
  | next hpage _ _ _ ih => simp [hpage.ordinal_eq, ih, List.range'_succ]

/-- **The pages without their overlaps are the rest of the text.** -/
theorem Tiled.flatMap_freshBytes (h : Tiled text bound cursor ordinal offset pages) (hvalid : ValidUtf8 text) :
    pages.flatMap freshBytes = text.drop offset := by
  induction h with
  | @last _ offset _ page hpage =>
    rw [List.flatMap_singleton, hpage.freshBytes_eq hvalid]
    exact List.take_of_length_le (by rw [List.length_drop])
  | @next _ offset _ stop page _ hpage _ _ _ ih =>
    have hrest : text.drop stop = (text.drop offset).drop (stop - offset) := by
      rw [List.drop_drop, Nat.add_sub_cancel' hpage.advances.le]
    rw [List.flatMap_cons, ih, hpage.freshBytes_eq hvalid, hrest, List.take_append_drop]

theorem Tiled.isChain_repeats (h : Tiled text bound cursor ordinal offset pages) (hbound : 16 ≤ bound)
    (hvalid : ValidUtf8 text) : pages.IsChain Repeats := by
  induction h with
  | last => exact List.isChain_singleton _
  | @next _ _ _ _ page pages hpage hmore _ hrest ih =>
    cases pages with
    | nil => exact List.isChain_singleton _
    | cons after pages =>
      obtain ⟨start', stop', hafter⟩ := hrest.head
      exact List.isChain_cons_cons.mpr ⟨hpage.repeats hbound hmore hafter hvalid, ih⟩

/-- What holds of the page at any place holds of every page. -/
theorem Tiled.forall_mem {P : ContentPage → Prop} (h : Tiled text bound cursor ordinal offset pages)
    (hP : ∀ page ordinal offset start stop, PageAt text bound ordinal offset start stop page → P page) :
    ∀ page ∈ pages, P page := by
  induction h with
  | last hpage =>
    intro page hmem
    rw [List.mem_singleton.mp hmem]
    exact hP _ _ _ _ _ hpage
  | next hpage _ _ _ ih =>
    intro page hmem
    rcases List.mem_cons.mp hmem with rfl | hmem
    · exact hP _ _ _ _ _ hpage
    · exact ih page hmem

/-- A page with a cursor names the place where it stopped. -/
theorem Tiled.nextCursor_eq (h : Tiled text bound cursor ordinal offset pages) :
    ∀ page ∈ pages, page.nextCursor ≠ "" →
      ∃ ordinal stop, ordinal < stop ∧ stop < text.length ∧ page.nextCursor = cursor (ordinal + 1) stop := by
  induction h with
  | last _ hlast =>
    intro page hmem hnext
    rw [List.mem_singleton.mp hmem] at hnext
    exact absurd hlast hnext
  | next hpage hmore hcursor _ ih =>
    intro page hmem hnext
    rcases List.mem_cons.mp hmem with rfl | hmem
    · have hordinal := (le_of_pageOffset hpage.reached).1
      exact ⟨_, _, hordinal.trans_lt hpage.advances, hmore, hcursor⟩
    · exact ih page hmem hnext

theorem PageAt.pageSlice_eq (h : PageAt text bound ordinal offset start stop page) :
    pageSlice text bound page.ordinal = some ((text.drop start).take (stop - start)) := by
  rw [pageSlice, h.ordinal_eq, h.reached, Option.bind_some, h.slice]

end

/-! ### The reader reaches the end -/

section

variable {text : List Byte} {nodeId : UUID} {revision : ℕ} {projection : String} {access : SearchAccess}
  {request : ContentRequest} {ordinal offset : ℕ}

theorem askedBytes_eq (hbound : 16 ≤ request.bound ∧ request.bound ≤ maxPageBytes) :
    (if request.maxBytes = 0 then (maxPageBytes : ℤ) else request.maxBytes) = request.bound := by
  rw [ContentRequest.bound] at hbound ⊢
  split_ifs at hbound ⊢
  · rfl
  · omega

theorem not_badBound (hbound : 16 ≤ request.bound ∧ request.bound ≤ maxPageBytes) :
    ¬((request.bound : ℤ) < minSearchPageBytes ∨ (request.bound : ℤ) > maxPageBytes) := by
  rw [minSearchPageBytes]
  omega

theorem positionAt_fits (nodeId : UUID) (revision : ℕ) (projection : String)
    (hbound : request.bound ≤ maxPageBytes) (hoffset : offset < 2 ^ 63) (hordinal : ordinal < 2 ^ 64) :
    (positionAt nodeId revision projection request.bound ordinal offset).Fits := by
  rw [maxPageBytes] at hbound
  refine ⟨?_, ?_, ?_, hordinal⟩ <;> constructor <;> simp only [positionAt, searchCursorVersion] <;> omega

theorem positionAt_valid (nodeId : UUID) (revision : ℕ) (hprojection : projection ≠ "")
    (hbound : 16 ≤ request.bound) (hordinal : 0 < ordinal) (hoffset : 0 < offset) :
    (positionAt nodeId revision projection request.bound ordinal offset).valid = true := by
  simp only [ContentCursor.valid, positionAt, isBlank_revisionText, Bool.not_eq_true', Bool.or_eq_false_iff]
  refine ⟨⟨⟨⟨?_, ?_⟩, ?_⟩, trivial⟩, beq_false_of_ne hprojection⟩
  · exact decide_eq_false (by omega)
  · exact beq_false_of_ne hordinal.ne'
  · exact decide_eq_false (by omega)

/-- A cursor is taken by a read of what it was issued for. -/
theorem contentPosition_cursorAt (hprojection : projection ≠ "")
    (hbound : 16 ≤ request.bound ∧ request.bound ≤ maxPageBytes) (hoffset : offset < 2 ^ 63)
    (hordinal : ordinal ≤ offset) (hfirst : ordinal = 0 → offset = 0) :
    contentPosition nodeId
        { request with cursor := cursorAt nodeId revision projection request.bound ordinal offset }
        (revisionText revision) projection =
      .ok (positionAt nodeId revision projection request.bound ordinal offset) := by
  rw [contentPosition]
  simp only [askedBytes_eq hbound]
  rw [if_neg (not_badBound hbound), cursorAt]
  by_cases hzero : ordinal = 0
  · rw [if_pos hzero, if_pos rfl, hfirst hzero, hzero]
    rfl
  · have hfits := positionAt_fits nodeId revision projection hbound.2 hoffset
      (by omega : ordinal < 2 ^ 64)
    have hvalid := positionAt_valid nodeId revision hprojection hbound.1
      (Nat.pos_of_ne_zero hzero) (by omega : 0 < offset)
    rw [if_neg hzero, if_neg (marshalContentCursor_ne_empty hfits hvalid),
      unmarshalContentCursor_marshal hfits hvalid]
    exact if_neg (by simp [positionAt])

/-- A cursor is refused by a read of anything else. -/
theorem contentPosition_of_ne (hprojection : projection ≠ "")
    (hbound : 16 ≤ request.bound ∧ request.bound ≤ maxPageBytes) (hoffset : offset < 2 ^ 63)
    (hordinal : ordinal < offset)
    {nodeId' : UUID} {revision' : ℕ} {projection' : String} {request' : ContentRequest}
    (hbound' : 16 ≤ request'.bound ∧ request'.bound ≤ maxPageBytes)
    (hne : (nodeId', revision', projection', request'.bound) ≠ (nodeId, revision, projection, request.bound)) :
    contentPosition nodeId'
        { request' with cursor := cursorAt nodeId revision projection request.bound (ordinal + 1) offset }
        (revisionText revision') projection' = .error .contentChanged := by
  have hfits := positionAt_fits nodeId revision projection hbound.2 hoffset
      (by omega : ordinal + 1 < 2 ^ 64)
  have hvalid := positionAt_valid nodeId revision hprojection hbound.1
      ordinal.succ_pos (by omega : 0 < offset)
  rw [contentPosition]
  simp only [askedBytes_eq hbound']
  rw [if_neg (not_badBound hbound'), cursorAt, if_neg ordinal.succ_ne_zero,
    if_neg (marshalContentCursor_ne_empty hfits hvalid), unmarshalContentCursor_marshal hfits hvalid]
  refine if_pos ?_
  by_contra hsame
  push Not at hsame
  obtain ⟨-, hnode, hrevision, hprojection, hmaxBytes⟩ := hsame
  refine hne ?_
  rw [UUID.text_injective hnode, revisionText_injective hrevision]
  simp only [positionAt] at hprojection hmaxBytes
  rw [hprojection, Nat.cast_inj.mp hmaxBytes]

/-- The read at an ordinal and an offset between characters. -/
theorem exists_readPage (nodeId : UUID) (revision : ℕ) (access : SearchAccess)
    (hvalid : ValidUtf8 text) (hlength : text.length < 2 ^ 63) (hprojection : projection ≠ "")
    (hbound : 16 ≤ request.bound ∧ request.bound ≤ maxPageBytes) (hoffset : offset < text.length)
    (hbegins : BeginsChar (text.drop offset)) (hreached : pageOffset text request.bound ordinal = some offset)
    (hfirst : ordinal = 0 → offset = 0) (hmin : 0 < ordinal → request.bound / 4 ≤ offset) :
    ∃ page start stop, readPage text nodeId revision projection access request
        (cursorAt nodeId revision projection request.bound ordinal offset) = .ok page ∧
      PageAt text request.bound ordinal offset start stop page ∧
      page.nextCursor = if stop = text.length then "" else
        cursorAt nodeId revision projection request.bound (ordinal + 1) stop := by
  obtain ⟨start, stop, hcut⟩ := exists_pageCut hvalid hbound.1 hoffset hbegins hmin
  have hordinal := (le_of_pageOffset hreached).1
  rw [readPage, contentPosition_cursorAt hprojection hbound (by omega) hordinal hfirst]
  dsimp only
  rw [contentPage, if_neg (by simp [positionAt])]
  simp only [positionAt, Int.toNat_natCast, hcut.slice]
  refine ⟨_, start, stop, rfl, ⟨hcut, hreached, rfl, rfl, rfl, rfl⟩, ?_⟩
  rw [cursorAt, if_neg ordinal.succ_ne_zero, Nat.mod_eq_of_lt (by omega)]
  rfl

/-- **A reader reaches the end, whatever is left of the text.** -/
theorem exists_followPages (nodeId : UUID) (revision : ℕ) (access : SearchAccess)
    (hvalid : ValidUtf8 text) (hlength : text.length < 2 ^ 63) (hprojection : projection ≠ "")
    (hbound : 16 ≤ request.bound ∧ request.bound ≤ maxPageBytes) {fuel : ℕ}
    (hfuel : text.length ≤ fuel + offset) (hoffset : offset < text.length)
    (hbegins : BeginsChar (text.drop offset)) (hreached : pageOffset text request.bound ordinal = some offset)
    (hfirst : ordinal = 0 → offset = 0) (hmin : 0 < ordinal → request.bound / 4 ≤ offset) :
    ∃ pages, followPages (readPage text nodeId revision projection access request) fuel
        (cursorAt nodeId revision projection request.bound ordinal offset) = some pages ∧
      Tiled text request.bound (cursorAt nodeId revision projection request.bound) ordinal offset pages := by
  induction fuel generalizing ordinal offset with
  | zero => omega
  | succ fuel ih =>
    obtain ⟨page, start, stop, hread, hpage, hnext⟩ :=
      exists_readPage nodeId revision access hvalid hlength hprojection hbound hoffset hbegins hreached hfirst hmin
    rw [followPages, hread]
    dsimp only
    rw [hpage.done_eq]
    by_cases hend : stop = text.length
    · subst hend
      exact ⟨[page], if_pos (decide_eq_true rfl), .last hpage (hnext.trans (if_pos rfl))⟩
    · have hmore : stop < text.length := lt_of_le_of_ne hpage.stop_le hend
      have hfull := hpage.full hmore
      have hadvances := hpage.advances
      rw [if_neg hend] at hnext
      obtain ⟨pages, hpages, htiled⟩ := ih (by omega) hmore hpage.ends
        (pageOffset_succ hreached hpage.slice hmore) (by omega) (by omega)
      rw [if_neg (by simpa using hend), hnext, hpages]
      exact ⟨_, rfl, .next hpage hmore hnext htiled⟩

end

/-! ### The partition -/

/-- **The pages of a text partition it.**  A text is valid UTF-8 and ends its last line, and a Go string has
fewer than `2 ^ 63` bytes; the identity of a projection is a digest. -/
theorem content_pages_partition {text : List Byte} (hvalid : ValidUtf8 text)
    (hline : text.getLast? = some (10 : Byte)) (hlength : text.length < 2 ^ 63) (nodeId : UUID) (revision : ℕ)
    (sha : List Byte → BitVec 256) (state : ProjectionState) (access : SearchAccess) (request : ContentRequest)
    (hbound : 16 ≤ request.bound ∧ request.bound ≤ maxPageBytes) {fuel : ℕ} (hfuel : text.length ≤ fuel) :
    ∃ pages, followPages
        (readPage text nodeId revision (projectionIdentity sha state) access request) fuel "" = some pages ∧
      pages.map (·.ordinal) = List.range pages.length ∧
      (∀ page ∈ pages, ∃ slice, pageSlice text request.bound page.ordinal = some slice ∧
        page.text = String.ofList (utf8Decode slice) ∧ ValidUtf8 slice ∧ pageBytes page = slice ∧
        slice.length ≤ request.bound ∧ page.overlapBytes ≤ request.bound / 4) ∧
      pages.IsChain Repeats ∧
      pages.flatMap freshBytes = text ∧
      ∀ page ∈ pages, page.nextCursor ≠ "" →
        ∀ (nodeId' : UUID) (revision' : ℕ) (projection' : String) (request' : ContentRequest),
          16 ≤ request'.bound → request'.bound ≤ maxPageBytes →
          (nodeId', revision', projection', request'.bound) ≠
            (nodeId, revision, projectionIdentity sha state, request.bound) →
          contentPosition nodeId' { request' with cursor := page.nextCursor } (revisionText revision')
            projection' = .error .contentChanged := by
  have hprojection := projectionIdentity_ne_empty sha state
  have hpos : 0 < text.length := List.length_pos_iff.mpr fun hnil => by simp [hnil] at hline
  have hbegins : BeginsChar (text.drop 0) := by
    obtain ⟨cs, rfl⟩ := hvalid.exists_utf8
    exact beginsChar_utf8 cs
  have hreached : pageOffset text request.bound 0 = some 0 := rfl
  obtain ⟨pages, hpages, htiled⟩ := exists_followPages nodeId revision access hvalid hlength hprojection
    hbound hfuel hpos hbegins hreached (fun _ => rfl) (fun h => absurd h (lt_irrefl 0))
  refine ⟨pages, hpages, ?_, ?_, htiled.isChain_repeats hbound.1 hvalid, htiled.flatMap_freshBytes hvalid, ?_⟩
  · rw [htiled.map_ordinal, List.range_eq_range']
  · refine htiled.forall_mem fun page ordinal offset start stop hpage => ?_
    refine ⟨_, hpage.pageSlice_eq, hpage.text_eq,
      hvalid.slice (hpage.start_le.trans hpage.advances.le) hpage.begins hpage.ends,
      hpage.pageBytes_eq hvalid, ?_, ?_⟩
    · have hshort := hpage.short
      rw [List.length_take]
      omega
    · have hoverlap := hpage.overlap
      rw [hpage.overlap_eq]
      omega
  · intro page hmem hnext nodeId' revision' projection' request' hmin hmax hne
    obtain ⟨ordinal, stop, hordinal, hstop, hcursor⟩ := htiled.nextCursor_eq page hmem hnext
    rw [hcursor]
    exact contentPosition_of_ne hprojection hbound (by omega) hordinal ⟨hmin, hmax⟩ hne

/-- A text of three pages. -/
def accentedText : List Byte := utf8 "crème brûlée, à la carte\nñandú\n".toList

/-- It is read in pages of sixteen bytes. -/
theorem content_pages_partition_accented :
    ValidUtf8 accentedText ∧ accentedText.getLast? = some (10 : Byte) ∧
      ∃ pages, followPages (readPage accentedText ⟨7⟩ 3 (projectionIdentity (fun _ => 0) .legacy)
          ⟨[], [], 0⟩ ⟨"", 16⟩) 64 "" = some pages ∧
        pages.flatMap freshBytes = accentedText := by
  have hvalid : ValidUtf8 accentedText := validUtf8_utf8 _
  have hline : accentedText.getLast? = some (10 : Byte) := by decide +kernel
  have hlength : accentedText.length ≤ 64 := by decide +kernel
  obtain ⟨pages, hpages, -, -, -, hall, -⟩ := content_pages_partition hvalid hline (by omega) ⟨7⟩ 3 (fun _ => 0)
    .legacy ⟨[], [], 0⟩ ⟨"", 16⟩ (by decide) hlength
  exact ⟨hvalid, hline, pages, hpages, hall⟩

end Tack.Search

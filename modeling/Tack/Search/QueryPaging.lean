import Tack.Search.QueryPage

/-!
# A search page by page

A caller opens a session and continues it with the version of each page until the search is complete.

## Main definitions

* `Search.search` — one request on a session, and `Search.searchAll` — a search until it is complete.
* `Search.expectedResults` — the accepted nodes that fit on a page, in the order of their first hits.

## Main results

* `Search.consumeHits_spec`, `Search.finishReads_spec` — a page consumes the next hits, and its results
  are the new nodes among them.
* `Search.searchAll_spec` — the pages together are the expected results.
-/

namespace Tack.Search

open Lib

variable {P : Type}

/-! ### One request -/

structure SearchPage where
  nextVersion : ℕ
  results : List Summary
  complete : Bool

/-- What a session does with a cursor. -/
inductive Admission
  | refuse (error : SearchError)
  | replay
  | advance

def continueSession (session : SessionRecord P) (version : ℕ) (mismatch expired : Bool) : Admission :=
  if mismatch ∨ version > session.version then .refuse .sessionMismatch
  else if session.closing ∨ expired then .refuse .sessionExpired
  else if version < session.version then .replay
  else if session.complete then .refuse .sessionExpired
  else .advance

/-- What the index answers beside the hits: the point-in-time ID after the page of each version and the lengths of
its encoded positions, which fit the header of a session. -/
structure SnapshotAnswers (P : Type) where
  pitId : ℕ → String
  sortBytes : Option P → ℕ
  pitId_ne : ∀ version, pitId version ≠ ""
  fits : ∀ version sort, sortBytes sort + (pitId version).utf8ByteSize ≤ maxSessionPositionBytes

section Request

variable [LinearOrder P] (settings : SearchQuerySettings) (hits : List (RankHit P)) (catalog : Catalog)
  (caller : Caller) (answers : SnapshotAnswers P)

/-- Reads the rest of a page. -/
def finishReads (visited : List UUID) : ℕ → PageState P → Except SearchError (PageState P × Bool)
  | 0, page => .ok (page, false)
  | remaining + 1, page => do
    match ← nextRead settings hits catalog caller visited (.reading page (remaining + 1)) with
    | .ready page complete => return (page, complete)
    | .reading page _ => finishReads visited remaining page

/-- Reads and commits the next page of a session. -/
def advance (session : SessionRecord P) : Except SearchError (SessionRecord P × SearchPage) := do
  let (page, complete) ← finishReads settings hits catalog caller session.visited settings.maxBatches
    (.init session.sort)
  let committed ← commitPage (some session) session.version
    (page.commit complete (answers.sortBytes page.position) (answers.pitId session.version)) false
  return (committed, ⟨committed.version, page.results, complete⟩)

/-- Makes the page of an earlier version again. -/
def replay (session : SessionRecord P) (version : ℕ) : Except SearchError SearchPage :=
  match session.replays.get version with
  | none => .error .sessionChanged
  | some commit => .ok ⟨version + 1,
      replayResults settings catalog caller responseReserveBytes commit.resultIDs, commit.complete⟩

/-- One request of the caller who opened the session, before its deadlines. -/
def search (session : SessionRecord P) (version : ℕ) :
    Except SearchError (SessionRecord P × SearchPage) :=
  match continueSession session version false false with
  | .refuse error => .error error
  | .replay => do return (session, ← replay settings catalog caller session version)
  | .advance => advance settings hits catalog caller answers session

/-- Continues a session with the version of each page until the search is complete; `none` when the
number of requests does not suffice. -/
def continueUntilComplete : ℕ → SessionRecord P → SearchPage → Except SearchError (Option (List SearchPage))
  | requests, session, page =>
    if page.complete then .ok (some [page])
    else match requests with
      | 0 => .ok none
      | requests + 1 => do
        let (session, next) ← search settings hits catalog caller answers session page.nextVersion
        return (← continueUntilComplete requests session next).map (page :: ·)

/-- Opens a session and continues it. -/
def searchAll (requests : ℕ) : Except SearchError (Option (List SearchPage)) := do
  let (session, page) ← advance settings hits catalog caller answers .init
  continueUntilComplete settings hits catalog caller answers requests session page

end Request

/-! ### What a page consumes -/

/-- The summary of a node that fits on an empty page. -/
def shown (settings : SearchQuerySettings) (catalog : Catalog) (caller : Caller) (nodeId : UUID) :
    Option Summary :=
  (accepted catalog caller nodeId).filter fun summary =>
    decide (responseReserveBytes + resultBytes summary ≤ settings.maxResponseBytes)

/-- The accepted nodes whose summary fits on an empty page, in the order of their first hits. -/
def expectedResults (settings : SearchQuerySettings) (hits : List (RankHit P)) (catalog : Catalog)
    (caller : Caller) : List Summary :=
  (firstSeen [] (hits.map RankHit.nodeId)).filterMap (shown settings catalog caller)

/-- The position after hits were consumed. -/
def lastSort (consumed : List (RankHit P)) (position : Option P) : Option P :=
  consumed.foldl (fun _ hit => some hit.sort) position

/-- The page is within its limits and counts its bytes. -/
structure PageState.Ok (settings : SearchQuerySettings) (page : PageState P) : Prop where
  bytes_eq : page.bytes = responseReserveBytes + (page.results.map resultBytes).sum
  bytes_le : page.bytes ≤ settings.maxResponseBytes
  results_le : page.results.length ≤ settings.maxResults

/-- From one page to another the hits are consumed. -/
structure Consumes (settings : SearchQuerySettings) (catalog : Catalog) (caller : Caller)
    (visited : List UUID) (page page' : PageState P) (consumed : List (RankHit P)) : Prop where
  visited_eq : page'.visited =
    page.visited ++ firstSeen (visited ++ page.visited) (consumed.map RankHit.nodeId)
  results_eq : page'.results = page.results ++
    (firstSeen (visited ++ page.visited) (consumed.map RankHit.nodeId)).filterMap
      (shown settings catalog caller)
  position_eq : page'.position = lastSort consumed page.position

section Consume

variable {settings : SearchQuerySettings} {catalog : Catalog} {caller : Caller} {visited : List UUID}
  {page page' page'' : PageState P}

theorem PageState.ok_init (position : Option P) : (PageState.init position).Ok settings where
  bytes_eq := rfl
  bytes_le := by
    have h : 1024 ≤ settings.maxResponseBytes := settings.responseBytes.1
    show 512 ≤ settings.maxResponseBytes
    omega
  results_le := Nat.zero_le _

theorem Consumes.refl (page : PageState P) : Consumes settings catalog caller visited page page [] where
  visited_eq := by simp
  results_eq := by simp
  position_eq := rfl

theorem Consumes.trans {consumed consumed' : List (RankHit P)}
    (h : Consumes settings catalog caller visited page page' consumed)
    (h' : Consumes settings catalog caller visited page' page'' consumed') :
    Consumes settings catalog caller visited page page'' (consumed ++ consumed') where
  visited_eq := by
    rw [h'.visited_eq, h.visited_eq, List.map_append, firstSeen_append, List.append_assoc,
      List.append_assoc]
  results_eq := by
    rw [h'.results_eq, h.results_eq, h.visited_eq, List.map_append, firstSeen_append,
      List.filterMap_append, List.append_assoc, List.append_assoc]
  position_eq := by
    rw [h'.position_eq, h.position_eq, lastSort, lastSort, lastSort, List.foldl_append]

/-- A hit of a node that is consumed already. -/
theorem Consumes.seen {hit : RankHit P} (h : hit.nodeId ∈ page.visited ∨ hit.nodeId ∈ visited) :
    Consumes settings catalog caller visited page { page with position := some hit.sort } [hit] where
  visited_eq := by
    have hmem : hit.nodeId ∈ visited ++ page.visited := List.mem_append.mpr h.symm
    simp [firstSeen_cons_of_mem hmem]
  results_eq := by
    have hmem : hit.nodeId ∈ visited ++ page.visited := List.mem_append.mpr h.symm
    simp [firstSeen_cons_of_mem hmem]
  position_eq := rfl

/-- A hit of a new node, after its summary was taken or not. -/
theorem Consumes.fresh {hit : RankHit P} (h : ¬(hit.nodeId ∈ page.visited ∨ hit.nodeId ∈ visited))
    (hvisited : page'.visited = page.visited)
    (hresults : page'.results = page.results ++ (shown settings catalog caller hit.nodeId).toList) :
    Consumes settings catalog caller visited page
      { page' with visited := page'.visited ++ [hit.nodeId], position := some hit.sort } [hit] where
  visited_eq := by
    have hmem : hit.nodeId ∉ visited ++ page.visited := fun hin => h (List.mem_append.mp hin).symm
    simp [firstSeen_cons_of_notMem hmem, hvisited]
  results_eq := by
    have hmem : hit.nodeId ∉ visited ++ page.visited := fun hin => h (List.mem_append.mp hin).symm
    simp only [List.map_cons, List.map_nil, firstSeen_cons_of_notMem hmem, firstSeen_nil, hresults]
    rw [List.filterMap_cons, List.filterMap_nil]
    cases shown settings catalog caller hit.nodeId with
    | none => rfl
    | some summary => rfl
  position_eq := rfl

/-- What the page is after the summary of a node: the summary is taken, or it fits on no page, or the
page has no room. -/
theorem admitNode_cases (catalog : Catalog) (caller : Caller) (nodeId : UUID) (hok : page.Ok settings) :
    (∃ page', admitNode settings catalog caller page nodeId = some page' ∧ page'.Ok settings ∧
      page'.visited = page.visited ∧ page'.full = page.full ∧ page'.pending = page.pending ∧
      page'.results = page.results ++ (shown settings catalog caller nodeId).toList) ∨
    (admitNode settings catalog caller page nodeId = none ∧
      (page.results ≠ [] ∨ settings.maxResults = 0)) := by
  rw [admitNode]
  cases haccepted : accepted catalog caller nodeId with
  | none =>
    refine .inl ⟨page, rfl, hok, rfl, rfl, rfl, ?_⟩
    simp [shown, haccepted]
  | some summary =>
    dsimp only
    rw [admitSummary]
    by_cases hfits : responseReserveBytes + resultBytes summary > settings.maxResponseBytes
    · rw [if_pos hfits]
      refine .inl ⟨page, rfl, hok, rfl, rfl, rfl, ?_⟩
      simp [shown, haccepted, hfits]
    · rw [if_neg hfits]
      have hshown : shown settings catalog caller nodeId = some summary := by
        simp only [shown, haccepted, Option.filter_some, decide_eq_true_eq]
        rw [if_pos (by omega)]
      by_cases hroom : page.results.length ≥ settings.maxResults ∨
          page.bytes + resultBytes summary > settings.maxResponseBytes
      · rw [if_pos hroom]
        refine .inr ⟨rfl, ?_⟩
        by_contra hcon
        push Not at hcon
        obtain ⟨hempty, hmax⟩ := hcon
        have hbytes := hok.bytes_eq
        rw [hempty] at hbytes hroom
        simp only [List.map_nil, List.sum_nil, List.length_nil] at hbytes hroom
        omega
      · rw [if_neg hroom]
        push Not at hroom
        refine .inl ⟨_, rfl, ⟨?_, hroom.2, ?_⟩, rfl, rfl, rfl, ?_⟩
        · simp only [List.map_append, List.sum_append, List.map_cons, List.map_nil, List.sum_cons,
            List.sum_nil]
          have := hok.bytes_eq
          omega
        · simp only [List.length_append, List.length_singleton]
          omega
        · rw [hshown]
          rfl

/-- **What a batch does to a page.**  The page consumes the first hits of the batch.  It consumes all
of them unless it is full, and an empty page consumes at least one. -/
theorem consumeHits_spec (catalog : Catalog) (caller : Caller) (visited : List UUID)
    (hits : List (RankHit P)) (page : PageState P) (hok : page.Ok settings) (hfull : page.full = false)
    (hpending : page.pending = false) (hroom : page.results.length < settings.maxResults) :
    ∃ page' consumed rest, consumeHits settings catalog caller visited hits page = page' ∧
      hits = consumed ++ rest ∧ Consumes settings catalog caller visited page page' consumed ∧
      page'.Ok settings ∧ (page'.full = false →
        rest = [] ∧ page'.pending = false ∧ page'.results.length < settings.maxResults) ∧
      (hits ≠ [] → page.results = [] → consumed ≠ []) := by
  induction hits generalizing page with
  | nil =>
    exact ⟨page, [], [], rfl, rfl, .refl page, hok, fun _ => ⟨rfl, hpending, hroom⟩, fun h => absurd rfl h⟩
  | cons hit hits ih =>
    by_cases hseen : hit.nodeId ∈ page.visited ∨ hit.nodeId ∈ visited
    · rw [consumeHits, if_pos hseen]
      obtain ⟨page', consumed, rest, hrun, hsplit, hconsumes, hok', hnot, -⟩ :=
        ih { page with position := some hit.sort } ⟨hok.bytes_eq, hok.bytes_le, hok.results_le⟩
          hfull hpending hroom
      exact ⟨page', hit :: consumed, rest, hrun, by rw [hsplit, List.cons_append],
        (Consumes.seen hseen).trans hconsumes, hok', hnot, fun _ _ => List.cons_ne_nil _ _⟩
    · rw [consumeHits, if_neg hseen]
      dsimp only
      rcases admitNode_cases catalog caller hit.nodeId hok with
        ⟨page', hadmitted, hok', hvisited, hfull', hpending', hresults⟩ | ⟨hadmitted, hstop⟩
      · rw [hadmitted]
        dsimp only
        have hconsumes := Consumes.fresh hseen hvisited hresults
        by_cases hlast : page'.results.length ≥ settings.maxResults
        · rw [if_pos hlast]
          exact ⟨_, [hit], hits, rfl, rfl, ⟨hconsumes.visited_eq, hconsumes.results_eq, hconsumes.position_eq⟩,
            ⟨hok'.bytes_eq, hok'.bytes_le, hok'.results_le⟩, fun h => Bool.noConfusion h,
            fun _ _ => List.cons_ne_nil _ _⟩
        · rw [if_neg hlast]
          obtain ⟨page'', consumed, rest, hrun, hsplit, hconsumes', hok'', hnot, -⟩ :=
            ih { page' with visited := page'.visited ++ [hit.nodeId], position := some hit.sort }
              ⟨hok'.bytes_eq, hok'.bytes_le, hok'.results_le⟩ (hfull'.trans hfull)
              (hpending'.trans hpending) (Nat.lt_of_not_le hlast)
          exact ⟨page'', hit :: consumed, rest, hrun, by rw [hsplit, List.cons_append],
            hconsumes.trans hconsumes', hok'', hnot, fun _ _ => List.cons_ne_nil _ _⟩
      · rw [hadmitted]
        refine ⟨_, [], hit :: hits, rfl, rfl, ⟨by simp, by simp, rfl⟩,
          ⟨hok.bytes_eq, hok.bytes_le, hok.results_le⟩, fun h => Bool.noConfusion h, fun _ hempty => ?_⟩
        have hzero := hstop.resolve_left fun h => h hempty
        omega

/-- A batch is within the bounds of the reads. -/
theorem consumeBatch_eq {batch : List (RankHit P)} (page : PageState P) (h : batch.length ≤ settings.batchSize) :
    consumeBatch settings catalog caller visited batch page =
      .ok (consumeHits settings catalog caller visited batch page) := by
  have hcandidates : (candidates batch page).length ≤ batch.length :=
    (length_firstSeen_le _ _).trans_eq (List.length_map ..)
  have hfresh := List.length_filter_le (fun nodeId => decide (nodeId ∉ visited)) (candidates batch page)
  have hsize : settings.batchSize ≤ 100 := settings.batches.2.1
  rw [consumeBatch, if_neg, if_neg]
  · rw [maxSummaryBatch]
    omega
  · rw [maxSessionVisitedIDs]
    omega

end Consume

/-! ### What a request reads -/

section Reads

variable [LinearOrder P] {settings : SearchQuerySettings} {hits done rest : List (RankHit P)}
  {catalog : Catalog} {caller : Caller} {answers : SnapshotAnswers P} {session : SessionRecord P}

/-- The hits of a snapshot stand at increasing positions. -/
def StrictSort (hits : List (RankHit P)) : Prop := hits.Pairwise fun a b => a.sort < b.sort

theorem hitsAfter_lastSort (hsort : StrictSort hits) (hsplit : hits = done ++ rest) :
    hitsAfter hits (lastSort done none) = rest := by
  rcases List.eq_nil_or_concat done with rfl | ⟨before, last, rfl⟩
  · exact hsplit
  · rw [List.concat_eq_append] at hsplit ⊢
    have hlast : lastSort (before ++ [last]) none = some last.sort := by
      rw [lastSort, List.foldl_append]
      rfl
    rw [hlast, hitsAfter, hsplit, List.filter_append]
    rw [hsplit] at hsort
    obtain ⟨hbefore, -, hacross⟩ := List.pairwise_append.mp hsort
    obtain ⟨-, -, hbefore⟩ := List.pairwise_append.mp hbefore
    have hnone : (before ++ [last]).filter (fun hit => decide (last.sort < hit.sort)) = [] := by
      refine List.filter_eq_nil_iff.mpr fun hit hmem => ?_
      rw [decide_eq_true_eq, not_lt]
      rcases List.mem_append.mp hmem with hmem | hmem
      · exact (hbefore hit hmem last (List.mem_singleton_self _)).le
      · rw [List.mem_singleton.mp hmem]
    have hall : rest.filter (fun hit => decide (last.sort < hit.sort)) = rest := by
      refine List.filter_eq_self.mpr fun hit hmem => decide_eq_true ?_
      exact hacross last (List.mem_append_right _ (List.mem_singleton_self _)) hit hmem
    rw [hnone, hall, List.nil_append]

/-- **What the reads of a page do.**  They consume the next hits of the snapshot, a search is complete
only when no hit is left, and a new page makes progress. -/
theorem finishReads_spec (hsort : StrictSort hits) (visited : List UUID) (remaining : ℕ)
    (page : PageState P) (hsplit : hits = done ++ rest)
    (hposition : page.position = lastSort done none) (hok : page.Ok settings)
    (hroom : page.full = false → page.pending = false ∧ page.results.length < settings.maxResults) :
    ∃ consumed rest' page' complete,
      finishReads settings hits catalog caller visited remaining page = .ok (page', complete) ∧
      rest = consumed ++ rest' ∧ Consumes settings catalog caller visited page page' consumed ∧
      page'.Ok settings ∧ (complete = true → rest' = []) ∧
      consumed.length ≤ remaining * settings.batchSize ∧
      (0 < remaining → page.full = false → page.results = [] → complete = true ∨ consumed ≠ []) := by
  induction remaining generalizing page done rest with
  | zero =>
    exact ⟨[], rest, page, false, rfl, rfl, .refl page, hok, fun h => Bool.noConfusion h, Nat.zero_le _,
      fun h => absurd h (Nat.lt_irrefl 0)⟩
  | succ remaining ih =>
    have hbatch : readBatch settings hits page.position = rest.take settings.batchSize := by
      rw [readBatch, hposition, hitsAfter_lastSort hsort hsplit]
    have hsize : 1 ≤ settings.batchSize := settings.batches.1
    have hnone : (rest.take settings.batchSize).isEmpty = true → rest = [] := by
      intro h
      have := List.isEmpty_iff.mp h
      exact (List.take_eq_nil_iff.mp this).resolve_left (by omega)
    rw [finishReads, nextRead, hbatch]
    cases hfull : page.full with
    | true =>
      refine ⟨[], rest, page, _, rfl, rfl, .refl page, hok, fun h => ?_, Nat.zero_le _,
        fun _ h => Bool.noConfusion h⟩
      exact hnone (Bool.and_eq_true_iff.mp h).2
    | false =>
      rw [if_neg Bool.false_ne_true]
      by_cases hempty : (rest.take settings.batchSize).isEmpty = true
      · rw [if_pos hempty]
        exact ⟨[], rest, page, true, rfl, rfl, .refl page, hok, fun _ => hnone hempty, Nat.zero_le _,
          fun _ _ _ => .inl rfl⟩
      · rw [if_neg hempty, consumeBatch_eq page (List.length_take_le _ _)]
        obtain ⟨hpending, hresults⟩ := hroom hfull
        obtain ⟨read, taken, left, hread, htaken, hconsumes, hok', hnot, hprogress⟩ :=
          consumeHits_spec catalog caller visited (rest.take settings.batchSize) page hok hfull hpending
            hresults
        rw [hread]
        have hsplit' : hits = (done ++ taken) ++ (left ++ rest.drop settings.batchSize) := by
          rw [List.append_assoc, ← List.append_assoc taken, ← htaken, List.take_append_drop, hsplit]
        have hposition' : read.position = lastSort (done ++ taken) none := by
          rw [hconsumes.position_eq, hposition, lastSort, lastSort, lastSort, List.foldl_append]
        obtain ⟨consumed, rest', page', complete, hrun, hrest, hconsumes', hok'', hcomplete, hlength, -⟩ :=
          ih _ hsplit' hposition' hok' fun h => (hnot h).2
        refine ⟨taken ++ consumed, rest', page', complete, hrun, ?_, hconsumes.trans hconsumes', hok'',
          hcomplete, ?_, fun _ _ hnil => .inr fun h => ?_⟩
        · rw [List.append_assoc, ← hrest, ← List.append_assoc, ← htaken, List.take_append_drop]
        · have htake := congrArg List.length htaken
          rw [List.length_append, List.length_take] at htake
          rw [List.length_append, Nat.succ_mul]
          omega
        · have hne : rest.take settings.batchSize ≠ [] := fun h => hempty (List.isEmpty_iff.mpr h)
          exact hprogress hne hnil (List.append_eq_nil_iff.mp h).1

/-- Where a session stands: the hits before its position are consumed. -/
structure SessionAt (done : List (RankHit P)) (session : SessionRecord P) : Prop where
  sort : session.sort = lastSort done none
  visited : session.visited = firstSeen [] (done.map RankHit.nodeId)
  closing : session.closing = false

/-- A page within its limits. -/
def SearchPage.Within (settings : SearchQuerySettings) (page : SearchPage) : Prop :=
  page.results.length ≤ settings.maxResults ∧
    responseReserveBytes + (page.results.map resultBytes).sum ≤ settings.maxResponseBytes

/-- **What one page does to its session.** -/
theorem advance_spec (hsort : StrictSort hits) (hsplit : hits = done ++ rest) (hat : SessionAt done session) :
    ∃ consumed rest' session' page,
      advance settings hits catalog caller answers session = .ok (session', page) ∧ rest = consumed ++ rest' ∧
      SessionAt (done ++ consumed) session' ∧ page.nextVersion = session'.version ∧
      session'.complete = page.complete ∧
      page.results = (firstSeen session.visited (consumed.map RankHit.nodeId)).filterMap
        (shown settings catalog caller) ∧
      page.Within settings ∧ (page.complete = true → rest' = []) ∧
      (page.complete = true ∨ consumed ≠ []) := by
  have hresults : 1 ≤ settings.maxResults := settings.results.1
  have hbatches : 1 ≤ settings.maxBatches := settings.batches.2.2.1
  obtain ⟨consumed, rest', page, complete, hrun, hrest, hconsumes, hok, hcomplete, hlength, hprogress⟩ :=
    @finishReads_spec _ _ settings _ _ _ catalog caller hsort session.visited settings.maxBatches
      (.init session.sort) hsplit hat.sort (PageState.ok_init _) fun _ => ⟨rfl, hresults⟩
  have hseen : session.visited ++ (PageState.init session.sort).visited = session.visited :=
    List.append_nil _
  have hvisited : page.visited = firstSeen session.visited (consumed.map RankHit.nodeId) := by
    rw [hconsumes.visited_eq, hseen]
    rfl
  let commit := page.commit complete (answers.sortBytes page.position) (answers.pitId session.version)
  have hcommit : commitPage (some session) session.version commit false = .ok (applyPageCommit session commit) := by
    have hvisitedLength : page.visited.length ≤ 400 := by
      calc page.visited.length
          ≤ (consumed.map RankHit.nodeId).length := hvisited ▸ length_firstSeen_le _ _
        _ = consumed.length := List.length_map ..
        _ ≤ settings.maxBatches * settings.batchSize := hlength
        _ ≤ 4 * 100 := Nat.mul_le_mul settings.batches.2.2.2 settings.batches.2.1
    have hresultLength : (page.results.map Summary.id).length ≤ 25 :=
      (List.length_map ..).trans_le (hok.results_le.trans settings.results.2)
    have hposition := answers.fits session.version page.position
    rw [commitPage, if_neg, if_neg (not_not.mpr rfl), hat.closing]
    · rfl
    · rintro (hlong | hlong | hlong | hempty)
      · exact absurd hvisitedLength (Nat.not_le.mpr hlong)
      · exact absurd hresultLength (Nat.not_le.mpr hlong)
      · exact absurd hposition (Nat.not_le.mpr hlong)
      · exact answers.pitId_ne _ hempty
  refine ⟨consumed, rest', applyPageCommit session commit,
    ⟨session.version + 1, page.results, complete⟩, ?run, hrest, ⟨?sort, ?visited, hat.closing⟩, rfl, rfl,
    ?results, ?within, hcomplete, hprogress hbatches rfl rfl⟩
  case run =>
    rw [advance, hrun]
    show (commitPage (some session) session.version commit false >>= _) = _
    rw [hcommit]
    rfl
  case sort =>
    show page.position = _
    rw [hconsumes.position_eq, lastSort, lastSort, List.foldl_append]
    exact congrArg (lastSort consumed) hat.sort
  case visited =>
    show session.visited ++ page.visited = _
    rw [hvisited, hat.visited, List.map_append, firstSeen_append, List.nil_append]
  case results =>
    show page.results = _
    rw [hconsumes.results_eq, hseen]
    rfl
  case within => exact ⟨hok.results_le, hok.bytes_eq ▸ hok.bytes_le⟩

/-- A session that is not complete goes on with its own version. -/
theorem search_eq_advance (hclosing : session.closing = false)
    (hcomplete : session.complete = false) :
    search settings hits catalog caller answers session session.version =
      advance settings hits catalog caller answers session := by
  simp [search, continueSession, hclosing, hcomplete]

/-- **What a session returns from a page on.** -/
theorem continueUntilComplete_spec {done rest : List (RankHit P)} {session : SessionRecord P}
    (hsort : StrictSort hits) (requests : ℕ) (hsplit : hits = done ++ rest) (hat : SessionAt done session)
    (hrequests : rest.length ≤ requests) :
    ∃ session' page pages, advance settings hits catalog caller answers session = .ok (session', page) ∧
      continueUntilComplete settings hits catalog caller answers requests session' page =
        .ok (some (page :: pages)) ∧
      (page :: pages).flatMap SearchPage.results =
        (firstSeen session.visited (rest.map RankHit.nodeId)).filterMap (shown settings catalog caller) ∧
      ∀ next ∈ page :: pages, next.Within settings := by
  obtain ⟨consumed, rest', session', page, hadvance, hconsumed, hat', hversion, hcomplete, hresults, hwithin,
    hrest', hprogress⟩ := @advance_spec _ _ settings _ _ _ catalog caller answers _ hsort hsplit hat
  unfold continueUntilComplete
  cases hdone : page.complete with
  | true =>
    refine ⟨session', page, [], hadvance, ?_, ?_, List.forall_mem_singleton.mpr hwithin⟩
    · rw [if_pos hdone]
    · rw [hconsumed, hrest' hdone, List.append_nil, ← hresults]
      exact List.flatMap_singleton ..
  | false =>
    have hfewer : consumed.length ≠ 0 := fun h => (hprogress.resolve_left fun h =>
      absurd (hdone.symm.trans h) Bool.false_ne_true) (List.length_eq_zero_iff.mp h)
    have hlength := congrArg List.length hconsumed
    rw [List.length_append] at hlength
    obtain ⟨requests, rfl⟩ : ∃ n, requests = n + 1 := ⟨requests - 1, by omega⟩
    have hsplit' : hits = (done ++ consumed) ++ rest' := by rw [hsplit, hconsumed, List.append_assoc]
    obtain ⟨session'', next, pages, hadvance', hpages, hresults', hwithin'⟩ :=
      continueUntilComplete_spec hsort requests hsplit' hat' (by omega)
    refine ⟨session', page, next :: pages, hadvance, ?_, ?_, List.forall_mem_cons.mpr ⟨hwithin, hwithin'⟩⟩
    · rw [hdone, hversion, search_eq_advance hat'.closing (hcomplete.trans hdone), hadvance']
      show (continueUntilComplete settings hits catalog caller answers requests session'' next >>= _) = _
      rw [hpages]
      rfl
    · have hvisited : session'.visited =
          session.visited ++ firstSeen session.visited (consumed.map RankHit.nodeId) := by
        rw [hat'.visited, hat.visited, List.map_append, firstSeen_append, List.nil_append]
      rw [List.flatMap_cons, hresults, hresults', hvisited, hconsumed, List.map_append,
        firstSeen_append, List.filterMap_append]
termination_by requests

/-- **A search returns every expected result once.** -/
theorem searchAll_spec (hsort : StrictSort hits) (catalog : Catalog) (caller : Caller) (answers : SnapshotAnswers P) :
    ∃ pages, searchAll settings hits catalog caller answers (hits.length + 1) = .ok (some pages) ∧
      pages.flatMap SearchPage.results = expectedResults settings hits catalog caller ∧
      ∀ page ∈ pages, page.Within settings := by
  have hinit : SessionAt [] (SessionRecord.init : SessionRecord P) := ⟨rfl, rfl, rfl⟩
  obtain ⟨session, page, pages, hadvance, hpages, hresults, hwithin⟩ :=
    continueUntilComplete_spec hsort (hits.length + 1) (List.nil_append hits).symm hinit (Nat.le_succ _)
  refine ⟨page :: pages, ?_, hresults, hwithin⟩
  rw [searchAll, hadvance]
  exact hpages

end Reads

end Tack.Search

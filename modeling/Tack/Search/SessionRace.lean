import Mathlib
import Tack.Lib.Run
import Tack.Search.QueryPaging

/-!
# Requests that race on one search session

Any number of requests continue a session at the same time and more than once, while nodes, access and
node types change.  A request loads the session, reads its batches, and commits its page; the store
accepts the page of a version once.  A request that finds its version committed makes the page again from
the replay record.  The log of committed pages is kept beside the store, for the statements only.

## Main definitions

* `Search.raceStep` — one move of a request, of the cleanup, or of the environment.
* `Search.RaceInv` — what ties the requests to the committed pages.

## Main results

* `Search.raceInv_step` — every move keeps it.
* `Search.paging_exactly_once` — one caller gets every result once; and whatever races, every answer for a
  version belongs to the one page committed for it, and no node is in two of them.
-/

namespace Tack.Search

open Lib

variable {P : Type} [LinearOrder P]

/-! ### The system -/

inductive Phase (P : Type)
  | begun
  | reading (progress : Progress P)
  | replaying
  | answered (results : List Summary) (complete : Bool)
  | failed

/-- A request for the page of a version. -/
structure Request (P : Type) where
  version : ℕ
  caller : Caller
  phase : Phase P

structure CommittedPage where
  version : ℕ
  visited : List UUID
  resultIDs : List UUID
  complete : Bool

structure RaceState (P : Type) where
  session : Option (SessionRecord P)
  requests : List (Request P)
  /-- The pages that were committed, in order. -/
  commits : List CommittedPage

/-- The session is created, and its first request reads the first page. -/
def RaceState.init (settings : SearchQuerySettings) (caller : Caller) : RaceState P :=
  ⟨some .init, [⟨0, caller, .reading (.init settings none)⟩], []⟩

inductive RaceMove (P : Type)
  | begin (version : ℕ) (caller : Caller)
  | load (request : ℕ) (mismatch expired : Bool)
  | read (request : ℕ) (hits : List (RankHit P)) (catalog : Catalog)
  /-- `reported` says that the caller of the transaction learns that it committed.  The index answered the
  point-in-time ID, and the page's position has this length. -/
  | commit (request : ℕ) (expired reported : Bool) (sortBytes : ℕ) (pitId : String)
  | replay (request : ℕ) (catalog : Catalog)
  | fail (request : ℕ)
  | beginCleanup
  | cleanupSlice (kept : UUID → Bool) (cleared : List ℕ) (last : Bool)

def RaceState.setPhase (s : RaceState P) (i : ℕ) (request : Request P) (phase : Phase P) : RaceState P :=
  { s with requests := s.requests.set i { request with phase := phase } }

/-- The visited records that a read sees. -/
def RaceState.visited (s : RaceState P) : List UUID := (s.session.map SessionRecord.visited).getD []

def loadPhase (settings : SearchQuerySettings) (session : Option (SessionRecord P)) (version : ℕ)
    (mismatch expired : Bool) : Phase P :=
  match session with
  | none => .failed
  | some session =>
    match continueSession session version mismatch expired with
    | .refuse _ => .failed
    | .replay => .replaying
    | .advance => .reading (.init settings session.sort)

/-- A page whose commit is not reported is tried again, and the retry finds the version committed. -/
def raceCommit (s : RaceState P) (i : ℕ) (request : Request P) (page : PageState P) (complete : Bool)
    (expired reported : Bool) (sortBytes : ℕ) (pitId : String) : RaceState P :=
  match commitPage s.session request.version (page.commit complete sortBytes pitId) expired with
  | .ok session =>
    { (s.setPhase i request (if reported then .answered page.results complete else .replaying)) with
      session := some session
      commits := s.commits ++
        [⟨request.version, page.visited, page.results.map Summary.id, complete⟩] }
  | .error .sessionChanged => s.setPhase i request .replaying
  | .error _ => s.setPhase i request .failed

def replayPhase (settings : SearchQuerySettings) (session : Option (SessionRecord P)) (request : Request P)
    (catalog : Catalog) : Phase P :=
  match session.bind fun session => session.replays.get request.version with
  | none => .failed
  | some replay =>
    .answered (replayResults settings catalog request.caller responseReserveBytes replay.resultIDs)
      replay.complete

def cleanSession (session : SessionRecord P) (kept : UUID → Bool) (cleared : List ℕ) : SessionRecord P :=
  { session with
    visited := session.visited.filter kept
    replays := cleared.foldl Table.erase session.replays }

/-- One move; a slice of cleanup runs on a closing session only. -/
def raceStep (settings : SearchQuerySettings) (s : RaceState P) : RaceMove P → Option (RaceState P)
  | .begin version caller => some { s with requests := s.requests ++ [⟨version, caller, .begun⟩] }
  | .load i mismatch expired => s.requests[i]?.bind fun request =>
    match request.phase with
    | .begun => some (s.setPhase i request (loadPhase settings s.session request.version mismatch expired))
    | _ => none
  | .read i hits catalog => s.requests[i]?.bind fun request =>
    match request.phase with
    | .reading progress => some (s.setPhase i request
        (match nextRead settings hits catalog request.caller s.visited progress with
        | .ok progress => .reading progress
        | .error _ => .failed))
    | _ => none
  | .commit i expired reported sortBytes pitId => s.requests[i]?.bind fun request =>
    match request.phase with
    | .reading (.ready page complete) =>
      some (raceCommit s i request page complete expired reported sortBytes pitId)
    | _ => none
  | .replay i catalog => s.requests[i]?.bind fun request =>
    match request.phase with
    | .replaying => some (s.setPhase i request (replayPhase settings s.session request catalog))
    | _ => none
  | .fail i => s.requests[i]?.bind fun request =>
    match request.phase with
    | .answered _ _ => none
    | _ => some (s.setPhase i request .failed)
  | .beginCleanup => some { s with session := s.session.map fun session => { session with closing := true } }
  | .cleanupSlice kept cleared last =>
    s.session.bind fun session =>
      if session.closing then
        some { s with session := if last then none else some (cleanSession session kept cleared) }
      else none

/-! ### What a page holds -/

def Progress.page : Progress P → PageState P
  | .reading page _ => page
  | .ready page _ => page

section Page

omit [LinearOrder P]

variable {settings : SearchQuerySettings} {catalog : Catalog} {caller : Caller} {visited : List UUID}
  {page page' : PageState P} {nodeId : UUID} {summary : Summary}

theorem id_of_accepted (h : accepted catalog caller nodeId = some summary) : summary.id = nodeId := by
  rw [accepted] at h
  split at h
  · cases h
  · split at h
    · cases h
      rfl
    · cases h

theorem ids_filterMap_sublist {f : UUID → Option Summary} (hf : ∀ {id s}, f id = some s → s.id = id)
    (ids : List UUID) : ((ids.filterMap f).map Summary.id).Sublist ids := by
  induction ids with
  | nil => exact .slnil
  | cons id ids ih =>
    rw [List.filterMap_cons]
    cases hid : f id with
    | none => exact ih.cons id
    | some s =>
      rw [List.map_cons, hf hid]
      exact ih.cons_cons id

theorem replayResults_sublist (settings : SearchQuerySettings) (catalog : Catalog) (caller : Caller)
    (used : ℕ) (ids : List UUID) :
    ((replayResults settings catalog caller used ids).map Summary.id).Sublist ids := by
  induction ids generalizing used with
  | nil => exact .slnil
  | cons id ids ih =>
    rw [replayResults]
    cases hid : accepted catalog caller id with
    | none => exact (ih used).cons id
    | some s =>
      dsimp only
      by_cases hfits : used + resultBytes s > settings.maxResponseBytes
      · rw [if_pos hfits]
        exact (ih used).cons id
      · rw [if_neg hfits, List.map_cons, id_of_accepted hid]
        exact (ih _).cons_cons id

/-- What a page that is read holds, beside the visited records `visited` of its session. -/
structure PageState.Sound (settings : SearchQuerySettings) (page : PageState P) : Prop where
  ok : page.Ok settings
  room : page.full = false → page.pending = false ∧ page.results.length < settings.maxResults
  nodup : page.visited.Nodup
  results : (page.results.map Summary.id).Sublist page.visited

theorem PageState.sound_init (position : Option P) : (PageState.init position).Sound settings where
  ok := PageState.ok_init position
  room := fun _ => ⟨rfl, settings.results.1⟩
  nodup := List.nodup_nil
  results := .slnil

theorem Consumes.sound {consumed : List (RankHit P)}
    (h : Consumes settings catalog caller visited page page' consumed) (hsound : page.Sound settings) :
    page'.visited.Nodup ∧ (page'.results.map Summary.id).Sublist page'.visited ∧
      (page.visited.Disjoint visited → page'.visited.Disjoint visited) := by
  have hnew : ∀ x ∈ firstSeen (visited ++ page.visited) (consumed.map RankHit.nodeId),
      x ∉ visited ∧ x ∉ page.visited := by
    intro x hx
    have hnot := (mem_firstSeen.mp hx).2
    exact ⟨fun h => hnot (List.mem_append_left _ h), fun h => hnot (List.mem_append_right _ h)⟩
  rw [h.visited_eq, h.results_eq]
  refine ⟨?_, ?_, ?_⟩
  · exact List.nodup_append'.mpr ⟨hsound.nodup, nodup_firstSeen _ _, fun x hx hx' => (hnew x hx').2 hx⟩
  · rw [List.map_append]
    refine hsound.results.append (ids_filterMap_sublist ?_ _)
    intro id s hs
    obtain ⟨haccepted, -⟩ := Option.filter_eq_some_iff.mp hs
    exact id_of_accepted haccepted
  · intro hdisjoint x hx
    rcases List.mem_append.mp hx with hx | hx
    · exact hdisjoint hx
    · exact (hnew x hx).1

end Page

theorem nextRead_sound {settings : SearchQuerySettings} {hits : List (RankHit P)} {catalog : Catalog}
    {caller : Caller} {visited : List UUID} {progress progress' : Progress P}
    (h : nextRead settings hits catalog caller visited progress = .ok progress')
    (hsound : progress.page.Sound settings) :
    progress'.page.Sound settings ∧
      (progress.page.visited.Disjoint visited → progress'.page.visited.Disjoint visited) := by
  match progress with
  | .ready page complete =>
    cases h
    exact ⟨hsound, id⟩
  | .reading page 0 =>
    cases h
    exact ⟨hsound, id⟩
  | .reading page (remaining + 1) =>
    rw [nextRead] at h
    by_cases hfull : page.full = true
    · rw [if_pos hfull] at h
      cases h
      exact ⟨hsound, id⟩
    rw [if_neg hfull] at h
    by_cases hempty : (readBatch settings hits page.position).isEmpty = true
    · rw [if_pos hempty] at h
      cases h
      exact ⟨hsound, id⟩
    have hlength : (readBatch settings hits page.position).length ≤ settings.batchSize :=
      List.length_take_le _ _
    rw [if_neg hempty, consumeBatch_eq page hlength] at h
    cases h
    obtain ⟨hpending, hroom⟩ := hsound.room (Bool.eq_false_of_not_eq_true hfull)
    obtain ⟨_, consumed, rest, rfl, -, hconsumes, hok, hnot, -⟩ := consumeHits_spec catalog caller visited
      (readBatch settings hits page.position) page hsound.ok (Bool.eq_false_of_not_eq_true hfull) hpending
      hroom
    obtain ⟨hnodup, hresults, hdisjoint⟩ := hconsumes.sound hsound
    exact ⟨⟨hok, fun h => (hnot h).2, hnodup, hresults⟩, hdisjoint⟩

/-! ### The invariant -/

section Invariant

omit [LinearOrder P]

/-- The session stands where the committed pages end. -/
structure SessionOk (commits : List CommittedPage) (stored : SessionRecord P) : Prop where
  version : stored.version = commits.length
  visited : stored.closing = false → stored.visited = commits.flatMap CommittedPage.visited
  replays : ∀ version replay, stored.replays.get version = some replay → ∃ commit ∈ commits,
    commit.version = version ∧ commit.resultIDs = replay.resultIDs ∧ commit.complete = replay.complete

/-- What a request may rely on, and what it has answered. -/
def PhaseOk (settings : SearchQuerySettings) (session : Option (SessionRecord P))
    (commits : List CommittedPage) (version : ℕ) : Phase P → Prop
  | .reading progress => progress.page.Sound settings ∧ version ≤ commits.length ∧
      ∀ stored, session = some stored → stored.version = version → stored.closing = false →
        progress.page.visited.Disjoint stored.visited
  | .answered results complete => ∃ commit ∈ commits, commit.version = version ∧
      (results.map Summary.id).Sublist commit.resultIDs ∧ commit.complete = complete
  | _ => True

structure RaceInv (settings : SearchQuerySettings) (s : RaceState P) : Prop where
  versions : s.commits.map CommittedPage.version = List.range s.commits.length
  nodup : (s.commits.flatMap CommittedPage.visited).Nodup
  results : ∀ commit ∈ s.commits, commit.resultIDs.Sublist commit.visited
  session : ∀ stored, s.session = some stored → SessionOk s.commits stored
  requests : ∀ request ∈ s.requests,
    PhaseOk settings s.session s.commits request.version request.phase

variable {settings : SearchQuerySettings} {s : RaceState P} {session session' : Option (SessionRecord P)}
  {commits : List CommittedPage} {version : ℕ} {phase : Phase P}

theorem RaceInv.init (caller : Caller) : RaceInv settings (.init settings caller : RaceState P) where
  versions := rfl
  nodup := List.nodup_nil
  results := fun _ h => absurd h List.not_mem_nil
  session := by
    intro stored h
    cases h
    exact ⟨rfl, fun _ => rfl, fun _ _ h => absurd h (Option.some_ne_none _).symm⟩
  requests := by
    intro request hmem
    cases List.mem_singleton.mp hmem
    exact ⟨PageState.sound_init none, Nat.zero_le _, fun _ _ _ _ => List.disjoint_nil_left _⟩

/-- A request that changes its phase only. -/
theorem RaceInv.setPhase (h : RaceInv settings s) (i : ℕ) (request : Request P)
    (hphase : PhaseOk settings s.session s.commits request.version phase) :
    RaceInv settings (s.setPhase i request phase) where
  versions := h.versions
  nodup := h.nodup
  results := h.results
  session := h.session
  requests := by
    intro other hmem
    rcases List.mem_or_eq_of_mem_set hmem with hmem | rfl
    · exact h.requests other hmem
    · exact hphase

/-- After a commit or a cleanup no earlier page can be committed. -/
theorem PhaseOk.of_moved (extra : List CommittedPage)
    (hmoved : ∀ stored, session' = some stored → stored.version = version → version ≤ commits.length →
      stored.closing = true)
    (h : PhaseOk settings session commits version phase) :
    PhaseOk settings session' (commits ++ extra) version phase := by
  match phase, h with
  | .begun, _ => trivial
  | .replaying, _ => trivial
  | .failed, _ => trivial
  | .reading progress, ⟨hsound, hversion, _⟩ =>
    refine ⟨hsound, ?_, fun stored hstored hsame hclosing => ?_⟩
    · rw [List.length_append]
      omega
    · have := hmoved stored hstored hsame hversion
      exact absurd (hclosing.symm.trans this) Bool.false_ne_true
  | .answered results complete, ⟨commit, hmem, h⟩ => exact ⟨commit, List.mem_append_left _ hmem, h⟩

/-- A cleanup that leaves a closing session or none. -/
theorem RaceInv.cleanup (h : RaceInv settings s)
    (hsession : ∀ stored, session' = some stored → SessionOk s.commits stored ∧ stored.closing = true) :
    RaceInv settings { s with session := session' } where
  versions := h.versions
  nodup := h.nodup
  results := h.results
  session := fun stored hstored => (hsession stored hstored).1
  requests := by
    intro request hmem
    have := PhaseOk.of_moved [] (fun stored hstored _ _ => (hsession stored hstored).2)
      (h.requests request hmem)
    rwa [List.append_nil] at this

/-- The session after a committed page. -/
theorem SessionOk.applyPageCommit {stored : SessionRecord P} (h : SessionOk commits stored)
    (hclosing : stored.closing = false) (page : PageState P) (complete : Bool) (sortBytes : ℕ) (pitId : String) :
    SessionOk (commits ++ [⟨stored.version, page.visited, page.results.map Summary.id, complete⟩])
      (applyPageCommit stored (page.commit complete sortBytes pitId)) where
  version := by
    rw [List.length_append]
    exact congrArg (· + 1) h.version
  visited := by
    intro _
    rw [List.flatMap_append, ← h.visited hclosing]
    exact congrArg (stored.visited ++ ·) (List.append_nil _).symm
  replays := by
    intro version replay hget
    dsimp only [Search.applyPageCommit] at hget
    by_cases hversion : version = stored.version
    · rw [hversion, Table.get_set_self] at hget
      cases hget
      exact ⟨_, List.mem_append_right _ (List.mem_singleton_self _), hversion.symm, rfl, rfl⟩
    · rw [Table.get_set_ne _ _ (Ne.symm hversion)] at hget
      have hold : stored.replays.get version = some replay := by
        by_cases hzero : stored.version = 0
        · rwa [if_pos hzero] at hget
        · rw [if_neg hzero] at hget
          by_cases hprev : version = stored.version - 1
          · rw [hprev, Table.get_erase_self] at hget
            cases hget
          · rwa [Table.get_erase_ne _ hprev] at hget
      obtain ⟨commit, hmem, hcommit⟩ := h.replays version replay hold
      exact ⟨commit, List.mem_append_left _ hmem, hcommit⟩

theorem commitPage_ok {commit : PageCommit P} {expired : Bool} {stored' : SessionRecord P}
    (h : commitPage session version commit expired = .ok stored') :
    ∃ stored, session = some stored ∧ stored.version = version ∧ stored.closing = false ∧
      stored' = applyPageCommit stored commit := by
  rw [commitPage.eq_def] at h
  split at h
  · cases h
  · cases session with
    | none => cases h
    | some stored =>
      dsimp only at h
      by_cases hversion : stored.version = version
      · rw [if_neg (not_not.mpr hversion)] at h
        by_cases hexpired : stored.closing = true ∨ expired = true
        · rw [if_pos hexpired] at h
          cases h
        · rw [if_neg hexpired] at h
          cases h
          exact ⟨stored, rfl, hversion, Bool.eq_false_of_not_eq_true fun h => hexpired (.inl h), rfl⟩
      · rw [if_pos hversion] at h
        cases h

/-- **A commit keeps the invariant.**  The page is new beside the pages before it, because the session is
still at the version that the page was read for. -/
theorem RaceInv.commit (h : RaceInv settings s) {i : ℕ} {request : Request P} {page : PageState P}
    {complete expired reported : Bool} {sortBytes : ℕ} {pitId : String}
    (hphase : PhaseOk settings s.session s.commits request.version (.reading (.ready page complete))) :
    RaceInv settings (raceCommit s i request page complete expired reported sortBytes pitId) := by
  obtain ⟨hsound, hversion, hdisjoint⟩ := hphase
  rw [raceCommit]
  cases hcommit : commitPage s.session request.version (page.commit complete sortBytes pitId) expired with
  | error e =>
    cases e with
    | _ => exact h.setPhase i request trivial
  | ok stored' =>
    obtain ⟨stored, hstored, hsame, hopen, rfl⟩ := commitPage_ok hcommit
    have hsession := h.session stored hstored
    have hnew : page.visited.Disjoint (s.commits.flatMap CommittedPage.visited) := by
      rw [← hsession.visited hopen]
      exact hdisjoint stored hstored hsame hopen
    have hsessionOk := hsession.applyPageCommit hopen page complete sortBytes pitId
    rw [hsame] at hsessionOk
    refine ⟨?versions, ?nodup, ?results, ?session, ?requests⟩
    case versions =>
      show (s.commits ++ _).map _ = List.range (s.commits ++ _).length
      rw [List.map_append, List.length_append, h.versions, List.length_singleton, List.range_succ,
        ← hsession.version, hsame]
      rfl
    case nodup =>
      show ((s.commits ++ _).flatMap _).Nodup
      rw [List.flatMap_append, List.flatMap_singleton]
      exact List.nodup_append'.mpr ⟨h.nodup, hsound.nodup, fun x hx hx' => hnew hx' hx⟩
    case results =>
      intro commit hmem
      rcases List.mem_append.mp hmem with hmem | hmem
      · exact h.results commit hmem
      · cases List.mem_singleton.mp hmem
        exact hsound.results
    case session =>
      intro other hother
      cases hother
      exact hsessionOk
    case requests =>
      -- the new version is beyond every page that was read before
      have hmoved : ∀ (other : SessionRecord P) version,
          some (Search.applyPageCommit stored (page.commit complete sortBytes pitId)) = some other →
          other.version = version → version ≤ s.commits.length → other.closing = true := by
        rintro other version hother rfl hle
        cases hother
        have hlt : stored.version + 1 ≤ s.commits.length := hle
        rw [hsession.version] at hlt
        omega
      intro other hmem
      rcases List.mem_or_eq_of_mem_set hmem with hmem | rfl
      · exact (h.requests other hmem).of_moved _ fun stored hstored => hmoved stored _ hstored
      · cases reported with
        | false => trivial
        | true => exact ⟨_, List.mem_append_right _ (List.mem_singleton_self _), rfl, .refl _, rfl⟩

theorem get_of_get_foldl_erase {replays : Table ℕ Replay} {cleared : List ℕ} {replay : Replay}
    (h : (cleared.foldl Table.erase replays).get version = some replay) :
    replays.get version = some replay := by
  induction cleared generalizing replays with
  | nil => exact h
  | cons first cleared ih =>
    have hget := ih h
    rw [Table.get_erase] at hget
    split at hget
    · cases hget
    · exact hget

theorem SessionOk.clean {stored : SessionRecord P} (h : SessionOk commits stored)
    (hclosing : stored.closing = true) (kept : UUID → Bool) (cleared : List ℕ) :
    SessionOk commits (cleanSession stored kept cleared) where
  version := h.version
  visited := fun hopen => absurd (hclosing.symm.trans hopen) Bool.false_ne_true.symm
  replays := fun version replay hget => h.replays version replay (get_of_get_foldl_erase hget)

theorem phaseOk_load (h : RaceInv settings s) (version : ℕ) (mismatch expired : Bool) :
    PhaseOk settings s.session s.commits version
      (loadPhase settings s.session version mismatch expired) := by
  rw [loadPhase.eq_def]
  cases hsession : s.session with
  | none => trivial
  | some stored =>
    dsimp only
    cases hadmission : continueSession stored version mismatch expired with
    | refuse error => trivial
    | replay => trivial
    | advance =>
      refine ⟨PageState.sound_init _, ?_, fun _ _ _ _ => List.disjoint_nil_left _⟩
      rw [continueSession] at hadmission
      split at hadmission
      · exact absurd hadmission Admission.noConfusion
      · next hmismatch =>
        have := (h.session stored hsession).version
        omega

theorem phaseOk_replay (h : RaceInv settings s) (request : Request P) (catalog : Catalog) :
    PhaseOk settings s.session s.commits request.version
      (replayPhase settings s.session request catalog) := by
  rw [replayPhase]
  cases hreplay : s.session.bind fun session => session.replays.get request.version with
  | none => trivial
  | some replay =>
    obtain ⟨stored, hstored, hget⟩ := Option.bind_eq_some_iff.mp hreplay
    obtain ⟨commit, hmem, hversion, hresults, hcomplete⟩ :=
      (h.session stored hstored).replays _ replay hget
    exact ⟨commit, hmem, hversion, hresults ▸ replayResults_sublist .., hcomplete⟩

end Invariant

/-- **Every move keeps the invariant.** -/
theorem raceInv_step {settings : SearchQuerySettings} {s s' : RaceState P} {move : RaceMove P}
    (h : RaceInv settings s) (hstep : raceStep settings s move = some s') : RaceInv settings s' := by
  cases move with
  | «begin» version caller =>
    cases hstep
    refine ⟨h.versions, h.nodup, h.results, h.session, fun request hmem => ?_⟩
    rcases List.mem_append.mp hmem with hmem | hmem
    · exact h.requests request hmem
    · cases List.mem_singleton.mp hmem
      trivial
  | load i mismatch expired =>
    obtain ⟨request, hrequest, hstep⟩ := Option.bind_eq_some_iff.mp hstep
    split at hstep
    · cases hstep
      exact h.setPhase i request (phaseOk_load h _ _ _)
    · cases hstep
  | read i hits catalog =>
    obtain ⟨request, hrequest, hstep⟩ := Option.bind_eq_some_iff.mp hstep
    have hphase := h.requests request (List.mem_of_getElem? hrequest)
    split at hstep
    · next progress heq =>
      cases hstep
      rw [heq] at hphase
      obtain ⟨hsound, hversion, hdisjoint⟩ := hphase
      refine h.setPhase i request ?_
      cases hread : nextRead settings hits catalog request.caller s.visited progress with
      | error e => trivial
      | ok progress' =>
        obtain ⟨hsound', hdisjoint'⟩ := nextRead_sound hread hsound
        refine ⟨hsound', hversion, fun stored hstored hsame hopen => ?_⟩
        have hvisited : s.visited = stored.visited := by rw [RaceState.visited, hstored]; rfl
        rw [hvisited] at hdisjoint'
        exact hdisjoint' (hdisjoint stored hstored hsame hopen)
    · cases hstep
  | commit i expired reported =>
    obtain ⟨request, hrequest, hstep⟩ := Option.bind_eq_some_iff.mp hstep
    have hphase := h.requests request (List.mem_of_getElem? hrequest)
    split at hstep
    · next page complete heq =>
      cases hstep
      rw [heq] at hphase
      exact h.commit hphase
    · cases hstep
  | replay i catalog =>
    obtain ⟨request, hrequest, hstep⟩ := Option.bind_eq_some_iff.mp hstep
    split at hstep
    · cases hstep
      exact h.setPhase i request (phaseOk_replay h request catalog)
    · cases hstep
  | fail i =>
    obtain ⟨request, hrequest, hstep⟩ := Option.bind_eq_some_iff.mp hstep
    split at hstep
    · cases hstep
    · cases hstep
      exact h.setPhase i request trivial
  | beginCleanup =>
    cases hstep
    refine h.cleanup fun stored hstored => ?_
    obtain ⟨before, hbefore, rfl⟩ := Option.map_eq_some_iff.mp hstored
    have hok := h.session before hbefore
    exact ⟨⟨hok.version, fun hopen => Bool.noConfusion hopen, hok.replays⟩, rfl⟩
  | cleanupSlice kept cleared last =>
    obtain ⟨stored, hstored, hstep⟩ := Option.bind_eq_some_iff.mp hstep
    by_cases hclosing : stored.closing = true
    · rw [if_pos hclosing] at hstep
      cases hstep
      refine h.cleanup fun other hother => ?_
      cases last with
      | true => cases hother
      | false =>
        cases hother
        exact ⟨(h.session stored hstored).clean hclosing kept cleared, hclosing⟩
    · rw [if_neg hclosing] at hstep
      cases hstep

/-! ### Exactly once -/

/-- What holds of the answers in a state: a version is committed at most once, the answers for a version
belong to its committed page, and no node is answered for two versions. -/
structure AnswersOk (s : RaceState P) : Prop where
  once : (s.commits.map CommittedPage.version).Nodup
  committed : ∀ request ∈ s.requests, ∀ results complete, request.phase = .answered results complete →
    ∃ commit ∈ s.commits, commit.version = request.version ∧
      (results.map Summary.id).Sublist commit.resultIDs ∧ commit.complete = complete
  apart : ∀ request ∈ s.requests, ∀ results complete, request.phase = .answered results complete →
    ∀ other ∈ s.requests, ∀ results' complete', other.phase = .answered results' complete' →
      request.version ≠ other.version → (results.map Summary.id).Disjoint (results'.map Summary.id)

section Answers

omit [LinearOrder P]

variable {settings : SearchQuerySettings} {s : RaceState P}

/-- Two pages of the log share no node. -/
theorem disjoint_of_nodup_flatMap {commits : List CommittedPage}
    (h : (commits.flatMap CommittedPage.visited).Nodup) {commit other : CommittedPage}
    (hcommit : commit ∈ commits) (hother : other ∈ commits) (hne : commit ≠ other) :
    commit.visited.Disjoint other.visited := by
  have hsymm : Std.Symm (Function.onFun List.Disjoint CommittedPage.visited) :=
    ⟨fun _ _ hdisjoint _ hx hx' => hdisjoint hx' hx⟩
  exact (List.nodup_flatMap.mp h).2.forall hcommit hother hne

theorem RaceInv.committed (h : RaceInv settings s) {request : Request P} (hmem : request ∈ s.requests)
    {results : List Summary} {complete : Bool} (hphase : request.phase = .answered results complete) :
    ∃ commit ∈ s.commits, commit.version = request.version ∧
      (results.map Summary.id).Sublist commit.resultIDs ∧ commit.complete = complete := by
  have hok := h.requests request hmem
  rwa [hphase] at hok

theorem RaceInv.answersOk (h : RaceInv settings s) : AnswersOk s where
  once := h.versions ▸ List.nodup_range
  committed := fun _ hmem _ _ hphase => h.committed hmem hphase
  apart := by
    intro request hmem results complete hphase other hother results' complete' hphase' hne
    obtain ⟨commit, hcommit, hversion, hsub, -⟩ := h.committed hmem hphase
    obtain ⟨commit', hcommit', hversion', hsub', -⟩ := h.committed hother hphase'
    have hdifferent : commit ≠ commit' := by
      rintro rfl
      exact hne (hversion.symm.trans hversion')
    have hdisjoint := disjoint_of_nodup_flatMap h.nodup hcommit hcommit' hdifferent
    intro id hid hid'
    exact hdisjoint ((h.results commit hcommit).subset (hsub.subset hid))
      ((h.results commit' hcommit').subset (hsub'.subset hid'))

end Answers

/-- **Paging is exactly once.** -/
theorem paging_exactly_once (settings : SearchQuerySettings) (hits : List (RankHit P))
    (hsort : StrictSort hits) (catalog : Catalog) (caller : Caller) (answers : SnapshotAnswers P) :
    (∃ pages, searchAll settings hits catalog caller answers (hits.length + 1) = .ok (some pages) ∧
      pages.flatMap SearchPage.results = expectedResults settings hits catalog caller ∧
      ∀ page ∈ pages, page.Within settings) ∧
    ∀ s, Reach (raceStep settings) anyMove (.init settings caller : RaceState P) s → AnswersOk s := by
  refine ⟨searchAll_spec hsort catalog caller answers, fun s hreach => ?_⟩
  have hinv : RaceInv settings s :=
    hreach.invariant (RaceInv.init caller) fun h _ hstep => raceInv_step h hstep
  exact hinv.answersOk

/-- Pages of two results from batches of two hits. -/
def smallPages : SearchQuerySettings := ⟨1024, 2, 2, 2, by decide, by decide, by decide⟩

/-- A node with two hits, and a node that no caller may see. -/
def repeatedHits : List (RankHit ℕ) := [⟨1, 10⟩, ⟨2, 20⟩, ⟨1, 30⟩, ⟨3, 40⟩, ⟨4, 50⟩]

/-- Every node but the second one is open to holders of one key. -/
def openCatalog : Catalog := fun nodeId => if nodeId = 2 then none else some ⟨"page", "n", [utf8 ['k']]⟩

/-- A holder of that key and of another one. -/
def keyHolder : Caller := ⟨⟨utf8 ['v'], [utf8 ['k'], utf8 ['l']]⟩, ""⟩

/-- The index renames its snapshot with every page. -/
def smallAnswers : SnapshotAnswers ℕ where
  pitId version := if version % 2 = 0 then "pit" else "tip"
  sortBytes _ := 4
  pitId_ne version := by split_ifs <;> decide
  fits version sort := by split_ifs <;> decide

theorem paging_exactly_once_example :
    StrictSort repeatedHits ∧
    (∃ pages, searchAll smallPages repeatedHits openCatalog keyHolder smallAnswers 6 = .ok (some pages) ∧
      (pages.flatMap SearchPage.results).map Summary.id = [1, 3, 4] ∧
      ∀ page ∈ pages, page.Within smallPages) ∧
    ∀ s, Reach (raceStep smallPages) anyMove (.init smallPages keyHolder : RaceState ℕ) s → AnswersOk s := by
  have hsort : StrictSort repeatedHits := by
    unfold StrictSort repeatedHits
    decide
  obtain ⟨⟨pages, hpages, hresults, hwithin⟩, hrace⟩ :=
    paging_exactly_once smallPages repeatedHits hsort openCatalog keyHolder smallAnswers
  refine ⟨hsort, ⟨pages, hpages, ?_, hwithin⟩, hrace⟩
  rw [hresults]
  decide +kernel

end Tack.Search

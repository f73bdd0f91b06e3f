import Tack.Lib.History
import Tack.Lib.Run
import Tack.SearchIndex.GuardedWrite

/-!
# Concurrent calls on the page documents

Any number of calls read and write the documents of the indexes.  A multi-get reads its documents one by
one while others write.  A sent operation is applied at any later time, once, more than once or never,
whatever becomes of its call.  An answer may be lost, and it may report a failure of an operation that was
applied; it reports success only for an operation that was.

Beside the documents the state keeps what the statements speak about: the reads, the applied operations
and the results of the calls, in order.

## Main definitions

* `SearchIndex.Call`, `SearchIndex.World`, `SearchIndex.worldStep` — the system.
* `SearchIndex.Met` — a page of a guarded write was written by it or found not to need the write.

## Main results

* `SearchIndex.WorldInv.step` — what every move keeps.
* `SearchIndex.guarded_writes_monotone_and_truthful` — stored pages only move forward, and the results of
  the calls tell what happened.
-/

namespace Tack.SearchIndex

open Lib

/-! ### The system -/

/-- How far the write of one index is. -/
inductive CallStage
  /-- The head of the attempt loop. -/
  | start
  /-- A multi-get is under way: the documents still to read, and the states read so far. -/
  | reading (pending : List String) (states : String → PageState)
  /-- Between bulk requests; the number of accepted operations. -/
  | submitting (plan : GuardedPlan) (done : ℕ)
  /-- A bulk request of `count` operations is under way. -/
  | waiting (plan : GuardedPlan) (done first count : ℕ)
  /-- The write of this index has returned. -/
  | returned (accepted : ℕ) (error : Option WriteError)
  | finished (accepted written : ℕ) (error : Option WriteError)

structure Call where
  request : CallRequest
  leg : Leg
  attempt : ℕ
  /-- The accepted prefix of earlier attempts. -/
  accepted : ℕ
  /-- The bytes sent to this index. -/
  written : ℕ
  /-- What the target accepted, and the bytes sent to it. -/
  earlier : ℕ × ℕ
  stage : CallStage

/-- What has happened, with the index at that time. -/
inductive Entry
  | read (call : ℕ) (leg : Leg) (id : String) (store : IndexStore)
  /-- An operation was applied; the index is the one after it. -/
  | wrote (call : ℕ) (leg : Leg) (action : BulkAction) (store : IndexStore)
  /-- The write of one index returned. -/
  | returned (call : ℕ) (request : CallRequest) (leg : Leg) (accepted : ℕ) (error : Option WriteError)
  /-- The call returned. -/
  | finished (call : ℕ) (request : CallRequest) (accepted written : ℕ) (error : Option WriteError)

/-- An operation that was sent. -/
structure Sent where
  call : ℕ
  leg : Leg
  action : BulkAction

structure World where
  stores : String → IndexStore
  calls : ℕ → Option Call
  sent : List Sent
  /-- The positions of the operations that were applied. -/
  applied : List ℕ
  log : List Entry

/-- Any documents, and no call yet. -/
def World.init (stores : String → IndexStore) : World := ⟨stores, fun _ => none, [], [], []⟩

inductive Move
  | call (c : ℕ) (request : CallRequest)
  /-- A step of the call that needs no answer. -/
  | proceed (c : ℕ)
  | readDocument (c : ℕ) (id : String)
  | readReply (c : ℕ) (ok : Bool)
  | send (c : ℕ)
  | deliver (position : ℕ)
  /-- An answer to the bulk request under way; `none` when there is none. -/
  | reply (c : ℕ) (response : Option (List BulkRow))
  /-- Another copy of the index becomes the primary one. -/
  | failover (index : String)

namespace Call

def index (call : Call) : String := call.request.index call.leg

def begin (request : CallRequest) : Call :=
  ⟨request, .target, 1, 0, 0, (0, 0),
    match request.check with
    | some error => .finished 0 0 (some error)
    | none => .start⟩

/-- The head of the attempt loop, and the start of an access update. -/
def loopHead (call : Call) : CallStage :=
  match call.request.guarded call.leg with
  | some (pages, _) =>
    let remaining := pages.drop call.accepted
    if remaining.isEmpty then .returned call.accepted none
    else .reading (remaining.map GuardedPage.documentID) fun _ => .absent
  | none => .submitting ⟨call.request.accessOperations call.leg, [], none⟩ 0

def retries (call : Call) : WriteError → Bool
  | .concurrent _ => call.attempt < maxGuardedAttempts
  | _ => false

/-- After the submission of an attempt, of which `count` operations were accepted. -/
def afterBulk (call : Call) (plan : GuardedPlan) (count : ℕ) (error : Option WriteError) : Call :=
  match call.request.guarded call.leg with
  | none => { call with stage := .returned count error }
  | some (pages, _) =>
    match error with
    | some error =>
      let accepted := call.accepted + plan.positions.getD count 0
      if call.retries error then
        { call with accepted := accepted, attempt := call.attempt + 1, stage := .start }
      else { call with stage := .returned accepted (some error) }
    | none =>
      match plan.stale with
      | some stale =>
        let accepted := call.accepted + plan.positions.getD plan.operations.length 0
        { call with stage := .returned accepted (some stale) }
      | none => { call with stage := .returned pages.length none }

/-- The mirror is written after the target, when the target has no error. -/
def afterLeg (call : Call) (accepted : ℕ) (error : Option WriteError) : Call :=
  match call.leg with
  | .target =>
    if error.isSome ∨ call.request.work.mirror = "" then
      { call with stage := .finished accepted call.written error }
    else ⟨call.request, .mirror, 1, 0, 0, (accepted, call.written), .start⟩
  | .mirror =>
    { call with stage := .finished (min call.earlier.1 accepted) (call.earlier.2 + call.written) error }

/-- What a call adds to the log when it gets to its stage. -/
def entries (c : ℕ) (call : Call) : List Entry :=
  match call.stage with
  | .returned accepted error => [.returned c call.request call.leg accepted error]
  | .finished accepted written error => [.finished c call.request accepted written error]
  | _ => []

end Call

def World.setCall (w : World) (c : ℕ) (call : Call) : World :=
  { w with calls := Function.update w.calls c (some call), log := w.log ++ call.entries c }

/-- The answer reports success only for operations that were applied. -/
def truthful (applied : List ℕ) (first : ℕ) (rows : List BulkRow) (operations : List BulkAction) : Bool :=
  (List.range operations.length).all fun k =>
    match (rows.flatMap BulkRow.items)[k]?, operations[k]? with
    | some item, some operation =>
      !(item.id == some operation.documentID && item.succeeded) || decide (first + k ∈ applied)
    | _, _ => true

def proceedStep (w : World) (c : ℕ) (call : Call) : Option World :=
  match call.stage with
  | .start => some (w.setCall c { call with stage := call.loopHead })
  | .submitting plan done =>
    if done = plan.operations.length then some (w.setCall c (call.afterBulk plan done none)) else none
  | .returned accepted error => some (w.setCall c (call.afterLeg accepted error))
  | _ => none

def readDocumentStep (w : World) (c : ℕ) (id : String) (call : Call) : Option World :=
  match call.stage with
  | .reading pending states =>
    if id ∈ pending then
      let store := w.stores call.index
      let states := Function.update states id (store.pageState id)
      some { w with
        calls := Function.update w.calls c (some { call with stage := .reading (pending.erase id) states })
        log := w.log ++ [.read c call.leg id store] }
    else none
  | _ => none

def readReplyStep (w : World) (c : ℕ) (ok : Bool) (call : Call) : Option World :=
  match call.stage, call.request.guarded call.leg with
  | .reading pending states, some (pages, rule) =>
    if !ok then some (w.setCall c { call with stage := .returned call.accepted (some .readFailed) })
    else if pending ≠ [] then none
    else
      let plan := planGuardedWrite call.index states rule 0 (pages.drop call.accepted)
      some (w.setCall c { call with
        written := call.written + (plan.operations.map fun action => action.encoded.length).sum
        stage := .submitting plan 0 })
  | _, _ => none

def sendStep (w : World) (c : ℕ) (call : Call) : Option World :=
  match call.stage with
  | .submitting plan done =>
    let rest := plan.operations.drop done
    if rest.isEmpty then none
    else
      let count := nextBulkRequest rest
      some { w with
        calls := Function.update w.calls c
          (some { call with stage := .waiting plan done w.sent.length count })
        sent := w.sent ++ (rest.take count).map fun action => ⟨c, call.leg, action⟩ }
  | _ => none

def deliverStep (w : World) (position : ℕ) (sent : Sent) : Option World :=
  ((w.stores sent.action.target).apply sent.action).map fun store =>
    { w with
      stores := Function.update w.stores sent.action.target store
      applied := position :: w.applied
      log := w.log ++ [.wrote sent.call sent.leg sent.action store] }

def replyStep (w : World) (c : ℕ) (response : Option (List BulkRow)) (call : Call) : Option World :=
  match call.stage with
  | .waiting plan done first count =>
    match response with
    | none => some (w.setCall c (call.afterBulk plan done (some .requestFailed)))
    | some rows =>
      let operations := (plan.operations.drop done).take count
      if !truthful w.applied first rows operations then none
      else
        match checkBulkItems rows operations call.request.policy with
        | (accepted, none) => some (w.setCall c { call with stage := .submitting plan (done + accepted) })
        | (accepted, some error) => some (w.setCall c (call.afterBulk plan (done + accepted) (some error)))
  | _ => none

def worldStep (w : World) : Move → Option World
  | .call c request =>
    match w.calls c with
    | some _ => none
    | none => some (w.setCall c (.begin request))
  | .proceed c => (w.calls c).bind (proceedStep w c)
  | .readDocument c id => (w.calls c).bind (readDocumentStep w c id)
  | .readReply c ok => (w.calls c).bind (readReplyStep w c ok)
  | .send c => (w.calls c).bind (sendStep w c)
  | .deliver position => (w.sent[position]?).bind (deliverStep w position)
  | .reply c response => (w.calls c).bind (replyStep w c response)
  | .failover index =>
    let store := w.stores index
    some { w with
      stores := Function.update w.stores index { store with primaryTerm := store.primaryTerm + 1 } }

/-! ### What holds of a call -/

/-- The page was written by the call, or a read of the call found that it needs no write. -/
def Met (log : List Entry) (c : ℕ) (leg : Leg) (page : GuardedPage) (rule : StaleRule) : Prop :=
  (∃ action store, .wrote c leg action store ∈ log ∧ action.documentID = page.documentID ∧
    store.page page.documentID = some page.page) ∨
  ∃ store, .read c leg page.documentID store ∈ log ∧
    decideGuardedWrite (store.pageState page.documentID) page.generation rule = .skip

/-- The first pages were met. -/
def MetPrefix (log : List Entry) (c : ℕ) (leg : Leg) (pages : List GuardedPage) (rule : StaleRule)
    (count : ℕ) : Prop :=
  ∀ n page, n < count → pages[n]? = some page → Met log c leg page rule

/-- The call read the state of a document. -/
def WasRead (log : List Entry) (c : ℕ) (leg : Leg) (id : String) (state : PageState) : Prop :=
  ∃ store, .read c leg id store ∈ log ∧ state = store.pageState id

/-- An operation of the call was applied. -/
def WasApplied (log : List Entry) (c : ℕ) (leg : Leg) (action : BulkAction) : Prop :=
  ∃ store, .wrote c leg action store ∈ log ∧
    ∀ page, action.written = some page → store.page action.documentID = some page

/-- The operations of a plan may be sent to the index, and a guarded plan is made of what was read. -/
structure PlanInv (w : World) (c : ℕ) (call : Call) (plan : GuardedPlan) : Prop where
  sound : ∀ action ∈ plan.operations, action.target = call.index ∧ action.Sound (w.stores call.index)
  guarded : ∀ pages rule, call.request.guarded call.leg = some (pages, rule) → ∃ states,
    plan = planGuardedWrite call.index states rule 0 (pages.drop call.accepted) ∧
    ∀ page ∈ pages.drop call.accepted, WasRead w.log c call.leg page.documentID (states page.documentID)

/-- The first operations of a plan were applied. -/
def AppliedPrefix (w : World) (c : ℕ) (call : Call) (plan : GuardedPlan) (done : ℕ) : Prop :=
  call.request.policy = .guarded → ∀ k action, k < done → plan.operations[k]? = some action →
    WasApplied w.log c call.leg action

/-- What holds at each stage. -/
def StageInv (w : World) (c : ℕ) (call : Call) : CallStage → Prop
  | .start => True
  | .reading pending states => (∀ id, Saw (w.stores call.index) id (states id)) ∧
      ∀ pages rule, call.request.guarded call.leg = some (pages, rule) →
        ∀ page ∈ pages.drop call.accepted, page.documentID ∈ pending ∨
          WasRead w.log c call.leg page.documentID (states page.documentID)
  | .submitting plan done =>
      PlanInv w c call plan ∧ done ≤ plan.operations.length ∧ AppliedPrefix w c call plan done
  | .waiting plan done first count =>
      PlanInv w c call plan ∧ done + count ≤ plan.operations.length ∧ AppliedPrefix w c call plan done ∧
      ∀ k < count, w.sent[first + k]? = (plan.operations[done + k]?).map fun action => ⟨c, call.leg, action⟩
  | .returned accepted error => ∀ pages rule, call.request.guarded call.leg = some (pages, rule) →
      accepted ≤ pages.length ∧ (error = none → accepted = pages.length) ∧
        MetPrefix w.log c call.leg pages rule accepted
  | .finished _ _ _ => True

structure CallInv (w : World) (c : ℕ) (call : Call) : Prop where
  accepted : ∀ pages rule, call.request.guarded call.leg = some (pages, rule) →
    call.accepted ≤ pages.length ∧ MetPrefix w.log c call.leg pages rule call.accepted
  /-- The mirror is written after the whole target. -/
  mirror : call.leg = .mirror → ∀ pages rule, call.request.guarded .target = some (pages, rule) →
    MetPrefix w.log c .target pages rule pages.length
  stage : StageInv w c call call.stage

/-- What an entry says about the entries before it. -/
def Explains (before : List Entry) : Entry → Prop
  | .returned c request leg accepted error => ∀ pages rule, request.guarded leg = some (pages, rule) →
      accepted ≤ pages.length ∧ (error = none → accepted = pages.length) ∧
        MetPrefix before c leg pages rule accepted
  | .finished c request _ _ none => ∀ leg, (leg = .mirror → request.work.mirror ≠ "") →
      ∀ pages rule, request.guarded leg = some (pages, rule) → MetPrefix before c leg pages rule pages.length
  | _ => True

structure WorldInv (w : World) : Prop where
  calls : ∀ c call, w.calls c = some call → CallInv w c call
  sent : ∀ sent ∈ w.sent, sent.action.Sound (w.stores sent.action.target)
  applied : ∀ position ∈ w.applied, ∃ sent, w.sent[position]? = some sent ∧
    WasApplied w.log sent.call sent.leg sent.action
  explained : Explained Explains w.log

/-! ### What grows -/

/-- Earlier reads of an index stay earlier reads, and its pages move forward. -/
structure Advances (store store' : IndexStore) : Prop where
  saw : ∀ {id state}, Saw store id state → Saw store' id state
  sound : ∀ {action : BulkAction}, action.Sound store → action.Sound store'
  follows : ∀ {id before}, store.page id = some before →
    ∃ page, store'.page id = some page ∧ Follows before page

theorem Advances.refl (store : IndexStore) : Advances store store :=
  ⟨id, id, fun h => ⟨_, h, .refl _⟩⟩

/-- The log and the sent operations grow, and the indexes move forward. -/
structure Extends (w w' : World) : Prop where
  log : w.log <+: w'.log
  sent : w.sent <+: w'.sent
  stores : ∀ index, Advances (w.stores index) (w'.stores index)

section Grows

variable {w w' : World} {log log' : List Entry} {c : ℕ} {leg : Leg} {call : Call}

theorem Met.mono {page : GuardedPage} {rule : StaleRule} (h : Met log c leg page rule) (hlog : log <+: log') :
    Met log' c leg page rule := by
  rcases h with ⟨action, store, hmem, hfields⟩ | ⟨store, hmem, hskip⟩
  · exact .inl ⟨action, store, hlog.subset hmem, hfields⟩
  · exact .inr ⟨store, hlog.subset hmem, hskip⟩

theorem MetPrefix.mono {pages : List GuardedPage} {rule : StaleRule} {count : ℕ}
    (h : MetPrefix log c leg pages rule count) (hlog : log <+: log') :
    MetPrefix log' c leg pages rule count :=
  fun n page hn hpage => (h n page hn hpage).mono hlog

theorem WasRead.mono {id : String} {state : PageState} (h : WasRead log c leg id state)
    (hlog : log <+: log') : WasRead log' c leg id state := by
  obtain ⟨store, hmem, hstate⟩ := h
  exact ⟨store, hlog.subset hmem, hstate⟩

theorem WasApplied.mono {action : BulkAction} (h : WasApplied log c leg action) (hlog : log <+: log') :
    WasApplied log' c leg action := by
  obtain ⟨store, hmem, hstored⟩ := h
  exact ⟨store, hlog.subset hmem, hstored⟩

theorem PlanInv.extend {plan : GuardedPlan} (h : PlanInv w c call plan) (hext : Extends w w') :
    PlanInv w' c call plan where
  sound action haction := (h.sound action haction).imp_right (hext.stores _).sound
  guarded pages rule hguarded := by
    obtain ⟨states, hplan, hread⟩ := h.guarded pages rule hguarded
    exact ⟨states, hplan, fun page hpage => (hread page hpage).mono hext.log⟩

theorem AppliedPrefix.extend {plan : GuardedPlan} {done : ℕ} (h : AppliedPrefix w c call plan done)
    (hext : Extends w w') : AppliedPrefix w' c call plan done :=
  fun hpolicy k action hk haction => (h hpolicy k action hk haction).mono hext.log

theorem getElem?_of_prefix {α : Type*} {l l' : List α} (h : l <+: l') {k : ℕ} {a : α}
    (ha : l[k]? = some a) : l'[k]? = some a := by
  obtain ⟨rest, rfl⟩ := h
  obtain ⟨hk, rfl⟩ := List.getElem?_eq_some_iff.mp ha
  rw [List.getElem?_append_left hk, List.getElem?_eq_getElem hk]

theorem StageInv.extend {stage : CallStage} (h : StageInv w c call stage) (hext : Extends w w') :
    StageInv w' c call stage := by
  cases stage with
  | start => trivial
  | reading pending states =>
    refine ⟨fun id => (hext.stores _).saw (h.1 id), fun pages rule hguarded page hpage => ?_⟩
    exact (h.2 pages rule hguarded page hpage).imp_right fun hread => hread.mono hext.log
  | submitting plan done => exact ⟨h.1.extend hext, h.2.1, h.2.2.extend hext⟩
  | waiting plan done first count =>
    obtain ⟨hplan, hle, happlied, hsent⟩ := h
    refine ⟨hplan.extend hext, hle, happlied.extend hext, fun k hk => ?_⟩
    have hoperation : done + k < plan.operations.length := by omega
    rw [List.getElem?_eq_getElem hoperation]
    refine getElem?_of_prefix hext.sent ?_
    rw [hsent k hk, List.getElem?_eq_getElem hoperation]
    rfl
  | returned accepted error =>
    intro pages rule hguarded
    obtain ⟨hle, hnone, hmet⟩ := h pages rule hguarded
    exact ⟨hle, hnone, hmet.mono hext.log⟩
  | finished => trivial

theorem CallInv.extend (h : CallInv w c call) (hext : Extends w w') : CallInv w' c call where
  accepted pages rule hguarded := (h.accepted pages rule hguarded).imp_right fun hmet => hmet.mono hext.log
  mirror hleg pages rule hguarded := (h.mirror hleg pages rule hguarded).mono hext.log
  stage := h.stage.extend hext

theorem Extends.of_log (hlog : w.log <+: w'.log) (hsent : w.sent <+: w'.sent) (hstores : w'.stores = w.stores) :
    Extends w w' :=
  ⟨hlog, hsent, fun _ => hstores ▸ .refl _⟩

/-- One index changes. -/
theorem Extends.of_store {index : String} {store : IndexStore} (hlog : w.log <+: w'.log)
    (hsent : w.sent <+: w'.sent) (hstores : w'.stores = Function.update w.stores index store)
    (hadvances : Advances (w.stores index) store) : Extends w w' := by
  refine ⟨hlog, hsent, fun other => ?_⟩
  rw [hstores]
  by_cases hother : other = index
  · subst hother
    rwa [Function.update_self]
  · rw [Function.update_of_ne hother]
    exact .refl _

end Grows

/-! ### The moves -/

section Moves

variable {w w' : World} {c : ℕ} {call : Call}

theorem CallRequest.policy_of_guarded {request : CallRequest} {leg : Leg} {pages : List GuardedPage}
    {rule : StaleRule} (h : request.guarded leg = some (pages, rule)) : request.policy = .guarded := by
  cases request with
  | put => rfl
  | updateAccess => cases h
  | retire => rfl

variable {plan : GuardedPlan} {count accepted : ℕ} {error : Option WriteError} {id : String} {move : Move}

/-- The pages before the position of an operation are met when the operations before it were applied. -/
theorem PlanInv.met {pages : List GuardedPage} {rule : StaleRule}
    (h : PlanInv w c call plan) (hcall : CallInv w c call)
    (hguarded : call.request.guarded call.leg = some (pages, rule)) (hcount : count ≤ plan.operations.length)
    (happlied : AppliedPrefix w c call plan count) :
    call.accepted + plan.positions.getD count 0 ≤ pages.length ∧
      MetPrefix w.log c call.leg pages rule (call.accepted + plan.positions.getD count 0) := by
  obtain ⟨states, rfl, hread⟩ := h.guarded pages rule hguarded
  obtain ⟨haccepted, hmet⟩ := hcall.accepted pages rule hguarded
  have hbound := Nat.lt_succ_of_le hcount
  rw [Nat.succ_eq_add_one, ← length_positions] at hbound
  obtain ⟨stop, hstop⟩ : ∃ stop, (planGuardedWrite call.index states rule 0
      (pages.drop call.accepted)).positions[count]? = some stop := ⟨_, List.getElem?_eq_getElem hbound⟩
  obtain ⟨hle, hall⟩ := planGuardedWrite_positions hstop
  rw [List.getD_eq_getElem?_getD, hstop, Option.getD_some]
  rw [List.length_drop] at hle
  refine ⟨by omega, fun n page hn hpage => ?_⟩
  by_cases hold : n < call.accepted
  · exact hmet n page hold hpage
  · have hdrop : (pages.drop call.accepted)[n - call.accepted]? = some page := by
      rw [List.getElem?_drop, Nat.add_sub_cancel' (not_lt.mp hold), hpage]
    rcases hall (n - call.accepted) page (by omega) hdrop with hskip | ⟨j, hj, hoperation⟩
    · obtain ⟨store, hentry, hstate⟩ := hread page (List.mem_of_getElem? hdrop)
      exact .inr ⟨store, hentry, hstate ▸ hskip⟩
    · obtain ⟨store, hentry, hstored⟩ :=
        happlied (CallRequest.policy_of_guarded hguarded) j _ hj hoperation
      rw [guardedOperation, documentID_encodeGuarded, written_encodeGuarded] at hstored
      exact .inl ⟨_, store, hentry, documentID_encodeGuarded .., hstored page.page rfl⟩

/-- A submission that ended leaves the call at the head of the loop or returned. -/
theorem CallInv.afterBulk
    (h : CallInv w c call) (hplan : PlanInv w c call plan) (hcount : count ≤ plan.operations.length)
    (happlied : AppliedPrefix w c call plan count)
    (herror : error = none → count = plan.operations.length) :
    CallInv w c (call.afterBulk plan count error) := by
  rw [Call.afterBulk]
  split
  next hguarded =>
    refine ⟨h.accepted, h.mirror, fun pages rule hsome => ?_⟩
    cases hguarded.symm.trans hsome
  next pages rule hguarded =>
    have hmet := hplan.met h hguarded hcount happlied
    have hreturned : ∀ {accepted : ℕ} {error : Option WriteError},
        accepted ≤ pages.length → (error = none → accepted = pages.length) →
        MetPrefix w.log c call.leg pages rule accepted →
        CallInv w c { call with stage := .returned accepted error } := by
      intro accepted error hle hnone haccepted
      refine ⟨h.accepted, h.mirror, fun pages' rule' hguarded' => ?_⟩
      cases hguarded.symm.trans hguarded'
      exact ⟨hle, hnone, haccepted⟩
    split
    next error =>
      dsimp only
      split_ifs
      · refine ⟨fun pages' rule' hguarded' => ?_, h.mirror, trivial⟩
        cases hguarded.symm.trans hguarded'
        exact hmet
      · exact hreturned hmet.1 nofun hmet.2
    · obtain rfl := herror rfl
      split
      · exact hreturned hmet.1 nofun hmet.2
      next hstale =>
        refine hreturned le_rfl (fun _ => rfl) ?_
        obtain ⟨states, rfl, -⟩ := hplan.guarded pages rule hguarded
        rw [List.getD_eq_getElem?_getD, planGuardedWrite_end hstale, Option.getD_some, List.length_drop,
          Nat.zero_add, Nat.add_sub_cancel' (h.accepted pages rule hguarded).1] at hmet
        exact hmet.2

theorem afterBulk_not_finished {written : ℕ} {result : Option WriteError} :
    (call.afterBulk plan count error).stage ≠ .finished accepted written result := by
  rw [Call.afterBulk]
  split
  · nofun
  · split
    · dsimp only
      split_ifs <;> nofun
    · split <;> nofun

theorem CallInv.loopHead (h : CallInv w c call) : CallInv w c { call with stage := call.loopHead } := by
  refine ⟨h.accepted, h.mirror, ?_⟩
  rw [Call.loopHead]
  split
  next pages rule hguarded =>
    dsimp only
    obtain ⟨haccepted, hmet⟩ := h.accepted pages rule hguarded
    split_ifs with hempty
    · intro pages' rule' hguarded'
      cases hguarded.symm.trans hguarded'
      refine ⟨haccepted, fun _ => haccepted.antisymm ?_, hmet⟩
      exact List.drop_eq_nil_iff.mp (List.isEmpty_iff.mp hempty)
    · refine ⟨fun id => saw_absent _ id, fun pages' rule' hguarded' page hpage => ?_⟩
      cases hguarded.symm.trans hguarded'
      exact .inl (List.mem_map_of_mem hpage)
  next hguarded =>
    refine ⟨⟨fun action haction => ?_, fun pages rule hsome => ?_⟩, Nat.zero_le _,
      fun _ k action hk => absurd hk (Nat.not_lt_zero k)⟩
    · cases hrequest : call.request with
      | put => simp [hrequest, CallRequest.accessOperations] at haction
      | retire => simp [hrequest, CallRequest.accessOperations] at haction
      | updateAccess work documents access =>
        simp only [hrequest, CallRequest.accessOperations, List.mem_map] at haction
        obtain ⟨document, -, rfl⟩ := haction
        exact ⟨rfl, trivial⟩
    · cases hguarded.symm.trans hsome

/-- The call goes on to the mirror or ends. -/
theorem CallInv.afterLeg (h : CallInv w c call) (hstage : call.stage = .returned accepted error) :
    CallInv w c (call.afterLeg accepted error) ∧ ∀ n m,
      (call.afterLeg accepted error).stage = .finished n m none →
        Explains w.log (.finished c call.request n m none) := by
  have hreturned := h.stage
  rw [hstage] at hreturned
  have hall : error = none → ∀ pages rule, call.request.guarded call.leg = some (pages, rule) →
      MetPrefix w.log c call.leg pages rule pages.length := by
    intro hnone pages rule hguarded
    obtain ⟨-, hlength, hmet⟩ := hreturned pages rule hguarded
    exact hlength hnone ▸ hmet
  rw [Call.afterLeg]
  split
  next hleg =>
    split_ifs with hends
    · refine ⟨⟨h.accepted, h.mirror, trivial⟩, fun n m hfinished leg hmirror => ?_⟩
      cases hfinished
      have hempty := hends.resolve_left (by simp)
      cases leg with
      | target => exact hleg ▸ hall rfl
      | mirror => exact absurd hempty (hmirror rfl)
    · rw [not_or, Option.not_isSome_iff_eq_none] at hends
      refine ⟨⟨fun pages rule _ => ⟨Nat.zero_le _, fun n page hn => absurd hn (Nat.not_lt_zero n)⟩,
        fun _ => hleg ▸ hall hends.1, trivial⟩, fun n m hfinished => ?_⟩
      cases hfinished
  next hleg =>
    refine ⟨⟨h.accepted, h.mirror, trivial⟩, fun n m hfinished leg _ => ?_⟩
    cases hfinished
    cases leg with
    | target => exact h.mirror hleg
    | mirror => exact hleg ▸ hall rfl

theorem WorldInv.setCall (h : WorldInv w) (hcall : CallInv w c call)
    (hfinished : ∀ n m, call.stage = .finished n m none → Explains w.log (.finished c call.request n m none)) :
    Extends w (w.setCall c call) ∧ WorldInv (w.setCall c call) := by
  have hext : Extends w (w.setCall c call) :=
    .of_log (List.prefix_append _ _) List.prefix_rfl rfl
  refine ⟨hext, fun c' call' hcall' => ?_, h.sent, fun position hposition => ?_, ?_⟩
  · rcases update_eq_some hcall' with ⟨-, hbefore⟩ | ⟨rfl, hnew⟩
    · exact (h.calls c' call' hbefore).extend hext
    · cases hnew
      exact hcall.extend hext
  · obtain ⟨sent, hsent, happlied⟩ := h.applied position hposition
    exact ⟨sent, hsent, happlied.mono hext.log⟩
  · have hstage := hcall.stage
    rw [World.setCall, Call.entries]
    split
    next accepted error hreturned =>
      rw [hreturned] at hstage
      exact h.explained.concat hstage
    next accepted written error hdone =>
      refine h.explained.concat ?_
      cases error with
      | none => exact hfinished accepted written hdone
      | some error => trivial
    · rw [List.append_nil]
      exact h.explained

/-- What holds of the world holds of a later one when it holds of what is new. -/
theorem WorldInv.grow (h : WorldInv w) (hext : Extends w w')
    (hcalls : ∀ c call, w'.calls c = some call → w.calls c = some call ∨ CallInv w' c call)
    (hsent : ∀ sent ∈ w'.sent, sent ∈ w.sent ∨ sent.action.Sound (w'.stores sent.action.target))
    (happlied : ∀ position ∈ w'.applied, position ∈ w.applied ∨ ∃ sent, w'.sent[position]? = some sent ∧
      WasApplied w'.log sent.call sent.leg sent.action)
    (hexplained : Explained Explains w'.log) : Extends w w' ∧ WorldInv w' := by
  refine ⟨hext, fun c call hcall => ?_, fun sent hmem => ?_, fun position hmem => ?_, hexplained⟩
  · exact (hcalls c call hcall).elim (fun hold => (h.calls c call hold).extend hext) id
  · exact (hsent sent hmem).elim (fun hold => (hext.stores _).sound (h.sent sent hold)) id
  · rcases happlied position hmem with hold | hnew
    · obtain ⟨sent, hsent, hentry⟩ := h.applied position hold
      exact ⟨sent, getElem?_of_prefix hext.sent hsent, hentry.mono hext.log⟩
    · exact hnew

theorem callInv_begin (w : World) (c : ℕ) (request : CallRequest) : CallInv w c (.begin request) where
  accepted _ _ _ := ⟨Nat.zero_le _, fun n _ hn => absurd hn (Nat.not_lt_zero n)⟩
  mirror hleg := by cases hleg
  stage := by
    rw [Call.begin]
    dsimp only
    cases request.check <;> trivial

theorem WorldInv.proceed (h : WorldInv w) (hcall : w.calls c = some call)
    (hstep : proceedStep w c call = some w') : Extends w w' ∧ WorldInv w' := by
  have hinv := h.calls c call hcall
  rw [proceedStep] at hstep
  split at hstep
  · cases hstep
    refine h.setCall hinv.loopHead fun n m hfinished => ?_
    dsimp only [Call.loopHead] at hfinished
    split at hfinished
    · split_ifs at hfinished
    · cases hfinished
  next plan done hstage =>
    split_ifs at hstep with hdone
    cases hstep
    have hplan := hinv.stage
    rw [hstage] at hplan
    exact h.setCall (hinv.afterBulk hplan.1 hplan.2.1 hplan.2.2 fun _ => hdone) fun n m hfinished =>
      absurd hfinished afterBulk_not_finished
  next accepted error hstage =>
    cases hstep
    obtain ⟨hafter, hfinished⟩ := hinv.afterLeg hstage
    refine h.setCall hafter fun n m hdone => ?_
    have hrequest : (call.afterLeg accepted error).request = call.request := by
      rw [Call.afterLeg]
      split
      · split_ifs <;> rfl
      · rfl
    rw [hrequest]
    exact hfinished n m hdone
  · cases hstep

theorem WorldInv.readDocument (h : WorldInv w) (hcall : w.calls c = some call)
    (hstep : readDocumentStep w c id call = some w') : Extends w w' ∧ WorldInv w' := by
  have hinv := h.calls c call hcall
  rw [readDocumentStep] at hstep
  split at hstep
  next pending states hstage =>
    split_ifs at hstep with hpending
    have hext : Extends w w' := by
      cases hstep
      exact .of_log (List.prefix_append _ _) List.prefix_rfl rfl
    cases hstep
    have hreading := hinv.stage
    rw [hstage] at hreading
    refine h.grow hext (fun c' call' hcall' => ?_) (fun _ => .inl) (fun _ => .inl)
      (h.explained.concat trivial)
    rcases update_eq_some hcall' with ⟨-, hbefore⟩ | ⟨rfl, hnew⟩
    · exact .inl hbefore
    cases hnew
    refine .inr ⟨(hinv.extend hext).accepted, (hinv.extend hext).mirror, fun other => ?_,
      fun pages rule hguarded page hpage => ?_⟩
    · by_cases hother : other = id
      · subst hother
        rw [Function.update_self]
        exact IndexStore.saw_pageState _ _
      · rw [Function.update_of_ne hother]
        exact hreading.1 other
    · by_cases hid : page.documentID = id
      · subst hid
        refine .inr ⟨_, List.mem_append_right _ List.mem_cons_self, ?_⟩
        rw [Function.update_self]
      · rw [Function.update_of_ne hid, List.mem_erase_of_ne hid]
        exact (hreading.2 pages rule hguarded page hpage).imp_right fun hread => hread.mono hext.log
  · cases hstep

theorem WorldInv.readReply {ok : Bool} (h : WorldInv w) (hcall : w.calls c = some call)
    (hstep : readReplyStep w c ok call = some w') : Extends w w' ∧ WorldInv w' := by
  have hinv := h.calls c call hcall
  rw [readReplyStep] at hstep
  split at hstep
  next pending states pages rule hstage hguarded =>
    have hreading := hinv.stage
    rw [hstage] at hreading
    split_ifs at hstep with hfailed hpending
    · cases hstep
      refine h.setCall ⟨hinv.accepted, hinv.mirror, fun pages' rule' hguarded' => ?_⟩ nofun
      obtain ⟨hle, hmet⟩ := hinv.accepted pages' rule' hguarded'
      exact ⟨hle, nofun, hmet⟩
    · cases hstep
      rw [not_not] at hpending
      refine h.setCall ⟨hinv.accepted, hinv.mirror, ⟨fun action haction => ?_, fun pages' rule' hguarded' => ?_⟩,
        Nat.zero_le _, fun _ k action hk => absurd hk (Nat.not_lt_zero k)⟩ nofun
      · obtain ⟨page, hpage, hwrite, rfl⟩ := planGuardedWrite_operations haction
        refine ⟨target_encodeGuarded .., guardedOperation_sound ?_ (hreading.1 _) hwrite⟩
        exact CallRequest.formed_of_guarded hguarded (List.mem_of_mem_drop hpage)
      · cases hguarded.symm.trans hguarded'
        refine ⟨states, rfl, fun page hpage => ?_⟩
        refine (hreading.2 pages rule hguarded page hpage).resolve_left fun hmem => ?_
        rw [hpending] at hmem
        exact absurd hmem List.not_mem_nil
  · cases hstep

theorem WorldInv.send (h : WorldInv w) (hcall : w.calls c = some call)
    (hstep : sendStep w c call = some w') : Extends w w' ∧ WorldInv w' := by
  have hinv := h.calls c call hcall
  rw [sendStep] at hstep
  split at hstep
  next plan done hstage =>
    dsimp only at hstep
    split_ifs at hstep with hempty
    have hext : Extends w w' := by
      cases hstep
      exact .of_log List.prefix_rfl (List.prefix_append _ _) rfl
    cases hstep
    have hplan := hinv.stage
    rw [hstage] at hplan
    obtain ⟨hplan, hdone, happlied⟩ := hplan
    have hcount := nextBulkRequest_le (plan.operations.drop done)
    generalize nextBulkRequest (plan.operations.drop done) = count at hcount hext ⊢
    refine h.grow hext (fun c' call' hcall' => ?_) (fun sent hsent => ?_) (fun _ => .inl) h.explained
    · rcases update_eq_some hcall' with ⟨-, hbefore⟩ | ⟨rfl, hnew⟩
      · exact .inl hbefore
      cases hnew
      rw [List.length_drop] at hcount
      refine .inr ⟨hinv.accepted, hinv.mirror, ⟨hplan.sound, hplan.guarded⟩, by omega, happlied, fun k hk => ?_⟩
      rw [List.getElem?_append_right (Nat.le_add_right _ _), Nat.add_sub_cancel_left, List.getElem?_map,
        List.getElem?_take_of_lt hk, List.getElem?_drop]
    · rcases List.mem_append.mp hsent with hbefore | hnew
      · exact .inl hbefore
      · obtain ⟨action, haction, rfl⟩ := List.mem_map.mp hnew
        obtain ⟨htarget, hsound⟩ := hplan.sound action (List.mem_of_mem_drop (List.mem_of_mem_take haction))
        rw [← htarget] at hsound
        exact .inr hsound
  · cases hstep

theorem WorldInv.deliver {sent : Sent} {position : ℕ} (h : WorldInv w)
    (hsent : w.sent[position]? = some sent) (hstep : deliverStep w position sent = some w') :
    Extends w w' ∧ WorldInv w' := by
  obtain ⟨store, hstore, hworld⟩ := Option.map_eq_some_iff.mp hstep
  have hext : Extends w w' := by
    subst hworld
    exact .of_store (List.prefix_append _ _) List.prefix_rfl rfl ⟨IndexStore.apply_saw hstore,
      fun hsound => hsound.apply hstore,
      IndexStore.apply_monotone (h.sent sent (List.mem_of_getElem? hsent)) hstore⟩
  subst hworld
  refine h.grow hext (fun _ _ => .inl) (fun _ => .inl) (fun other hother => ?_)
    (h.explained.concat trivial)
  rcases List.mem_cons.mp hother with rfl | hbefore
  · refine .inr ⟨sent, hsent, store, List.mem_append_right _ List.mem_cons_self, fun page hpage => ?_⟩
    exact IndexStore.apply_written hstore hpage
  · exact .inl hbefore

/-- The accepted operations of a request were applied. -/
theorem WorldInv.applied_of_reply {done first : ℕ} {rows : List BulkRow} (h : WorldInv w)
    (hinv : StageInv w c call (.waiting plan done first count))
    (htruthful : truthful w.applied first rows ((plan.operations.drop done).take count) = true)
    (hcheck : checkBulkItems rows ((plan.operations.drop done).take count) call.request.policy =
      (accepted, error)) :
    done + accepted ≤ plan.operations.length ∧ AppliedPrefix w c call plan (done + accepted) := by
  obtain ⟨-, hle, happlied, hsent⟩ := hinv
  obtain ⟨hcount, -, hall⟩ := checkBulkItems_ok hcheck
  rw [List.length_take, List.length_drop] at hcount
  refine ⟨by omega, fun hpolicy k action hk haction => ?_⟩
  by_cases hbefore : k < done
  · exact happlied hpolicy k action hbefore haction
  -- an operation of this request, reported as applied
  obtain ⟨item, operation, hitem, hoperation, haccepted⟩ := hall (k - done) (by omega)
  have hlt : k - done < count := by omega
  rw [List.getElem?_take_of_lt hlt, List.getElem?_drop, Nat.add_sub_cancel' (not_lt.mp hbefore),
    haction] at hoperation
  cases hoperation
  rw [hpolicy] at haccepted
  obtain ⟨hid, hsucceeded⟩ := succeeded_of_guarded haccepted
  have hrange : k - done ∈ List.range ((plan.operations.drop done).take count).length := by
    rw [List.mem_range, List.length_take, List.length_drop]
    omega
  have htrue := List.all_eq_true.mp htruthful (k - done) hrange
  rw [hitem, List.getElem?_take_of_lt hlt, List.getElem?_drop, Nat.add_sub_cancel' (not_lt.mp hbefore),
    haction] at htrue
  simp only [hid, hsucceeded, BEq.rfl, Bool.and_self, Bool.not_true, Bool.false_or, decide_eq_true_eq] at htrue
  obtain ⟨sent, hsome, hentry⟩ := h.applied _ htrue
  rw [hsent (k - done) hlt, Nat.add_sub_cancel' (not_lt.mp hbefore), haction] at hsome
  cases hsome
  exact hentry

theorem WorldInv.reply {response : Option (List BulkRow)} (h : WorldInv w) (hcall : w.calls c = some call)
    (hstep : replyStep w c response call = some w') : Extends w w' ∧ WorldInv w' := by
  have hinv := h.calls c call hcall
  rw [replyStep] at hstep
  split at hstep
  next plan done first count hstage =>
    have hwaiting := hinv.stage
    rw [hstage] at hwaiting
    split at hstep
    · cases hstep
      have hdone := hwaiting.2.1
      exact h.setCall (hinv.afterBulk hwaiting.1 (by omega) hwaiting.2.2.1 nofun) fun n m hfinished =>
        absurd hfinished afterBulk_not_finished
    · dsimp only at hstep
      split_ifs at hstep with htruthful
      rw [Bool.not_eq_true', Bool.not_eq_false] at htruthful
      split at hstep
      next accepted hcheck =>
        cases hstep
        obtain ⟨hle, happlied⟩ := h.applied_of_reply hwaiting htruthful hcheck
        have hplan : PlanInv w c { call with stage := .submitting plan (done + accepted) } plan :=
          ⟨hwaiting.1.sound, hwaiting.1.guarded⟩
        exact h.setCall ⟨hinv.accepted, hinv.mirror, hplan, hle, happlied⟩ nofun
      next accepted error hcheck =>
        cases hstep
        obtain ⟨hle, happlied⟩ := h.applied_of_reply hwaiting htruthful hcheck
        exact h.setCall (hinv.afterBulk hwaiting.1 hle happlied nofun) fun n m hfinished =>
          absurd hfinished afterBulk_not_finished
  · cases hstep

/-- **The step lemma**: the indexes move forward, and what holds of the calls holds on. -/
theorem WorldInv.step (h : WorldInv w) (hstep : worldStep w move = some w') : Extends w w' ∧ WorldInv w' := by
  cases move with
  | call c request =>
    rw [worldStep] at hstep
    split at hstep
    · cases hstep
    · cases hstep
      refine h.setCall (callInv_begin w c request) fun n m hfinished => ?_
      rw [Call.begin] at hfinished
      dsimp only at hfinished
      split at hfinished <;> cases hfinished
  | proceed c =>
    obtain ⟨call, hcall, hstep⟩ := Option.bind_eq_some_iff.mp hstep
    exact h.proceed hcall hstep
  | readDocument c id =>
    obtain ⟨call, hcall, hstep⟩ := Option.bind_eq_some_iff.mp hstep
    exact h.readDocument hcall hstep
  | readReply c ok =>
    obtain ⟨call, hcall, hstep⟩ := Option.bind_eq_some_iff.mp hstep
    exact h.readReply hcall hstep
  | send c =>
    obtain ⟨call, hcall, hstep⟩ := Option.bind_eq_some_iff.mp hstep
    exact h.send hcall hstep
  | deliver position =>
    obtain ⟨sent, hsent, hstep⟩ := Option.bind_eq_some_iff.mp hstep
    exact h.deliver hsent hstep
  | reply c response =>
    obtain ⟨call, hcall, hstep⟩ := Option.bind_eq_some_iff.mp hstep
    exact h.reply hcall hstep
  | failover index =>
    cases hstep
    refine h.grow (.of_store List.prefix_rfl List.prefix_rfl rfl ⟨id, fun {action} hsound => ?_,
      fun hpage => ⟨_, hpage, .refl _⟩⟩) (fun _ _ => .inl) (fun _ => .inl) (fun _ => .inl) h.explained
    cases action <;> exact hsound

theorem WorldInv.follows (h : WorldInv w) (hreach : Reach worldStep anyMove w w') {index : String}
    {before : StoredPage} (hbefore : (w.stores index).page id = some before) :
    ∃ page, (w'.stores index).page id = some page ∧ Follows before page := by
  have hboth : WorldInv w' ∧ ∃ page, (w'.stores index).page id = some page ∧ Follows before page := by
    induction hreach with
    | refl => exact ⟨h, before, hbefore, .refl before⟩
    | tail _ _ hstep ih =>
      obtain ⟨hinv, page, hpage, hfollows⟩ := ih
      obtain ⟨hext, hinv'⟩ := hinv.step hstep
      obtain ⟨page', hpage', hfollows'⟩ := (hext.stores index).follows hpage
      exact ⟨hinv', page', hpage', hfollows.trans hfollows'⟩
  exact hboth.2

end Moves

/-- A page of a content write was written by the call, or the call found it at the generation of the
write. -/
def PutMet (log : List Entry) (c : ℕ) (leg : Leg) (intent : WriteIntent) : Prop :=
  (∃ action store, .wrote c leg action store ∈ log ∧ action.documentID = intent.documentID ∧
    store.page intent.documentID = some (encodePageDocument intent)) ∨
  ∃ store page, .read c leg intent.documentID store ∈ log ∧ store.page intent.documentID = some page ∧
    page.generation = intent.work.generation ∧ page.isRetired = false

/-- A content write is left out for a page at its own generation. -/
theorem page_of_refused_skip {store : IndexStore} {id : String} {generation : ℤ}
    (h : decideGuardedWrite (store.pageState id) generation .refused = .skip) :
    ∃ page, store.page id = some page ∧ page.generation = generation ∧ page.isRetired = false := by
  rw [IndexStore.pageState] at h
  cases hdoc : store.documents.doc id with
  | none =>
    rw [hdoc] at h
    cases h
  | some document =>
    obtain ⟨seqNo, primaryTerm, page⟩ := document
    rw [hdoc] at h
    refine ⟨page, by simp [IndexStore.page, SeqStore.body, hdoc], ?_⟩
    simp only [decideGuardedWrite, Bool.not_true, Bool.false_eq_true, if_false, reduceCtorEq, false_and] at h
    split_ifs at h with hstale hsame
    rw [not_or, Bool.not_eq_true] at hstale
    exact ⟨hsame, hstale.1⟩

theorem Met.put {log : List Entry} {c : ℕ} {leg : Leg} {intent : WriteIntent} {held : Bool}
    (h : Met log c leg ⟨intent.documentID, intent.work.generation, held, encodePageDocument intent⟩ .refused) :
    PutMet log c leg intent := by
  rcases h with hwrote | ⟨store, hread, hskip⟩
  · exact .inl hwrote
  · obtain ⟨page, hpage, hfields⟩ := page_of_refused_skip hskip
    exact .inr ⟨store, page, hread, hpage, hfields⟩

end Tack.SearchIndex

import Tack.SearchIndex.Bulk

/-!
# Guarded page writes

A guarded write reads the stored state of its pages, leaves out those that need no write, and sends the
others with the read as their precondition.  After a conflict it reads the pages again that are not yet
accepted.  The answers count operations, and the positions of the operations tell the accepted prefix of
the pages.

## Main definitions

* `SearchIndex.decideGuardedWrite`, `SearchIndex.planGuardedWrite` — one attempt.
* `SearchIndex.CallRequest` — the calls `Put`, `UpdateAccess` and `Retire`.

## Main results

* `SearchIndex.planGuardedWrite_positions` — a page before the position of an operation needs no write or
  has an earlier operation.
* `SearchIndex.guardedOperation_sound` — what an attempt writes may follow what it read.
-/

namespace Tack.SearchIndex

open Lib

/-! ### One attempt -/

/-- The attempts of one guarded write. -/
def maxGuardedAttempts : ℕ := 3

inductive StaleRule
  /-- Refuses a content write below the stored generation or to a retired page. -/
  | refused
  /-- Accepts a retirement below the stored generation without a request. -/
  | superseded
  deriving DecidableEq

inductive GuardDecision
  | write
  | skip
  | stale
  deriving DecidableEq

def decideGuardedWrite (state : PageState) (generation : ℤ) (rule : StaleRule) : GuardDecision :=
  if !state.found then .write
  else if rule = .superseded ∧ generation < state.generation then .skip
  else if rule = .superseded then .write
  else if state.retired ∨ generation < state.generation then .stale
  else if state.generation = generation then .skip
  else .write

/-- One page write that is sent only after a read of the stored page. -/
structure GuardedPage where
  documentID : String
  generation : ℤ
  /-- An absent page is not created. -/
  holdCreate : Bool
  page : StoredPage

/-- The requests of one attempt, the positions of their pages, and where and why the attempt ends early. -/
structure GuardedPlan where
  operations : List BulkAction
  positions : List ℕ
  stale : Option WriteError

/-- The operation of a page under the state that was read. -/
def guardedOperation (index : String) (states : String → PageState) (page : GuardedPage) : BulkAction :=
  let state := states page.documentID
  encodeGuarded index page.documentID ⟨!state.found, state.seqNo, state.primaryTerm⟩ page.page

/-- Encodes the requests for the pages in order and stops at the first stale one. -/
def planGuardedWrite (index : String) (states : String → PageState) (rule : StaleRule) :
    ℕ → List GuardedPage → GuardedPlan
  | position, [] => ⟨[], [position], none⟩
  | position, page :: rest =>
    match decideGuardedWrite (states page.documentID) page.generation rule with
    | .skip => planGuardedWrite index states rule (position + 1) rest
    | .stale => ⟨[], [position], some (.obsolete page.documentID)⟩
    | .write =>
      if !(states page.documentID).found && page.holdCreate then
        ⟨[], [position], some (.pending page.documentID)⟩
      else
        let plan := planGuardedWrite index states rule (position + 1) rest
        ⟨guardedOperation index states page :: plan.operations, position :: plan.positions, plan.stale⟩

section Plan

variable {index : String} {states : String → PageState} {rule : StaleRule} {start : ℕ}
  {pages : List GuardedPage}

theorem length_positions :
    (planGuardedWrite index states rule start pages).positions.length =
      (planGuardedWrite index states rule start pages).operations.length + 1 := by
  induction pages generalizing start with
  | nil => rfl
  | cons page rest ih =>
    rw [planGuardedWrite]
    split
    · exact ih
    · rfl
    · split_ifs
      · rfl
      · simp [ih]

/-- **A page before the position of an operation needs no write or has an earlier operation.** -/
theorem planGuardedWrite_positions {k stop : ℕ}
    (h : (planGuardedWrite index states rule start pages).positions[k]? = some stop) :
    stop ≤ start + pages.length ∧ ∀ n page, start + n < stop → pages[n]? = some page →
      decideGuardedWrite (states page.documentID) page.generation rule = .skip ∨
        ∃ j < k, (planGuardedWrite index states rule start pages).operations[j]? =
          some (guardedOperation index states page) := by
  induction pages generalizing start k with
  | nil =>
    cases k with
    | zero =>
      cases h
      exact ⟨le_rfl, fun n page _ hpage => absurd hpage (by simp)⟩
    | succ k => cases h
  | cons page rest ih =>
    have hfirst : ∀ {error : Option WriteError} {stop : ℕ},
        (⟨[], [start], error⟩ : GuardedPlan).positions[k]? = some stop → stop = start := by
      intro error stop hstop
      cases k with
      | zero => exact (Option.some_injective _ hstop).symm
      | succ k => cases hstop
    rw [planGuardedWrite] at h ⊢
    rw [List.length_cons]
    split at h
    next hskip =>
      obtain ⟨hle, hall⟩ := ih h
      refine ⟨by omega, fun n other hlt hother => ?_⟩
      cases n with
      | zero =>
        cases hother
        exact .inl hskip
      | succ n => exact hall n other (by omega) hother
    · obtain rfl := hfirst h
      exact ⟨by omega, fun n other hlt => absurd hlt (by omega)⟩
    · split_ifs at h ⊢
      · obtain rfl := hfirst h
        exact ⟨by omega, fun n other hlt => absurd hlt (by omega)⟩
      · cases k with
        | zero =>
          cases h
          exact ⟨by omega, fun n other hlt => absurd hlt (by omega)⟩
        | succ k =>
          obtain ⟨hle, hall⟩ := ih h
          refine ⟨by omega, fun n other hlt hother => ?_⟩
          cases n with
          | zero =>
            cases hother
            exact .inr ⟨0, Nat.succ_pos k, rfl⟩
          | succ n =>
            rcases hall n other (by omega) hother with hskip | ⟨j, hj, hoperation⟩
            · exact .inl hskip
            · exact .inr ⟨j + 1, Nat.succ_lt_succ hj, hoperation⟩

/-- An attempt without a stale page ends behind the last page. -/
theorem planGuardedWrite_end (h : (planGuardedWrite index states rule start pages).stale = none) :
    (planGuardedWrite index states rule start pages).positions[
      (planGuardedWrite index states rule start pages).operations.length]? = some (start + pages.length) := by
  induction pages generalizing start with
  | nil => rfl
  | cons page rest ih =>
    rw [planGuardedWrite] at h ⊢
    rw [List.length_cons]
    split at h
    · rw [ih h]
      congr 1
      omega
    · cases h
    · split_ifs at h ⊢
      · rw [List.length_cons, List.getElem?_cons_succ, ih h]
        congr 1
        omega

theorem planGuardedWrite_operations {action : BulkAction}
    (h : action ∈ (planGuardedWrite index states rule start pages).operations) :
    ∃ page ∈ pages, decideGuardedWrite (states page.documentID) page.generation rule = .write ∧
      action = guardedOperation index states page := by
  induction pages generalizing start with
  | nil => cases h
  | cons page rest ih =>
    rw [planGuardedWrite] at h
    split at h
    · obtain ⟨other, hother, hwrite⟩ := ih h
      exact ⟨other, List.mem_cons_of_mem _ hother, hwrite⟩
    · cases h
    next hwrite =>
      split_ifs at h
      · cases h
      · rcases List.mem_cons.mp h with rfl | hrest
        · exact ⟨page, List.mem_cons_self, hwrite, rfl⟩
        · obtain ⟨other, hother, hfound⟩ := ih hrest
          exact ⟨other, List.mem_cons_of_mem _ hother, hfound⟩

end Plan

@[simp] theorem documentID_encodeGuarded (index id : String) (precondition : PagePrecondition)
    (page : StoredPage) : (encodeGuarded index id precondition page).documentID = id := by
  rw [encodeGuarded]
  split_ifs <;> rfl

@[simp] theorem target_encodeGuarded (index id : String) (precondition : PagePrecondition)
    (page : StoredPage) : (encodeGuarded index id precondition page).target = index := by
  rw [encodeGuarded]
  split_ifs <;> rfl

@[simp] theorem written_encodeGuarded (index id : String) (precondition : PagePrecondition)
    (page : StoredPage) : (encodeGuarded index id precondition page).written = some page := by
  rw [encodeGuarded]
  split_ifs <;> rfl

/-- A page carries its generation, and a page that supersedes nothing is a retirement. -/
structure GuardedPage.Formed (page : GuardedPage) (rule : StaleRule) : Prop where
  generation : page.page.generation = page.generation
  retired : rule = .superseded → page.page.isRetired = true

/-- **What an attempt writes may follow what it read.** -/
theorem guardedOperation_sound {store : IndexStore} {index : String} {states : String → PageState}
    {rule : StaleRule} {page : GuardedPage} (hformed : page.Formed rule)
    (hsaw : Saw store page.documentID (states page.documentID))
    (hwrite : decideGuardedWrite (states page.documentID) page.generation rule = .write) :
    (guardedOperation index states page).Sound store := by
  rw [guardedOperation, encodeGuarded]
  cases hfound : (states page.documentID).found with
  | false => trivial
  | true =>
    obtain ⟨before, hread, hgeneration, hretired⟩ := hsaw hfound
    refine ⟨before, hread, ?_⟩
    rw [decideGuardedWrite, hfound] at hwrite
    simp only [Bool.not_true, Bool.false_eq_true, if_false] at hwrite
    split_ifs at hwrite with hskip hrule hstale hsame
    · -- a retirement at or above the stored generation
      refine ⟨?_, fun _ => hformed.retired hrule⟩
      rw [hformed.generation, hgeneration]
      exact not_lt.mp fun hlt => hskip ⟨hrule, hlt⟩
    · -- content above the stored generation of a page that is not retired
      rw [not_or, not_lt] at hstale
      refine ⟨?_, fun htrue => absurd (hretired.symm.trans htrue) hstale.1⟩
      rw [hformed.generation, hgeneration]
      exact hstale.2

/-! ### Calls -/

structure PageWork where
  nodeId : String
  generation : ℤ
  target : String
  /-- The replacement index; empty when there is none. -/
  mirror : String

/-- What a page write takes from the page. -/
structure PageContent where
  nodeType : String
  revision : String
  projectionVersion : String
  ordinal : ℕ
  name : String
  text : String
  access : PageAccess

structure WriteIntent where
  work : PageWork
  page : PageContent
  documentID : String
  /-- The index with an unexpired pending write of the document. -/
  pending : Option String

structure IssuedPage where
  documentID : String
  revision : ℤ
  ordinal : ℕ

/-- The calls that write pages. -/
inductive CallRequest
  | put (intent : WriteIntent)
  | updateAccess (work : PageWork) (documents : List IssuedPage) (access : PageAccess)
  | retire (work : PageWork) (documents : List IssuedPage)

inductive Leg
  | target
  | mirror
  deriving DecidableEq

namespace CallRequest

def work : CallRequest → PageWork
  | put intent => intent.work
  | updateAccess work _ _ => work
  | retire work _ => work

/-- The index that a part of the call writes. -/
def index (request : CallRequest) : Leg → String
  | .target => request.work.target
  | .mirror => request.work.mirror

end CallRequest

def encodePageDocument (intent : WriteIntent) : StoredPage :=
  .active ⟨intent.work.nodeId, intent.page.nodeType, intent.page.revision, intent.page.projectionVersion,
    intent.page.ordinal, intent.page.name, intent.page.text⟩ intent.work.generation intent.page.access

def encodeRetirement (work : PageWork) (document : IssuedPage) : StoredPage :=
  .retired work.nodeId (toString document.revision) document.ordinal work.generation

namespace CallRequest

/-- The pages and the rule of a guarded write; `none` for an access update. -/
def guarded (request : CallRequest) (leg : Leg) : Option (List GuardedPage × StaleRule) :=
  match request with
  | put intent =>
    let held := decide (intent.pending = some (request.index leg))
    some ([⟨intent.documentID, intent.work.generation, held, encodePageDocument intent⟩], .refused)
  | updateAccess .. => none
  | retire work documents =>
    some (documents.map fun document =>
      ⟨document.documentID, work.generation, false, encodeRetirement work document⟩, .superseded)

/-- The operations of an access update. -/
def accessOperations (request : CallRequest) (leg : Leg) : List BulkAction :=
  match request with
  | updateAccess work documents access => documents.map fun document =>
      .update (request.index leg) document.documentID work.generation access
  | put _ | retire .. => []

def policy : CallRequest → BulkPolicy
  | updateAccess .. => .access
  | put _ | retire .. => .guarded

/-- What is checked before any request. -/
def check : CallRequest → Option WriteError
  | put intent =>
    if intent.work.target = "" then some .targetMissing
    else if intent.page.text = "" ∨ 4096 < intent.page.text.utf8ByteSize then some .textInvalid
    else none
  | updateAccess .. | retire .. => none

theorem formed_of_guarded {request : CallRequest} {leg : Leg} {pages : List GuardedPage} {rule : StaleRule}
    (h : request.guarded leg = some (pages, rule)) {page : GuardedPage} (hpage : page ∈ pages) :
    page.Formed rule := by
  cases request with
  | put intent =>
    cases h
    obtain rfl := List.mem_singleton.mp hpage
    exact ⟨rfl, fun hrule => by cases hrule⟩
  | updateAccess => cases h
  | retire work documents =>
    cases h
    obtain ⟨document, -, rfl⟩ := List.mem_map.mp hpage
    exact ⟨rfl, fun _ => rfl⟩

end CallRequest

end Tack.SearchIndex

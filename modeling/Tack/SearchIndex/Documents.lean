import Tack.Lib.Json
import Tack.Lib.SeqStore
import Tack.Lib.Utf8

/-!
# Page documents and the actions on them

An index stores one document under each document ID: a page, or a record without text that marks the page
as retired.  A bulk request carries actions on documents.  A content write and a retirement create an
absent document or require the sequence number and primary term of an earlier read; an access update runs
a script on the stored document.

## Main definitions

* `SearchIndex.StoredPage`, `SearchIndex.IndexStore` — the documents of an index.
* `SearchIndex.PageState` — what a guarded write reads of a document.
* `SearchIndex.accessUpdateScript`, `SearchIndex.runAccessUpdate` — the script and its effect.
* `SearchIndex.BulkAction`, `SearchIndex.IndexStore.apply` — one action and its effect on an index.

## Main results

* `SearchIndex.IndexStore.apply_monotone` — an action never lowers the stored generation and never brings
  a retired page back.
-/

namespace Tack.SearchIndex

open Lib

/-! ### Documents -/

structure PageAccess where
  versions : List String
  keys : List String
  generation : ℤ
  deriving DecidableEq

/-- The fields of a page that no access update changes. -/
structure PageFields where
  nodeId : String
  nodeType : String
  nodeRevision : String
  projectionVersion : String
  pageOrdinal : ℕ
  name : String
  pageText : String
  deriving DecidableEq

/-- A stored document. -/
inductive StoredPage
  | active (fields : PageFields) (generation : ℤ) (access : PageAccess)
  /-- The record that replaces an obsolete page. -/
  | retired (nodeId nodeRevision : String) (pageOrdinal : ℕ) (generation : ℤ)
  deriving DecidableEq

namespace StoredPage

/-- The field `search_generation`. -/
def generation : StoredPage → ℤ
  | active _ generation _ => generation
  | retired _ _ _ generation => generation

def isRetired : StoredPage → Bool
  | active .. => false
  | retired .. => true

end StoredPage

/-- `page` may follow `before` under one document ID. -/
structure Follows (before page : StoredPage) : Prop where
  generation : before.generation ≤ page.generation
  retired : before.isRetired = true → page.isRetired = true

theorem Follows.refl (page : StoredPage) : Follows page page := ⟨le_rfl, id⟩

theorem Follows.trans {a b c : StoredPage} (h : Follows a b) (h' : Follows b c) : Follows a c :=
  ⟨h.generation.trans h'.generation, fun hretired => h'.retired (h.retired hretired)⟩

/-- The documents of an index; each keeps the primary term of its last write. -/
structure IndexStore where
  documents : SeqStore String (ℕ × StoredPage)
  counted : documents.Counted
  primaryTerm : ℕ

namespace IndexStore

/-- The stored document under an ID. -/
def page (store : IndexStore) (id : String) : Option StoredPage :=
  (store.documents.body id).map Prod.snd

/-- Stores a document with the next sequence number. -/
def put (store : IndexStore) (id : String) (page : StoredPage) : IndexStore where
  documents := store.documents.store id (store.primaryTerm, page)
  counted := store.counted.store
  primaryTerm := store.primaryTerm

@[simp] theorem page_put_self (store : IndexStore) (id : String) (page : StoredPage) :
    (store.put id page).page id = some page := by
  simp [IndexStore.page, put]

theorem page_put_of_ne {store : IndexStore} {id other : String} (page : StoredPage) (h : other ≠ id) :
    (store.put id page).page other = store.page other := by
  rw [IndexStore.page, put, SeqStore.store_body_of_ne h, IndexStore.page]

end IndexStore

/-! ### Reads of guarded writes -/

/-- What a guarded write reads of a document. -/
structure PageState where
  found : Bool
  retired : Bool
  generation : ℤ
  seqNo : ℕ
  primaryTerm : ℕ
  deriving DecidableEq

def PageState.absent : PageState := ⟨false, false, 0, 0, 0⟩

/-- The state of a document in the answer to a realtime multi-get. -/
def IndexStore.pageState (store : IndexStore) (id : String) : PageState :=
  match store.documents.doc id with
  | none => .absent
  | some (seqNo, primaryTerm, page) => ⟨true, page.isRetired, page.generation, seqNo, primaryTerm⟩

/-- An earlier state of the index returned the read. -/
def Saw (store : IndexStore) (id : String) (state : PageState) : Prop :=
  state.found = true → ∃ page, store.documents.Saw id (some (state.seqNo, state.primaryTerm, page)) ∧
    page.generation = state.generation ∧ page.isRetired = state.retired

theorem saw_absent (store : IndexStore) (id : String) : Saw store id .absent :=
  fun h => absurd h Bool.false_ne_true

theorem IndexStore.saw_pageState (store : IndexStore) (id : String) : Saw store id (store.pageState id) := by
  intro hfound
  rw [IndexStore.pageState] at hfound ⊢
  cases hdoc : store.documents.doc id with
  | none =>
    rw [hdoc] at hfound
    cases hfound
  | some document =>
    obtain ⟨seqNo, primaryTerm, page⟩ := document
    exact ⟨page, hdoc ▸ store.counted.saw id, rfl, rfl⟩

theorem Saw.put {store : IndexStore} {id other : String} {state : PageState} {page : StoredPage}
    (h : Saw store id state) : Saw (store.put other page) id state := by
  intro hfound
  obtain ⟨before, hsaw, hfields⟩ := h hfound
  exact ⟨before, SeqStore.Saw.store hsaw, hfields⟩

/-! ### Actions -/

/-- The state that a content write or a retirement requires. -/
structure PagePrecondition where
  create : Bool
  seqNo : ℕ
  primaryTerm : ℕ

/-- One action of a bulk request. -/
inductive BulkAction
  | create (index id : String) (page : StoredPage)
  | index (index id : String) (seqNo primaryTerm : ℕ) (page : StoredPage)
  | update (index id : String) (generation : ℤ) (access : PageAccess)

/-- A create action for an absent page, or an index action that requires the read one. -/
def encodeGuarded (index id : String) (precondition : PagePrecondition) (page : StoredPage) : BulkAction :=
  if precondition.create then .create index id page
  else .index index id precondition.seqNo precondition.primaryTerm page

def accessRetryOnConflict : ℕ := 3

def staleGenerationMarker : String := "tack stale search generation"

/-- The script of an access update, as the engine gets it. -/
def accessUpdateScript : String :=
  "def stored = ctx._source.search_generation;\nif (ctx._source.retired == true || " ++
  "(stored != null && stored == params.generation)) \x7b\n  ctx.op = 'none';\n\x7d else if " ++
  "(stored != null && stored > params.generation) \x7b\n  throw new " ++
  "IllegalArgumentException(params.stale_marker);\n\x7d else \x7b\n  ctx._source.search_generation = " ++
  "params.generation;\n  ctx._source.access = params.access;\n\x7d\n"

inductive AccessUpdate
  | none
  | stale
  | write (page : StoredPage)

/-- What the script does with the stored document. -/
def runAccessUpdate (generation : ℤ) (access : PageAccess) : StoredPage → AccessUpdate
  | .retired .. => .none
  | .active fields stored _ =>
    if stored = generation then .none
    else if generation < stored then .stale
    else .write (.active fields generation access)

namespace BulkAction

/-- The index that an action names. -/
def target : BulkAction → String
  | .create name _ _ => name
  | .index name _ _ _ _ => name
  | .update name _ _ _ => name

def documentID : BulkAction → String
  | .create _ id _ => id
  | .index _ id _ _ _ => id
  | .update _ id _ _ => id

end BulkAction

/-- The index after an action; `none` when the engine refuses it. -/
def IndexStore.apply (store : IndexStore) : BulkAction → Option IndexStore
  | .create _ id page => if (store.documents.doc id).isSome then none else some (store.put id page)
  | .index _ id seqNo primaryTerm page =>
    if (store.documents.doc id).any fun document =>
        document.1 = seqNo && document.2.1 = primaryTerm then some (store.put id page)
    else none
  | .update _ id generation access =>
    match store.page id with
    | none => none
    | some page =>
      match runAccessUpdate generation access page with
      | .none => some store
      | .stale => none
      | .write page' => some (store.put id page')

/-! ### What an action may do -/

/-- The write of an action may follow the document that it requires. -/
def BulkAction.Sound (store : IndexStore) : BulkAction → Prop
  | .create .. => True
  | .index _ id seqNo primaryTerm page => ∃ before,
      store.documents.Saw id (some (seqNo, primaryTerm, before)) ∧ Follows before page
  | .update .. => True

/-- The document that an accepted guarded action leaves. -/
def BulkAction.written : BulkAction → Option StoredPage
  | .create _ _ page => some page
  | .index _ _ _ _ page => some page
  | .update .. => none

section Apply

variable {store store' : IndexStore} {action : BulkAction}

/-- An action changes at most its own document. -/
theorem IndexStore.apply_eq (h : store.apply action = some store') :
    store' = store ∨ ∃ page, store' = store.put action.documentID page := by
  cases action with
  | create index id page =>
    rw [IndexStore.apply] at h
    split_ifs at h
    cases h
    exact .inr ⟨page, rfl⟩
  | index index id seqNo primaryTerm page =>
    rw [IndexStore.apply] at h
    split_ifs at h
    cases h
    exact .inr ⟨page, rfl⟩
  | update index id generation access =>
    rw [IndexStore.apply] at h
    split at h
    · cases h
    · split at h
      · cases h
        exact .inl rfl
      · cases h
      next page' _ =>
        cases h
        exact .inr ⟨page', rfl⟩

/-- An accepted guarded action stores its document. -/
theorem IndexStore.apply_written {page : StoredPage} (h : store.apply action = some store')
    (hpage : action.written = some page) : store'.page action.documentID = some page := by
  cases action with
  | create index id written =>
    cases hpage
    rw [IndexStore.apply] at h
    split_ifs at h
    cases h
    exact page_put_self store id page
  | index index id seqNo primaryTerm written =>
    cases hpage
    rw [IndexStore.apply] at h
    split_ifs at h
    cases h
    exact page_put_self store id page
  | update index id generation access => cases hpage

theorem IndexStore.apply_saw {id : String} {state : PageState} (h : store.apply action = some store')
    (hsaw : Saw store id state) : Saw store' id state := by
  rcases IndexStore.apply_eq h with rfl | ⟨page, rfl⟩
  · exact hsaw
  · exact hsaw.put

theorem BulkAction.Sound.apply {other : BulkAction} (hsound : other.Sound store)
    (h : store.apply action = some store') : other.Sound store' := by
  cases other with
  | create => trivial
  | update => trivial
  | index index id seqNo primaryTerm page =>
    obtain ⟨before, hsaw, hfollows⟩ := hsound
    refine ⟨before, ?_, hfollows⟩
    rcases IndexStore.apply_eq h with rfl | ⟨written, rfl⟩
    · exact hsaw
    · exact SeqStore.Saw.store hsaw

theorem runAccessUpdate_follows {generation : ℤ} {access : PageAccess} {page page' : StoredPage}
    (h : runAccessUpdate generation access page = .write page') : Follows page page' := by
  cases page with
  | retired => cases h
  | active fields stored before =>
    rw [runAccessUpdate] at h
    split_ifs at h with hsame hstale
    cases h
    exact ⟨not_lt.mp hstale, fun hretired => absurd hretired Bool.false_ne_true⟩

/-- The document that an action writes follows the stored one. -/
theorem IndexStore.apply_follows (hsound : action.Sound store) (h : store.apply action = some store')
    {before : StoredPage} (hbefore : store.page action.documentID = some before) :
    ∃ page, store'.page action.documentID = some page ∧ Follows before page := by
  obtain ⟨document, hdocument, rfl⟩ := Option.map_eq_some_iff.mp hbefore
  obtain ⟨stored, hstored, rfl⟩ := Option.map_eq_some_iff.mp hdocument
  cases action with
  | create index id page =>
    change store.documents.doc id = some stored at hstored
    rw [IndexStore.apply, hstored, Option.isSome_some, if_pos rfl] at h
    cases h
  | index index id seqNo primaryTerm page =>
    rw [IndexStore.apply] at h
    split_ifs at h with hsame
    cases h
    refine ⟨page, page_put_self store id page, ?_⟩
    obtain ⟨observed, hsaw, hfollows⟩ := hsound
    -- the sequence number tells that the stored document is the one that was read
    change store.documents.doc id = some stored at hstored
    rw [hstored] at hsame
    have hseqNo : stored.1 = seqNo ∧ stored.2.1 = primaryTerm := by simpa using hsame
    obtain ⟨-, m, current, hdoc, heq⟩ := hsaw _ _ rfl
    cases hstored.symm.trans hdoc
    cases heq hseqNo.1
    exact hfollows
  | update index id generation access =>
    rw [IndexStore.apply, show store.page id = some stored.2.2 from hbefore] at h
    dsimp only at h
    split at h
    · cases h
      exact ⟨_, hbefore, .refl _⟩
    · cases h
    next page' hpage' =>
      cases h
      exact ⟨page', page_put_self store id page', runAccessUpdate_follows hpage'⟩

/-- **An action never lowers the stored generation of a document and never brings a retired page back.** -/
theorem IndexStore.apply_monotone (hsound : action.Sound store) (h : store.apply action = some store')
    {id : String} {before : StoredPage} (hbefore : store.page id = some before) :
    ∃ page, store'.page id = some page ∧ Follows before page := by
  by_cases hid : id = action.documentID
  · subst hid
    exact IndexStore.apply_follows hsound h hbefore
  · refine ⟨before, ?_, .refl before⟩
    rcases IndexStore.apply_eq h with rfl | ⟨page, rfl⟩
    · exact hbefore
    · rw [page_put_of_ne page hid]
      exact hbefore

end Apply

end Tack.SearchIndex

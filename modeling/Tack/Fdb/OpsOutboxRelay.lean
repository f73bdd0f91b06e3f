import Mathlib
import Tack.Fdb.OpsOutbox

/-!
# The outbox relay loses nothing and keeps commit order

The invariant that ties every relay's mark and batch to the entries the broker has accepted: a
mark says that everything up to it is accepted, and what a relay is about to produce has only
accepted entries, or entries of the same batch, before it.  It survives takeovers because it
never mentions the lease; the lease only decides who clears.

## Main definitions

* `OpsOutbox.CommittedBy` — an entry that a transaction up to a version committed.
* `OpsOutbox.MarkOk`, `OpsOutbox.BatchOk` — what a relay's mark and batch say.
* `OpsOutbox.Inv` — the invariant.

## Main results

* `OpsOutbox.mem_clearRange_iff` — a clear removes exactly the entries up to the mark.
* `OpsOutbox.inv_of_reachable` — the invariant holds in every reachable state.
* `OpsOutbox.relay_delivers_in_order` — nothing is lost, acceptance is in commit order, and a
  relay without the lease clears nothing.
-/

namespace Tack.OpsOutbox

open Lib List

variable {Ev : Type}

/-! ### Keys -/

@[simp] theorem length_outboxKey (v u : ℕ) : (outboxKey v u).length = 25 := by
  simp [outboxKey, opsOutboxPrefix]

variable {v w r : ℕ} {e x : Entry Ev} {app log : List (Entry Ev)} {a : Action Ev}

/-- Keys of a later commit come later. -/
theorem outboxKey_lt_of_version (h : v < w) (hw : w < versionLimit) (u u' : ℕ) :
    outboxKey v u < outboxKey w u' := by
  have hbytes : beBytes 10 v ++ beBytes 2 u < beBytes 10 w ++ beBytes 2 u' :=
    append_lt_append_of_lt (by simp) (beBytes_lt_beBytes h hw) _ _
  rw [outboxKey, outboxKey, append_lt_append_left_iff, List.cons_lt_cons_iff]
  exact .inr ⟨rfl, hbytes⟩

/-- Keys of one transaction are in the order of its writes. -/
theorem outboxKey_lt_of_user {u u' : ℕ} (v : ℕ) (h : u < u')
    (hu : u' < outboxEntriesPerTransaction) : outboxKey v u < outboxKey v u' := by
  have hbytes : beBytes 10 v ++ beBytes 2 u < beBytes 10 v ++ beBytes 2 u' :=
    (append_lt_append_left_iff _).mpr (beBytes_lt_beBytes h hu)
  rw [outboxKey, outboxKey, append_lt_append_left_iff, List.cons_lt_cons_iff]
  exact .inr ⟨rfl, hbytes⟩

theorem checkOutboxMark_outboxKey (v u : ℕ) : checkOutboxMark (outboxKey v u) = true := by
  simp [checkOutboxMark, outboxKey]

/-- The end key of a clear exists: the outbox keys do not consist of `0xFF` bytes. -/
theorem exists_outboxClearRange (v u : ℕ) : ∃ stop, outboxClearRange (outboxKey v u) = some stop ∧
    strinc (outboxKey v u) = some stop := by
  have hsome : strinc (outboxKey v u) ≠ none := by
    intro hnone
    have hle := le_of_strinc_eq_none (k := replicate 25 255) hnone (by simp)
    rw [outboxKey, opsOutboxPrefix, List.cons_append] at hle
    have hlt : (2 : Byte) :: ([111, 112, 115, 95, 111, 117, 116, 98, 111, 120, 0] ++
        versionstampCode :: (beBytes 10 v ++ beBytes 2 u)) < replicate 25 255 := by
      rw [List.replicate_succ, List.cons_lt_cons_iff]
      exact .inl (by decide)
    exact absurd hle (not_le.mpr hlt)
  obtain ⟨stop, hstop⟩ := Option.ne_none_iff_exists'.mp hsome
  exact ⟨stop, by rw [outboxClearRange, if_pos (checkOutboxMark_outboxKey v u), hstop], hstop⟩

theorem opsOutboxPrefix_le_outboxKey (v u : ℕ) : opsOutboxPrefix ≤ outboxKey v u := by
  have h := (append_lt_append_left_iff opsOutboxPrefix (a := [])
    (b := versionstampCode :: (beBytes 10 v ++ beBytes 2 u))).mpr (List.nil_lt_cons _ _)
  rw [List.append_nil] at h
  exact h.le

/-- The transaction of the entry committed at a version up to `v`. -/
def CommittedBy (v : ℕ) (e : Entry Ev) : Prop :=
  ∃ w u, w ≤ v ∧ w < versionLimit ∧ u < outboxEntriesPerTransaction ∧ e.key = outboxKey w u

theorem CommittedBy.mono (h : CommittedBy v e) (hvw : v ≤ w) :
    CommittedBy w e := by
  obtain ⟨x, u, hx, hlim, hu, hk⟩ := h
  exact ⟨x, u, hx.trans hvw, hlim, hu, hk⟩

/-- An entry before a committed one was committed with it or earlier. -/
theorem CommittedBy.of_lt {e' : Entry Ev} (h : CommittedBy v e)
    (h' : CommittedBy w e') (hlt : e'.key < e.key) : CommittedBy v e' := by
  obtain ⟨x, u, hx, hlim, -, hk⟩ := h
  obtain ⟨x', u', -, hlim', hu', hk'⟩ := h'
  refine ⟨x', u', ?_, hlim', hu', hk'⟩
  by_contra hgt
  have := outboxKey_lt_of_version (v := x) (w := x') (by omega) hlim' u u'
  rw [← hk, ← hk'] at this
  exact lt_asymm this hlt

/-- **A clear removes exactly the entries up to the mark.** -/
theorem mem_clearRange_iff {db : Db Ev} {u x : ℕ} {stop : List Byte}
    (hstop : outboxClearRange (outboxKey v u) = some stop) (he : CommittedBy x e) :
    e ∈ (clearRange db stop).outbox ↔ e ∈ db.outbox ∧ outboxKey v u < e.key := by
  obtain ⟨w, u', -, -, -, hk⟩ := he
  obtain ⟨stop', hs, hinc⟩ := exists_outboxClearRange v u
  have heq : stop' = stop := Option.some.inj (hs.symm.trans hstop)
  subst heq
  have hlt : e.key < stop' ↔ e.key ≤ outboxKey v u := lt_strinc_iff hinc (by simp [hk])
  have hpre : opsOutboxPrefix ≤ e.key := hk ▸ opsOutboxPrefix_le_outboxKey w u'
  simp only [clearRange, mem_filter, hpre, hlt, decide_true, Bool.true_and, Bool.not_eq_true',
    decide_eq_false_iff_not, not_le]

/-! ### Marks, batches and the accepted entries -/

/-- The entries of `app` before the key `k` are all accepted. -/
def AllBefore (app acc : List (Entry Ev)) (k : List Byte) : Prop :=
  ∀ e ∈ app, e.key < k → e ∈ acc

/-- A mark names a committed entry, and everything up to it is accepted. -/
def MarkOk (app acc : List (Entry Ev)) (m : List Byte) : Prop :=
  m = [] ∨ ∃ e ∈ app, e.key = m ∧ e ∈ acc ∧ AllBefore app acc m

/-- Before an entry of the batch are only accepted entries and entries of the batch. -/
def BatchOk (app acc rest : List (Entry Ev)) : Prop :=
  rest.Pairwise (fun a b => a.key < b.key) ∧
    ∀ x ∈ rest, x ∈ app ∧ ∀ e ∈ app, e.key < x.key → e ∈ acc ∨ e ∈ rest

/-- What a relay knows about the accepted entries. -/
def RelayOk (app acc : List (Entry Ev)) (x : Relay Ev) : Prop :=
  MarkOk app acc x.mark ∧
    match x.pc with
    | .producing rest lastAccepted => MarkOk app acc lastAccepted ∧ BatchOk app acc rest
    | .clearing lastAccepted => MarkOk app acc lastAccepted ∧ lastAccepted ≠ []
    | _ => True

/-- The committed entries grow at the end and the accepted ones anywhere. -/
structure Grows (app acc app' acc' : List (Entry Ev)) : Prop where
  appended : ∃ new, app' = app ++ new ∧ ∀ n ∈ new, ∀ e ∈ app, e.key < n.key
  accepted : acc ⊆ acc'

namespace Grows

variable {app acc app' acc' : List (Entry Ev)}

/-- A first acceptance. -/
theorem accept (x : Entry Ev) : Grows app acc app (acc ++ [x]) :=
  ⟨⟨[], by simp, by simp⟩, subset_append_left _ _⟩

theorem mem (h : Grows app acc app' acc') {e : Entry Ev} (he : e ∈ app) : e ∈ app' := by
  obtain ⟨⟨new, rfl, -⟩, -⟩ := h
  exact mem_append_left _ he

/-- What is committed later comes after what is committed now. -/
theorem mem_of_lt (h : Grows app acc app' acc') {e x : Entry Ev} (hx : x ∈ app) (he : e ∈ app')
    (hlt : e.key < x.key) : e ∈ app := by
  obtain ⟨⟨new, rfl, hnew⟩, -⟩ := h
  rcases mem_append.mp he with he | he
  · exact he
  · exact absurd (hnew e he x hx) (lt_asymm hlt)

theorem allBefore (h : Grows app acc app' acc') {x : Entry Ev} (hx : x ∈ app)
    (hb : AllBefore app acc x.key) : AllBefore app' acc' x.key :=
  fun e he hlt => h.accepted (hb e (h.mem_of_lt hx he hlt) hlt)

theorem markOk (h : Grows app acc app' acc') {m : List Byte} (hm : MarkOk app acc m) :
    MarkOk app' acc' m := by
  rcases hm with hm | ⟨e, he, rfl, hacc, hb⟩
  · exact .inl hm
  · exact .inr ⟨e, h.mem he, rfl, h.accepted hacc, h.allBefore he hb⟩

theorem batchOk (h : Grows app acc app' acc') {rest : List (Entry Ev)}
    (hr : BatchOk app acc rest) : BatchOk app' acc' rest := by
  refine ⟨hr.1, fun x hx => ?_⟩
  obtain ⟨hxa, hbefore⟩ := hr.2 x hx
  exact ⟨h.mem hxa, fun e he hlt =>
    (hbefore e (h.mem_of_lt hxa he hlt) hlt).imp_left (fun h' => h.accepted h')⟩

theorem relayOk (h : Grows app acc app' acc') {x : Relay Ev} (hx : RelayOk app acc x) :
    RelayOk app' acc' x := by
  refine ⟨h.markOk hx.1, ?_⟩
  have hpc := hx.2
  cases hp : x.pc with
  | producing rest last =>
    rw [hp] at hpc
    exact ⟨h.markOk hpc.1, h.batchOk hpc.2⟩
  | clearing last =>
    rw [hp] at hpc
    exact ⟨h.markOk hpc.1, hpc.2⟩
  | _ => trivial

end Grows

section Batch

variable {app acc rest : List (Entry Ev)} {x : Entry Ev}

/-- The head of a batch has only accepted entries before it. -/
theorem BatchOk.head (h : BatchOk app acc (x :: rest)) : x ∈ app ∧ AllBefore app acc x.key := by
  obtain ⟨hx, hbefore⟩ := h.2 x mem_cons_self
  refine ⟨hx, fun e he hlt => ?_⟩
  rcases hbefore e he hlt with h' | h'
  · exact h'
  · -- an entry of the batch is not before its head
    rcases mem_cons.mp h' with rfl | h'
    · exact absurd hlt (lt_irrefl _)
    · exact absurd (rel_of_pairwise_cons h.1 h') (lt_asymm hlt)

/-- Once the head is accepted, the rest is a batch. -/
theorem BatchOk.tail (h : BatchOk app acc (x :: rest)) : BatchOk app (acc ++ [x]) rest := by
  refine ⟨h.1.of_cons, fun y hy => ?_⟩
  obtain ⟨hya, hbefore⟩ := h.2 y (mem_cons_of_mem _ hy)
  refine ⟨hya, fun e he hlt => ?_⟩
  rcases hbefore e he hlt with h' | h'
  · exact .inl (mem_append_left _ h')
  · rcases mem_cons.mp h' with rfl | h'
    · exact .inl (by simp)
    · exact .inr h'

/-- A first acceptance of an entry whose predecessors are accepted makes its key a mark. -/
theorem markOk_accept (hx : x ∈ app) (hb : AllBefore app acc x.key) :
    MarkOk app (acc ++ [x]) x.key :=
  .inr ⟨x, hx, rfl, by simp, fun e he hlt => mem_append_left _ (hb e he hlt)⟩

theorem relayOk_afterBatch {mark last : List Byte} {holding : Bool} (hm : MarkOk app acc mark)
    (hl : MarkOk app acc last) : RelayOk app acc ⟨afterBatch last, mark, holding⟩ := by
  cases last with
  | nil => exact ⟨hm, trivial⟩
  | cons b last => exact ⟨hm, hl, by simp⟩

end Batch

/-! ### The invariant -/

/-- The log of acceptances is in commit order up to repetitions: when an entry was accepted,
everything before it had been. -/
def LogOk (app log : List (Entry Ev)) : Prop :=
  ∀ early x late, log = early ++ x :: late → x ∈ app ∧ AllBefore app early x.key

theorem LogOk.mem (h : LogOk app log) (hx : x ∈ log) :
    x ∈ app ∧ AllBefore app log x.key := by
  obtain ⟨early, late, rfl⟩ := append_of_mem hx
  obtain ⟨hxa, hb⟩ := h early x late rfl
  exact ⟨hxa, fun e he hlt => mem_append_left _ (hb e he hlt)⟩

theorem LogOk.concat (h : LogOk app log) (hx : x ∈ app) (hb : AllBefore app log x.key) : LogOk app (log ++ [x]) := by
  intro early y late heq
  rcases eq_nil_or_concat late with rfl | ⟨late', z, rfl⟩
  · obtain ⟨rfl, hxy⟩ := append_inj' heq rfl
    obtain rfl : x = y := by simpa using hxy
    exact ⟨hx, hb⟩
  · rw [concat_eq_append, ← cons_append, ← append_assoc] at heq
    obtain ⟨rfl, -⟩ := append_inj' heq rfl
    exact h early y late' rfl

theorem LogOk.grow {app' : List (Entry Ev)} (h : LogOk app log) (hg : Grows app log app' log) : LogOk app' log := by
  intro early x late heq
  obtain ⟨hxa, hb⟩ := h early x late heq
  exact ⟨hg.mem hxa, fun e he hlt => hb e (hg.mem_of_lt hxa he hlt) hlt⟩

/-- What a version of the database holds of the committed entries. -/
structure SnapOk (app acc : List (Entry Ev)) (v : ℕ) (d : Db Ev) : Prop where
  sub : d.outbox <+ app
  committed : ∀ e ∈ d.outbox, CommittedBy v e
  kept : ∀ e ∈ app, CommittedBy v e → e ∈ d.outbox ∨ e ∈ acc

/-- What holds in every reachable state. -/
structure Inv (s : State Ev) : Prop where
  sorted : s.appended.Pairwise fun a b => a.key < b.key
  keys : ∀ e ∈ s.appended, CommittedBy s.db.version e
  snap : ∀ v ≤ s.db.version, SnapOk s.appended s.accepted v (s.db.snapshot v)
  log : LogOk s.appended s.accepted
  flight : ∀ x ∈ s.inFlight, x ∈ s.appended ∧ AllBefore s.appended s.accepted x.key
  relays : ∀ r, RelayOk s.appended s.accepted (s.relays r)

variable {s s' : State Ev} {cfg : ℕ → RelayConfig}

theorem inv_start : Inv (State.start : State Ev) where
  sorted := by simp [State.start]
  keys := by simp [State.start]
  snap := fun v _ => ⟨by simp [State.start, Versioned.init], by simp [State.start, Versioned.init],
    by simp [State.start]⟩
  log := by simp [State.start, LogOk]
  flight := by simp [State.start]
  relays := fun _ => ⟨.inl rfl, trivial⟩

/-- A relay moves on with a mark and a batch it may have. -/
theorem Inv.setRelay (hi : Inv s) {x : Relay Ev} (hx : RelayOk s.appended s.accepted x) : Inv (s.setRelay r x) where
  sorted := hi.sorted
  keys := hi.keys
  snap := hi.snap
  log := hi.log
  flight := hi.flight
  relays := fun q => by
    rcases eq_or_ne q r with rfl | hne
    · simpa [State.setRelay] using hx
    · simpa [State.setRelay, Function.update_of_ne hne] using hi.relays q

/-- A transaction commits a version that keeps what is not accepted. -/
theorem Inv.commit (hi : Inv s) {d : Db Ev} (hd : d.outbox <+ s.db.latest.outbox)
    (hkept : ∀ e ∈ s.db.latest.outbox, e ∈ d.outbox ∨ e ∈ s.accepted) : Inv (s.commit d) where
  sorted := hi.sorted
  keys := fun e he => (hi.keys e he).mono (Nat.le_succ _)
  snap := by
    have hlast := hi.snap s.db.version le_rfl
    refine Versioned.forall_snapshot_commit (P := SnapOk s.appended s.accepted) hi.snap ⟨?_, ?_, ?_⟩
    · exact hd.trans hlast.sub
    · exact fun e he => (hlast.committed e (hd.subset he)).mono (Nat.le_succ _)
    · intro e he _
      rcases hlast.kept e he (hi.keys e he) with h | h
      · exact hkept e h
      · exact .inr h
  log := hi.log
  flight := hi.flight
  relays := hi.relays

/-- A transaction that only writes the lease. -/
theorem Inv.commit_lease (hi : Inv s) (lease : Option LeaseRecord) :
    Inv (s.commit { s.db.latest with lease := lease }) :=
  hi.commit (Sublist.refl _) fun _ he => .inl he

/-- The broker accepts an entry whose predecessors are accepted. -/
theorem Inv.accept (hi : Inv s) (hx : x ∈ s.appended) (hb : AllBefore s.appended s.accepted x.key) :
    Inv { s with accepted := s.accepted ++ [x] } where
  sorted := hi.sorted
  keys := hi.keys
  snap := fun v hv =>
    let h := hi.snap v hv
    ⟨h.sub, h.committed, fun e he hc => (h.kept e he hc).imp_right (mem_append_left _)⟩
  log := hi.log.concat hx hb
  flight := fun y hy =>
    ⟨(hi.flight y hy).1, (Grows.accept x).allBefore (hi.flight y hy).1 (hi.flight y hy).2⟩
  relays := fun r => (Grows.accept x).relayOk (hi.relays r)

/-- A produce that failed for the relay leaves its record with the broker. -/
theorem Inv.inFlight (hi : Inv s) (hx : x ∈ s.appended) (hb : AllBefore s.appended s.accepted x.key) :
    Inv { s with inFlight := s.inFlight ++ [x] } where
  sorted := hi.sorted
  keys := hi.keys
  snap := hi.snap
  log := hi.log
  flight := by
    intro y hy
    rcases mem_append.mp hy with hy | hy
    · exact hi.flight y hy
    · rw [mem_singleton.mp hy]
      exact ⟨hx, hb⟩
  relays := hi.relays

/-! ### Appends -/

theorem pairwise_writtenEntries (v : ℕ) (events : List Ev) (hlen : events.length ≤ outboxEntriesPerTransaction) :
    (writtenEntries v events).Pairwise fun a b => a.key < b.key := by
  rw [writtenEntries, pairwise_map, pairwise_iff_getElem]
  intro i j hi hj hij
  rw [length_zipIdx] at hj
  simpa using outboxKey_lt_of_user v hij (by omega)

theorem committedBy_of_mem_writtenEntries {events : List Ev}
    (hv : v < versionLimit) (hlen : events.length ≤ outboxEntriesPerTransaction)
    (he : e ∈ writtenEntries v events) : CommittedBy v e ∧ ∃ u, e.key = outboxKey v u := by
  obtain ⟨⟨ev, u⟩, hmem, rfl⟩ := mem_map.mp he
  have hu := (mem_zipIdx hmem).2.1
  exact ⟨⟨v, u, le_rfl, hv, by omega, rfl⟩, u, rfl⟩

/-- A transaction appends entries; they come after everything committed before. -/
theorem Inv.append (hi : Inv s) {events : List Ev}
    (hlen : events.length ≤ outboxEntriesPerTransaction) (hv : s.db.version + 1 < versionLimit) :
    Inv { s.commit { s.db.latest with
        outbox := s.db.latest.outbox ++ writtenEntries (s.db.version + 1) events } with
      appended := s.appended ++ writtenEntries (s.db.version + 1) events } := by
  set new := writtenEntries (s.db.version + 1) events with hnewdef
  have hnew : ∀ n ∈ new, CommittedBy (s.db.version + 1) n ∧
      ∃ u, n.key = outboxKey (s.db.version + 1) u :=
    fun n hn => committedBy_of_mem_writtenEntries hv hlen hn
  have hlater : ∀ n ∈ new, ∀ v ≤ s.db.version, ∀ e : Entry Ev, CommittedBy v e → e.key < n.key := by
    rintro n hn v hle e ⟨w, u, hw, -, -, hk⟩
    obtain ⟨-, u', hk'⟩ := hnew n hn
    rw [hk, hk']
    exact outboxKey_lt_of_version (by omega) hv _ _
  have hg : Grows s.appended s.accepted (s.appended ++ new) s.accepted :=
    ⟨⟨new, rfl, fun n hn e he => hlater n hn _ le_rfl e (hi.keys e he)⟩, Subset.refl _⟩
  have hlast := hi.snap s.db.version le_rfl
  refine ⟨?_, ?_, ?_, hi.log.grow hg, ?_, fun r => hg.relayOk (hi.relays r)⟩
  · exact pairwise_append.mpr ⟨hi.sorted, pairwise_writtenEntries _ _ hlen,
      fun e he n hn => hlater n hn _ le_rfl e (hi.keys e he)⟩
  · intro e he
    rcases mem_append.mp he with he | he
    · exact (hi.keys e he).mono (Nat.le_succ _)
    · exact (hnew e he).1
  · refine Versioned.forall_snapshot_commit (P := SnapOk (s.appended ++ new) s.accepted)
      (fun v hle => ?_) ⟨?_, ?_, ?_⟩
    · have hold := hi.snap v hle
      refine ⟨hold.sub.trans (sublist_append_left _ _), hold.committed, fun e he hc => ?_⟩
      rcases mem_append.mp he with he | he
      · exact hold.kept e he hc
      · exact absurd (hlater e he v hle e hc) (lt_irrefl _)
    · exact hlast.sub.append (Sublist.refl _)
    · intro e he
      rcases mem_append.mp he with he | he
      · exact (hlast.committed e he).mono (Nat.le_succ _)
      · exact (hnew e he).1
    · intro e he _
      rcases mem_append.mp he with he | he
      · exact (hlast.kept e he (hi.keys e he)).imp_left (mem_append_left _)
      · exact .inl (mem_append_right _ he)
  · intro x hx
    obtain ⟨hxa, hb⟩ := hi.flight x hx
    exact ⟨hg.mem hxa, hg.allBefore hxa hb⟩

/-! ### Reads -/

/-- Two committed entries with one key are the same. -/
theorem Inv.eq_of_key (hi : Inv s) {a b : Entry Ev} (ha : a ∈ s.appended) (hb : b ∈ s.appended)
    (h : a.key = b.key) : a = b := by
  have hnodup : (s.appended.map Entry.key).Nodup := by
    rw [Nodup, pairwise_map]
    exact hi.sorted.imp fun hlt => hlt.ne
  exact inj_on_of_nodup_map hnodup ha hb h

/-- Everything up to a mark is accepted. -/
theorem Inv.accepted_of_le_mark (hi : Inv s) {m : List Byte} (hm : MarkOk s.appended s.accepted m)
    (hne : m ≠ []) (he : e ∈ s.appended) (hle : e.key ≤ m) : e ∈ s.accepted := by
  rcases hm with rfl | ⟨x, hx, rfl, hacc, hb⟩
  · exact absurd rfl hne
  · rcases hle.lt_or_eq with hlt | heq
    · exact hb e he hlt
    · exact hi.eq_of_key he hx heq ▸ hacc

/-- In a sorted list, what comes before an entry of an initial part is in it. -/
theorem mem_take_of_lt {l : List (Entry Ev)} {n : ℕ}
    (hl : l.Pairwise fun a b => a.key < b.key) (hx : x ∈ l.take n) (he : e ∈ l)
    (hlt : e.key < x.key) : e ∈ l.take n := by
  rw [← take_append_drop n l] at hl he
  rcases mem_append.mp he with he | he
  · exact he
  · exact absurd ((pairwise_append.mp hl).2.2 x hx e he) (lt_asymm hlt)

/-- **A batch read at any version up to now is a good batch.** -/
theorem Inv.batchOk_read (hi : Inv s) {R limit : ℕ} {mark : List Byte} (hR : R ≤ s.db.version)
    (hm : MarkOk s.appended s.accepted mark) :
    BatchOk s.appended s.accepted (readOutboxFrom (s.db.snapshot R) mark limit) := by
  have hsnap := hi.snap R hR
  have hsub : readOutboxFrom (s.db.snapshot R) mark limit <+ (s.db.snapshot R).outbox :=
    (take_sublist _ _).trans filter_sublist
  refine ⟨hi.sorted.sublist (hsub.trans hsnap.sub), fun x hx => ?_⟩
  have hxo := hsub.subset hx
  refine ⟨hsnap.sub.subset hxo, fun e he hlt => ?_⟩
  have hcom := (hsnap.committed x hxo).of_lt (hi.keys e he) hlt
  rcases hsnap.kept e he hcom with heo | hacc
  · by_cases hafter : mark = [] ∨ mark < e.key
    · right
      refine mem_take_of_lt (hi.sorted.sublist (filter_sublist.trans hsnap.sub)) hx ?_ hlt
      simpa [heo] using hafter
    · -- an entry the read skipped is not after the mark
      rw [not_or, not_lt] at hafter
      exact .inl (hi.accepted_of_le_mark hm hafter.1 he hafter.2)
  · exact .inl hacc

/-! ### Clears -/

/-- A clear up to a mark removes exactly entries up to it, which are accepted. -/
theorem Inv.clear_effect (hi : Inv s) {m stop : List Byte} (hm : MarkOk s.appended s.accepted m)
    (hne : m ≠ []) (hstop : outboxClearRange m = some stop) :
    (clearRange s.db.latest stop).outbox <+ s.db.latest.outbox ∧
      ∀ e ∈ s.db.latest.outbox, e ∈ (clearRange s.db.latest stop).outbox ∨ e ∈ s.accepted := by
  refine ⟨filter_sublist, fun e he => ?_⟩
  have hlast := hi.snap s.db.version le_rfl
  have hea := hlast.sub.subset he
  rcases hm with rfl | ⟨x, hx, rfl, hacc, hb⟩
  · exact absurd rfl hne
  obtain ⟨v, u, -, -, -, hk⟩ := hi.keys x hx
  rw [hk] at hstop
  by_cases hlt : x.key < e.key
  · exact .inl ((mem_clearRange_iff hstop (hi.keys e hea)).mpr ⟨he, hk ▸ hlt⟩)
  · exact .inr (hi.accepted_of_le_mark (.inr ⟨x, hx, rfl, hacc, hb⟩) hne hea (not_lt.mp hlt))

/-! ### Moves of a relay -/

theorem Inv.relayMove {pc : Pc Ev} (hi : Inv s)
    (hpc : (s.relays r).pc = pc) (h : relayStep cfg s r pc a = some s') : Inv s' := by
  have hr := hi.relays r
  have hmark := hr.1
  have hrest := hr.2
  rw [hpc] at hrest
  unfold relayStep at h
  split at h
  · -- `Hold` commits
    split at h
    · next answered _ =>
      cases h
      refine (hi.commit_lease _).setRelay ?_
      cases answered with
      | true =>
        refine ⟨?_, trivial⟩
        rw [if_pos rfl]
        show MarkOk _ _ (if (s.relays r).holding then (s.relays r).mark else [])
        split
        · exact hmark
        · exact .inl rfl
      | false => exact hr
    · simp at h
  · split at h
    · cases h
      exact hi.setRelay ⟨hmark, trivial⟩
    · simp at h
  · cases h
    exact hi.setRelay ⟨hmark, trivial⟩
  · -- the batch is read at some version
    split at h
    · next hR =>
      cases h
      exact hi.setRelay ⟨hmark, .inl rfl, hi.batchOk_read hR.1 hmark⟩
    · simp at h
  · cases h
    exact hi.setRelay ⟨hmark, trivial⟩
  · next e rest last _ outcome =>
    cases h
    obtain ⟨hlast, hbatch⟩ := hrest
    obtain ⟨hx, hb⟩ := hbatch.head
    cases outcome with
    | ok =>
      exact (hi.accept hx hb).setRelay
        ⟨(Grows.accept e).markOk hmark, markOk_accept hx hb, hbatch.tail⟩
    | stop => exact (hi.accept hx hb).setRelay ⟨(Grows.accept e).markOk hmark, trivial⟩
    | failed => exact (hi.inFlight hx hb).setRelay (relayOk_afterBatch hmark hlast)
  · cases h
    exact hi.setRelay (relayOk_afterBatch hmark hrest.1)
  · -- a clear commits
    split at h
    · next answered _ =>
      obtain ⟨stop, hstop, rfl⟩ := Option.map_eq_some_iff.mp h
      obtain ⟨hsub, hkept⟩ := hi.clear_effect hrest.1 hrest.2 hstop
      refine (hi.commit hsub hkept).setRelay ?_
      cases answered with
      | true => exact ⟨hrest.1, trivial⟩
      | false => exact hr
    · simp at h
  · cases h
    exact hi.setRelay ⟨hmark, trivial⟩
  · cases h
    exact hi.setRelay ⟨hmark, trivial⟩
  · cases h
    exact hi.setRelay ⟨hmark, trivial⟩
  · simp at h

/-! ### What a move does to the database -/

/-- What a move of a relay does to the database: nothing, a lease write of that relay's `Hold`, or
a clear by the owner of the lease. -/
theorem relayStep_db (ha : a.relay = some r) (h : relayStep cfg s r (s.relays r).pc a = some s') :
    s'.db = s.db ∨
    (∃ R answered expires, a = .hold r R answered ∧
      s'.db = s.db.commit { s.db.latest with lease := some ⟨r, expires⟩ }) ∨
    (∃ R answered last stop, a = .clear r R answered ∧ ownedBy s.db.latest.lease r = true ∧
      (s.relays r).pc = .clearing last ∧ outboxClearRange last = some stop ∧
      s'.db = s.db.commit (clearRange s.db.latest stop)) := by
  generalize hpc : (s.relays r).pc = pc at h
  unfold relayStep at h
  split at h
  case h_1 q R answered =>
    obtain rfl : q = r := by simpa [Action.relay] using ha
    split at h
    · cases h
      exact .inr (.inl ⟨R, answered, _, rfl, rfl⟩)
    · simp at h
  case h_8 last q R answered =>
    obtain rfl : q = r := by simpa [Action.relay] using ha
    split at h
    · next hread =>
      obtain ⟨hun, hown⟩ := hread
      obtain ⟨stop, hstop, rfl⟩ := Option.map_eq_some_iff.mp h
      simp only [State.leaseUnchanged, Bool.and_eq_true, decide_eq_true_eq] at hun
      rw [hun.2] at hown
      exact .inr (.inr ⟨R, answered, last, stop, rfl, hown, rfl, hstop, rfl⟩)
    · simp at h
  case h_6 outcome =>
    cases h
    cases outcome <;> exact .inl rfl
  case h_2 =>
    split at h
    · cases h; exact .inl rfl
    · simp at h
  case h_4 =>
    split at h
    · cases h; exact .inl rfl
    · simp at h
  case h_12 => simp at h
  all_goals
    cases h
    exact .inl rfl

/-! ### Whole runs -/

variable [DecidableEq Ev]

/-- Every move keeps the invariant. -/
theorem Inv.step (hi : Inv s) (h : step cfg s a = some s') : Inv s' := by
  unfold OpsOutbox.step at h
  split at h
  · split at h
    · simp at h
    · next hbounds =>
      cases h
      simp only [not_or, not_lt, not_le] at hbounds
      exact hi.append hbounds.2.1 hbounds.2.2
  · cases h
    exact hi.commit_lease s.db.latest.lease
  · split at h
    · cases h
      exact hi.commit_lease none
    · simp at h
  · split at h
    · next hmem =>
      cases h
      exact hi.accept (hi.flight _ hmem).1 (hi.flight _ hmem).2
    · simp at h
  · obtain ⟨r, -, hstep⟩ := Option.bind_eq_some_iff.mp h
    exact hi.relayMove rfl hstep

/-- **The invariant holds in every reachable state.** -/
theorem inv_of_reachable (h : Reachable cfg s) : Inv s :=
  h.invariant inv_start fun hi _ hs => hi.step hs

/-- What any move does to the database. -/
theorem step_db (h : step cfg s a = some s') :
    s'.db = s.db ∨
    (∃ new, s'.db = s.db.commit { s.db.latest with outbox := s.db.latest.outbox ++ new }) ∨
    (∃ lease, s'.db = s.db.commit { s.db.latest with lease := lease } ∧
      ∀ r, ownedBy lease r = true →
        ownedBy s.db.latest.lease r = true ∨ ∃ R answered, a = .hold r R answered) ∨
    (∃ r R answered last stop, a = .clear r R answered ∧ ownedBy s.db.latest.lease r = true ∧
      (s.relays r).pc = .clearing last ∧ outboxClearRange last = some stop ∧
      s'.db = s.db.commit (clearRange s.db.latest stop)) := by
  unfold OpsOutbox.step at h
  split at h
  · split at h
    · simp at h
    · cases h
      exact .inr (.inl ⟨_, rfl⟩)
  · cases h
    exact .inr (.inr (.inl ⟨s.db.latest.lease, rfl, fun r hr => .inl hr⟩))
  · split at h
    · cases h
      exact .inr (.inr (.inl ⟨none, rfl, fun r hr => by simp [ownedBy] at hr⟩))
    · simp at h
  · split at h
    · cases h
      exact .inl rfl
    · simp at h
  · obtain ⟨r, hr, hstep⟩ := Option.bind_eq_some_iff.mp h
    rcases relayStep_db hr hstep with hsame | ⟨R, answered, expires, rfl, hdb⟩ | hclear
    · exact .inl hsame
    · refine .inr (.inr (.inl ⟨_, hdb, fun q hq => .inr ⟨R, answered, ?_⟩⟩))
      obtain rfl : r = q := by simpa [ownedBy] using hq
      rfl
    · exact .inr (.inr (.inr ⟨r, hclear⟩))

/-- Only `Hold` of the relay `r` makes it the owner of the lease. -/
theorem ownedBy_of_step (h : step cfg s a = some s')
    (ha : ∀ R answered, a ≠ .hold r R answered) (hno : ownedBy s.db.latest.lease r = false) :
    ownedBy s'.db.latest.lease r = false := by
  rcases step_db h with hdb | ⟨new, hdb⟩ | ⟨lease, hdb, hlease⟩ |
    ⟨q, R, b, last, stop, -, -, -, -, hdb⟩
  · rw [hdb, hno]
  · simpa [hdb] using hno
  · rw [hdb, Versioned.latest_commit]
    by_contra hown
    rcases hlease r (by simpa using hown) with h' | ⟨R, answered, h'⟩
    · simp [hno] at h'
    · exact ha R answered h'
  · simpa [hdb, clearRange] using hno

/-- A relay that does not own the lease commits no clear. -/
theorem clear_eq_none {R : ℕ} {answered : Bool} (hno : ownedBy s.db.latest.lease r = false) :
    step cfg s (.clear r R answered) = none := by
  show relayStep cfg s r (s.relays r).pc (.clear r R answered) = none
  cases (s.relays r).pc with
  | clearing last =>
    rw [relayStep, if_neg]
    rintro ⟨hun, hown⟩
    simp only [State.leaseUnchanged, Bool.and_eq_true, decide_eq_true_eq] at hun
    rw [hun.2, hno] at hown
    exact Bool.false_ne_true hown
  | producing rest last => cases rest <;> rfl
  | _ => rfl

/-- What a move takes out of the outbox had been accepted. -/
theorem accepted_of_removed (hi : Inv s)
    (h : step cfg s a = some s') (he : e ∈ s.db.latest.outbox) (he' : e ∉ s'.db.latest.outbox) :
    e ∈ s.accepted := by
  rcases step_db h with hdb | ⟨new, hdb⟩ | ⟨lease, hdb, -⟩ |
    ⟨r, R, b, last, stop, -, -, hpc, hstop, hdb⟩
  · rw [hdb] at he'
    exact absurd he he'
  · rw [hdb, Versioned.latest_commit] at he'
    exact absurd (mem_append_left _ he) he'
  · rw [hdb, Versioned.latest_commit] at he'
    exact absurd he he'
  · rw [hdb, Versioned.latest_commit] at he'
    have hr := (hi.relays r).2
    rw [hpc] at hr
    exact ((hi.clear_effect hr.1 hr.2 hstop).2 e he).resolve_left he'

/-- **The outbox relay loses nothing and keeps commit order.**  In every reachable state: every
entry ever committed is still stored or was accepted, and what a move takes out of the outbox had
been accepted before that move; keys are in commit order, the accepted entries are closed downwards
in it, and each acceptance in the broker's log comes after those of all earlier entries; and a
relay that does not own the lease commits no clear in any continuation before its `Hold` commits
again. -/
theorem relay_delivers_in_order (cfg : ℕ → RelayConfig) (s : State Ev) (hs : Reachable cfg s) :
    (∀ e ∈ s.appended, e ∈ s.db.latest.outbox ∨ e ∈ s.accepted) ∧
    (∀ a s' e, step cfg s a = some s' → e ∈ s.db.latest.outbox → e ∉ s'.db.latest.outbox →
      e ∈ s.accepted) ∧
    (s.appended.Pairwise (fun e e' => e.key < e'.key) ∧
      ∀ x ∈ s.accepted, x ∈ s.appended ∧ ∀ e ∈ s.appended, e.key < x.key → e ∈ s.accepted) ∧
    (∀ early x late, s.accepted = early ++ x :: late →
      ∀ e ∈ s.appended, e.key < x.key → e ∈ early) ∧
    (∀ r s', ownedBy s.db.latest.lease r = false →
      Reach (step cfg) (fun _ a => ∀ R answered, a ≠ .hold r R answered) s s' →
      ∀ R answered, step cfg s' (.clear r R answered) = none) := by
  have hi := inv_of_reachable hs
  refine ⟨fun e he => ?_, fun a s' e h he he' => accepted_of_removed hi h he he',
    ⟨hi.sorted, fun x hx => hi.log.mem hx⟩, fun early x late h => (hi.log early x late h).2,
    fun r s' hno hrun R answered => ?_⟩
  · exact (hi.snap s.db.version le_rfl).kept e he (hi.keys e he)
  · have hno' : ownedBy s'.db.latest.lease r = false :=
      hrun.invariant (I := fun t => ownedBy t.db.latest.lease r = false) hno
        fun hu ha hstep => ownedBy_of_step hstep ha hu
    exact clear_eq_none hno'

/-- The lease of the relay `0` expires between a failed produce and its clear: the relay `1` delivers
both entries again and clears them, and the broker accepts the failed record after all. -/
def takeoverRun : List (Action ℕ) :=
  [.append [1, 2], .hold 0 1 true, .holdRefused 1 2, .read 0 2, .produce 0 .ok, .produce 0 .failed,
    .advance, .tick 1, .hold 1 3 true, .read 1 4, .produce 1 .ok, .produce 1 .ok, .produced 1,
    .clear 1 4 true, .acceptLate ⟨outboxKey 1 1, 2⟩]

theorem relay_delivers_after_takeover :
    ∃ s : State ℕ, Reachable (fun _ => ⟨2, 2⟩) s ∧ s.accepted.map Entry.event = [1, 1, 2, 2] ∧
      s.db.latest.outbox = [] ∧ (∀ e ∈ s.appended, e ∈ s.accepted) ∧
      ∀ R answered, step (fun _ => ⟨2, 2⟩) s (.clear 0 R answered) = none := by
  obtain ⟨s, hs, hp⟩ := exists_reach_of_run (step fun _ => ⟨2, 2⟩) State.start takeoverRun
    (fun s => s.accepted.map Entry.event == [1, 1, 2, 2] && s.db.latest.outbox.isEmpty &&
      !ownedBy s.db.latest.lease 0) (by decide +kernel)
  simp only [Bool.and_eq_true, beq_iff_eq, List.isEmpty_iff, Bool.not_eq_true'] at hp
  obtain ⟨hkept, -, -, -, hclear⟩ := relay_delivers_in_order _ s hs
  exact ⟨s, hs, hp.1.1, hp.1.2, fun e he => (hkept e he).resolve_left (by simp [hp.1.2]),
    hclear 0 s hp.2 .refl⟩

end Tack.OpsOutbox

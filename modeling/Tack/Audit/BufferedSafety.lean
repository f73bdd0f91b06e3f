import Mathlib
import Tack.Audit.Buffered

/-!
# The buffered recorder keeps every event and stays bounded

What holds in every reachable state of `Buffered.step`.  A move of the flusher only moves
events between the queue, the batch, the retained events and what became of them
(`FlusherEffect`); a move of a `Record` call brings in at most its own event (`CallMove`).
The invariant `Inv` is derived from these two descriptions.

## Main definitions

* `Buffered.State.held` — the retained events the inner recorder has not accepted.
* `Buffered.State.places` — every event that is somewhere, with multiplicity.
* `Buffered.Phase` — what the flusher's place says about batch, retained events and room.
* `Buffered.Inv` — the invariant.

## Main results

* `Buffered.flusherStep_effect`, `Buffered.callStep_cases` — what a move can do.
* `Buffered.inv_of_reachable` — the invariant holds in every reachable state.
-/

namespace Tack.Buffered

open List

variable {Ev : Type} {st : Settings} {isRead : Ev → Bool} {s s' : State Ev}

/-! ### Where the events are -/

/-- The retained events the inner recorder has not accepted.  Outside a delivery attempt these are
all of them; during one, `b.retained` still holds the events already accepted, until `settle`. -/
def State.held (s : State Ev) : List (Entry Ev) :=
  match s.flusher with
  | .delivering _ start => s.retained.drop start
  | .recording _ _ next lost => lost ++ s.retained.drop next
  | .settling _ failed => failed
  | _ => s.retained

/-- Every event that is somewhere: accepted, appended to the outbox, given up or held. -/
def State.places (s : State Ev) : Multiset (Entry Ev) :=
  ↑s.accepted + ↑s.overflowed + ↑s.abandoned + ↑s.held + ↑s.batch + ↑s.queue

/-- What the place of the flusher says about the batch, the retained events and the room.  The
shutdown path says only that the recorder is closed: no event arrives any more. -/
def Phase (st : Settings) (s : State Ev) : Prop :=
  match s.flusher with
  | .select => s.retained.length = s.roomRetained ∧ s.batch.length < st.batchSize
  | .waking false | .flushing =>
    s.retained.length = s.roomRetained ∧ s.batch.length ≤ st.batchSize
  | .holding | .delivering false _ | .settling false _ | .settled false =>
    s.batch = [] ∧ s.retained.length ≤ s.roomRetained + st.batchSize
  | .recording closing start next _ =>
    (closing = true → s.closed = true) ∧ next ≤ s.chunkEnd st start ∧
      (closing = false → s.batch = [] ∧ s.retained.length ≤ s.roomRetained + st.batchSize)
  | _ => s.closed = true

/-- While the recorder is open, batch and retained events fit in the room the flusher declared
plus one batch. -/
theorem Phase.le_room (h : Phase st s) (hc : s.closed = false) :
    s.batch.length + s.retained.length ≤ s.roomRetained + st.batchSize := by
  unfold Phase at h
  split at h
  · omega
  · omega
  · omega
  · rw [h.1]; simpa using h.2
  · rw [h.1]; simpa using h.2
  · rw [h.1]; simpa using h.2
  · rw [h.1]; simpa using h.2
  · next closing _ _ _ _ =>
    cases closing with
    | true => simp [h.1 rfl] at hc
    | false =>
      obtain ⟨hb, hl⟩ := h.2.2 rfl
      rw [hb]; simpa using hl
  · simp [h] at hc

/-- Closing the recorder keeps the phase: no place asks for an open recorder. -/
theorem Phase.mark (h : Phase st s) : Phase st { s with closed := true, done := true } := by
  unfold Phase at h ⊢
  split at h
  case h_8 hf =>
    simp only [hf]
    exact ⟨fun _ => trivial, h.2⟩
  all_goals simp_all

/-- What the flusher keeps of its own data. -/
structure FlusherInv (st : Settings) (s : State Ev) : Prop where
  phase : Phase st s
  /-- The undelivered events are retained ones, in their order. -/
  held_sub : s.held <+ s.retained
  /-- What an attempt no longer counts as undelivered was accepted. -/
  settled : ∀ e ∈ s.retained, e ∈ s.held ∨ e ∈ s.accepted
  done_closed : s.done = s.closed
  dropped_eq : s.dropped = s.abandoned.length

/-- What a move of the flusher can do: it moves events on towards the inner recorder, gives some
up after `Close`, and touches nothing else. -/
structure FlusherEffect (st : Settings) (s s' : State Ev) : Prop where
  calls : s'.calls = s.calls
  readers : s'.readers = s.readers
  writing : s'.writing = s.writing
  closed : s'.closed = s.closed
  arrived : s'.arrived = s.arrived
  overflowed : s'.overflowed = s.overflowed
  accepted : s.accepted <+: s'.accepted
  gaveUp : s'.abandoned = s.abandoned ∨ s.flusher = .pausing ∧
    s'.abandoned = s.abandoned ++ s.retained ∧ s'.dropped = s.dropped + s.retained.length
  places : s'.places = s.places
  sub : s'.retained ++ s'.batch ++ s'.queue <+ s.retained ++ s.batch ++ s.queue
  inv : FlusherInv st s'

/-! ### Moves of the flusher -/

theorem State.wake_eq (st : Settings) (s : State Ev) :
    ∃ o, s.wake st = { s with opened := o } := by
  unfold State.wake
  split
  · exact ⟨s.opened, rfl⟩
  · exact ⟨s.opened + 1, rfl⟩

theorem State.setRetained_eq (st : Settings) (s : State Ev) (count : ℕ) :
    ∃ o, s.setRetained st count = { s with roomRetained := count, opened := o } :=
  State.wake_eq st _

/-- A move that only sets the flusher's place and its room and backoff bookkeeping. -/
theorem FlusherEffect.quiet (hi : FlusherInv st s) (f : Flusher Ev) (o r att rt : ℕ)
    (hheld : State.held { s with flusher := f } = s.held)
    (hphase : Phase st { s with
      flusher := f, opened := o, roomRetained := r, attempts := att, retryAt := rt }) :
    FlusherEffect st s { s with
      flusher := f, opened := o, roomRetained := r, attempts := att, retryAt := rt } := by
  have hheld' : State.held { s with
      flusher := f, opened := o, roomRetained := r, attempts := att, retryAt := rt } = s.held :=
    hheld
  refine ⟨rfl, rfl, rfl, rfl, rfl, rfl, ⟨[], append_nil _⟩, .inl rfl, ?_, Sublist.refl _, hphase,
    ?_, ?_, hi.done_closed, hi.dropped_eq⟩
  · simp only [State.places, hheld']
  · rw [hheld']; exact hi.held_sub
  · rw [hheld']; exact hi.settled

/-- `deliverAll` goes on after a chunk: what is undelivered now is the chunk's lost events and
every later one. -/
theorem State.held_afterChunk (st : Settings) (s : State Ev) (closing : Bool) (start : ℕ)
    (lost : List (Entry Ev)) (acc : List (Entry Ev)) :
    State.held { s with accepted := acc, flusher := s.afterChunk st closing start lost } =
      lost ++ s.retained.drop (s.chunkEnd st start) := by
  unfold State.afterChunk
  split
  · next h =>
    rw [List.isEmpty_iff] at h
    have hdrop : s.retained.drop (start + st.batchSize) =
        s.retained.drop (s.chunkEnd st start) := by
      unfold State.chunkEnd
      rcases le_total (start + st.batchSize) s.retained.length with hle | hle
      · rw [min_eq_left hle]
      · rw [min_eq_right hle, List.drop_eq_nil_of_le hle, List.drop_length]
    simp [State.held, h, hdrop]
  · rfl

variable {closing : Bool} {start c : ℕ} {a : Action Ev} {ev : Ev} {pc : Pc}

/-- The place `deliverAll` goes on at keeps the phase of the attempt. -/
theorem phase_afterChunk (start : ℕ) (lost acc : List (Entry Ev)) (hc : closing = true → s.closed = true)
    (hb : closing = false → s.batch = [] ∧ s.retained.length ≤ s.roomRetained + st.batchSize) :
    Phase st { s with accepted := acc, flusher := s.afterChunk st closing start lost } := by
  unfold State.afterChunk
  cases closing with
  | true => split <;> exact hc rfl
  | false => split <;> exact hb rfl

/-- A chunk and what comes after it are the events from its start on. -/
theorem State.chunk_append_drop (st : Settings) (s : State Ev) (h : start < s.retained.length) :
    s.chunk st start ++ s.retained.drop (s.chunkEnd st start) = s.retained.drop start := by
  have hle : start ≤ s.chunkEnd st start := by
    unfold State.chunkEnd
    omega
  have hend : s.chunkEnd st start ≤ s.retained.length := by
    unfold State.chunkEnd
    omega
  conv_rhs => rw [← List.take_append_drop (s.chunkEnd st start) s.retained,
    List.drop_append_of_le_length (by rw [List.length_take]; omega)]
  rfl

/-- A move inside a delivery attempt: the undelivered events `s.held` split into the newly
accepted `acc` and the still undelivered `h'`. -/
theorem FlusherEffect.answer (hi : FlusherInv st s) (f : Flusher Ev) (acc h' : List (Entry Ev))
    (hheld : State.held { s with accepted := s.accepted ++ acc, flusher := f } = h')
    (hsplit : (↑acc + ↑h' : Multiset (Entry Ev)) = ↑s.held) (hsub : h' <+ s.held)
    (hphase : Phase st { s with accepted := s.accepted ++ acc, flusher := f }) :
    FlusherEffect st s { s with accepted := s.accepted ++ acc, flusher := f } := by
  refine ⟨rfl, rfl, rfl, rfl, rfl, rfl, ⟨acc, rfl⟩, .inl rfl, ?_, Sublist.refl _, hphase, ?_, ?_,
    hi.done_closed, hi.dropped_eq⟩
  · simp only [State.places, hheld, ← hsplit, ← Multiset.coe_add]
    abel
  · rw [hheld]; exact hsub.trans hi.held_sub
  · intro e he
    rw [hheld]
    rcases hi.settled e he with hin | hacc
    · have hmem : e ∈ (↑acc + ↑h' : Multiset (Entry Ev)) := by rw [hsplit]; exact hin
      rcases Multiset.mem_add.mp hmem with h | h
      · exact .inr (List.mem_append_right _ h)
      · exact .inl h
    · exact .inr (List.mem_append_left _ hacc)

/-- The batch is appended to the retained events, none of which is in an attempt. -/
theorem FlusherEffect.gather (hi : FlusherInv st s) (hold : s.held = s.retained) {f : Flusher Ev}
    (hheld : State.held { s with
      retained := s.retained ++ s.batch, batch := [], flusher := f } = s.retained ++ s.batch)
    (hphase : Phase st { s with
      retained := s.retained ++ s.batch, batch := [], flusher := f }) :
    FlusherEffect st s { s with
      retained := s.retained ++ s.batch, batch := [], flusher := f } := by
  refine ⟨rfl, rfl, rfl, rfl, rfl, rfl, ⟨[], append_nil _⟩, .inl rfl, ?_, ?_, hphase, ?_, ?_,
    hi.done_closed, hi.dropped_eq⟩
  · simp only [State.places, hheld, hold, ← Multiset.coe_add, Multiset.coe_nil]
    abel
  · simp
  · rw [hheld]
  · rw [hheld]; exact fun e he => .inl he

theorem receive_effect (hi : FlusherInv st s) (hold : s.held = s.retained)
    (hphase : ∀ s' : State Ev, s'.flusher = .waking closing → s'.retained = s.retained →
      s'.roomRetained = s.roomRetained → s'.closed = s.closed →
      s'.batch.length = s.batch.length + 1 → Phase st s')
    (h : receive s closing = some s') : FlusherEffect st s s' := by
  unfold receive at h
  split at h
  · simp at h
  · next e rest hq =>
    cases h
    refine ⟨rfl, rfl, rfl, rfl, rfl, rfl, ⟨[], append_nil _⟩, .inl rfl, ?_, ?_,
      hphase _ rfl rfl rfl rfl (by simp), ?_, ?_, hi.done_closed, hi.dropped_eq⟩
    · have hcons : (↑(e :: rest) : Multiset (Entry Ev)) = ↑[e] + ↑rest := by
        rw [Multiset.coe_add]; rfl
      simp only [State.places, hold, hq, hcons]
      simp only [State.held, ← Multiset.coe_add]
      abel
    · simp [hq]
    · exact Sublist.refl _
    · exact fun e he => .inl he

/-- The events an attempt did not deliver replace the retained ones. -/
theorem settle_effect {failed : List (Entry Ev)} (hi : FlusherInv st s) (hf : s.flusher = .settling closing failed) :
    FlusherEffect st s { s with retained := failed, flusher := .settled closing } := by
  have hheld : s.held = failed := by simp [State.held, hf]
  have hsub : failed <+ s.retained := hheld ▸ hi.held_sub
  refine ⟨rfl, rfl, rfl, rfl, rfl, rfl, ⟨[], append_nil _⟩, .inl rfl, ?_, ?_, ?_, Sublist.refl _,
    fun e he => .inl he, hi.done_closed, hi.dropped_eq⟩
  · simp only [State.places, hheld]
    rfl
  · exact (hsub.append (Sublist.refl _)).append (Sublist.refl _)
  · have hp := hi.phase
    cases closing with
    | true => simpa [Phase, hf] using hp
    | false =>
      simp only [Phase, hf] at hp ⊢
      exact ⟨hp.1, hsub.length_le.trans hp.2⟩

/-- Giving up the retained events after `Close`. -/
theorem abandon_effect (hi : FlusherInv st s) (hf : s.flusher = .pausing) :
    FlusherEffect st s { s with
      dropped := s.dropped + s.retained.length
      abandoned := s.abandoned ++ s.retained
      retained := []
      flusher := .abandoning } := by
  have hheld : s.held = s.retained := by simp [State.held, hf]
  refine ⟨rfl, rfl, rfl, rfl, rfl, rfl, ⟨[], append_nil _⟩, .inr ⟨hf, rfl, rfl⟩, ?_, ?_, ?_,
    Sublist.refl _, fun e he => .inl he, hi.done_closed, ?_⟩
  · simp only [State.places, hheld]
    simp only [State.held, ← Multiset.coe_add, Multiset.coe_nil]
    abel
  · simp
  · simpa [Phase, hf] using hi.phase
  · simp [hi.dropped_eq]

/-- The answer to one chunk splits the undelivered events. -/
theorem deliverBatch_effect (hi : FlusherInv st s)
    (hf : s.flusher = .delivering closing start) (hlt : start < s.retained.length)
    (hc : closing = true → s.closed = true)
    (hb : closing = false → s.batch = [] ∧ s.retained.length ≤ s.roomRetained + st.batchSize)
    (answer : Option (ℕ → Bool)) :
    FlusherEffect st s (s.deliverBatch st closing start answer) := by
  have hheld : s.held = s.chunk st start ++ s.retained.drop (s.chunkEnd st start) := by
    rw [s.chunk_append_drop st hlt]
    simp [State.held, hf]
  cases answer with
  | none =>
    have heff := FlusherEffect.answer hi _ [] _
      (State.held_afterChunk st s closing start (s.chunk st start) _)
      (by simp [hheld]) (by rw [hheld]) (phase_afterChunk start _ _ hc hb)
    simpa [State.deliverBatch] using heff
  | some refused =>
    refine FlusherEffect.answer hi _ _ _
      (State.held_afterChunk st s closing start ((s.chunk st start).filter fun e => refused e.call) _)
      ?_ ?_ (phase_afterChunk start _ _ hc hb)
    · -- the accepted and the refused events of the chunk are the chunk
      have hpart : (↑((s.chunk st start).filter fun e => !refused e.call) +
          ↑((s.chunk st start).filter fun e => refused e.call) : Multiset (Entry Ev)) =
          ↑(s.chunk st start) := by
        rw [add_comm, Multiset.coe_add, Multiset.coe_eq_coe]
        exact List.filter_append_perm _ _
      rw [hheld, ← Multiset.coe_add, ← Multiset.coe_add, ← hpart, add_assoc]
    · rw [hheld]
      exact List.filter_sublist.append (Sublist.refl _)

/-- One `Record` call of the inner recorder in the loop of `deliver`. -/
theorem recordOne_effect {next : ℕ} {lost : List (Entry Ev)} {e : Entry Ev}
    {ok : Bool} (hi : FlusherInv st s) (hf : s.flusher = .recording closing start next lost)
    (hlt : next < s.chunkEnd st start) (he : s.retained[next]? = some e) :
    FlusherEffect st s (if ok then { s with
          accepted := s.accepted ++ [e]
          flusher := .recording closing start (next + 1) lost }
        else { s with flusher := .recording closing start (next + 1) (lost ++ [e]) }) := by
  obtain ⟨hn, hget⟩ := List.getElem?_eq_some_iff.mp he
  have hdrop : s.retained.drop next = e :: s.retained.drop (next + 1) := by
    rw [List.drop_eq_getElem_cons hn, hget]
  have hheld : s.held = lost ++ e :: s.retained.drop (next + 1) := by simp [State.held, hf, hdrop]
  have hp := hi.phase
  simp only [Phase, hf] at hp
  cases ok with
  | true =>
    refine FlusherEffect.answer hi (.recording closing start (next + 1) lost) [e]
      (lost ++ s.retained.drop (next + 1)) rfl ?_ ?_ ⟨hp.1, hlt, hp.2.2⟩
    · rw [hheld, Multiset.coe_add, Multiset.coe_eq_coe]
      simpa using List.perm_middle.symm
    · rw [hheld]
      exact (Sublist.refl _).append (List.sublist_cons_self _ _)
  | false =>
    have heff := FlusherEffect.answer hi (.recording closing start (next + 1) (lost ++ [e])) []
      (lost ++ [e] ++ s.retained.drop (next + 1)) rfl
      (by simp [hheld]) (by simp [hheld]) ⟨hp.1, hlt, hp.2.2⟩
    simpa using heff

/-- The end of the loop of `deliver`. -/
theorem recorded_effect {next : ℕ} {lost : List (Entry Ev)}
    (hi : FlusherInv st s) (hf : s.flusher = .recording closing start next lost)
    (hge : ¬ next < s.chunkEnd st start) :
    FlusherEffect st s { s with flusher := s.afterChunk st closing start lost } := by
  have hp := hi.phase
  simp only [Phase, hf] at hp
  have hnext : next = s.chunkEnd st start := by omega
  have hheld : s.held = lost ++ s.retained.drop (s.chunkEnd st start) := by
    simp [State.held, hf, hnext]
  have heff := FlusherEffect.answer hi _ [] _
    (State.held_afterChunk st s closing start lost _) (by simp [hheld]) (by rw [hheld])
    (phase_afterChunk start _ _ hp.1 hp.2.2)
  simpa using heff

/-- The rest of `settle`: the room is told the count, and the backoff is set. -/
theorem settleRoom_effect (hi : FlusherInv st s) (hf : s.flusher = .settled closing) (now : ℕ) :
    FlusherEffect st s (s.settleRoom st closing now) := by
  have hheld : s.held = s.retained := by simp [State.held, hf]
  have hp := hi.phase
  obtain ⟨o, ho⟩ := State.setRetained_eq st s s.retained.length
  have hbs := st.batchSize_pos
  simp only [State.settleRoom, ho]
  cases closing with
  | true =>
    have hc : s.closed = true := by simpa [Phase, hf] using hp
    split
    · exact FlusherEffect.quiet hi _ _ _ _ s.retryAt hheld.symm hc
    · exact FlusherEffect.quiet hi _ _ _ _ _ hheld.symm hc
  | false =>
    simp only [Phase, hf] at hp
    have hb : s.batch.length < st.batchSize := by rw [hp.1]; exact hbs
    split
    · exact FlusherEffect.quiet hi _ _ _ _ s.retryAt hheld.symm ⟨rfl, hb⟩
    · exact FlusherEffect.quiet hi _ _ _ _ _ hheld.symm ⟨rfl, hb⟩

theorem flush_effect (hi : FlusherInv st s) (hf : s.flusher = .flushing) (now : ℕ) :
    FlusherEffect st s (s.flush now) := by
  have hheld : s.held = s.retained := by simp [State.held, hf]
  have hp := hi.phase
  simp only [Phase, hf] at hp
  have hlen : (s.retained ++ s.batch).length ≤ s.roomRetained + st.batchSize := by
    rw [List.length_append]
    omega
  unfold State.flush
  refine FlusherEffect.gather hi hheld ?_ ?_
  · split
    · rfl
    · split <;> rfl
  · split
    · next hnil =>
      -- the empty flush of `run` goes back to the loop with nothing retained
      have hr : s.retained = [] ∧ s.batch = [] := by simpa using hnil
      have hroom : s.roomRetained = 0 := by rw [← hp.1, hr.1]; rfl
      exact ⟨by simp [hr, hroom], st.batchSize_pos⟩
    · split <;> exact ⟨rfl, hlen⟩

/-- **What a move of the flusher can do.** -/
theorem flusherStep_effect (hi : FlusherInv st s)
    (h : flusherStep st s s.flusher a = some s') : FlusherEffect st s s' := by
  have hp := hi.phase
  generalize hf : s.flusher = f at h
  unfold flusherStep at h
  split at h
  · -- `run` takes an event
    simp only [Phase, hf] at hp
    refine receive_effect hi (by simp [State.held, hf]) (fun t ht hr hroom hc hb => ?_) h
    simp only [Phase, ht, hr, hroom, hb]
    exact ⟨hp.1, hp.2⟩
  · -- `dequeued`
    simp only [Phase, hf] at hp
    obtain ⟨o, ho⟩ := State.wake_eq st s
    rw [ho] at h
    cases h
    refine FlusherEffect.quiet hi _ _ _ s.attempts s.retryAt ?_ ?_
    · split <;> simp [State.held, hf]
    · split
      · exact hp
      · next hlt => exact ⟨hp.1, Nat.lt_of_not_le hlt⟩
  · -- the ticker
    simp only [Phase, hf] at hp
    split at h
    · cases h
      have := FlusherEffect.quiet (f := .select) hi s.opened s.roomRetained s.attempts s.retryAt
        (by simp [State.held, hf]) hp
      rwa [← hf] at this
    · cases h
      exact FlusherEffect.quiet hi _ s.opened s.roomRetained s.attempts s.retryAt
        (by simp [State.held, hf]) ⟨hp.1, hp.2.le⟩
  · -- `run` sees that `done` is closed
    split at h
    · next hdone =>
      cases h
      exact FlusherEffect.quiet hi _ s.opened s.roomRetained s.attempts s.retryAt
        (by simp [State.held, hf]) (hi.done_closed ▸ hdone)
    · simp at h
  · cases h
    exact flush_effect hi hf _
  · -- `flush` in the backoff
    simp only [Phase, hf] at hp
    obtain ⟨o, ho⟩ := State.setRetained_eq st s s.retained.length
    rw [ho] at h
    cases h
    exact FlusherEffect.quiet hi _ _ _ s.attempts s.retryAt (by simp [State.held, hf])
      ⟨rfl, by rw [hp.1]; exact st.batchSize_pos⟩
  · next closing start answer =>
    have hc : closing = true → s.closed = true := by
      rintro rfl
      simpa [Phase, hf] using hp
    have hb : closing = false →
        s.batch = [] ∧ s.retained.length ≤ s.roomRetained + st.batchSize := by
      rintro rfl
      simpa [Phase, hf] using hp
    split at h
    · next hend =>
      -- the loop of `deliverAll` is over
      cases h
      have hheld : s.held = [] := by simp [State.held, hf, hend]
      have heff := FlusherEffect.answer hi (.settling closing []) [] [] rfl (by simp [hheld])
        (by simp) (by cases closing with
          | true => exact hc rfl
          | false => exact hb rfl)
      simpa using heff
    · next hlt =>
      split at h
      · cases h
        exact deliverBatch_effect hi hf (by omega) hc hb _
      · cases h
        refine FlusherEffect.quiet hi _ s.opened s.roomRetained s.attempts s.retryAt
          (by simp [State.held, hf]) ⟨hc, ?_, hb⟩
        simp only [State.chunkEnd]
        omega
  · next closing start next lost ok =>
    split at h
    · next hlt =>
      obtain ⟨e, he, rfl⟩ := Option.map_eq_some_iff.mp h
      exact recordOne_effect hi hf hlt he
    · simp at h
  · split at h
    · simp at h
    · next hge =>
      cases h
      exact recorded_effect hi hf hge
  · cases h
    exact settle_effect hi hf
  · cases h
    exact settleRoom_effect hi hf _
  · -- `drain` takes an event
    simp only [Phase, hf] at hp
    refine receive_effect hi (by simp [State.held, hf]) (fun t ht hr hroom hc hb => ?_) h
    simpa only [Phase, ht, hc] using hp
  · obtain ⟨o, ho⟩ := State.wake_eq st s
    rw [ho] at h
    cases h
    simp only [Phase, hf] at hp
    exact FlusherEffect.quiet hi _ _ s.roomRetained s.attempts s.retryAt
      (by simp [State.held, hf]) hp
  · -- `drain` finds the queue empty
    simp only [Phase, hf] at hp
    split at h
    · cases h
      refine FlusherEffect.gather hi (by simp [State.held, hf]) ?_ ?_
      · split <;> rfl
      · split <;> exact hp
    · simp at h
  · cases h
    simp only [Phase, hf] at hp
    exact FlusherEffect.quiet hi _ s.opened s.roomRetained s.attempts s.retryAt
      (by simp [State.held, hf]) hp
  · cases h
    exact abandon_effect hi hf
  · obtain ⟨o, ho⟩ := State.setRetained_eq st s 0
    rw [ho] at h
    cases h
    simp only [Phase, hf] at hp
    exact FlusherEffect.quiet hi _ _ _ s.attempts s.retryAt (by simp [State.held, hf]) hp
  · simp at h

/-! ### Moves of a `Record` call -/

/-- The call holds the stop lock. -/
def Pc.locked : Pc → Bool
  | .admitting | .readmitting | .leaving _ => true
  | _ => false

/-- The call is about to send to the queue, if there is room. -/
def Pc.admits : Pc → Bool
  | .admitting | .readmitting => true
  | _ => false

/-- The event of the call is somewhere: the call will return nil or has done so. -/
def Pc.placed : Pc → Bool
  | .leaving .accept | .returned true => true
  | _ => false

/-- What a move of the call `c` at `pc` can do. -/
inductive CallMove (st : Settings) (s : State Ev) (c : ℕ) (ev : Ev) : Pc → State Ev → Prop
  | lock {pc pc' : Pc} : s.writing = false → pc.placed = false → pc'.admits = true →
      CallMove st s c ev pc (s.rlock c pc')
  | tryAdmit : CallMove st s c ev .admitting (s.tryAdmit st ⟨c, ev⟩)
  | admitOrWait : CallMove st s c ev .readmitting (s.admitOrWait st ⟨c, ev⟩)
  | unlock (next : Next) : CallMove st s c ev (.leaving next)
      (State.setPc { s with readers := s.readers.erase c } c (State.afterUnlock next))
  | awake {opened : ℕ} (again : Bool) :
      CallMove st s c ev (.sleeping opened) (s.setPc c (.unwaiting again))
  | stopWaiting (again : Bool) : CallMove st s c ev (.unwaiting again)
      (State.setPc { s with waiting := s.waiting - 1 } c
        (if again then .reentering else .returned false))
  | through : CallMove st s c ev .through
      (State.setPc { s with accepted := s.accepted ++ [⟨c, ev⟩] } c (.returned true))
  | overflowed : CallMove st s c ev .overflowing
      (State.setPc { s with overflowed := s.overflowed ++ [⟨c, ev⟩] } c (.returned true))
  | fail {pc : Pc} : pc.placed = false → CallMove st s c ev pc (s.setPc c (.returned false))

/-- **What a move of a `Record` call can do.** -/
theorem callStep_cases (h : callStep st s c ev pc a = some s') : CallMove st s c ev pc s' := by
  unfold callStep at h
  split at h
  · split at h
    · simp at h
    · cases h; exact .lock (by simp_all) rfl rfl
  · split at h
    · simp at h
    · cases h; exact .lock (by simp_all) rfl rfl
  · cases h; exact .tryAdmit
  · cases h; exact .admitOrWait
  · cases h; exact .unlock _
  · split at h
    · cases h; exact .awake true
    · simp at h
  · split at h
    · cases h; exact .awake true
    · simp at h
  · cases h; exact .awake false
  · cases h; exact .awake false
  · cases h; exact .stopWaiting _
  · cases h; exact .through
  · cases h; exact .fail rfl
  · cases h; exact .overflowed
  · cases h; exact .fail rfl
  · simp at h

/-! ### The invariant -/

/-- What holds in every reachable state. -/
structure Inv (st : Settings) (s : State Ev) : Prop where
  flusher : FlusherInv st s
  /-- What is held is in the order of arrival. -/
  order : s.retained ++ s.batch ++ s.queue <+ s.arrived
  bound : s.queue.length + s.batch.length + s.retained.length ≤ st.capacity + st.batchSize
  excluded : s.writing = true → s.readers = []
  holds : ∀ c k, s.calls c = some k → k.pc.locked = true → c ∈ s.readers
  opened : ∀ c k, s.calls c = some k → k.pc.admits = true → s.closed = false
  unblocked : ∀ c k, s.calls c = some k → k.pc ≠ .blocked
  /-- No call's event is in two places. -/
  nodup : (s.places.map Entry.call).Nodup
  /-- The events that are somewhere are those of the calls that say so. -/
  placed : ∀ e, e ∈ s.places ↔
    ∃ k, s.calls e.call = some k ∧ k.event = e.event ∧ k.pc.placed = true

/-- A call's move keeps the invariant when it keeps the flusher's data, the order, the bound and
the lock, and puts at most its own event somewhere. -/
theorem Inv.call {pc' : Pc} (hi : Inv st s) (hk : s.calls c = some ⟨ev, pc⟩)
    (hcalls : s'.calls = Function.update s.calls c (some ⟨ev, pc'⟩))
    (hflusher : FlusherInv st s') (hclosed : s'.closed = s.closed)
    (horder : s'.retained ++ s'.batch ++ s'.queue <+ s'.arrived)
    (hbound : s'.queue.length + s'.batch.length + s'.retained.length ≤ st.capacity + st.batchSize)
    (hexcl : s'.writing = true → s'.readers = [])
    (hother : ∀ d ≠ c, d ∈ s.readers → d ∈ s'.readers)
    (hlock : pc'.locked = true → c ∈ s'.readers) (hopen : pc'.admits = true → s.closed = false)
    (hblock : pc' ≠ .blocked)
    (hplaces : s'.places = s.places ∧ pc'.placed = pc.placed ∨
      s'.places = ⟨c, ev⟩ ::ₘ s.places ∧ pc.placed = false ∧ pc'.placed = true) :
    Inv st s' := by
  have hcall : ∀ d k, s'.calls d = some k → d = c ∧ k = ⟨ev, pc'⟩ ∨ d ≠ c ∧ s.calls d = some k := by
    intro d k hd
    rw [hcalls] at hd
    rcases eq_or_ne d c with rfl | hne
    · rw [Function.update_self] at hd
      exact .inl ⟨rfl, (Option.some.inj hd).symm⟩
    · rw [Function.update_of_ne hne] at hd
      exact .inr ⟨hne, hd⟩
  refine ⟨hflusher, horder, hbound, hexcl, ?_, ?_, ?_, ?_, ?_⟩
  · intro d k hd hl
    rcases hcall d k hd with ⟨rfl, rfl⟩ | ⟨hne, hd⟩
    · exact hlock hl
    · exact hother d hne (hi.holds d k hd hl)
  · intro d k hd ha
    rw [hclosed]
    rcases hcall d k hd with ⟨rfl, rfl⟩ | ⟨-, hd⟩
    · exact hopen ha
    · exact hi.opened d k hd ha
  · intro d k hd
    rcases hcall d k hd with ⟨rfl, rfl⟩ | ⟨-, hd⟩
    · exact hblock
    · exact hi.unblocked d k hd
  · rcases hplaces with ⟨hp, -⟩ | ⟨hp, hfresh, -⟩
    · rw [hp]; exact hi.nodup
    · rw [hp, Multiset.map_cons, Multiset.nodup_cons]
      refine ⟨fun hmem => ?_, hi.nodup⟩
      obtain ⟨e, he, hec⟩ := Multiset.mem_map.mp hmem
      obtain ⟨k, hke, -, hkp⟩ := (hi.placed e).mp he
      rw [hec, hk] at hke
      cases hke
      simp [hfresh] at hkp
  · intro e
    have hc : (∃ k, s'.calls e.call = some k ∧ k.event = e.event ∧ k.pc.placed = true) ↔
        if e.call = c then ev = e.event ∧ pc'.placed = true
        else ∃ k, s.calls e.call = some k ∧ k.event = e.event ∧ k.pc.placed = true := by
      rw [hcalls]
      split
      · next he => simp [he]
      · next he => simp [Function.update_of_ne he]
    have hold := hi.placed e
    rw [hc]
    obtain ⟨d, ev'⟩ := e
    rcases eq_or_ne d c with rfl | hne
    · simp only [hk, Option.some.injEq, exists_eq_left'] at hold
      rcases hplaces with ⟨hp, hpc⟩ | ⟨hp, hfresh, hpc⟩
      · simp [hp, hold, hpc]
      · simp [hp, hold, hpc, hfresh, eq_comm]
    · rcases hplaces with ⟨hp, -⟩ | ⟨hp, -, -⟩
      · simp [hp, hne, hold]
      · simp [hp, hne, hold]

theorem FlusherInv.accept (hi : FlusherInv st s) (acc : List (Entry Ev)) :
    FlusherInv st { s with accepted := s.accepted ++ acc } :=
  ⟨hi.phase, hi.held_sub,
    fun e he => (hi.settled e he).imp_right (List.mem_append_left _), hi.done_closed,
    hi.dropped_eq⟩

@[simp] theorem State.calls_setPc (hk : s.calls c = some ⟨ev, pc⟩)
    (pc' : Pc) : (s.setPc c pc').calls = Function.update s.calls c (some ⟨ev, pc'⟩) := by
  simp [State.setPc, hk]

/-- A move of a call that leaves every event where it is. -/
theorem Inv.quiet {pc' : Pc} (hi : Inv st s)
    (hk : s.calls c = some ⟨ev, pc⟩) (waiting : ℕ) (hplaced : pc'.placed = pc.placed)
    (hlock : pc'.locked = true → c ∈ s.readers) (hopen : pc'.admits = true → s.closed = false)
    (hblock : pc' ≠ .blocked) :
    Inv st (State.setPc { s with waiting := waiting } c pc') :=
  hi.call hk (State.calls_setPc (s := { s with waiting := waiting }) hk pc')
    ⟨hi.flusher.phase, hi.flusher.held_sub, hi.flusher.settled, hi.flusher.done_closed,
      hi.flusher.dropped_eq⟩
    rfl hi.order hi.bound hi.excluded (fun _ _ h => h) hlock hopen hblock (.inl ⟨rfl, hplaced⟩)

/-- The event of a call that admits it goes to the end of the queue, which has room for it: the
send does not block. -/
theorem Inv.send (hi : Inv st s) (hk : s.calls c = some ⟨ev, pc⟩)
    (hpc : pc.admits = true) (hroom : s.hasRoom st = true) : Inv st (s.send st ⟨c, ev⟩) := by
  have hroom' : s.queue.length + s.roomRetained < st.capacity := by
    simpa [State.hasRoom] using hroom
  have hopen := hi.opened c _ hk hpc
  have hle := hi.flusher.phase.le_room hopen
  have hlocked : pc.locked = true ∧ pc.placed = false := by
    cases pc <;> simp_all [Pc.admits, Pc.locked, Pc.placed]
  rw [State.send, if_pos (by omega)]
  refine hi.call hk (State.calls_setPc (s := { s with
      queue := s.queue ++ [⟨c, ev⟩], arrived := s.arrived ++ [⟨c, ev⟩] }) hk _)
    ⟨hi.flusher.phase, hi.flusher.held_sub, hi.flusher.settled, hi.flusher.done_closed,
      hi.flusher.dropped_eq⟩ rfl ?_ ?_ hi.excluded (fun _ _ h => h)
    (fun _ => hi.holds c _ hk hlocked.1) (fun h => by simp [Pc.admits] at h) (by simp)
    (.inr ⟨?_, hlocked.2, rfl⟩)
  · have happ := hi.order.append (Sublist.refl [(⟨c, ev⟩ : Entry Ev)])
    simpa [State.setPc] using happ
  · simp only [State.setPc, List.length_append, List.length_singleton]
    omega
  · simp only [State.places, State.setPc, State.held, ← Multiset.coe_add, Multiset.coe_singleton]
    rw [← Multiset.singleton_add]
    abel

theorem Inv.callMove (hi : Inv st s) (hk : s.calls c = some ⟨ev, pc⟩) (h : CallMove st s c ev pc s') : Inv st s' := by
  cases h with
  | @lock _ pc' hw hpc hpc' =>
    unfold State.rlock
    have hplaced : (if s.closed then Pc.leaving .through else pc').placed = pc.placed := by
      rw [hpc]
      split
      · rfl
      · cases pc' <;> simp_all [Pc.admits, Pc.placed]
    refine hi.call hk (State.calls_setPc (s := { s with readers := c :: s.readers }) hk _)
      ⟨hi.flusher.phase, hi.flusher.held_sub, hi.flusher.settled, hi.flusher.done_closed,
        hi.flusher.dropped_eq⟩ rfl hi.order hi.bound (fun h => ?_)
      (fun _ _ h => List.mem_cons_of_mem _ h) (fun _ => List.mem_cons_self) ?_ ?_
      (.inl ⟨rfl, hplaced⟩)
    · have : s.writing = true := h
      simp [hw] at this
    · intro ha
      by_contra hc
      rw [if_pos (Bool.not_eq_false _ ▸ hc)] at ha
      simp [Pc.admits] at ha
    · split
      · simp
      · cases pc' <;> simp_all [Pc.admits]
  | tryAdmit =>
    have hheld := hi.holds c _ hk rfl
    unfold State.tryAdmit
    split
    · next hroom => exact hi.send hk rfl hroom
    · split <;> exact hi.quiet hk s.waiting rfl (fun _ => hheld) (by simp [Pc.admits]) (by simp)
  | admitOrWait =>
    have hheld := hi.holds c _ hk rfl
    unfold State.admitOrWait
    split
    · next hroom => exact hi.send hk rfl hroom
    · split
      · exact hi.quiet hk s.waiting rfl (fun _ => hheld) (by simp [Pc.admits]) (by simp)
      · exact hi.quiet hk _ rfl (fun _ => hheld) (by simp [Pc.admits]) (by simp)
  | unlock next =>
    refine hi.call hk (State.calls_setPc (s := { s with readers := s.readers.erase c }) hk _)
      ⟨hi.flusher.phase, hi.flusher.held_sub, hi.flusher.settled, hi.flusher.done_closed,
        hi.flusher.dropped_eq⟩ rfl hi.order hi.bound (fun h => ?_)
      (fun d hne hd => (List.mem_erase_of_ne hne).mpr hd) ?_ ?_ ?_ (.inl ⟨rfl, ?_⟩)
    · show s.readers.erase c = []
      rw [hi.excluded h]
      rfl
    all_goals cases next <;> simp [State.afterUnlock, Pc.locked, Pc.admits, Pc.placed]
  | awake again =>
    exact hi.quiet hk s.waiting rfl (by simp [Pc.locked]) (by simp [Pc.admits]) (by simp)
  | stopWaiting again =>
    cases again <;>
      exact hi.quiet hk _ rfl (by simp [Pc.locked]) (by simp [Pc.admits]) (by simp)
  | through =>
    refine hi.call hk
      (State.calls_setPc (s := { s with accepted := s.accepted ++ [⟨c, ev⟩] }) hk _) ?_ rfl
      hi.order hi.bound hi.excluded (fun _ _ h => h) (by simp [Pc.locked]) (by simp [Pc.admits])
      (by simp) (.inr ⟨?_, rfl, rfl⟩)
    · have hacc := hi.flusher.accept [(⟨c, ev⟩ : Entry Ev)]
      exact ⟨hacc.phase, hacc.held_sub, hacc.settled, hacc.done_closed, hacc.dropped_eq⟩
    · simp only [State.places, State.setPc, State.held, ← Multiset.coe_add, Multiset.coe_singleton]
      rw [← Multiset.singleton_add]
      abel
  | overflowed =>
    refine hi.call hk
      (State.calls_setPc (s := { s with overflowed := s.overflowed ++ [⟨c, ev⟩] }) hk _)
      ⟨hi.flusher.phase, hi.flusher.held_sub, hi.flusher.settled, hi.flusher.done_closed,
        hi.flusher.dropped_eq⟩ rfl
      hi.order hi.bound hi.excluded (fun _ _ h => h) (by simp [Pc.locked]) (by simp [Pc.admits])
      (by simp) (.inr ⟨?_, rfl, rfl⟩)
    simp only [State.places, State.setPc, State.held, ← Multiset.coe_add, Multiset.coe_singleton]
    rw [← Multiset.singleton_add]
    abel
  | fail hpc =>
    exact hi.quiet hk s.waiting (by rw [hpc]; rfl) (by simp [Pc.locked]) (by simp [Pc.admits])
      (by simp)

/-! ### The whole system -/

/-- What any move of the system is. -/
theorem step_cases (h : step st isRead s a = some s') :
    (∃ c ev, s.calls c = none ∧ s' = { s with
      calls := Function.update s.calls c (some ⟨ev, if isRead ev then .entering else .through⟩) }) ∨
    closeStep s a = some s' ∨
    (∃ c ev pc, s.calls c = some ⟨ev, pc⟩ ∧ CallMove st s c ev pc s') ∨
    flusherStep st s s.flusher a = some s' := by
  unfold step at h
  split at h
  · next c ev =>
    split at h
    · simp at h
    · next hnone =>
      cases h
      exact .inl ⟨c, ev, by simpa using hnone, rfl⟩
  · exact .inr (.inl h)
  · exact .inr (.inl h)
  · exact .inr (.inl h)
  · split at h
    · next c _ =>
      obtain ⟨⟨ev, pc⟩, hk, hcall⟩ := Option.bind_eq_some_iff.mp h
      exact .inr (.inr (.inl ⟨c, ev, pc, hk, callStep_cases hcall⟩))
    · exact .inr (.inr (.inr h))

theorem inv_start (st : Settings) : Inv st (State.start : State Ev) where
  flusher := ⟨⟨rfl, st.batchSize_pos⟩, Sublist.refl _, by simp [State.start], rfl, rfl⟩
  order := Sublist.refl _
  bound := by simp [State.start]
  excluded := fun _ => rfl
  holds := by simp [State.start]
  opened := by simp [State.start]
  unblocked := by simp [State.start]
  nodup := by simp [State.start, State.places, State.held]
  placed := by simp [State.start, State.places, State.held]

theorem Inv.flusherMove (hi : Inv st s) (h : FlusherEffect st s s') : Inv st s' where
  flusher := h.inv
  order := by rw [h.arrived]; exact h.sub.trans hi.order
  bound := by
    have hlen := h.sub.length_le
    have hb := hi.bound
    simp only [List.length_append] at hlen
    omega
  excluded := by rw [h.writing, h.readers]; exact hi.excluded
  holds := by rw [h.calls, h.readers]; exact hi.holds
  opened := by rw [h.calls, h.closed]; exact hi.opened
  unblocked := by rw [h.calls]; exact hi.unblocked
  nodup := by rw [h.places]; exact hi.nodup
  placed := by rw [h.places, h.calls]; exact hi.placed

/-- `Close` marks the recorder only when no call holds the stop lock. -/
theorem Inv.closeMove (hi : Inv st s) (h : closeStep s a = some s') :
    Inv st s' := by
  unfold closeStep at h
  split at h
  · split at h
    · simp at h
    · next hfree =>
      cases h
      have hr : s.readers = [] := by
        by_contra hne
        exact hfree (.inr (.inr hne))
      exact ⟨⟨hi.flusher.phase, hi.flusher.held_sub, hi.flusher.settled, hi.flusher.done_closed,
        hi.flusher.dropped_eq⟩, hi.order, hi.bound, fun _ => hr, hi.holds, hi.opened,
        hi.unblocked, hi.nodup, hi.placed⟩
  · split at h
    · next hw =>
      cases h
      have hr := hi.excluded hw.1
      refine ⟨⟨?_, hi.flusher.held_sub, hi.flusher.settled, rfl, hi.flusher.dropped_eq⟩, hi.order,
        hi.bound, hi.excluded, hi.holds, fun c k hk ha => ?_, hi.unblocked, hi.nodup, hi.placed⟩
      · exact hi.flusher.phase.mark
      · have hmem := hi.holds c k hk (by
          revert ha
          cases k.pc <;> simp [Pc.admits, Pc.locked])
        simp [hr] at hmem
    · simp at h
  · split at h
    · cases h
      exact ⟨⟨hi.flusher.phase, hi.flusher.held_sub, hi.flusher.settled, hi.flusher.done_closed,
        hi.flusher.dropped_eq⟩, hi.order, hi.bound, fun hw => by simp at hw, hi.holds, hi.opened,
        hi.unblocked, hi.nodup, hi.placed⟩
    · simp at h
  · simp at h

/-- A new call has placed nothing. -/
theorem Inv.record (hi : Inv st s) (hc : s.calls c = none) (hpc : pc = .entering ∨ pc = .through) :
    Inv st { s with calls := Function.update s.calls c (some ⟨ev, pc⟩) } := by
  have hcall : ∀ d k, Function.update s.calls c (some ⟨ev, pc⟩) d = some k →
      k.pc = pc ∨ s.calls d = some k := by
    intro d k hd
    rcases eq_or_ne d c with rfl | hne
    · rw [Function.update_self] at hd
      exact .inl (congrArg Call.pc (Option.some.inj hd)).symm
    · rw [Function.update_of_ne hne] at hd
      exact .inr hd
  refine ⟨⟨hi.flusher.phase, hi.flusher.held_sub, hi.flusher.settled, hi.flusher.done_closed,
    hi.flusher.dropped_eq⟩, hi.order, hi.bound, hi.excluded, fun d k hd hl => ?_,
    fun d k hd ha => ?_, fun d k hd => ?_, hi.nodup, fun e => ?_⟩
  · rcases hcall d k hd with hk | hk
    · rw [hk] at hl
      rcases hpc with rfl | rfl <;> simp [Pc.locked] at hl
    · exact hi.holds d k hk hl
  · rcases hcall d k hd with hk | hk
    · rw [hk] at ha
      rcases hpc with rfl | rfl <;> simp [Pc.admits] at ha
    · exact hi.opened d k hk ha
  · rcases hcall d k hd with hk | hk
    · rw [hk]
      rcases hpc with rfl | rfl <;> simp
    · exact hi.unblocked d k hk
  · have hold := hi.placed e
    rcases eq_or_ne e.call c with he | hne
    · have hnot : e ∉ s.places := by simp [hold, he, hc]
      have hpl : pc.placed = false := by rcases hpc with rfl | rfl <;> rfl
      simp only [he, Function.update_self, Option.some.injEq, exists_eq_left', hpl]
      exact ⟨fun h => absurd h hnot, fun h => absurd h.2 Bool.false_ne_true⟩
    · simp only [Function.update_of_ne hne]
      exact hold

/-- Every move keeps the invariant. -/
theorem Inv.step (hi : Inv st s) (h : step st isRead s a = some s') :
    Inv st s' := by
  rcases step_cases h with ⟨c, ev, hc, rfl⟩ | hclose | ⟨c, ev, pc, hk, hmove⟩ | hfl
  · refine hi.record hc ?_
    split <;> simp
  · exact hi.closeMove hclose
  · exact hi.callMove hk hmove
  · exact hi.flusherMove (flusherStep_effect hi.flusher hfl)

/-- **The invariant holds in every reachable state.** -/
theorem inv_of_reachable (h : Reachable st isRead s) : Inv st s :=
  Lib.Reach.invariant (inv_start st) (fun hi _ hs => hi.step hs) h

end Tack.Buffered

import Tack.Audit.BufferedSafety

/-!
# No event is lost silently

The promises of the buffered recorder, read off the invariant of `BufferedSafety`: where the
event of a call that returned nil is, how it leaves the recorder, the order of the held events,
the bound on their number, and that a send to the queue never blocks.

## Main definitions

* `Buffered.occurrences` — how often the event of a call is in a list.
* `Buffered.Flusher.attempting` — the flusher is between the start of a delivery attempt and its
  `settle`.

## Main results

* `Buffered.leaves_only_accepted_or_abandoned` — how a held event leaves.
* `Buffered.returned_event_kept` — the promises together.
-/

namespace Tack.Buffered

open List

variable {Ev : Type} {st : Settings} {isRead : Ev → Bool} {s s' : State Ev}

/-- How often the event of the call `c` is in `l`. -/
def occurrences (c : ℕ) (l : List (Entry Ev)) : ℕ := l.countP fun e => e.call == c

/-- The flusher is in a delivery attempt that it has not settled. -/
def Flusher.attempting : Flusher Ev → Bool
  | .delivering _ _ | .recording _ _ _ _ | .settling _ _ => true
  | _ => false

/-- Outside a delivery attempt every retained event is undelivered. -/
theorem State.held_eq_retained (h : s.flusher.attempting = false) : s.held = s.retained := by
  unfold State.held
  split <;> simp_all [Flusher.attempting]

/-! ### How an event leaves -/

/-- At the `select` of `deliverBeforeDeadline` the flusher retries or abandons. -/
theorem abandon_of_pausing {a : Action Ev} (hf : s.flusher = .pausing)
    (h : flusherStep st s s.flusher a = some s') : s'.abandoned = s.abandoned ∨ a = .abandon := by
  rw [hf] at h
  cases a <;> simp [flusherStep] at h
  case retry => exact .inl (by rw [← h])
  case abandon => exact .inr rfl

theorem closeStep_keeps {a : Action Ev} (h : closeStep s a = some s') :
    s'.retained = s.retained ∧ s'.batch = s.batch ∧ s'.queue = s.queue := by
  unfold closeStep at h
  split at h
  · obtain ⟨-, ⟨⟩⟩ := Option.ite_none_left_eq_some.mp h
    exact ⟨rfl, rfl, rfl⟩
  · obtain ⟨-, ⟨⟩⟩ := Option.ite_none_right_eq_some.mp h
    exact ⟨rfl, rfl, rfl⟩
  · obtain ⟨-, ⟨⟩⟩ := Option.ite_none_right_eq_some.mp h
    exact ⟨rfl, rfl, rfl⟩
  · simp at h

/-- A call's move takes no event out of the queue and leaves batch and retained events alone. -/
theorem CallMove.keeps {c : ℕ} {ev : Ev} {pc : Pc} (h : CallMove st s c ev pc s') :
    s'.retained = s.retained ∧ s'.batch = s.batch ∧ s.queue ⊆ s'.queue := by
  have hsend : ∀ e : Entry Ev, (s.send st e).retained = s.retained ∧
      (s.send st e).batch = s.batch ∧ s.queue ⊆ (s.send st e).queue := by
    intro e
    unfold State.send
    split <;> simp [State.setPc]
  cases h with
  | tryAdmit =>
    unfold State.tryAdmit
    split
    · exact hsend _
    · exact ⟨rfl, rfl, Subset.refl _⟩
  | admitOrWait =>
    unfold State.admitOrWait
    split
    · exact hsend _
    · split <;> exact ⟨rfl, rfl, Subset.refl _⟩
  | _ => exact ⟨rfl, rfl, Subset.refl _⟩

/-- Two parts of `places` have no event in common. -/
theorem Inv.not_mem_of_held (hi : Inv st s) {e : Entry Ev}
    (he : e ∈ s.held ∨ e ∈ s.batch ∨ e ∈ s.queue) : e ∉ s.overflowed ∧ e ∉ s.abandoned := by
  have hnd : s.places.Nodup := hi.nodup.of_map
  have hsplit : s.places = (↑s.overflowed + ↑s.abandoned) +
      (↑s.held + ↑s.batch + ↑s.queue) + ↑s.accepted := by
    unfold State.places
    abel
  rw [hsplit] at hnd
  have hdis := (Multiset.nodup_add.mp (Multiset.nodup_add.mp hnd).1).2.2
  have hin : e ∈ (↑s.held + ↑s.batch + ↑s.queue : Multiset (Entry Ev)) := by
    simpa [or_assoc] using he
  exact ⟨fun h => Multiset.disjoint_left.mp hdis (by simp [h]) hin,
    fun h => Multiset.disjoint_left.mp hdis (by simp [h]) hin⟩

/-- **An event leaves queue, batch and retained events only by being accepted by the inner
recorder, or in `abandon`, after `Close`, which gives up and counts exactly the retained events.** -/
theorem leaves_only_accepted_or_abandoned {a : Action Ev} {e : Entry Ev} (hi : Inv st s)
    (h : step st isRead s a = some s') (he : e ∈ s.retained ++ s.batch ++ s.queue)
    (he' : e ∉ s'.retained ++ s'.batch ++ s'.queue) :
    e ∈ s'.accepted ∨ a = .abandon ∧ s.closed = true ∧ e ∈ s.retained ∧
      s'.abandoned = s.abandoned ++ s.retained ∧ s'.dropped = s.dropped + s.retained.length := by
  simp only [List.mem_append, not_or] at he he'
  rcases step_cases h with ⟨c, ev, hc, rfl⟩ | hclose | ⟨c, ev, pc, hk, hmove⟩ | hfl
  · tauto
  · obtain ⟨hr, hb, hq⟩ := closeStep_keeps hclose
    rw [hr, hb, hq] at he'
    tauto
  · obtain ⟨hr, hb, hq⟩ := hmove.keeps
    rw [hr, hb] at he'
    rcases he with (h | h) | h
    · exact absurd h he'.1.1
    · exact absurd h he'.1.2
    · exact absurd (hq h) he'.2
  · have heff := flusherStep_effect hi.flusher hfl
    have hcase : e ∈ s.accepted ∨ e ∈ s.held ∨ e ∈ s.batch ∨ e ∈ s.queue := by
      rcases he with (h | h) | h
      · exact (hi.flusher.settled e h).elim (fun h => .inr (.inl h)) .inl
      · exact .inr (.inr (.inl h))
      · exact .inr (.inr (.inr h))
    rcases hcase with hacc | hin
    · exact .inl (heff.accepted.subset hacc)
    obtain ⟨hno, hna⟩ := hi.not_mem_of_held hin
    have hmem : e ∈ s'.places := by
      rw [heff.places]
      simp only [State.places, Multiset.mem_add, Multiset.mem_coe]
      tauto
    simp only [State.places, Multiset.mem_add, Multiset.mem_coe, heff.overflowed] at hmem
    rcases hmem with ((((h | h) | h) | h) | h) | h
    · exact .inl h
    · exact absurd h hno
    · rcases heff.gaveUp with hsame | ⟨hf, hab, hdrop⟩
      · exact absurd (hsame ▸ h) hna
      · have hret : e ∈ s.retained := by
          rw [hab, List.mem_append] at h
          exact h.resolve_left hna
        have hclosed : s.closed = true := by simpa [Phase, hf] using hi.flusher.phase
        rcases abandon_of_pausing hf hfl with hsame | ha
        · exact absurd (hsame ▸ h) hna
        · exact .inr ⟨ha, hclosed, hret, hab, hdrop⟩
    · exact absurd (heff.inv.held_sub.subset h) he'.1.1
    · exact absurd h he'.1.2
    · exact absurd h he'.2

/-! ### The promises -/

theorem occurrences_eq_count (c : ℕ) (l : List (Entry Ev)) :
    occurrences c l = Multiset.count c (Multiset.map Entry.call (l : Multiset (Entry Ev))) := by
  rw [Multiset.map_coe, Multiset.coe_count, List.count, List.countP_map]
  rfl

/-- The event of a call that returned nil is in exactly one place. -/
theorem Inv.occurrences_eq_one (hi : Inv st s) {c : ℕ} {ev : Ev} (hk : s.calls c = some ⟨ev, .returned true⟩) :
    occurrences c s.accepted + occurrences c s.overflowed + occurrences c s.queue +
      occurrences c s.batch + occurrences c s.held + occurrences c s.abandoned = 1 := by
  have hmem : c ∈ s.places.map Entry.call :=
    Multiset.mem_map.mpr ⟨⟨c, ev⟩, (hi.placed _).mpr ⟨_, hk, rfl, rfl⟩, rfl⟩
  have hone := Multiset.count_eq_one_of_mem hi.nodup hmem
  simp only [State.places, Multiset.map_add, Multiset.count_add, ← occurrences_eq_count] at hone
  omega

/-- **The buffered recorder loses nothing silently and stays bounded.**  In every reachable state:
the event of a call that returned nil is in exactly one of the inner recorder, the overflow
outbox, the queue, the batch and the undelivered retained events, or was counted by `abandon`;
`b.retained` is the list of undelivered events outside a delivery attempt, and during one it holds
besides them only events the inner recorder accepted; a held event leaves only by acceptance or in
`abandon`; the held events are in order of arrival and at most `Capacity + BatchSize`; and no send
to the queue blocks. -/
theorem returned_event_kept (cfg : BufferedConfig) (overflow batcher : Bool) (isRead : Ev → Bool)
    (s : State Ev) (hs : Reachable (cfg.settings overflow batcher) isRead s) :
    (∀ c ev, s.calls c = some ⟨ev, .returned true⟩ →
      occurrences c s.accepted + occurrences c s.overflowed + occurrences c s.queue +
        occurrences c s.batch + occurrences c s.held + occurrences c s.abandoned = 1) ∧
    (s.flusher.attempting = false → s.held = s.retained) ∧
    (s.held <+ s.retained ∧ ∀ e ∈ s.retained, e ∈ s.held ∨ e ∈ s.accepted) ∧
    (∀ a s' e, step (cfg.settings overflow batcher) isRead s a = some s' →
      e ∈ s.retained ++ s.batch ++ s.queue → e ∉ s'.retained ++ s'.batch ++ s'.queue →
      e ∈ s'.accepted ∨ a = .abandon ∧ s.closed = true ∧ e ∈ s.retained ∧
        s'.abandoned = s.abandoned ++ s.retained ∧
        s'.dropped = s.dropped + s.retained.length) ∧
    s.dropped = s.abandoned.length ∧
    s.retained ++ s.batch ++ s.queue <+ s.arrived ∧
    s.queue.length + s.batch.length + s.retained.length ≤
      (cfg.settings overflow batcher).capacity + (cfg.settings overflow batcher).batchSize ∧
    ∀ c k, s.calls c = some k → k.pc ≠ .blocked := by
  have hi := inv_of_reachable hs
  exact ⟨fun c ev hk => hi.occurrences_eq_one hk, State.held_eq_retained,
    ⟨hi.flusher.held_sub, hi.flusher.settled⟩,
    fun a s' e h he he' => leaves_only_accepted_or_abandoned hi h he he',
    hi.flusher.dropped_eq, hi.order, hi.bound, hi.unblocked⟩

/-! ### A delivery attempt in progress -/

/-- A recorder that delivers one event at a time through a `BatchRecorder`. -/
def oneByOne : Settings := BufferedConfig.settings ⟨4, 1⟩ true true

/-- The moves of a `Record` call that finds room. -/
def recordMoves (c : ℕ) (ev : Ev) : List (Action Ev) :=
  [.record c ev, .rlock c, .tryAdmit c, .runlock c]

/-- Two events are recorded.  The delivery of the first fails; it is delivered again together with
the second, and the inner recorder has accepted it while the second is still to be sent. -/
def attemptInProgress : List (Action Unit) :=
  recordMoves 0 () ++ recordMoves 1 () ++
    [.receive, .dequeued, .flush 0, .deliver none, .settle, .settleRoom 0,
      .receive, .dequeued, .flush 1000, .deliver (some fun _ => false)]

theorem attemptInProgress_reached :
    (Lib.run (step oneByOne fun _ => true) .start attemptInProgress).any (fun s =>
      (s.calls 0).any (fun k => k.pc == .returned true) &&
        (occurrences 0 s.accepted == 1 && occurrences 0 s.retained == 1)) = true := by
  decide

/-- During an attempt an event is in two of the places: the inner recorder has accepted it, and
`b.retained` still holds it until `settle`. -/
theorem accepted_event_still_retained :
    ∃ s : State Unit, Reachable oneByOne (fun _ => true) s ∧
      s.calls 0 = some ⟨(), .returned true⟩ ∧
      occurrences 0 s.accepted = 1 ∧ occurrences 0 s.retained = 1 := by
  obtain ⟨s, hs, hp⟩ := Lib.exists_reach_of_run _ _ attemptInProgress _ attemptInProgress_reached
  simp only [Bool.and_eq_true, beq_iff_eq, Option.any_eq_true] at hp
  obtain ⟨⟨⟨ev, pc⟩, hk, rfl⟩, hacc, hret⟩ := hp
  exact ⟨s, hs, hk, hacc, hret⟩

/-- In that state the event is nowhere but with the inner recorder and in `b.retained`. -/
theorem returned_event_kept_in_attempt :
    ∃ s : State Unit, Reachable oneByOne (fun _ => true) s ∧
      s.calls 0 = some ⟨(), .returned true⟩ ∧ occurrences 0 s.accepted = 1 ∧
      occurrences 0 s.overflowed + occurrences 0 s.queue + occurrences 0 s.batch +
        occurrences 0 s.held + occurrences 0 s.abandoned = 0 := by
  obtain ⟨s, hs, hp⟩ := Lib.exists_reach_of_run _ _ attemptInProgress _ attemptInProgress_reached
  simp only [Bool.and_eq_true, beq_iff_eq, Option.any_eq_true] at hp
  obtain ⟨⟨⟨ev, pc⟩, hk, rfl⟩, hacc, -⟩ := hp
  have hone := (returned_event_kept ⟨4, 1⟩ true true (fun _ => true) s hs).1 0 () hk
  exact ⟨s, hs, hk, hacc, by omega⟩

end Tack.Buffered

import Mathlib
import Tack.Lib.Run

/-!
# The buffered recorder

The state machine of `BufferedRecorder` (`buffered_recorder.go`, `buffered_room.go`,
`buffered_wait.go`, `buffered_overflow.go`, `buffered_flusher.go`, `buffered_shutdown.go`):
any number of `Record` calls, the one flusher goroutine and `Close`.  One move is one
critical section: what runs under `bufferRoom.mu` is one move, a receive from the queue
is one move, and so is every call of the inner recorder or of the overflow outbox.

The labels carry what the program does not decide: which party moves, the answer of the
inner recorder, the clock, and why a waiting call wakes up.

## Main definitions

* `Buffered.Settings` — `NewBufferedRecorder`'s configuration with its defaults applied.
* `Buffered.State`, `Buffered.Pc`, `Buffered.Flusher` — the recorder's fields, and where
  each `Record` call and the flusher stand.
* `Buffered.step` — one move.
-/

namespace Tack.Buffered

/-! ### Configuration -/

/-- `defaultBufferedCapacity`. -/
def defaultBufferedCapacity : ℕ := 8192

/-- `defaultBufferedBatchSize`. -/
def defaultBufferedBatchSize : ℕ := 256

/-- The fields of `BufferedConfig` the recorder's state depends on, as a caller may set them. -/
structure BufferedConfig where
  capacity : ℤ
  batchSize : ℤ
  deriving DecidableEq, Repr

/-- The parameters of a started recorder. -/
structure Settings where
  /-- The capacity of the queue channel. -/
  capacity : ℕ
  batchSize : ℕ
  /-- An overflow outbox is configured. -/
  overflow : Bool
  /-- The inner recorder is a `BatchRecorder`. -/
  batcher : Bool
  capacity_pos : 0 < capacity
  batchSize_pos : 0 < batchSize

/-- A size that is not positive is replaced by the default. -/
def sizeOrDefault (size : ℤ) (dflt : ℕ) : ℕ := if size ≤ 0 then dflt else size.toNat

theorem sizeOrDefault_pos (size : ℤ) {dflt : ℕ} (h : 0 < dflt) : 0 < sizeOrDefault size dflt := by
  unfold sizeOrDefault
  split <;> omega

/-- The settings `NewBufferedRecorder` starts the flusher with. -/
def BufferedConfig.settings (cfg : BufferedConfig) (overflow batcher : Bool) : Settings where
  capacity := sizeOrDefault cfg.capacity defaultBufferedCapacity
  batchSize := sizeOrDefault cfg.batchSize defaultBufferedBatchSize
  overflow := overflow
  batcher := batcher
  capacity_pos := sizeOrDefault_pos _ (by decide)
  batchSize_pos := sizeOrDefault_pos _ (by decide)

/-- `retryBackoffMin`, in milliseconds. -/
def retryBackoffMin : ℕ := 500

/-- `retryBackoffMax`, in milliseconds. -/
def retryBackoffMax : ℕ := 30000

/-- `retryBackoffMaxDoublings`. -/
def retryBackoffMaxDoublings : ℕ := 16

/-- The wait after the given count of failed attempts: it doubles from `retryBackoffMin` and
stops at `retryBackoffMax`. -/
def retryBackoff (attempts : ℕ) : ℕ :=
  min (retryBackoffMin * 2 ^ min (attempts - 1) retryBackoffMaxDoublings) retryBackoffMax

/-! ### State -/

/-- One event on its way through the recorder, with the `Record` call that brought it.  The call
tells two recordings of equal events apart. -/
structure Entry (Ev : Type) where
  call : ℕ
  event : Ev
  deriving DecidableEq, Repr

/-- What a `Record` call does after it releases the stop lock. -/
inductive Next
  | accept | overflow | wait | sleep (opened : ℕ) | refuse | through
  deriving DecidableEq, Repr

/-- Where a `Record` call stands. -/
inductive Pc
  /-- At `b.stopping.RLock()` of `Record`. -/
  | entering
  /-- In `Record`, with the stop lock held and `b.closed` read as false. -/
  | admitting
  /-- At `b.stopping.RLock()` of `waitForRoom`. -/
  | reentering
  /-- In `waitForRoom`, with the stop lock held and `b.closed` read as false. -/
  | readmitting
  /-- At `b.stopping.RUnlock()`. -/
  | leaving (next : Next)
  /-- At the `select` of `waitForRoom`, on the channel of that generation. -/
  | sleeping (opened : ℕ)
  /-- At `stopWaiting`; the loop then goes on or the event is refused. -/
  | unwaiting (again : Bool)
  /-- In `recordThrough`. -/
  | through
  /-- In `overflowed`. -/
  | overflowing
  /-- Stuck in a send on a full channel, with `bufferRoom.mu` held. -/
  | blocked
  /-- `Record` has returned; `true` is a nil error. -/
  | returned (ok : Bool)
  deriving DecidableEq, Repr

/-- A `Record` call. -/
structure Call (Ev : Type) where
  event : Ev
  pc : Pc

/-- Where the flusher goroutine stands; `closing` tells the shutdown path from the run loop. -/
inductive Flusher (Ev : Type)
  /-- At the `select` of `run`. -/
  | select
  /-- At `b.room.dequeued()`. -/
  | waking (closing : Bool)
  /-- At the start of `flush`. -/
  | flushing
  /-- In `flush`, at `b.room.setRetained` of the backoff branch. -/
  | holding
  /-- In `deliverAll`, at the head of its loop with this `start`. -/
  | delivering (closing : Bool) (start : ℕ)
  /-- In the loop of `deliver` over a chunk of single records: the index of the next event and
  the events lost so far. -/
  | recording (closing : Bool) (start next : ℕ) (lost : List (Entry Ev))
  /-- At the start of `settle`. -/
  | settling (closing : Bool) (failed : List (Entry Ev))
  /-- In `settle`, at `b.room.setRetained`. -/
  | settled (closing : Bool)
  /-- At the `select` of `drain`. -/
  | draining
  /-- At the `select` of `deliverBeforeDeadline`. -/
  | pausing
  /-- In `abandon`, at `b.room.setRetained(0)`. -/
  | abandoning
  /-- `run` has returned. -/
  | stopped

/-- The recorder, its calls and the history of what became of the events. -/
structure State (Ev : Type) where
  queue : List (Entry Ev)
  /-- `bufferRoom.retained`. -/
  roomRetained : ℕ
  waiting : ℕ
  /-- The generation of the channel `bufferRoom.opened`; the earlier ones are closed. -/
  opened : ℕ
  retained : List (Entry Ev)
  /-- The flusher's `batch`, together with the event it has just received. -/
  batch : List (Entry Ev)
  attempts : ℕ
  retryAt : ℕ
  flusher : Flusher Ev
  /-- The calls that hold the stop lock for reading. -/
  readers : List ℕ
  /-- `Close` holds the stop lock. -/
  writing : Bool
  closed : Bool
  done : Bool
  calls : ℕ → Option (Call Ev)
  /-- Every event ever sent to the queue, in order of arrival. -/
  arrived : List (Entry Ev)
  /-- Every event the inner recorder accepted. -/
  accepted : List (Entry Ev)
  /-- Every event appended to the overflow outbox. -/
  overflowed : List (Entry Ev)
  /-- The events `abandon` gave up. -/
  abandoned : List (Entry Ev)
  /-- The count of `buffer_flush` drops. -/
  dropped : ℕ

/-! ### The parts of a move -/

namespace State

variable {Ev : Type}

/-- The recorder `NewBufferedRecorder` returns. -/
def start : State Ev where
  queue := []
  roomRetained := 0
  waiting := 0
  opened := 0
  retained := []
  batch := []
  attempts := 0
  retryAt := 0
  flusher := .select
  readers := []
  writing := false
  closed := false
  done := false
  calls := fun _ => none
  arrived := []
  accepted := []
  overflowed := []
  abandoned := []
  dropped := 0

/-- One more event fits. -/
def hasRoom (st : Settings) (s : State Ev) : Bool :=
  s.queue.length + s.roomRetained < st.capacity

/-- Release every waiter when the queue has room. -/
def wake (st : Settings) (s : State Ev) : State Ev :=
  if s.waiting = 0 ∨ ¬ s.hasRoom st then s else { s with opened := s.opened + 1 }

/-- Replace the count of events the flusher retains. -/
def setRetained (st : Settings) (s : State Ev) (count : ℕ) : State Ev :=
  { s with roomRetained := count }.wake st

/-- The call `c` goes on at `pc`. -/
def setPc (s : State Ev) (c : ℕ) (pc : Pc) : State Ev :=
  { s with calls := Function.update s.calls c ((s.calls c).map fun k => { k with pc := pc }) }

/-- `c` takes the stop lock and reads `b.closed`. -/
def rlock (s : State Ev) (c : ℕ) (pc : Pc) : State Ev :=
  { s with readers := c :: s.readers }.setPc c (if s.closed then .leaving .through else pc)

/-- The send `r.queue <- ev`: it blocks when the channel is full. -/
def send (st : Settings) (s : State Ev) (e : Entry Ev) : State Ev :=
  if s.queue.length < st.capacity then
    { s with queue := s.queue ++ [e], arrived := s.arrived ++ [e] }.setPc e.call (.leaving .accept)
  else s.setPc e.call .blocked

/-- `tryAdmit`, and the branch `Record` takes on its answer. -/
def tryAdmit (st : Settings) (s : State Ev) (e : Entry Ev) : State Ev :=
  if s.hasRoom st then s.send st e
  else s.setPc e.call (.leaving (if st.overflow then .overflow else .wait))

/-- `admitOrWait`, and the branch `waitForRoom` takes on its answer. -/
def admitOrWait (st : Settings) (s : State Ev) (e : Entry Ev) : State Ev :=
  if s.hasRoom st then s.send st e
  else if 0 < s.roomRetained then s.setPc e.call (.leaving .refuse)
  else { s with waiting := s.waiting + 1 }.setPc e.call (.leaving (.sleep s.opened))

/-- Where a call goes on once it has released the stop lock. -/
def afterUnlock : Next → Pc
  | .accept => .returned true
  | .overflow => .overflowing
  | .wait => .reentering
  | .sleep opened => .sleeping opened
  | .refuse => .returned false
  | .through => .through

/-- The end of the chunk of `deliverAll` that begins at `start`. -/
def chunkEnd (st : Settings) (s : State Ev) (start : ℕ) : ℕ :=
  min (start + st.batchSize) s.retained.length

/-- The chunk of `deliverAll` that begins at `start`. -/
def chunk (st : Settings) (s : State Ev) (start : ℕ) : List (Entry Ev) :=
  (s.retained.take (s.chunkEnd st start)).drop start

/-- The loop of `deliverAll` after a chunk with these undelivered events. -/
def afterChunk (st : Settings) (s : State Ev) (closing : Bool) (start : ℕ)
    (lost : List (Entry Ev)) : Flusher Ev :=
  if lost.isEmpty then .delivering closing (start + st.batchSize)
  else .settling closing (lost ++ s.retained.drop (s.chunkEnd st start))

/-- `deliver` through `RecordBatch`: an error loses the whole chunk, otherwise exactly the refused
events are undelivered, in their order. -/
def deliverBatch (st : Settings) (s : State Ev) (closing : Bool) (start : ℕ) :
    Option (ℕ → Bool) → State Ev
  | none => { s with flusher := s.afterChunk st closing start (s.chunk st start) }
  | some refused =>
    { s with
      accepted := s.accepted ++ (s.chunk st start).filter fun e => !refused e.call
      flusher := s.afterChunk st closing start
        ((s.chunk st start).filter fun e => refused e.call) }

/-- The rest of `settle` after `b.retained = failed`, read at `now`. -/
def settleRoom (st : Settings) (s : State Ev) (closing : Bool) (now : ℕ) : State Ev :=
  let s' := s.setRetained st s.retained.length
  if s.retained.isEmpty then
    { s' with attempts := 0, flusher := if closing then .stopped else .select }
  else
    { s' with
      attempts := s.attempts + 1
      retryAt := now + retryBackoff (s.attempts + 1)
      flusher := if closing then .pausing else .select }

/-- `flush` up to its first blocking operation, read at `now`. -/
def flush (s : State Ev) (now : ℕ) : State Ev :=
  { s with
    retained := s.retained ++ s.batch
    batch := []
    flusher :=
      if (s.retained ++ s.batch).isEmpty then .select
      else if 0 < s.attempts ∧ now < s.retryAt then .holding
      else .delivering false 0 }

end State

/-! ### Moves -/

/-- Why the `select` of `waitForRoom` ends. -/
inductive Cause
  | opened | done | deadline | cancelled
  deriving DecidableEq, Repr

/-- A move of a `Record` call, of `Close` or of the flusher, with the answers it meets. -/
inductive Action (Ev : Type)
  | record (c : ℕ) (ev : Ev)
  | rlock (c : ℕ)
  | tryAdmit (c : ℕ)
  | admitOrWait (c : ℕ)
  | runlock (c : ℕ)
  | awake (c : ℕ) (cause : Cause)
  | stopWaiting (c : ℕ)
  | recordThrough (c : ℕ) (ok : Bool)
  | overflowed (c : ℕ) (ok : Bool)
  | closeLock
  | closeMark
  | closeUnlock
  | receive
  | dequeued
  | tick
  | stop
  | flush (now : ℕ)
  | hold
  | deliver (answer : Option (ℕ → Bool))
  | recordOne (ok : Bool)
  | recorded
  | settle
  | settleRoom (now : ℕ)
  | drainEmpty
  | retry
  | abandon
  | abandonRoom

section Step

variable {Ev : Type} (st : Settings) (isRead : Ev → Bool)

/-- A move of the call `c`, which stands at `pc` with event `ev`. -/
def callStep (s : State Ev) (c : ℕ) (ev : Ev) : Pc → Action Ev → Option (State Ev)
  | .entering, .rlock _ => if s.writing then none else some (s.rlock c .admitting)
  | .reentering, .rlock _ => if s.writing then none else some (s.rlock c .readmitting)
  | .admitting, .tryAdmit _ => some (s.tryAdmit st ⟨c, ev⟩)
  | .readmitting, .admitOrWait _ => some (s.admitOrWait st ⟨c, ev⟩)
  | .leaving next, .runlock _ =>
    some (State.setPc { s with readers := s.readers.erase c } c (State.afterUnlock next))
  | .sleeping opened, .awake _ .opened =>
    if opened < s.opened then some (s.setPc c (.unwaiting true)) else none
  | .sleeping _, .awake _ .done => if s.done then some (s.setPc c (.unwaiting true)) else none
  | .sleeping _, .awake _ .deadline => some (s.setPc c (.unwaiting false))
  | .sleeping _, .awake _ .cancelled => some (s.setPc c (.unwaiting false))
  | .unwaiting again, .stopWaiting _ =>
    some (State.setPc { s with waiting := s.waiting - 1 } c
      (if again then .reentering else .returned false))
  | .through, .recordThrough _ true =>
    some (State.setPc { s with accepted := s.accepted ++ [⟨c, ev⟩] } c (.returned true))
  | .through, .recordThrough _ false => some (s.setPc c (.returned false))
  | .overflowing, .overflowed _ true =>
    some (State.setPc { s with overflowed := s.overflowed ++ [⟨c, ev⟩] } c (.returned true))
  | .overflowing, .overflowed _ false => some (s.setPc c (.returned false))
  | _, _ => none

/-- A move of the first `Close` call, up to the wait for the flusher. -/
def closeStep (s : State Ev) : Action Ev → Option (State Ev)
  | .closeLock =>
    if s.closed ∨ s.writing ∨ s.readers ≠ [] then none else some { s with writing := true }
  | .closeMark =>
    if s.writing ∧ ¬ s.closed then some { s with closed := true, done := true } else none
  | .closeUnlock => if s.writing ∧ s.closed then some { s with writing := false } else none
  | _ => none

/-- The flusher takes the head of the queue and stands before `b.room.dequeued()`. -/
def receive (s : State Ev) (closing : Bool) : Option (State Ev) :=
  match s.queue with
  | [] => none
  | e :: rest => some { s with queue := rest, batch := s.batch ++ [e], flusher := .waking closing }

/-- A move of the flusher. -/
def flusherStep (s : State Ev) : Flusher Ev → Action Ev → Option (State Ev)
  | .select, .receive => receive s false
  | .waking false, .dequeued =>
    some { s.wake st with
      flusher := if st.batchSize ≤ s.batch.length then .flushing else .select }
  | .select, .tick =>
    if s.batch.isEmpty ∧ s.retained.isEmpty then some s else some { s with flusher := .flushing }
  | .select, .stop => if s.done then some { s with flusher := .draining } else none
  | .flushing, .flush now => some (s.flush now)
  | .holding, .hold => some { s.setRetained st s.retained.length with flusher := .select }
  | .delivering closing start, .deliver answer =>
    if s.retained.length ≤ start then some { s with flusher := .settling closing [] }
    else if st.batcher then some (s.deliverBatch st closing start answer)
    else some { s with flusher := .recording closing start start [] }
  | .recording closing start next lost, .recordOne ok =>
    if next < s.chunkEnd st start then
      (s.retained[next]?).map fun e =>
        if ok then { s with
          accepted := s.accepted ++ [e]
          flusher := .recording closing start (next + 1) lost }
        else { s with flusher := .recording closing start (next + 1) (lost ++ [e]) }
    else none
  | .recording closing start next lost, .recorded =>
    if next < s.chunkEnd st start then none
    else some { s with flusher := s.afterChunk st closing start lost }
  | .settling closing failed, .settle =>
    some { s with retained := failed, flusher := .settled closing }
  | .settled closing, .settleRoom now => some (s.settleRoom st closing now)
  | .draining, .receive => receive s true
  | .waking true, .dequeued => some { s.wake st with flusher := .draining }
  | .draining, .drainEmpty =>
    if s.queue.isEmpty then
      some { s with
        retained := s.retained ++ s.batch
        batch := []
        flusher := if (s.retained ++ s.batch).isEmpty then .stopped else .delivering true 0 }
    else none
  | .pausing, .retry => some { s with flusher := .delivering true 0 }
  | .pausing, .abandon =>
    some { s with
      dropped := s.dropped + s.retained.length
      abandoned := s.abandoned ++ s.retained
      retained := []
      flusher := .abandoning }
  | .abandoning, .abandonRoom => some { s.setRetained st 0 with flusher := .stopped }
  | _, _ => none

/-- The call a move belongs to. -/
def Action.caller : Action Ev → Option ℕ
  | .rlock c | .tryAdmit c | .admitOrWait c | .runlock c | .awake c _ | .stopWaiting c
  | .recordThrough c _ | .overflowed c _ => some c
  | _ => none

/-- One move of the recorder, `none` when it is not enabled. -/
def step (s : State Ev) (a : Action Ev) : Option (State Ev) :=
  match a with
  | .record c ev =>
    if (s.calls c).isSome then none
    else some { s with
      calls := Function.update s.calls c (some ⟨ev, if isRead ev then .entering else .through⟩) }
  | .closeLock | .closeMark | .closeUnlock => closeStep s a
  | a =>
    match a.caller with
    | some c => (s.calls c).bind fun k => callStep st s c k.event k.pc a
    | none => flusherStep st s s.flusher a

/-- The states the recorder can be in, over all interleavings and all answers. -/
def Reachable (s : State Ev) : Prop :=
  Lib.Reach (step st isRead) Lib.anyMove .start s

end Step

end Tack.Buffered

import Tack.Audit.ManifestParts
import Tack.Fdb.AuditReadInv

/-!
# Every audited read is recorded once

An admitted read has either one pending record with one expiry key or exactly one terminal event, and
a payload leaves only after the terminal events of all its admissions are saved.

The run must not admit a read again after `CleanupPublished` deleted its receipt: nothing in the store
then tells a late retry of `BeginRead` from a first attempt.

## Main definitions

* `AuditRead.Inv` — what a run keeps.
* `AuditRead.OneCaller`, `AuditRead.LateAdmission`, `AuditRead.Allowed` — the runs considered.
* `AuditRead.Recorded`, `AuditRead.PayloadRecorded` — what the store and the calls guarantee.

## Main results

* `AuditRead.reads_recorded_once` — every state of such a run meets both.
* `AuditRead.late_retry_records_twice` — a late retry gives one read two terminal events.
-/

namespace Tack.AuditRead

open Lib Audit

/-! ### The system -/

section System

variable {env : Env} {home : UUID → ℕ} {s t : State} {c : ℕ}

theorem State.setCall_self {call : Call} : (s.setCall c call).calls c = some call :=
  Function.update_self _ _ _

theorem State.setCall_of_ne {c' : ℕ} {call : Call} (h : c' ≠ c) :
    (s.setCall c call).calls c' = s.calls c' :=
  Function.update_of_ne h _ _

/-- A terminal event is incomplete, or a call built it. -/
def Origin (s : State) (e : Entry) : Prop :=
  e.event.outcome = .incomplete ∨
    ∃ (c : ℕ) (call : Call) (k : ℕ) (completion : ReadCompletion), s.calls c = some call ∧
      call.completions[k]? = some completion ∧ completion.event = e.event

/-- What every run keeps. -/
structure Inv (env : Env) (home : UUID → ℕ) (s : State) : Prop where
  store : StoreInv env s.admitted s.store
  calls : ∀ {c call}, s.calls c = some call → CallInv env home s.store c call
  origin : ∀ e ∈ s.store.outbox, Origin s e

/-- Each read ID is used by one caller. -/
def OneCaller (home : UUID → ℕ) (_ : State) : Action → Prop
  | .start c _ admissions => ∀ a ∈ admissions, home a.token.eventId = c
  | _ => True

/-- An admission of a read that takes effect after `CleanupPublished` deleted its receipt. -/
def LateAdmission (s : State) : Action → Prop
  | .begin c i _ _ => ∃ call a, s.calls c = some call ∧ call.admissions[i]? = some a ∧
      Forgotten s.admitted s.store a.token.eventId
  | _ => False

/-- Each read ID is used by one caller, and no admission is late. -/
def Allowed (home : UUID → ℕ) (s : State) (a : Action) : Prop :=
  OneCaller home s a ∧ ¬ LateAdmission s a

namespace Inv

theorem start : Inv env home State.start where
  store := .empty
  calls h := by cases h
  origin e he := by cases he

/-- A transaction takes effect: the calls stay, and the outbox only grows by explained events. -/
theorem transaction (h : Inv env home s) (hcalls : t.calls = s.calls)
    (hstore : StoreInv env t.admitted t.store) {new : List Entry}
    (hout : t.store.outbox = s.store.outbox ++ new) (hnew : ∀ e ∈ new, Origin s e) :
    Inv env home t := by
  have hmono : ∀ e ∈ s.store.outbox, e ∈ t.store.outbox := by
    intro e he
    rw [hout]
    exact List.mem_append_left new he
  refine ⟨hstore, fun hc => ?_, fun e he => ?_⟩
  · rw [hcalls] at hc
    exact (h.calls hc).mono hmono
  · have horigin : Origin s e := by
      rw [hout, List.mem_append] at he
      exact he.elim (h.origin e) (hnew e)
    rcases horigin with hinc | ⟨c, call, k, completion, hc, hrest⟩
    · exact .inl hinc
    · exact .inr ⟨c, call, k, completion, by rw [hcalls]; exact hc, hrest⟩

/-- A transaction that appends nothing. -/
theorem quiet (h : Inv env home s) (hcalls : t.calls = s.calls)
    (hstore : StoreInv env t.admitted t.store) (hout : t.store.outbox = s.store.outbox) :
    Inv env home t :=
  h.transaction hcalls hstore (by rw [hout, List.append_nil]) fun _ he => absurd he List.not_mem_nil

/-- A call is replaced by one that has its completions. -/
theorem replaceCall (h : Inv env home s) {call' : Call} (hcall' : CallInv env home s.store c call')
    (hkeep : ∀ {call : Call} {k : ℕ} {completion : ReadCompletion}, s.calls c = some call →
      call.completions[k]? = some completion → call'.completions[k]? = some completion) :
    Inv env home (s.setCall c call') := by
  refine ⟨h.store, fun {c' x} hx => ?_, fun e he => ?_⟩
  · by_cases hcc : c' = c
    · subst hcc
      rw [State.setCall_self, Option.some.injEq] at hx
      exact hx ▸ hcall'
    · rw [State.setCall_of_ne hcc] at hx
      exact h.calls hx
  · rcases h.origin e he with hinc | ⟨c', x, k, completion, hx, hcompletion, hevent⟩
    · exact .inl hinc
    · by_cases hcc : c' = c
      · subst hcc
        exact .inr ⟨c', call', k, completion, State.setCall_self, hkeep hx hcompletion, hevent⟩
      · exact .inr ⟨c', x, k, completion, (State.setCall_of_ne hcc).trans hx, hcompletion, hevent⟩

/-- A call moves. -/
theorem setCall (h : Inv env home s) {call call' : Call} (hc : s.calls c = some call)
    (hk : CallInv.Keeps env home s.store c call call') : Inv env home (s.setCall c call') := by
  refine h.replaceCall hk.inv fun hx hcompletion => ?_
  rw [hc, Option.some.injEq] at hx
  subst hx
  exact hk.completions hcompletion

theorem localStep (h : Inv env home s) {f : Call → Option Call}
    (hf : ∀ {call call'}, CallInv env home s.store c call → f call = some call' →
      CallInv.Keeps env home s.store c call call')
    (hs : AuditRead.localStep s c f = some t) : Inv env home t := by
  obtain ⟨call', hbind, rfl⟩ := Option.map_eq_some_iff.mp hs
  obtain ⟨call, hc, hcall⟩ := Option.bind_eq_some_iff.mp hbind
  exact h.setCall hc (hf (h.calls hc) hcall)

theorem startCall (h : Inv env home s) {kind : CallKind} {admissions : List ReadAdmission}
    (hnone : s.calls c = none) (hhome : ∀ a ∈ admissions, home a.token.eventId = c) :
    Inv env home (s.setCall c (.new kind admissions)) := by
  refine h.replaceCall (CallInv.new hhome) fun hx => ?_
  rw [hnone] at hx
  cases hx

theorem beginStep (h : Inv env home s) {i : ℕ} {now : Time} {delivered : Bool}
    (hok : ¬ LateAdmission s (.begin c i now delivered))
    (hs : AuditRead.beginStep env s c i now delivered = some t) : Inv env home t := by
  unfold AuditRead.beginStep at hs
  cases hc : s.calls c with
  | none => rw [hc] at hs; cases hs
  | some call =>
    rw [hc] at hs
    simp only at hs
    cases ha : call.admissions[i]? with
    | none => rw [ha] at hs; cases hs
    | some a =>
      rw [ha] at hs
      simp only at hs
      split at hs
      · cases hb : beginRead env now a s.store with
        | error e =>
          rw [hb] at hs
          cases delivered with
          | false =>
            cases hs
            exact h
          | true =>
            obtain ⟨call', hcall', rfl⟩ := Option.map_eq_some_iff.mp hs
            exact h.setCall hc ((h.calls hc).keeps_begun ha (by simp) hcall')
        | ok p =>
          obtain ⟨token, store⟩ := p
          rw [hb] at hs
          have hstore := h.store.beginRead (fun hlate => hok ⟨call, a, hc, ha, hlate⟩) hb
          obtain ⟨hid, htoken, heff⟩ := beginRead_ok hb
          have hout : store.outbox = s.store.outbox := by
            rcases heff with ⟨rfl, -⟩ | ⟨-, -, b, -, rfl⟩
            · rfl
            · rfl
          have hnext : Inv env home { s with
              store := store, admitted := Function.update s.admitted a.token.eventId true } :=
            h.quiet rfl hstore hout
          cases delivered with
          | false =>
            cases hs
            exact hnext
          | true =>
            obtain ⟨call', hcall', rfl⟩ := Option.map_eq_some_iff.mp hs
            refine hnext.setCall hc ((hnext.calls hc).keeps_begun ha ?_ hcall')
            intro token' htoken'
            cases htoken'
            exact ⟨htoken, hid⟩
      · cases hs

/-- An event that `FinalizeRead` confirms by its receipt is one the same caller built. -/
theorem savedBy_of_receipt (h : Inv env home s) {call : Call} {k : ℕ} {completion : ReadCompletion}
    (hc : s.calls c = some call) (hk : call.completions[k]? = some completion) {r : Receipt}
    (hr : s.store.receipts completion.token.eventId = some r) (hout : r.outcome ≠ .incomplete) :
    SavedBy s.store call completion.token.eventId := by
  obtain ⟨e, he, hid, -, heout⟩ := h.store.receipt hr
  rw [← heout] at hout
  rcases h.origin e he with hinc | ⟨c', call', k', completion', hc', hk', hevent⟩
  · exact absurd hinc hout
  · -- both callers use the ID of the event, so they are one
    obtain ⟨a, -, htoken, -, hhome⟩ := (h.calls hc).completion_eventId hk
    obtain ⟨a', -, -, hid', hhome'⟩ := (h.calls hc').completion_eventId hk'
    have hsame : a'.token.eventId = a.token.eventId := by rw [← hid', hevent, hid, htoken]
    have hcc : c' = c := by rw [← hhome', ← hhome, hsame]
    subst hcc
    rw [hc, Option.some.injEq] at hc'
    subst hc'
    exact ⟨e, he, hid, hout, k', completion', hk', hevent⟩

theorem finalizeStep (h : Inv env home s) (hcodec : KeepsEventId env.codec) {i : ℕ}
    {delivered : Bool} (hs : AuditRead.finalizeStep env s c i delivered = some t) :
    Inv env home t := by
  unfold AuditRead.finalizeStep at hs
  cases hc : s.calls c with
  | none => rw [hc] at hs; cases hs
  | some call =>
    rw [hc] at hs
    simp only at hs
    cases hk : call.completions[i]? with
    | none => rw [hk] at hs; cases hs
    | some completion =>
      rw [hk] at hs
      simp only at hs
      obtain ⟨a, ha, htoken, -, -⟩ := (h.calls hc).completion_eventId hk
      cases hf : finalizeRead env completion s.store with
      | error e =>
        rw [hf] at hs
        cases delivered with
        | false =>
          cases hs
          exact h
        | true =>
          obtain ⟨call', hcall', rfl⟩ := Option.map_eq_some_iff.mp hs
          exact h.setCall hc ((h.calls hc).keeps_finalized ha (by simp) hcall')
      | ok store =>
        rw [hf] at hs
        have hnext : Inv env home { s with store := store } ∧
            SavedBy store call a.token.eventId := by
          rcases finalizeRead_ok h.store hcodec hf with ⟨hsaves, hout⟩ | ⟨rfl, r, hr, -, hout⟩
          · refine ⟨h.transaction rfl (h.store.saves hsaves) hsaves.outbox fun e he => ?_, ?_⟩
            · rw [List.mem_singleton] at he
              exact .inr ⟨c, call, i, completion, hc, hk, by rw [he]⟩
            · obtain ⟨p, r, -, hid, -⟩ := hsaves.pending
              refine ⟨⟨completion.event, completion.digest⟩, ?_, ?_, hout, i, completion, hk, rfl⟩
              · rw [hsaves.outbox]
                exact List.mem_append_right _ (List.mem_singleton_self _)
              · rw [← htoken]
                exact hid
          · exact ⟨h, htoken ▸ h.savedBy_of_receipt hc hk hr hout⟩
        cases delivered with
        | false =>
          cases hs
          exact hnext.1
        | true =>
          obtain ⟨call', hcall', rfl⟩ := Option.map_eq_some_iff.mp hs
          exact hnext.1.setCall hc
            ((hnext.1.calls hc).keeps_finalized ha (fun _ => hnext.2) hcall')

theorem renewStep (h : Inv env home s) {i : ℕ} {now : Time}
    (hs : AuditRead.renewStep env s c i now = some t) : Inv env home t := by
  obtain ⟨token, -, rfl⟩ := Option.map_eq_some_iff.mp hs
  cases hr : renewRead env now token s.store with
  | error e => exact h
  | ok store =>
    obtain ⟨hout, hstore⟩ := renewRead_ok h.store hr
    exact h.quiet rfl hstore hout

theorem recoverStep (h : Inv env home s) (hcodec : KeepsEventId env.codec) {w : ℕ} {now : Time}
    {delivered : Bool} (hs : AuditRead.recoverStep env s w now delivered = some t) :
    Inv env home t := by
  unfold AuditRead.recoverStep at hs
  cases hw : s.workers w with
  | nil => rw [hw] at hs; cases hs
  | cons key rest =>
    rw [hw] at hs
    simp only at hs
    cases hr : recoverOne env now key s.store with
    | error e =>
      rw [hr] at hs
      cases hs
      split
      · exact h.quiet rfl h.store rfl
      · exact h
    | ok p =>
      obtain ⟨saved, store⟩ := p
      rw [hr] at hs
      cases hs
      rcases recoverOne_ok h.store hcodec hr with ⟨hout, hstore⟩ | ⟨e, hsaves, hinc⟩
      · exact h.quiet rfl hstore hout
      · refine h.transaction rfl (h.store.saves hsaves) hsaves.outbox fun e' he' => ?_
        rw [List.mem_singleton] at he'
        exact .inl (he' ▸ hinc)

/-- Every allowed step keeps the invariant. -/
theorem step (h : Inv env home s) (hcodec : KeepsEventId env.codec) {a : Action}
    (hok : Allowed home s a) (hs : AuditRead.step env s a = some t) : Inv env home t := by
  cases a with
  | start c kind admissions =>
    simp only [AuditRead.step] at hs
    split at hs
    · cases hs
    · next hnone =>
      cases hs
      exact h.startCall (by simpa using hnone) hok.1
  | admitOne c now => exact h.localStep (fun hc hcall => hc.keeps_admitOne hcall) hs
  | begin c i now delivered => exact h.beginStep hok.2 hs
  | failed c now => exact h.localStep (fun hc hcall => hc.keeps_failed hcall) hs
  | renew c i now => exact h.renewStep hs
  | read c result now => exact h.localStep (fun hc hcall => hc.keeps_readReturned hcall) hs
  | complete c now => exact h.localStep (fun hc hcall => hc.keeps_complete hcall) hs
  | finalize c i delivered => exact h.finalizeStep hcodec hs
  | stop c => exact h.localStep (fun hc hcall => hc.keeps_stop hcall) hs
  | scan w bucket limit now =>
    simp only [AuditRead.step] at hs
    split at hs
    · cases hs
      exact h.quiet rfl h.store rfl
    · cases hs
  | recover w now delivered => exact h.recoverStep hcodec hs
  | acknowledge reads now =>
    simp only [AuditRead.step, Option.some.injEq] at hs
    subst hs
    cases hr : acknowledgeReads env now reads s.store with
    | error e => exact h
    | ok store =>
      obtain ⟨hout, hstore⟩ := acknowledgeReads_ok h.store hr
      exact h.quiet rfl hstore hout
  | cleanup bucket limit now =>
    simp only [AuditRead.step] at hs
    split at hs
    · cases hs
      obtain ⟨hout, hstore⟩ := foldl_cleanupOne_keeps h.store
        (dueKeys s.store.cleanup bucket (now.add (-readReceiptRetention)).unixNano limit)
      exact h.quiet rfl hstore hout
    · cases hs

end Inv

/-! ### What is recorded -/

/-- A read is pending with one expiry key, at its lease deadline, and no terminal event; or it has no
pending record, no expiry key and exactly one terminal event. -/
def Recorded (env : Env) (s : Store) (id : UUID) : Prop :=
  (∃ p, s.pending id = some p ∧
      (∀ k, k ∈ s.expiry ∧ k.eventId = id ↔ k = expiryKey env id p.leaseDeadline) ∧
      s.terminals id = []) ∨
    (s.pending id = none ∧ (∀ k ∈ s.expiry, k.eventId ≠ id) ∧ ∃ e, s.terminals id = [e])

/-- The evidence carries the digest and the part count of the manifest of the targets; a read that
returned none and counted none has no manifest. -/
def ManifestOf (env : Env) (evidence : ReadEvidence) (targets : List Target) (count : ℕ) : Prop :=
  if count > 0 ∨ targets ≠ [] then
    readManifestDigest env.codec env.sha targets =
      .ok (evidence.manifestSHA256, evidence.manifestParts)
  else evidence.manifestSHA256 = "" ∧ evidence.manifestParts = 0

/-- The terminal event of the admission `a` is one that the call finalized, is not incomplete and
carries the digest of the payload, and when it completed also the manifest of the targets. -/
def AdmissionRecorded (env : Env) (s : Store) (call : Call) (r : ReadResult) (payload : Bytes)
    (a : ReadAdmission) : Prop :=
  ∃ e, s.terminals a.token.eventId = [e] ∧ e.event.outcome ≠ .incomplete ∧
    ∃ (k : ℕ) (a' : ReadAdmission) (completion : ReadCompletion) (evidence : ReadEvidence),
      call.admissions[k]? = some a' ∧ a'.token.eventId = a.token.eventId ∧
      call.completions[k]? = some completion ∧ completion.event = e.event ∧
      e.event.context.read = some evidence ∧ evidence.payloadSHA256 = env.sha.hex payload ∧
      (e.event.outcome = .completed →
        ManifestOf env evidence (selectTargets call.kind r a').1 (selectTargets call.kind r a').2)

/-- Whatever payload a call returned, the events of all its admissions were recorded first. -/
def PayloadRecorded (env : Env) (s : Store) (call : Call) : Prop :=
  ∀ v, call.pc = .returned (some v) → ∃ r, call.result = some (some r) ∧
    ∀ a ∈ call.admissions, AdmissionRecorded env s call r v.payload a

theorem StoreInv.recorded {admitted : UUID → Bool} {s : Store} (h : StoreInv env admitted s)
    {id : UUID} (hid : admitted id = true) : Recorded env s id := by
  cases hp : s.pending id with
  | some p =>
    refine .inl ⟨p, hp, fun k => ⟨?_, ?_⟩, (h.pending hp).2.2.1⟩
    · rintro ⟨hk, rfl⟩
      obtain ⟨q, hq, heq⟩ := (h.keys k).mp hk
      rw [hp, Option.some.injEq] at hq
      exact hq ▸ heq
    · rintro rfl
      exact ⟨(h.keys _).mpr ⟨p, hp, rfl⟩, rfl⟩
  | none =>
    refine .inr ⟨hp, fun k hk hkid => ?_, h.done hp hid⟩
    obtain ⟨q, hq, -⟩ := (h.keys k).mp hk
    rw [hkid, hp] at hq
    cases hq

theorem returnValue_some {call : Call} {result : Option ReadResult} {v : EncodedRead}
    (h : call.returnValue env result = some v) :
    ∃ r, result = some r ∧ r.encoding = .payload v.payload := by
  cases result with
  | none => cases h
  | some r =>
    refine ⟨r, rfl, ?_⟩
    cases he : r.encoding with
    | missing => simp [Call.returnValue, prepareRead, he, failedEncoding] at h
    | failed => simp [Call.returnValue, prepareRead, he, failedEncoding] at h
    | payload payload =>
      simp only [Call.returnValue, prepareRead, he, Option.isNone_some, Bool.or_self,
        Bool.false_eq_true, if_false, Option.some.injEq] at h
      rw [← h]

/-- What is recorded of a read that returned a payload. -/
theorem preparedFor_payload {kind : CallKind} {r : ReadResult} {payload : Bytes}
    (he : r.encoding = .payload payload) (a : ReadAdmission) :
    ∃ contentType format outcome, preparedFor env kind (some r) a =
      ⟨⟨payload, contentType,
        ⟨(selectTargets kind r a).2, env.sha.hex payload, format, "", 0⟩⟩,
        outcome, (selectTargets kind r a).1, true, false⟩ := by
  simp only [preparedFor, prepareRead, he, if_true]
  exact ⟨_, _, _, rfl⟩

/-- The evidence of a read that returned a payload. -/
theorem finalEvidence_ok {kind : CallKind} {r : ReadResult} {a : ReadAdmission} {payload : Bytes}
    {read : Option ReadEvidence} {targets : List Target} (he : r.encoding = .payload payload)
    (h : finalEvidence env (preparedFor env kind (some r) a) = .ok (read, targets)) :
    ∃ evidence, read = some evidence ∧ evidence.payloadSHA256 = env.sha.hex payload ∧
      ((preparedFor env kind (some r) a).outcome.outcome = .completed →
        ManifestOf env evidence (selectTargets kind r a).1 (selectTargets kind r a).2) := by
  obtain ⟨contentType, format, outcome, hprepared⟩ := preparedFor_payload he a
  rw [hprepared] at h ⊢
  simp only [finalEvidence, Bool.not_true, Bool.false_eq_true, if_false] at h
  split at h
  · next hout =>
    cases h
    exact ⟨_, rfl, rfl, fun hcompleted => absurd hcompleted hout⟩
  · split at h
    · next hmanifest =>
      cases hd : readManifestDigest env.codec env.sha (selectTargets kind r a).1 with
      | error e => rw [hd] at h; cases h
      | ok p =>
        obtain ⟨digest, parts⟩ := p
        rw [hd] at h
        cases h
        refine ⟨_, rfl, rfl, fun _ => ?_⟩
        rw [ManifestOf, if_pos hmanifest]
        exact hd
    · next hmanifest =>
      cases h
      refine ⟨_, rfl, rfl, fun _ => ?_⟩
      rw [ManifestOf, if_neg hmanifest]
      exact ⟨rfl, rfl⟩

theorem Inv.payloadRecorded (h : Inv env home s) {call : Call} (hc : s.calls c = some call) :
    PayloadRecorded env s.store call := by
  intro v hpc
  have hcall := h.calls hc
  obtain ⟨result, hresult, hvalue⟩ := hcall.value hpc
  obtain ⟨r, rfl, hencoding⟩ := returnValue_some hvalue
  refine ⟨r, hresult, fun a ha => ?_⟩
  obtain ⟨j, hj⟩ := List.mem_iff_getElem?.mp ha
  have hlt : j < call.pc.saved call.admissions.length := by
    rw [hpc]
    exact (List.getElem?_eq_some_iff.mp hj).1
  obtain ⟨e, he, hid, hout, k, completion, hk, hevent⟩ := hcall.saved hlt hj
  obtain ⟨a', result', now, ha', -, hresult', hcompletion⟩ := hcall.completions hk
  rw [hresult, Option.some.injEq] at hresult'
  subst hresult'
  obtain ⟨-, read, targets, hread, hfinal⟩ := readCompletion_ok hcompletion
  obtain ⟨evidence, rfl, hsha, hmanifest⟩ := finalEvidence_ok hencoding hread
  have hid' : a'.token.eventId = a.token.eventId := by
    obtain ⟨a'', ha'', -, hid'', -⟩ := hcall.completion_eventId hk
    rw [ha', Option.some.injEq] at ha''
    rw [ha'', ← hid'', hevent, hid]
  have hfinal' : e.event = finalEvent now a'.template (preparedFor env call.kind (some r) a')
      (some evidence) := hevent ▸ hfinal
  refine ⟨e, hid ▸ (h.store.terminals_eq he).2, hout, k, a', completion, evidence, ha', hid', hk,
    hevent, by rw [hfinal']; rfl, hsha, fun hcompleted => hmanifest ?_⟩
  rw [hfinal'] at hcompleted
  exact hcompleted

/-- **Every audited read is recorded exactly once, and before its payload leaves**, in every state of
a run in which each read ID is used by one caller and no admission comes after cleanup. -/
theorem reads_recorded_once (hcodec : KeepsEventId env.codec) (hs : Reach (step env) (Allowed home) State.start s) :
    (∀ id, s.admitted id = true → Recorded env s.store id) ∧
      ∀ c call, s.calls c = some call → PayloadRecorded env s.store call := by
  have hinv : Inv env home s := hs.invariant Inv.start fun hu hok hstep =>
    hu.step hcodec hok hstep
  exact ⟨fun id hid => hinv.store.recorded hid, fun c call hc => hinv.payloadRecorded hc⟩

end System

/-! ### Runs -/

section Runs

def sampleId : UUID := 1

/-- A read of an external system. -/
def sampleTemplate : Event :=
  let target : Target := { (default : Target) with kind := TargetKind.external, reference := ascii "feed" }
  { (default : Event) with
    verb := "feed.read"
    eventId := sampleId
    actor := { (default : Actor) with type := .user, id := 2 }
    entity := { (default : Entity) with type := "external" }
    context := { (default : EventContext) with
      orgId := 3, auditFormatVersion := auditFormatComplete, operationClass := .read, phase := .read
      operationId := 4, startedAt := ⟨1, 0⟩, target := some target }
    occurredAt := ⟨1, 0⟩ }

def sampleAdmission : ReadAdmission := ⟨⟨sampleId, 5, 0, .zero⟩, sampleTemplate⟩

/-- The event that is encoded as the given bytes, among those that a run stores. -/
def decodeKnown (known : List Event) (bytes : Bytes) : Option Event :=
  known.find? fun e => e.toJson.map marshal == some bytes

/-- The JSON of events and targets; only the template of the read is decoded again. -/
def sampleEnv : Env where
  codec := Codec.withTargets
    { event := fun e => e.toJson.map marshal
      target := fun _ => none
      unmarshalEvent := decodeKnown [sampleTemplate]
      decodeEvent := decodeKnown [sampleTemplate]
      decodeTarget := fun _ => none }
  sha := sampleSha
  json := ⟨fun raw => (rawJson raw).isSome, fun _ => none, fun _ => none⟩

theorem keepsEventId_sampleEnv : KeepsEventId sampleEnv.codec := by
  intro e e' b he he'
  have hfound := List.find?_some (p := fun e : Event => e.toJson.map marshal == some b) he'
  exact eventId_eq_of_marshal (eq_of_beq hfound) he

/-- The digest of the event that recovery saves for the read. -/
def recoveredDigest (now : Time) : String :=
  match validateAndEncode sampleEnv (incompleteReadEvent sampleTemplate now) [] with
  | .ok encoded => encoded.transportDigest
  | .error _ => ""

/-- The time `n` seconds after the start. -/
def sampleTime (n : ℕ) : Time := ⟨1 + n * Time.second, 0⟩

/-- An admission whose answer is lost and whose next attempt takes effect after recovery, publication
and cleanup. -/
def lateRetryRun : List Action :=
  [.start 0 .single [sampleAdmission], .admitOne 0 (sampleTime 0), .begin 0 0 (sampleTime 0) false,
    .failed 0 (sampleTime 1), .scan 0 0 10 (sampleTime 40), .recover 0 (sampleTime 40) true,
    .acknowledge [⟨sampleId, recoveredDigest (sampleTime 40)⟩] (sampleTime 50), .cleanup 0 10 (sampleTime 4000),
    .begin 0 0 (sampleTime 4000) false, .scan 0 0 10 (sampleTime 4040),
    .recover 0 (sampleTime 4040) true]

/-- The checks of `OneCaller` for one caller of every read. -/
def oneCallerCheck (_ : State) : Action → Bool
  | .start c _ _ => c = 0
  | _ => true

theorem oneCaller_of_check (s : State) (a : Action) (h : oneCallerCheck s a = true) :
    OneCaller (fun _ => 0) s a := by
  cases a with
  | start c kind admissions =>
    intro b _
    exact (of_decide_eq_true h).symm
  | _ => trivial

/-- **A late retry of an admission gives one read two terminal events**, although its ID has one
caller. -/
theorem late_retry_records_twice :
    ∃ s, Reach (step sampleEnv) (OneCaller fun _ => 0) State.start s ∧
      s.admitted sampleId = true ∧ (s.store.terminals sampleId).length = 2 ∧
      ¬ Recorded sampleEnv s.store sampleId := by
  obtain ⟨s, hs, hp⟩ := exists_reach_of_runChecked (step sampleEnv) oneCaller_of_check State.start
    lateRetryRun (fun s => s.admitted sampleId && (s.store.terminals sampleId).length == 2)
    (by decide +kernel)
  rw [Bool.and_eq_true, beq_iff_eq] at hp
  refine ⟨s, hs, hp.1, hp.2, ?_⟩
  rintro (⟨p, -, -, hnil⟩ | ⟨-, -, e, hone⟩)
  · simp [hnil] at hp
  · simp [hone] at hp

/-- The checks of `LateAdmission`. -/
def lateAdmissionCheck (s : State) : Action → Bool
  | .begin c i _ _ => (s.calls c).any fun call => (call.admissions[i]?).any fun a =>
      s.admitted a.token.eventId && (s.store.pending a.token.eventId).isNone &&
        (s.store.receipts a.token.eventId).isNone
  | _ => false

theorem lateAdmissionCheck_of_late {s : State} {a : Action} (h : LateAdmission s a) :
    lateAdmissionCheck s a = true := by
  cases a with
  | begin c i now delivered =>
    obtain ⟨call, a, hc, ha, hadmitted, hpending, hreceipt⟩ := h
    simp [lateAdmissionCheck, hc, ha, hadmitted, hpending, hreceipt]
  | _ => exact h.elim

theorem allowed_of_check (s : State) (a : Action)
    (h : (oneCallerCheck s a && !lateAdmissionCheck s a) = true) : Allowed (fun _ => 0) s a := by
  rw [Bool.and_eq_true, Bool.not_eq_true'] at h
  refine ⟨oneCaller_of_check s a h.1, fun hlate => ?_⟩
  rw [lateAdmissionCheck_of_late hlate] at h
  exact absurd h.2 (by decide)

/-- A read that returns one byte. -/
def sampleResult : ReadResult :=
  ⟨[{ (default : Target) with kind := TargetKind.external, reference := ascii "feed" }], fun _ => [], 1,
    .payload [7], "text/plain", ⟨.completed, "", "", []⟩⟩

/-- A read whose first finalization commits with its answer lost. -/
def finalizedRun : List Action :=
  [.start 0 .single [sampleAdmission], .admitOne 0 (sampleTime 0), .begin 0 0 (sampleTime 0) true,
    .renew 0 0 (sampleTime 10), .read 0 (some sampleResult) (sampleTime 20),
    .complete 0 (sampleTime 20), .finalize 0 0 false, .failed 0 (sampleTime 21), .finalize 0 0 true]

/-- The call has returned the byte of the sample. -/
def returnedSample (s : State) : Bool :=
  (s.calls 0).any fun call => match call.pc with
    | .returned (some v) => v.payload == [7]
    | _ => false

theorem reads_recorded_once_finalizedRun :
    ∃ s call v, Reach (step sampleEnv) (Allowed fun _ => 0) State.start s ∧
      s.calls 0 = some call ∧ call.pc = .returned (some v) ∧ v.payload = [7] ∧
      s.admitted sampleId = true ∧ Recorded sampleEnv s.store sampleId ∧
      PayloadRecorded sampleEnv s.store call := by
  obtain ⟨s, hs, hp⟩ := exists_reach_of_runChecked (step sampleEnv) allowed_of_check State.start
    finalizedRun (fun s => s.admitted sampleId && returnedSample s) (by decide +kernel)
  rw [Bool.and_eq_true] at hp
  obtain ⟨hrecorded, hpayload⟩ := reads_recorded_once keepsEventId_sampleEnv hs
  obtain ⟨call, hc, hreturned⟩ := Option.any_eq_true _ _ |>.mp hp.2
  split at hreturned
  · next v hpc =>
    exact ⟨s, call, v, hs, hc, hpc, eq_of_beq hreturned, hp.1, hrecorded sampleId hp.1,
      hpayload 0 call hc⟩
  · cases hreturned

end Runs

end Tack.AuditRead

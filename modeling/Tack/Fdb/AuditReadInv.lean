import Tack.Fdb.AuditReadExecutor

/-!
# What runs of audited reads keep

The invariant of the read store under each of its transactions, and the invariant of a call under
each of its steps.

## Main definitions

* `AuditRead.StoreInv` — pending records with their expiry keys, receipts and terminal events.
* `AuditRead.CallInv` — the tokens, the final events and the saved events of a call.

## Main results

* `AuditRead.beginRead_ok`, `AuditRead.finalizeRead_ok`, `AuditRead.recoverOne_ok` — what a
  transaction that commits does.
* `AuditRead.CallInv.keeps_begun`, `AuditRead.CallInv.keeps_complete`,
  `AuditRead.CallInv.keeps_finalized` — what the steps of a call keep.
-/

namespace Tack.AuditRead

open Lib Audit

/-- The terminal events of a read. -/
def Store.terminals (s : Store) (id : UUID) : List Entry := s.outbox.filter (·.event.eventId = id)

/-- Decoding an encoded event gives its identity back. -/
def KeepsEventId (codec : Codec) : Prop :=
  ∀ {e e' : Event} {b : Bytes}, codec.event e = some b → codec.unmarshalEvent b = some e' →
    e'.eventId = e.eventId

/-! ### The store -/

@[simp] theorem mem_setKey {keys : List TimeKey} {k l : TimeKey} :
    l ∈ setKey keys k ↔ l = k ∨ l ∈ keys := by
  unfold setKey
  split
  · next h =>
    constructor
    · exact .inr
    · rintro (rfl | h')
      · exact h
      · exact h'
  · exact List.mem_cons

@[simp] theorem mem_clearKey {keys : List TimeKey} {k l : TimeKey} :
    l ∈ clearKey keys k ↔ l ∈ keys ∧ l ≠ k := by
  simp [clearKey]

/-- What every run keeps of the store. -/
structure StoreInv (env : Env) (admitted : UUID → Bool) (s : Store) : Prop where
  /-- The expiry keys are those of the pending records, at their lease deadlines. -/
  keys : ∀ k, k ∈ s.expiry ↔
    ∃ p, s.pending k.eventId = some p ∧ k = expiryKey env k.eventId p.leaseDeadline
  pending : ∀ {id p}, s.pending id = some p → admitted id = true ∧ s.receipts id = none ∧
    s.terminals id = [] ∧ ∃ t, env.codec.event t = some p.template ∧ t.eventId = id
  done : ∀ {id}, s.pending id = none → admitted id = true → ∃ e, s.terminals id = [e]
  fresh : ∀ {id}, admitted id = false → s.receipts id = none ∧ s.terminals id = []
  receipt : ∀ {id r}, s.receipts id = some r →
    ∃ e ∈ s.outbox, e.event.eventId = id ∧ e.digest = r.digest ∧ e.event.outcome = r.outcome

namespace StoreInv

variable {env : Env} {admitted : UUID → Bool} {s : Store}

theorem empty : StoreInv env (fun _ => false) Store.empty where
  keys k := by simp [Store.empty]
  pending h := by simp [Store.empty] at h
  done _ h := by simp at h
  fresh _ := ⟨rfl, rfl⟩
  receipt h := by simp [Store.empty] at h

/-- The terminal event of a read is the only one. -/
theorem terminals_eq (h : StoreInv env admitted s) {e : Entry} (he : e ∈ s.outbox) :
    s.pending e.event.eventId = none ∧ s.terminals e.event.eventId = [e] := by
  have hmem : e ∈ s.terminals e.event.eventId := by
    simp [Store.terminals, he]
  cases hp : s.pending e.event.eventId with
  | some p =>
    rw [(h.pending hp).2.2.1] at hmem
    simp at hmem
  | none =>
    cases ha : admitted e.event.eventId with
    | false =>
      rw [(h.fresh ha).2] at hmem
      simp at hmem
    | true =>
      obtain ⟨e', he'⟩ := h.done hp ha
      rw [he', List.mem_singleton] at hmem
      exact ⟨rfl, hmem ▸ he'⟩

/-- A first admission. -/
theorem admitOne (h : StoreInv env admitted s) {id : UUID} {p : Pending} {t : Event}
    (hnew : admitted id = false) (ht : env.codec.event t = some p.template) (hid : t.eventId = id) :
    StoreInv env (Function.update admitted id true) (s.writePending env id p) := by
  have hnone : s.pending id = none := by
    by_contra hp
    obtain ⟨q, hq⟩ := Option.ne_none_iff_exists'.mp hp
    rw [(h.pending hq).1] at hnew
    exact absurd hnew (by decide)
  have hfresh := h.fresh hnew
  refine ⟨fun k => ?_, ?_, ?_, ?_, h.receipt⟩
  · simp only [Store.writePending, mem_setKey, h.keys k]
    by_cases hk : k.eventId = id
    · subst hk
      simp only [Function.update_self, Option.some.injEq, exists_eq_left', hnone]
      simp
    · rw [Function.update_of_ne hk]
      refine or_iff_right ?_
      rintro rfl
      exact hk rfl
  · intro id' q hq
    rcases update_eq_some hq with ⟨hid', hq⟩ | ⟨rfl, hself⟩
    · rw [Function.update_of_ne hid']
      exact h.pending hq
    · cases hself
      exact ⟨Function.update_self _ _ _, hfresh.1, hfresh.2, t, ht, hid⟩
  · intro id' hq ha
    obtain ⟨hid', hq⟩ := update_some_eq_none hq
    rw [Function.update_of_ne hid'] at ha
    exact h.done hq ha
  · intro id' ha
    by_cases hid' : id' = id
    · subst hid'
      simp at ha
    · rw [Function.update_of_ne hid'] at ha
      exact h.fresh ha

/-- A renewal moves the lease and its key. -/
theorem renew (h : StoreInv env admitted s) {id : UUID} {p q : Pending}
    (hp : s.pending id = some p) (hq : q.template = p.template) :
    StoreInv env admitted
      ({ s with expiry := clearKey s.expiry (expiryKey env id p.leaseDeadline) }.writePending env
        id q) := by
  refine ⟨fun k => ?_, ?_, ?_, h.fresh, h.receipt⟩
  · simp only [Store.writePending, mem_setKey, mem_clearKey, h.keys k]
    by_cases hk : k.eventId = id
    · subst hk
      simp only [Function.update_self, Option.some.injEq, exists_eq_left', hp]
      constructor
      · rintro (hk | ⟨hk, hne⟩)
        · exact hk
        · exact absurd hk hne
      · exact .inl
    · rw [Function.update_of_ne hk]
      constructor
      · rintro (rfl | ⟨hk', -⟩)
        · exact absurd rfl hk
        · exact hk'
      · intro hk'
        refine .inr ⟨hk', ?_⟩
        rintro rfl
        exact hk rfl
  · intro id' r hr
    rcases update_eq_some hr with ⟨-, hr⟩ | ⟨rfl, hnew⟩
    · exact h.pending hr
    · cases hnew
      rw [hq]
      exact h.pending hp
  · exact fun hr => h.done (update_some_eq_none hr).2

theorem terminals_append (s : Store) (e : Entry) (id : UUID) :
    (s.append e).terminals id = s.terminals id ++ if e.event.eventId = id then [e] else [] := by
  by_cases h : e.event.eventId = id <;> simp [Store.terminals, Store.append, h]

/-- A terminal event is saved and the pending record removed. -/
theorem save (h : StoreInv env admitted s) {id : UUID} {p : Pending} {e : Entry} {r : Receipt}
    (hp : s.pending id = some p) (he : e.event.eventId = id) (hdigest : e.digest = r.digest)
    (houtcome : e.event.outcome = r.outcome) :
    StoreInv env admitted (((s.append e).clearPending env id p).writeReceipt id r) := by
  have hterm : ∀ id', (((s.append e).clearPending env id p).writeReceipt id r).terminals id' =
      s.terminals id' ++ if e.event.eventId = id' then [e] else [] := terminals_append s e
  have hother : ∀ {id'}, id' ≠ id →
      (((s.append e).clearPending env id p).writeReceipt id r).terminals id' = s.terminals id' := by
    intro id' hid
    rw [hterm, if_neg (he ▸ hid.symm), List.append_nil]
  obtain ⟨hadm, -, hnil, -⟩ := h.pending hp
  refine ⟨fun k => ?_, ?_, ?_, ?_, ?_⟩
  · simp only [Store.writeReceipt, Store.clearPending, Store.append, mem_clearKey, h.keys k]
    by_cases hk : k.eventId = id
    · subst hk
      simp [hp]
    · rw [Function.update_of_ne hk]
      refine and_iff_left_of_imp fun _ => ?_
      rintro rfl
      exact hk rfl
  · intro id' q hq
    rcases update_eq_some hq with ⟨hid, hq⟩ | ⟨-, hq⟩
    · obtain ⟨ha, hrec, hter, ht⟩ := h.pending hq
      exact ⟨ha, (Function.update_of_ne hid ..).trans hrec, (hother hid).trans hter, ht⟩
    · cases hq
  · intro id' hq ha
    by_cases hid : id' = id
    · subst hid
      exact ⟨e, by rw [hterm, hnil, if_pos he, List.nil_append]⟩
    · rw [hother hid]
      exact h.done ((Function.update_of_ne hid ..).symm.trans hq) ha
  · intro id' ha
    have hid : id' ≠ id := by
      rintro rfl
      rw [hadm] at ha
      exact absurd ha (by decide)
    rw [hother hid]
    exact ⟨(Function.update_of_ne hid ..).trans (h.fresh ha).1, (h.fresh ha).2⟩
  · intro id' r' hr
    rcases update_eq_some hr with ⟨-, hr⟩ | ⟨rfl, hnew⟩
    · obtain ⟨e', he', hrest⟩ := h.receipt hr
      exact ⟨e', List.mem_append_left _ he', hrest⟩
    · cases hnew
      exact ⟨e, List.mem_append_right _ List.mem_cons_self, he, hdigest, houtcome⟩

/-- Receipts may be marked or deleted. -/
theorem receipts (h : StoreInv env admitted s) {f : UUID → Option Receipt} {keys : List TimeKey}
    (hf : ∀ id r, f id = some r →
      ∃ r', s.receipts id = some r' ∧ r'.digest = r.digest ∧ r'.outcome = r.outcome) :
    StoreInv env admitted { s with receipts := f, cleanup := keys } := by
  have hnone : ∀ id, s.receipts id = none → f id = none := by
    intro id hid
    cases hr : f id with
    | none => rfl
    | some r =>
      obtain ⟨r', hr', -⟩ := hf id r hr
      rw [hid] at hr'
      cases hr'
  refine ⟨h.keys, fun hp => ?_, h.done, fun ha => ?_, fun hr => ?_⟩
  · obtain ⟨hadm, hrec, hrest⟩ := h.pending hp
    exact ⟨hadm, hnone _ hrec, hrest⟩
  · exact ⟨hnone _ (h.fresh ha).1, (h.fresh ha).2⟩
  · obtain ⟨r', hr', hd, ho⟩ := hf _ _ hr
    obtain ⟨e, he, hid, hde, hoe⟩ := h.receipt hr'
    exact ⟨e, he, hid, hde.trans hd, hoe.trans ho⟩

/-- A key that is not the key of a pending record may be cleared. -/
theorem clear (h : StoreInv env admitted s) {k : TimeKey}
    (hk : ∀ p, s.pending k.eventId = some p → p.leaseDeadline.unixNano ≠ k.time) :
    StoreInv env admitted { s with expiry := clearKey s.expiry k } := by
  refine ⟨fun l => ?_, h.pending, h.done, h.fresh, h.receipt⟩
  simp only [mem_clearKey, h.keys l]
  refine and_iff_left_of_imp ?_
  rintro ⟨p, hp, hl⟩ rfl
  exact hk p hp (by rw [hl]; rfl)

end StoreInv

/-! ### What the transactions do -/

section Transactions

variable {env : Env} {admitted : UUID → Bool} {s s' : Store} {now : Time}

theorem templateEventId_of_validate {a : ReadAdmission} (h : validateReadAdmission a = .ok ()) :
    a.template.eventId = a.token.eventId := by
  unfold validateReadAdmission at h
  simp only at h
  by_contra hne
  split at h
  · cases h
  · cases h

/-- `BeginRead` finds the pending record of the admission or writes the first one. -/
theorem beginRead_ok {a : ReadAdmission} {token : ReadToken} (h : beginRead env now a s = .ok (token, s')) :
    a.template.eventId = a.token.eventId ∧ token.eventId = a.token.eventId ∧
      ((s' = s ∧ ∃ p, s.pending a.token.eventId = some p) ∨
        (s.pending a.token.eventId = none ∧ s.receipts a.token.eventId = none ∧
          ∃ b, env.codec.event a.template = some b ∧
            s' = s.writePending env a.token.eventId (newPending a.token.owner b now))) := by
  unfold beginRead at h
  cases hv : validateReadAdmission a with
  | error e => rw [hv] at h; cases h
  | ok u =>
    refine ⟨templateEventId_of_validate hv, ?_⟩
    cases hb : env.codec.event a.template with
    | none => rw [hv, hb] at h; cases h
    | some b =>
      rw [hv, hb] at h
      simp only [beginTransaction] at h
      cases hp : s.pending a.token.eventId with
      | some p =>
        rw [hp] at h
        simp only [retriedAdmission] at h
        split_ifs at h
        · cases h
        · cases h
        · cases h
          exact ⟨rfl, .inl ⟨rfl, p, rfl⟩⟩
      | none =>
        rw [hp] at h
        cases hr : s.receipts a.token.eventId with
        | some r => rw [hr] at h; cases h
        | none =>
          rw [hr] at h
          cases h
          exact ⟨rfl, .inr ⟨rfl, rfl, b, rfl, rfl⟩⟩

/-- The store no longer knows an admitted read: its receipt was cleaned up. -/
def Forgotten (admitted : UUID → Bool) (s : Store) (id : UUID) : Prop :=
  admitted id = true ∧ s.pending id = none ∧ s.receipts id = none

theorem StoreInv.beginRead (h : StoreInv env admitted s) {a : ReadAdmission} {token : ReadToken}
    (hnew : ¬ Forgotten admitted s a.token.eventId)
    (hs : AuditRead.beginRead env now a s = .ok (token, s')) :
    StoreInv env (Function.update admitted a.token.eventId true) s' := by
  obtain ⟨hid, -, ⟨rfl, p, hp⟩ | ⟨hp, hr, b, hb, rfl⟩⟩ := beginRead_ok hs
  · rw [← (h.pending hp).1, Function.update_eq_self]
    exact h
  · have hfalse : admitted a.token.eventId = false := by
      rw [← Bool.not_eq_true]
      exact fun ha => hnew ⟨ha, hp, hr⟩
    exact h.admitOne hfalse hb hid

theorem renewRead_ok (hinv : StoreInv env admitted s) {token : ReadToken} (h : renewRead env now token s = .ok s') :
    s'.outbox = s.outbox ∧ StoreInv env admitted s' := by
  unfold renewRead at h
  cases hp : s.pending token.eventId with
  | none => rw [hp] at h; cases h
  | some p =>
    rw [hp] at h
    simp only at h
    split at h
    · cases h
      exact ⟨rfl, hinv.renew hp rfl⟩
    · cases h

theorem saveTerminal_ok {id : UUID} {p : Pending} {event : Event} {encoded : EncodedEvent}
    {generation : ℕ} (h : saveTerminal env id p event encoded generation s = .ok s') :
    s' = ((s.append ⟨event, encoded.transportDigest⟩).clearPending env id p).writeReceipt id
      ⟨p.owner, generation, encoded.transportDigest, event.outcome, .zero⟩ := by
  unfold saveTerminal at h
  split at h
  · cases h; rfl
  · cases h

/-- What saving a terminal event does to the store. -/
structure Saves (env : Env) (s : Store) (id : UUID) (e : Entry) (s' : Store) : Prop where
  pending : ∃ p r, s.pending id = some p ∧ e.event.eventId = id ∧ e.digest = r.digest ∧
    e.event.outcome = r.outcome ∧
    s' = ((s.append e).clearPending env id p).writeReceipt id r

theorem Saves.outbox {id : UUID} {e : Entry} (h : Saves env s id e s') :
    s'.outbox = s.outbox ++ [e] := by
  obtain ⟨p, r, -, -, -, -, rfl⟩ := h
  rfl

theorem StoreInv.saves (h : StoreInv env admitted s) {id : UUID} {e : Entry}
    (hs : Saves env s id e s') : StoreInv env admitted s' := by
  obtain ⟨p, r, hp, he, hd, ho, rfl⟩ := hs
  exact h.save hp he hd ho

/-- The stored template of a pending read decodes to an event of that read. -/
theorem StoreInv.template_eventId (h : StoreInv env admitted s) (hcodec : KeepsEventId env.codec)
    {id : UUID} {p : Pending} {t : Event} (hp : s.pending id = some p)
    (ht : env.codec.unmarshalEvent p.template = some t) : t.eventId = id := by
  obtain ⟨-, -, -, t', ht', hid⟩ := h.pending hp
  rw [hcodec ht' ht, hid]

theorem checkReadCompletion_ok {template : Event} {completion : ReadCompletion}
    {encoded : EncodedEvent} (h : checkReadCompletion env template completion = .ok encoded) :
    template.eventId = completion.event.eventId ∧ completion.event.outcome ≠ .incomplete ∧
      encoded.transportDigest = completion.digest := by
  unfold checkReadCompletion at h
  by_cases hsame : sameReadIdentity template completion.event = true
  · by_cases hinc : completion.event.outcome = .incomplete
    · simp [hsame, hinc] at h
    · rw [if_neg (by simp [hsame]), if_neg hinc] at h
      refine ⟨?_, hinc, ?_⟩
      · simp only [sameReadIdentity, Bool.and_eq_true, beq_iff_eq] at hsame
        exact hsame.1.1.1.1.1.1.1.1.1
      · cases henc : validateAndEncode env completion.event completion.targets with
        | error e => rw [henc] at h; cases h
        | ok enc =>
          rw [henc] at h
          simp only at h
          split at h
          · cases h
          · next hd =>
            cases h
            exact not_not.mp hd
  · simp [hsame] at h

/-- `FinalizeRead` saves the final event, or finds its receipt. -/
theorem finalizeRead_ok (hinv : StoreInv env admitted s) (hcodec : KeepsEventId env.codec)
    {completion : ReadCompletion} (h : finalizeRead env completion s = .ok s') :
    (Saves env s completion.token.eventId ⟨completion.event, completion.digest⟩ s' ∧
        completion.event.outcome ≠ .incomplete) ∨
      (s' = s ∧ ∃ r, s.receipts completion.token.eventId = some r ∧
        r.digest = completion.digest ∧ r.outcome ≠ .incomplete) := by
  unfold finalizeRead at h
  simp only at h
  cases hp : s.pending completion.token.eventId with
  | none =>
    rw [hp] at h
    simp only at h
    split at h
    · next hany =>
      cases h
      rw [Option.any_eq_true] at hany
      obtain ⟨r, hr, hconf⟩ := hany
      simp only [confirmsReadCommit, Bool.and_eq_true, beq_iff_eq, bne_iff_ne] at hconf
      exact .inr ⟨rfl, r, hr, hconf.1.2, hconf.2⟩
    · cases h
  | some p =>
    rw [hp] at h
    simp only at h
    split at h
    · cases h
    · cases ht : env.codec.unmarshalEvent p.template with
      | none => rw [ht] at h; cases h
      | some template =>
        rw [ht] at h
        simp only at h
        cases hc : checkReadCompletion env template completion with
        | error e => rw [hc] at h; cases h
        | ok encoded =>
          rw [hc] at h
          obtain ⟨hid, hout, hd⟩ := checkReadCompletion_ok hc
          have hsave := saveTerminal_ok h
          rw [hd] at hsave
          refine .inl ⟨⟨p, _, hp, ?_, rfl, rfl, hsave⟩, hout⟩
          rw [← hid]
          exact hinv.template_eventId hcodec hp ht

/-- `recoverOne` leaves the outbox or saves an incomplete event. -/
theorem recoverOne_ok (hinv : StoreInv env admitted s) (hcodec : KeepsEventId env.codec)
    {key : TimeKey} {saved : Bool} (h : recoverOne env now key s = .ok (saved, s')) :
    (s'.outbox = s.outbox ∧ StoreInv env admitted s') ∨
      ∃ e, Saves env s key.eventId e s' ∧ e.event.outcome = .incomplete := by
  unfold recoverOne at h
  cases hp : s.pending key.eventId with
  | none =>
    rw [hp] at h
    cases h
    exact .inl ⟨rfl, hinv.clear fun p hp' => by rw [hp] at hp'; cases hp'⟩
  | some p =>
    rw [hp] at h
    simp only at h
    split_ifs at h with hlease hafter
    · cases h
      refine .inl ⟨rfl, hinv.clear fun q hq => ?_⟩
      rw [hp, Option.some.injEq] at hq
      exact hq ▸ hlease
    · cases h
      exact .inl ⟨rfl, hinv⟩
    · cases ht : env.codec.unmarshalEvent p.template with
      | none => rw [ht] at h; cases h
      | some template =>
        rw [ht] at h
        simp only at h
        cases henc : validateAndEncode env (incompleteReadEvent template now) [] with
        | error e => rw [henc] at h; cases h
        | ok encoded =>
          rw [henc] at h
          simp only at h
          cases hsave : saveTerminal env key.eventId p (incompleteReadEvent template now) encoded
              (p.generation + 1) s with
          | error e => rw [hsave] at h; cases h
          | ok store =>
            rw [hsave] at h
            cases h
            have hid : template.eventId = key.eventId := hinv.template_eventId hcodec hp ht
            exact .inr ⟨_, ⟨p, _, hp, hid, rfl, rfl, saveTerminal_ok hsave⟩, rfl⟩

theorem acknowledgeRead_ok (hinv : StoreInv env admitted s) {read : PublishedRead}
    (h : acknowledgeRead env now s read = .ok s') :
    s'.outbox = s.outbox ∧ StoreInv env admitted s' := by
  unfold acknowledgeRead at h
  cases hr : s.receipts read.eventId with
  | none =>
    rw [hr] at h
    cases h
    exact ⟨rfl, hinv⟩
  | some r =>
    rw [hr] at h
    simp only at h
    split_ifs at h
    · cases h
      exact ⟨rfl, hinv⟩
    · cases h
      refine ⟨rfl, hinv.receipts fun id r' hr' => ?_⟩
      rcases update_eq_some hr' with ⟨-, hr'⟩ | ⟨rfl, hnew⟩
      · exact ⟨r', hr', rfl, rfl⟩
      · cases hnew
        exact ⟨r, hr, rfl, rfl⟩

theorem acknowledgeReads_ok (hinv : StoreInv env admitted s) {reads : List PublishedRead}
    (h : acknowledgeReads env now reads s = .ok s') :
    s'.outbox = s.outbox ∧ StoreInv env admitted s' := by
  unfold acknowledgeReads at h
  induction reads generalizing s with
  | nil =>
    cases h
    exact ⟨rfl, hinv⟩
  | cons read reads ih =>
    rw [List.foldlM_cons] at h
    cases hread : acknowledgeRead env now s read with
    | error e => rw [hread] at h; cases h
    | ok next =>
      rw [hread] at h
      obtain ⟨hout, hnext⟩ := acknowledgeRead_ok hinv hread
      obtain ⟨hout', hs'⟩ := ih hnext h
      exact ⟨hout'.trans hout, hs'⟩

theorem cleanupOne_keeps (hinv : StoreInv env admitted s) (key : TimeKey) :
    (cleanupOne s key).outbox = s.outbox ∧ StoreInv env admitted (cleanupOne s key) := by
  refine ⟨rfl, hinv.receipts fun id r hr => ⟨r, ?_, rfl, rfl⟩⟩
  split at hr
  · rcases update_eq_some hr with ⟨-, hr⟩ | ⟨-, hr⟩
    · exact hr
    · cases hr
  · exact hr

theorem foldl_cleanupOne_keeps (hinv : StoreInv env admitted s) (keys : List TimeKey) :
    (keys.foldl cleanupOne s).outbox = s.outbox ∧
      StoreInv env admitted (keys.foldl cleanupOne s) := by
  induction keys generalizing s with
  | nil => exact ⟨rfl, hinv⟩
  | cons key keys ih =>
    obtain ⟨hout, hnext⟩ := cleanupOne_keeps hinv key
    obtain ⟨hout', hs'⟩ := ih hnext
    exact ⟨hout'.trans hout, hs'⟩

end Transactions

/-! ### Calls -/

section Calls

variable {env : Env} {home : UUID → ℕ} {s s' : Store} {c : ℕ} {call call' : Call}

/-- The final event is the template with the outcome and the evidence of the read. -/
theorem readCompletion_ok {now : Time} {token : ReadToken} {template : Event}
    {prepared : PreparedRead} {completion : ReadCompletion}
    (h : readCompletion env now token template prepared = .ok completion) :
    completion.token = token ∧ ∃ read targets, finalEvidence env prepared = .ok (read, targets) ∧
      completion.event = finalEvent now template prepared read := by
  unfold readCompletion at h
  cases he : finalEvidence env prepared with
  | error e => rw [he] at h; cases h
  | ok p =>
    obtain ⟨read, targets⟩ := p
    rw [he] at h
    simp only at h
    cases henc : validateAndEncode env (finalEvent now template prepared read) targets with
    | error e => rw [henc] at h; cases h
    | ok encoded =>
      rw [henc] at h
      cases h
      exact ⟨rfl, read, targets, rfl, rfl⟩

/-- The terminal event of a read is saved, and a call built it. -/
def SavedBy (s : Store) (call : Call) (id : UUID) : Prop :=
  ∃ e ∈ s.outbox, e.event.eventId = id ∧ e.event.outcome ≠ .incomplete ∧
    ∃ (k : ℕ) (completion : ReadCompletion), call.completions[k]? = some completion ∧
      completion.event = e.event

/-- How many of `n` admissions have their final event saved. -/
def Pc.saved (n : ℕ) : Pc → ℕ
  | .completing i _ => i
  | .finalizing i _ => i
  | .returned (some _) => n
  | _ => 0

/-- The tokens and completions a call has at its place. -/
def Call.Lengths (call : Call) : Pc → Prop
  | .admitOne i => call.tokens.length = i ∧ call.completions = []
  | .beginning i _ => call.tokens.length = i ∧ call.completions = []
  | .reading => call.completions = []
  | .completing i _ => call.completions.length = i
  | .finalizing i _ => call.completions.length = i + 1
  | .returned _ => True
  | .stopped => True

/-- What every run keeps of a call. -/
structure CallInv (env : Env) (home : UUID → ℕ) (s : Store) (c : ℕ) (call : Call) : Prop where
  home : ∀ a ∈ call.admissions, home a.token.eventId = c
  tokens : ∀ {i : ℕ} {token : ReadToken}, call.tokens[i]? = some token →
    ∃ a : ReadAdmission, call.admissions[i]? = some a ∧ token.eventId = a.token.eventId ∧
      a.template.eventId = a.token.eventId
  completions : ∀ {i : ℕ} {completion : ReadCompletion},
    call.completions[i]? = some completion → ∃ (a : ReadAdmission) (r : Option ReadResult)
      (now : Time), call.admissions[i]? = some a ∧ call.tokens[i]? = some completion.token ∧
      call.result = some r ∧
      readCompletion env now completion.token a.template (preparedFor env call.kind r a) =
        .ok completion
  lengths : call.Lengths call.pc
  saved : ∀ {j : ℕ} {a : ReadAdmission}, j < call.pc.saved call.admissions.length →
    call.admissions[j]? = some a → SavedBy s call a.token.eventId
  value : ∀ {v}, call.pc = .returned (some v) →
    ∃ r, call.result = some r ∧ call.returnValue env r = some v

namespace CallInv

theorem mono (h : CallInv env home s c call) (hs : ∀ e ∈ s.outbox, e ∈ s'.outbox) :
    CallInv env home s' c call := by
  refine ⟨h.home, h.tokens, h.completions, h.lengths, fun hj ha => ?_, h.value⟩
  obtain ⟨e, he, hrest⟩ := h.saved hj ha
  exact ⟨e, hs e he, hrest⟩

/-- A move to a place with no more saved events than before. -/
theorem setPc (h : CallInv env home s c call) {pc : Pc} (hlen : call.Lengths pc)
    (hsaved : pc.saved call.admissions.length ≤ call.pc.saved call.admissions.length)
    (hvalue : ∀ v, pc ≠ .returned (some v)) : CallInv env home s c (call.setPc pc) where
  home := h.home
  tokens := h.tokens
  completions := h.completions
  lengths := hlen
  saved hj ha := h.saved (lt_of_lt_of_le hj hsaved) ha
  value hv := absurd hv (hvalue _)

theorem giveUp (h : CallInv env home s c call) :
    CallInv env home s c (call.setPc (.returned none)) :=
  h.setPc trivial (Nat.zero_le _) (by simp)

theorem new {kind : CallKind} {admissions : List ReadAdmission} (hhome : ∀ a ∈ admissions, home a.token.eventId = c) :
    CallInv env home s c (.new kind admissions) where
  home := hhome
  tokens h := by simp [Call.new] at h
  completions h := by simp [Call.new] at h
  lengths := by
    simp only [Call.new]
    split
    · trivial
    · exact ⟨rfl, rfl⟩
  saved hj := by
    simp only [Call.new] at hj
    split at hj <;> simp [Pc.saved] at hj
  value hv := by
    simp only [Call.new] at hv
    split at hv <;> simp at hv

/-- A final event carries the ID of its admission, which is an ID of this caller. -/
theorem completion_eventId (h : CallInv env home s c call) {k : ℕ} {completion : ReadCompletion}
    (hk : call.completions[k]? = some completion) :
    ∃ a, call.admissions[k]? = some a ∧ completion.token.eventId = a.token.eventId ∧
      completion.event.eventId = a.token.eventId ∧ home a.token.eventId = c := by
  obtain ⟨a, r, now, ha, htoken, -, hc⟩ := h.completions hk
  obtain ⟨a', ha', hid, htemplate⟩ := h.tokens htoken
  rw [ha, Option.some.injEq] at ha'
  subst ha'
  obtain ⟨-, read, targets, -, hevent⟩ := readCompletion_ok hc
  refine ⟨a, ha, hid, ?_, h.home a (List.mem_of_getElem? ha)⟩
  rw [hevent]
  exact htemplate

/-- What a step of a call keeps: its invariant and the completions it has. -/
structure Keeps (env : Env) (home : UUID → ℕ) (s : Store) (c : ℕ) (call call' : Call) : Prop where
  inv : CallInv env home s c call'
  completions : ∀ {k : ℕ} {completion : ReadCompletion},
    call.completions[k]? = some completion → call'.completions[k]? = some completion

theorem keeps_admitOne (h : CallInv env home s c call) {now : Time}
    (hs : call.admitOne now = some call') : Keeps env home s c call call' := by
  unfold Call.admitOne at hs
  split at hs
  · next i hpc =>
    obtain ⟨a, -, hcall⟩ := Option.map_eq_some_iff.mp hs
    have hlen := h.lengths
    rw [hpc] at hlen
    cases hv : validateReadAdmission a with
    | error e =>
      rw [hv] at hcall
      exact hcall ▸ ⟨h.giveUp, id⟩
    | ok u =>
      rw [hv] at hcall
      refine hcall ▸ ⟨⟨h.home, h.tokens, h.completions, hlen, ?_, ?_⟩, id⟩
      · intro j a hj
        exact absurd hj (Nat.not_lt_zero j)
      · intro v hv
        cases hv
  · cases hs

theorem keeps_failed (h : CallInv env home s c call) {now : Time}
    (hs : call.failed now = some call') : Keeps env home s c call call' := by
  have hretry : ∀ b : Bool, Keeps env home s c call
      (if b then call else call.setPc (.returned none)) := by
    rintro (_ | _)
    · exact ⟨h.giveUp, id⟩
    · exact ⟨h, id⟩
  unfold Call.failed at hs
  split at hs
  · cases hs
    exact hretry _
  · cases hs
    exact hretry _
  · cases hs

theorem keeps_stop (h : CallInv env home s c call) (hs : call.stop = some call') :
    Keeps env home s c call call' := by
  unfold Call.stop at hs
  split at hs
  · cases hs
  · cases hs
    exact ⟨h.setPc trivial (Nat.zero_le _) (by simp), id⟩

theorem keeps_readReturned (h : CallInv env home s c call) {result : Option ReadResult}
    {now : Time} (hs : call.readReturned result now = some call') :
    Keeps env home s c call call' := by
  unfold Call.readReturned at hs
  split at hs
  · next hpc =>
    cases hs
    have hnil : call.completions = [] := by
      have hlen := h.lengths
      rwa [hpc] at hlen
    refine ⟨⟨h.home, h.tokens, ?_, ?_, ?_, ?_⟩, id⟩
    · intro i completion hc
      simp [hnil] at hc
    · exact List.length_eq_zero_iff.mpr hnil
    · intro j a hj
      exact absurd hj (Nat.not_lt_zero j)
    · intro v hv
      cases hv
  · cases hs

/-- The token of the next admission arrives. -/
theorem keeps_begun (h : CallInv env home s c call) {i : ℕ} {a : ReadAdmission}
    {answer : Except ReadError ReadToken} (ha : call.admissions[i]? = some a)
    (hanswer : ∀ token, answer = .ok token →
      token.eventId = a.token.eventId ∧ a.template.eventId = a.token.eventId)
    (hs : call.begun i answer = some call') : Keeps env home s c call call' := by
  unfold Call.begun at hs
  split at hs
  · next j deadline hpc =>
    have hlen : call.tokens.length = j ∧ call.completions = [] := by
      have hlen := h.lengths
      rwa [hpc] at hlen
    split at hs
    · cases hs
    · next hij =>
      have hij : i = j := not_not.mp hij
      subst hij
      cases answer with
      | error e =>
        simp only at hs
        split at hs
        · cases hs
          exact ⟨h.giveUp, id⟩
        · cases hs
          exact ⟨h, id⟩
      | ok token =>
        cases hs
        refine ⟨⟨h.home, ?_, ?_, ?_, ?_, ?_⟩, id⟩
        · intro k token' hk
          by_cases hki : k < call.tokens.length
          · rw [List.getElem?_append_left hki] at hk
            exact h.tokens hk
          · rw [List.getElem?_append_right (not_lt.mp hki), List.getElem?_singleton] at hk
            split at hk
            · next hzero =>
              cases hk
              have hk' : k = i := by omega
              exact ⟨a, hk' ▸ ha, hanswer token rfl⟩
            · cases hk
        · intro k completion hc
          rw [hlen.2] at hc
          simp at hc
        · simp only
          split
          · exact ⟨by simp [hlen.1], hlen.2⟩
          · exact hlen.2
        · intro j a hj
          simp only at hj
          split at hj <;> exact absurd hj (Nat.not_lt_zero j)
        · intro v hv
          simp only at hv
          split at hv <;> cases hv
  · cases hs

/-- The final event of the next admission is built. -/
theorem keeps_complete (h : CallInv env home s c call) {now : Time}
    (hs : call.complete env now = some call') : Keeps env home s c call call' := by
  unfold Call.complete at hs
  split at hs
  · next i deadline result hpc hresult =>
    have hlen : call.completions.length = i := by
      have hlen := h.lengths
      rwa [hpc] at hlen
    split at hs
    · next a token ha htoken =>
      cases hc : readCompletion env now token a.template (preparedFor env call.kind result a) with
      | error e =>
        rw [hc] at hs
        cases hs
        exact ⟨h.giveUp, id⟩
      | ok completion =>
        rw [hc] at hs
        cases hs
        have hkeep : ∀ {k : ℕ} {x : ReadCompletion}, call.completions[k]? = some x →
            (call.completions ++ [completion])[k]? = some x := by
          intro k x hk
          have hlt : k < call.completions.length := (List.getElem?_eq_some_iff.mp hk).1
          rwa [List.getElem?_append_left hlt]
        refine ⟨⟨h.home, h.tokens, ?_, ?_, ?_, ?_⟩, hkeep⟩
        · intro k x hk
          by_cases hki : k < call.completions.length
          · rw [List.getElem?_append_left hki] at hk
            exact h.completions hk
          · rw [List.getElem?_append_right (not_lt.mp hki), List.getElem?_singleton] at hk
            split at hk
            · cases hk
              have hki' : k = i := by omega
              have htok := (readCompletion_ok hc).1
              exact ⟨a, result, now, hki' ▸ ha, by rw [htok, hki']; exact htoken, hresult,
                by rw [htok]; exact hc⟩
            · cases hk
        · simp [Call.Lengths, hlen]
        · intro j a hj ha
          have hj' : j < call.pc.saved call.admissions.length := by rwa [hpc]
          obtain ⟨e, he, hid, hout, k, x, hk, hx⟩ := h.saved hj' ha
          exact ⟨e, he, hid, hout, k, x, hkeep hk, hx⟩
        · intro v hv
          cases hv
    · cases hs
  · cases hs

/-- The final event of an admission is saved. -/
theorem keeps_finalized (h : CallInv env home s c call) {i : ℕ} {a : ReadAdmission}
    {answer : Except ReadError Unit} (ha : call.admissions[i]? = some a)
    (hanswer : answer = .ok () → SavedBy s call a.token.eventId)
    (hs : call.finalized env i answer = some call') : Keeps env home s c call call' := by
  unfold Call.finalized at hs
  split at hs
  · next j deadline result hpc hresult =>
    have hlen : call.completions.length = j + 1 := by
      have hlen := h.lengths
      rwa [hpc] at hlen
    split at hs
    · cases hs
    · next hij =>
      have hij : i = j := not_not.mp hij
      subst hij
      cases answer with
      | error e =>
        simp only at hs
        split at hs
        · cases hs
          exact ⟨h.giveUp, id⟩
        · cases hs
          exact ⟨h, id⟩
      | ok u =>
        cases hs
        -- the events before `i` were saved already, and the one at `i` is saved now
        have hsaved : ∀ {j : ℕ} {b : ReadAdmission}, j < i + 1 → call.admissions[j]? = some b →
            SavedBy s call b.token.eventId := by
          intro j b hj hb
          rcases Nat.lt_succ_iff_lt_or_eq.mp hj with hlt | rfl
          · exact h.saved (by rwa [hpc]) hb
          · rw [ha, Option.some.injEq] at hb
            exact hb ▸ hanswer rfl
        refine ⟨⟨h.home, h.tokens, h.completions, ?_, ?_, ?_⟩, id⟩
        · simp only [Call.setPc]
          split
          · exact hlen
          · trivial
        · intro j b hj hb
          simp only [Call.setPc] at hj hb
          split at hj
          · exact hsaved hj hb
          · next hlast =>
            have hlt : j < call.admissions.length := (List.getElem?_eq_some_iff.mp hb).1
            exact hsaved (by omega) hb
        · intro v hv
          simp only [Call.setPc] at hv
          split at hv
          · cases hv
          · rw [Pc.returned.injEq] at hv
            exact ⟨result, hresult, hv⟩
  · cases hs

end CallInv

end Calls

end Tack.AuditRead

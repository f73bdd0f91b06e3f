import Tack.Audit.ReadManifest
import Tack.Audit.RowHash

/-!
# Row hashes are tamper evident

Two rows that the check accepts under one hash agree in everything the hash covers, whatever their
versions, previous hashes and remainders are.

The previous hash has no frame of its own.  What keeps it apart from the payload is the shape of the
canonical payload: it has no zero byte, while its length starts with one, and it starts with a brace
that none of the seven bytes after it repeats.

## Main definitions

* `Audit.SameEvidence` — what two rows with one hash agree in.

## Main results

* `Audit.HasPayload.preimage_eq` — the hashed bytes determine the previous hash and the payload.
* `Audit.rows_agree` — accepted rows with one hash agree.
-/

namespace Tack.Audit

open Lib Lib.Json

/-! ### The payload -/

variable {input : RowHashInput} {ms : Members}

/-- The payload of each version. -/
theorem rowHashPayload_eq_some (h : rowHashPayload input = some ms) : ∃ context delta,
      rawJson input.contextJSON = some context ∧ rawJson input.deltaJSON = some delta ∧
      ((input.version = auditHashVersion1 ∧ ms = rowHashPayloadV1 input context delta) ∨
        ∃ extra, rawJson input.event.extra = some extra ∧
          ((input.version = auditHashVersion2 ∧
              ms = rowHashPayloadV1 input context delta ++ rowHashPayloadV2 input extra) ∨
            (input.version = auditHashVersion3 ∧
              ms = rowHashPayloadV1 input context delta ++ rowHashPayloadV2 input extra ++
                rowHashPayloadV3 input))) := by
  unfold rowHashPayload at h
  obtain ⟨context, hcontext, h⟩ := Option.bind_eq_some_iff.mp h
  obtain ⟨delta, hdelta, h⟩ := Option.bind_eq_some_iff.mp h
  refine ⟨context, delta, hcontext, hdelta, ?_⟩
  simp only at h
  split at h
  · next hv =>
    cases h
    exact .inl ⟨hv, rfl⟩
  · obtain ⟨extra, hextra, h⟩ := Option.bind_eq_some_iff.mp h
    split_ifs at h with hv2 hv3
    · cases h
      exact .inr ⟨extra, hextra, .inl ⟨hv2, rfl⟩⟩
    · cases h
      exact .inr ⟨extra, hextra, .inr ⟨hv3, rfl⟩⟩

/-- The names of a payload of version 3; those of the earlier versions come first. -/
def rowHashNames : List String :=
  ["org_id", "shard", "seq", "event_id", "event_time", "actor_id", "actor_kind", "action",
    "entity_kind", "entity_id", "pii_ref", "context", "delta", "idempotency", "outcome", "error",
    "extra", "hash_version"]

theorem nodup_rowHashNames : rowHashNames.Nodup := by decide

theorem rowHashPayload_names (h : rowHashPayload input = some ms) :
    ∃ n, ms.map Prod.fst = rowHashNames.take n ∧ (input.version = auditHashVersion1 ∧ n = 14 ∨
      input.version = auditHashVersion2 ∧ n = 17 ∨ input.version = auditHashVersion3 ∧ n = 18) := by
  obtain ⟨context, delta, -, -, ⟨hv, rfl⟩ | ⟨extra, -, ⟨hv, rfl⟩ | ⟨hv, rfl⟩⟩⟩ :=
    rowHashPayload_eq_some h
  · exact ⟨14, rfl, .inl ⟨hv, rfl⟩⟩
  · exact ⟨17, rfl, .inr (.inl ⟨hv, rfl⟩)⟩
  · exact ⟨18, rfl, .inr (.inr ⟨hv, rfl⟩)⟩

/-! ### The frame of the payload -/

/-- The bytes that a canonical payload starts with. -/
def payloadMark : Bytes := utf8 "\x7b\"action".toList

/-- A payload and its canonical form. -/
structure HasPayload (input : RowHashInput) (ms : Members) (c : Json) : Prop where
  payload : rowHashPayload input = some ms
  canonical : canonical (.obj ms) = some c

namespace HasPayload

variable {input' : RowHashInput} {ms' : Members} {c c' : Json} {name : String}

theorem nodup (h : HasPayload input ms c) : (ms.map Prod.fst).Nodup := by
  obtain ⟨n, hn, -⟩ := rowHashPayload_names h.payload
  rw [hn]
  exact nodup_rowHashNames.sublist (List.take_sublist n _)

/-- The canonical bytes of a payload can be told from what stands before them. -/
theorem framed (h : HasPayload input ms c) (hlen : (marshal c).length < maxSliceBytes) :
    Framed payloadMark (marshal c) := by
  obtain ⟨n, hnames, hn⟩ := rowHashPayload_names h.payload
  refine ⟨?_, ?_, lt_trans hlen (by decide)⟩
  · -- `action` is the least name
    have hmem : "action" ∈ ms.map Prod.fst := by
      rw [hnames]
      exact List.take_subset_take_left rowHashNames (by omega : 14 ≤ n) (by decide)
    obtain ⟨⟨name, j⟩, hj, hname⟩ := List.mem_map.mp hmem
    simp only at hname
    subst hname
    have hleast : ∀ m ∈ ms.map Prod.fst, "action" ≤ m := by
      intro m hm
      rw [hnames] at hm
      exact (by decide : ∀ m ∈ rowHashNames, "action" ≤ m) m (List.mem_of_mem_take hm)
    obtain ⟨v, rest, rfl⟩ := canonical_obj_least h.canonical (lastMember_of_nodup h.nodup hj) hleast
    have hstart : "\x7b\"action".toList <+: render (.obj (("action", v) :: rest)) := by
      cases rest with
      | nil => exact ⟨_, rfl⟩
      | cons m rest => exact ⟨_, rfl⟩
    obtain ⟨rest', hrest'⟩ := hstart
    exact ⟨utf8 rest', by rw [payloadMark, marshal, ← hrest', utf8_append]⟩
  · exact zero_notMem_utf8 fun ch hch => lt_of_lt_of_le (by decide) (printable_render c ch hch)

/-- **The hashed bytes determine the previous hash and the payload.** -/
theorem preimage_eq {prev prev' : Bytes} (h : HasPayload input ms c) (h' : HasPayload input' ms' c')
    (hlen : (marshal c).length < maxSliceBytes) (hlen' : (marshal c').length < maxSliceBytes)
    (heq : rowPreimage prev (marshal c) = rowPreimage prev' (marshal c')) :
    prev = prev' ∧ c = c' := by
  obtain ⟨hprev, hbytes⟩ := Framed.injective (b := payloadMark.headD 0) (w := payloadMark.tail)
    (by decide) (by decide) (h.framed hlen) (h'.framed hlen') heq
  exact ⟨hprev, render_injective (utf8_injective hbytes)⟩

/-! ### Payloads that agree -/

/-- Members of one name agree. -/
theorem member_eq (h : HasPayload input ms c) (h' : HasPayload input' ms' c) {j j' : Json}
    (hj : (name, j) ∈ ms) (hj' : (name, j') ∈ ms') :
    ∃ d, Json.canonical j = some d ∧ Json.canonical j' = some d := by
  have hlast := lastMember_of_nodup h.nodup hj
  obtain ⟨d, hd⟩ := canonical_lastMember h.canonical hlast
  have heq := (canonical_obj_eq_iff h.canonical h'.canonical).mp rfl name
  rw [hlast, lastMember_of_nodup h'.nodup hj', Option.map_some, Option.map_some,
    Option.some.injEq] at heq
  exact ⟨d, hd, heq ▸ hd⟩

/-- Texts of one name are equal. -/
theorem text_eq (h : HasPayload input ms c) (h' : HasPayload input' ms' c) {s s' : String}
    (hs : (name, .str s) ∈ ms) (hs' : (name, .str s') ∈ ms') : s = s' := by
  obtain ⟨d, hd, hd'⟩ := h.member_eq h' hs hs'
  rw [Json.canonical, Option.some.injEq] at hd hd'
  rw [← hd', str.injEq] at hd
  exact hd

/-- Integers of one name read as one number. -/
theorem int_eq (h : HasPayload input ms c) (h' : HasPayload input' ms' c) {n n' : ℤ}
    (hn : (name, intJson n) ∈ ms) (hn' : (name, intJson n') ∈ ms') :
    (NumLit.ofInt n).toFloat = (NumLit.ofInt n').toFloat := by
  obtain ⟨d, hd, hd'⟩ := h.member_eq h' hn hn'
  exact toFloat_ofInt_of_canonical hd hd'

/-- A name that one payload has, the other has. -/
theorem names_subset (h : HasPayload input ms c) (h' : HasPayload input' ms' c) :
    ms.map Prod.fst ⊆ ms'.map Prod.fst := by
  intro name hname
  obtain ⟨⟨n, j⟩, hj, rfl⟩ := List.mem_map.mp hname
  have heq := (canonical_obj_eq_iff h.canonical h'.canonical).mp rfl n
  rw [lastMember_of_nodup h.nodup hj] at heq
  by_contra hnot
  rw [lastMember_eq_none fun m hm hn => hnot (List.mem_map.mpr ⟨m, hm, hn⟩)] at heq
  cases heq

/-- The payload shows its version by the number of its names. -/
theorem version_eq (h : HasPayload input ms c) (h' : HasPayload input' ms' c) :
    input.version = input'.version := by
  have hle := (h.nodup.subperm (h.names_subset h')).length_le
  have hge := (h'.nodup.subperm (h'.names_subset h)).length_le
  obtain ⟨n, hn, hv⟩ := rowHashPayload_names h.payload
  obtain ⟨n', hn', hv'⟩ := rowHashPayload_names h'.payload
  have hlength : rowHashNames.length = 18 := rfl
  simp only [hn, hn', List.length_take, hlength] at hle hge
  rcases hv with ⟨hv, rfl⟩ | ⟨hv, rfl⟩ | ⟨hv, rfl⟩ <;>
    rcases hv' with ⟨hv', rfl⟩ | ⟨hv', rfl⟩ | ⟨hv', rfl⟩ <;> first | exact hv.trans hv'.symm | omega

end HasPayload

/-! ### Accepted rows -/

section Accepted

variable {sum : Bytes → Bytes} {json : JsonReader} {row row' : Row}

/-- The hash input of a row with a time, a context and a delta. -/
def rowInput (row : Row) (t : Time) (context delta : Json) : RowHashInput where
  event := { exportEvent row with occurredAt := t }
  eventId := row.eventId
  shard := row.shard
  seq := row.seq
  piiRef := row.piiRef.getD .nil
  contextJSON := marshal context
  deltaJSON := marshal delta
  lastHash := row.prevHash
  version := row.hashVersion

/-- The inputs that the check of a row may hash: version 3 at its time, with the context as it is or
with the zero token ID restored, and an early version at the remainders of a microsecond. -/
def checkedInputs (row : Row) : List RowHashInput :=
  if row.hashVersion = auditHashVersion3 then
    (rowHashInputFor row).toList ++
      if row.context.apiTokenId = .nil then
        (rowHashInputWith row row.context.toJsonWithZeroTokenId).toList
      else []
  else (List.range legacyNanosecondCandidates).filterMap fun remainder =>
    (rowHashInputFor row).map (·.at (row.eventTime.add remainder))

/-- The bytes that the check of a row may hash. -/
def checkedPreimages (row : Row) : List Bytes := (checkedInputs row).filterMap inputPreimage

section Members

variable {row : Row} {t : Time} {context delta c : Json} {ms : Members}

/-- The members of version 1 stand at their places in every payload. -/
theorem HasPayload.mem (h : HasPayload (rowInput row t context delta) ms c) {i : ℕ} {m : String × Json}
    (hm : (rowHashPayloadV1 (rowInput row t context delta) context delta)[i]? = some m) : m ∈ ms := by
  obtain ⟨context', delta', hc', hd', hms⟩ := rowHashPayload_eq_some h.payload
  cases (rawJson_marshal context).symm.trans hc'
  cases (rawJson_marshal delta).symm.trans hd'
  have hm := List.mem_of_getElem? hm
  rcases hms with ⟨-, rfl⟩ | ⟨extra, -, ⟨-, rfl⟩ | ⟨-, rfl⟩⟩
  · exact hm
  · exact List.mem_append_left _ hm
  · exact List.mem_append_left _ (List.mem_append_left _ hm)

/-- And those of version 2 in every later one. -/
theorem HasPayload.mem_later (h : HasPayload (rowInput row t context delta) ms c)
    (hv : row.hashVersion ≠ auditHashVersion1) : ∃ extra, rawJson row.extra = some extra ∧
      ∀ {i : ℕ} {m : String × Json},
        (rowHashPayloadV2 (rowInput row t context delta) extra)[i]? = some m → m ∈ ms := by
  obtain ⟨context, delta, -, -, ⟨hv1, -⟩ | ⟨extra, hextra, ⟨-, rfl⟩ | ⟨-, rfl⟩⟩⟩ :=
    rowHashPayload_eq_some h.payload
  · exact absurd hv1 hv
  · exact ⟨extra, hextra, fun hm => List.mem_append_right _ (List.mem_of_getElem? hm)⟩
  · exact ⟨extra, hextra, fun hm =>
      List.mem_append_left _ (List.mem_append_right _ (List.mem_of_getElem? hm))⟩

end Members

/-- How the check found the hash of a row. -/
structure HashedAs (sum : Bytes → Bytes) (row : Row) (t : Time) (context delta : Json) : Prop where
  checked : rowInput row t context delta ∈ checkedInputs row
  hash : hashRowForEvent sum (rowInput row t context delta) = some row.rowHash
  delta : Delta.toJson row.delta = some delta
  context : row.context.toJson = some context ∨
    row.context.apiTokenId = .nil ∧ row.context.toJsonWithZeroTokenId = some context
  /-- An early version is tried at the remainders of a microsecond, and version 3 at its time. -/
  time : t = row.eventTime ∧ row.hashVersion = auditHashVersion3 ∨
    row.hashVersion ≠ auditHashVersion3 ∧ row.eventTime.nanosecond % 1000 = 0 ∧
      ∃ remainder : ℕ, remainder < 1000 ∧ t = row.eventTime.add remainder

variable {input : RowHashInput} {context context' delta delta' : Json} {t t' : Time}

theorem tryRemainders_accepted {n start : ℕ} (h : tryRemainders sum row input n start = some .accepted) :
    ∃ remainder < start + n,
      hashRowForEvent sum (input.at (row.eventTime.add remainder)) = some row.rowHash := by
  induction n generalizing start with
  | zero => cases h
  | succ n ih =>
    rw [tryRemainders] at h
    obtain ⟨expected, hexpected, h⟩ := Option.bind_eq_some_iff.mp h
    split at h
    · next heq =>
      subst heq
      exact ⟨start, by omega, hexpected⟩
    · obtain ⟨remainder, hlt, hhash⟩ := ih h
      exact ⟨remainder, by omega, hhash⟩

theorem rowHashInputWith_eq_some {context : Option Json}
    (h : rowHashInputWith row context = some input) : ∃ context' delta,
      context = some context' ∧ Delta.toJson row.delta = some delta ∧
      input = rowInput row row.eventTime context' delta := by
  obtain ⟨context', hcontext, h⟩ := Option.bind_eq_some_iff.mp h
  obtain ⟨delta, hdelta, rfl⟩ := Option.map_eq_some_iff.mp h
  exact ⟨context', delta, hcontext, hdelta, rfl⟩

/-- **An accepted row was hashed** at its time, or at a remainder of it, with its context as it is or
with the zero token ID restored. -/
theorem checkRowHash_accepted (h : checkRowHash sum json row = some .accepted) :
    ∃ t context delta, HashedAs sum row t context delta := by
  unfold checkRowHash at h
  split at h
  · cases h
  next hrange =>
  split at h
  · cases h
  next hmicro =>
  split at h
  · cases h
  split at h
  next hlegacy =>
    obtain ⟨input, hinput, htry⟩ := Option.bind_eq_some_iff.mp h
    obtain ⟨remainder, hlt, hhash⟩ := tryRemainders_accepted htry
    obtain ⟨context, delta, hcontext, hdelta, rfl⟩ := rowHashInputWith_eq_some hinput
    have hlt : remainder < legacyNanosecondCandidates := by simpa using hlt
    have hne : row.hashVersion ≠ auditHashVersion3 := fun heq => absurd (heq ▸ hlegacy) (by decide)
    refine ⟨_, context, delta, ?_, hhash, hdelta, .inl hcontext, .inr ⟨hne, ?_, remainder, hlt, rfl⟩⟩
    · rw [checkedInputs, if_neg hne]
      exact List.mem_filterMap.mpr ⟨remainder, List.mem_range.mpr hlt, by rw [hinput]; rfl⟩
    · by_contra hne
      exact hmicro ⟨hlegacy, hne⟩
  next hcurrent =>
    have hversion : row.hashVersion = auditHashVersion3 := by
      have hle : ¬ row.hashVersion > auditHashVersion3 := fun hgt => hrange (.inr hgt)
      rw [gt_iff_lt, Int16.lt_iff_toInt_lt] at hle
      rw [Int16.lt_iff_toInt_lt] at hcurrent
      exact Int16.toInt_inj.mp (by omega)
    obtain ⟨expected, hexpected, h⟩ := Option.bind_eq_some_iff.mp h
    split at h
    · next heq =>
      subst heq
      obtain ⟨input, hinput, hhash⟩ := Option.bind_eq_some_iff.mp hexpected
      obtain ⟨context, delta, hcontext, hdelta, rfl⟩ := rowHashInputWith_eq_some hinput
      refine ⟨_, context, delta, ?_, hhash, hdelta, .inl hcontext, .inl ⟨rfl, hversion⟩⟩
      simp [checkedInputs, hversion, hinput]
    unfold checkZeroTokenIdRowHash at h
    split at h
    · cases h
    next hnil =>
    obtain ⟨-, -, h⟩ := Option.bind_eq_some_iff.mp h
    obtain ⟨input, hinput, h⟩ := Option.bind_eq_some_iff.mp h
    obtain ⟨expected', hhash, hverdict⟩ := Option.map_eq_some_iff.mp h
    obtain ⟨context, delta, hcontext, hdelta, rfl⟩ := rowHashInputWith_eq_some hinput
    split at hverdict
    · next heq =>
      subst heq
      have hnil := not_not.mp hnil
      refine ⟨_, context, delta, ?_, hhash, hdelta, .inr ⟨hnil, hcontext⟩, .inl ⟨rfl, hversion⟩⟩
      simp [checkedInputs, hversion, hnil, hinput]
    · cases hverdict

/-- The number that the canonical JSON of a sequence reads as. -/
def seqNumber (seq : Int64) : Option Float64 := (NumLit.ofInt seq.toInt).toFloat

/-- One canonical form of two values. -/
def SameCanonical (a b : Option Json) : Prop :=
  ∃ c, a.bind canonical = some c ∧ b.bind canonical = some c

/-- **What two accepted rows with one hash agree in.** -/
structure SameEvidence (row row' : Row) : Prop where
  hashVersion : row.hashVersion = row'.hashVersion
  prevHash : row.prevHash = row'.prevHash
  orgId : row.orgId = row'.orgId
  shard : row.shard = row'.shard
  /-- Sequences are hashed as binary64 numbers. -/
  seq : seqNumber row.seq = seqNumber row'.seq
  seq_exact : row.seq.toInt.natAbs ≤ 2 ^ 53 → row'.seq.toInt.natAbs ≤ 2 ^ 53 → row.seq = row'.seq
  eventId : row.eventId = row'.eventId
  eventTime : (row.eventTime.truncate Time.microsecond).nanos =
    (row'.eventTime.truncate Time.microsecond).nanos
  actorId : row.actorId = row'.actorId
  /-- The codes of no actor type are hashed alike. -/
  actorKind : actorTypeFromCode row.actorKind = actorTypeFromCode row'.actorKind
  actorKind_exact : actorTypeFromCode row.actorKind ≠ "" → row.actorKind = row'.actorKind
  action : row.action = row'.action
  entityKind : row.entityKind = row'.entityKind
  entityId : row.entityId = row'.entityId
  /-- No reference and the nil reference are one. -/
  piiRef : row.piiRef.getD .nil = row'.piiRef.getD .nil
  idempotencyKey : row.idempotencyKey = row'.idempotencyKey
  context : SameCanonical row.context.toJson row'.context.toJson
  delta : SameCanonical (Delta.toJson row.delta) (Delta.toJson row'.delta)
  outcome : row.hashVersion ≠ auditHashVersion1 → row.outcome = row'.outcome
  error : row.hashVersion ≠ auditHashVersion1 → row.error = row'.error
  extra : row.hashVersion ≠ auditHashVersion1 → SameCanonical (rawJson row.extra) (rawJson row'.extra)

theorem inputPreimage_eq_some {x : Bytes} (h : inputPreimage input = some x) :
    ∃ ms c, HasPayload input ms c ∧ (marshal c).length < maxSliceBytes ∧
      x = rowPreimage input.lastHash (marshal c) := by
  obtain ⟨ms, hms, h⟩ := Option.bind_eq_some_iff.mp h
  obtain ⟨bytes, hbytes, h⟩ := Option.bind_eq_some_iff.mp h
  obtain ⟨c, hc, rfl⟩ := Option.map_eq_some_iff.mp hbytes
  split_ifs at h with hlen
  cases h
  exact ⟨ms, c, ⟨hms, hc⟩, hlen, rfl⟩

/-- Shards are small enough to be exact. -/
theorem shard_eq_of_toFloat {a b : Int16}
    (h : (NumLit.ofInt a.toInt).toFloat = (NumLit.ofInt b.toInt).toFloat) : a = b := by
  have hsmall : ∀ a : Int16, a.toInt.natAbs ≤ 2 ^ 53 := by
    intro a
    have hlt := a.toInt_lt
    have hle := a.le_toInt
    omega
  obtain ⟨x, hx⟩ := exists_toFloat_ofInt (le_trans (hsmall a) (by decide))
  exact Int16.toInt_inj.mp (toFloat_ofInt_injOn (hsmall a) (hsmall b) hx (h ▸ hx))

theorem seq_eq_of_seqNumber {a b : Int64} (ha : a.toInt.natAbs ≤ 2 ^ 53)
    (hb : b.toInt.natAbs ≤ 2 ^ 53) (h : seqNumber a = seqNumber b) : a = b := by
  obtain ⟨x, hx⟩ := exists_toFloat_ofInt (le_trans ha (by decide))
  exact Int64.toInt_inj.mp (toFloat_ofInt_injOn ha hb hx (h.symm.trans hx))

/-- An actor type has one code. -/
theorem actorKind_eq_of_type {a b : Int16} (ha : actorTypeFromCode a ≠ "")
    (h : actorTypeFromCode a = actorTypeFromCode b) : a = b := by
  -- both codes are found at the one place of the type in the list of types
  have hcode : ∀ c : Int16, actorTypeFromCode c ≠ "" → c ∈ ([1, 2, 3, 4, 5, 6] : List Int16) := by
    intro c hc
    by_contra hnot
    simp only [List.mem_cons, List.not_mem_nil, or_false, not_or] at hnot
    obtain ⟨h1, h2, h3, h4, h5, h6⟩ := hnot
    exact hc (by simp only [actorTypeFromCode, h1, h2, h3, h4, h5, h6, if_false])
  have hinj : ([1, 2, 3, 4, 5, 6] : List Int16).all (fun a => ([1, 2, 3, 4, 5, 6] : List Int16).all
      fun b => actorTypeFromCode a != actorTypeFromCode b || a == b) = true := by decide
  have hab := List.all_eq_true.mp (List.all_eq_true.mp hinj a (hcode a ha)) b (hcode b (h ▸ ha))
  simpa [h] using hab

theorem error_eq_of_canonical {e e' : Option EventError} {d : Json}
    (h : canonical (EventError.toJson e) = some d) (h' : canonical (EventError.toJson e') = some d) :
    e = e' := by
  have hobj : ∀ (e : EventError) {d : Json}, canonical (EventError.toJson (some e)) = some d →
      d ≠ .null := by
    intro e d hd hnull
    rw [EventError.toJson, canonical] at hd
    obtain ⟨ms, -, rfl⟩ := Option.map_eq_some_iff.mp hd
    cases hnull
  cases e with
  | none =>
    cases h
    cases e' with
    | none => rfl
    | some e' => exact absurd rfl (hobj e' h')
  | some e =>
    cases e' with
    | none =>
      cases h'
      exact absurd rfl (hobj e h)
    | some e' =>
      have heq := (canonical_obj_eq_iff h h').mp rfl
      have hcode := heq "code"
      have hmessage := heq "message"
      simp only [textMember, List.cons_append, List.nil_append, lastMember, Option.map_some,
        canonical, Option.some.injEq, str.injEq, String.reduceEq, if_true, if_false] at hcode hmessage
      cases e
      cases e'
      simp_all

/-- The time of a row is that of its hash at microsecond precision. -/
theorem eventTime_eq (h : HashedAs sum row t context delta) (h' : HashedAs sum row' t' context' delta')
    (hversion : row.hashVersion = row'.hashVersion)
    (htext : (rowInput row t context delta).eventTime = (rowInput row' t' context' delta').eventTime) :
    (row.eventTime.truncate Time.microsecond).nanos =
      (row'.eventTime.truncate Time.microsecond).nanos := by
  rcases h.time with ⟨rfl, hv⟩ | ⟨hv, hmicro, remainder, hlt, rfl⟩
  · have hv' : row'.hashVersion = auditHashVersion3 := hversion ▸ hv
    rw [RowHashInput.eventTime_of_eq hv, RowHashInput.eventTime_of_eq hv'] at htext
    rcases h'.time with ⟨rfl, -⟩ | ⟨hne, -⟩
    · have hnanos := Time.rfc3339Nano_utc_injective rfl rfl htext
      exact hnanos
    · exact absurd hv' hne
  · have hv' : row'.hashVersion ≠ auditHashVersion3 := hversion ▸ hv
    rw [RowHashInput.eventTime_of_ne hv, RowHashInput.eventTime_of_ne hv'] at htext
    rcases h'.time with ⟨-, heq⟩ | ⟨-, hmicro', remainder', hlt', rfl⟩
    · exact absurd heq hv'
    · have hnanos := Time.rfc3339Nano_utc_injective rfl rfl htext
      simp only [Time.utc, Time.add, rowInput] at hnanos
      simp only [Time.nanosecond, Time.second, Time.millisecond, Time.microsecond] at hmicro hmicro'
      simp only [Time.truncate, Time.microsecond]
      omega

/-- The contexts of rows that were hashed alike agree. -/
theorem context_eq {d : Json} (h : HashedAs sum row t context delta) (h' : HashedAs sum row' t' context' delta')
    (hd : canonical context = some d) (hd' : canonical context' = some d) :
    SameCanonical row.context.toJson row'.context.toJson := by
  rcases h.context with hc | ⟨hnil, hc⟩ <;> rcases h'.context with hc' | ⟨hnil', hc'⟩
  · exact ⟨d, by rw [hc, Option.bind_some, hd], by rw [hc', Option.bind_some, hd']⟩
  · exact absurd hd' (canonical_toJson_ne_zeroTokenId hc hc' hd)
  · exact absurd hd (canonical_toJson_ne_zeroTokenId hc' hc hd')
  · exact canonical_context_of_zeroTokenId hnil hnil' hc hc' hd hd'

theorem sameEvidence_of_accepted
    (hsum : ∀ x ∈ checkedPreimages row, ∀ y ∈ checkedPreimages row', sum x = sum y → x = y)
    (haccepted : checkRowHash sum json row = some .accepted)
    (haccepted' : checkRowHash sum json row' = some .accepted) (hrow : row.rowHash = row'.rowHash) :
    SameEvidence row row' := by
  obtain ⟨t, context, delta, h⟩ := checkRowHash_accepted haccepted
  obtain ⟨t', context', delta', h'⟩ := checkRowHash_accepted haccepted'
  obtain ⟨x, hx, hhash⟩ := Option.map_eq_some_iff.mp (hashRowForEvent_eq sum _ ▸ h.hash)
  obtain ⟨y, hy, hhash'⟩ := Option.map_eq_some_iff.mp (hashRowForEvent_eq sum _ ▸ h'.hash)
  have hpre : x = y := hsum x (List.mem_filterMap.mpr ⟨_, h.checked, hx⟩) y
    (List.mem_filterMap.mpr ⟨_, h'.checked, hy⟩) (hhash.trans (hrow.trans hhash'.symm))
  obtain ⟨ms, c, hp, hlen, rfl⟩ := inputPreimage_eq_some hx
  obtain ⟨ms', c', hp', hlen', rfl⟩ := inputPreimage_eq_some hy
  obtain ⟨hprev, rfl⟩ := hp.preimage_eq hp' hlen hlen' hpre
  have hversion : row.hashVersion = row'.hashVersion := hp.version_eq hp'
  have htext : ∀ (i : ℕ) {name s s' : String},
      (rowHashPayloadV1 (rowInput row t context delta) context delta)[i]? = some (name, .str s) →
      (rowHashPayloadV1 (rowInput row' t' context' delta') context' delta')[i]? =
        some (name, .str s') → s = s' :=
    fun i _ _ _ hi hi' => hp.text_eq hp' (hp.mem hi) (hp'.mem hi')
  have hint : ∀ (i : ℕ) {name : String} {n n' : ℤ},
      (rowHashPayloadV1 (rowInput row t context delta) context delta)[i]? = some (name, intJson n) →
      (rowHashPayloadV1 (rowInput row' t' context' delta') context' delta')[i]? =
        some (name, intJson n') → (NumLit.ofInt n).toFloat = (NumLit.ofInt n').toFloat :=
    fun i _ _ _ hi hi' => hp.int_eq hp' (hp.mem hi) (hp'.mem hi')
  obtain ⟨dc, hdc, hdc'⟩ := hp.member_eq hp' (hp.mem (i := 11) rfl) (hp'.mem (i := 11) rfl)
  obtain ⟨dd, hdd, hdd'⟩ := hp.member_eq hp' (hp.mem (i := 12) rfl) (hp'.mem (i := 12) rfl)
  have hlater : row.hashVersion ≠ auditHashVersion1 → row.outcome = row'.outcome ∧
      row.error = row'.error ∧ SameCanonical (rawJson row.extra) (rawJson row'.extra) := by
    intro hv
    obtain ⟨extra, hextra, hat⟩ := hp.mem_later hv
    obtain ⟨extra', hextra', hat'⟩ := hp'.mem_later (hversion ▸ hv)
    obtain ⟨de, hde, hde'⟩ := hp.member_eq hp' (hat (i := 1) rfl) (hat' (i := 1) rfl)
    obtain ⟨dx, hdx, hdx'⟩ := hp.member_eq hp' (hat (i := 2) rfl) (hat' (i := 2) rfl)
    exact ⟨hp.text_eq hp' (hat (i := 0) rfl) (hat' (i := 0) rfl), error_eq_of_canonical hde hde',
      dx, (congrArg (Option.bind · canonical) hextra).trans hdx,
      (congrArg (Option.bind · canonical) hextra').trans hdx'⟩
  exact {
    hashVersion := hversion
    prevHash := hprev
    orgId := UUID.text_injective (htext 0 rfl rfl)
    shard := shard_eq_of_toFloat (hint 1 rfl rfl)
    seq := hint 2 rfl rfl
    seq_exact := fun hs hs' => seq_eq_of_seqNumber hs hs' (hint 2 rfl rfl)
    eventId := UUID.text_injective (htext 3 rfl rfl)
    eventTime := eventTime_eq h h' hversion (htext 4 rfl rfl)
    actorId := UUID.text_injective (htext 5 rfl rfl)
    actorKind := htext 6 rfl rfl
    actorKind_exact := fun hknown => actorKind_eq_of_type hknown (htext 6 rfl rfl)
    action := htext 7 rfl rfl
    entityKind := htext 8 rfl rfl
    entityId := UUID.text_injective (htext 9 rfl rfl)
    piiRef := UUID.text_injective (htext 10 rfl rfl)
    idempotencyKey := htext 13 rfl rfl
    context := context_eq h h' hdc hdc'
    delta := ⟨dd, by rw [h.delta, Option.bind_some, hdd], by rw [h'.delta, Option.bind_some, hdd']⟩
    outcome := fun hv => (hlater hv).1
    error := fun hv => (hlater hv).2.1
    extra := fun hv => (hlater hv).2.2 }

/-- **Row hashes are tamper evident.**  Accepted rows with one hash agree in everything the hash
covers, a row of version 3 is not accepted under an early version, and the hashed bytes determine the
previous hash, of whatever length, and the payload.  The hash need only keep apart what the checks of
the two rows hash. -/
theorem rows_agree (sum : Bytes → Bytes) (json : JsonReader) :
    (∀ row row',
      (∀ x ∈ checkedPreimages row, ∀ y ∈ checkedPreimages row', sum x = sum y → x = y) →
      checkRowHash sum json row = some .accepted → checkRowHash sum json row' = some .accepted →
      row.rowHash = row'.rowHash → SameEvidence row row') ∧
    (∀ row row',
      (∀ x ∈ checkedPreimages row, ∀ y ∈ checkedPreimages row', sum x = sum y → x = y) →
      checkRowHash sum json row = some .accepted →
      row.hashVersion = auditHashVersion3 → row'.rowHash = row.rowHash →
      row'.hashVersion = auditHashVersion1 ∨ row'.hashVersion = auditHashVersion2 →
        checkRowHash sum json row' ≠ some .accepted) ∧
    (∀ input input' payload payload' canonical canonical' prev prev',
      rowHashPayload input = some payload → rowHashPayload input' = some payload' →
      canonicalJSON (.obj payload) = some canonical →
      canonicalJSON (.obj payload') = some canonical' →
      canonical.length < maxSliceBytes → canonical'.length < maxSliceBytes →
      rowPreimage prev canonical = rowPreimage prev' canonical' →
        prev = prev' ∧ canonical = canonical') := by
  refine ⟨fun row row' => sameEvidence_of_accepted, ?_, ?_⟩
  · intro row row' hsum h hv hrow hearly h'
    have hversion := (sameEvidence_of_accepted hsum h h' hrow.symm).hashVersion
    rw [← hversion, hv] at hearly
    exact absurd hearly (by decide)
  · intro input input' payload payload' canonical canonical' prev prev' h h' hc hc' hlen hlen' heq
    obtain ⟨c, hcanonical, rfl⟩ := Option.map_eq_some_iff.mp hc
    obtain ⟨c', hcanonical', rfl⟩ := Option.map_eq_some_iff.mp hc'
    obtain ⟨hprev, rfl⟩ := HasPayload.preimage_eq ⟨h, hcanonical⟩ ⟨h', hcanonical'⟩ hlen hlen' heq
    exact ⟨hprev, rfl⟩

end Accepted

/-! ### Rows that the check does not tell apart -/

section Edited

variable {sum : Bytes → Bytes} {json : JsonReader} {row : Row}

/-- A row of format 0 and version 3 whose hash is the one computed is accepted. -/
theorem checkRowHash_of_computed (hversion : row.hashVersion = auditHashVersion3)
    (hformat : row.context.auditFormatVersion = auditFormatLegacy)
    (h : computeRowHash sum row = some row.rowHash) :
    checkRowHash sum json row = some .accepted := by
  have hrange : ¬ (auditHashVersion3 < auditHashVersion1 ∨
      auditHashVersion3 > auditHashVersionCurrent) := by decide
  have hlt : ¬ auditHashVersion3 < auditHashVersion3 := by decide
  rw [checkRowHash, hversion, if_neg hrange, if_neg fun hv => hlt hv.1, contractViolation,
    if_pos hformat]
  simp only [hlt, if_false, h, Option.bind_some, if_true]

/-- A row of a format 0 event with an actor of no known type. -/
def storedRow : Row where
  orgId := 1
  eventTime := .zero
  eventId := 2
  seq := 9007199254740993
  shard := 0
  actorId := 4
  actorKind := 0
  action := "node.updated"
  outcome := .ok
  entityKind := "node"
  entityId := 5
  context := { (default : EventContext) with apiTokenId := 9 }
  delta := none
  error := none
  extra := utf8 ['0']
  piiRef := none
  prevHash := []
  rowHash := []
  hashVersion := auditHashVersion3
  idempotencyKey := ""
  manifestParts := []

/-- The row with another sequence, actor code, reference and spelling of the extra value. -/
def editedRow : Row :=
  { storedRow with
    seq := 9007199254740992
    actorKind := 7
    piiRef := some .nil
    extra := utf8 [' ', '0'] }

/-- The context of both rows. -/
def plainContext : Json :=
  .obj [("org_id", .str UUID.nil.text), ("workspace_id", .str UUID.nil.text),
    ("scope_id", .str UUID.nil.text), ("parent_id", .str UUID.nil.text), ("source", .str ""),
    ("api_token_id", .str (9 : UUID).text)]

theorem small_plainContext : Small 4001 plainContext := by
  have hsource : Small 218 (.str "") := small_str (by decide : "".toList.length ≤ 36)
  have h : Small (6 * (6 * 12 + 218 + 4) + 2) plainContext := by
    refine small_obj ?_
    simp only [List.forall_mem_cons, List.not_mem_nil, false_imp_iff, implies_true, and_true]
    exact ⟨⟨by decide, small_uuid _⟩, ⟨by decide, small_uuid _⟩, ⟨by decide, small_uuid _⟩,
      ⟨by decide, small_uuid _⟩, ⟨by decide, hsource⟩, by decide, small_uuid _⟩
  exact h.mono (by decide)

/-- The input of either row. -/
def plainInput (row : Row) : RowHashInput := rowInput row .zero plainContext .null

theorem rowHashInputFor_rows : rowHashInputFor storedRow = some (plainInput storedRow) ∧
    rowHashInputFor editedRow = some (plainInput editedRow) := ⟨rfl, rfl⟩

/-- Sequences beyond `2 ^ 53` are hashed as the nearest binary64 number. -/
theorem seqNumber_rows : seqNumber storedRow.seq = seqNumber editedRow.seq := by
  have hseq : storedRow.seq.toInt = 9007199254740993 := by decide
  have hseq' : editedRow.seq.toInt = 9007199254740992 := by decide
  have hrank : nearestRank ((9007199254740993 : ℤ).natAbs : ℕ) =
      nearestRank ((9007199254740992 : ℤ).natAbs : ℕ) := by decide +kernel
  rw [seqNumber, seqNumber, hseq, hseq', toFloat_ofInt, toFloat_ofInt, Float64.ofValue,
    Float64.ofValue]
  simp only [hrank]
  rfl

theorem rowHashPayload_plainInput {row : Row} (hversion : row.hashVersion = auditHashVersion3)
    (hextra : rawJson row.extra = some (intJson 0)) : rowHashPayload (plainInput row) =
      some (rowHashPayloadV1 (plainInput row) plainContext .null ++
        rowHashPayloadV2 (plainInput row) (intJson 0) ++ rowHashPayloadV3 (plainInput row)) :=
  rowHashPayload_current hversion (rawJson_marshal plainContext) (rawJson_marshal .null) hextra

/-- The checks of both rows hash the same bytes. -/
theorem inputPreimage_rows : inputPreimage (plainInput editedRow) = inputPreimage (plainInput storedRow) := by
  have hseq : canonical (intJson (plainInput editedRow).seq.toInt) =
      canonical (intJson (plainInput storedRow).seq.toInt) := by
    rw [intJson, intJson, canonical, canonical]
    exact congrArg _ seqNumber_rows.symm
  have hcanonical : canonicalJSON (.obj (rowHashPayloadV1 (plainInput editedRow) plainContext .null ++
        rowHashPayloadV2 (plainInput editedRow) (intJson 0) ++ rowHashPayloadV3 (plainInput editedRow))) =
      canonicalJSON (.obj (rowHashPayloadV1 (plainInput storedRow) plainContext .null ++
        rowHashPayloadV2 (plainInput storedRow) (intJson 0) ++ rowHashPayloadV3 (plainInput storedRow))) := by
    simp only [canonicalJSON, rowHashPayloadV1, rowHashPayloadV2, rowHashPayloadV3, List.cons_append,
      List.nil_append, canonical, canonicalMembers, hseq]
    rfl
  rw [inputPreimage, inputPreimage, rowHashPayload_plainInput rfl rfl, rowHashPayload_plainInput rfl rfl,
    Option.bind_some, Option.bind_some, hcanonical]
  rfl

/-- The checks of both rows hash the same bytes. -/
theorem exists_preimage : ∃ x, inputPreimage (plainInput storedRow) = some x ∧
    inputPreimage (plainInput editedRow) = some x := by
  have htime : (plainInput editedRow).eventTime = "0001-01-01T00:00:00Z" := by decide +kernel
  obtain ⟨x, hx⟩ : ∃ x, inputPreimage (plainInput editedRow) = some x := by
    refine exists_inputPreimage rfl (rawJson_marshal plainContext) (rawJson_marshal .null)
      (rfl : _ = some (intJson 0)) rfl ?_ ?_ (show (9007199254740992 : Int64).toInt.natAbs ≤ 2 ^ 53 by decide)
    · simp only [List.forall_mem_cons, List.not_mem_nil, false_imp_iff, implies_true, and_true]
      exact ⟨small_plainContext, small_null.mono (by decide), small_exactInt (by decide)⟩
    · rw [htime]
      change ∀ s ∈ ["0001-01-01T00:00:00Z", "", "node.updated", "node", "", "ok"], s.toList.length ≤ 36
      decide
  exact ⟨x, inputPreimage_rows ▸ hx, hx⟩

/-- Only one input is hashed for a row of version 3 that names a token. -/
theorem mem_checkedPreimages_plain {x : Bytes} (hversion : row.hashVersion = auditHashVersion3)
    (htoken : row.context.apiTokenId ≠ .nil) (hinput : rowHashInputFor row = some (plainInput row))
    (hx : x ∈ checkedPreimages row) : inputPreimage (plainInput row) = some x := by
  rw [checkedPreimages, checkedInputs, if_pos hversion, if_neg htoken, hinput] at hx
  simpa using hx

theorem computeRowHash_of_preimage {x : Bytes} (hinput : rowHashInputFor row = some (plainInput row))
    (hx : inputPreimage (plainInput row) = some x) : computeRowHash sum row = some (sum x) := by
  rw [computeRowHash, hinput, Option.bind_some, hashRowForEvent_eq, hx, Option.map_some]

theorem rows_accepted : ∃ x, ∀ (sum : Bytes → Bytes) (json : JsonReader),
    checkRowHash sum json { storedRow with rowHash := sum x } = some .accepted ∧
    checkRowHash sum json { editedRow with rowHash := sum x } = some .accepted := by
  obtain ⟨x, hstored, hedited⟩ := exists_preimage
  exact ⟨x, fun sum json =>
    ⟨checkRowHash_of_computed rfl rfl
        (computeRowHash_of_preimage rowHashInputFor_rows.1 hstored),
      checkRowHash_of_computed rfl rfl
        (computeRowHash_of_preimage rowHashInputFor_rows.2 hedited)⟩⟩

/-- **The hash does not tell every edit apart**, whatever hash function it is: not sequences that are
one binary64 number, not the codes of no actor type, not a missing and a nil reference, and not the
spellings of the extra value. -/
theorem edited_row_accepted : ∃ x, ∀ (sum : Bytes → Bytes) (json : JsonReader),
    checkRowHash sum json { storedRow with rowHash := sum x } = some .accepted ∧
    checkRowHash sum json { editedRow with rowHash := sum x } = some .accepted ∧
    storedRow.seq ≠ editedRow.seq ∧ storedRow.actorKind ≠ editedRow.actorKind ∧
    storedRow.piiRef ≠ editedRow.piiRef ∧ storedRow.extra ≠ editedRow.extra := by
  obtain ⟨x, haccepted⟩ := rows_accepted
  exact ⟨x, fun sum json => ⟨(haccepted sum json).1, (haccepted sum json).2, by decide, by decide,
    by decide, by decide⟩⟩

theorem rows_agree_storedRow : ∃ hash, ∀ json,
    checkRowHash sampleSha.sum json { storedRow with rowHash := hash } = some .accepted ∧
    checkRowHash sampleSha.sum json { editedRow with rowHash := hash } = some .accepted ∧
    SameEvidence { storedRow with rowHash := hash } { editedRow with rowHash := hash } := by
  obtain ⟨x, haccepted⟩ := rows_accepted
  refine ⟨sampleSha.sum x, fun json => ?_⟩
  obtain ⟨hstored, hedited⟩ := haccepted sampleSha.sum json
  -- the rows name a token, so nothing else is hashed for them
  have hfree : ∀ x ∈ checkedPreimages storedRow, ∀ y ∈ checkedPreimages editedRow,
      sampleSha.sum x = sampleSha.sum y → x = y := by
    intro x hx y hy _
    have hx := mem_checkedPreimages_plain rfl (by decide) rowHashInputFor_rows.1 hx
    have hy := mem_checkedPreimages_plain rfl (by decide) rowHashInputFor_rows.2 hy
    exact Option.some.inj (hx.symm.trans (inputPreimage_rows.symm.trans hy))
  exact ⟨hstored, hedited, (rows_agree sampleSha.sum json).1 _ _ hfree hstored hedited rfl⟩

end Edited

end Tack.Audit

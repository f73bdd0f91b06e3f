import Tack.Audit.Event
import Tack.Lib.JsonCanonical
import Tack.Lib.Rfc3339
import Tack.Lib.Utf8

/-!
# The JSON of an event's parts

What `json.Marshal` makes of the context, the delta and the error of an event, member by member.  A
member tagged `omitempty` or `omitzero` is left out when it is empty or zero; a UUID tagged
`omitempty` never is, since it is an array.

## Main definitions

* `Audit.EventContext.toJson`, `Audit.Delta.toJson`, `Audit.EventError.toJson` — the JSON values;
  `none` when `json.Marshal` fails.
* `Audit.Event.toJson` — the JSON value of an event.
* `Audit.EventContext.toJsonWithZeroTokenId` — the context with an explicit zero token ID.

## Main results

* `Audit.eventId_eq_of_marshal` — the encoding of an event determines its identity.
* `Audit.canonical_context_of_zeroTokenId` — contexts that agree with an explicit zero token ID agree
  without it.
-/

namespace Tack.Audit

open Lib Lib.Json

/-- The members of an object in the order they are written. -/
abbrev Members := List (String × Json)

/-- The value of a `json.RawMessage`; an absent one is written as `null`. -/
def rawJson (raw : RawMessage) : Option Json :=
  if raw.isEmpty then some .null else Json.parse (utf8Decode raw)

/-- `json.Marshal` of a value. -/
def marshal (j : Json) : Bytes := utf8 j.render

theorem rawJson_marshal (j : Json) : rawJson (marshal j) = some j := by
  obtain ⟨c, cs, hrender, -⟩ := Json.render_eq_cons j
  have hne : (marshal j).isEmpty = false := by
    rw [List.isEmpty_eq_false_iff, ← List.length_pos_iff]
    have hlen := length_le_length_utf8 j.render
    rw [hrender, List.length_cons] at hlen
    rw [marshal, hrender]
    omega
  rw [rawJson, hne, if_neg (by decide), marshal, utf8Decode_utf8, Json.parse_render]

/-! ### Members -/

/-- A member that is left out when it is empty. -/
def memberUnless (empty : Bool) (name : String) (j : Json) : Members :=
  if empty then [] else [(name, j)]

def textMember (name text : String) : Members := [(name, .str text)]

/-- A text that is left out when it is empty. -/
def textUnlessEmpty (name text : String) : Members := memberUnless (text == "") name (.str text)

/-- The text of a Go string that is left out when it is empty; a byte that is not UTF-8 is read as U+FFFD. -/
def bytesUnlessEmpty (name : String) (bytes : Bytes) : Members :=
  memberUnless bytes.isEmpty name (.str (String.ofList (utf8Decode bytes)))

def uuidMember (name : String) (id : UUID) : Members := [(name, .str id.text)]

/-- A UUID that is left out when it is zero. -/
def uuidUnlessZero (name : String) (id : UUID) : Members :=
  memberUnless (id == .nil) name (.str id.text)

/-- A number that is left out when it is zero. -/
def natUnlessZero (name : String) (n : ℕ) : Members :=
  memberUnless (n == 0) name (.num (.ofInt n))

/-- A list of texts that is left out when it is empty. -/
def textsUnlessEmpty (name : String) (texts : List String) : Members :=
  memberUnless texts.isEmpty name (.arr (texts.map .str))

/-- A time that is left out when it is zero. -/
def timeUnlessZero (name : String) (t : Time) : Option Members :=
  if t.isZero then some [] else t.marshalJSON.map fun text => [(name, .str text)]

/-- A raw message that is left out when it is absent. -/
def rawUnlessEmpty (name : String) (raw : RawMessage) : Option Members :=
  if raw.isEmpty then some [] else (rawJson raw).map fun j => [(name, j)]

/-- A value behind a pointer that is left out when the pointer is nil. -/
def pointerUnlessNil {α : Type} (name : String) (toJson : α → Option Json) :
    Option α → Option Members
  | none => some []
  | some a => (toJson a).map fun j => [(name, j)]

/-! ### The parts -/

/-- The JSON value of a target, as a reader of its encoding gets it. -/
def Target.toJson (target : Target) : Json :=
  .obj (bytesUnlessEmpty "kind" target.kind ++ bytesUnlessEmpty "node_type" target.nodeType ++
    bytesUnlessEmpty "reference" target.reference ++ bytesUnlessEmpty "name" target.name ++
    bytesUnlessEmpty "uri" target.uri ++ bytesUnlessEmpty "relation_type" target.relationType ++
    uuidUnlessZero "id" target.id ++ uuidUnlessZero "source_id" target.sourceId ++
    uuidUnlessZero "target_id" target.targetId ++ uuidUnlessZero "owner_id" target.ownerId)

def ReadEvidence.toJson (read : ReadEvidence) : Json :=
  .obj (natUnlessZero "count" read.count ++ textUnlessEmpty "payload_sha256" read.payloadSHA256 ++
    textUnlessEmpty "payload_format" read.payloadFormat ++
    textUnlessEmpty "manifest_sha256" read.manifestSHA256 ++
    natUnlessZero "manifest_parts" read.manifestParts)

/-- The criteria are a map, whose members are written by ascending name. -/
def ReadSelection.toJson (selection : ReadSelection) : Option Json := do
  let criteria ← selection.criteria.mapM fun (name, raw) => (rawJson raw).map fun j => (name, j)
  return .obj (textUnlessEmpty "reference" selection.reference ++
    memberUnless criteria.isEmpty "criteria" (.obj criteria))

/-- The members of a context before the token ID. -/
def EventContext.scopeMembers (context : EventContext) : Members :=
  uuidMember "org_id" context.orgId ++ uuidMember "workspace_id" context.workspaceId ++
    uuidMember "scope_id" context.scopeId ++ uuidMember "parent_id" context.parentId ++
    textUnlessEmpty "request_id" context.requestId ++ textUnlessEmpty "trace_id" context.traceId ++
    textMember "source" context.source ++ textUnlessEmpty "tool" context.tool ++
    textUnlessEmpty "rpc" context.rpc ++ textUnlessEmpty "reason" context.reason

/-- The members of a context after the token ID. -/
def EventContext.operationMembers (context : EventContext) : Option Members := do
  let startedAt ← timeUnlessZero "started_at" context.startedAt
  let completedAt ← timeUnlessZero "completed_at" context.completedAt
  let target ← pointerUnlessNil "target" (fun t => some t.toJson) context.target
  let read ← pointerUnlessNil "read" (fun r => some r.toJson) context.read
  let selection ← pointerUnlessNil "selection" ReadSelection.toJson context.selection
  return textUnlessEmpty "commit_version" context.commitVersion ++
    natUnlessZero "audit_format_version" context.auditFormatVersion ++
    textUnlessEmpty "operation_class" context.operationClass ++
    textUnlessEmpty "phase" context.phase ++
    uuidUnlessZero "operation_id" context.operationId ++
    uuidUnlessZero "parent_operation_id" context.parentOperationId ++
    startedAt ++ completedAt ++ target ++ read ++
    textsUnlessEmpty "committed_steps" context.committedSteps ++ selection ++
    textUnlessEmpty "http_method" context.httpMethod ++
    textUnlessEmpty "request_path" context.requestPath

def apiTokenIdKey : String := "api_token_id"

def EventContext.toJson (context : EventContext) : Option Json :=
  context.operationMembers.map fun operation =>
    .obj (context.scopeMembers ++ uuidUnlessZero apiTokenIdKey context.apiTokenId ++ operation)

/-- `contextWithZeroTokenID`: the outer field shadows the embedded one and is written last. -/
def EventContext.toJsonWithZeroTokenId (context : EventContext) : Option Json :=
  context.operationMembers.map fun operation =>
    .obj (context.scopeMembers ++ operation ++ uuidMember apiTokenIdKey .nil)

/-- A missing delta is written as `null`. -/
def Delta.toJson : Option Delta → Option Json
  | none => some .null
  | some delta => do
    let before ← rawUnlessEmpty "before" delta.before
    let after ← rawUnlessEmpty "after" delta.after
    return .obj (before ++ after ++ textsUnlessEmpty "changed" delta.changed)

/-- A missing error is written as `null`. -/
def EventError.toJson : Option EventError → Json
  | none => .null
  | some e => .obj (textMember "code" e.code ++ textMember "message" e.message)

def Actor.toJson (actor : Actor) : Json :=
  .obj (textMember "type" actor.type ++ uuidMember "id" actor.id ++
    textUnlessEmpty "email" actor.email ++ textUnlessEmpty "name" actor.name ++
    textUnlessEmpty "session_id" actor.sessionId ++ textUnlessEmpty "ip" actor.ip ++
    textUnlessEmpty "ua" actor.userAgent ++ textUnlessEmpty "request_id" actor.requestId ++
    textUnlessEmpty "api_token_label" actor.apiTokenLabel)

def Entity.toJson (entity : Entity) : Json :=
  .obj (textMember "type" entity.type ++ textUnlessEmpty "node_type" entity.nodeType ++
    uuidMember "id" entity.id ++ textUnlessEmpty "identifier" entity.identifier ++
    textUnlessEmpty "name" entity.name)

def ProtectedValue.toJson (value : ProtectedValue) : Option Json :=
  (rawJson value.value).map fun j =>
    .obj (uuidMember "ref" value.ref ++ uuidMember "subject_id" value.subjectId ++ [("value", j)])

/-- The JSON value of a whole event; its identity is the second member. -/
def Event.toJson (event : Event) : Option Json := do
  let context ← event.context.toJson
  let delta ← pointerUnlessNil "delta" (fun d => Delta.toJson (some d)) event.delta
  let error ← pointerUnlessNil "error" (fun e => some (EventError.toJson (some e))) event.error
  let occurredAt ← event.occurredAt.marshalJSON
  let extra ← rawUnlessEmpty "extra" event.extra
  let values ← event.protectedValues.mapM ProtectedValue.toJson
  return .obj (textMember "verb" event.verb ++ uuidMember "event_id" event.eventId ++
    [("actor", event.actor.toJson), ("entity", event.entity.toJson), ("context", context)] ++ delta ++
    textMember "outcome" event.outcome ++ error ++
    textUnlessEmpty "idempotency_key" event.idempotencyKey ++ textMember "occurred_at" occurredAt ++
    extra ++ memberUnless values.isEmpty "protected" (.arr values))

/-- The encoding of an event determines its identity. -/
theorem eventId_eq_of_marshal {e e' : Event} {b : Bytes} (h : e.toJson.map marshal = some b)
    (h' : e'.toJson.map marshal = some b) : e.eventId = e'.eventId := by
  obtain ⟨j, hj, rfl⟩ := Option.map_eq_some_iff.mp h
  obtain ⟨j', hj', hbytes⟩ := Option.map_eq_some_iff.mp h'
  obtain rfl := render_injective (utf8_injective hbytes)
  simp only [Event.toJson, Option.bind_eq_bind, Option.pure_def, Option.bind_eq_some_iff,
    Option.some.injEq] at hj hj'
  obtain ⟨_, -, _, -, _, -, _, -, _, -, _, -, rfl⟩ := hj
  obtain ⟨_, -, _, -, _, -, _, -, _, -, _, -, heq⟩ := hj'
  simp only [textMember, uuidMember, List.append_assoc, List.cons_append, List.nil_append, obj.injEq,
    List.cons.injEq, Prod.mk.injEq, str.injEq, true_and] at heq
  exact (UUID.text_injective heq.2.1).symm

/-! ### The token ID -/

/-- No member has the name. -/
def Lacks (name : String) (ms : Members) : Prop := ∀ m ∈ ms, m.1 ≠ name

theorem Lacks.append {name : String} {ms ms' : Members} (h : Lacks name ms) (h' : Lacks name ms') :
    Lacks name (ms ++ ms') := fun m hm => (List.mem_append.mp hm).elim (h m) (h' m)

theorem lacks_nil (name : String) : Lacks name [] := fun _ hm => absurd hm List.not_mem_nil

theorem lacks_singleton {name name' : String} {j : Json} (h : name' ≠ name) :
    Lacks name [(name', j)] := fun m hm => by
  rw [List.mem_singleton.mp hm]
  exact h

theorem lacks_memberUnless {name name' : String} {empty : Bool} {j : Json} (h : name' ≠ name) :
    Lacks name (memberUnless empty name' j) := by
  cases empty with
  | true => exact lacks_nil name
  | false => exact lacks_singleton h

theorem lacks_timeUnlessZero (name : String) {name' : String} {t : Time} {ms : Members} (h : name' ≠ name)
    (hms : timeUnlessZero name' t = some ms) : Lacks name ms := by
  unfold timeUnlessZero at hms
  split at hms
  · cases hms
    exact lacks_nil name
  · obtain ⟨text, -, rfl⟩ := Option.map_eq_some_iff.mp hms
    exact lacks_singleton h

theorem lacks_pointerUnlessNil {α : Type} (name : String) {name' : String} {toJson : α → Option Json}
    {a : Option α} {ms : Members} (h : name' ≠ name)
    (hms : pointerUnlessNil name' toJson a = some ms) : Lacks name ms := by
  cases a with
  | none =>
    cases hms
    exact lacks_nil name
  | some a =>
    obtain ⟨j, -, rfl⟩ := Option.map_eq_some_iff.mp hms
    exact lacks_singleton h

theorem lacks_scopeMembers (context : EventContext) :
    Lacks apiTokenIdKey context.scopeMembers := by
  unfold EventContext.scopeMembers
  repeat' apply Lacks.append
  all_goals first
    | exact lacks_singleton (by decide)
    | exact lacks_memberUnless (by decide)

theorem lacks_operationMembers {context : EventContext} {ms : Members}
    (h : context.operationMembers = some ms) : Lacks apiTokenIdKey ms := by
  simp only [EventContext.operationMembers, Option.bind_eq_bind, Option.pure_def,
    Option.bind_eq_some_iff, Option.some.injEq] at h
  obtain ⟨startedAt, hs, completedAt, hc, target, ht, read, hr, selection, hsel, rfl⟩ := h
  have hs := lacks_timeUnlessZero apiTokenIdKey (by decide) hs
  have hc := lacks_timeUnlessZero apiTokenIdKey (by decide) hc
  have ht := lacks_pointerUnlessNil apiTokenIdKey (by decide) ht
  have hr := lacks_pointerUnlessNil apiTokenIdKey (by decide) hr
  have hsel := lacks_pointerUnlessNil apiTokenIdKey (by decide) hsel
  repeat' apply Lacks.append
  all_goals first
    | assumption
    | exact lacks_memberUnless (by decide)

/-- The token ID of a context is its own, and is missing when it is zero. -/
theorem lastMember_token (context : EventContext) {operation : Members}
    (h : context.operationMembers = some operation) : lastMember apiTokenIdKey
      (context.scopeMembers ++ uuidUnlessZero apiTokenIdKey context.apiTokenId ++ operation) =
        if context.apiTokenId = .nil then none else some (.str context.apiTokenId.text) := by
  rw [lastMember_append, lastMember_append, lastMember_eq_none (lacks_operationMembers h),
    lastMember_eq_none (lacks_scopeMembers context), Option.none_or, Option.or_none,
    uuidUnlessZero, memberUnless]
  by_cases hnil : context.apiTokenId = .nil
  · rw [if_pos hnil, hnil]
    rfl
  · rw [if_neg hnil, if_neg (by simpa using hnil)]
    rfl

/-- With the zero token ID restored, every other member is as without it. -/
theorem lastMember_zeroTokenId (context : EventContext) (operation : Members) (name : String) :
    lastMember name (context.scopeMembers ++ operation ++ uuidMember apiTokenIdKey .nil) =
      if name = apiTokenIdKey then some (.str UUID.nil.text)
      else lastMember name (context.scopeMembers ++ operation) := by
  rw [lastMember_append]
  by_cases hname : name = apiTokenIdKey
  · rw [if_pos hname, hname]
    rfl
  · rw [if_neg hname, uuidMember, lastMember_eq_none (lacks_singleton (Ne.symm hname)),
      Option.none_or]

/-- A context does not agree with one whose zero token ID is restored. -/
theorem canonical_toJson_ne_zeroTokenId {context context' : EventContext} {j j' c : Json}
    (hj : context.toJson = some j) (hj' : context'.toJsonWithZeroTokenId = some j')
    (hc : canonical j = some c) : canonical j' ≠ some c := by
  intro hc'
  obtain ⟨operation, ho, rfl⟩ := Option.map_eq_some_iff.mp hj
  obtain ⟨operation', -, rfl⟩ := Option.map_eq_some_iff.mp hj'
  have h := (canonical_obj_eq_iff hc hc').mp rfl apiTokenIdKey
  rw [lastMember_token context ho, lastMember_zeroTokenId, if_pos rfl] at h
  split at h
  · cases h
  · next hne =>
    simp only [Option.map_some, canonical, Option.some.injEq, str.injEq] at h
    exact hne (UUID.text_injective h)

/-- **Contexts that agree with the zero token ID restored agree as they are.** -/
theorem canonical_context_of_zeroTokenId {context context' : EventContext} {j j' c : Json}
    (hnil : context.apiTokenId = .nil) (hnil' : context'.apiTokenId = .nil)
    (hj : context.toJsonWithZeroTokenId = some j) (hj' : context'.toJsonWithZeroTokenId = some j')
    (hc : canonical j = some c) (hc' : canonical j' = some c) :
    ∃ d, context.toJson.bind canonical = some d ∧ context'.toJson.bind canonical = some d := by
  obtain ⟨operation, ho, rfl⟩ := Option.map_eq_some_iff.mp hj
  obtain ⟨operation', ho', rfl⟩ := Option.map_eq_some_iff.mp hj'
  obtain ⟨d, hd⟩ := canonical_obj_of_append hc
  obtain ⟨d', hd'⟩ := canonical_obj_of_append hc'
  have hsame : d = d' := by
    refine (canonical_obj_eq_iff hd hd').mpr fun name => ?_
    have h := (canonical_obj_eq_iff hc hc').mp rfl name
    rw [lastMember_zeroTokenId, lastMember_zeroTokenId] at h
    by_cases hname : name = apiTokenIdKey
    · subst hname
      rw [lastMember_eq_none ((lacks_scopeMembers context).append (lacks_operationMembers ho)),
        lastMember_eq_none ((lacks_scopeMembers context').append (lacks_operationMembers ho'))]
    · rwa [if_neg hname, if_neg hname] at h
  have htoJson : ∀ {context : EventContext} {operation : Members}, context.apiTokenId = .nil →
      context.operationMembers = some operation →
      context.toJson = some (.obj (context.scopeMembers ++ operation)) := by
    intro context operation hnil ho
    rw [EventContext.toJson, ho, hnil]
    simp [uuidUnlessZero, memberUnless]
  exact ⟨d, by rw [htoJson hnil ho, Option.bind_some, hd],
    by rw [htoJson hnil' ho', Option.bind_some, hd', hsame]⟩

end Tack.Audit

import Tack.Nodes.Stored

/-!
# The references of every reachable state

A call that commits claims one list of references, clears the references of one node, or leaves them
alone.  So the two key families hold the same references as long as no committed list names a template
with two references.  Nothing checks that: a node type may have two templates of one name, and then the
first reference stays claimed when its node is deleted.

## Main definitions

* `Nodes.Call.claim` — the references that a call claims when it commits.
* `Nodes.ReferencesExact` — the families agree and every holder exists.

## Main results

* `Nodes.references_of_committed` — what a call does to the references.
* `Nodes.references_exact` — what holds in every reachable state.
-/

namespace Tack.Nodes

open Lib

/-- The references that a node is given. -/
structure ReferenceClaim where
  orgId : UUID
  nodeId : UUID
  keys : List ReferenceKey

/-- The claim of a list that may be empty; an empty one reads and writes nothing. -/
def claimOf (orgId nodeId : UUID) (keys : List ReferenceKey) : Option ReferenceClaim :=
  if keys = [] then none else some ⟨orgId, nodeId, keys⟩

/-- The references that a call claims when it commits. -/
def Call.claim (db : Db) : Call → Option ReferenceClaim
  | create args => claimOf args.current.orgId args.current.id args.referenceKeys
  | update args => args.referenceKeys.map fun keys => ⟨args.current.orgId, args.current.id, keys⟩
  | mutate plan =>
    match readCreateIdempotency db plan, readMutationSource db plan.orgId plan.nodeId with
    | .ok true, _ => none
    | _, some _ => plan.referenceKeys.map fun keys => ⟨plan.orgId, plan.nodeId, keys⟩
    | _, none => claimOf plan.orgId plan.nodeId (plan.referenceKeys.getD [])
  | setReferences orgId nodeId keys => some ⟨orgId, nodeId, keys⟩
  | _ => none

variable {env : Env} {times : StepTimes} {db : Db} {call : Call} {t : Attempt}

theorem claim_eq_none_of_writesSchema (h : call.writesSchema = true) : call.claim db = none := by
  cases call <;> first | rfl | cases h

/-- What a call can do to the references. -/
inductive ReferencesChanged (db : Db) (claim : Option ReferenceClaim) (refs' : Refs) : Prop
  | kept (none : claim = none) (refs : refs' = db.refs)
  | cleared (orgId nodeId : UUID) (none : claim = none) (refs : refs' = db.refs.clearReferenceKeys orgId nodeId)
  | claimed (c : ReferenceClaim) (some : claim = some c)
      (written : db.refs.writeReferenceKeys c.orgId c.nodeId c.keys = .ok refs')

theorem ReferencesChanged.of_claimed {orgId nodeId : UUID} {keys : List ReferenceKey} {refs' : Refs}
    (h : Claimed db.refs orgId nodeId keys refs') :
    ReferencesChanged db (claimOf orgId nodeId keys) refs' := by
  obtain ⟨hkeys, hrefs⟩ | ⟨hkeys, hwritten⟩ := h
  · exact .kept (if_pos hkeys) hrefs
  · exact .claimed ⟨orgId, nodeId, keys⟩ (if_neg hkeys) hwritten

theorem ReferencesChanged.of_replaced {orgId nodeId : UUID} {keys : Option (List ReferenceKey)}
    {refs' : Refs} (h : Replaced db.refs orgId nodeId keys refs') :
    ReferencesChanged db (keys.map fun keys => ⟨orgId, nodeId, keys⟩) refs' := by
  obtain ⟨rfl, hrefs⟩ | ⟨list, rfl, hwritten⟩ := h
  · exact .kept rfl hrefs
  · exact .claimed ⟨orgId, nodeId, list⟩ rfl hwritten

/-- **What a call does to the references.** -/
theorem references_of_committed (h : Committed env times db call t) :
    ReferencesChanged db (call.claim db) t.db.refs := by
  cases h with
  | created spec =>
    rw [spec.db]
    exact .of_claimed spec.claimed
  | updated spec =>
    rw [spec.db]
    exact .of_replaced spec.replaced
  | replayed existing =>
    refine .kept ?_ rfl
    rw [Call.claim, existing]
  | mutated fresh spec =>
    rw [spec.db]
    have hsource := spec.checks.source
    obtain ⟨hnone, hclaimed⟩ | ⟨hsome, hreplaced⟩ := spec.refsChanged
    · rw [Call.claim, fresh, ← hsource, hnone]
      exact .of_claimed hclaimed
    · obtain ⟨source, hfound⟩ := Option.ne_none_iff_exists'.mp hsome
      rw [Call.claim, fresh, ← hsource, hfound]
      exact .of_replaced hreplaced
  | deletedRead => exact .cleared _ _ rfl rfl
  | deletedNode => exact .cleared _ _ rfl rfl
  | @referencesSet orgId nodeId keys refs nodeType changes written resolve =>
    exact .claimed ⟨orgId, nodeId, keys⟩ rfl written
  | jobStepped found unfinished advanced =>
    cases advanced with
    | move stack decision read spec =>
      refine .kept rfl ?_
      rw [Attempt.clearEdges, spec.db]
      rfl
    | delete => exact .cleared _ _ rfl rfl
    | _ => exact .kept rfl rfl
  | schemaKept schema => exact .kept (claim_eq_none_of_writesSchema schema) rfl
  | schemaWritten schema written =>
    refine .kept (claim_eq_none_of_writesSchema schema) ?_
    cases written <;> rfl
  | _ => exact .kept rfl rfl

/-! ### The families agree -/

/-- **A call keeps the families equal exactly when the list that it claims names no template with two
references.** -/
theorem bijective_iff_of_committed (h : Committed env times db call t) (hdb : db.refs.Bijective) :
    t.db.refs.Bijective ↔ ∀ c, call.claim db = some c → Refs.OneReferencePerTemplate c.keys := by
  cases references_of_committed h with
  | kept none refs =>
    rw [refs, none]
    exact iff_of_true hdb fun c hc => by cases hc
  | cleared orgId nodeId none refs =>
    rw [refs, none]
    exact iff_of_true (hdb.clearReferenceKeys orgId nodeId) fun c hc => by cases hc
  | claimed c some written =>
    rw [Refs.writeReferenceKeys_bijective_iff hdb written, some]
    constructor
    · intro hone c' hc'
      rwa [← Option.some.inj hc']
    · intro hall
      exact hall c rfl

/-! ### Every holder exists -/

/-- A node that owns references is stored. -/
def OwnersStored (db : Db) : Prop :=
  ∀ k, db.refs.owned.get k ≠ none → ∃ nodeType, db.nodes.get ⟨k.org, nodeType, k.id⟩ ≠ none

/-- A claim changes no entry of another node. -/
theorem Refs.owned_writeReferenceKeys {refs refs' : Refs} {orgId nodeId : UUID} {keys : List ReferenceKey}
    (h : refs.writeReferenceKeys orgId nodeId keys = .ok refs') {k : OwnedKey}
    (hk : ¬(k.org = orgId ∧ k.id = nodeId)) : refs'.owned.get k = refs.owned.get k := by
  rw [Refs.owned_claimEach_of_ne h hk, Refs.owned_clearReferenceKeys, if_neg hk]

theorem claimOf_eq_some {orgId nodeId : UUID} {keys : List ReferenceKey} {c : ReferenceClaim}
    (h : claimOf orgId nodeId keys = some c) : c = ⟨orgId, nodeId, keys⟩ := by
  rw [claimOf] at h
  split_ifs at h
  exact (Option.some.inj h).symm

/-- The claim of a mutation is for the node of its plan. -/
theorem claim_mutate {plan : MutationPlan} {c : ReferenceClaim} (h : (Call.mutate plan).claim db = some c) :
    c.orgId = plan.orgId ∧ c.nodeId = plan.nodeId := by
  rw [Call.claim] at h
  split at h
  · cases h
  · obtain ⟨keys, -, rfl⟩ := Option.map_eq_some_iff.mp h
    exact ⟨rfl, rfl⟩
  · rw [claimOf_eq_some h]
    exact ⟨rfl, rfl⟩

/-- The node that a call gives references to is stored when the call commits. -/
theorem claimant_stored (h : Committed env times db call t) (hdb : WellStored db) {c : ReferenceClaim}
    (hc : call.claim db = some c) : ∃ nodeType, t.db.nodes.get ⟨c.orgId, nodeType, c.nodeId⟩ ≠ none := by
  cases h with
  | @created args t stored refs written spec =>
    rw [claimOf_eq_some hc, spec.put.nodes, nodeInstanceKey_marshalled spec.marshalled]
    exact ⟨args.current.nodeType, by simp [nodeInstanceKey]⟩
  | @updated args t stored refs edges edgeChanges spec =>
    obtain ⟨keys, -, rfl⟩ := Option.map_eq_some_iff.mp hc
    rw [spec.put.nodes, nodeInstanceKey_marshalled spec.marshalled]
    exact ⟨args.current.nodeType, by simp [nodeInstanceKey]⟩
  | replayed existing =>
    rw [Call.claim, existing] at hc
    cases hc
  | @mutated plan t checked stored refs edges edgeChanges fresh spec =>
    obtain ⟨horg, hid⟩ := claim_mutate hc
    rw [horg, hid, spec.put.nodes, nodeInstanceKey_marshalled spec.marshalled, spec.checks.result]
    cases hsource : checked.source with
    | none =>
      rw [nodeInstanceKey_mutationResult_none]
      exact ⟨plan.nodeType, by simp⟩
    | some source =>
      -- the record that the mutation read is still there
      have hfound := readMutationSource_eq_some.mp (spec.checks.source.symm.trans hsource)
      refine ⟨source.typeKey, get_set_ne_none ?_⟩
      rw [hfound.2]
      simp
  | @referencesSet orgId nodeId keys refs nodeType changes written resolve =>
    cases hc
    exact ⟨nodeType, hdb.resolved resolve⟩
  | schemaKept schema => exact absurd hc (by simp [claim_eq_none_of_writesSchema schema])
  | schemaWritten schema => exact absurd hc (by simp [claim_eq_none_of_writesSchema schema])
  | _ => cases hc

theorem ownersStored_of_committed (h : Committed env times db call t) (hstored : WellStored db)
    (hdb : OwnersStored db) : OwnersStored t.db := by
  intro k hk
  -- a node that owned references before is still stored, unless its references were cleared with it
  have hbefore : db.refs.owned.get k = t.db.refs.owned.get k →
      ∃ nodeType, t.db.nodes.get ⟨k.org, nodeType, k.id⟩ ≠ none := by
    intro hsame
    obtain ⟨nodeType, hnode⟩ := hdb k (hsame ▸ hk)
    refine ⟨nodeType, ?_⟩
    cases recordsChanged_of_committed h with
    | kept nodes resolves => rwa [nodes]
    | put current stored marshalled nodes resolves =>
      rw [nodes]
      exact get_set_ne_none hnode
    | cleared current nodes resolves edges refs =>
      rw [refs, Refs.owned_clearReferenceKeys] at hk
      split_ifs at hk with howner
      · exact absurd rfl hk
      rw [nodes, Table.get_erase_ne _ fun hkey => howner ?_]
      · exact hnode
      · exact ⟨congrArg NodeKey.org hkey, congrArg NodeKey.id hkey⟩
  cases references_of_committed h with
  | kept none refs => exact hbefore (by rw [refs])
  | cleared orgId nodeId none refs =>
    refine hbefore ?_
    rw [refs, Refs.owned_clearReferenceKeys] at hk ⊢
    split_ifs at hk ⊢
    · exact absurd rfl hk
    · rfl
  | claimed c some written =>
    by_cases howner : k.org = c.orgId ∧ k.id = c.nodeId
    · rw [howner.1, howner.2]
      exact claimant_stored h hstored some
    · exact hbefore (Refs.owned_writeReferenceKeys written howner).symm

/-! ### Runs -/

/-- The families agree, and every reference belongs to a node that exists. -/
structure ReferencesExact (db : Db) : Prop where
  bijective : db.refs.Bijective
  holder (orgId : UUID) (templateName encoded : String) (nodeId : UUID) :
    db.refs.forward.get ⟨orgId, templateName, encoded⟩ = some nodeId →
      ∃ nodeType current, db.nodes.get ⟨orgId, nodeType, nodeId⟩ = some current

/-- When the families agree, a holder is an owner. -/
theorem referencesExact_iff (h : OwnersStored db) : ReferencesExact db ↔ db.refs.Bijective := by
  refine ⟨ReferencesExact.bijective, fun hbij => ⟨hbij, fun orgId templateName encoded nodeId hget => ?_⟩⟩
  have howned := (hbij orgId templateName encoded nodeId).mp hget
  obtain ⟨nodeType, hnode⟩ := h ⟨orgId, nodeId, templateName⟩ (by simp [howned])
  exact ⟨nodeType, Option.ne_none_iff_exists'.mp hnode⟩

/-- If the call commits, the list that it claims names no template with two references. -/
def ClaimsOneReferencePerTemplate (env : Env) (s : State) (move : Move) : Prop :=
  ∀ t c, runCall env move s.db = .ok t → move.call.claim s.db = some c →
    Refs.OneReferencePerTemplate c.keys

/-- The nodes behind the references exist in every reachable state. -/
theorem ownersStored_of_reach {ok : State → Move → Prop} {s : State}
    (h : Reach (step env) ok State.init s) : WellStored s.db ∧ OwnersStored s.db := by
  refine invariant_of_committed (I := fun db => WellStored db ∧ OwnersStored db)
    ⟨wellStored_of_empty rfl rfl, fun k hk => absurd rfl hk⟩ ?_ h
  intro u move t hu _ hcommitted
  exact ⟨wellStored_of_committed hcommitted hu.1, ownersStored_of_committed hcommitted hu.1 hu.2⟩

/-- **References along every run.**  While no committed call claims two references of one template, the
families agree and every holder exists.  From such a state a call that claims a list keeps that if and
only if its list names no template with two references; its references are then looked up as the
claimant's, and a refused call changes nothing. -/
theorem references_exact (env : Env) {s : State}
    (h : Reach (step env) (ClaimsOneReferencePerTemplate env) State.init s) :
    ReferencesExact s.db ∧ ∀ move s', step env s move = some s' →
      (∀ refusal, runCall env move s.db = .error refusal → s' = s) ∧
      ∀ t c, runCall env move s.db = .ok t → move.call.claim s.db = some c →
        (ReferencesExact s'.db ↔ Refs.OneReferencePerTemplate c.keys) ∧
        ∀ key ∈ c.keys, s'.db.refs.lookupReference c.orgId key.templateName key.encoded = c.nodeId := by
  have hbijective : s.db.refs.Bijective := by
    refine h.invariant (I := fun s => s.db.refs.Bijective) ?_ fun {u move u'} hu hok hs => ?_
    · intro o t e n
      exact iff_of_false (by simp [State.init, Db.empty]) (by simp [State.init, Db.empty])
    · obtain ⟨-, rfl⟩ | ⟨t, hrun, -, hcommitted, rfl⟩ := step_cases hs
      · exact hu
      · exact (bijective_iff_of_committed hcommitted hu).mpr fun c hc => hok t c hrun hc
  obtain ⟨hstored, howners⟩ := ownersStored_of_reach h
  refine ⟨(referencesExact_iff howners).mpr hbijective, fun move s' hstep => ?_⟩
  obtain ⟨⟨refusal, hrefused⟩, rfl⟩ | ⟨t, hrun, -, hcommitted, rfl⟩ := step_cases hstep
  · refine ⟨fun _ _ => rfl, fun t c hrun => ?_⟩
    rw [hrefused] at hrun
    cases hrun
  · refine ⟨fun refusal hrefused => ?_, fun t' c _ hc => ⟨?_, ?_⟩⟩
    · rw [hrun] at hrefused
      cases hrefused
    · rw [referencesExact_iff (ownersStored_of_committed hcommitted hstored howners),
        bijective_iff_of_committed hcommitted hbijective]
      refine ⟨fun hall => hall c hc, fun hone c' hc' => ?_⟩
      rwa [Option.some.inj (hc'.symm.trans hc)]
    · intro key hkey
      cases references_of_committed hcommitted with
      | kept none refs => exact absurd hc (by simp [none])
      | cleared orgId nodeId none refs => exact absurd hc (by simp [none])
      | claimed c' some written =>
        obtain rfl := Option.some.inj (hc.symm.trans some)
        exact Refs.lookupReference_of_write written hkey

/-- A node type with two templates of one name. -/
def twiceNamedType : NodeType :=
  ⟨3, 1, "task", [], [], [], [⟨"ref", [.literal "A"]⟩, ⟨"ref", [.literal "B"]⟩], ""⟩

/-- A create with the references that a node type renders. -/
def createWith (id : UUID) (keys : List ReferenceKey) : Call :=
  .create ⟨⟨id, 1, "task", "", .empty, 9, 9, Time.zero, Time.zero⟩, [], [], keys, none⟩

/-- A reference that is refused while another node holds it moves to the second node once the first has
given it up, and the first is deleted with the reference that it took instead. -/
def movedReference : List Move :=
  [.once (createWith 5 [⟨"ref", "A"⟩]), .once (createWith 6 [⟨"ref", "A"⟩]),
    .once (.setReferences 1 5 [⟨"ref", "B"⟩]), .once (createWith 6 [⟨"ref", "A"⟩]),
    .once (.delete 1 5 ⟨5, 1, "task", "", .empty, 9, 9, Time.zero, Time.zero⟩)]

theorem references_exact_example : ∃ s, Reach (step .constant)
      (ClaimsOneReferencePerTemplate .constant) State.init s ∧ s.past.length = 4 ∧
    s.db.refs.lookupReference 1 "ref" "A" = 6 ∧ s.db.refs.lookupReference 1 "ref" "B" = .nil ∧
    ReferencesExact s.db := by
  have hchecked : ∀ (s : State) (move : Move),
      ((move.call.claim s.db).all fun c => Refs.OneReferencePerTemplate c.keys) = true →
        ClaimsOneReferencePerTemplate .constant s move := by
    intro s move hcheck t c _ hc
    simpa [hc] using hcheck
  obtain ⟨s, hreach, hheld⟩ := exists_reach_of_runChecked (step .constant) hchecked State.init
    movedReference (fun s => s.past.length = 4 ∧ s.db.refs.lookupReference 1 "ref" "A" = 6 ∧
      s.db.refs.lookupReference 1 "ref" "B" = .nil) (by decide +kernel)
  obtain ⟨hpast, hsecond, hnone⟩ := of_decide_eq_true hheld
  exact ⟨s, hreach, hpast, hsecond, hnone, (references_exact .constant hreach).1⟩

/-- A node whose type has two templates of one name is created with both references and deleted; the first
reference is still held by it. -/
theorem references_not_exact : ∃ keys s,
    referenceKeysFor twiceNamedType (fun _ => "") .empty = .ok (some keys) ∧
    Reach (step .constant) anyMove State.init s ∧ s.past.length = 2 ∧
    s.db.refs.forward.get ⟨1, "ref", "A"⟩ = some 5 ∧ s.db.nodes = .empty ∧ ¬ReferencesExact s.db := by
  obtain ⟨s, hreach, hrun⟩ := exists_reach_of_run (step .constant) State.init
    [.once (createWith 5 [⟨"ref", "A"⟩, ⟨"ref", "B"⟩]),
      .once (.delete 1 5 ⟨5, 1, "task", "", .empty, 9, 9, Time.zero, Time.zero⟩)]
    (fun s => s.past.length = 2 ∧ s.db.refs.forward.get ⟨1, "ref", "A"⟩ = some 5 ∧
      s.db.nodes.entries = []) (by decide +kernel)
  obtain ⟨hpast, hheld, hentries⟩ := of_decide_eq_true hrun
  have hnodes : s.db.nodes = .empty := Table.ext fun k => by
    rw [Table.get, hentries]
    rfl
  refine ⟨_, s, rfl, hreach, hpast, hheld, hnodes, fun hexact => ?_⟩
  obtain ⟨nodeType, current, hnode⟩ := hexact.holder 1 "ref" "A" 5 hheld
  rw [hnodes] at hnode
  cases hnode

end Tack.Nodes

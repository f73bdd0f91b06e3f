import Tack.Nodes.PropertyIndex

/-!
# References that name no node

A definition of type UUID with a target type is a reference to a node.  `ApplyMutation` accepts a value
whose decoded text is a canonical UUID of a stored node of the target type, and `DeleteNode` looks up
the quoted text of the ID in the property index.  The index holds the raw JSON of the value, so that
a deletion sees the references that are spelled like that and no others.

## Main definitions

* `Nodes.namedNode` — the node that a value names.
* `Nodes.PlainReferences` — a mutation that spells its references as the deletion looks them up.
* `Nodes.ReferencesHeld` — every reference is indexed and names a stored node of the target type.

## Main results

* `Nodes.Schema.referenceReason_of_ordinary` — what the check of a mutation says about a reference.
* `Nodes.referencesHeld_of_mutated`, `Nodes.referencesHeld_of_deleted` — one call.
* `Nodes.no_dangling_reference` — what holds along every run.
-/

namespace Tack.Nodes

open Lib

/-! ### What a mutation checks about one reference -/

namespace Schema

variable {absoluteURL : String → Bool} {schema : Schema} {nodeType : NodeType} {typeKey : String}
  {props : Props} {graph : ResultGraph} {rejected : String → Bool} {d : PropertyDef}

theorem nodup_of_duplicateFailures {seen : List String} {definitions : List PropertyDef}
    (h : duplicateFailures seen definitions = []) :
    (definitions.map PropertyDef.name).Nodup ∧ ∀ d ∈ definitions, d.name ∉ seen := by
  induction definitions generalizing seen with
  | nil => exact ⟨List.nodup_nil, by simp⟩
  | cons d rest ih =>
    rw [duplicateFailures] at h
    split_ifs at h with hseen
    obtain ⟨hnodup, hrest⟩ := ih h
    refine ⟨List.nodup_cons.mpr ⟨fun hmem => ?_, hnodup⟩, fun e he => ?_⟩
    · obtain ⟨e, he, hname⟩ := List.mem_map.mp hmem
      exact hrest e he (hname ▸ List.mem_cons_self)
    · rcases List.mem_cons.mp he with rfl | he
      · exact hseen
      · exact fun hmem => hrest e he (List.mem_cons_of_mem _ hmem)

/-- The definition of a name, when no name is defined again. -/
theorem definition_eq (h : duplicateFailures [] schema.definitions = []) (hd : d ∈ schema.definitions) :
    schema.definition d.name = some d := by
  have hnodup := (nodup_of_duplicateFailures h).1
  rw [definition]
  generalize schema.definitions = definitions at hd hnodup
  induction definitions with
  | nil => cases hd
  | cons e rest ih =>
    rw [List.map_cons, List.nodup_cons] at hnodup
    rcases List.mem_cons.mp hd with rfl | hd
    · simp
    · have hne : e.name ≠ d.name := fun heq => hnodup.1 (heq ▸ List.mem_map_of_mem hd)
      rw [List.find?_cons_of_neg (by simpa using hne)]
      exact ih hd hnodup.2

theorem checkDefinition_invalid_subset (result : PropertyResult) (e : PropertyDef) :
    result.invalid ⊆ (checkDefinition nodeType rejected graph result e).invalid := by
  rw [checkDefinition]
  split_ifs
  · exact fun _ h => h
  · split
    · exact fun _ h => h
    · exact List.subset_append_left _ _

theorem foldl_checkDefinition_invalid_subset (definitions : List PropertyDef) (result : PropertyResult) :
    result.invalid ⊆ (definitions.foldl (checkDefinition nodeType rejected graph) result).invalid := by
  induction definitions generalizing result with
  | nil => exact fun _ h => h
  | cons e rest ih => exact fun _ h => ih _ (checkDefinition_invalid_subset result e h)

variable {name : String} {issue : PropertyIssue} {raw : RawMessage}

/-- A check leaves the values of the other names alone. -/
theorem checkDefinition_valid_of_ne (result : PropertyResult) {e : PropertyDef} (h : e.name ≠ name) :
    (checkDefinition nodeType rejected graph result e).valid.get name = result.valid.get name := by
  rw [checkDefinition]
  split_ifs
  · rfl
  · split
    · rfl
    · exact Table.get_erase_ne _ h.symm

theorem foldl_checkDefinition_valid (definitions : List PropertyDef)
    (result : PropertyResult) (h : ∀ e ∈ definitions, e.name ≠ name) :
    (definitions.foldl (checkDefinition nodeType rejected graph) result).valid.get name =
      result.valid.get name := by
  induction definitions generalizing result with
  | nil => rfl
  | cons e rest ih =>
    rw [List.foldl_cons, ih _ fun e' he' => h e' (List.mem_cons_of_mem _ he'),
      checkDefinition_valid_of_ne result (h e List.mem_cons_self)]

theorem definitionIssue_congr {valid valid' : Props} (h : valid.get d.name = valid'.get d.name) :
    definitionIssue nodeType graph valid d = definitionIssue nodeType graph valid' d := by
  rw [definitionIssue, definitionIssue, h]

/-- The issue of a definition is among the issues in the end. -/
theorem mem_invalid_foldl_checkDefinition {definitions : List PropertyDef}
    (hnodup : (definitions.map PropertyDef.name).Nodup) (hd : d ∈ definitions)
    (hrejected : rejected d.name = false) {result : PropertyResult}
    (h : definitionIssue nodeType graph result.valid d = some issue) :
    issue ∈ (definitions.foldl (checkDefinition nodeType rejected graph) result).invalid := by
  obtain ⟨before, after, rfl⟩ := List.append_of_mem hd
  rw [List.foldl_append, List.foldl_cons]
  apply foldl_checkDefinition_invalid_subset
  have hother : ∀ e ∈ before, e.name ≠ d.name := by
    intro e he heq
    rw [List.map_append, List.nodup_append] at hnodup
    exact hnodup.2.2 e.name (List.mem_map_of_mem he) d.name (by simp) heq
  rw [checkDefinition, hrejected, definitionIssue_congr (foldl_checkDefinition_valid before result hother),
    h]
  simp

/-- An issue with a value of the definition. -/
def IsValueIssue (d : PropertyDef) (issue : PropertyIssue) : Prop :=
  issue.property = d.name ∧ (issue.code = .invalidValue ∨ issue.code = .unknownOption)

theorem isValueIssue_of_stringValueIssue {value : Json} {check : String → Option IssueReason} (h : stringValueIssue d value check = some issue) : IsValueIssue d issue := by
  unfold stringValueIssue at h
  split at h
  · obtain ⟨reason, -, rfl⟩ := Option.map_eq_some_iff.mp h
    refine ⟨rfl, ?_⟩
    rw [valueIssue]
    split
    · exact .inr rfl
    · exact .inl rfl
  · cases h
    exact ⟨rfl, .inl rfl⟩

theorem isValueIssue_of_optionsIssue {values seen : List String}
    (h : optionsIssue d seen values = some issue) : IsValueIssue d issue := by
  induction values generalizing seen with
  | nil => cases h
  | cons value rest ih =>
    rw [optionsIssue] at h
    split at h
    · cases h
      exact ⟨rfl, .inr rfl⟩
    split at h
    · cases h
      exact ⟨rfl, .inr rfl⟩
    · exact ih h

theorem isValueIssue_of_propertyValueIssue
    (h : propertyValueIssue absoluteURL d raw = some issue) : IsValueIssue d issue := by
  have hinvalid : ∀ reason, IsValueIssue d (valueIssue d .invalidValue reason) := fun _ => ⟨rfl, .inl rfl⟩
  rw [propertyValueIssue] at h
  split at h
  · cases h
    exact hinvalid _
  · cases h
    exact hinvalid _
  split at h
  case h_2 =>
    split at h
    · split_ifs at h
      cases h
      exact hinvalid _
    · cases h
      exact hinvalid _
  case h_3 =>
    split at h
    · cases h
    · cases h
      exact hinvalid _
  case h_9 =>
    unfold multiSelectIssue at h
    split at h
    · split at h
      · exact isValueIssue_of_optionsIssue h
      · cases h
        exact hinvalid _
    · cases h
      exact hinvalid _
  case h_10 => cases h
  all_goals exact isValueIssue_of_stringValueIssue h

theorem propertyIssue_property (h : schema.propertyIssue absoluteURL nodeType typeKey name raw = some issue) :
    issue.property = name := by
  rw [propertyIssue] at h
  cases hdefinition : schema.definition name with
  | none =>
    rw [hdefinition] at h
    cases h
    rfl
  | some definition =>
    have hname : definition.name = name := by
      simpa using List.find?_some hdefinition
    rw [hdefinition] at h
    dsimp only at h
    split_ifs at h
    · rw [(isValueIssue_of_propertyValueIssue h).1, hname]
    · cases h
      rfl

/-- **A reference without an ordinary issue** names a node of its target type. -/
theorem referenceReason_of_ordinary (htype : schema.types.get typeKey = some nodeType)
    (hfailures : (schema.validateResult absoluteURL typeKey props graph).failures = [])
    (hd : d ∈ schema.definitions) (happlies : propertyAppliesTo d nodeType = true)
    (href : d.isReference = true) (hraw : props.get d.name = some raw)
    (hissues : ∀ issue ∈ (schema.validateResult absoluteURL typeKey props graph).invalid,
      issue.property = d.name → ordinaryIssue issue = false) :
    referenceReason d raw graph = none := by
  rw [validateResult, htype] at hfailures hissues
  dsimp only at hfailures hissues
  have hunique : duplicateFailures [] schema.definitions = [] := by
    by_contra hne
    rw [interpret_of_type htype] at hfailures
    dsimp only at hfailures
    rw [if_pos hne] at hfailures
    exact hne hfailures
  rw [interpret_of_type htype] at hissues
  dsimp only at hissues
  rw [if_neg (not_not.mpr hunique)] at hissues
  -- whatever the parent adds, the issues of the definitions are among those in the end
  set result : PropertyResult := ⟨typeKey, _, props.entries.filterMap fun e =>
    schema.propertyIssue absoluteURL nodeType typeKey e.1 e.2, _⟩
  set rejected : String → Bool := fun name => result.invalid.any fun issue => issue.property == name
  have hchecked : ∀ issue ∈ (schema.sortedDefinitions.foldl (checkDefinition nodeType rejected graph)
      result).invalid, issue.property = d.name → ordinaryIssue issue = false := by
    intro issue hissue
    refine hissues issue ?_
    split
    · exact hissue
    · rcases schema.parentReason nodeType ((props.get parentIDProperty).getD "") graph with _ | _ | _
      · exact hissue
      · exact hissue
      · exact List.mem_append_left _ hissue
  have hvalue : schema.propertyIssue absoluteURL nodeType typeKey d.name raw = none := by
    by_contra hne
    obtain ⟨issue, hissue⟩ := Option.ne_none_iff_exists'.mp hne
    have hmem : issue ∈ result.invalid :=
      List.mem_filterMap.mpr ⟨(d.name, raw), Table.mem_entries.mpr hraw, hissue⟩
    have hordinary := hchecked issue (foldl_checkDefinition_invalid_subset _ _ hmem)
      (propertyIssue_property hissue)
    rw [propertyIssue, definition_eq hunique hd] at hissue
    dsimp only at hissue
    rw [if_pos happlies] at hissue
    obtain ⟨-, hcode | hcode⟩ := isValueIssue_of_propertyValueIssue hissue <;>
      simp [ordinaryIssue, hcode] at hordinary
  have hrejected : rejected d.name = false := by
    rw [List.any_eq_false]
    intro issue hissue hname
    obtain ⟨⟨name, value⟩, hentry, hissue⟩ := List.mem_filterMap.mp hissue
    obtain rfl : name = d.name :=
      (propertyIssue_property hissue).symm.trans (by simpa using hname)
    obtain rfl := Option.some.inj ((Table.mem_entries.mp hentry).symm.trans hraw)
    rw [hvalue] at hissue
    cases hissue
  have hvalid : result.valid.get d.name = some raw := by
    rw [Table.get_keep]
    simp [hraw, hvalue]
  by_contra hne
  obtain ⟨reason, hreason⟩ := Option.ne_none_iff_exists'.mp hne
  have hissue : definitionIssue nodeType graph result.valid d =
      some ⟨d.name, .invalidReference, reason⟩ := by
    rw [definitionIssue, happlies, hvalid]
    simp [href, hreason]
  have hnodup : (schema.sortedDefinitions.map PropertyDef.name).Nodup :=
    ((List.perm_insertionSort _ _).map _).nodup_iff.mpr (nodup_of_duplicateFailures hunique).1
  have hmem := mem_invalid_foldl_checkDefinition hnodup
    ((List.mem_insertionSort _).mpr hd) hrejected hissue
  exact absurd (hchecked _ hmem rfl) (by simp [ordinaryIssue])

end Schema

/-! ### What a mutation writes under a name -/

/-- The value that a patch leaves, none when it removes the property. -/
def patched (value : RawMessage) : Option RawMessage :=
  if value = "" ∨ value = "null" then none else some value

/-- The value that a plan writes under a name. -/
def MutationPlan.written (plan : MutationPlan) (name : String) : Option RawMessage :=
  if name = parentIDProperty then plan.parent.map quoteUUID else (plan.props.get name).bind patched

/-- A patch with one entry for a name leaves what the entry says, and a patch without one what was
there. -/
theorem get_foldl_patch {patch : List (String × RawMessage)}
    (hsorted : patch.Pairwise fun e e' => e.1 < e'.1) (props : Props) (name : String) :
    (patch.foldl (fun props e =>
      if e.2 = "" ∨ e.2 = "null" then props.erase e.1 else props.set e.1 e.2) props).get name =
      ((Table.lookup name patch).elim (props.get name) patched) := by
  induction patch generalizing props with
  | nil => rfl
  | cons e patch ih =>
    obtain ⟨hfirst, hrest⟩ := List.pairwise_cons.mp hsorted
    rw [List.foldl_cons, ih hrest, Table.lookup]
    by_cases hname : e.1 = name
    · subst hname
      have hlast : Table.lookup e.1 patch = none := by
        by_contra hne
        obtain ⟨value, hvalue⟩ := Option.ne_none_iff_exists'.mp hne
        exact lt_irrefl e.1 (hfirst (e.1, value) (Table.mem_of_lookup_eq_some hvalue))
      rw [if_pos rfl, hlast, Option.elim_none, Option.elim_some, patched]
      split_ifs
      · exact Table.get_erase_self _ _
      · exact Table.get_set_self _ _ _
    · rw [if_neg hname]
      congr 1
      split_ifs
      · exact Table.get_erase_ne _ (Ne.symm hname)
      · exact Table.get_set_ne _ _ hname

theorem get_patchProps (props patch : Props) (name : String) :
    (patchProps props patch).get name = (patch.get name).elim (props.get name) patched :=
  get_foldl_patch patch.sorted props name

variable {env : Env} {times : StepTimes} {db db' : Db} {plan : MutationPlan} {now : Time}

variable {raw : RawMessage} {orgId id : UUID} {typeKey : String} {d : PropertyDef} {source : MutationSource}
  {s : State}

/-- A value of the result was written by the plan or is the one of the stored node. -/
theorem written_or_stored {source : Option MutationSource} {name : String}
    (hshape : plan.props.get parentIDProperty = none)
    (h : (withParentID plan (mutationResult plan source now)).props.get name = some raw) :
    plan.written name = some raw ∨
      plan.written name = none ∧ ∃ found, source = some found ∧ found.node.props.get name = some raw := by
  have hbase : (mutationBase plan source now).props.get name = some raw →
      ∃ found, source = some found ∧ found.node.props.get name = some raw := by
    intro hget
    cases source with
    | none => cases hget
    | some found => exact ⟨found, rfl, hget⟩
  have hpatch : (mutationResult plan source now).props.get name =
      (plan.props.get name).elim ((mutationBase plan source now).props.get name) patched :=
    get_patchProps _ _ _
  rw [MutationPlan.written]
  by_cases hname : name = parentIDProperty
  · subst hname
    rw [if_pos rfl]
    cases hparent : plan.parent with
    | none =>
      rw [withParentID, hparent, hpatch, hshape] at h
      exact .inr ⟨rfl, hbase h⟩
    | some parentId =>
      rw [withParentID, hparent] at h
      exact .inl ((Table.get_set_self _ _ _).symm.trans h)
  · have hkept : (withParentID plan (mutationResult plan source now)).props.get name =
        (mutationResult plan source now).props.get name := by
      rw [withParentID]
      cases plan.parent with
      | none => rfl
      | some parentId => exact Table.get_set_ne _ _ (Ne.symm hname)
    rw [hkept, hpatch] at h
    rw [if_neg hname]
    cases hvalue : plan.props.get name with
    | none =>
      rw [hvalue] at h
      exact .inr ⟨rfl, hbase h⟩
    | some value =>
      rw [hvalue] at h
      exact .inl h

/-! ### The nodes after a mutation and after a deletion -/

theorem shape_of_ok {source : Option MutationSource} (h : checkPlanShape plan source = .ok ()) :
    plan.props.get parentIDProperty = none ∧ ∀ found, source = some found → found.typeKey = plan.nodeType := by
  rw [checkPlanShape] at h
  split_ifs at h with hparent hreserved hdiffers
  refine ⟨not_not.mp hparent, ?_⟩
  rintro found rfl
  simpa using hdiffers

/-- A deletion leaves the other nodes. -/
theorem readMutationSource_clearedNode (current : Node) (orgId id : UUID) :
    readMutationSource (db.clearedNode current) orgId id =
      if id = current.id then none else readMutationSource db orgId id := by
  rw [readMutationSource, Db.clearedNode]
  by_cases hid : id = current.id
  · rw [if_pos hid, hid, Table.get_erase_self]
  · rw [if_neg hid, Table.get_erase_ne _ hid, readMutationSource]
    cases db.resolves.get id with
    | none => rfl
    | some resolve =>
      have hne : (⟨orgId, resolve.nodeType, id⟩ : NodeKey) ≠ nodeInstanceKey current :=
        fun heq => hid (NodeKey.mk.inj heq).2.2
      dsimp only
      rw [Table.get_erase_ne _ hne]

/-- A type that a key leads to has the key, and is one of the types of the organization. -/
theorem cachedNodeTypeByKey_some {kind : NodeType} (h : cachedNodeTypeByKey db orgId typeKey = .ok (some kind)) :
    kind.typeKey = typeKey ∧ kind ∈ (db.nodeTypes.scan fun k => k.org == orgId).map Prod.snd := by
  rw [cachedNodeTypeByKey] at h
  split at h
  · cases h
  · next typeId _ =>
    obtain ⟨hget, hkey⟩ := Option.filter_eq_some_iff.mp (Except.ok.inj h)
    refine ⟨of_decide_eq_true hkey, List.mem_map.mpr ⟨(⟨orgId, typeId⟩, kind), ?_, rfl⟩⟩
    exact Table.mem_scan.mpr ⟨hget, beq_self_eq_true _⟩
  · cases h

/-- The graph that a mutation reads has the target of a reference only if the node is stored. -/
theorem target_of_referenceReason {result : Node} {schema : Schema} {wanted : String → Bool}
    (h : Schema.referenceReason d raw (readResultGraph db plan result schema wanted) = none) :
    ∃ target, readMutationSource db plan.orgId (storedUUID raw) = some target ∧
      target.typeKey = d.referenceTargetTypeKey := by
  rw [Schema.referenceReason, Schema.resultReferenceID, readResultGraph] at h
  dsimp only at h
  split_ifs at h with hasked hmissing htype
  · cases hsource : readMutationSource db plan.orgId (storedUUID raw) with
    | none => simp [hsource] at hmissing
    | some target =>
      rw [hsource] at htype
      exact ⟨target, rfl, not_not.mp htype⟩
  · simp [ResultTarget.absent] at *

variable {t : Attempt} {checked : CheckedPlan} {stored : Node} {refs : Refs} {edges : Edges}
  {edgeChanges : List Change}

/-- A mutation writes the node that its plan names. -/
theorem MutationSpec.key (hdb : WellStored db)
    (h : MutationSpec env plan now ⟨db, []⟩ t checked stored refs edges edgeChanges) :
    nodeInstanceKey stored = ⟨plan.orgId, plan.nodeType, plan.nodeId⟩ := by
  obtain ⟨props, -, hstored⟩ := Node.marshalled_eq_some h.marshalled
  have hkey : nodeInstanceKey stored = nodeInstanceKey checked.result := by rw [hstored]; rfl
  rw [hkey, h.checks.result]
  cases hsource : checked.source with
  | none => exact nodeInstanceKey_mutationResult_none plan now
  | some source =>
    rw [nodeInstanceKey_mutationResult_some, ← (shape_of_ok h.checks.shape).2 source hsource]
    exact hdb.source_key (h.checks.source.symm.trans hsource)

theorem MutationSpec.readMutationSource_eq (hdb : WellStored db)
    (h : MutationSpec env plan now ⟨db, []⟩ t checked stored refs edges edgeChanges) (orgId id : UUID) :
    readMutationSource t.db orgId id =
      if id = plan.nodeId then if orgId = plan.orgId then some ⟨plan.nodeType, stored⟩ else none
      else readMutationSource db orgId id := by
  have hkey := h.key hdb
  obtain ⟨horg, htype, hid⟩ := NodeKey.mk.inj hkey
  rw [readMutationSource, h.put.nodes, h.put.resolves, hkey, hid, horg, htype]
  by_cases hname : id = plan.nodeId
  · subst hname
    rw [if_pos rfl, Table.get_set_self]
    by_cases hown : orgId = plan.orgId
    · subst hown
      simp
    · simp [hown, Ne.symm hown]
  · rw [if_neg hname, Table.get_set_ne _ _ (Ne.symm hname), readMutationSource]
    cases db.resolves.get id with
    | none => rfl
    | some resolve =>
      have hne : (⟨plan.orgId, plan.nodeType, plan.nodeId⟩ : NodeKey) ≠ ⟨orgId, resolve.nodeType, id⟩ :=
        fun heq => hname (NodeKey.mk.inj heq).2.2.symm
      dsimp only
      rw [Table.get_set_ne _ _ hne]

/-- A reference that a mutation checks names a stored node of its target type. -/
theorem MutationSpec.target_of_checked
    (h : MutationSpec env plan now ⟨db, []⟩ t checked stored refs edges edgeChanges)
    (hd : d ∈ db.definitionsOf plan.orgId) (href : d.isReference = true)
    (happlies : propertyAppliesTo d checked.kind = true)
    (hraw : checked.result.props.get d.name = some raw)
    (hchecked : checked.source = none ∨ plan.props.get d.name ≠ none) :
    ∃ target, readMutationSource db plan.orgId (storedUUID raw) = some target ∧
      target.typeKey = d.referenceTargetTypeKey := by
  have hschema := h.checks.schema
  have htype : checked.schema.types.get plan.nodeType = some checked.kind := by
    rw [hschema, (cachedNodeTypeByKey_some h.checks.kind).1]
    exact Table.get_set_self _ _ _
  have hordinary := h.ordinary
  rw [checkMutationResult] at hordinary
  dsimp only at hordinary
  split_ifs at hordinary with hfailures hissues
  have hwanted : (checked.source.isNone || (plan.props.get d.name).isSome) = true := by
    simpa [Option.isSome_iff_ne_none] using hchecked
  have hreason := Schema.referenceReason_of_ordinary htype (not_not.mp hfailures) (hschema ▸ hd)
    happlies href hraw fun issue hissue hproperty => by
      rw [Bool.not_eq_true, List.any_eq_false] at hissues
      simpa [hproperty, hwanted] using hissues issue hissue
  -- the fence writes no node
  have htarget := target_of_referenceReason hreason
  exact htarget

/-! ### References that are held -/

/-- The definition of an indexed reference. -/
def PropertyDef.isIndexedReference (d : PropertyDef) : Bool := d.isReference && d.indexed

/-- The node that a value names: the value is a JSON string that parses as a UUID. -/
def namedNode (raw : RawMessage) : Option UUID :=
  match Json.parse raw.toList with
  | some (.str text) => UUID.parse text
  | _ => none

theorem namedNode_quoteUUID (id : UUID) : namedNode (quoteUUID id) = some id := by
  have hparse := Json.parse_render (.str id.text)
  rw [Json.render] at hparse
  rw [namedNode, quoteUUID, String.toList_ofList, hparse]
  simp

/-- A definition applies to the type of a key. -/
def AppliesTo (db : Db) (orgId : UUID) (typeKey : String) (d : PropertyDef) : Prop :=
  ∃ kind, cachedNodeTypeByKey db orgId typeKey = .ok (some kind) ∧ propertyAppliesTo d kind = true

/-- A node of a type is stored. -/
def StoredAs (db : Db) (orgId id : UUID) (typeKey : String) : Prop :=
  ∃ target, readMutationSource db orgId id = some target ∧ target.typeKey = typeKey

/-- A reference that a deletion of the node `id` finds. -/
structure HeldReference (db : Db) (orgId nodeId : UUID) (typeKey : String) (d : PropertyDef) (id : UUID) :
    Prop where
  applies : AppliesTo db orgId typeKey d
  indexed : db.byProperty.get ⟨orgId, typeKey, d.name, quoteUUID id, nodeId⟩ ≠ none
  target : StoredAs db orgId id d.referenceTargetTypeKey

/-- Every value of an indexed reference is spelled as a deletion looks it up, and held. -/
def ReferencesHeld (db : Db) : Prop :=
  ∀ ⦃orgId nodeId source d raw⦄, readMutationSource db orgId nodeId = some source →
    d ∈ db.definitionsOf orgId → d.isIndexedReference = true → source.node.props.get d.name = some raw →
    ∃ id, raw = quoteUUID id ∧ HeldReference db orgId nodeId source.typeKey d id

/-- The condition on a plan: no other organization has a node with its ID; the references that it
writes are spelled as a deletion looks them up, and their definitions apply to the type; and a parent
of a stored node has the target type when parents are indexed references. -/
structure PlainReferences (db : Db) (plan : MutationPlan) : Prop where
  ownId : ∀ resolve ∈ db.resolves.get plan.nodeId, resolve.orgId = plan.orgId
  plain : ∀ d ∈ db.definitionsOf plan.orgId, d.isIndexedReference = true →
    ∀ raw ∈ plan.written d.name, quoteUUID (storedUUID raw) = raw ∧ AppliesTo db plan.orgId plan.nodeType d
  parent : ∀ d ∈ db.definitionsOf plan.orgId, d.isIndexedReference = true → d.name = parentIDProperty →
    ∀ parentId ∈ plan.parent, (readMutationSource db plan.orgId plan.nodeId).isSome = true →
    StoredAs db plan.orgId parentId d.referenceTargetTypeKey

theorem SameSchema.appliesTo_iff (h : SameSchema db db') : AppliesTo db' orgId typeKey d ↔ AppliesTo db orgId typeKey d := by
  rw [AppliesTo, AppliesTo, h.cachedNodeTypeByKey]

/-- An indexed reference that applies is among the properties that a write reconciles. -/
theorem mem_indexedPropertyNames {definitions : List PropertyDef} {kind : NodeType}
    (hd : d ∈ definitions) (href : d.isIndexedReference = true)
    (happlies : propertyAppliesTo d kind = true) : d.name ∈ indexedPropertyNames definitions kind := by
  refine List.mem_map.mpr ⟨d, List.mem_filter.mpr ⟨hd, ?_⟩, rfl⟩
  rw [(Bool.and_eq_true_iff.mp href).2, happlies]
  rfl

/-- A node that references the node keeps it from being deleted. -/
theorem isReferenced_of_held {nodeId : UUID} (hd : d ∈ db.definitionsOf orgId) (href : d.isIndexedReference = true)
    (hheld : HeldReference db orgId nodeId typeKey d id) (hid : source.node.id = id)
    (htype : source.typeKey = d.referenceTargetTypeKey) : isReferenced db orgId source = true := by
  obtain ⟨kind, hkind, happlies⟩ := hheld.applies
  obtain ⟨hkey, hmem⟩ := cachedNodeTypeByKey_some hkind
  obtain ⟨hreference, hindexed⟩ := Bool.and_eq_true_iff.mp href
  have huuid : d.type = .uuid := by
    rw [PropertyDef.isReference, Bool.and_eq_true_iff] at hreference
    exact of_decide_eq_true hreference.1
  obtain ⟨u, hentry⟩ := Option.ne_none_iff_exists'.mp hheld.indexed
  rw [isReferenced, List.any_eq_true]
  refine ⟨d, hd, ?_⟩
  rw [hindexed, decide_eq_true huuid, decide_eq_true htype.symm, Bool.true_and, Bool.true_and,
    Bool.true_and, List.any_eq_true]
  refine ⟨kind, hmem, ?_⟩
  rw [happlies, Bool.true_and, Bool.not_eq_true', List.isEmpty_eq_false_iff_exists_mem]
  refine ⟨_, Table.mem_scan.mpr ⟨hentry, ?_⟩⟩
  simp [hkey, hid, inTextRange]

/-! ### One call -/

/-- A node keeps its type through a mutation. -/
theorem storedAs_of_mutated (hdb : WellStored db)
    (hspec : MutationSpec env plan now ⟨db, []⟩ t checked stored refs edges edgeChanges)
    (hplain : PlainReferences db plan)
    (h : StoredAs db orgId id typeKey) : StoredAs t.db orgId id typeKey := by
  obtain ⟨target, hread, rfl⟩ := h
  rw [StoredAs, hspec.readMutationSource_eq hdb]
  by_cases hid : id = plan.nodeId
  · subst hid
    obtain rfl : orgId = plan.orgId := hplain.ownId _ (readMutationSource_eq_some.mp hread).1
    have htype := (shape_of_ok hspec.checks.shape).2 target (hspec.checks.source.trans hread)
    exact ⟨⟨plan.nodeType, stored⟩, by simp, htype.symm⟩
  · exact ⟨target, by simp [hid, hread], rfl⟩

theorem reconciledEntry_new {old value : RawMessage} {entry : Option Unit} (hvalue : value ≠ "")
    (hold : old = value → entry ≠ none) : reconciledEntry old value value entry ≠ none := by
  rw [reconciledEntry]
  by_cases hsame : old = value
  · rw [if_pos hsame]
    exact hold hsame
  · rw [if_neg hsame, if_pos ⟨hvalue, rfl⟩]
    simp

/-- A reconciled property has the entry of its value, when it had it before in case the value stays. -/
theorem entry_of_reconciled {index : PropIndex} {current : Node} {oldProps : Props} {names : List String}
    {name : String} {value : RawMessage} (hname : name ∈ names) (hnew : current.prop name = value)
    (hvalue : value ≠ "") (hold : oldProps.get name = some value →
      index.get (nodeByPropertyKey current name value) ≠ none) :
    (reconcilePropertyIndexes index current oldProps names).get (nodeByPropertyKey current name value) ≠
      none := by
  rw [get_reconcilePropertyIndexes, if_pos ⟨rfl, hname⟩]
  change reconciledEntry (passedValue oldProps name) (current.prop name) value _ ≠ none
  rw [hnew]
  refine reconciledEntry_new hvalue fun hsame => hold ?_
  rw [passedValue] at hsame
  cases hget : oldProps.get name with
  | none =>
    rw [hget] at hsame
    exact absurd hsame.symm hvalue
  | some old =>
    rw [hget] at hsame
    exact congrArg some hsame

/-- A reference that a mutation wrote names a stored node of its target type. -/
theorem storedAs_of_written (hspec : MutationSpec env plan now ⟨db, []⟩ t checked stored refs edges edgeChanges)
    (hplain : PlainReferences db plan)
    (hd : d ∈ db.definitionsOf plan.orgId) (href : d.isIndexedReference = true)
    (hraw : checked.result.props.get d.name = some (quoteUUID id))
    (hwritten : plan.written d.name = some (quoteUUID id)) :
    StoredAs db plan.orgId id d.referenceTargetTypeKey := by
  obtain ⟨kind, hkind, happlies⟩ := (hplain.plain d hd href _ hwritten).2
  obtain rfl : checked.kind = kind := by simpa using hspec.checks.kind.symm.trans hkind
  have hcheck : checked.source = none ∨ plan.props.get d.name ≠ none →
      StoredAs db plan.orgId id d.referenceTargetTypeKey := by
    intro hchecked
    obtain ⟨target, hread, htype⟩ := hspec.target_of_checked hd (Bool.and_eq_true_iff.mp href).1 happlies
      hraw hchecked
    exact ⟨target, by rwa [storedUUID_quoteUUID] at hread, htype⟩
  rw [MutationPlan.written] at hwritten
  split_ifs at hwritten with hname
  · -- the parent of a stored node is not checked as a reference
    by_cases hsource : checked.source = none
    · exact hcheck (.inl hsource)
    · obtain ⟨parentId, hparent, hquoted⟩ := Option.map_eq_some_iff.mp hwritten
      obtain rfl := quoteUUID_injective hquoted
      exact hplain.parent d hd href hname _ hparent
        (Option.isSome_iff_ne_none.mpr (hspec.checks.source ▸ hsource))
  · obtain ⟨value, hvalue, -⟩ := Option.bind_eq_some_iff.mp hwritten
    exact hcheck (.inr (by simp [hvalue]))

/-- The references of the node that a mutation writes are held. -/
theorem held_of_mutated (hdb : WellStored db) (hschema : SameSchema db t.db)
    (hspec : MutationSpec env plan now ⟨db, []⟩ t checked stored refs edges edgeChanges)
    (hplain : PlainReferences db plan) (h : ReferencesHeld db)
    (hd : d ∈ db.definitionsOf plan.orgId) (href : d.isIndexedReference = true)
    (hraw : stored.props.get d.name = some raw) :
    ∃ id, raw = quoteUUID id ∧ HeldReference t.db plan.orgId plan.nodeId plan.nodeType d id := by
  obtain ⟨props, hprops, hstored⟩ := Node.marshalled_eq_some hspec.marshalled
  have hresultKey : nodeInstanceKey checked.result = ⟨plan.orgId, plan.nodeType, plan.nodeId⟩ := by
    rw [← hspec.key hdb, hstored]
    rfl
  rw [hstored, (marshalProps_eq_some hprops).1, Table.get_map] at hraw
  obtain ⟨value, hvalue, rfl⟩ := Option.map_eq_some_iff.mp hraw
  have hprop : checked.result.prop d.name = value := by rw [Node.prop, hvalue, Option.getD_some]
  have hshape := shape_of_ok hspec.checks.shape
  have hheld : ∀ found, checked.source = some found → found.node.props.get d.name = some value →
      ∃ id, value = quoteUUID id ∧ HeldReference db plan.orgId plan.nodeId plan.nodeType d id := by
    intro found hfound hold
    rw [← hshape.2 found hfound]
    exact h (hspec.checks.source.symm.trans hfound) hd href hold
  -- it is left to see what the plan wrote or left
  suffices hsuff : ∃ id, value = quoteUUID id ∧ AppliesTo db plan.orgId plan.nodeType d ∧
      StoredAs db plan.orgId id d.referenceTargetTypeKey by
    obtain ⟨id, rfl, ⟨kind, hkind, happlies⟩, htarget⟩ := hsuff
    refine ⟨id, (compact_quoteUUID id).rawSpelling, ⟨hschema.appliesTo_iff.mpr ⟨kind, hkind, happlies⟩, ?_,
      storedAs_of_mutated hdb hspec hplain htarget⟩⟩
    obtain rfl : checked.kind = kind := by simpa using hspec.checks.kind.symm.trans hkind
    have hkey : nodeByPropertyKey checked.result d.name (quoteUUID id) =
        ⟨plan.orgId, plan.nodeType, d.name, quoteUUID id, plan.nodeId⟩ :=
      nodeByPropertyKey_eq_iff.mpr ⟨hresultKey.symm, rfl, rfl⟩
    rw [← hkey, hspec.db]
    refine entry_of_reconciled (mem_indexedPropertyNames hd href happlies) hprop (quoteUUID_ne_empty id) ?_
    intro hold
    cases hsource : checked.source with
    | none =>
      rw [hsource] at hold
      cases hold
    | some found =>
      rw [hsource] at hold
      obtain ⟨id', hid', hwas⟩ := hheld found hsource hold
      rw [hkey, hid']
      exact hwas.indexed
  have hresult := hvalue
  rw [hspec.checks.result] at hvalue
  obtain hwritten | ⟨-, found, hfound, hold⟩ := written_or_stored hshape.1 hvalue
  · obtain ⟨hplainly, happlies⟩ := hplain.plain d hd href _ hwritten
    rw [← hplainly] at hresult hwritten
    exact ⟨_, hplainly.symm, happlies, storedAs_of_written hspec hplain hd href hresult hwritten⟩
  · obtain ⟨id, rfl, hwas⟩ := hheld found hfound hold
    exact ⟨id, rfl, hwas.applies, hwas.target⟩

/-- **A mutation with plain references keeps the references held.** -/
theorem referencesHeld_of_mutated (hdb : WellStored db) (hschema : SameSchema db t.db)
    (hspec : MutationSpec env plan now ⟨db, []⟩ t checked stored refs edges edgeChanges)
    (hplain : PlainReferences db plan) (h : ReferencesHeld db) : ReferencesHeld t.db := by
  intro orgId nodeId source d raw hsource hd href hraw
  rw [hschema.definitionsOf] at hd
  obtain ⟨props, hprops, hstored⟩ := Node.marshalled_eq_some hspec.marshalled
  have hresultKey : nodeInstanceKey checked.result = ⟨plan.orgId, plan.nodeType, plan.nodeId⟩ := by
    rw [← hspec.key hdb, hstored]
    rfl
  rw [hspec.readMutationSource_eq hdb] at hsource
  by_cases hid : nodeId = plan.nodeId
  · subst hid
    rw [if_pos rfl] at hsource
    split_ifs at hsource with horg
    subst horg
    obtain rfl := Option.some.inj hsource
    exact held_of_mutated hdb hschema hspec hplain h hd href hraw
  · -- the values and the entries of the other nodes stay
    rw [if_neg hid] at hsource
    obtain ⟨id, rfl, hheld⟩ := h hsource hd href hraw
    refine ⟨id, rfl, hschema.appliesTo_iff.mpr hheld.applies, ?_,
      storedAs_of_mutated hdb hspec hplain hheld.target⟩
    rw [hspec.db, get_reconcilePropertyIndexes, if_neg fun hk => hid ?_]
    · exact hheld.indexed
    · exact (NodeKey.mk.inj (hk.1.trans hresultKey)).2.2

/-- **A deletion keeps the references held.** -/
theorem referencesHeld_of_deleted {plan : DeletionPlan}
    {incoming : List Relationship} {sources : List HierarchyNode} (hdb : WellStored db)
    (hspec : DeletionSpec env db plan source incoming sources) (h : ReferencesHeld db) :
    ReferencesHeld ((db.fence plan.orgId plan.nodeId).clearedNode source.node) := by
  obtain ⟨horg, -, hid⟩ := NodeKey.mk.inj (hdb.source_key hspec.readSource)
  intro orgId nodeId found d raw hfound hd href hraw
  rw [readMutationSource_clearedNode] at hfound
  split_ifs at hfound with hnode
  obtain ⟨id, rfl, hheld⟩ := h hfound hd href hraw
  refine ⟨id, rfl, hheld.applies, ?_, ?_⟩
  · refine (get_clearPropertyIndexes _ _ _).mpr ⟨hheld.indexed, fun hk => hnode ?_⟩
    exact (NodeKey.mk.inj hk.1).2.2
  · obtain ⟨target, hread, htype⟩ := hheld.target
    refine ⟨target, ?_, htype⟩
    rw [readMutationSource_clearedNode, if_neg]
    · exact hread
    · -- the deleted node would be referenced
      rintro rfl
      have hresolve := (readMutationSource_eq_some.mp hread).1
      rw [hid, (readMutationSource_eq_some.mp hspec.readSource).1] at hresolve
      obtain ⟨rfl, hkey⟩ := NodeResolve.mk.inj (Option.some.inj hresolve)
      have hreferenced : isReferenced db plan.orgId source = true :=
        isReferenced_of_held hd href hheld rfl (hkey.trans htype)
      exact absurd (hspec.notReferenced.symm.trans hreferenced) (by decide)

/-! ### Runs -/

instance (db : Db) (orgId : UUID) (typeKey : String) (d : PropertyDef) :
    Decidable (AppliesTo db orgId typeKey d) :=
  match h : cachedNodeTypeByKey db orgId typeKey with
  | .ok (some kind) => decidable_of_iff (propertyAppliesTo d kind = true) (by simp [AppliesTo, h])
  | .ok none => isFalse (by simp [AppliesTo, h])
  | .error _ => isFalse (by simp [AppliesTo, h])

instance (db : Db) (orgId id : UUID) (typeKey : String) : Decidable (StoredAs db orgId id typeKey) :=
  decidable_of_iff (∃ target ∈ readMutationSource db orgId id, target.typeKey = typeKey) Iff.rfl

instance (db : Db) (plan : MutationPlan) : Decidable (PlainReferences db plan) :=
  decidable_of_iff (_ ∧ _ ∧ _) ⟨fun h => ⟨h.1, h.2.1, h.2.2⟩, fun h => ⟨h.1, h.2, h.3⟩⟩

/-- The call is a deletion, or a mutation that meets its condition if it commits and writes. -/
def Call.WritesPlainReferences (db : Db) (commits : Bool) : Call → Prop
  | mutate plan => commits = true → readCreateIdempotency db plan = .ok false → PlainReferences db plan
  | deleteNode _ => True
  | _ => False

instance (db : Db) (commits : Bool) (call : Call) : Decidable (call.WritesPlainReferences db commits) :=
  match call with
  | .mutate plan => inferInstanceAs (Decidable (_ → _ → PlainReferences db plan))
  | .deleteNode _ => isTrue trivial
  | .create _ | .update _ | .delete .. | .setReferences .. | .addRelationship .. | .removeRelationship ..
  | .startSubtreeDelete .. | .deleteSubtreeStep _ | .setNodeType _ | .deleteNodeType .. | .replaceNodeType ..
  | .setPropertyDef _ | .deletePropertyDef .. | .replacePropertyDef .. | .activateStrict .. => isFalse not_false

/-- The call is `ApplyMutation` or `DeleteNode`. -/
def Call.mutatesOrDeletes : Call → Bool
  | mutate _ | deleteNode _ => true
  | _ => false

/-- The condition on the moves of a run. -/
def WritesPlainReferences (env : Env) (s : State) (move : Move) : Prop :=
  move.call.WritesPlainReferences s.db (runCall env move s.db).isOk

instance (env : Env) (s : State) (move : Move) : Decidable (WritesPlainReferences env s move) :=
  inferInstanceAs (Decidable (Call.WritesPlainReferences ..))

theorem WritesPlainReferences.writesSchema {move : Move}
    (h : WritesPlainReferences env s move) : move.call.writesSchema = false := by
  obtain ⟨call, aborted, times⟩ := move
  cases call <;> first | rfl | exact h.elim

theorem referencesHeld_of_reach {schema : Db}
    (h : Reach (step env) (WritesPlainReferences env) ⟨schema.schemaOnly, []⟩ s) :
    WellStored s.db ∧ ReferencesHeld s.db := by
  refine h.invariant (I := fun s => WellStored s.db ∧ ReferencesHeld s.db)
    ⟨wellStored_of_empty rfl rfl, fun _ _ _ _ _ hsource => by cases hsource⟩ fun {u move u'} hu hok hs => ?_
  obtain ⟨-, rfl⟩ | ⟨t, hrun, -, hcommitted, rfl⟩ := step_cases hs
  · exact hu
  refine ⟨wellStored_of_committed hcommitted hu.1, ?_⟩
  have hcall := hok.writesSchema
  obtain ⟨call, aborted, times⟩ := move
  dsimp only at hcommitted
  cases hcommitted with
  | replayed => exact hu.2
  | mutated fresh spec =>
    have hschema := sameSchema_of_committed (.mutated fresh spec) rfl
    exact referencesHeld_of_mutated hu.1 hschema spec (hok (by rw [hrun]; rfl) fresh) hu.2
  | deletedNode spec => exact referencesHeld_of_deleted hu.1 spec hu.2
  | schemaKept schema | schemaWritten schema => exact absurd (hcall.symm.trans schema) (by decide)
  | _ => exact hok.elim

/-- **No reference dangles.**  In every run of mutations with plain references and deletions, the node
that a value of an indexed reference names is stored, and every deletion of it is refused. -/
theorem no_dangling_reference (env : Env) (schema : Db)
    (h : Reach (step env) (WritesPlainReferences env) ⟨schema.schemaOnly, []⟩ s) {nodeId : UUID}
    (hsource : readMutationSource s.db orgId nodeId = some source) (hd : d ∈ s.db.definitionsOf orgId)
    (href : d.isIndexedReference = true) (hraw : source.node.props.get d.name = some raw)
    (hnamed : namedNode raw = some id) :
    readMutationSource s.db orgId id ≠ none ∧
      ∀ move plan, move.call = .deleteNode plan → plan.orgId = orgId → plan.nodeId = id →
        ∃ refusal, runCall env move s.db = .error refusal := by
  obtain ⟨hdb, hheld⟩ := referencesHeld_of_reach h
  obtain ⟨id', rfl, hreference⟩ := hheld hsource hd href hraw
  obtain rfl := Option.some.inj ((namedNode_quoteUUID id').symm.trans hnamed)
  obtain ⟨target, htarget, htype⟩ := hreference.target
  refine ⟨by simp [htarget], ?_⟩
  rintro move plan hcall rfl rfl
  cases hrun : runCall env move s.db with
  | error refusal => exact ⟨refusal, rfl⟩
  | ok t =>
    have hcommitted := committed_of_attempt (runCall_ok.mp hrun)
    rw [hcall] at hcommitted
    cases hcommitted with
    | deletedNode spec =>
      obtain rfl := Option.some.inj (spec.readSource.symm.trans htarget)
      have hid := (NodeKey.mk.inj (hdb.source_key htarget)).2.2
      have hreferenced := isReferenced_of_held hd href hreference hid htype
      exact absurd (spec.notReferenced.symm.trans hreferenced) (by decide)
    | schemaKept schema | schemaWritten schema => cases schema

/-- An organization with states and tasks, where a task has an indexed reference to its state. -/
def stateSchema : Db :=
  { Db.empty with
    nodeTypes := (Table.empty.set ⟨1, 2⟩ ⟨2, 1, "state", [], [], [], [], ""⟩).set ⟨1, 3⟩
      ⟨3, 1, "task", [], [], [], [], ""⟩
    nodeTypesByKey := (Table.empty.set ⟨1, "state", 2⟩ ()).set ⟨1, "task", 3⟩ ()
    propertyDefs := Table.empty.set ⟨1, 4⟩ stateReference }
where
  stateReference : PropertyDef := ⟨4, 1, "state", .uuid, [], true, [], false, "state", ""⟩

/-- A plan that creates a node with the given properties. -/
def newNodePlan (nodeId : UUID) (nodeType : String) (props : Props) : MutationPlan :=
  ⟨1, nodeId, nodeType, 9, ⟨true, 0⟩, 0, ⟨[], [], []⟩, none, props, none, none, ⟨[], []⟩, none⟩

/-- The state is created. -/
def createState : Move := .once (.mutate (newNodePlan 5 "state" .empty))

/-- A task is created with a value of the reference. -/
def createTask (state : RawMessage) : Move :=
  .once (.mutate (newNodePlan 6 "task" (Table.empty.set "state" state)))

/-- The state is deleted. -/
def deleteState : Move := .once (.deleteNode ⟨1, 5, ⟨false, 0⟩, ⟨[], [], []⟩⟩)

/-- The text of the reference with its first digit escaped. -/
def escapedState : RawMessage := "\"\\u00300000000-0000-0000-0000-000000000005\""

theorem no_dangling_reference_plain : ∃ s,
    Reach (step .constant) (WritesPlainReferences .constant) ⟨stateSchema.schemaOnly, []⟩ s ∧
    readMutationSource s.db 1 5 ≠ none ∧ ∃ refusal, runCall .constant deleteState s.db = .error refusal := by
  have hcheck : ∀ s move, decide (WritesPlainReferences .constant s move) = true →
      WritesPlainReferences .constant s move := fun _ _ => of_decide_eq_true
  obtain ⟨s, hreach, hrun⟩ := exists_reach_of_runChecked (step .constant) hcheck
    ⟨stateSchema.schemaOnly, []⟩ [createState, createTask (quoteUUID 5)]
    (fun s => ((readMutationSource s.db 1 6).any fun source =>
      source.node.props.get "state" = some (quoteUUID 5)) ∧
      stateSchema.stateReference ∈ s.db.definitionsOf 1) (by decide +kernel)
  obtain ⟨hsource, hd⟩ := of_decide_eq_true hrun
  obtain ⟨source, hread, hraw⟩ := (Option.any_eq_true _ _).mp hsource
  obtain ⟨hstored, hrefused⟩ := no_dangling_reference .constant stateSchema hreach hread hd rfl
    (of_decide_eq_true hraw) (namedNode_quoteUUID 5)
  exact ⟨s, hreach, hstored, hrefused deleteState _ rfl rfl rfl⟩

/-- A task with an escaped spelling of its state is accepted, and the state is deleted after it. -/
theorem dangling_reference : ∃ s source,
    Reach (step .constant) (fun _ move => move.call.mutatesOrDeletes) ⟨stateSchema.schemaOnly, []⟩ s ∧
    readMutationSource s.db 1 6 = some source ∧ stateSchema.stateReference ∈ s.db.definitionsOf 1 ∧
    source.node.props.get "state" = some escapedState ∧ namedNode escapedState = some 5 ∧
    readMutationSource s.db 1 5 = none := by
  obtain ⟨s, hreach, hrun⟩ := exists_reach_of_runChecked (step .constant)
    (fun _ (move : Move) (h : move.call.mutatesOrDeletes = true) => h) ⟨stateSchema.schemaOnly, []⟩
    [createState, createTask escapedState, deleteState]
    (fun s => ((readMutationSource s.db 1 6).any fun source =>
      source.node.props.get "state" = some escapedState) ∧
      stateSchema.stateReference ∈ s.db.definitionsOf 1 ∧ (readMutationSource s.db 1 5).isNone)
    (by decide +kernel)
  obtain ⟨hsource, hd, hgone⟩ := of_decide_eq_true hrun
  obtain ⟨source, hread, hraw⟩ := (Option.any_eq_true _ _).mp hsource
  exact ⟨s, source, hreach, hread, hd, of_decide_eq_true hraw, by decide +kernel,
    Option.isNone_iff_eq_none.mp hgone⟩

end Tack.Nodes

import Tack.Search.Metadata

/-!
# The digest counts the stored records

While the projection of an organization is one of this writer, its digest is the sum of the contributions
of the stored definitions and types.  A write replaces one summand; the metadata pass adds up what it
reads, and its sum is that of all records when the epoch has not moved since the start.

Two kinds of write break this.  `SetProjectionIfNil` changes a declaration, which is a rendering input,
and moves neither the digest nor the epoch.  A record with an empty slice contributes `[]` when it is
written and `null` when it is read back.

## Main definitions

* `Search.DigestInv` — the digest and the sum of the pass.
* `Search.CountedMove` — the moves that keep them.

## Main results

* `Search.DigestInv.step` — one counted move.
* `Search.projection_digest_counts` — every run of counted moves.
* `Search.projection_digest_drifts` — runs with the two kinds of write.
-/

namespace Tack.Search

open Lib

variable {Key : Type} {sha : List Byte → BitVec 256} {s s' : MetadataState Key}

/-! ### Sums -/

theorem contributionValue_definition (sha : List Byte → BitVec 256) (previous : Option (Stored DefinitionRecord)) :
    contributionValue (definitionContribution sha (previous.map Stored.record)) =
      previous.elim 0 (definitionWeight sha) := by
  cases previous <;> rfl

theorem contributionValue_type (sha : List Byte → BitVec 256) (previous : Option (Stored TypeRecord)) :
    contributionValue (typeContribution sha (previous.map Stored.record)) =
      previous.elim 0 (typeWeight sha) := by
  cases previous <;> rfl

theorem total_of_organizationHasNoMetadata (h : organizationHasNoMetadata s = true) : s.total sha = 0 := by
  rw [organizationHasNoMetadata, Bool.and_eq_true, List.isEmpty_iff, List.isEmpty_iff] at h
  simp [MetadataState.total, Table.total, h.1, h.2]

/-! ### The digest after one write -/

/-- A projection of this writer has the digest of the sum. -/
def DigestExact (s : MetadataState Key) (sum : ℤ) : Prop :=
  ∀ state, s.projection = some state → state.writerProjection = true → state.digest = digestOf sum

theorem applyProjectionChange_eq_some {change : ProjectionChange} {sum : ℤ}
    (h : applyProjectionChange change s = some s') (hexact : DigestExact s sum)
    (hfirst : change.created = true → organizationHasNoMetadata s = true → sum = contributionValue change.previous) :
    (∃ projection legacyDigest, s' = { s with projection, legacyDigest }) ∧
      DigestExact s' (sum - contributionValue change.previous + contributionValue change.next) := by
  unfold applyProjectionChange at h
  cases hprojection : s.projection with
  | some state =>
    rw [hprojection] at h
    dsimp only at h
    split_ifs at h with hwriter
    · rw [hexact state hprojection hwriter, replaceContribution_digestOf, Option.map_some, Option.some.injEq] at h
      subst h
      refine ⟨⟨_, _, rfl⟩, fun active hactive _ => ?_⟩
      obtain rfl := Option.some.inj hactive
      rfl
    · obtain rfl := Option.some.inj h
      exact ⟨⟨_, _, rfl⟩, fun active hactive => by cases hactive⟩
  | none =>
    rw [hprojection] at h
    dsimp only at h
    have hlegacy : ∃ legacyDigest, updateProjectionDigest change.legacyPrevious change.legacyNext s =
        { s with legacyDigest } := by
      unfold updateProjectionDigest
      split_ifs
      · exact ⟨_, rfl⟩
      · exact ⟨_, rfl⟩
    obtain ⟨legacyDigest, hlegacy⟩ := hlegacy
    rw [hlegacy] at h
    split_ifs at h with hcreated
    · obtain ⟨hcreated, hempty⟩ := Bool.and_eq_true_iff.mp hcreated
      obtain rfl := Option.some.inj h
      refine ⟨⟨_, _, rfl⟩, fun active hactive _ => ?_⟩
      obtain rfl := Option.some.inj hactive
      rw [hexEncode_sumContributions_nil, hfirst hcreated hempty, sub_self, zero_add]
    · obtain rfl := Option.some.inj h
      refine ⟨⟨_, _, rfl⟩, fun active hactive => ?_⟩
      cases hprojection.symm.trans hactive

theorem bumpMetadataEpoch_eq_some {α : Type} [DecidableEq α] {previous next : Option (Stored α)}
    (h : bumpMetadataEpoch previous next s = some s') :
    previous = next ∧ s' = s ∨ s' = { s with epoch := s.epoch + 1 } := by
  unfold bumpMetadataEpoch at h
  split_ifs at h with hsame
  · exact .inl ⟨hsame, (Option.some.inj h).symm⟩
  · exact .inr (Option.some.inj h).symm

/-! ### The target of the pass -/

/-- A pass that recomputes the projection stands where it stood. -/
def TargetKept (r r' : RescanState Key) : Prop :=
  ∀ scan' target, r'.scan = some scan' → scan'.projection = some target →
    ∃ scan, r.scan = some scan ∧ scan.projection = some target ∧ scan.position = scan'.position

theorem TargetKept.refl (r : RescanState Key) : TargetKept r r :=
  fun scan _ hscan htarget => ⟨scan, hscan, htarget, rfl⟩

/-- A request goes on from the pending checkpoint, or starts without a target. -/
theorem continued_projection {pending : Option (ScanRecord Key)} {target : ProjectionTarget}
    (h : (ScanRecord.continued pending).projection = some target) :
    ∃ scan, pending = some scan ∧ scan.projection = some target ∧
      scan.position = (ScanRecord.continued pending).position := by
  cases pending with
  | none => cases h
  | some scan =>
    unfold ScanRecord.continued at h ⊢
    cases hposition : scan.position <;> simp only [hposition] at h ⊢ <;> exact ⟨scan, rfl, h, by simp [hposition]⟩

theorem requestMetadataRescan_eq_some {request : RescanRequest} (h : requestMetadataRescan request s = some s')
    (hprojection : request.projection = false) :
    ∃ rescan, s' = { s with rescan } ∧ TargetKept s.rescan rescan := by
  obtain ⟨rescan, hrescan, rfl⟩ := Option.map_eq_some_iff.mp h
  refine ⟨rescan, rfl, ?_⟩
  simp only [requestSearchRescan, hprojection, Bool.false_eq_true, if_false] at hrescan
  split_ifs at hrescan
  obtain rfl := Option.some.inj hrescan
  intro scan' target hscan' htarget
  obtain rfl := Option.some.inj hscan'
  obtain ⟨content, names, typeKeys, features, access, hmerge⟩ :=
    mergeScanRequest_eq (ScanRecord.continued s.rescan.scan) request
  simp only [hmerge] at htarget ⊢
  exact continued_projection htarget

/-! ### What a write keeps up to date -/

/-- The state before the record itself is written: the digest counts `sum`, and the epoch stands only if
`same`, that the bytes do not change. -/
structure Updated (s s' : MetadataState Key) (sum : ℤ) (same : Prop) : Prop where
  definitions : s'.definitions = s.definitions
  types : s'.types = s.types
  exact : DigestExact s' sum
  epoch : same ∧ s'.epoch = s.epoch ∨ s'.epoch = s.epoch + 1
  target : TargetKept s.rescan s'.rescan

theorem TargetKept.trans {r r' r'' : RescanState Key} (h : TargetKept r r') (h' : TargetKept r' r'') :
    TargetKept r r'' := by
  intro scan'' target hscan'' htarget
  obtain ⟨scan', hscan', htarget', hposition'⟩ := h' scan'' target hscan'' htarget
  obtain ⟨scan, hscan, htarget, hposition⟩ := h scan' target hscan' htarget'
  exact ⟨scan, hscan, htarget, hposition.trans hposition'⟩

namespace Updated

variable {t t' : MetadataState Key} {sum : ℤ} {same : Prop}

theorem bump {α : Type} [DecidableEq α] {previous next : Option (Stored α)}
    (h : bumpMetadataEpoch previous next s = some t) (hexact : DigestExact s sum) :
    Updated s t sum (previous = next) := by
  rcases bumpMetadataEpoch_eq_some h with ⟨hsame, rfl⟩ | rfl
  · exact ⟨rfl, rfl, hexact, .inl ⟨hsame, rfl⟩, .refl _⟩
  · exact ⟨rfl, rfl, hexact, .inr rfl, .refl _⟩

theorem apply {change : ProjectionChange} (hupdated : Updated s t sum same)
    (h : applyProjectionChange change t = some t')
    (hfirst : change.created = true → organizationHasNoMetadata s = true → sum = contributionValue change.previous) :
    Updated s t' (sum - contributionValue change.previous + contributionValue change.next) same := by
  have hempty : organizationHasNoMetadata t = organizationHasNoMetadata s := by
    rw [organizationHasNoMetadata, hupdated.definitions, hupdated.types, organizationHasNoMetadata]
  obtain ⟨⟨_, _, rfl⟩, hexact⟩ := applyProjectionChange_eq_some h hupdated.exact (hempty ▸ hfirst)
  exact ⟨hupdated.definitions, hupdated.types, hexact, hupdated.epoch, hupdated.target⟩

theorem request {request : RescanRequest} (hupdated : Updated s t sum same)
    (h : requestMetadataRescan request t = some t') (hprojection : request.projection = false) :
    Updated s t' sum same := by
  obtain ⟨_, rfl, htarget⟩ := requestMetadataRescan_eq_some h hprojection
  exact ⟨hupdated.definitions, hupdated.types, hupdated.exact, hupdated.epoch, hupdated.target.trans htarget⟩

end Updated

theorem updatePropertyDefinition_eq_some {rescan : Bool} {previous : Option (Stored DefinitionRecord)}
    {next : Option DefinitionRecord} (h : updatePropertyDefinition sha rescan previous next s = some s')
    (hexact : DigestExact s (s.total sha)) :
    Updated s s' (s.total sha - previous.elim 0 (definitionWeight sha) +
      contributionValue (definitionContribution sha next)) (previous = next.map DefinitionRecord.marshal) := by
  obtain ⟨bumped, hbump, h⟩ := Option.bind_eq_some_iff.mp h
  have hbumped := Updated.bump hbump hexact
  rw [← contributionValue_definition]
  dsimp only at h
  split_ifs at h with hskip hrescan
  · obtain rfl := Option.some.inj h
    have hsame : definitionContribution sha (previous.map Stored.record) = definitionContribution sha next :=
      hskip.1
    rw [hsame, sub_add_cancel]
    exact hbumped
  all_goals
    obtain ⟨applied, happly, h⟩ := Option.bind_eq_some_iff.mp h
    have happlied := hbumped.apply happly fun hcreated hempty => by
      rw [total_of_organizationHasNoMetadata hempty]
      cases previous with
      | none => rfl
      | some _ => cases hcreated
  · obtain rfl := Option.some.inj h
    exact happlied
  · exact happlied.request h rfl

theorem updateNodeTypeIndex_eq_some {rescan : Bool} {previous : Option (Stored TypeRecord)}
    {next : Option TypeRecord} (h : updateNodeTypeIndex sha rescan previous next s = some s')
    (hexact : DigestExact s (s.total sha)) :
    Updated s s' (s.total sha - previous.elim 0 (typeWeight sha) +
      contributionValue (typeContribution sha next)) (previous = next.map TypeRecord.marshal) := by
  obtain ⟨bumped, hbump, h⟩ := Option.bind_eq_some_iff.mp h
  obtain ⟨applied, happly, h⟩ := Option.bind_eq_some_iff.mp h
  have hbumped := Updated.bump hbump hexact
  rw [← contributionValue_type]
  have happlied : Updated s applied (s.total sha - contributionValue (typeContribution sha (previous.map Stored.record))
      + contributionValue (typeContribution sha next)) (previous = next.map TypeRecord.marshal) := by
    unfold applyTypeProjectionChange at happly
    dsimp only at happly
    split_ifs at happly with hskip
    · obtain rfl := Option.some.inj happly
      rw [hskip, sub_add_cancel]
      exact hbumped
    · refine hbumped.apply happly fun hcreated hempty => ?_
      rw [total_of_organizationHasNoMetadata hempty]
      cases previous with
      | none => rfl
      | some _ => cases hcreated
  dsimp only at h
  split_ifs at h
  · obtain rfl := Option.some.inj h
    exact happlied
  · exact happlied.request h rfl

/-! ### One write -/

/-- A metadata write: the digest still counts the records, and they are what they were unless the epoch
moved. -/
structure Written (sha : List Byte → BitVec 256) (s s' : MetadataState Key) : Prop where
  exact : DigestExact s' (s'.total sha)
  epoch : (s'.epoch = s.epoch ∧ s'.definitions = s.definitions ∧ s'.types = s.types) ∨ s'.epoch = s.epoch + 1
  target : TargetKept s.rescan s'.rescan

theorem Written.refl (hexact : DigestExact s (s.total sha)) : Written sha s s :=
  ⟨hexact, .inl ⟨rfl, rfl, rfl⟩, .refl _⟩

namespace Updated

variable {t : MetadataState Key} {sum : ℤ} {same : Prop}

theorem writeDefinitions {definitions : Table UUID (Stored DefinitionRecord)} (hupdated : Updated s t sum same)
    (hsum : sum = definitions.total (definitionWeight sha) + s.types.total (typeWeight sha))
    (hsame : same → definitions = s.definitions) : Written sha s { t with definitions } where
  exact := by
    have htotal : sum = MetadataState.total sha { t with definitions } := by
      rw [hsum, MetadataState.total, hupdated.types]
    exact htotal ▸ hupdated.exact
  epoch := hupdated.epoch.imp_left fun h => ⟨h.2, hsame h.1, hupdated.types⟩
  target := hupdated.target

theorem writeTypes {types : Table UUID (Stored TypeRecord)} (hupdated : Updated s t sum same)
    (hsum : sum = s.definitions.total (definitionWeight sha) + types.total (typeWeight sha))
    (hsame : same → types = s.types) : Written sha s { t with types } where
  exact := by
    have htotal : sum = MetadataState.total sha { t with types } := by
      rw [hsum, MetadataState.total, hupdated.definitions]
    exact htotal ▸ hupdated.exact
  epoch := hupdated.epoch.imp_left fun h => ⟨h.2, hupdated.definitions, hsame h.1⟩
  target := hupdated.target

end Updated

section Writes

variable {env : MetadataEnv} {rescan : Bool}

/-- Storing a definition that contributes what is stored. -/
theorem written_set_definition {t : MetadataState Key} {d : DefinitionRecord} (hexact : DigestExact s (s.total sha))
    (h : updatePropertyDefinition sha rescan (s.definitions.get d.id) (some d) s = some t)
    (hcounted : definitionContributionInput d.decoded = definitionContributionInput d) :
    Written sha s { t with definitions := t.definitions.set d.id d.marshal } := by
  have hupdated := updatePropertyDefinition_eq_some h hexact
  have hweight : contributionValue (definitionContribution sha (some d)) = definitionWeight sha d.marshal := by
    rw [definitionWeight, DefinitionRecord.marshal, hcounted]
    rfl
  rw [hupdated.definitions]
  refine hupdated.writeDefinitions ?_ Table.set_eq_self
  rw [Table.total_set, MetadataState.total, hweight]
  ring

theorem setPropertyDef_written {d : DefinitionRecord} (hexact : DigestExact s (s.total env.sha))
    (h : setPropertyDef env rescan d s = some s')
    (hcounted : definitionContributionInput d.decoded = definitionContributionInput d) :
    Written env.sha s s' := by
  unfold setPropertyDef at h
  dsimp only at h
  split_ifs at h
  obtain ⟨t, hupdate, rfl⟩ := Option.map_eq_some_iff.mp h
  exact written_set_definition hexact hupdate hcounted

theorem replacePropertyDef_written {before after : DefinitionRecord} (hexact : DigestExact s (s.total env.sha))
    (h : replacePropertyDef env rescan before after s = some s')
    (hcounted : definitionContributionInput after.decoded = definitionContributionInput after) :
    Written env.sha s s' := by
  unfold replacePropertyDef at h
  split_ifs at h
  cases hstored : s.definitions.get after.id with
  | none =>
    rw [hstored] at h
    obtain rfl := Option.some.inj h
    exact .refl hexact
  | some stored =>
    rw [hstored] at h
    dsimp only at h
    split_ifs at h
    · obtain ⟨t, hupdate, rfl⟩ := Option.map_eq_some_iff.mp h
      rw [← hstored] at hupdate
      exact written_set_definition hexact hupdate hcounted
    · obtain rfl := Option.some.inj h
      exact .refl hexact

theorem deletePropertyDef_written {id : UUID} (hexact : DigestExact s (s.total env.sha))
    (h : deletePropertyDef env rescan id s = some s') : Written env.sha s s' := by
  obtain ⟨t, hupdate, rfl⟩ := Option.map_eq_some_iff.mp h
  have hupdated := updatePropertyDefinition_eq_some hupdate hexact
  rw [hupdated.definitions]
  refine hupdated.writeDefinitions ?_ Table.erase_eq_self
  rw [Table.total_erase, MetadataState.total, contributionValue, definitionContribution, Option.map_none,
    Option.elim_none]
  ring

theorem setNodeType_written {r : TypeRecord} (hexact : DigestExact s (s.total env.sha))
    (h : setNodeType env rescan r s = some s')
    (hcounted : typeContributionInput r.decoded = typeContributionInput r) : Written env.sha s s' := by
  unfold setNodeType at h
  split_ifs at h
  obtain ⟨t, hupdate, rfl⟩ := Option.map_eq_some_iff.mp h
  have hupdated := updateNodeTypeIndex_eq_some hupdate hexact
  have hweight : contributionValue (typeContribution env.sha (some r)) = typeWeight env.sha r.marshal := by
    rw [typeWeight, TypeRecord.marshal, hcounted]
    rfl
  rw [hupdated.types]
  refine hupdated.writeTypes ?_ Table.set_eq_self
  rw [Table.total_set, MetadataState.total, hweight]
  ring

theorem deleteNodeType_written {id : UUID} (hexact : DigestExact s (s.total env.sha))
    (h : deleteNodeType env rescan id s = some s') : Written env.sha s s' := by
  obtain ⟨t, hupdate, rfl⟩ := Option.map_eq_some_iff.mp h
  have hupdated := updateNodeTypeIndex_eq_some hupdate hexact
  rw [hupdated.types]
  refine hupdated.writeTypes ?_ Table.erase_eq_self
  rw [Table.total_erase, MetadataState.total, contributionValue, typeContribution, Option.map_none,
    Option.elim_none]
  ring

theorem patchMembers_self (stored members : List (String × Json)) : patchMembers stored members members = stored := by
  simp [patchMembers]

theorem TypeRecord.decoded_decoded (r : TypeRecord) : r.decoded.decoded = r.decoded := by
  have hslice : ∀ slice : Option (List String), omitEmpty (omitEmpty slice) = omitEmpty slice
    | none | some [] | some (_ :: _) => rfl
  simp only [TypeRecord.decoded, hslice]

/-- A patch with what is stored changes nothing. -/
theorem patchedNodeType_eq_self {stored : Stored TypeRecord} {before after : TypeRecord}
    (hstored : stored = after.marshal) (hbefore : stored.record.decoded = before.decoded) :
    patchedNodeType stored before.decoded after.decoded = stored := by
  have hsame : before.decoded = after.decoded := by
    rw [← hbefore, hstored, TypeRecord.marshal, TypeRecord.decoded_decoded]
  simp only [hsame, patchedNodeType, patchField, if_true, patchMembers_self]

theorem replaceNodeType_written {before after : TypeRecord} (hexact : DigestExact s (s.total env.sha))
    (h : replaceNodeType env rescan before after s = some s')
    (hcounted : ∀ stored, s.types.get after.id = some stored → stored.record.decoded = before.decoded →
      typeContributionInput (patchedNodeType stored before.decoded after.decoded).record =
        typeContributionInput after) : Written env.sha s s' := by
  unfold replaceNodeType at h
  split_ifs at h
  cases hstored : s.types.get after.id with
  | none =>
    rw [hstored] at h
    obtain rfl := Option.some.inj h
    exact .refl hexact
  | some stored =>
    rw [hstored] at h
    dsimp only at h
    split_ifs at h with hbefore
    · obtain ⟨t, hupdate, rfl⟩ := Option.map_eq_some_iff.mp h
      have hupdated := updateNodeTypeIndex_eq_some hupdate hexact
      have hweight : contributionValue (typeContribution env.sha (some after)) =
          typeWeight env.sha (patchedNodeType stored before.decoded after.decoded) := by
        rw [typeWeight, hcounted stored hstored hbefore]
        rfl
      rw [hupdated.types]
      refine hupdated.writeTypes ?_ fun hsame => ?_
      · rw [Table.total_set, MetadataState.total, hweight, hstored]
        ring
      · rw [patchedNodeType_eq_self (Option.some.inj hsame) hbefore]
        exact Table.set_eq_self hstored
    · obtain rfl := Option.some.inj h
      exact .refl hexact

end Writes

/-! ### The sum of the pass -/

/-- What a pass that stands at a position has added up. -/
def readSoFar (sha : List Byte → BitVec 256) (s : MetadataState Key) : ScanPosition Key → ℤ
  | .definitions cursor => Table.weigh (definitionWeight sha) (s.definitions.upTo cursor)
  | .types cursor =>
    s.definitions.total (definitionWeight sha) + Table.weigh (typeWeight sha) (s.types.upTo cursor)
  | .nodes _ => s.total sha

/-- The target of a metadata pass: its sum counts what the pass has read while the epoch stands. -/
structure TargetCounts (sha : List Byte → BitVec 256) (s : MetadataState Key) (position : ScanPosition Key)
    (target : ProjectionTarget) : Prop where
  metadata : ∀ cursor, position ≠ .nodes cursor
  epoch : target.epoch ≤ s.epoch
  sum : target.epoch = s.epoch → target.sum = digestOf (readSoFar sha s position)

/-- **The invariant**: the digest counts the stored records, the sum of a pass those that it has read. -/
structure DigestInv (sha : List Byte → BitVec 256) (s : MetadataState Key) : Prop where
  exact : DigestExact s (s.total sha)
  target : ∀ scan target, s.rescan.scan = some scan → scan.projection = some target →
    TargetCounts sha s scan.position target

theorem DigestInv.written (hinv : DigestInv sha s) (h : Written sha s s') : DigestInv sha s' := by
  refine ⟨h.exact, fun scan' target hscan' htarget' => ?_⟩
  obtain ⟨scan, hscan, htarget, hposition⟩ := h.target scan' target hscan' htarget'
  obtain ⟨hmetadata, hle, hsum⟩ := hinv.target scan target hscan htarget
  rw [hposition] at hmetadata hsum
  rcases h.epoch with ⟨hepoch, hdefinitions, htypes⟩ | hepoch
  · refine ⟨hmetadata, hepoch ▸ hle, fun heq => ?_⟩
    rw [hsum (heq.trans hepoch)]
    unfold readSoFar MetadataState.total
    rw [hdefinitions, htypes]
  · exact ⟨hmetadata, by omega, fun heq => absurd heq (by omega)⟩

/-- Adding a page to the target. -/
theorem foldlM_addTargetContribution {K V : Type} {items : List (K × V)} {c : V → Option (BitVec 256)} {w : V → ℤ}
    (hw : ∀ v, contributionValue (c v) = w v) {start result : Option ProjectionTarget}
    {target : ProjectionTarget}
    (h : items.foldlM (fun target e => addTargetContribution target (c e.2)) start = some result)
    (hresult : result = some target) :
    ∃ first, start = some first ∧ target.epoch = first.epoch ∧
      ∀ n, first.sum = digestOf n → target.sum = digestOf (n + Table.weigh w items) := by
  induction items generalizing start with
  | nil =>
    obtain rfl := Option.some.inj h
    exact ⟨target, hresult, rfl, fun n hn => by rw [hn, Table.weigh_nil, add_zero]⟩
  | cons e items ih =>
    rw [List.foldlM_cons] at h
    obtain ⟨next, hnext, h⟩ := Option.bind_eq_some_iff.mp h
    obtain ⟨second, rfl, hepoch, hsum⟩ := ih h
    cases start with
    | none => cases hnext
    | some first =>
      obtain ⟨sum, hreplace, hsecond⟩ := Option.map_eq_some_iff.mp hnext
      obtain rfl := Option.some.inj hsecond
      refine ⟨first, rfl, hepoch, fun n hn => ?_⟩
      rw [hn, replaceContribution_digestOf] at hreplace
      obtain rfl := Option.some.inj hreplace
      rw [hsum _ rfl, hw, contributionValue, Option.elim_none, Table.weigh_cons]
      congr 1
      ring

theorem restart_counts (sha : List Byte → BitVec 256) (scan : ScanRecord Key) : ∀ target,
    (restartProjectionPass scan s.epoch).projection = some target →
    TargetCounts sha s (restartProjectionPass scan s.epoch).position target := by
  intro target htarget
  obtain rfl := Option.some.inj htarget
  refine ⟨nofun, le_rfl, fun _ => ?_⟩
  rw [hexEncode_sumContributions_nil]
  simp [readSoFar, restartProjectionPass, contributionValue]

/-- The checkpoint of the pass is replaced by one whose target counts. -/
theorem DigestInv.withScan (hexact : DigestExact s (s.total sha)) {scan : ScanRecord Key}
    (hscan : ∀ target, scan.projection = some target → TargetCounts sha s scan.position target) :
    DigestInv sha (s.withScan scan) := by
  refine ⟨hexact, fun scan' target hscan' htarget => ?_⟩
  obtain rfl := Option.some.inj hscan'
  obtain ⟨hmetadata, hepoch, hsum⟩ := hscan target htarget
  exact ⟨hmetadata, hepoch, hsum⟩

/-- **The end of the pass**: its sum is that of all records when the epoch stands. -/
theorem DigestInv.finish (hexact : DigestExact s (s.total sha)) {scan : ScanRecord Key}
    (hscan : ∀ target, scan.projection = some target → target.epoch = s.epoch → target.sum = digestOf (s.total sha)) :
    DigestInv sha (finishMetadataPass scan s) := by
  unfold finishMetadataPass
  cases htarget : scan.projection with
  | none => exact .withScan hexact fun target h => by cases h
  | some target =>
    dsimp only
    split_ifs with hepoch
    · exact .withScan hexact (restart_counts sha scan)
    · -- the sum becomes the digest
      have hsum := hscan target htarget (not_ne_iff.mp hepoch).symm
      unfold activateProjection
      refine .withScan (fun active hactive _ => ?_) fun target' htarget' => ?_
      · obtain rfl := Option.some.inj hactive
        exact hsum
      · dsimp only at htarget'
        by_cases hrenderer : (s.projection.getD .legacy).renderer ≠ target.renderer
        · rw [if_pos hrenderer] at htarget'
          cases htarget'
        · rw [if_neg hrenderer] at htarget'
          cases htarget'

/-- The target after a page, when the page takes the pass to a position that counts the page too. -/
theorem TargetCounts.page {K V : Type} {items : List (K × V)} {c : V → Option (BitVec 256)} {w : V → ℤ}
    {position : ScanPosition Key} {scan : ScanRecord Key} {result : Option ProjectionTarget}
    (position' : ScanPosition Key) (hw : ∀ v, contributionValue (c v) = w v)
    (hcounts : ∀ target, scan.projection = some target → TargetCounts sha s position target)
    (hfold : items.foldlM (fun target e => addTargetContribution target (c e.2)) scan.projection = some result)
    (hread : readSoFar sha s position' = readSoFar sha s position + Table.weigh w items) :
    ∀ target, result = some target → target.epoch ≤ s.epoch ∧
      (target.epoch = s.epoch → target.sum = digestOf (readSoFar sha s position')) := by
  intro target hresult
  obtain ⟨first, hfirst, hepoch, hsum⟩ := foldlM_addTargetContribution hw hfold hresult
  obtain ⟨-, hle, hcount⟩ := hcounts first hfirst
  refine ⟨hepoch ▸ hle, fun heq => ?_⟩
  rw [hread]
  exact hsum _ (hcount (hepoch ▸ heq))

theorem DigestInv.indexMetadata (hinv : DigestInv sha s) (h : indexMetadata sha s = some s') : DigestInv sha s' := by
  obtain ⟨scan, hscan, h⟩ := Option.bind_eq_some_iff.mp h
  have hcounts := fun target => hinv.target scan target hscan
  cases hposition : scan.position with
  | nodes cursor =>
    rw [hposition] at h
    cases h
  | definitions cursor =>
    rw [hposition] at h hcounts
    dsimp only at h
    rcases hpage : s.definitions.page maxSearchScanNodes cursor with ⟨items, _ | _⟩
    all_goals
      rw [hpage] at h
      obtain ⟨result, hfold, h⟩ := Option.bind_eq_some_iff.mp h
      obtain rfl := Option.some.inj h
      refine .withScan hinv.exact fun target htarget => ?_
      have hw : ∀ v : Stored DefinitionRecord,
        contributionValue (definitionContribution sha (some v.record)) = definitionWeight sha v := fun _ => rfl
    · obtain ⟨last, hlast, hread⟩ := Table.page_more (by decide) hpage
      obtain ⟨hepoch, hsum⟩ := TargetCounts.page (.definitions (some last.1)) hw hcounts hfold
        (by rw [readSoFar, readSoFar, hread, Table.weigh_append]) target htarget
      rw [hlast]
      exact ⟨nofun, hepoch, hsum⟩
    · obtain ⟨hepoch, hsum⟩ := TargetCounts.page (.types none) hw hcounts hfold
        (by rw [readSoFar, readSoFar, Table.upTo_none, Table.weigh_nil, add_zero, Table.page_last _ hpage])
        target htarget
      exact ⟨nofun, hepoch, hsum⟩
  | types cursor =>
    rw [hposition] at h hcounts
    dsimp only at h
    rcases hpage : s.types.page maxSearchScanNodes cursor with ⟨items, _ | _⟩
    all_goals
      rw [hpage] at h
      obtain ⟨result, hfold, h⟩ := Option.bind_eq_some_iff.mp h
      obtain rfl := Option.some.inj h
      have hw : ∀ v : Stored TypeRecord,
        contributionValue (typeContribution sha (some v.record)) = typeWeight sha v := fun _ => rfl
    · refine .withScan hinv.exact fun target htarget => ?_
      obtain ⟨last, hlast, hread⟩ := Table.page_more (by decide) hpage
      obtain ⟨hepoch, hsum⟩ := TargetCounts.page (.types (some last.1)) hw hcounts hfold
        (by rw [readSoFar, readSoFar, hread, Table.weigh_append, add_assoc]) target htarget
      rw [hlast]
      exact ⟨nofun, hepoch, hsum⟩
    · refine .finish hinv.exact fun target htarget => ?_
      exact (TargetCounts.page (.nodes none) hw hcounts hfold
        (by rw [readSoFar, readSoFar, add_assoc, Table.page_last _ hpage, MetadataState.total]) target htarget).2

/-! ### Runs -/

/-- The moves that keep the digest.  A record that is written contributes what is read back, and a
declaration is only filled in while no digest of this writer is stored or computed. -/
def CountedMove (s : MetadataState Key) : MetadataMove Key → Prop
  | .setPropertyDef _ d => definitionContributionInput d.decoded = definitionContributionInput d
  | .replacePropertyDef _ _ after => definitionContributionInput after.decoded = definitionContributionInput after
  | .setNodeType _ r => typeContributionInput r.decoded = typeContributionInput r
  | .replaceNodeType _ before after =>
    ∀ stored, s.types.get after.id = some stored → stored.record.decoded = before.decoded →
      typeContributionInput (patchedNodeType stored before.decoded after.decoded).record =
        typeContributionInput after
  | .setProjectionIfNil id _ =>
    (∀ stored, s.definitions.get id = some stored → stored.record.search ≠ none) ∨
      (∀ state, s.projection = some state → state.writerProjection = false) ∧
        ∀ scan, s.rescan.scan = some scan → scan.projection = none
  | .deletePropertyDef _ _ | .deleteNodeType _ _ | .requestRescan _ | .indexMetadata | .completeRescan _ => True

theorem DigestInv.setProjectionIfNil {env : MetadataEnv} {id : UUID} {projection : Json}
    (hinv : DigestInv env.sha s) (h : setProjectionIfNil env id projection s = some s')
    (hcounted : CountedMove s (.setProjectionIfNil id projection)) : DigestInv env.sha s' := by
  obtain ⟨stored, hstored, h⟩ := Option.bind_eq_some_iff.mp h
  split_ifs at h
  cases hsearch : stored.record.search with
  | some current =>
    simp only [hsearch] at h
    split_ifs at h
    obtain rfl := Option.some.inj h
    exact hinv
  | none =>
    simp only [hsearch] at h
    obtain rfl := Option.some.inj h
    rcases hcounted with hdeclared | ⟨hwriter, htarget⟩
    · exact absurd hsearch (hdeclared stored hstored)
    · refine ⟨fun state hstate hactive => ?_, fun scan target hscan hprojection => ?_⟩
      · rw [hwriter state hstate] at hactive
        cases hactive
      · cases (htarget scan hscan).symm.trans hprojection

theorem DigestInv.requestRescan {request : RescanRequest} (hinv : DigestInv sha s)
    (h : requestMetadataRescan request s = some s') : DigestInv sha s' := by
  cases hprojection : request.projection with
  | false =>
    obtain ⟨rescan, rfl, htarget⟩ := requestMetadataRescan_eq_some h hprojection
    exact hinv.written ⟨hinv.exact, .inl ⟨rfl, rfl, rfl⟩, htarget⟩
  | true =>
    obtain ⟨rescan, hrescan, rfl⟩ := Option.map_eq_some_iff.mp h
    simp only [requestSearchRescan, hprojection, if_true] at hrescan
    split_ifs at hrescan
    obtain rfl := Option.some.inj hrescan
    refine ⟨hinv.exact, fun scan target hscan htarget => ?_⟩
    obtain rfl := Option.some.inj hscan
    obtain ⟨hmetadata, hepoch, hsum⟩ := restart_counts sha _ target htarget
    exact ⟨hmetadata, hepoch, hsum⟩

variable [LinearOrder Key]

theorem advanceScan_projection {scan scan' : ScanRecord Key} {page : ScanResult Key}
    (h : advanceScan scan page = some scan') : scan'.projection = scan.projection := by
  unfold advanceScan at h
  split_ifs at h <;> exact Option.some.inj h ▸ rfl

theorem DigestInv.completeRescan {page : ScanResult Key} (hinv : DigestInv sha s)
    (h : completeRescan page s = some s') : DigestInv sha s' := by
  obtain ⟨scan, hscan, h⟩ := Option.bind_eq_some_iff.mp h
  cases hposition : scan.position with
  | definitions cursor =>
    rw [hposition] at h
    cases h
  | types cursor =>
    rw [hposition] at h
    cases h
  | nodes cursor =>
    rw [hposition] at h
    obtain rfl := Option.some.inj h
    refine ⟨hinv.exact, fun scan' target hscan' htarget => ?_⟩
    -- the node pass has no target
    rw [advanceScan_projection hscan'] at htarget
    exact absurd hposition ((hinv.target scan target hscan htarget).metadata cursor)

/-- **One counted move.** -/
theorem DigestInv.step {env : MetadataEnv} {move : MetadataMove Key} (hinv : DigestInv env.sha s)
    (hcounted : CountedMove s move) (h : metadataStep env s move = some s') : DigestInv env.sha s' := by
  cases move with
  | setPropertyDef rescan d => exact hinv.written (setPropertyDef_written hinv.exact h hcounted)
  | replacePropertyDef rescan before after => exact hinv.written (replacePropertyDef_written hinv.exact h hcounted)
  | deletePropertyDef rescan id => exact hinv.written (deletePropertyDef_written hinv.exact h)
  | setProjectionIfNil id projection => exact hinv.setProjectionIfNil h hcounted
  | setNodeType rescan r => exact hinv.written (setNodeType_written hinv.exact h hcounted)
  | replaceNodeType rescan before after => exact hinv.written (replaceNodeType_written hinv.exact h hcounted)
  | deleteNodeType rescan id => exact hinv.written (deleteNodeType_written hinv.exact h)
  | requestRescan request => exact hinv.requestRescan h
  | indexMetadata => exact hinv.indexMetadata h
  | completeRescan page => exact hinv.completeRescan h

/-- An organization that has no projection yet and computes none. -/
def MetadataState.Unprojected (s : MetadataState Key) : Prop :=
  s.projection = none ∧ ∀ scan, s.rescan.scan = some scan → scan.projection = none

omit [LinearOrder Key] in
theorem MetadataState.Unprojected.inv (h : s.Unprojected) (sha : List Byte → BitVec 256) : DigestInv sha s := by
  refine ⟨fun state hstate => ?_, fun scan target hscan htarget => ?_⟩
  · cases h.1.symm.trans hstate
  · cases (h.2 scan hscan).symm.trans htarget

theorem digest_of_reach {env : MetadataEnv} {start : MetadataState Key} (hstart : start.Unprojected)
    (hreach : Reach (metadataStep env) CountedMove start s) {state : ProjectionState}
    (hstate : s.projection = some state) (hwriter : state.writerProjection = true) :
    state.digest = digestOf (s.total env.sha) :=
  (hreach.invariant (hstart.inv env.sha) DigestInv.step).exact state hstate hwriter

/-- **The digest counts exactly the stored records** in every run of counted moves, and the identity of the
projection tells two sets of rendering inputs apart, unless their sums agree or two identities collide. -/
theorem projection_digest_counts (env : MetadataEnv) (start : MetadataState Key) (hstart : start.Unprojected) :
    (∀ s, Reach (metadataStep env) CountedMove start s → ∀ state, s.projection = some state →
      state.writerProjection = true → state.digest = digestOf (s.total env.sha)) ∧
    ∀ s s', Reach (metadataStep env) CountedMove start s → Reach (metadataStep env) CountedMove start s' →
      ∀ state state', s.projection = some state → s'.projection = some state' →
      state.writerProjection = true → state'.writerProjection = true →
      (hashContribution env.sha (projectionIdentityInput state) =
        hashContribution env.sha (projectionIdentityInput state') →
          projectionIdentityInput state = projectionIdentityInput state') →
      (s.total env.sha ≡ s'.total env.sha [ZMOD projectionModulus] → s.inputs = s'.inputs) →
      s.inputs ≠ s'.inputs → projectionIdentity env.sha state ≠ projectionIdentity env.sha state' := by
  refine ⟨fun s hreach state hstate hwriter => digest_of_reach hstart hreach hstate hwriter, ?_⟩
  intro s s' hreach hreach' state state' hstate hstate' hwriter hwriter' hcollision hindependent hne hidentity
  have hdigest := digest_eq_of_input_eq (hcollision (hash_eq_of_projectionIdentity_eq hidentity))
  rw [digest_of_reach hstart hreach hstate hwriter, digest_of_reach hstart hreach' hstate' hwriter',
    digestOf_eq_iff] at hdigest
  exact hne (hindependent hdigest)

/-! ### Two runs -/

/-- An organization without metadata. -/
def MetadataState.empty : MetadataState Key := ⟨.empty, .empty, 0, [], none, ⟨0, none⟩⟩

def MetadataState.Drifted (sha : List Byte → BitVec 256) (s : MetadataState Key) : Prop :=
  ∃ state, s.projection = some state ∧ state.writerProjection = true ∧ state.digest ≠ digestOf (s.total sha)

instance (sha : List Byte → BitVec 256) (s : MetadataState Key) : Decidable (s.Drifted sha) :=
  decidable_of_iff (s.projection.any fun state =>
    state.writerProjection && decide (state.digest ≠ digestOf (s.total sha)))
    (by simp [MetadataState.Drifted, Option.any_eq_true])

/-- An environment with a rolling hash. -/
def rollingEnv : MetadataEnv := ⟨1, fun bytes => BitVec.ofNat 256 (bytes.foldl (fun n b => 257 * n + b.val) 0)⟩

/-- A text property without a declaration. -/
def plainDefinition : DefinitionRecord where
  id := 2
  orgId := 1
  name := "title"
  type := "text"
  appliesToFeatures := none
  indexed := false
  options := none
  required := false
  defaultValue := none
  defaultReference := none
  referenceTargetTypeKey := ""
  search := none

def excluding : Json :=
  .obj [("include", .bool false), ("order", .num (.ofInt 0)), ("rule", .obj [("mode", .str "scalar")])]

/-- A definition is written twice, with two declarations. -/
theorem projection_digest_counts_rewritten :
    ∃ s s' state state', Reach (metadataStep rollingEnv) CountedMove (MetadataState.empty : MetadataState ℕ) s ∧
      Reach (metadataStep rollingEnv) CountedMove (MetadataState.empty : MetadataState ℕ) s' ∧
      s.projection = some state ∧ s'.projection = some state' ∧
      state'.digest = digestOf (s'.total rollingEnv.sha) ∧
      projectionIdentity rollingEnv.sha state ≠ projectionIdentity rollingEnv.sha state' := by
  have hstart : (MetadataState.empty : MetadataState ℕ).Unprojected := ⟨rfl, nofun⟩
  have hmoves : ∃ s, metadataStep rollingEnv (MetadataState.empty : MetadataState ℕ)
        (.setPropertyDef true plainDefinition) = some s ∧
      ∃ s', metadataStep rollingEnv s (.setPropertyDef true { plainDefinition with search := some excluding }) = some s' ∧
      ∃ state, s.projection = some state ∧ ∃ state', s'.projection = some state' ∧
        state.writerProjection = true ∧ state'.writerProjection = true ∧
        hashContribution rollingEnv.sha (projectionIdentityInput state) ≠
          hashContribution rollingEnv.sha (projectionIdentityInput state') ∧
        ¬ s.total rollingEnv.sha ≡ s'.total rollingEnv.sha [ZMOD projectionModulus] ∧ s.inputs ≠ s'.inputs := by
    decide +kernel
  obtain ⟨s, hfirst, s', hsecond, state, hstate, state', hstate', hwriter, hwriter', hhash, htotal, hinputs⟩ := hmoves
  have hreach := Reach.refl.tail (show CountedMove _ (.setPropertyDef true plainDefinition) from rfl) hfirst
  have hreach' := hreach.tail
    (show CountedMove _ (.setPropertyDef true { plainDefinition with search := some excluding }) from rfl) hsecond
  obtain ⟨hdigest, hidentity⟩ := projection_digest_counts rollingEnv _ hstart
  exact ⟨s, s', state, state', hreach, hreach', hstate, hstate', hdigest s' hreach' state' hstate' hwriter',
    hidentity s s' hreach hreach' state state' hstate hstate' hwriter hwriter'
      (fun h => absurd h hhash) (fun h => absurd h htotal) hinputs⟩

/-- **The digest drifts** when a declaration is filled in beside a stored digest. -/
theorem projection_digest_drifts :
    ∃ s, run (metadataStep rollingEnv) (MetadataState.empty : MetadataState ℕ)
      [.setPropertyDef true plainDefinition, .setProjectionIfNil 2 excluding] = some s ∧
        s.Drifted rollingEnv.sha := by
  decide +kernel

end Tack.Search

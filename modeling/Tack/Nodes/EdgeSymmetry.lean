import Tack.Nodes.System

/-!
# Both keys of a relationship

Every routine that writes or clears relationships keeps the forward and the reverse family in step, so
the lists by source and by target agree with what is stored.  Two things a reader might expect do not
follow.  The range of a relation type also holds the types that go on with a zero character, so a list
by source is exact for every type only while no stored type has one after its first character.  And a
deletion clears the keys of the organization of the node only.

## Main definitions

* `Nodes.Edges.Symmetric` — the two families agree.
* `Nodes.RelationshipsExact` — they agree, and the lists by source and by target are exact.

## Main results

* `Nodes.symmetric_of_committed` — every call keeps the two families in step.
* `Nodes.relationships_exact_iff` — what holds in every reachable state.
-/

namespace Tack.Nodes

open Lib

namespace Edges

variable {edges : Edges}

/-- Both keys of a relationship exist or neither does, and a record is stored under its own key. -/
structure Symmetric (edges : Edges) : Prop where
  paired (k : RelKey) : edges.forward.get k = none ↔ edges.reverse.get k.flip = none
  keyed {k : RelKey} {stored : Relationship} :
    edges.forward.get k = some stored → relationshipKey stored = k

theorem symmetric_empty : (⟨.empty, .empty⟩ : Edges).Symmetric where
  paired _ := iff_of_true rfl rfl
  keyed h := by cases h

/-! ### The families after each routine -/

theorem forward_dropAll (edges : Edges) (keys : List RelKey) :
    (edges.dropAll keys).forward = keys.foldl (fun t k => t.erase k) edges.forward := by
  induction keys generalizing edges with
  | nil => rfl
  | cons k keys ih => exact ih (edges.drop k)

theorem get_forward_dropAll_of_mem {keys : List RelKey} {k : RelKey} (h : k ∈ keys) :
    (edges.dropAll keys).forward.get k = none := by
  rw [forward_dropAll]
  exact Table.get_foldl_erase_of_mem _ (by simpa using h)

theorem get_forward_dropAll_of_notMem {keys : List RelKey} {k : RelKey} (h : k ∉ keys) :
    (edges.dropAll keys).forward.get k = edges.forward.get k := by
  rw [forward_dropAll]
  exact Table.get_foldl_erase_of_notMem _ (by simpa using h)

theorem get_forward_putAll_of_notMem {written : List Relationship} {k : RelKey}
    (h : k ∉ written.map relationshipKey) :
    (edges.putAll written).forward.get k = edges.forward.get k := by
  induction written generalizing edges with
  | nil => rfl
  | cons r written ih =>
    rw [List.map_cons, List.mem_cons, not_or] at h
    exact (ih h.2).trans (Table.get_set_ne _ _ (Ne.symm h.1))

theorem mem_outgoing {orgId nodeId : UUID} {relationType : String} {k : RelKey} {stored : Relationship} :
    (k, stored) ∈ edges.outgoing orgId nodeId relationType ↔
      edges.forward.get k = some stored ∧ inNodeRange orgId nodeId relationType k = true :=
  Table.mem_scan

theorem mem_incoming {orgId nodeId : UUID} {relationType : String} {k : RelKey} :
    k ∈ edges.incoming orgId nodeId relationType ↔
      edges.reverse.get k ≠ none ∧ inNodeRange orgId nodeId relationType k = true := by
  rw [incoming, List.mem_map]
  constructor
  · rintro ⟨⟨k', u⟩, hmem, rfl⟩
    obtain ⟨hget, hrange⟩ := Table.mem_scan.mp hmem
    exact ⟨by simp [hget], hrange⟩
  · rintro ⟨hget, hrange⟩
    obtain ⟨u, hu⟩ := Option.ne_none_iff_exists'.mp hget
    exact ⟨(k, u), Table.mem_scan.mpr ⟨hu, hrange⟩, rfl⟩

theorem mem_incomingEdges {orgId nodeId : UUID} {k : RelKey} :
    k ∈ edges.incomingEdges orgId nodeId ↔
      edges.reverse.get k.flip ≠ none ∧ inNodeRange orgId nodeId "" k.flip = true := by
  rw [incomingEdges, List.mem_map]
  constructor
  · rintro ⟨k', hk', rfl⟩
    exact mem_incoming.mp hk'
  · intro h
    exact ⟨k.flip, mem_incoming.mpr h, rfl⟩

theorem get_forward_clearSource (edges : Edges) (orgId nodeId : UUID) (k : RelKey) :
    (edges.clearSource orgId nodeId).forward.get k =
      if inNodeRange orgId nodeId "" k then none else edges.forward.get k := by
  rw [clearSource, Table.get_keep]
  cases inNodeRange orgId nodeId "" k <;> rfl

theorem get_reverse_clearTarget (edges : Edges) (orgId nodeId : UUID) (k : RelKey) :
    (edges.clearTarget orgId nodeId).reverse.get k =
      if inNodeRange orgId nodeId "" k then none
      else (edges.dropAll (edges.incomingEdges orgId nodeId)).reverse.get k := by
  rw [clearTarget, Table.get_keep]
  cases inNodeRange orgId nodeId "" k <;> rfl

/-! ### The routines keep the families in step -/

namespace Symmetric

theorem drop (h : edges.Symmetric) (k : RelKey) : (edges.drop k).Symmetric where
  paired k' := by
    rw [Edges.drop]
    by_cases hk : k' = k
    · rw [hk, Table.get_erase_self, Table.get_erase_self]
      exact iff_of_true rfl rfl
    · rw [Table.get_erase_ne _ hk, Table.get_erase_ne _ (RelKey.flip_injective.ne hk)]
      exact h.paired k'
  keyed {k' stored} hget := by
    rw [Edges.drop, Table.get_erase] at hget
    split_ifs at hget
    exact h.keyed hget

theorem put (h : edges.Symmetric) (r : Relationship) : (edges.put r).Symmetric where
  paired k := by
    rw [Edges.put]
    by_cases hk : relationshipKey r = k
    · rw [hk, Table.get_set_self, Table.get_set_self]
      exact iff_of_false (by simp) (by simp)
    · rw [Table.get_set_ne _ _ hk, Table.get_set_ne _ _ (RelKey.flip_injective.ne hk)]
      exact h.paired k
  keyed {k stored} hget := by
    rw [Edges.put, Table.get_set] at hget
    split_ifs at hget with hk
    · rwa [← Option.some.inj hget]
    · exact h.keyed hget

theorem dropAll (h : edges.Symmetric) (keys : List RelKey) : (edges.dropAll keys).Symmetric := by
  induction keys generalizing edges with
  | nil => exact h
  | cons k keys ih => exact ih (h.drop k)

theorem putAll (h : edges.Symmetric) (written : List Relationship) : (edges.putAll written).Symmetric := by
  induction written generalizing edges with
  | nil => exact h
  | cons r written ih => exact ih (h.put r)

/-- A relationship from the node that is not stored has no reverse key to clear. -/
theorem clearSource (h : edges.Symmetric) (orgId nodeId : UUID) :
    (edges.clearSource orgId nodeId).Symmetric where
  paired k := by
    have hmem : k.flip ∈ (edges.outgoing orgId nodeId "").map (fun p => p.1.flip) ↔
        edges.forward.get k ≠ none ∧ inNodeRange orgId nodeId "" k = true := by
      rw [List.mem_map]
      constructor
      · rintro ⟨⟨k', stored⟩, hp, heq⟩
        obtain rfl := RelKey.flip_injective heq
        obtain ⟨hget, hrange⟩ := mem_outgoing.mp hp
        exact ⟨by simp [hget], hrange⟩
      · rintro ⟨hget, hrange⟩
        obtain ⟨stored, hstored⟩ := Option.ne_none_iff_exists'.mp hget
        exact ⟨(k, stored), mem_outgoing.mpr ⟨hstored, hrange⟩, rfl⟩
    rw [get_forward_clearSource, Edges.clearSource]
    by_cases hcleared : edges.forward.get k ≠ none ∧ inNodeRange orgId nodeId "" k = true
    · rw [if_pos hcleared.2, Table.get_foldl_erase_of_mem _ (hmem.mpr hcleared)]
      exact iff_of_true rfl rfl
    · rw [Table.get_foldl_erase_of_notMem _ (hmem.not.mpr hcleared), ← h.paired k]
      split_ifs with hrange
      · exact iff_of_true rfl (by_contra fun hget => hcleared ⟨hget, hrange⟩)
      · exact Iff.rfl
  keyed {k stored} hget := by
    rw [get_forward_clearSource] at hget
    split_ifs at hget
    exact h.keyed hget

/-- The reverse keys of the node that are left after the relationships were dropped are none. -/
theorem clearTarget (h : edges.Symmetric) (orgId nodeId : UUID) :
    (edges.clearTarget orgId nodeId).Symmetric where
  paired k := by
    rw [get_reverse_clearTarget]
    split_ifs with hrange
    · refine iff_of_true ?_ rfl
      change (edges.dropAll (edges.incomingEdges orgId nodeId)).forward.get k = none
      by_cases hget : edges.reverse.get k.flip = none
      · rw [get_forward_dropAll_of_notMem fun hmem => (mem_incomingEdges.mp hmem).1 hget]
        exact (h.paired k).mpr hget
      · exact get_forward_dropAll_of_mem (mem_incomingEdges.mpr ⟨hget, hrange⟩)
    · exact (h.dropAll _).paired k
  keyed hget := (h.dropAll _).keyed hget

theorem changed (h : edges.Symmetric) {sets : List RelationshipChanges} {edges' : Edges}
    {changes : List Change} (hchanged : EdgesChanged edges sets edges' changes) : edges'.Symmetric := by
  induction hchanged with
  | nil => exact h
  | cons _ _ _ _ ih => exact ih ((h.dropAll _).putAll _)

end Symmetric

end Edges

/-! ### Calls -/

variable {env : Env} {times : StepTimes} {db : Db} {call : Call} {t : Attempt}

theorem symmetric_of_advanced {job job' : SubtreeDeleteJob} {now : Time} {s s' : Attempt}
    (h : Advanced env job now s s' job') (hs : s.db.edges.Symmetric) : s'.db.edges.Symmetric := by
  cases h with
  | idle => exact hs
  | pop => exact hs
  | push => exact hs.dropAll _
  | @move topId child others current edges s₁ stored moved edgeChanges stack decision read spec =>
    refine Edges.Symmetric.dropAll ?_ others
    rw [spec.db]
    exact hs.changed spec.edgesChanged
  | page => exact hs.dropAll _
  | delete => exact (hs.clearSource _ _).clearTarget _ _

/-- **Every call keeps the two families in step.** -/
theorem symmetric_of_committed (h : Committed env times db call t) (hdb : db.edges.Symmetric) :
    t.db.edges.Symmetric := by
  cases h with
  | created spec =>
    rw [spec.db]
    exact hdb.putAll _
  | updated spec =>
    rw [spec.db]
    exact hdb.changed spec.edgesChanged
  | replayed => exact hdb
  | mutated fresh spec =>
    rw [spec.db]
    exact hdb.changed spec.edgesChanged
  | deletedRead => exact (hdb.clearSource _ _).clearTarget _ _
  | deletedNode => exact (hdb.clearSource _ _).clearTarget _ _
  | referencesSet => exact hdb
  | related => exact hdb.putAll _
  | unrelated => exact hdb.dropAll _
  | jobStarted => exact hdb
  | jobIdle => exact hdb
  | jobStepped found unfinished advanced =>
    have hadvanced := symmetric_of_advanced advanced hdb
    exact hadvanced
  | schemaKept => exact hdb
  | schemaWritten schema written => cases written <;> exact hdb
  | activated => exact hdb

theorem symmetric_of_reach {ok : State → Move → Prop} {s : State}
    (h : Reach (step env) ok State.init s) : s.db.edges.Symmetric :=
  invariant_of_committed (I := fun db => db.edges.Symmetric) Edges.symmetric_empty
    (fun hu _ hcommitted => symmetric_of_committed hcommitted hu) h

/-! ### Deletions -/

/-- The call removed the node record of a key. -/
def Deletes (db db' : Db) (k : NodeKey) : Prop := db.nodes.get k ≠ none ∧ db'.nodes.get k = none

/-- **A call that deletes a node clears the relationships of the node**, and changes no others. -/
theorem edges_of_deletes (h : Committed env times db call t) {k : NodeKey} (hk : Deletes db t.db k) :
    t.db.edges = (db.edges.clearSource k.org k.id).clearTarget k.org k.id := by
  obtain ⟨hsome, hnone⟩ := hk
  cases recordsChanged_of_committed h with
  | kept nodes resolves =>
    rw [nodes] at hnone
    exact absurd hnone hsome
  | put current stored marshalled nodes resolves =>
    rw [nodes, Table.get_set] at hnone
    split_ifs at hnone
    exact absurd hnone hsome
  | cleared current nodes resolves edges refs =>
    rw [nodes, Table.get_erase] at hnone
    split_ifs at hnone with hkey
    · rw [edges, hkey]
      rfl
    · exact absurd hnone hsome

/-! ### Lists -/

/-- The list holds the relationships with a property, each once. -/
def Lists (list : List Relationship) (p : Relationship → Prop) : Prop :=
  list.Nodup ∧ ∀ r, r ∈ list ↔ p r

/-- The relationship is stored under its key. -/
def Edges.Stored (edges : Edges) (r : Relationship) : Prop := edges.forward.get (relationshipKey r) = some r

/-- Two properties that list the same relationships agree. -/
theorem Lists.iff {list : List Relationship} {p q : Relationship → Prop} (h : Lists list p) :
    Lists list q ↔ ∀ r, p r ↔ q r := by
  constructor
  · intro hq r
    rw [← h.2, hq.2]
  · intro hpq
    exact ⟨h.1, fun r => (h.2 r).trans (hpq r)⟩

theorem inNodeRange_iff {orgId nodeId : UUID} {relationType : String} {k : RelKey} :
    inNodeRange orgId nodeId relationType k = true ↔
      k.org = orgId ∧ k.near = nodeId ∧ inTypeRange relationType k.relationType = true := by
  simp [inNodeRange, and_assoc]

theorem lists_listBySource (h : db.edges.Symmetric) (orgId sourceId : UUID) (relationType : String) :
    Lists (listBySource db orgId sourceId relationType) fun r => db.edges.Stored r ∧ r.orgId = orgId ∧
      r.sourceId = sourceId ∧ inTypeRange relationType r.relationType = true := by
  constructor
  · refine List.Nodup.map_on ?_ (List.Nodup.of_map Prod.fst (Table.nodup_scan_keys _ _))
    rintro ⟨k, r⟩ hk ⟨k', r'⟩ hk' rfl
    rw [← h.keyed (Edges.mem_outgoing.mp hk).1, ← h.keyed (Edges.mem_outgoing.mp hk').1]
  · intro r
    rw [listBySource, List.mem_map]
    constructor
    · rintro ⟨⟨k, stored⟩, hmem, rfl⟩
      obtain ⟨hget, hrange⟩ := Edges.mem_outgoing.mp hmem
      obtain rfl := h.keyed hget
      exact ⟨hget, inNodeRange_iff.mp hrange⟩
    · rintro ⟨hstored, hrange⟩
      exact ⟨(relationshipKey r, r), Edges.mem_outgoing.mpr ⟨hstored, inNodeRange_iff.mpr hrange⟩, rfl⟩

theorem lists_listByTarget (h : db.edges.Symmetric) (orgId targetId : UUID) (relationType : String) :
    Lists (listByTarget db orgId targetId relationType) fun r => db.edges.Stored r ∧ r.orgId = orgId ∧
      r.targetId = targetId ∧ inTypeRange relationType r.relationType = true := by
  -- a reverse key of the range belongs to the relationship whose key is its flip
  have hkey : ∀ k ∈ db.edges.incoming orgId targetId relationType,
      (⟨orgId, k.far, k.relationType, targetId⟩ : RelKey) = k.flip := by
    intro k hk
    obtain ⟨horg, hnear, -⟩ := inNodeRange_iff.mp (Edges.mem_incoming.mp hk).2
    rw [← horg, ← hnear, RelKey.flip]
  have hcongr : listByTarget db orgId targetId relationType =
      (db.edges.incoming orgId targetId relationType).filterMap fun k => db.edges.forward.get k.flip :=
    List.filterMap_congr fun k hk => by rw [hkey k hk]
  rw [hcongr]
  constructor
  · refine List.Nodup.filterMap ?_ (Table.nodup_scan_keys _ _)
    intro k k' r hr hr'
    exact RelKey.flip_injective ((h.keyed hr).symm.trans (h.keyed hr'))
  · intro r
    rw [List.mem_filterMap]
    constructor
    · rintro ⟨k, hmem, hget⟩
      have hk : relationshipKey r = k.flip := h.keyed hget
      have hrange := inNodeRange_iff.mp (Edges.mem_incoming.mp hmem).2
      rw [← k.flip_flip, ← hk] at hrange
      exact ⟨by rw [Edges.Stored, hk, hget], hrange⟩
    · rintro ⟨hstored, hrange⟩
      refine ⟨(relationshipKey r).flip, Edges.mem_incoming.mpr ⟨?_, inNodeRange_iff.mpr hrange⟩, hstored⟩
      rw [ne_eq, ← h.paired, hstored]
      simp

/-- The two families agree, and the lists by source and by target are what is stored. -/
structure RelationshipsExact (db : Db) : Prop where
  paired (k : RelKey) : db.edges.forward.get k ≠ none ↔ db.edges.reverse.get k.flip ≠ none
  byTarget (orgId targetId : UUID) : Lists (listByTarget db orgId targetId "") fun r =>
    db.edges.Stored r ∧ r.orgId = orgId ∧ r.targetId = targetId
  bySource (orgId sourceId : UUID) (relationType : String) : relationType ≠ "" →
    Lists (listBySource db orgId sourceId relationType) fun r =>
      db.edges.Stored r ∧ r.orgId = orgId ∧ r.sourceId = sourceId ∧ r.relationType = relationType

/-- No stored relation type has a zero character after its first character. -/
def PlainTypes (db : Db) : Prop :=
  ∀ r, db.edges.Stored r → '\x00' ∉ r.relationType.toList.tail

theorem inTypeRange_iff_of_plain {relationType value : String} (hne : relationType ≠ "")
    (hplain : '\x00' ∉ value.toList.tail) :
    inTypeRange relationType value = true ↔ value = relationType := by
  have hstart : ¬(relationType.toList ++ ['\x00']) <+: value.toList := by
    rintro ⟨rest, hrest⟩
    obtain ⟨c, cs, hcs⟩ : ∃ c cs, relationType.toList = c :: cs :=
      List.exists_cons_of_ne_nil (by simpa using hne)
    refine hplain ?_
    rw [← hrest, hcs]
    simp
  have hstart' : (relationType.toList ++ ['\x00']).isPrefixOf value.toList = false := by
    rw [← Bool.not_eq_true, List.isPrefixOf_iff_prefix]
    exact hstart
  simp [inTypeRange, inTextRange, hne, hstart']

/-- A type with a zero character is in the range of its part before that character. -/
theorem exists_inTypeRange {value : String} (h : '\x00' ∈ value.toList.tail) :
    ∃ relationType, relationType ≠ "" ∧ inTypeRange relationType value = true ∧ value ≠ relationType := by
  obtain ⟨c, cs, hcs⟩ : ∃ c cs, value.toList = c :: cs :=
    List.exists_cons_of_ne_nil fun hnil => by simp [hnil] at h
  rw [hcs, List.tail_cons] at h
  obtain ⟨before, after, hsplit⟩ := List.append_of_mem h
  refine ⟨String.ofList (c :: before), ?_, ?_, ?_⟩
  · intro heq
    simpa using congrArg String.toList heq
  · have hrange : (String.ofList (c :: before)).toList ++ ['\x00'] <+: value.toList :=
      ⟨after, by simp [hcs, hsplit]⟩
    simp only [inTypeRange, inTextRange, List.isPrefixOf_iff_prefix.mpr hrange, Bool.or_true]
  · intro heq
    have hlength := congrArg (fun s => s.toList.length) heq
    simp [hcs, hsplit] at hlength

theorem exact_iff_of_symmetric (h : db.edges.Symmetric) : RelationshipsExact db ↔ PlainTypes db := by
  constructor
  · intro hexact r hstored hzero
    obtain ⟨relationType, hne, hrange, hdiffers⟩ := exists_inTypeRange hzero
    have hlists := lists_listBySource h r.orgId r.sourceId relationType
    have hsame := hlists.iff.mp (hexact.bySource r.orgId r.sourceId relationType hne) r
    exact hdiffers (hsame.mp ⟨hstored, rfl, rfl, hrange⟩).2.2.2
  · intro hplain
    refine ⟨fun k => (h.paired k).not, fun orgId targetId => ?_, fun orgId sourceId relationType hne => ?_⟩
    · refine (lists_listByTarget h orgId targetId "").iff.mpr fun r => ?_
      simp [inTypeRange]
    · refine (lists_listBySource h orgId sourceId relationType).iff.mpr fun r => ?_
      refine and_congr_right fun hstored => ?_
      rw [inTypeRange_iff_of_plain hne (hplain r hstored)]

/-- A key names a node at one of its ends. -/
def RelKey.mentions (k : RelKey) (nodeId : UUID) : Prop := k.near = nodeId ∨ k.far = nodeId

/-- The relationships of a node of the organization are gone after it was cleared, and the others are
as they were. -/
theorem Edges.get_forward_cleared {edges : Edges} (h : edges.Symmetric) (orgId nodeId : UUID) (k : RelKey) :
    ((edges.clearSource orgId nodeId).clearTarget orgId nodeId).forward.get k = none ↔
      k.org = orgId ∧ k.mentions nodeId ∨ edges.forward.get k = none := by
  have hsource := h.clearSource orgId nodeId
  have hforward : ((edges.clearSource orgId nodeId).clearTarget orgId nodeId).forward.get k = none ↔
      inNodeRange orgId nodeId "" k.flip = true ∨ (edges.clearSource orgId nodeId).forward.get k = none := by
    change ((edges.clearSource orgId nodeId).dropAll _).forward.get k = none ↔ _
    by_cases hmem : k ∈ (edges.clearSource orgId nodeId).incomingEdges orgId nodeId
    · rw [get_forward_dropAll_of_mem hmem]
      exact iff_of_true rfl (.inl (mem_incomingEdges.mp hmem).2)
    · rw [get_forward_dropAll_of_notMem hmem]
      refine ⟨.inr, fun hor => hor.elim (fun hrange => by_contra fun hget => hmem ?_) id⟩
      exact mem_incomingEdges.mpr ⟨fun hnone => hget ((hsource.paired k).mpr hnone), hrange⟩
  rw [hforward, get_forward_clearSource]
  have hflip : inNodeRange orgId nodeId "" k.flip = true ↔ k.org = orgId ∧ k.far = nodeId := by
    simp [inNodeRange, inTypeRange, RelKey.flip]
  have hnear : inNodeRange orgId nodeId "" k = true ↔ k.org = orgId ∧ k.near = nodeId := by
    simp [inNodeRange, inTypeRange]
  split_ifs with hrange
  · exact iff_of_true (.inr rfl) (.inl ⟨(hnear.mp hrange).1, .inl (hnear.mp hrange).2⟩)
  · rw [hflip, RelKey.mentions]
    rw [hnear] at hrange
    refine or_congr_left (and_congr_right fun horg => ?_)
    exact (or_iff_right fun hsource => hrange ⟨horg, hsource⟩).symm

/-- **The relationships of every reachable state.**  The two families agree and the lists are exact if
and only if no stored type has a zero character after its first one; and after a deletion no key names
the node if and only if none of another organization did. -/
theorem relationships_exact_iff (env : Env) {s : State} (h : Reach (step env) anyMove State.init s) :
    (RelationshipsExact s.db ↔ PlainTypes s.db) ∧
      ∀ move s' k, step env s move = some s' → Deletes s.db s'.db k →
        ((∀ r, s'.db.edges.forward.get r ≠ none ∨ s'.db.edges.reverse.get r ≠ none → ¬r.mentions k.id) ↔
          ∀ r, r.org ≠ k.org → s.db.edges.forward.get r ≠ none → ¬r.mentions k.id) := by
  have hsymmetric := symmetric_of_reach h
  refine ⟨exact_iff_of_symmetric hsymmetric, fun move s' k hstep hdeletes => ?_⟩
  obtain ⟨-, rfl⟩ | ⟨t, -, -, hcommitted, rfl⟩ := step_cases hstep
  · exact absurd hdeletes.2 hdeletes.1
  have hedges : t.db.edges = _ := edges_of_deletes hcommitted hdeletes
  have hafter := symmetric_of_committed hcommitted hsymmetric
  have hget : ∀ r, t.db.edges.forward.get r = none ↔
      r.org = k.org ∧ r.mentions k.id ∨ s.db.edges.forward.get r = none := fun r => by
    rw [hedges]
    exact Edges.get_forward_cleared hsymmetric k.org k.id r
  constructor
  · intro hnone r horg hr
    refine hnone r (.inl fun hcleared => ?_)
    exact ((hget r).mp hcleared).elim (fun hsame => horg hsame.1) hr
  · -- a reverse key that is left has its forward key, which names the same nodes
    have hmentions : ∀ r : RelKey, r.flip.mentions k.id ↔ r.mentions k.id := fun r => or_comm
    have hforward : (∀ r, r.org ≠ k.org → s.db.edges.forward.get r ≠ none → ¬r.mentions k.id) →
        ∀ r, t.db.edges.forward.get r ≠ none → ¬r.mentions k.id := by
      intro hforeign r hr hnames
      rw [ne_eq, hget, not_or] at hr
      exact hforeign r (fun horg => hr.1 ⟨horg, hnames⟩) hr.2 hnames
    rintro hforeign r (hr | hr)
    · exact hforward hforeign r hr
    · rw [← hmentions]
      refine hforward hforeign r.flip fun hnone => hr ?_
      exact (hafter.paired r.flip).mp hnone

/-- A relationship without properties. -/
def plainRelationship (orgId sourceId : UUID) (relationType : String) (targetId : UUID) : Relationship :=
  ⟨orgId, sourceId, relationType, targetId, 9, Time.zero, .empty⟩

/-- A node without properties. -/
def plainNode (orgId : UUID) (nodeType : String) (id : UUID) : Node :=
  ⟨id, orgId, nodeType, "", .empty, 9, 9, Time.zero, Time.zero⟩

theorem relationships_exact_iff_example : ∃ s s', Reach (step .constant) anyMove State.init s ∧
    s.db.edges.Stored (plainRelationship 1 5 "blocks" 6) ∧ RelationshipsExact s.db ∧
    step .constant s (.once (.delete 1 5 (plainNode 1 "task" 5))) = some s' ∧
    Deletes s.db s'.db ⟨1, "task", 5⟩ ∧
    ∀ r, s'.db.edges.forward.get r ≠ none ∨ s'.db.edges.reverse.get r ≠ none → ¬r.mentions 5 := by
  obtain ⟨s, hreach, hrun⟩ := exists_reach_of_run (step .constant) State.init
    [.once (.create ⟨plainNode 1 "task" 5, [], [], [], none⟩),
      .once (.addRelationship (plainRelationship 1 5 "blocks" 6) false),
      .once (.addRelationship (plainRelationship 1 7 "blocks" 5) false)]
    (fun s => s.db.edges.forward.get ⟨1, 5, "blocks", 6⟩ = some (plainRelationship 1 5 "blocks" 6) &&
      s.db.edges.forward.entries.all (fun e => e.1.org = 1 && '\x00' ∉ e.2.relationType.toList.tail) &&
      (step .constant s (.once (.delete 1 5 (plainNode 1 "task" 5)))).any fun s' =>
        s.db.nodes.get ⟨1, "task", 5⟩ ≠ none && s'.db.nodes.get ⟨1, "task", 5⟩ = none)
    (by decide +kernel)
  simp only [Bool.and_eq_true, decide_eq_true_eq, List.all_eq_true, Option.any_eq_true] at hrun
  obtain ⟨⟨hstored, hentries⟩, s', hstep, hdeletes⟩ := hrun
  obtain ⟨hexact, hdeleted⟩ := relationships_exact_iff .constant hreach
  refine ⟨s, s', hreach, hstored, hexact.mpr fun r hr => (hentries _ (Table.mem_entries.mpr hr)).2, hstep,
    hdeletes, (hdeleted _ s' _ hstep hdeletes).mpr fun r horg hr => ?_⟩
  obtain ⟨rel, hrel⟩ := Option.ne_none_iff_exists'.mp hr
  exact absurd (hentries _ (Table.mem_entries.mpr hrel)).1 horg

/-- A list by source returns a relationship of a longer type, and a deletion leaves a key of another
organization that names the node. -/
theorem relationships_not_exact :
    (∃ s, Reach (step .constant) anyMove State.init s ∧ ¬RelationshipsExact s.db) ∧
      ∃ s s' move k r, Reach (step .constant) anyMove State.init s ∧ step .constant s move = some s' ∧
        Deletes s.db s'.db k ∧ s'.db.edges.forward.get r ≠ none ∧ r.mentions k.id := by
  constructor
  · obtain ⟨s, hreach, hlisted⟩ := exists_reach_of_run (step .constant) State.init
      [.once (.addRelationship (plainRelationship 1 5 "blocks\x00x" 6) false)]
      (fun s => (listBySource s.db 1 5 "blocks").any fun r => r.relationType != "blocks")
      (by decide +kernel)
    refine ⟨s, hreach, fun hexact => ?_⟩
    obtain ⟨r, hr, htype⟩ := List.any_eq_true.mp hlisted
    have hlist := (hexact.bySource 1 5 "blocks" (by decide)).2 r
    exact absurd (hlist.mp hr).2.2.2 (by simpa using htype)
  · let deletion : Move := .once (.delete 1 5 (plainNode 1 "task" 5))
    obtain ⟨s, hreach, hrun⟩ := exists_reach_of_run (step .constant) State.init
      [.once (.create ⟨plainNode 1 "task" 5, [], [], [], none⟩),
        .once (.addRelationship (plainRelationship 2 5 "blocks" 6) false)]
      (fun s => (step .constant s deletion).any fun s' =>
        s.db.nodes.get ⟨1, "task", 5⟩ ≠ none && s'.db.nodes.get ⟨1, "task", 5⟩ = none &&
          s'.db.edges.forward.get ⟨2, 5, "blocks", 6⟩ ≠ none)
      (by decide +kernel)
    obtain ⟨s', hstep, hs'⟩ := (Option.any_eq_true _ _).mp hrun
    simp only [Bool.and_eq_true, decide_eq_true_eq] at hs'
    exact ⟨s, s', deletion, ⟨1, "task", 5⟩, ⟨2, 5, "blocks", 6⟩, hreach, hstep, hs'.1, hs'.2, .inl rfl⟩

end Tack.Nodes

import Tack.Nodes.Stored

/-!
# The property index of every reachable state

The index holds an entry for every value of an indexed property.  A write moves the entries of one node
from the old values that its caller knows to the new ones, so the index is exact after it if and only if
the caller's old values are the stored ones and its new values are stored as they were passed.  A
deletion clears the entries of the node that its caller read, which may have changed since.

## Main definitions

* `Nodes.PropertyIndexExact` — the index holds the stored values of the indexed properties.
* `Nodes.Reconciles` — when a write leaves the right entry for one property.
* `Nodes.Call.KeepsIndex` — the condition for each call.

## Main results

* `Nodes.exact_iff_of_committed` — a call keeps the index exact if and only if it meets its condition.
* `Nodes.property_index_exact` — what holds along every run.
-/

namespace Tack.Nodes

open Lib

variable {env : Env} {times : StepTimes} {db db' : Db} {call : Call} {t : Attempt}

/-- The node of an index entry. -/
def PropKey.nodeKey (k : PropKey) : NodeKey := ⟨k.org, k.nodeType, k.id⟩

/-- The property is indexed for the type. -/
def Db.IndexedProperty (db : Db) (orgId : UUID) (typeKey name : String) : Prop :=
  ∃ kind, cachedNodeTypeByKey db orgId typeKey = .ok (some kind) ∧
    name ∈ indexedPropertyNames (db.definitionsOf orgId) kind

/-- The properties that are indexed for the type. -/
def Db.indexedNames (db : Db) (orgId : UUID) (typeKey : String) : List String :=
  match cachedNodeTypeByKey db orgId typeKey with
  | .ok (some kind) => indexedPropertyNames (db.definitionsOf orgId) kind
  | _ => []

theorem mem_indexedNames {orgId : UUID} {typeKey name : String} :
    name ∈ db.indexedNames orgId typeKey ↔ db.IndexedProperty orgId typeKey name := by
  rw [Db.indexedNames, Db.IndexedProperty]
  split
  · next kind hkind => simp [hkind]
  · next hnone =>
    refine iff_of_false List.not_mem_nil ?_
    rintro ⟨kind, hkind, -⟩
    exact hnone kind hkind

instance (db : Db) (orgId : UUID) (typeKey name : String) :
    Decidable (db.IndexedProperty orgId typeKey name) := decidable_of_iff _ mem_indexedNames

/-- An entry of an indexed property exists if and only if its node is stored with its value. -/
def PropertyIndexExact (db : Db) : Prop :=
  ∀ k : PropKey, db.IndexedProperty k.org k.nodeType k.name →
    (db.byProperty.get k ≠ none ↔
      ∃ current, db.nodes.get k.nodeKey = some current ∧ current.props.get k.name = some k.value)

theorem SameSchema.indexedProperty_iff (h : SameSchema db db') {orgId : UUID} {typeKey name : String} :
    db'.IndexedProperty orgId typeKey name ↔ db.IndexedProperty orgId typeKey name := by
  rw [Db.IndexedProperty, Db.IndexedProperty, h.cachedNodeTypeByKey, h.definitionsOf]

/-! ### The entries after a write -/

/-- An entry after its property was reconciled. -/
def reconciledEntry (old new value : RawMessage) (entry : Option Unit) : Option Unit :=
  if old = new then entry
  else if new ≠ "" ∧ value = new then some ()
  else if old ≠ "" ∧ value = old then none
  else entry

theorem reconciledEntry_idem (old new value : RawMessage) (entry : Option Unit) :
    reconciledEntry old new value (reconciledEntry old new value entry) =
      reconciledEntry old new value entry := by
  unfold reconciledEntry
  split_ifs <;> rfl

theorem nodeByPropertyKey_eq_iff {current : Node} {name : String} {value : RawMessage} {k : PropKey} :
    nodeByPropertyKey current name value = k ↔
      k.nodeKey = nodeInstanceKey current ∧ k.name = name ∧ k.value = value := by
  obtain ⟨org, nodeType, keyName, keyValue, id⟩ := k
  simp only [nodeByPropertyKey, PropKey.nodeKey, nodeInstanceKey, PropKey.mk.injEq, NodeKey.mk.injEq]
  constructor
  · rintro ⟨rfl, rfl, rfl, rfl, rfl⟩
    exact ⟨⟨rfl, rfl, rfl⟩, rfl, rfl⟩
  · rintro ⟨⟨rfl, rfl, rfl⟩, rfl, rfl⟩
    exact ⟨rfl, rfl, rfl, rfl, rfl⟩

/-- The value that a caller passes for a property; empty when there is none. -/
def passedValue (props : Props) (name : String) : RawMessage := (props.get name).getD ""

theorem get_eraseEntry (current : Node) (index : PropIndex) (name : String) (value : RawMessage) (k : PropKey) :
    (if value ≠ "" then index.erase (nodeByPropertyKey current name value) else index).get k =
      if (k.nodeKey = nodeInstanceKey current ∧ k.name = name) ∧ value ≠ "" ∧ k.value = value then none
      else index.get k := by
  by_cases hvalue : value = ""
  · simp [hvalue]
  · simp [hvalue, Table.get_erase, @eq_comm PropKey k, nodeByPropertyKey_eq_iff, and_assoc]

theorem get_setEntry (current : Node) (index : PropIndex) (name : String) (value : RawMessage) (k : PropKey) :
    (if value ≠ "" then index.set (nodeByPropertyKey current name value) () else index).get k =
      if (k.nodeKey = nodeInstanceKey current ∧ k.name = name) ∧ value ≠ "" ∧ k.value = value then some ()
      else index.get k := by
  by_cases hvalue : value = ""
  · simp [hvalue]
  · simp [hvalue, Table.get_set, nodeByPropertyKey_eq_iff, and_assoc]

/-- Reconciling one property changes the entries of that property of the node. -/
theorem get_reconcileProperty (current : Node) (oldProps : Props) (index : PropIndex) (name : String) (k : PropKey) :
    (reconcileProperty current oldProps index name).get k =
      if k.nodeKey = nodeInstanceKey current ∧ k.name = name then
        reconciledEntry (passedValue oldProps name) (current.prop name) k.value (index.get k)
      else index.get k := by
  rw [reconcileProperty, ← passedValue, reconciledEntry]
  by_cases hsame : passedValue oldProps name = current.prop name
  · rw [if_pos hsame, if_pos hsame, ite_self]
  · rw [if_neg hsame, if_neg hsame]
    dsimp only
    rw [get_setEntry, get_eraseEntry]
    by_cases hk : k.nodeKey = nodeInstanceKey current ∧ k.name = name
    · simp only [hk, true_and, if_true]
    · simp only [hk, false_and, if_false]

/-- Reconciling a list of properties changes the entries of those properties of the node. -/
theorem get_reconcilePropertyIndexes (current : Node) (oldProps : Props) (index : PropIndex)
    (names : List String) (k : PropKey) :
    (reconcilePropertyIndexes index current oldProps names).get k =
      if k.nodeKey = nodeInstanceKey current ∧ k.name ∈ names then
        reconciledEntry (passedValue oldProps k.name) (current.prop k.name) k.value (index.get k)
      else index.get k := by
  induction names generalizing index with
  | nil => simp [reconcilePropertyIndexes]
  | cons name names ih =>
    have hcons : reconcilePropertyIndexes index current oldProps (name :: names) =
        reconcilePropertyIndexes (reconcileProperty current oldProps index name) current oldProps names :=
      rfl
    rw [hcons, ih, get_reconcileProperty]
    by_cases hnode : k.nodeKey = nodeInstanceKey current
    · by_cases hname : k.name = name
      · -- the property may come again; reconciling it twice changes nothing more
        simp only [hnode, hname, List.mem_cons, true_and, true_or, if_true, reconciledEntry_idem, ite_self]
      · simp only [hnode, hname, List.mem_cons, true_and, false_or, if_false]
    · simp only [hnode, false_and, if_false]

/-- A create reconciles from no properties. -/
theorem writeCreatePropertyIndexes_eq (index : PropIndex) (current : Node) (names : List String) :
    writeCreatePropertyIndexes index current names =
      reconcilePropertyIndexes index current .empty names := by
  rw [writeCreatePropertyIndexes, reconcilePropertyIndexes]
  congr 1
  funext index name
  rw [reconcileProperty, Table.get_empty, Option.getD_none]
  by_cases hvalue : current.prop name = ""
  · simp [hvalue]
  · simp [hvalue, Ne.symm hvalue]

theorem get_clearPropertyIndexes (index : PropIndex) (current : Node) (k : PropKey) :
    (clearPropertyIndexes index current).get k ≠ none ↔ index.get k ≠ none ∧
      ¬(k.nodeKey = nodeInstanceKey current ∧ current.props.get k.name = some k.value) := by
  have hmem : k ∈ current.props.entries.map (fun e => nodeByPropertyKey current e.1 e.2) ↔
      k.nodeKey = nodeInstanceKey current ∧ current.props.get k.name = some k.value := by
    rw [List.mem_map]
    constructor
    · rintro ⟨e, he, hk⟩
      obtain ⟨hnode, hname, hvalue⟩ := nodeByPropertyKey_eq_iff.mp hk
      rw [hname, hvalue]
      exact ⟨hnode, Table.mem_entries.mp he⟩
    · rintro ⟨hnode, hget⟩
      exact ⟨(k.name, k.value), Table.mem_entries.mpr hget,
        nodeByPropertyKey_eq_iff.mpr ⟨hnode, rfl, rfl⟩⟩
  by_cases hk : k.nodeKey = nodeInstanceKey current ∧ current.props.get k.name = some k.value
  · have hcleared : (clearPropertyIndexes index current).get k = none :=
      Table.get_foldl_erase_of_mem _ (hmem.mpr hk)
    simp [hcleared, hk]
  · have hkept : (clearPropertyIndexes index current).get k = index.get k :=
      Table.get_foldl_erase_of_notMem _ (mt hmem.mp hk)
    rw [hkept]
    exact (and_iff_left hk).symm

/-! ### One write -/

/-- The stored value of a property. -/
def Db.storedValue (db : Db) (k : NodeKey) (name : String) : Option RawMessage :=
  (db.nodes.get k).bind fun current => current.props.get name

theorem exact_iff_storedValue : PropertyIndexExact db ↔
    ∀ k : PropKey, db.IndexedProperty k.org k.nodeType k.name →
      (db.byProperty.get k ≠ none ↔ db.storedValue k.nodeKey k.name = some k.value) := by
  simp only [PropertyIndexExact, Db.storedValue, Option.bind_eq_some_iff]

/-- A write that passes the values `old` and `new` of a property leaves the right entry: when the
property is not listed, or its value seems to stay, the stored value must stay; otherwise the new value
must be stored as it was passed, and the stored value must be the old one, or the new one, or none. -/
def Reconciles (listed : Prop) (before : Option RawMessage) (old new : RawMessage)
    (after : Option RawMessage) : Prop :=
  (¬(listed ∧ old ≠ new) → before = after) ∧
    (listed ∧ old ≠ new → (new = "" ∨ after = some new) ∧
      (before = none ∨ before = some old ∨ before = after) ∧
      (new ≠ "" ∨ after = none ∨ before = after ∧ before ≠ some old))

instance (listed : Prop) [Decidable listed] (before : Option RawMessage) (old new : RawMessage)
    (after : Option RawMessage) : Decidable (Reconciles listed before old new after) :=
  inferInstanceAs (Decidable (_ ∧ _))

theorem reconciles_iff {listed : Prop} [Decidable listed] {before after : Option RawMessage}
    {old new : RawMessage} (entry : RawMessage → Option Unit) (hbefore : before ≠ some "")
    (hafter : after ≠ some "") (hentry : ∀ value, entry value ≠ none ↔ before = some value) :
    Reconciles listed before old new after ↔ ∀ value,
      ((if listed then reconciledEntry old new value (entry value) else entry value) ≠ none ↔
        after = some value) := by
  by_cases hmoves : listed ∧ old ≠ new
  · obtain ⟨hlisted, hdiffers⟩ := hmoves
    have hset : ∀ value, reconciledEntry old new value (entry value) ≠ none ↔
        new ≠ "" ∧ value = new ∨ before = some value ∧ ¬(old ≠ "" ∧ value = old) := by
      intro value
      rw [reconciledEntry, if_neg hdiffers]
      split_ifs with hnew hold
      · exact iff_of_true (by simp) (.inl hnew)
      · exact iff_of_false (by simp) fun h => h.elim hnew fun h => h.2 hold
      · rw [hentry]
        exact ⟨fun h => .inr ⟨h, hold⟩, fun h => (h.resolve_left hnew).1⟩
    simp only [Reconciles, hlisted, hdiffers, ne_eq, not_false_eq_true, and_self, not_true_eq_false,
      false_implies, true_and, true_implies, if_true]
    simp only [← ne_eq, hset]
    constructor
    · rintro ⟨hnew, hold, hrest⟩ value
      grind
    · intro hall
      have hnew := hall new
      have hold := hall old
      cases before with
      | none =>
        cases after with
        | none => grind
        | some a =>
          have ha := hall a
          grind
      | some b =>
        have hb := hall b
        cases after with
        | none => grind
        | some a =>
          have ha := hall a
          grind
  · have hkept : ∀ value, (if listed then reconciledEntry old new value (entry value) else entry value) =
        entry value := by
      intro value
      split_ifs with hlisted
      · rw [reconciledEntry, if_pos (not_not.mp fun h => hmoves ⟨hlisted, h⟩)]
      · rfl
    simp only [Reconciles, hmoves, not_false_eq_true, true_implies, false_implies, and_true, hkept, hentry]
    constructor
    · rintro rfl value
      exact Iff.rfl
    · intro hall
      exact Option.ext fun value => by simpa using hall value

theorem not_compact_empty : ¬Compact "" := by decide +kernel

theorem WellStored.storedValue_ne_empty (h : WellStored db) (k : NodeKey) (name : String) :
    db.storedValue k name ≠ some "" := by
  intro hvalue
  obtain ⟨current, hget, hraw⟩ := Option.bind_eq_some_iff.mp hvalue
  exact not_compact_empty (h.compact hget hraw)

/-- For every indexed property of the node, the write leaves the right entry. -/
def WriteKeepsIndex (db : Db) (current : Node) (oldProps : Props) (names : List String) : Prop :=
  ∀ name, db.IndexedProperty current.orgId current.nodeType name →
    Reconciles (name ∈ names) (db.storedValue (nodeInstanceKey current) name) (passedValue oldProps name)
      (current.prop name) ((current.props.get name).map rawSpelling)

/-- **A write keeps the index exact if and only if it reconciles every indexed property.** -/
theorem exact_iff_of_write {current stored : Node} {oldProps : Props} {names : List String}
    (hstored : WellStored db) (hexact : PropertyIndexExact db) (hschema : SameSchema db db')
    (hmarshal : current.marshalled = some stored)
    (hnodes : db'.nodes = db.nodes.set (nodeInstanceKey stored) stored)
    (hindex : db'.byProperty = reconcilePropertyIndexes db.byProperty current oldProps names) :
    PropertyIndexExact db' ↔ WriteKeepsIndex db current oldProps names := by
  rw [exact_iff_storedValue] at hexact ⊢
  obtain ⟨props, hprops, rfl⟩ := Node.marshalled_eq_some hmarshal
  have hkey : nodeInstanceKey { current with props := props } = nodeInstanceKey current := rfl
  have hother : ∀ k : PropKey, k.nodeKey ≠ nodeInstanceKey current →
      db'.byProperty.get k = db.byProperty.get k ∧
        db'.storedValue k.nodeKey k.name = db.storedValue k.nodeKey k.name := by
    intro k hk
    rw [hindex, get_reconcilePropertyIndexes, if_neg fun h => hk h.1, Db.storedValue, Db.storedValue, hnodes,
      hkey, Table.get_set_ne _ _ (Ne.symm hk)]
    exact ⟨rfl, rfl⟩
  have hvalue : ∀ name, db'.storedValue (nodeInstanceKey current) name =
      (current.props.get name).map rawSpelling := by
    intro name
    rw [Db.storedValue, hnodes, hkey, Table.get_set_self, Option.bind_some,
      (marshalProps_eq_some hprops).1, Table.get_map]
  have hcompact : ∀ name, (current.props.get name).map rawSpelling ≠ some "" := by
    intro name hempty
    rw [← Table.get_map, ← (marshalProps_eq_some hprops).1] at hempty
    exact not_compact_empty (compact_of_marshalProps hprops hempty)
  -- the entries of one indexed property of the node
  have hone : ∀ name, db.IndexedProperty current.orgId current.nodeType name →
      (Reconciles (name ∈ names) (db.storedValue (nodeInstanceKey current) name)
        (passedValue oldProps name) (current.prop name) ((current.props.get name).map rawSpelling) ↔
      ∀ value, (db'.byProperty.get (nodeByPropertyKey current name value) ≠ none ↔
        db'.storedValue (nodeInstanceKey current) name = some value)) := by
    intro name hindexed
    rw [reconciles_iff (fun value => db.byProperty.get (nodeByPropertyKey current name value))
      (hstored.storedValue_ne_empty _ _) (hcompact name)
      fun value => hexact (nodeByPropertyKey current name value) hindexed]
    refine forall_congr' fun value => ?_
    rw [hvalue, hindex, get_reconcilePropertyIndexes]
    have hnode : (nodeByPropertyKey current name value).nodeKey = nodeInstanceKey current := rfl
    simp only [hnode, true_and]
    rfl
  constructor
  · intro hexact' name hindexed
    refine (hone name hindexed).mpr fun value => ?_
    exact hexact' (nodeByPropertyKey current name value) (hschema.indexedProperty_iff.mpr hindexed)
  · intro hkeeps k hindexed
    rw [hschema.indexedProperty_iff] at hindexed
    by_cases hk : k.nodeKey = nodeInstanceKey current
    · have hk' : nodeByPropertyKey current k.name k.value = k := nodeByPropertyKey_eq_iff.mpr ⟨hk, rfl, rfl⟩
      rw [← hk'] at hindexed ⊢
      exact (hone k.name hindexed).mp (hkeeps k.name hindexed) k.value
    · rw [(hother k hk).1, (hother k hk).2]
      exact hexact k hindexed

/-- The node that a deletion read has the stored values of the indexed properties. -/
def DeleteKeepsIndex (db : Db) (current : Node) : Prop :=
  ∀ name value, db.IndexedProperty current.orgId current.nodeType name →
    db.storedValue (nodeInstanceKey current) name = some value → current.props.get name = some value

/-- **A deletion keeps the index exact if and only if it clears every entry of the stored node.** -/
theorem exact_iff_of_clear {current : Node} (hexact : PropertyIndexExact db) (hschema : SameSchema db db')
    (hnodes : db'.nodes = db.nodes.erase (nodeInstanceKey current))
    (hindex : db'.byProperty = clearPropertyIndexes db.byProperty current) :
    PropertyIndexExact db' ↔ DeleteKeepsIndex db current := by
  rw [exact_iff_storedValue] at hexact ⊢
  have hgone : ∀ name, db'.storedValue (nodeInstanceKey current) name = none := by
    intro name
    rw [Db.storedValue, hnodes, Table.get_erase_self]
    rfl
  constructor
  · intro hexact' name value hindexed hvalue
    by_contra hread
    have hentry := (hexact (nodeByPropertyKey current name value) hindexed).mpr hvalue
    have hleft : db'.byProperty.get (nodeByPropertyKey current name value) ≠ none := by
      rw [hindex, get_clearPropertyIndexes]
      exact ⟨hentry, fun h => hread h.2⟩
    have hstill := (hexact' _ (hschema.indexedProperty_iff.mpr hindexed)).mp hleft
    exact absurd ((hgone name).symm.trans hstill) (by simp)
  · intro hkeeps k hindexed
    rw [hschema.indexedProperty_iff] at hindexed
    rw [hindex, get_clearPropertyIndexes, hexact k hindexed]
    by_cases hk : k.nodeKey = nodeInstanceKey current
    · have hk' : nodeByPropertyKey current k.name k.value = k := nodeByPropertyKey_eq_iff.mpr ⟨hk, rfl, rfl⟩
      rw [hk, hgone]
      refine iff_of_false (fun h => h.2 ⟨rfl, ?_⟩) (by simp)
      rw [← hk'] at hindexed
      exact hkeeps k.name k.value hindexed h.1
    · rw [Db.storedValue, Db.storedValue, hnodes, Table.get_erase_ne _ hk]
      exact and_iff_left fun h => hk h.1

/-- A move reconciles the parent when the old one has an entry, and nothing otherwise. -/
theorem moveParentIndexEntry_eq (index : PropIndex) {moved : Node} (oldProps : Props)
    (hprop : moved.prop parentIDProperty ≠ "") :
    moveParentIndexEntry index moved (passedValue oldProps parentIDProperty) =
      reconcilePropertyIndexes index moved oldProps
        (if passedValue oldProps parentIDProperty = "" ∨ index.get (nodeByPropertyKey moved parentIDProperty
          (passedValue oldProps parentIDProperty)) = none then [] else [parentIDProperty]) := by
  rw [moveParentIndexEntry]
  split_ifs with hkept
  · rfl
  · rw [not_or] at hkept
    change _ = reconcileProperty moved oldProps index parentIDProperty
    rw [reconcileProperty, ← passedValue, if_pos hkept.1, if_pos hprop]
    split_ifs with hsame
    · -- the entry is erased and set again
      rw [hsame] at hkept ⊢
      refine Table.ext fun k => ?_
      rw [Table.get_set]
      split_ifs with hk
      · rw [← hk]
        exact (Option.ne_none_iff_exists'.mp hkept.2).elim fun u hu => hu.symm
      · exact Table.get_erase_ne _ (Ne.symm hk)
    · rfl

/-- **A move keeps the index exact if and only if the child stores a parent when parents are indexed.** -/
theorem exact_iff_of_move {job : SubtreeDeleteJob} {current stored : Node} {now : Time}
    (hstored : WellStored db) (hexact : PropertyIndexExact db) (hschema : SameSchema db db')
    (hcurrent : db.nodes.get (nodeInstanceKey current) = some current)
    (hmarshal : (movedNode job current now).marshalled = some stored)
    (hnodes : db'.nodes = db.nodes.set (nodeInstanceKey stored) stored)
    (hindex : db'.byProperty = moveParentIndexEntry db.byProperty (movedNode job current now)
      (current.prop parentIDProperty)) :
    PropertyIndexExact db' ↔ (db.IndexedProperty current.orgId current.nodeType parentIDProperty →
      current.props.get parentIDProperty ≠ none) := by
  have hprop : (movedNode job current now).prop parentIDProperty = quoteUUID job.rootParentId := by
    simp [movedNode, Node.prop]
  rw [show current.prop parentIDProperty = passedValue current.props parentIDProperty from rfl,
    moveParentIndexEntry_eq _ _ (by rw [hprop]; exact quoteUUID_ne_empty _)] at hindex
  rw [exact_iff_of_write hstored hexact hschema hmarshal hnodes hindex]
  have hbefore : ∀ name, db.storedValue (nodeInstanceKey current) name = current.props.get name := by
    intro name
    rw [Db.storedValue, hcurrent, Option.bind_some]
  have hnew : ((movedNode job current now).props.get parentIDProperty).map rawSpelling =
      some (quoteUUID job.rootParentId) := by
    rw [movedNode, Table.get_set_self, Option.map_some, (compact_quoteUUID _).rawSpelling]
  have hother : ∀ name, name ≠ parentIDProperty →
      ((movedNode job current now).props.get name).map rawSpelling = current.props.get name := by
    intro name hname
    rw [movedNode, Table.get_set_ne _ _ (Ne.symm hname)]
    cases hraw : current.props.get name with
    | none => rfl
    | some raw => rw [Option.map_some, (hstored.compact hcurrent hraw).rawSpelling]
  have hkey : nodeInstanceKey (movedNode job current now) = nodeInstanceKey current := rfl
  constructor
  · intro hkeeps hindexed hnone
    have hreconciles := hkeeps parentIDProperty hindexed
    have hold : passedValue current.props parentIDProperty = "" := by rw [passedValue, hnone]; rfl
    rw [hkey, hbefore, hnone, hnew, if_pos (.inl hold)] at hreconciles
    exact absurd (hreconciles.1 (by simp)) (by simp)
  · intro hparent name hindexed
    rw [hkey, hbefore]
    by_cases hname : name = parentIDProperty
    · subst hname
      obtain ⟨raw, hraw⟩ := Option.ne_none_iff_exists'.mp (hparent hindexed)
      have hold : passedValue current.props parentIDProperty = raw := by rw [passedValue, hraw]; rfl
      have hentry : db.byProperty.get (nodeByPropertyKey (movedNode job current now) parentIDProperty raw) ≠
          none := by
        refine (exact_iff_storedValue.mp hexact _ hindexed).mpr ?_
        exact (hbefore parentIDProperty).trans hraw
      have hraw' : raw ≠ "" := fun hempty => not_compact_empty (hempty ▸ hstored.compact hcurrent hraw)
      rw [hraw, hnew, hprop, hold, if_neg (not_or.mpr ⟨hraw', hentry⟩)]
      refine ⟨fun hsame => ?_, fun _ => ⟨.inr rfl, .inr (.inl rfl), .inl (quoteUUID_ne_empty _)⟩⟩
      rw [not_and, not_not] at hsame
      rw [hsame (List.mem_singleton.mpr rfl)]
    · rw [hother name hname]
      refine ⟨fun _ => rfl, fun hlisted => ?_⟩
      have := hlisted.1
      split_ifs at this
      · cases this
      · exact absurd (List.mem_singleton.mp this) hname

/-! ### Calls -/

/-- The child that the next step of a job moves stores a parent, when parents of its type are indexed. -/
def MoveKeepsIndex (db : Db) (jobId : UUID) : Prop :=
  ∀ job topId child others current edges, db.jobs.get jobId = some job → job.finished = false →
    job.stack = [topId] → decideStep db job topId = .ok (.take child others) →
    readMove db job child = .ok (some (current, edges)) →
    db.IndexedProperty current.orgId current.nodeType parentIDProperty →
    current.props.get parentIDProperty ≠ none

/-- The node that a mutation writes and the properties that it reconciles from. -/
def mutatedNode (db : Db) (plan : MutationPlan) (now : Time) : Node × Props :=
  let source := readMutationSource db plan.orgId plan.nodeId
  (withParentID plan (mutationResult plan source now),
    (source.map fun source => source.node.props).getD .empty)

/-- When a call that commits keeps the index exact. -/
def Call.KeepsIndex (db : Db) (times : StepTimes) : Call → Prop
  | create args => WriteKeepsIndex db args.current .empty args.indexedProps
  | update args => WriteKeepsIndex db args.current args.oldProps args.indexedProps
  | mutate plan => readCreateIdempotency db plan = .ok false →
    ∀ kind, cachedNodeTypeByKey db plan.orgId plan.nodeType = .ok (some kind) →
      WriteKeepsIndex db (mutatedNode db plan times.now).1 (mutatedNode db plan times.now).2
        (indexedPropertyNames (db.definitionsOf plan.orgId) kind)
  | delete _ _ current => DeleteKeepsIndex db current
  | deleteSubtreeStep jobId => MoveKeepsIndex db jobId
  | _ => True

/-- A deletion that reads the stored node itself clears its entries. -/
theorem deleteKeepsIndex_of_stored {current : Node}
    (h : ∀ found, db.nodes.get (nodeInstanceKey current) = some found → found = current) :
    DeleteKeepsIndex db current := by
  intro name value _ hvalue
  obtain ⟨found, hget, hraw⟩ := Option.bind_eq_some_iff.mp hvalue
  rwa [← h found hget]

theorem exact_of_same (hexact : PropertyIndexExact db) (hschema : SameSchema db db')
    (hnodes : db'.nodes = db.nodes) (hindex : db'.byProperty = db.byProperty) :
    PropertyIndexExact db' := by
  intro k hindexed
  rw [hnodes, hindex]
  exact hexact k (hschema.indexedProperty_iff.mp hindexed)

/-- The node that a step deletes is the stored one, when there is one. -/
theorem topNode_stored (hdb : WellStored db) {job : SubtreeDeleteJob} {top : HierarchyNode} {found : Node}
    (h : db.nodes.get (nodeInstanceKey (topNode db job top)) = some found) : found = topNode db job top := by
  cases hget : db.nodes.get ⟨job.orgId, top.typeKey, top.id⟩ with
  | none =>
    rw [topNode, hget] at h
    have hkey : nodeInstanceKey (Option.getD none ⟨top.id, job.orgId, top.typeKey, "", .empty, UUID.nil,
        UUID.nil, job.updatedAt, job.updatedAt⟩) = ⟨job.orgId, top.typeKey, top.id⟩ := rfl
    rw [hkey, hget] at h
    cases h
  | some current =>
    rw [topNode, hget, Option.getD_some] at h ⊢
    rw [hdb.keyed hget, hget] at h
    exact (Option.some.inj h).symm

/-- The move of a step is the one that its condition speaks about. -/
theorem moveKeepsIndex_iff {jobId : UUID} {job : SubtreeDeleteJob} {topId : UUID} {child : HierarchyNode}
    {others : List RelKey} {current : Node} {edges : List RelKey} (hjob : db.jobs.get jobId = some job)
    (hunfinished : job.finished = false) (hstack : job.stack = [topId])
    (hdecision : decideStep db job topId = .ok (.take child others))
    (hread : readMove db job child = .ok (some (current, edges))) :
    MoveKeepsIndex db jobId ↔ (db.IndexedProperty current.orgId current.nodeType parentIDProperty →
      current.props.get parentIDProperty ≠ none) := by
  constructor
  · intro h
    exact h job topId child others current edges hjob hunfinished hstack hdecision hread
  · intro h job' topId' child' others' current' edges' hjob' _ hstack' hdecision' hread'
    obtain rfl := Option.some.inj (hjob.symm.trans hjob')
    obtain rfl : topId = topId' := by simpa using hstack.symm.trans hstack'
    obtain ⟨rfl, rfl⟩ : child = child' ∧ others = others' := by
      simpa using hdecision.symm.trans hdecision'
    obtain ⟨rfl, rfl⟩ : current = current' ∧ edges = edges' := by simpa using hread.symm.trans hread'
    exact h

/-- A step that moves no child meets its condition. -/
theorem moveKeepsIndex_of_not_move {jobId : UUID} {job : SubtreeDeleteJob} {topId : UUID} {below : List UUID}
    {decision : Decision} (hjob : db.jobs.get jobId = some job) (hstack : job.stack = topId :: below)
    (hdecision : decideStep db job topId = .ok decision)
    (h : ∀ child others current edges, below = [] → decision = .take child others →
      readMove db job child ≠ .ok (some (current, edges))) : MoveKeepsIndex db jobId := by
  intro job' topId' child others current edges hjob' _ hstack' hdecision' hread
  obtain rfl := Option.some.inj (hjob.symm.trans hjob')
  obtain ⟨rfl, hbelow⟩ : topId = topId' ∧ below = [] := by simpa using hstack.symm.trans hstack'
  exact absurd hread (h child others current edges hbelow (Except.ok.inj (hdecision.symm.trans hdecision')))

theorem exact_iff_of_stepped {jobId : UUID} {job job' : SubtreeDeleteJob} (hstored : WellStored db)
    (hexact : PropertyIndexExact db) (hjob : db.jobs.get jobId = some job)
    (hunfinished : job.finished = false) (h : Advanced env job times.moved ⟨db, []⟩ t job')
    (hschema : SameSchema db db') (hnodes : db'.nodes = t.db.nodes)
    (hindex : db'.byProperty = t.db.byProperty) :
    PropertyIndexExact db' ↔ MoveKeepsIndex db jobId := by
  have hquiet : db'.nodes = db.nodes → db'.byProperty = db.byProperty → MoveKeepsIndex db jobId →
      (PropertyIndexExact db' ↔ MoveKeepsIndex db jobId) := fun hnodes hindex =>
    iff_of_true (exact_of_same hexact hschema hnodes hindex)
  cases h with
  | idle stack =>
    refine hquiet hnodes hindex fun job' topId child others current edges hjob' _ hstack => ?_
    rw [← Option.some.inj (hjob.symm.trans hjob'), stack] at hstack
    cases hstack
  | pop stack decision =>
    exact hquiet hnodes hindex (moveKeepsIndex_of_not_move hjob stack decision (by simp))
  | push stack decision stays =>
    refine hquiet hnodes hindex (moveKeepsIndex_of_not_move hjob stack decision ?_)
    rintro child others current edges hbelow ⟨⟩ hread
    exact stays.elim (fun h => h hbelow) fun hstays => by cases hstays.symm.trans hread
  | move stack decision read spec =>
    rw [moveKeepsIndex_iff hjob hunfinished stack decision read]
    have hcurrent := (readMove_some read).2.1
    rw [← hstored.keyed hcurrent] at hcurrent
    refine exact_iff_of_move hstored hexact hschema hcurrent spec.marshalled ?_ ?_
    · rw [hnodes]
      exact spec.put.nodes
    · rw [hindex, Attempt.clearEdges, spec.db]
  | page stack decision =>
    exact hquiet hnodes hindex (moveKeepsIndex_of_not_move hjob stack decision (by simp))
  | @delete topId below current stack decision clearable =>
    have hkeeps : DeleteKeepsIndex db current := by
      refine deleteKeepsIndex_of_stored fun found hfound => ?_
      cases decided_of_ok decision with
      | delete read hfound' first fits => exact topNode_stored hstored hfound
    refine iff_of_true ?_ (moveKeepsIndex_of_not_move hjob stack decision (by simp))
    exact (exact_iff_of_clear hexact hschema hnodes hindex).mpr hkeeps

/-- **A call keeps the index exact if and only if it meets its condition.** -/
theorem exact_iff_of_committed (h : Committed env times db call t) (hstored : WellStored db)
    (hexact : PropertyIndexExact db) (hcall : call.writesSchema = false) :
    PropertyIndexExact t.db ↔ call.KeepsIndex db times := by
  have hschema := sameSchema_of_committed h hcall
  cases h with
  | created spec =>
    refine exact_iff_of_write hstored hexact hschema spec.marshalled spec.put.nodes ?_
    rw [spec.db, ← writeCreatePropertyIndexes_eq]
  | updated spec =>
    refine exact_iff_of_write hstored hexact hschema spec.marshalled spec.put.nodes ?_
    rw [spec.db]
  | replayed existing =>
    refine iff_of_true hexact fun hfresh => ?_
    rw [existing] at hfresh
    cases hfresh
  | @mutated plan t checked stored refs edges edgeChanges fresh spec =>
    have hresult : checked.result = (mutatedNode db plan times.now).1 := by
      rw [spec.checks.result, spec.checks.source]
      rfl
    have hold : (checked.source.map fun source => source.node.props).getD .empty =
        (mutatedNode db plan times.now).2 := by
      rw [spec.checks.source]
      rfl
    have hindex : t.db.byProperty = reconcilePropertyIndexes db.byProperty
        (mutatedNode db plan times.now).1 (mutatedNode db plan times.now).2
        (indexedPropertyNames (db.definitionsOf plan.orgId) checked.kind) := by
      rw [spec.db, ← hresult, ← hold]
    have hmarshal := spec.marshalled
    rw [hresult] at hmarshal
    rw [exact_iff_of_write hstored hexact hschema hmarshal spec.put.nodes hindex]
    constructor
    · intro hkeeps _ kind hkind
      obtain rfl : checked.kind = kind := by simpa using spec.checks.kind.symm.trans hkind
      exact hkeeps
    · intro hkeeps
      exact hkeeps fresh checked.kind spec.checks.kind
  | deletedRead => exact exact_iff_of_clear hexact hschema rfl rfl
  | @deletedNode plan source incoming sources spec checked clearable =>
    refine iff_of_true ((exact_iff_of_clear hexact hschema rfl rfl).mpr ?_) trivial
    refine deleteKeepsIndex_of_stored fun found hfound => ?_
    rw [hstored.source_key spec.readSource, (readMutationSource_eq_some.mp spec.readSource).2] at hfound
    exact (Option.some.inj hfound).symm
  | jobIdle finished =>
    refine iff_of_true hexact ?_
    intro job topId child others current edges hjob hunfinished
    rw [finished job hjob] at hunfinished
    cases hunfinished
  | jobStepped found unfinished advanced =>
    exact exact_iff_of_stepped hstored hexact found unfinished advanced hschema rfl rfl
  | schemaKept schema =>
    rw [hcall] at schema
    cases schema
  | schemaWritten schema =>
    rw [hcall] at schema
    cases schema
  | _ => exact iff_of_true (exact_of_same hexact hschema rfl rfl) trivial

/-! ### Runs -/

/-- The store without nodes that has the node types and property definitions of a database. -/
def Db.schemaOnly (db : Db) : Db :=
  { Db.empty with
    nodeTypes := db.nodeTypes
    nodeTypesByKey := db.nodeTypesByKey
    propertyDefs := db.propertyDefs
    epochs := db.epochs
    activation := db.activation }

/-- The call writes no schema, and if it commits it meets its condition. -/
def KeepsIndex (env : Env) (s : State) (move : Move) : Prop :=
  move.call.writesSchema = false ∧
    ∀ t, runCall env move s.db = .ok t → move.call.KeepsIndex s.db move.times

/-- **The property index along every run.**  For a fixed schema the index is exact as long as every
committed call meets its condition, and a call that commits from such a state keeps it exact if and only
if the call meets its condition. -/
theorem property_index_exact (env : Env) (schema : Db) {s : State}
    (h : Reach (step env) (KeepsIndex env) ⟨schema.schemaOnly, []⟩ s) :
    PropertyIndexExact s.db ∧ ∀ move t, move.call.writesSchema = false → runCall env move s.db = .ok t →
      (PropertyIndexExact t.db ↔ move.call.KeepsIndex s.db move.times) := by
  have hboth : WellStored s.db ∧ PropertyIndexExact s.db := by
    refine h.invariant (I := fun s => WellStored s.db ∧ PropertyIndexExact s.db)
      ⟨wellStored_of_empty rfl rfl, fun k _ => ?_⟩ fun {u move u'} hu hok hs => ?_
    · refine iff_of_false (fun hentry => hentry rfl) ?_
      rintro ⟨current, hget, -⟩
      cases hget
    · obtain ⟨-, rfl⟩ | ⟨t, hrun, -, hcommitted, rfl⟩ := step_cases hs
      · exact hu
      · exact ⟨wellStored_of_committed hcommitted hu.1,
          (exact_iff_of_committed hcommitted hu.1 hu.2 hok.1).mpr (hok.2 t hrun)⟩
  refine ⟨hboth.2, fun move t hcall hrun => ?_⟩
  exact exact_iff_of_committed (committed_of_attempt (runCall_ok.mp hrun)) hboth.1 hboth.2 hcall

/-- An organization with one type and one indexed property. -/
def colorSchema : Db :=
  { Db.empty with
    nodeTypes := Table.empty.set ⟨1, 3⟩ ⟨3, 1, "task", [], [], [], [], ""⟩
    nodeTypesByKey := Table.empty.set ⟨1, "task", 3⟩ ()
    propertyDefs := Table.empty.set ⟨1, 4⟩ ⟨4, 1, "color", .text, [], true, [], false, "", ""⟩ }

/-- A node with a color. -/
def coloredNode (color : RawMessage) : Node :=
  ⟨5, 1, "task", "", Table.empty.set "color" color, 9, 9, Time.zero, Time.zero⟩

/-- The node is created with the color red. -/
def createRed : Move := .once (.create ⟨coloredNode "\"red\"", [], ["color"], [], none⟩)

/-- The color changes to blue by a caller that read the stored properties. -/
def updateBlue : Move :=
  .once (.update ⟨none, coloredNode "\"blue\"", (coloredNode "\"red\"").props, ["color"], none, []⟩)

/-- The node is deleted by a call that read it while it was red. -/
def deleteRed : Move := .once (.delete 1 5 (coloredNode "\"red\""))

/-- The node is deleted by a call that read it after the update. -/
def deleteBlue : Move := .once (.delete 1 5 (coloredNode "\"blue\""))

/-- The check of a write: every indexed property is reconciled. -/
def writeCheck (db : Db) (current : Node) (oldProps : Props) (names : List String) : Bool :=
  (db.indexedNames current.orgId current.nodeType).all fun name =>
    Reconciles (name ∈ names) (db.storedValue (nodeInstanceKey current) name) (passedValue oldProps name)
      (current.prop name) ((current.props.get name).map rawSpelling)

/-- The check of `KeepsIndex` for the calls of the run. -/
def keepsIndexCheck (s : State) (move : Move) : Bool :=
  match move.call with
  | .create args => writeCheck s.db args.current .empty args.indexedProps
  | .update args => writeCheck s.db args.current args.oldProps args.indexedProps
  | .delete _ _ current => (s.db.indexedNames current.orgId current.nodeType).all fun name =>
      (s.db.storedValue (nodeInstanceKey current) name).all fun value => current.props.get name = some value
  | _ => false

theorem writeKeepsIndex_of_check {current : Node} {oldProps : Props} {names : List String}
    (h : writeCheck db current oldProps names = true) : WriteKeepsIndex db current oldProps names :=
  fun name hindexed => of_decide_eq_true (List.all_eq_true.mp h name (mem_indexedNames.mpr hindexed))

theorem keepsIndex_of_check (s : State) (move : Move) (h : keepsIndexCheck s move = true) :
    KeepsIndex .constant s move := by
  obtain ⟨call, aborted, times⟩ := move
  cases call with
  | create args => exact ⟨rfl, fun _ _ => writeKeepsIndex_of_check h⟩
  | update args => exact ⟨rfl, fun _ _ => writeKeepsIndex_of_check h⟩
  | delete orgId nodeId current =>
    refine ⟨rfl, fun _ _ name value hindexed hvalue => ?_⟩
    have hall := List.all_eq_true.mp h name (mem_indexedNames.mpr hindexed)
    simpa [hvalue] using hall
  | _ => cases h

theorem property_index_exact_example : ∃ s,
    Reach (step .constant) (KeepsIndex .constant) ⟨colorSchema.schemaOnly, []⟩ s ∧ s.past.length = 4 ∧
    s.db.byProperty.get (nodeByPropertyKey (coloredNode "") "color" "\"red\"") ≠ none ∧
    s.db.byProperty.get (nodeByPropertyKey (coloredNode "") "color" "\"blue\"") = none ∧
    PropertyIndexExact s.db := by
  obtain ⟨s, hreach, hrun⟩ := exists_reach_of_runChecked (step .constant) keepsIndex_of_check
    ⟨colorSchema.schemaOnly, []⟩ [createRed, updateBlue, deleteBlue, createRed]
    (fun s => s.past.length = 4 ∧
      s.db.byProperty.get (nodeByPropertyKey (coloredNode "") "color" "\"red\"") ≠ none ∧
      s.db.byProperty.get (nodeByPropertyKey (coloredNode "") "color" "\"blue\"") = none)
    (by decide +kernel)
  obtain ⟨hpast, hred, hblue⟩ := of_decide_eq_true hrun
  exact ⟨s, hreach, hpast, hred, hblue, (property_index_exact .constant colorSchema hreach).1⟩

/-- A deletion that read the node before its last update leaves the entry of the new value. -/
theorem property_index_not_exact : ∃ s,
    Reach (step .constant) anyMove ⟨colorSchema.schemaOnly, []⟩ s ∧
    s.db.byProperty.get (nodeByPropertyKey (coloredNode "") "color" "\"blue\"") ≠ none ∧
    s.db.nodes.entries = [] ∧ ¬PropertyIndexExact s.db := by
  obtain ⟨s, hreach, hrun⟩ := exists_reach_of_run (step .constant) ⟨colorSchema.schemaOnly, []⟩
    [createRed, updateBlue, deleteRed]
    (fun s => s.db.byProperty.get (nodeByPropertyKey (coloredNode "") "color" "\"blue\"") ≠ none ∧
      s.db.nodes.entries = [] ∧ s.db.IndexedProperty 1 "task" "color") (by decide +kernel)
  obtain ⟨hentry, hnodes, hindexed⟩ := of_decide_eq_true hrun
  refine ⟨s, hreach, hentry, hnodes, fun hexact => ?_⟩
  obtain ⟨current, hget, -⟩ := (hexact _ hindexed).mp hentry
  rw [Table.get, hnodes] at hget
  cases hget

end Tack.Nodes

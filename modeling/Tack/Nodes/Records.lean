import Mathlib
import Tack.Lib.JsonCompact
import Tack.Lib.Table
import Tack.Lib.Time
import Tack.Lib.Uuid

/-!
# Node and relationship records

The records of the node store.  A stored record is kept as the value that its JSON text decodes to; two
records have the same text when they are equal.  What `json.Marshal` does to a record is what it does
to its raw property values: they lose their spaces, and a raw value that is no JSON text fails the
write.

## Main definitions

* `Nodes.Node`, `Nodes.Relationship` — the records.
* `Nodes.Node.marshalled`, `Nodes.Relationship.marshalled` — the record that a write stores.
* `Nodes.storedUUID`, `Nodes.quoteUUID` — a property value that holds the ID of a node.

## Main results

* `Nodes.storedUUID_quoteUUID` — an ID that was written is read back.
-/

namespace Tack.Nodes

open Lib

/-- A JSON text; the empty one stands for a nil raw message. -/
abbrev RawMessage := String

/-! ### Raw property values -/

/-- The text that `json.Marshal` writes for a raw message. -/
def marshalRaw (raw : RawMessage) : Option RawMessage :=
  if raw = "" then some "null" else (Json.compact raw.toList).map String.ofList

/-- The stored text of a raw message that can be stored. -/
def rawSpelling (raw : RawMessage) : RawMessage := (marshalRaw raw).getD raw

/-- Properties by name. -/
abbrev Props := Table String RawMessage

/-- The properties that a write stores. -/
def marshalProps (props : Props) : Option Props :=
  if props.entries.all fun e => (marshalRaw e.2).isSome then some (props.map rawSpelling) else none

/-- A value that `json.Marshal` writes as it is. -/
def Compact (raw : RawMessage) : Prop := marshalRaw raw = some raw

instance (raw : RawMessage) : Decidable (Compact raw) := inferInstanceAs (Decidable (_ = _))

theorem compact_of_marshalRaw {raw text : RawMessage} (h : marshalRaw raw = some text) :
    Compact text := by
  rw [marshalRaw] at h
  split_ifs at h with hraw
  · cases h
    decide +kernel
  · obtain ⟨cs, hcs, rfl⟩ := Option.map_eq_some_iff.mp h
    have hagain := Json.compact_compact hcs
    have hne : String.ofList cs ≠ "" := by
      intro heq
      have hnil : cs = [] := by simpa using congrArg String.toList heq
      rw [hnil] at hagain
      exact absurd hagain (by decide)
    rw [Compact, marshalRaw, if_neg hne, String.toList_ofList, hagain]
    rfl

theorem Compact.rawSpelling {raw : RawMessage} (h : Compact raw) : rawSpelling raw = raw := by
  rw [Nodes.rawSpelling, h]
  rfl

theorem marshalProps_eq_some {props stored : Props} (h : marshalProps props = some stored) :
    stored = props.map rawSpelling ∧
      ∀ name raw, props.get name = some raw → (marshalRaw raw).isSome = true := by
  rw [marshalProps] at h
  split_ifs at h with hall
  cases h
  refine ⟨rfl, fun name raw hraw => ?_⟩
  exact List.all_eq_true.mp hall (name, raw) (Table.mem_entries.mpr hraw)

/-- What was stored is compact. -/
theorem compact_of_marshalProps {props stored : Props} (h : marshalProps props = some stored)
    {name : String} {raw : RawMessage} (hraw : stored.get name = some raw) : Compact raw := by
  obtain ⟨rfl, hall⟩ := marshalProps_eq_some h
  rw [Table.get_map] at hraw
  obtain ⟨old, hold, rfl⟩ := Option.map_eq_some_iff.mp hraw
  obtain ⟨text, htext⟩ := Option.isSome_iff_exists.mp (hall name old hold)
  rw [rawSpelling, htext]
  exact compact_of_marshalRaw htext

/-! ### IDs as property values -/

/-- The JSON string of a UUID. -/
def quoteUUID (id : UUID) : RawMessage := String.ofList (quote id.text.toList)

/-- The UUID that a raw message holds as a JSON string; the nil UUID for anything else. -/
def storedUUID (raw : RawMessage) : UUID :=
  match Json.parse raw.toList with
  | some (.str text) => (UUID.parse text).getD UUID.nil
  | _ => UUID.nil

/-- An ID that was written is read back. -/
@[simp] theorem storedUUID_quoteUUID (id : UUID) : storedUUID (quoteUUID id) = id := by
  have hparse := Json.parse_render (.str id.text)
  rw [Json.render] at hparse
  rw [storedUUID, quoteUUID, String.toList_ofList, hparse]
  simp

/-- The text of a UUID needs no escapes. -/
theorem plain_text {id : UUID} {c : Char} (hc : c ∈ id.text.toList) :
    (c ≠ '\x22' ∧ c ≠ '\x5c' ∧ ¬ c.toNat < 32 ∧ c ∉ htmlUnsafe) ∧ escapeChar c = [c] := by
  have hdigit : ∀ n < 16, (hexDigit n ≠ '\x22' ∧ hexDigit n ≠ '\x5c' ∧ ¬ (hexDigit n).toNat < 32 ∧
      hexDigit n ∉ htmlUnsafe) ∧ escapeChar (hexDigit n) = [hexDigit n] := by
    decide
  rcases UUID.mem_text hc with rfl | ⟨n, hn, rfl⟩
  · decide
  · exact hdigit n hn

theorem quoteUUID_ne_empty (id : UUID) : quoteUUID id ≠ "" := by
  intro h
  have := congrArg String.toList h
  simp [quoteUUID, quote] at this

/-- A written ID is stored as it is. -/
theorem compact_quoteUUID (id : UUID) : Compact (quoteUUID id) := by
  have hflat : id.text.toList.flatMap escapeChar = id.text.toList := by
    have hall : ∀ cs : List Char, (∀ c ∈ cs, escapeChar c = [c]) → cs.flatMap escapeChar = cs := by
      intro cs h
      induction cs with
      | nil => rfl
      | cons c cs ih =>
        rw [List.flatMap_cons, h c List.mem_cons_self, ih fun c' hc' => h c' (List.mem_cons_of_mem c hc')]
        rfl
    exact hall _ fun c hc => (plain_text hc).2
  rw [Compact, marshalRaw, if_neg (quoteUUID_ne_empty id), quoteUUID, String.toList_ofList, quote, hflat,
    Json.compact_quote fun c hc => (plain_text hc).1]
  rfl

theorem quoteUUID_injective : Function.Injective quoteUUID := fun a b h => by
  rw [← storedUUID_quoteUUID a, h, storedUUID_quoteUUID]

/-! ### Records -/

/-- The property that stores the ID of a node's hierarchy parent. -/
def parentIDProperty : String := "parent_id"

/-- The property that stores the ID of a node's reference and numbering scope. -/
def scopeIDProperty : String := "scope_id"

structure Node where
  id : UUID
  orgId : UUID
  nodeType : String
  name : String
  props : Props
  createdBy : UUID
  updatedBy : UUID
  createdAt : Time
  updatedAt : Time
  deriving DecidableEq

/-- The record that a write stores. -/
def Node.marshalled (current : Node) : Option Node :=
  (marshalProps current.props).map fun props => { current with props := props }

/-- A property of a node; the empty text when the node does not have it. -/
def Node.prop (current : Node) (name : String) : RawMessage := (current.props.get name).getD ""

/-- The parent that a node stores. -/
def Node.parentID (current : Node) : UUID := storedUUID (current.prop parentIDProperty)

structure NodeResolve where
  orgId : UUID
  nodeType : String
  deriving DecidableEq

/-- The relation type of hierarchy edges. -/
def relChildOf : String := "child_of"

structure Relationship where
  orgId : UUID
  sourceId : UUID
  relationType : String
  targetId : UUID
  createdBy : UUID
  createdAt : Time
  props : Props
  deriving DecidableEq

def Relationship.marshalled (relationship : Relationship) : Option Relationship :=
  (marshalProps relationship.props).map fun props => { relationship with props := props }

/-- Relationships that a write removes and then adds. -/
structure RelationshipChanges where
  add : List Relationship
  remove : List Relationship

structure ReferenceKey where
  templateName : String
  encoded : String
  deriving DecidableEq

structure IdempotencyRecord where
  key : String
  nodeId : UUID
  fingerprint : String
  createdAt : Time
  source : String
  deriving DecidableEq

/-- A subtree delete job; the top of the stack comes first. -/
structure SubtreeDeleteJob where
  id : UUID
  orgId : UUID
  rootId : UUID
  rootParentId : UUID
  actorId : UUID
  stack : List UUID
  deleted : ℕ
  moved : ℕ
  updatedAt : Time
  finishedAt : Time
  deriving DecidableEq

def SubtreeDeleteJob.finished (job : SubtreeDeleteJob) : Bool := !job.finishedAt.isZero

/-! ### Schema records -/

inductive ReferencePart
  | literal (value : String)
  | nodeType
  | scopeRef (feature : String)
  | property (name : String)
  | unknown (kind : String)
  deriving DecidableEq

structure ReferenceTemplate where
  name : String
  parts : List ReferencePart
  deriving DecidableEq

structure NodeType where
  id : UUID
  orgId : UUID
  typeKey : String
  features : List String
  canContain : List String
  canLiveUnder : List String
  referenceTemplates : List ReferenceTemplate
  /-- The encoding of the other fields. -/
  rest : String
  deriving DecidableEq

inductive PropertyType
  | text
  | number
  | date
  | select
  | multiSelect
  | url
  | checkbox
  | timestamp
  | uuid
  | other (name : String)
  deriving DecidableEq

structure EnumOption where
  key : String
  label : String
  deriving DecidableEq

structure PropertyDef where
  id : UUID
  orgId : UUID
  name : String
  type : PropertyType
  appliesToFeatures : List String
  indexed : Bool
  options : List EnumOption
  required : Bool
  /-- The node type that a reference names; empty when the property is no reference. -/
  referenceTargetTypeKey : String
  /-- The encoding of the other fields. -/
  rest : String
  deriving DecidableEq

/-! ### What comes from outside -/

abbrev Digest := BitVec 256

/-- The library functions that the transactions use. -/
structure Env where
  /-- `url.Parse` reads the text and finds a scheme and a host. -/
  absoluteURL : String → Bool
  /-- The SHA-256 digest of the empty text. -/
  emptyDigest : Digest
  /-- The SHA-256 digest of the stored text of a record. -/
  primaryDigest : Node → Digest
  relationshipDigest : Relationship → Digest

theorem Node.marshalled_eq_some {current stored : Node} (h : current.marshalled = some stored) :
    ∃ props, marshalProps current.props = some props ∧ stored = { current with props := props } := by
  obtain ⟨props, hprops, rfl⟩ := Option.map_eq_some_iff.mp h
  exact ⟨props, hprops, rfl⟩

end Tack.Nodes

import Mathlib
import Tack.Lib.Tx
import Tack.Nodes.Records

/-!
# The node database

The key families that node transactions read and write, each as a table in key order, and one attempt
of a transaction with the changes it records for the audit outbox.

## Main definitions

* `Nodes.Db` — the key families.
* `Nodes.Attempt`, `Nodes.Step` — a transaction attempt and a part of it.
* `Nodes.record`, `Nodes.append` — the changes of an attempt.
* `Nodes.fenceAttempt` — the write fence of strict validation.
-/

namespace Tack.Nodes

open Lib

/-! ### Keys

Keys are ordered field by field: the packed keys of the store are ordered like that. -/

instance : LinearOrder UUID := LinearOrder.lift' BitVec.toNat fun _ _ h => BitVec.eq_of_toNat_eq h

/-- The key of a relationship under one of its ends: the source in the forward family, the target in
the reverse family. -/
structure RelKey where
  org : UUID
  near : UUID
  relationType : String
  far : UUID
  deriving DecidableEq

instance : LinearOrder RelKey :=
  LinearOrder.lift' (fun k => toLex (k.org, toLex (k.near, toLex (k.relationType, k.far))))
    fun a b h => by
      cases a
      cases b
      simpa using h

structure NodeKey where
  org : UUID
  nodeType : String
  id : UUID
  deriving DecidableEq

instance : LinearOrder NodeKey :=
  LinearOrder.lift' (fun k => toLex (k.org, toLex (k.nodeType, k.id))) fun a b h => by
    cases a
    cases b
    simpa using h

structure PropKey where
  org : UUID
  nodeType : String
  name : String
  value : RawMessage
  id : UUID
  deriving DecidableEq

instance : LinearOrder PropKey :=
  LinearOrder.lift'
    (fun k => toLex (k.org, toLex (k.nodeType, toLex (k.name, toLex (k.value, k.id))))) fun a b h => by
      cases a
      cases b
      simpa using h

structure RefKey where
  org : UUID
  template : String
  encoded : String
  deriving DecidableEq

instance : LinearOrder RefKey :=
  LinearOrder.lift' (fun k => toLex (k.org, toLex (k.template, k.encoded))) fun a b h => by
    cases a
    cases b
    simpa using h

structure OwnedKey where
  org : UUID
  id : UUID
  template : String
  deriving DecidableEq

instance : LinearOrder OwnedKey :=
  LinearOrder.lift' (fun k => toLex (k.org, toLex (k.id, k.template))) fun a b h => by
    cases a
    cases b
    simpa using h

structure TypeIndexKey where
  org : UUID
  typeKey : String
  id : UUID
  deriving DecidableEq

instance : LinearOrder TypeIndexKey :=
  LinearOrder.lift' (fun k => toLex (k.org, toLex (k.typeKey, k.id))) fun a b h => by
    cases a
    cases b
    simpa using h

/-- A record of an organization. -/
structure OrgKey where
  org : UUID
  id : UUID
  deriving DecidableEq

instance : LinearOrder OrgKey :=
  LinearOrder.lift' (fun k => toLex (k.org, k.id)) fun a b h => by
    cases a
    cases b
    simpa using h

structure IdempotencyKey where
  org : UUID
  key : String
  deriving DecidableEq

instance : LinearOrder IdempotencyKey :=
  LinearOrder.lift' (fun k => toLex (k.org, k.key)) fun a b h => by
    cases a
    cases b
    simpa using h

/-- The text `value` lies in the range of keys that start with the packed text `start`: packing writes
a zero byte after a text and escapes the ones inside it, so that the range also holds every text that
goes on with a zero character. -/
def inTextRange (start value : String) : Bool :=
  value == start || (start.toList ++ ['\x00']).isPrefixOf value.toList

/-! ### Key families -/

/-- The relationships: the stored records by source and the keys by target. -/
structure Edges where
  forward : Table RelKey Relationship
  reverse : Table RelKey Unit
  deriving DecidableEq

/-- The references: the node that holds each reference, and the references that each node owns. -/
structure Refs where
  forward : Table RefKey UUID
  owned : Table OwnedKey String
  deriving DecidableEq

structure StrictActivation where
  active : Bool
  scanId : UUID
  recordsValidated : ℕ
  deriving DecidableEq

structure Db where
  nodes : Table NodeKey Node
  resolves : Table UUID NodeResolve
  byProperty : Table PropKey Unit
  refs : Refs
  edges : Edges
  idempotency : Table IdempotencyKey IdempotencyRecord
  jobs : Table UUID SubtreeDeleteJob
  nodeTypes : Table OrgKey NodeType
  nodeTypesByKey : Table TypeIndexKey Unit
  propertyDefs : Table OrgKey PropertyDef
  /-- The metadata epoch of each organization. -/
  epochs : Table UUID ℕ
  /-- The epoch of each write fence bucket. -/
  buckets : Table ℕ ℕ
  activation : Option StrictActivation

def Db.empty : Db where
  nodes := .empty
  resolves := .empty
  byProperty := .empty
  refs := ⟨.empty, .empty⟩
  edges := ⟨.empty, .empty⟩
  idempotency := .empty
  jobs := .empty
  nodeTypes := .empty
  nodeTypesByKey := .empty
  propertyDefs := .empty
  epochs := .empty
  buckets := .empty
  activation := none

/-! ### Attempts -/

/-- The error that a refusal wraps. -/
inductive Sentinel
  | conflict
  | invalidArgument
  | failedPrecondition
  | schemaRead
  | noHierarchyParent
  | reservedParentRelation
  | strictEvidenceChanged
  | malformed
  deriving DecidableEq

structure Refusal where
  sentinel : Sentinel
  reason : String
  deriving DecidableEq

/-- What an audit change is about. -/
inductive Target
  | node (nodeType : String) (id : UUID)
  | relationship (sourceId : UUID) (relationType : String) (targetId : UUID)
  deriving DecidableEq

/-- A recorded value. -/
inductive Record
  | node (value : Node)
  | relationship (value : Relationship)
  | references (keys : Table String String)
  | nodeType (value : NodeType)
  | propertyDef (value : PropertyDef)
  deriving DecidableEq

structure Change where
  target : Target
  before : Option Record
  after : Option Record
  deriving DecidableEq

/-- One attempt: the database with the writes so far, and the recorded changes. -/
structure Attempt where
  db : Db
  changes : List Change

/-- A part of an attempt. -/
abbrev Step (α : Type) := Tx Refusal Attempt α

/-- Reads the database. -/
def readDb {α : Type} (f : Db → Except Refusal α) : Step α := Tx.read fun s => f s.db

/-- Writes the database. -/
def writeDb (f : Db → Db) : Step Unit := Tx.write fun s => { s with db := f s.db }

/-- Forgets the changes of an earlier attempt. -/
def startAttempt : Step Unit := Tx.write fun s => { s with changes := [] }

/-- What the validation of a change asks of its target. -/
def Target.valid : Target → Prop
  | node nodeType id => id ≠ UUID.nil ∧ nodeType ≠ ""
  | relationship sourceId relationType targetId =>
    sourceId ≠ UUID.nil ∧ targetId ≠ UUID.nil ∧ relationType ≠ ""

instance : DecidablePred Target.valid := fun target => by
  cases target <;> unfold Target.valid <;> infer_instance

def nodeTarget (current : Node) : Target := .node current.nodeType current.id

/-- The change of a record, if it changed. -/
def changeOf (target : Target) (before after : Option Record) : List Change :=
  if before = after then [] else [⟨target, before, after⟩]

theorem length_changeOf (target : Target) (before after : Option Record) :
    (changeOf target before after).length ≤ 1 := by
  rw [changeOf]
  split_ifs <;> simp

/-- Records a change when the values differ. -/
def record (target : Target) (before after : Option Record) : Step Unit := do
  Tx.require (before = after ∨ target.valid) ⟨.malformed, "the change target is invalid"⟩
  Tx.write fun s => { s with changes := s.changes ++ changeOf target before after }

/-- Hands the recorded changes to the outbox. -/
def append (orgId : UUID) : Step Unit := Tx.read fun s =>
  if s.changes = [] ∨ orgId ≠ UUID.nil then .ok ()
  else .error ⟨.malformed, "format 2 event requires an org ID, an operation ID, and a start time"⟩

/-! ### The write fence -/

def writeFenceBuckets : ℕ := 64

/-- The bucket of a node: its FNV-1a hash. -/
def writeFenceBucket (orgId nodeId : UUID) : ℕ :=
  ((orgId.bytes ++ nodeId.bytes).foldl (fun hash b => (hash ^^^ b.val) * 16777619 % 2 ^ 32)
    2166136261) % writeFenceBuckets

def Db.strict (db : Db) : Bool := (db.activation.map StrictActivation.active).getD false

/-- Counts a write of a node. -/
def Db.fence (db : Db) (orgId nodeId : UUID) : Db :=
  let bucket := writeFenceBucket orgId nodeId
  { db with buckets := db.buckets.set bucket ((db.buckets.get bucket).getD 0 + 1) }

/-- Counts a write of a node and reports whether strict validation is active. -/
def fenceAttempt (orgId nodeId : UUID) : Step Bool := fun s =>
  .ok s.db.strict { s with db := s.db.fence orgId nodeId }

/-! ### What a part that succeeded did -/

variable {α : Type} {s s' : Attempt}

theorem readDb_ok {f : Db → Except Refusal α} {a : α} :
    readDb f s = .ok a s' ↔ f s.db = .ok a ∧ s' = s := Tx.read_ok

theorem writeDb_ok {f : Db → Db} {u : Unit} :
    writeDb f s = .ok u s' ↔ s' = { s with db := f s.db } := Tx.write_ok

theorem startAttempt_ok {u : Unit} : startAttempt s = .ok u s' ↔ s' = { s with changes := [] } :=
  Tx.write_ok

theorem record_ok {target : Target} {before after : Option Record} {u : Unit} :
    record target before after s = .ok u s' ↔ (before = after ∨ target.valid) ∧
      s' = { s with changes := s.changes ++ changeOf target before after } := by
  constructor
  · intro h
    obtain ⟨_, t, hreq, hwrite⟩ := Tx.bind_ok.mp h
    obtain ⟨hvalid, rfl⟩ := Tx.require_ok.mp hreq
    exact ⟨hvalid, Tx.write_ok.mp hwrite⟩
  · rintro ⟨hvalid, rfl⟩
    exact Tx.bind_ok.mpr ⟨(), s, Tx.require_ok.mpr ⟨hvalid, rfl⟩, Tx.write_ok.mpr rfl⟩

/-! Symbolic execution: what a transaction did after each of its first parts. -/

section Bind

variable {β : Type} {f : α → Step β} {b : β}

theorem readDb_bind {g : Db → Except Refusal α} :
    (readDb g >>= f) s = .ok b s' ↔ ∃ a, g s.db = .ok a ∧ f a s = .ok b s' := by
  simp [Tx.bind_ok, readDb_ok, and_assoc]

theorem getDb_bind {g : Db → α} :
    (readDb (fun db => .ok (g db)) >>= f) s = .ok b s' ↔ f (g s.db) s = .ok b s' := Iff.rfl

variable {f : Unit → Step β}

theorem writeDb_bind {g : Db → Db} :
    (writeDb g >>= f) s = .ok b s' ↔ f () { s with db := g s.db } = .ok b s' := Iff.rfl

theorem startAttempt_bind :
    (startAttempt >>= f) s = .ok b s' ↔ f () { s with changes := [] } = .ok b s' := Iff.rfl

theorem record_bind {target : Target} {before after : Option Record} :
    (record target before after >>= f) s = .ok b s' ↔ (before = after ∨ target.valid) ∧
      f () { s with changes := s.changes ++ changeOf target before after } = .ok b s' := by
  simp [Tx.bind_ok, record_ok, and_assoc, Unique.exists_iff]

theorem fenceAttempt_bind {orgId nodeId : UUID} {f : Bool → Step β} :
    (fenceAttempt orgId nodeId >>= f) s = .ok b s' ↔
      f s.db.strict { s with db := s.db.fence orgId nodeId } = .ok b s' := Iff.rfl

end Bind

theorem append_ok {orgId : UUID} {u : Unit} :
    append orgId s = .ok u s' ↔ (s.changes = [] ∨ orgId ≠ UUID.nil) ∧ s' = s := by
  rw [append, Tx.read_ok]
  refine and_congr_left fun _ => ?_
  by_cases h : s.changes = [] ∨ orgId ≠ UUID.nil
  · rw [if_pos h]
    exact iff_of_true rfl h
  · rw [if_neg h]
    exact iff_of_false (by simp) h

end Tack.Nodes

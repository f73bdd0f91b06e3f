import Tack.Audit.ChainAppend
import Tack.Audit.ReadManifest
import Tack.Lib.MerkleTree

/-!
# Notarized chain heads

The notarizer signs one root for the chain heads of an organization and stores it beside a manifest that
lists them.  A leaf of the tree under the root is the hash of a shard, its last number and its last hash
after a zero byte, and an inner node is the hash of two nodes after a one.

## Main definitions

* `Audit.ChainHead`, `Audit.merkleRoot`, `Audit.merkleAndManifest`.
* `Audit.notarizedInputs` — everything that is hashed for a root.

## Main results

* `Audit.notarized_root_binds_heads` — equal roots are roots of the same heads, in whatever order they are
  listed.
-/

namespace Tack.Audit

open Lib Lib.Json

structure ChainHead where
  shard : Int16
  seq : Int64
  hash : Bytes
  deriving DecidableEq

namespace ChainHead

/-- What is hashed for a leaf. -/
def leafInput (head : ChainHead) : Bytes :=
  0 :: (beBytes 2 head.shard.toUInt16.toNat ++ beBytes 8 head.seq.toUInt64.toNat ++ head.hash)

def manifestRow (head : ChainHead) : Json :=
  .obj [("last_hash", .str (String.ofList (hexEncode head.hash))),
    ("last_seq", .num (.ofInt head.seq.toInt)), ("shard", .num (.ofInt head.shard.toInt))]

def shardLE (a b : ChainHead) : Bool := a.shard ≤ b.shard

end ChainHead

/-- What is hashed for two nodes. -/
def innerInput (left right : Bytes) : Bytes := 1 :: (left ++ right)

def merkleHash (sha : Sha256) : TreeHash ChainHead Bytes Bytes := ⟨ChainHead.leafInput, innerInput, sha.sum⟩

def merkleRoot (sha : Sha256) (leaves : List Bytes) : Bytes :=
  if leaves.length = 0 then sha.sum []
  else (collapse (merkleHash sha).combine leaves.length leaves).headD []

/-- The heads are ordered by shard; among equal shards the order of `sort.Slice` is not determined. -/
def sortedHeads (list : List ChainHead) : List ChainHead := list.mergeSort ChainHead.shardLE

/-- The root over the heads and the manifest that lists them. -/
def merkleAndManifest (sha : Sha256) (list : List ChainHead) : Bytes × Bytes :=
  (merkleRoot sha ((sortedHeads list).map fun head => sha.sum head.leafInput),
    marshal (.arr ((sortedHeads list).map ChainHead.manifestRow)))

/-- Everything that is hashed for the root over the heads. -/
def notarizedInputs (sha : Sha256) (list : List ChainHead) : List Bytes :=
  (merkleHash sha).hashed (sortedHeads list)

/-! ### Inputs are told apart -/

theorem ChainHead.leafInput_injective : Function.Injective ChainHead.leafInput := by
  rintro ⟨shard, seq, hash⟩ ⟨shard', seq', hash'⟩ h
  simp only [leafInput, List.append_assoc, List.cons.injEq, true_and] at h
  obtain ⟨hshard, h⟩ := List.append_inj h (by rw [length_beBytes, length_beBytes])
  obtain ⟨hseq, rfl⟩ := List.append_inj h (by rw [length_beBytes, length_beBytes])
  have hshard := congrArg beValue hshard
  have hseq := congrArg beValue hseq
  rw [beValue_beBytes shard.toUInt16.toNat_lt, beValue_beBytes shard'.toUInt16.toNat_lt] at hshard
  rw [beValue_beBytes seq.toUInt64.toNat_lt, beValue_beBytes seq'.toUInt64.toNat_lt] at hseq
  rw [Int16.toBitVec_inj.mp (congrArg UInt16.toBitVec (UInt16.toNat_inj.mp hshard)),
    Int64.toBitVec_inj.mp (congrArg UInt64.toBitVec (UInt64.toNat_inj.mp hseq))]

theorem merkleHash_encodes (sha : Sha256) : (merkleHash sha).Encodes fun digest => digest.length = 32 where
  leaf := ChainHead.leafInput_injective
  node ha _ ha' _ h := List.append_inj (List.tail_eq_of_cons_eq h) (ha.trans ha'.symm)
  separate _ _ _ h := absurd (List.head_eq_of_cons_eq h) (by decide)
  sum := sha.length_sum

/-! ### Order -/

theorem sortedHeads_perm (list : List ChainHead) : (sortedHeads list).Perm list := List.mergeSort_perm _ _

theorem pairwise_sortedHeads (list : List ChainHead) :
    (sortedHeads list).Pairwise fun a b => a.shard ≤ b.shard := by
  have htrans : ∀ a b c : ChainHead, a.shardLE b = true → b.shardLE c = true → a.shardLE c = true :=
    fun _ _ _ hab hbc => decide_eq_true (Int16.le_trans (of_decide_eq_true hab) (of_decide_eq_true hbc))
  have htotal : ∀ a b : ChainHead, (a.shardLE b || b.shardLE a) = true := fun a b => by
    rw [ChainHead.shardLE, ChainHead.shardLE, Bool.or_eq_true, decide_eq_true_eq, decide_eq_true_eq]
    exact Int16.le_total a.shard b.shard
  exact (List.pairwise_mergeSort htrans htotal list).imp fun h => of_decide_eq_true h

/-- Heads with distinct shards have one order. -/
theorem sortedHeads_eq_of_perm {list list' : List ChainHead} (hshards : (list.map (·.shard)).Nodup)
    (h : list.Perm list') : sortedHeads list = sortedHeads list' := by
  refine List.Perm.eq_of_pairwise ?_ (pairwise_sortedHeads list) (pairwise_sortedHeads list')
    ((sortedHeads_perm list).trans (h.trans (sortedHeads_perm list').symm))
  intro a b ha hb hab hba
  have ha : a ∈ list := (sortedHeads_perm list).mem_iff.mp ha
  have hb : b ∈ list := h.mem_iff.mpr ((sortedHeads_perm list').mem_iff.mp hb)
  exact List.inj_on_of_nodup_map hshards ha hb (Int16.le_antisymm hab hba)

/-! ### The root -/

theorem collapse_of_merkleRoot {sha : Sha256} {list : List ChainHead} (hne : list ≠ []) :
    collapse (merkleHash sha).combine (sortedHeads list).length ((merkleHash sha).firstLevel (sortedHeads list)) =
      [(merkleAndManifest sha list).1] := by
  have hlength := (sortedHeads_perm list).length_eq
  have hpos := List.length_pos_iff.mpr hne
  have hfirst : (merkleHash sha).firstLevel (sortedHeads list) =
      (sortedHeads list).map fun head => sha.sum head.leafInput := rfl
  have hlevel : ((merkleHash sha).firstLevel (sortedHeads list)).length = (sortedHeads list).length :=
    List.length_map _
  obtain ⟨root, hroot⟩ := exists_collapse_eq (merkleHash sha).combine (by omega) hlevel.le
  rw [merkleAndManifest, merkleRoot, List.length_map, if_neg (by omega), ← hfirst, hroot]
  rfl

/-- Equal roots are roots of the same heads. -/
theorem perm_of_root_eq {sha : Sha256} {list list' : List ChainHead} (hshards : (list.map (·.shard)).Nodup)
    (hshards' : (list'.map (·.shard)).Nodup) (hne : list ≠ []) (hne' : list' ≠ [])
    (hfree : ∀ x ∈ notarizedInputs sha list, ∀ y ∈ notarizedInputs sha list', sha.sum x = sha.sum y → x = y)
    (hroot : (merkleAndManifest sha list).1 = (merkleAndManifest sha list').1) : list.Perm list' := by
  have hsorted : ∀ {l : List ChainHead}, l ≠ [] → sortedHeads l ≠ [] := fun hl hnil =>
    hl (List.perm_nil.mp (hnil ▸ (sortedHeads_perm _).symm))
  have hmem := TreeHash.mem_iff_of_collapse_eq (merkleHash_encodes sha) (hsorted hne) (hsorted hne') hfree
    (collapse_of_merkleRoot hne) (hroot ▸ collapse_of_merkleRoot hne')
  refine (List.perm_ext_iff_of_nodup hshards.of_map hshards'.of_map).mpr fun head => ?_
  rw [← (sortedHeads_perm list).mem_iff, hmem, (sortedHeads_perm list').mem_iff]

/-- The root and the manifest are the same in every order of the heads, and **equal roots are roots of the
same heads**, unless two inputs that were hashed for them collide. -/
theorem notarized_root_binds_heads (sha : Sha256) (list list' : List ChainHead)
    (hshards : (list.map (·.shard)).Nodup) (hshards' : (list'.map (·.shard)).Nodup) :
    (list.Perm list' → merkleAndManifest sha list = merkleAndManifest sha list') ∧
      (list ≠ [] → list' ≠ [] →
        (∀ x ∈ notarizedInputs sha list, ∀ y ∈ notarizedInputs sha list', sha.sum x = sha.sum y → x = y) →
        (merkleAndManifest sha list).1 = (merkleAndManifest sha list').1 → list.Perm list') := by
  constructor
  · intro hperm
    rw [merkleAndManifest, merkleAndManifest, sortedHeads_eq_of_perm hshards hperm]
  · exact perm_of_root_eq hshards hshards'

/-- Three heads, in the order of their shards. -/
def exampleHeads : List ChainHead := [⟨-3, 7, [1, 2]⟩, ⟨0, 2, [4]⟩, ⟨5, 1, [9]⟩]

theorem notarized_root_binds_heads_reversed :
    (merkleAndManifest sampleSha exampleHeads).1 = (merkleAndManifest sampleSha exampleHeads.reverse).1 ∧
      exampleHeads.Perm exampleHeads.reverse := by
  have hshards : (exampleHeads.map (·.shard)).Nodup := by decide
  have hsorted : sortedHeads exampleHeads = exampleHeads := List.mergeSort_of_pairwise (by decide)
  have hsorted' : sortedHeads exampleHeads.reverse = exampleHeads :=
    (sortedHeads_eq_of_perm hshards exampleHeads.reverse_perm.symm).symm.trans hsorted
  have hroot : (merkleAndManifest sampleSha exampleHeads).1 =
      (merkleAndManifest sampleSha exampleHeads.reverse).1 := by
    rw [merkleAndManifest, merkleAndManifest, hsorted, hsorted']
  have hfree : ∀ x ∈ notarizedInputs sampleSha exampleHeads,
      ∀ y ∈ notarizedInputs sampleSha exampleHeads.reverse,
        sampleSha.sum x = sampleSha.sum y → x = y := by
    rw [notarizedInputs, notarizedInputs, hsorted, hsorted']
    decide +kernel
  exact ⟨hroot, (notarized_root_binds_heads sampleSha exampleHeads exampleHeads.reverse hshards
    (by decide)).2 (by decide) (by decide) hfree hroot⟩

end Tack.Audit

import Mathlib
import Tack.Lib.Json
import Tack.Search.ContentPages

/-!
# The digest of a projection

What a page shows depends on the property definitions and node types of its organization.  Each of them
contributes a hash of the fields that the renderer reads, and the digest of the projection is the sum of
the contributions modulo 2^256, so that one write replaces one summand.

## Main definitions

* `Search.DefinitionRecord`, `Search.TypeRecord`, `Search.Stored` — the records, and what a store holds.
* `Search.definitionContribution`, `Search.typeContribution` — their hashes.
* `Search.sumContributions`, `Search.replaceContribution` — a digest with one summand replaced.

## Main results

* `Search.replaceContribution_digestOf` — the digest of a sum with one summand replaced.
* `Search.digestOf_eq_iff` — equal digests are equal sums modulo 2^256.
-/

namespace Tack.Search

open Lib

/-! ### Records -/

instance : DecidableEq Json := fun a b => decidable_of_iff (a.render = b.render) Json.render_injective.eq_iff

/-- A property definition as a writer holds it.  A slice that is `none` is nil, which `json.Marshal`
tells from an empty one. -/
structure DefinitionRecord where
  id : UUID
  orgId : UUID
  name : String
  type : String
  appliesToFeatures : Option (List String)
  indexed : Bool
  /-- The encoded options. -/
  options : Option (List Json)
  required : Bool
  defaultValue : Option Json
  defaultReference : Option Json
  referenceTargetTypeKey : String
  /-- The encoded declaration. -/
  search : Option Json
  deriving DecidableEq

structure TypeRecord where
  id : UUID
  orgId : UUID
  typeKey : String
  features : Option (List String)
  canContain : Option (List String)
  canLiveUnder : Option (List String)
  /-- The other fields as encoded members. -/
  rest : List (String × Json)
  deriving DecidableEq

/-- A field with `omitempty` is absent when its slice is empty, and is read back as nil. -/
def omitEmpty {α : Type*} : Option (List α) → Option (List α)
  | some [] => none
  | slice => slice

/-- What the bytes of `json.Marshal` decode to. -/
def DefinitionRecord.decoded (d : DefinitionRecord) : DefinitionRecord :=
  { d with appliesToFeatures := omitEmpty d.appliesToFeatures, options := omitEmpty d.options }

def TypeRecord.decoded (t : TypeRecord) : TypeRecord :=
  { t with
    features := omitEmpty t.features
    canContain := omitEmpty t.canContain
    canLiveUnder := omitEmpty t.canLiveUnder }

/-- The bytes of a stored record: what they decode to, and how they differ from the bytes that
`json.Marshal` writes for it.  Records of earlier releases may have other fields or spellings. -/
structure Stored (α : Type*) where
  record : α
  spelling : String
  deriving DecidableEq

def DefinitionRecord.marshal (d : DefinitionRecord) : Stored DefinitionRecord := ⟨d.decoded, ""⟩

def TypeRecord.marshal (t : TypeRecord) : Stored TypeRecord := ⟨t.decoded, ""⟩

/-! ### Contributions -/

/-- The encoding of a slice without `omitempty`. -/
def sliceJson : Option (List Json) → Json
  | none => .null
  | some items => .arr items

def stringsJson (slice : Option (List String)) : Json := sliceJson (slice.map (List.map Json.str))

def sortedCopy (values : Option (List String)) : Option (List String) :=
  values.map fun items => items.mergeSort fun a b => decide (a ≤ b)

def definitionContributionInput (d : DefinitionRecord) : Json :=
  .obj [("kind", .str "definition"), ("id", .str d.id.text), ("name", .str d.name), ("type", .str d.type),
    ("options", sliceJson d.options), ("applies_to_features", stringsJson (sortedCopy d.appliesToFeatures)),
    ("reference_target_type_key", .str d.referenceTargetTypeKey), ("search", d.search.getD .null)]

def typeContributionInput (t : TypeRecord) : Json :=
  .obj [("kind", .str "type"), ("id", .str t.id.text), ("type_key", .str t.typeKey),
    ("features", stringsJson (sortedCopy t.features))]

/-- The legacy inputs of a definition. -/
def projectionDeclaration (d : DefinitionRecord) : Json :=
  .obj [("id", .str d.id.text), ("name", .str d.name), ("search", d.search.getD .null)]

section Sums

variable (sha : List Byte → BitVec 256)

def hashContribution (input : Json) : BitVec 256 := sha (utf8 input.render)

def definitionContribution (d : Option DefinitionRecord) : Option (BitVec 256) :=
  d.map fun d => hashContribution sha (definitionContributionInput d)

def typeContribution (t : Option TypeRecord) : Option (BitVec 256) :=
  t.map fun t => hashContribution sha (typeContributionInput t)

def declarationHash (d : Option DefinitionRecord) : Option (BitVec 256) :=
  d.map fun d => hashContribution sha (projectionDeclaration d)

/-- The summand of a stored definition. -/
def definitionWeight (stored : Stored DefinitionRecord) : ℤ :=
  (hashContribution sha (definitionContributionInput stored.record)).toNat

def typeWeight (stored : Stored TypeRecord) : ℤ :=
  (hashContribution sha (typeContributionInput stored.record)).toNat

end Sums

/-! ### Digests -/

def projectionDigestBytes : ℕ := 32

def projectionModulus : ℤ := 2 ^ 256

/-- A contribution as a number; an absent one is zero. -/
def contributionValue (contribution : Option (BitVec 256)) : ℤ := contribution.elim 0 fun b => b.toNat

def sumContributions (stored : List Byte) (previous next : Option (BitVec 256)) : List Byte :=
  beBytes projectionDigestBytes
    ((beValue stored - contributionValue previous + contributionValue next) % projectionModulus).toNat

def replaceContribution (digest : String) (previous next : Option (BitVec 256)) : Option String :=
  (hexDecode digest.toList).map fun stored => String.ofList (hexEncode (sumContributions stored previous next))

/-- The digest that stands for a sum. -/
def digestOf (sum : ℤ) : String :=
  String.ofList (hexEncode (beBytes projectionDigestBytes (sum % projectionModulus).toNat))

theorem emod_projectionModulus_toNat_lt (n : ℤ) : (n % projectionModulus).toNat < 256 ^ projectionDigestBytes := by
  rw [Int.toNat_lt (Int.emod_nonneg n (by decide))]
  have hpow : ((256 ^ projectionDigestBytes : ℕ) : ℤ) = projectionModulus := by decide
  rw [hpow]
  exact Int.emod_lt_of_pos n (by decide)

theorem beValue_digest (n : ℤ) :
    (beValue (beBytes projectionDigestBytes (n % projectionModulus).toNat) : ℤ) = n % projectionModulus := by
  rw [beValue_beBytes (emod_projectionModulus_toNat_lt n)]
  exact Int.toNat_of_nonneg (Int.emod_nonneg n (by decide))

/-- The sum of nothing but one contribution. -/
theorem hexEncode_sumContributions_nil (next : Option (BitVec 256)) :
    String.ofList (hexEncode (sumContributions [] none next)) = digestOf (contributionValue next) := by
  simp [sumContributions, digestOf, contributionValue, beValue]

/-- **One summand is replaced.** -/
theorem replaceContribution_digestOf (sum : ℤ) (previous next : Option (BitVec 256)) :
    replaceContribution (digestOf sum) previous next =
      some (digestOf (sum - contributionValue previous + contributionValue next)) := by
  have hmod : (sum % projectionModulus - contributionValue previous + contributionValue next) % projectionModulus
      = (sum - contributionValue previous + contributionValue next) % projectionModulus := by
    rw [sub_add, sub_add, Int.sub_emod, Int.emod_emod, ← Int.sub_emod]
  simp only [replaceContribution, digestOf, String.toList_ofList, hexDecode_hexEncode, Option.map_some,
    sumContributions, beValue_digest, hmod]

/-- **Equal digests are equal sums.** -/
theorem digestOf_eq_iff {m n : ℤ} : digestOf m = digestOf n ↔ m ≡ n [ZMOD projectionModulus] := by
  constructor
  · intro h
    have hbytes := hexEncode_injective (String.ofList_injective h)
    rw [Int.ModEq, ← beValue_digest m, ← beValue_digest n, hbytes]
  · intro h
    rw [digestOf, digestOf, h.eq]

/-! ### The identity -/

/-- Equal identities hash equal inputs, up to a collision. -/
theorem hash_eq_of_projectionIdentity_eq {sha : List Byte → BitVec 256} {state state' : ProjectionState}
    (h : projectionIdentity sha state = projectionIdentity sha state') :
    hashContribution sha (projectionIdentityInput state) = hashContribution sha (projectionIdentityInput state') := by
  have hbytes := hexEncode_injective (String.ofList_injective h)
  have hvalue := congrArg beValue hbytes
  rw [beValue_beBytes (BitVec.isLt _), beValue_beBytes (BitVec.isLt _)] at hvalue
  exact BitVec.eq_of_toNat_eq hvalue

theorem digest_eq_of_input_eq {state state' : ProjectionState}
    (h : projectionIdentityInput state = projectionIdentityInput state') : state.digest = state'.digest := by
  simp only [projectionIdentityInput, Json.obj.injEq, List.cons.injEq, Prod.mk.injEq, Json.str.injEq] at h
  exact h.2.2.2.1.2

end Tack.Search

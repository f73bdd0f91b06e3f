import Tack.Audit.RowHash
import Tack.Lib.JsonValue

/-!
# What canonical JSON tells apart

`canonicalJSON` decodes a document and writes it with sorted keys.  Numbers are decoded into float64, so
the bytes decide equality of JSON values with numbers read that way: members as a map, the last of
several members of one name, arrays item by item, strings as code points, and numbers as
`strconv.ParseFloat` reads them.

## Main definitions

* `Audit.document` — a JSON text as `encoding/json` decodes it.
* `Audit.canonicalDocument` — its canonical bytes.

## Main results

* `Audit.canonicalDocument_decides` — the canonical bytes decide equality of values over float64.
* `Audit.canonicalDocument_rounds` — they do not decide equality of exact values.
-/

namespace Tack.Audit

open Lib Lib.Json

/-- The nesting that `encoding/json` allows. -/
def maxNestingDepth : ℕ := 10000

/-- The document of a text; unpaired surrogates and bytes that are not UTF-8 are replaced in strings. -/
def document (raw : Bytes) : Option Json :=
  (Json.parse (utf8Decode raw)).filter fun v => v.depth ≤ maxNestingDepth

def canonicalDocument (raw : Bytes) : Option Bytes := (document raw).bind canonicalJSON

theorem canonicalDocument_of_document {raw : Bytes} {v : Json} (h : document raw = some v) :
    canonicalDocument raw = canonicalJSON v := by
  rw [canonicalDocument, h, Option.bind_some]

theorem marshal_injective : Function.Injective marshal := fun _ _ h =>
  render_injective (utf8_injective h)

/-- **Canonical bytes decide equality of values over float64.**  They exist for the documents whose numbers
`strconv.ParseFloat` accepts, and two such documents have the same bytes exactly when they denote the same
value with every number as it is read there. -/
theorem canonicalDocument_decides (raw raw' : Bytes) :
    ((canonicalDocument raw).isSome ↔ ∃ v, document raw = some v ∧ v.inRange) ∧
    ∀ v w, document raw = some v → document raw' = some w → v.inRange → w.inRange →
      (canonicalDocument raw = canonicalDocument raw' ↔
        v.denote NumLit.toFloat = w.denote NumLit.toFloat) := by
  constructor
  · rw [canonicalDocument]
    cases document raw with
    | none => simp
    | some v => simp [canonicalJSON, canonical_isSome]
  · intro v w hv hw hrange hrange'
    rw [← canonical_isSome] at hrange hrange'
    obtain ⟨c, hc⟩ := Option.isSome_iff_exists.mp hrange
    obtain ⟨d, hd⟩ := Option.isSome_iff_exists.mp hrange'
    rw [canonicalDocument_of_document hv, canonicalDocument_of_document hw, canonicalJSON, canonicalJSON,
      hc, hd, Option.map_some, Option.map_some, Option.some.injEq, marshal_injective.eq_iff,
      canonical_eq_iff hc hd]

/-! ### Exact values -/

theorem document_marshal {v : Json} (h : v.depth ≤ maxNestingDepth) : document (marshal v) = some v := by
  rw [document, marshal, utf8Decode_utf8, parse_render]
  simp [h]

theorem value_ofInt (n : ℤ) : (NumLit.ofInt n).value = n := by
  have hhead : (Nat.toDigits 10 n.natAbs).head? ≠ some '-' := by
    intro h
    obtain ⟨cs, hcs⟩ := List.head?_eq_some_iff.mp h
    exact toDigits_ne_minus_cons _ _ hcs
  rw [NumLit.value, NumLit.ofInt]
  by_cases hn : n < 0
  · simp only [hn, if_true, List.head?_cons, dropMinus, decimalValue_toDigits]
    rw [← Int.cast_natCast, ← Int.cast_neg]
    congr 1
    omega
  · simp only [hn, if_false, dropMinus.eq_2 _ (toDigits_ne_minus_cons _), decimalValue_toDigits, hhead]
    rw [← Int.cast_natCast]
    congr 1
    omega

theorem document_number (n : NumLit) : document (utf8 n.text) = some (num n) :=
  document_marshal (v := num n) (Nat.zero_le _)

/-- Numbers have the same bytes when they read as the same finite number. -/
theorem canonicalDocument_number_eq_iff {n m : NumLit} {x y : Float64} (hn : n.toFloat = some x)
    (hm : m.toFloat = some y) : canonicalDocument (utf8 n.text) = canonicalDocument (utf8 m.text) ↔
      x = y := by
  have hcanonical : ∀ {n : NumLit} {x : Float64}, n.toFloat = some x →
      canonicalDocument (utf8 n.text) = some (marshal (num x.toNumLit)) := by
    intro n x hx
    rw [canonicalDocument_of_document (document_number n), canonicalJSON, canonical, hx]
    rfl
  rw [hcanonical hn, hcanonical hm, Option.some.injEq, marshal_injective.eq_iff, num.injEq]
  refine ⟨fun h => ?_, fun h => by rw [h]⟩
  have hread := congrArg NumLit.toFloat h
  rw [Float64.toFloat_toNumLit, Float64.toFloat_toNumLit] at hread
  exact Option.some.inj hread

/-- **Exact values are not decided**: `9007199254740993` has the bytes of `9007199254740992`. -/
theorem canonicalDocument_rounds :
    ∃ v w, document (utf8 "9007199254740993".toList) = some v ∧
      document (utf8 "9007199254740992".toList) = some w ∧
      v.denote NumLit.value ≠ w.denote NumLit.value ∧
      canonicalDocument (utf8 "9007199254740993".toList) =
        canonicalDocument (utf8 "9007199254740992".toList) := by
  have hodd : "9007199254740993".toList = (NumLit.ofInt 9007199254740993).text := by decide
  have heven : "9007199254740992".toList = (NumLit.ofInt 9007199254740992).text := by decide
  rw [hodd, heven]
  obtain ⟨x, hx⟩ := exists_toFloat_ofInt (a := 9007199254740993) (by decide)
  obtain ⟨y, hy⟩ := exists_toFloat_ofInt (a := 9007199254740992) (by decide)
  refine ⟨_, _, document_number _, document_number _, ?_, ?_⟩
  · simp only [denote, ne_eq, JsonValue.num.injEq, value_ofInt]
    norm_num
  · rw [canonicalDocument_number_eq_iff hx hy]
    rw [toFloat_ofInt, Float64.ofValue_eq_some] at hx hy
    -- both lie within half a step of the same float64
    have hrank : nearestRank ((9007199254740993 : ℤ).natAbs : ℕ) =
        nearestRank ((9007199254740992 : ℤ).natAbs : ℕ) := by decide +kernel
    exact Float64.ext (hx.1.trans hy.1.symm) (hx.2.trans (hrank.trans hy.2.symm))

end Tack.Audit

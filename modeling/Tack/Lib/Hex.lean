import Tack.Lib.ByteOrder

/-!
# Hexadecimal texts

Bytes as pairs of hexadecimal digits.  Writing uses lowercase digits; reading accepts both cases.

## Main definitions

* `Lib.hexEncode`, `Lib.hexDecode`.

## Main results

* `Lib.hexDecode_hexEncode` — reading what was written gives the bytes back.
-/

namespace Tack.Lib

/-- The lowercase hexadecimal digit of `n < 16`. -/
def hexDigit (n : ℕ) : Char := "0123456789abcdef".toList.getD n '0'

/-- The value of a hexadecimal digit of either case. -/
def hexValue (c : Char) : Option ℕ :=
  if '0' ≤ c ∧ c ≤ '9' then some (c.toNat - '0'.toNat)
  else if 'a' ≤ c ∧ c ≤ 'f' then some (c.toNat - 'a'.toNat + 10)
  else if 'A' ≤ c ∧ c ≤ 'F' then some (c.toNat - 'A'.toNat + 10)
  else none

/-- Two lowercase digits for each byte. -/
def hexEncode (bytes : List Byte) : List Char :=
  bytes.flatMap fun b => [hexDigit (b.val / 16), hexDigit (b.val % 16)]

/-- The bytes that pairs of digits stand for, or `none` when the text is not such pairs. -/
def hexDecode : List Char → Option (List Byte)
  | [] => some []
  | c :: d :: rest => do
    let high ← hexValue c
    let low ← hexValue d
    let bytes ← hexDecode rest
    return Fin.ofNat 256 (16 * high + low) :: bytes
  | [_] => none

theorem hexValue_hexDigit : ∀ n < 16, hexValue (hexDigit n) = some n := by decide

@[simp] theorem length_hexEncode (bytes : List Byte) :
    (hexEncode bytes).length = 2 * bytes.length := by
  induction bytes with
  | nil => rfl
  | cons b bytes ih =>
    simp only [hexEncode, List.flatMap_cons, List.length_append, List.length_cons] at ih ⊢
    rw [ih]
    simp only [List.length_nil]
    omega

@[simp] theorem hexDecode_hexEncode (bytes : List Byte) :
    hexDecode (hexEncode bytes) = some bytes := by
  induction bytes with
  | nil => rfl
  | cons b bytes ih =>
    have hhigh := hexValue_hexDigit (b.val / 16) (by omega)
    have hlow := hexValue_hexDigit (b.val % 16) (by omega)
    have hb : Fin.ofNat 256 (16 * (b.val / 16) + b.val % 16) = b := by
      rw [Nat.div_add_mod]
      exact Fin.ofNat_val_eq_self b
    change hexDecode (hexDigit _ :: hexDigit _ :: hexEncode bytes) = _
    simp only [hexDecode, hhigh, hlow, ih, hb, Option.bind_eq_bind, Option.bind_some,
      Option.pure_def]

theorem mem_hexEncode {bytes : List Byte} {c : Char} (h : c ∈ hexEncode bytes) :
    ∃ n < 16, c = hexDigit n := by
  obtain ⟨b, -, hc⟩ := List.mem_flatMap.mp h
  have hb := b.isLt
  simp only [List.mem_cons, List.not_mem_nil, or_false] at hc
  rcases hc with rfl | rfl
  · exact ⟨_, by omega, rfl⟩
  · exact ⟨_, by omega, rfl⟩

theorem hexEncode_injective : Function.Injective hexEncode := fun a b h =>
  Option.some_injective _ (by rw [← hexDecode_hexEncode a, ← hexDecode_hexEncode b, h])

end Tack.Lib

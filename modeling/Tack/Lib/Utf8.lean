import Tack.Lib.ByteOrder

/-!
# Texts as bytes

UTF-8 over lists of bytes.  The decoder replaces a byte that starts no character by U+FFFD and goes
on after it.

## Main definitions

* `Lib.utf8`, `Lib.utf8Decode`.

## Main results

* `Lib.utf8Decode_utf8` — decoding an encoded text gives it back.
-/

namespace Tack.Lib

/-- The bytes of a character. -/
def utf8Char (c : Char) : List Byte := (String.utf8EncodeChar c).map UInt8.toFin

/-- The bytes of a text. -/
def utf8 (cs : List Char) : List Byte := cs.flatMap utf8Char

/-- The character that the bytes start with. -/
def utf8Head (bytes : List Byte) : Option Char :=
  (bytes.map UInt8.ofFin).toByteArray.utf8DecodeChar? 0

/-- Decodes at most `n` characters. -/
def utf8DecodeUpTo : ℕ → List Byte → List Char
  | 0, _ => []
  | _ + 1, [] => []
  | n + 1, b :: bs =>
    match utf8Head (b :: bs) with
    | some c => c :: utf8DecodeUpTo n ((b :: bs).drop c.utf8Size)
    | none => '\uFFFD' :: utf8DecodeUpTo n bs

/-- The text of the bytes. -/
def utf8Decode (bytes : List Byte) : List Char := utf8DecodeUpTo bytes.length bytes

@[simp] theorem length_utf8Char (c : Char) : (utf8Char c).length = c.utf8Size := by
  rw [utf8Char, List.length_map, String.length_utf8EncodeChar]

theorem utf8_cons (c : Char) (cs : List Char) : utf8 (c :: cs) = utf8Char c ++ utf8 cs := rfl

theorem utf8Head_append (c : Char) (rest : List Byte) :
    utf8Head (utf8Char c ++ rest) = some c := by
  have hmap : ((utf8Char c ++ rest).map UInt8.ofFin) =
      String.utf8EncodeChar c ++ rest.map UInt8.ofFin := by
    rw [List.map_append, utf8Char, List.map_map]
    congr 1
    exact List.map_id'' (fun b => UInt8.ofFin_toFin b) _
  rw [utf8Head, hmap, List.toByteArray_append]
  exact ByteArray.utf8DecodeChar?_utf8EncodeChar_append

theorem utf8DecodeUpTo_utf8 {n : ℕ} {cs : List Char} (h : cs.length ≤ n) :
    utf8DecodeUpTo n (utf8 cs) = cs := by
  induction cs generalizing n with
  | nil => cases n <;> rfl
  | cons c cs ih =>
    obtain ⟨n, rfl⟩ : ∃ m, n = m + 1 := ⟨n - 1, by simp at h; omega⟩
    have hhead := utf8Head_append c (utf8 cs)
    have hdrop : (utf8Char c ++ utf8 cs).drop c.utf8Size = utf8 cs := by
      rw [← length_utf8Char, List.drop_left]
    rw [utf8_cons]
    cases hb : utf8Char c ++ utf8 cs with
    | nil =>
      have hsize := c.utf8Size_pos
      have hlen := congrArg List.length hb
      rw [List.length_append, length_utf8Char, List.length_nil] at hlen
      omega
    | cons b bs =>
      rw [hb] at hhead hdrop
      rw [utf8DecodeUpTo, hhead]
      simp only [hdrop]
      rw [ih (by simpa using h)]

theorem length_le_length_utf8 (cs : List Char) : cs.length ≤ (utf8 cs).length := by
  induction cs with
  | nil => simp
  | cons c cs ih =>
    have hsize := c.utf8Size_pos
    rw [utf8_cons, List.length_append, length_utf8Char, List.length_cons]
    omega

/-- **An encoded text is decoded back.** -/
theorem utf8Decode_utf8 (cs : List Char) : utf8Decode (utf8 cs) = cs :=
  utf8DecodeUpTo_utf8 (length_le_length_utf8 cs)

theorem utf8_injective : Function.Injective utf8 := fun a b h => by
  rw [← utf8Decode_utf8 a, ← utf8Decode_utf8 b, h]

theorem utf8_append (a b : List Char) : utf8 (a ++ b) = utf8 a ++ utf8 b := by
  simp [utf8]

/-- Only the character zero has a zero byte. -/
theorem zero_notMem_utf8Char {c : Char} (h : 0 < c.toNat) : (0 : Byte) ∉ utf8Char c := by
  have hbyte : ∀ n : ℕ, 0 < n → n < 256 → (UInt8.ofNat n).toFin ≠ 0 := by
    intro n hpos hlt hzero
    have hval := congrArg Fin.val hzero
    have hn : (UInt8.ofNat n).toFin.val = n := by
      change n % 256 = n
      omega
    rw [hn] at hval
    exact absurd hval (by simp; omega)
  have hv : 0 < c.val.toNat := h
  simp only [utf8Char, String.utf8EncodeChar, List.mem_map, not_exists, not_and]
  intro b hb
  split_ifs at hb
  all_goals
    simp only [List.mem_cons, List.not_mem_nil, or_false] at hb
  · rw [hb]
    exact hbyte _ hv (by omega)
  · rcases hb with rfl | rfl <;> exact hbyte _ (by omega) (by omega)
  · rcases hb with rfl | rfl | rfl <;> exact hbyte _ (by omega) (by omega)
  · rcases hb with rfl | rfl | rfl | rfl <;> exact hbyte _ (by omega) (by omega)

theorem zero_notMem_utf8 {cs : List Char} (h : ∀ c ∈ cs, 0 < c.toNat) : (0 : Byte) ∉ utf8 cs := by
  intro hzero
  obtain ⟨c, hc, hmem⟩ := List.mem_flatMap.mp hzero
  exact zero_notMem_utf8Char (h c hc) hmem

theorem length_utf8_le (cs : List Char) : (utf8 cs).length ≤ 4 * cs.length := by
  induction cs with
  | nil => exact le_rfl
  | cons c cs ih =>
    rw [utf8_cons, List.length_append, length_utf8Char, List.length_cons]
    have := c.utf8Size_le_four
    omega

end Tack.Lib

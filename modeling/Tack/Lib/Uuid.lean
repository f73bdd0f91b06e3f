import Tack.Lib.Hex
import Tack.Lib.Utf8

/-!
# UUIDs

A UUID is 128 bits.  Its text is its sixteen bytes in hexadecimal with four dashes; the reader also
accepts the bare digits, a leading `urn:uuid:` and one character around the text.

## Main definitions

* `Lib.UUID`, `Lib.UUID.text`, `Lib.UUID.parse`.

## Main results

* `Lib.UUID.parse_text` — reading the text of a UUID gives it back.
-/

namespace Tack.Lib

/-- A UUID as its 128 bits. -/
abbrev UUID := BitVec 128

instance uuid_lawfulBEq : LawfulBEq UUID := inferInstance

namespace UUID

/-- The nil UUID. -/
abbrev nil : UUID := 0

/-- The sixteen bytes. -/
def bytes (id : UUID) : List Byte := beBytes 16 id.toNat

/-- The UUID of sixteen bytes. -/
def ofBytes (bs : List Byte) : Option UUID :=
  if bs.length = 16 then some (BitVec.ofNat 128 (beValue bs)) else none

/-- Thirty-two digits with their dashes. -/
def dashed (h : List Char) : List Char :=
  h.take 8 ++ '-' :: ((h.drop 8).take 4 ++ '-' :: ((h.drop 12).take 4 ++ '-' ::
    ((h.drop 16).take 4 ++ '-' :: h.drop 20)))

/-- The digits between the dashes of a text of length 36. -/
def undashed (cs : List Char) : Option (List Char) :=
  if cs[8]? = some '-' ∧ cs[13]? = some '-' ∧ cs[18]? = some '-' ∧ cs[23]? = some '-' then
    some (cs.take 8 ++ ((cs.drop 9).take 4 ++ ((cs.drop 14).take 4 ++ ((cs.drop 19).take 4 ++
      cs.drop 24))))
  else none

/-- The text of a UUID. -/
def text (id : UUID) : String := String.ofList (dashed (hexEncode id.bytes))

/-- The UUID of thirty-two digits. -/
def parseDigits (cs : List Char) : Option UUID := (hexDecode cs).bind ofBytes

/-- The bytes of a text, each as a character: `uuid.Parse` counts and compares bytes. -/
def byteChars (s : String) : List Char := (utf8 s.toList).map fun b => Char.ofNat b.val

/-- `uuid.Parse`: the plain form, the form with `urn:uuid:` before it, the form between two brackets (which are
not looked at), and the digits alone. -/
def parse (s : String) : Option UUID :=
  let cs := byteChars s
  if cs.length = 36 then (undashed cs).bind parseDigits
  else if cs.length = 45 then
    if (cs.take 9).map Char.toLower = "urn:uuid:".toList then
      (undashed (cs.drop 9)).bind parseDigits
    else none
  else if cs.length = 38 then (undashed ((cs.drop 1).take 36)).bind parseDigits
  else if cs.length = 32 then parseDigits cs
  else none

theorem byteChars_of_ascii {s : String} (h : ∀ c ∈ s.toList, c.toNat < 128) : byteChars s = s.toList := by
  have hchar : ∀ c : Char, c.toNat < 128 → (utf8Char c).map (fun b => Char.ofNat b.val) = [c] := by
    intro c hc
    have hval : c.val.toNat ≤ 127 := Nat.le_of_lt_succ hc
    have hbyte : (UInt8.ofNat c.val.toNat).toFin.val = c.toNat := Nat.mod_eq_of_lt (Nat.lt_trans hc (by decide))
    rw [utf8Char, String.utf8EncodeChar, if_pos hval, List.map_singleton, List.map_singleton, hbyte,
      Char.ofNat_toNat]
  rw [byteChars, utf8]
  generalize s.toList = cs at h
  induction cs with
  | nil => rfl
  | cons c cs ih =>
    rw [List.flatMap_cons, List.map_append, hchar c (h c List.mem_cons_self),
      ih fun d hd => h d (List.mem_cons_of_mem c hd), List.singleton_append]

theorem ofBytes_bytes (id : UUID) : ofBytes id.bytes = some id := by
  have hlt : id.toNat < 256 ^ 16 := id.isLt
  rw [ofBytes, bytes, if_pos (length_beBytes _ _), beValue_beBytes hlt, BitVec.ofNat_toNat,
    BitVec.setWidth_eq]

theorem length_bytes (id : UUID) : id.bytes.length = 16 := length_beBytes _ _

theorem bytes_injective : Function.Injective bytes := fun a b h => by
  have hread := congrArg ofBytes h
  rw [ofBytes_bytes, ofBytes_bytes] at hread
  exact Option.some.inj hread

theorem length_hexEncode_bytes (id : UUID) : (hexEncode id.bytes).length = 32 := by
  rw [length_hexEncode, bytes, length_beBytes]

theorem length_dashed {h : List Char} (hlen : h.length = 32) : (dashed h).length = 36 := by
  simp [dashed, hlen]

theorem undashed_dashed {h : List Char} (hlen : h.length = 32) : undashed (dashed h) = some h := by
  obtain ⟨a, b, c, d, e, rfl, ha, hb, hc, hd⟩ : ∃ a b c d e : List Char,
      h = a ++ (b ++ (c ++ (d ++ e))) ∧ a.length = 8 ∧ b.length = 4 ∧ c.length = 4 ∧
        d.length = 4 := by
    refine ⟨h.take 8, (h.drop 8).take 4, (h.drop 12).take 4, (h.drop 16).take 4, h.drop 20, ?_,
      by simp [hlen], by simp [hlen], by simp [hlen], by simp [hlen]⟩
    have h12 : h.drop 12 = (h.drop 8).drop 4 := by rw [List.drop_drop]
    have h16 : h.drop 16 = (h.drop 12).drop 4 := by rw [List.drop_drop]
    have h20 : h.drop 20 = (h.drop 16).drop 4 := by rw [List.drop_drop]
    rw [h20, List.take_append_drop, h16, List.take_append_drop, h12, List.take_append_drop,
      List.take_append_drop]
  match a, b, c, d, ha, hb, hc, hd with
  | [_, _, _, _, _, _, _, _], [_, _, _, _], [_, _, _, _], [_, _, _, _], _, _, _, _ => rfl

/-- The text of a UUID has digits and dashes only. -/
theorem mem_text {id : UUID} {c : Char} (h : c ∈ id.text.toList) :
    c = '-' ∨ ∃ n < 16, c = hexDigit n := by
  rw [text, String.toList_ofList, dashed] at h
  simp only [List.mem_append, List.mem_cons] at h
  rcases h with h | h | h | h | h | h | h | h | h
  · exact .inr (mem_hexEncode (List.mem_of_mem_take h))
  · exact .inl h
  · exact .inr (mem_hexEncode (List.mem_of_mem_drop (List.mem_of_mem_take h)))
  · exact .inl h
  · exact .inr (mem_hexEncode (List.mem_of_mem_drop (List.mem_of_mem_take h)))
  · exact .inl h
  · exact .inr (mem_hexEncode (List.mem_of_mem_drop (List.mem_of_mem_take h)))
  · exact .inl h
  · exact .inr (mem_hexEncode (List.mem_of_mem_drop h))

/-- **The text of a UUID is read back.** -/
@[simp] theorem parse_text (id : UUID) : parse id.text = some id := by
  have hlen := length_hexEncode_bytes id
  have hascii : ∀ c ∈ id.text.toList, c.toNat < 128 := by
    intro c hc
    rcases mem_text hc with rfl | ⟨n, hn, rfl⟩
    · decide
    · interval_cases n <;> decide
  simp only [parse, byteChars_of_ascii hascii]
  rw [text, String.toList_ofList, if_pos (length_dashed hlen), undashed_dashed hlen, Option.bind_some, parseDigits,
    hexDecode_hexEncode, Option.bind_some, ofBytes_bytes]

theorem length_text (id : UUID) : id.text.toList.length = 36 := by
  rw [text, String.toList_ofList, length_dashed (length_hexEncode_bytes id)]

theorem text_injective : Function.Injective text := fun a b h =>
  Option.some_injective _ (by rw [← parse_text a, ← parse_text b, h])

end UUID

end Tack.Lib

import Tack.Lib.Json
import Tack.Lib.Utf8Boundary

/-!
# Byte strings in JSON

A writer of JSON may hold a string of any bytes.  Each byte that begins no character is written as the
escape of U+FFFD, so that a reader gets that character, and the bytes of a text are read back.

## Main definitions

* `Lib.utf8Runes` — the characters of the bytes, with `none` for a byte that begins none.
* `Lib.quoteBytes` — the JSON string of the bytes.

## Main results

* `Lib.quoteBytes_eq_quote` — the string of a text.
* `Lib.parse_quoteBytes` — what a reader gets.
-/

namespace Tack.Lib

/-- At most `n` characters of the bytes. -/
def utf8RunesUpTo : ℕ → List Byte → List (Option Char)
  | 0, _ => []
  | _ + 1, [] => []
  | n + 1, b :: bs =>
    match utf8Head (b :: bs) with
    | some c => some c :: utf8RunesUpTo n ((b :: bs).drop c.utf8Size)
    | none => none :: utf8RunesUpTo n bs

/-- The characters of the bytes; `none` is a byte that begins none. -/
def utf8Runes (bytes : List Byte) : List (Option Char) := utf8RunesUpTo bytes.length bytes

theorem utf8Decode_eq_map_utf8Runes (bytes : List Byte) :
    utf8Decode bytes = (utf8Runes bytes).map fun r => r.getD replacementChar := by
  have hfuel : ∀ n (bytes : List Byte), utf8DecodeUpTo n bytes =
      (utf8RunesUpTo n bytes).map fun r => r.getD replacementChar := by
    intro n
    induction n with
    | zero => intro bytes; rfl
    | succ n ih =>
      intro bytes
      cases bytes with
      | nil => rfl
      | cons b bs =>
        rw [utf8DecodeUpTo, utf8RunesUpTo]
        cases utf8Head (b :: bs) with
        | none => simp only [List.map_cons, ih]; rfl
        | some c => simp only [List.map_cons, ih]; rfl
  exact hfuel bytes.length bytes

def escapeRune : Option Char → List Char
  | some c => escapeChar c
  | none => '\x5c' :: 'u' :: hexDigits4 replacementChar.toNat

/-- The string of the bytes with its quotes. -/
def quoteBytes (bytes : List Byte) : List Char :=
  '\x22' :: (utf8Runes bytes).flatMap escapeRune ++ ['\x22']

theorem utf8RunesUpTo_utf8 {n : ℕ} {cs : List Char} (h : (utf8 cs).length ≤ n) :
    utf8RunesUpTo n (utf8 cs) = cs.map some := by
  induction cs generalizing n with
  | nil => cases n <;> rfl
  | cons c cs ih =>
    have hsize := c.utf8Size_pos
    have hhead := utf8Head_append c (utf8 cs)
    have hdrop : (utf8Char c ++ utf8 cs).drop c.utf8Size = utf8 cs := by
      rw [← length_utf8Char, List.drop_left]
    rw [utf8_cons, List.length_append, length_utf8Char] at h
    obtain ⟨n, rfl⟩ : ∃ m, n = m + 1 := ⟨n - 1, by omega⟩
    obtain ⟨b, bs, hc, -, -⟩ := utf8Char_eq_cons c
    rw [utf8_cons]
    rw [hc, List.cons_append] at hhead hdrop ⊢
    rw [utf8RunesUpTo, hhead]
    simp only [hdrop, List.map_cons, ih (n := n) (by omega)]

/-- **A text is quoted as it is.** -/
theorem quoteBytes_eq_quote {bytes : List Byte} (h : ValidUtf8 bytes) :
    quoteBytes bytes = quote (utf8Decode bytes) := by
  obtain ⟨cs, rfl⟩ := h.exists_utf8
  rw [quoteBytes, quote, utf8Runes, utf8RunesUpTo_utf8 le_rfl, utf8Decode_utf8, List.flatMap_map]
  rfl

def runePiece : Option Char → StringPiece
  | some c => charPiece c
  | none => .code replacementChar.toNat

theorem parsePieces_escapeRune (r : Option Char) (rest : List Char) :
    parsePieces (escapeRune r ++ rest) = consPiece (runePiece r) (parsePieces rest) := by
  cases r with
  | some c => exact parsePieces_escapeChar c rest
  | none =>
    simp only [escapeRune, hexDigits4, List.cons_append, List.nil_append]
    rw [parsePieces.eq_3, hexValue4_hexDigits4 (by decide)]
    rfl

theorem joinPieces_runePiece (r : Option Char) (rest : List StringPiece) :
    joinPieces (runePiece r :: rest) = r.getD replacementChar :: joinPieces rest := by
  cases r with
  | some c => exact joinPieces_charPiece c rest
  | none => exact joinPieces_code replacementChar rest

/-- **A reader gets the decoded bytes.** -/
theorem parseString_quoteBytes (bytes : List Byte) (rest : List Char) :
    parseString ((utf8Runes bytes).flatMap escapeRune ++ '\x22' :: rest) = some (utf8Decode bytes, rest) := by
  have hpieces : ∀ runes : List (Option Char), parsePieces (runes.flatMap escapeRune ++ '\x22' :: rest) =
      some (runes.map runePiece, rest) := by
    intro runes
    induction runes with
    | nil => rfl
    | cons r runes ih =>
      rw [List.flatMap_cons, List.append_assoc, parsePieces_escapeRune, ih]
      rfl
  have hjoin : ∀ runes : List (Option Char),
      joinPieces (runes.map runePiece) = runes.map fun r => r.getD replacementChar := by
    intro runes
    induction runes with
    | nil => rfl
    | cons r runes ih => rw [List.map_cons, joinPieces_runePiece, ih, List.map_cons]
  rw [parseString, hpieces, Option.map_some, hjoin, utf8Decode_eq_map_utf8Runes]

theorem parse_quoteBytes (bytes : List Byte) :
    Json.parse (quoteBytes bytes) = some (.str (String.ofList (utf8Decode bytes))) := by
  have hvalue : Json.parseValue ((quoteBytes bytes).length + 1) (quoteBytes bytes) =
      some (.str (String.ofList (utf8Decode bytes)), []) := by
    rw [quoteBytes, Json.parseValue, List.cons_append, Json.skipSpace_cons (by decide)]
    simp only
    rw [parseString_quoteBytes, Option.map_some]
  rw [Json.parse, hvalue]
  rfl

end Tack.Lib

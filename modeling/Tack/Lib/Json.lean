import Mathlib
import Tack.Lib.Hex

/-!
# JSON texts

JSON values with their number literals kept as text, the compact text of a value and a reader of
texts with whitespace.  Strings are written with the escapes that are safe inside HTML: besides
quotes, backslashes and control characters, `<`, `>`, `&` and the two line separators of Unicode
are escaped.

## Main definitions

* `Lib.NumLit` — a JSON number literal; `Lib.NumLit.ofInt` is the one of an integer.
* `Lib.Json` — a JSON value.
* `Lib.Json.render` — the compact text of a value.
* `Lib.Json.parse` — the value of a text.

## Main results

* `Lib.Json.parseValue_render` — the reader finds a written value and leaves what follows it.
* `Lib.Json.parse_render`, `Lib.Json.render_injective` — a text has one value.
-/

namespace Tack.Lib

/-! ### Number literals -/

/-- The characters of number literals. -/
def isNumChar (c : Char) : Bool := c.isDigit || c ∈ ['-', '+', '.', 'e', 'E']

/-- One digit or more and nothing else. -/
def isDigits (cs : List Char) : Bool := !cs.isEmpty && cs.all Char.isDigit

/-- Nothing, or an exponent. -/
def isExponent : List Char → Bool
  | [] => true
  | c :: '-' :: cs => (c == 'e' || c == 'E') && isDigits cs
  | c :: '+' :: cs => (c == 'e' || c == 'E') && isDigits cs
  | c :: cs => (c == 'e' || c == 'E') && isDigits cs

/-- What may follow the integer digits. -/
def isFraction : List Char → Bool
  | '.' :: cs => !(cs.takeWhile Char.isDigit).isEmpty && isExponent (cs.dropWhile Char.isDigit)
  | cs => isExponent cs

/-- A literal without sign: no leading zero. -/
def isUnsigned : List Char → Bool
  | '0' :: cs => isFraction cs
  | c :: cs => c.isDigit && isFraction (cs.dropWhile Char.isDigit)
  | [] => false

/-- The text after a minus sign, if there is one. -/
def dropMinus : List Char → List Char
  | '-' :: cs => cs
  | cs => cs

/-- The number literals of JSON. -/
def isNumber (cs : List Char) : Bool := cs.all isNumChar && isUnsigned (dropMinus cs)

/-- A number literal. -/
structure NumLit where
  text : List Char
  valid : isNumber text = true
  deriving DecidableEq

theorem NumLit.all_isNumChar (n : NumLit) : n.text.all isNumChar = true := by
  have h := n.valid
  rw [isNumber, Bool.and_eq_true] at h
  exact h.1

theorem NumLit.exists_cons (n : NumLit) : ∃ c cs, n.text = c :: cs ∧ isNumChar c = true := by
  have hvalid := n.valid
  have hall := n.all_isNumChar
  cases htext : n.text with
  | nil =>
    rw [htext] at hvalid
    cases hvalid
  | cons c cs =>
    rw [htext, List.all_cons, Bool.and_eq_true] at hall
    exact ⟨c, cs, rfl, hall.1⟩

variable {c : Char}

theorem isDigit_of_mem_toDigits {n : ℕ} (h : c ∈ Nat.toDigits 10 n) :
    c.isDigit = true :=
  Nat.isDigit_of_mem_toDigits (by omega) (by omega) h

/-- The leading digit of a positive number is not zero. -/
theorem head?_toDigits_ne {n : ℕ} (hn : 0 < n) : (Nat.toDigits 10 n).head? ≠ some '0' := by
  have hsmall : ∀ m < 10, 0 < m → Nat.digitChar m ≠ '0' := by decide
  induction n using Nat.strong_induction_on with
  | _ n ih =>
    rw [Nat.toDigits_eq_if (by omega)]
    split
    · next hlt => simpa using hsmall n hlt hn
    · next hge =>
      rw [List.head?_append_of_ne_nil _ Nat.toDigits_ne_nil]
      exact ih (n / 10) (by omega) (by omega)

theorem isUnsigned_toDigits (n : ℕ) : isUnsigned (Nat.toDigits 10 n) = true := by
  rcases Nat.eq_zero_or_pos n with rfl | hpos
  · decide
  · have hlead := head?_toDigits_ne hpos
    cases hcs : Nat.toDigits 10 n with
    | nil => exact absurd hcs Nat.toDigits_ne_nil
    | cons c cs =>
      have hdigits : ∀ d ∈ c :: cs, d.isDigit = true := fun d hd =>
        isDigit_of_mem_toDigits (hcs ▸ hd)
      have hrest : cs.dropWhile Char.isDigit = [] :=
        List.dropWhile_eq_nil_iff.mpr fun d hd => hdigits d (List.mem_cons_of_mem c hd)
      have hne : c ≠ '0' := by
        rintro rfl
        exact hlead (by rw [hcs, List.head?_cons])
      rw [isUnsigned.eq_2 c cs hne, hdigits c List.mem_cons_self, hrest]
      rfl

theorem all_isNumChar_toDigits (n : ℕ) : (Nat.toDigits 10 n).all isNumChar = true := by
  refine List.all_eq_true.mpr fun c hc => ?_
  rw [isNumChar, isDigit_of_mem_toDigits hc, Bool.true_or]

theorem toDigits_ne_minus_cons (n : ℕ) (cs : List Char) : Nat.toDigits 10 n ≠ '-' :: cs := by
  intro h
  have hdigit : Char.isDigit '-' = true := isDigit_of_mem_toDigits (h ▸ List.mem_cons_self)
  exact absurd hdigit (by decide)

/-- The literal of an integer. -/
def NumLit.ofInt (n : ℤ) : NumLit where
  text := if n < 0 then '-' :: Nat.toDigits 10 n.natAbs else Nat.toDigits 10 n.natAbs
  valid := by
    have hall := all_isNumChar_toDigits n.natAbs
    have hu := isUnsigned_toDigits n.natAbs
    split
    · rw [isNumber, List.all_cons, hall, Bool.and_true, Bool.and_eq_true]
      exact ⟨by decide, hu⟩
    · rw [isNumber, hall, Bool.true_and, dropMinus.eq_2 _ (toDigits_ne_minus_cons _)]
      exact hu

/-! ### Strings -/

/-- U+FFFD, which stands for what is not a character. -/
def replacementChar : Char := '\uFFFD'

/-- The four hexadecimal digits of a character below `0x10000`. -/
def hexDigits4 (n : ℕ) : List Char :=
  [hexDigit (n / 4096), hexDigit (n / 256 % 16), hexDigit (n / 16 % 16), hexDigit (n % 16)]

/-- The number that four hexadecimal digits stand for. -/
def hexValue4 (a b c d : Char) : Option ℕ := do
  let a ← hexValue a
  let b ← hexValue b
  let c ← hexValue c
  let d ← hexValue d
  return 4096 * a + 256 * b + 16 * c + d

/-- The characters that are escaped besides quotes, backslashes and control characters. -/
def htmlUnsafe : List Char := ['<', '>', '&', '\u2028', '\u2029']

/-- The text of a character inside a string.  `'\x22'` is the quote and `'\x5c'` the backslash. -/
def escapeChar (c : Char) : List Char :=
  if c = '\x22' then ['\x5c', '\x22']
  else if c = '\x5c' then ['\x5c', '\x5c']
  else if c = '\x08' then ['\x5c', 'b']
  else if c = '\x0c' then ['\x5c', 'f']
  else if c = '\n' then ['\x5c', 'n']
  else if c = '\r' then ['\x5c', 'r']
  else if c = '\t' then ['\x5c', 't']
  else if c.toNat < 32 ∨ c ∈ htmlUnsafe then
    '\x5c' :: 'u' :: hexDigits4 c.toNat
  else [c]

/-- A string with its quotes. -/
def quote (s : List Char) : List Char := '\x22' :: s.flatMap escapeChar ++ ['\x22']

/-- The character of a one-letter escape. -/
def unescapeChar (c : Char) : Option Char :=
  if c ∈ ['\x22', '\x5c', '/'] then some c
  else if c = 'b' then some '\x08'
  else if c = 'f' then some '\x0c'
  else if c = 'n' then some '\n'
  else if c = 'r' then some '\r'
  else if c = 't' then some '\t'
  else none

/-- A half of a surrogate pair. -/
def isSurrogate (n : ℕ) : Bool := 0xd800 ≤ n && n < 0xe000

/-- The character of a surrogate pair. -/
def surrogatePair (high low : ℕ) : Option Char :=
  if 0xd800 ≤ high ∧ high < 0xdc00 ∧ 0xdc00 ≤ low ∧ low < 0xe000 then
    some (Char.ofNat (1024 * (high - 0xd800) + (low - 0xdc00) + 0x10000))
  else none

/-- A piece of a string: a character, or the number of a hexadecimal escape. -/
inductive StringPiece
  | char (c : Char)
  | code (n : ℕ)

/-- The character of a lone escape. -/
def codeChar (n : ℕ) : Char := if isSurrogate n then replacementChar else Char.ofNat n

/-- The characters of a string; two escapes in a row may be a surrogate pair. -/
def joinPieces : List StringPiece → List Char
  | [] => []
  | .char c :: rest => c :: joinPieces rest
  | .code high :: .code low :: rest =>
    match surrogatePair high low with
    | some c => c :: joinPieces rest
    | none => codeChar high :: joinPieces (.code low :: rest)
  | .code n :: rest => codeChar n :: joinPieces rest

/-- Puts a piece before the pieces that were read. -/
def consPiece (u : StringPiece) :
    Option (List StringPiece × List Char) → Option (List StringPiece × List Char) :=
  Option.map fun p => (u :: p.1, p.2)

/-- Reads the pieces of a string up to its closing quote. -/
def parsePieces : List Char → Option (List StringPiece × List Char)
  | [] => none
  | '\x22' :: rest => some ([], rest)
  | '\x5c' :: 'u' :: a :: b :: c :: d :: rest =>
    match hexValue4 a b c d with
    | some n => consPiece (.code n) (parsePieces rest)
    | none => none
  | '\x5c' :: c :: rest =>
    match unescapeChar c with
    | some ch => consPiece (.char ch) (parsePieces rest)
    | none => none
  | c :: rest => if c.toNat < 32 then none else consPiece (.char c) (parsePieces rest)

/-- Reads the characters of a string up to its closing quote. -/
def parseString (cs : List Char) : Option (List Char × List Char) :=
  (parsePieces cs).map fun p => (joinPieces p.1, p.2)

theorem hexValue4_hexDigits4 {n : ℕ} (hn : n < 65536) :
    hexValue4 (hexDigit (n / 4096)) (hexDigit (n / 256 % 16)) (hexDigit (n / 16 % 16))
      (hexDigit (n % 16)) = some n := by
  simp only [hexValue4, hexValue_hexDigit _ (by omega : n / 4096 < 16),
    hexValue_hexDigit _ (by omega : n / 256 % 16 < 16),
    hexValue_hexDigit _ (by omega : n / 16 % 16 < 16),
    hexValue_hexDigit _ (by omega : n % 16 < 16), Option.bind_eq_bind, Option.bind_some,
    Option.pure_def]
  congr 1
  omega

/-- The piece that the text of a character is read as. -/
def charPiece (c : Char) : StringPiece :=
  if c ∈ ['\x22', '\x5c', '\x08', '\x0c', '\n', '\r', '\t'] then .char c
  else if c.toNat < 32 ∨ c ∈ htmlUnsafe then .code c.toNat
  else .char c

theorem isSurrogate_toNat (c : Char) : isSurrogate c.toNat = false := by
  have h := c.valid
  change c.toNat < 0xd800 ∨ 0xdfff < c.toNat ∧ _ at h
  simp only [isSurrogate, Bool.and_eq_false_iff, decide_eq_false_iff_not]
  omega

theorem surrogatePair_toNat (c : Char) (low : ℕ) : surrogatePair c.toNat low = none := by
  have h := isSurrogate_toNat c
  simp only [isSurrogate, Bool.and_eq_false_iff, decide_eq_false_iff_not] at h
  exact if_neg (by omega)

/-- The escape of a character alone is read as the character. -/
theorem joinPieces_code (c : Char) (rest : List StringPiece) :
    joinPieces (.code c.toNat :: rest) = c :: joinPieces rest := by
  have hc : codeChar c.toNat = c := by rw [codeChar, isSurrogate_toNat]; exact Char.ofNat_toNat c
  match rest with
  | [] => rw [joinPieces.eq_4 _ _ (by simp), hc]
  | .char d :: rest => rw [joinPieces.eq_4 _ _ (by simp), hc]
  | .code low :: rest => rw [joinPieces, surrogatePair_toNat, hc]

theorem joinPieces_charPiece (c : Char) (rest : List StringPiece) :
    joinPieces (charPiece c :: rest) = c :: joinPieces rest := by
  unfold charPiece
  split_ifs
  · rw [joinPieces]
  · exact joinPieces_code c rest
  · rw [joinPieces]

/-- A one-letter escape is read as its character. -/
theorem parsePieces_escape {e : Char} (he : unescapeChar e = some c) (hu : e ≠ 'u') (rest : List Char) :
    parsePieces ('\x5c' :: e :: rest) = consPiece (.char c) (parsePieces rest) := by
  rw [parsePieces.eq_4 e rest (fun _ _ _ _ _ h _ => hu h), he]

/-- The characters that are unsafe inside HTML have escapes of four digits. -/
theorem toNat_lt_of_mem_htmlUnsafe (h : c ∈ htmlUnsafe) : c.toNat < 65536 := by
  have hall : htmlUnsafe.all (fun d => d.toNat < 65536) = true := by decide
  simpa using List.all_eq_true.mp hall c h

/-- The text of a character is read as its piece. -/
theorem parsePieces_escapeChar (c : Char) (rest : List Char) :
    parsePieces (escapeChar c ++ rest) = consPiece (charPiece c) (parsePieces rest) := by
  unfold escapeChar
  split_ifs with hq hb h8 hf hn hr ht hx
  · subst hq; exact parsePieces_escape (by decide) (by decide) rest
  · subst hb; exact parsePieces_escape (by decide) (by decide) rest
  · subst h8; exact parsePieces_escape (by decide) (by decide) rest
  · subst hf; exact parsePieces_escape (by decide) (by decide) rest
  · subst hn; exact parsePieces_escape (by decide) (by decide) rest
  · subst hr; exact parsePieces_escape (by decide) (by decide) rest
  · subst ht; exact parsePieces_escape (by decide) (by decide) rest
  · have hlt : c.toNat < 65536 := by
      rcases hx with h | h
      · omega
      · exact toNat_lt_of_mem_htmlUnsafe h
    have hpiece : charPiece c = .code c.toNat := by
      rw [charPiece, if_neg (by simp [hq, hb, h8, hf, hn, hr, ht]), if_pos hx]
    simp only [hexDigits4, List.cons_append, List.nil_append]
    rw [parsePieces.eq_3, hexValue4_hexDigits4 hlt, hpiece]
  · have hpiece : charPiece c = .char c := by
      rw [charPiece, if_neg (by simp [hq, hb, h8, hf, hn, hr, ht]), if_neg hx]
    have hge : ¬ c.toNat < 32 := fun h => hx (.inl h)
    rw [List.singleton_append, parsePieces.eq_5 c rest hq (fun _ _ _ _ _ h => absurd h hb)
      (fun _ _ h => absurd h hb), if_neg hge, hpiece]

/-- **Strings are read back**: what follows the closing quote is left. -/
theorem parseString_quote (s rest : List Char) :
    parseString (s.flatMap escapeChar ++ '\x22' :: rest) = some (s, rest) := by
  have hpieces : parsePieces (s.flatMap escapeChar ++ '\x22' :: rest) =
      some (s.map charPiece, rest) := by
    induction s with
    | nil => rfl
    | cons c s ih =>
      rw [List.flatMap_cons, List.append_assoc, parsePieces_escapeChar, ih]
      rfl
  have hjoin : joinPieces (s.map charPiece) = s := by
    clear hpieces
    induction s with
    | nil => rfl
    | cons c s ih => rw [List.map_cons, joinPieces_charPiece, ih]
  rw [parseString, hpieces, Option.map_some, hjoin]

/-! ### Values -/

/-- A JSON value; a number is its literal, and the members of an object keep their order. -/
inductive Json
  | null
  | bool (b : Bool)
  | num (n : NumLit)
  | str (s : String)
  | arr (items : List Json)
  | obj (members : List (String × Json))

namespace Json

mutual

/-- The compact text of a value. -/
def render : Json → List Char
  | null => ['n', 'u', 'l', 'l']
  | bool true => ['t', 'r', 'u', 'e']
  | bool false => ['f', 'a', 'l', 's', 'e']
  | num n => n.text
  | str s => quote s.toList
  | arr items => '[' :: renderItems items ++ [']']
  | obj members => '\x7b' :: renderMembers members ++ ['\x7d']

/-- The items of an array with commas between them. -/
def renderItems : List Json → List Char
  | [] => []
  | [j] => render j
  | j :: k :: js => render j ++ ',' :: renderItems (k :: js)

/-- The members of an object with commas between them. -/
def renderMembers : List (String × Json) → List Char
  | [] => []
  | [(name, j)] => quote name.toList ++ ':' :: render j
  | (name, j) :: m :: ms => quote name.toList ++ ':' :: render j ++ ',' :: renderMembers (m :: ms)

end

/-! ### Reading -/

def isSpace (c : Char) : Bool := c ∈ [' ', '\t', '\r', '\n']

def skipSpace (cs : List Char) : List Char := cs.dropWhile isSpace

/-- Reads the longest run of number characters, which must be a literal. -/
def parseNumber (cs : List Char) : Option (Json × List Char) :=
  if h : isNumber (cs.takeWhile isNumChar) = true then
    some (num ⟨cs.takeWhile isNumChar, h⟩, cs.dropWhile isNumChar)
  else none

/-- Reads the name of a member and its colon. -/
def parseName (cs : List Char) : Option (String × List Char) :=
  match skipSpace cs with
  | '\x22' :: rest =>
    (parseString rest).bind fun p =>
      match skipSpace p.2 with
      | ':' :: rest' => some (String.ofList p.1, rest')
      | _ => none
  | _ => none

mutual

/-- Reads one value; the first argument bounds the nesting and the number of items. -/
def parseValue : ℕ → List Char → Option (Json × List Char)
  | 0, _ => none
  | n + 1, cs =>
    match skipSpace cs with
    | 'n' :: 'u' :: 'l' :: 'l' :: rest => some (null, rest)
    | 't' :: 'r' :: 'u' :: 'e' :: rest => some (bool true, rest)
    | 'f' :: 'a' :: 'l' :: 's' :: 'e' :: rest => some (bool false, rest)
    | '\x22' :: rest => (parseString rest).map fun p => (str (String.ofList p.1), p.2)
    | '[' :: rest =>
      match skipSpace rest with
      | ']' :: rest' => some (arr [], rest')
      | _ => (parseItems n rest).map fun p => (arr p.1, p.2)
    | '\x7b' :: rest =>
      match skipSpace rest with
      | '\x7d' :: rest' => some (obj [], rest')
      | _ => (parseMembers n rest).map fun p => (obj p.1, p.2)
    | rest => parseNumber rest

/-- Reads the items of an array and the closing bracket. -/
def parseItems : ℕ → List Char → Option (List Json × List Char)
  | 0, _ => none
  | n + 1, cs =>
    (parseValue n cs).bind fun p =>
      match skipSpace p.2 with
      | ',' :: rest => (parseItems n rest).map fun q => (p.1 :: q.1, q.2)
      | ']' :: rest => some ([p.1], rest)
      | _ => none

/-- Reads the members of an object and the closing brace. -/
def parseMembers : ℕ → List Char → Option (List (String × Json) × List Char)
  | 0, _ => none
  | n + 1, cs =>
    (parseName cs).bind fun name =>
      (parseValue n name.2).bind fun p =>
        match skipSpace p.2 with
        | ',' :: rest => (parseMembers n rest).map fun q => ((name.1, p.1) :: q.1, q.2)
        | '\x7d' :: rest => some ([(name.1, p.1)], rest)
        | _ => none

end

/-- The value of a text: one value with whitespace around it. -/
def parse (cs : List Char) : Option Json :=
  match parseValue (cs.length + 1) cs with
  | some (j, rest) => if (skipSpace rest).isEmpty then some j else none
  | none => none

/-! ### Reading what was written -/

/-- What follows is not part of a number literal. -/
def EndsNumber (rest : List Char) : Prop := ∀ c ∈ rest.head?, isNumChar c = false

theorem endsNumber_nil : EndsNumber [] := by simp [EndsNumber]

variable {c : Char} {rest cs : List Char}

theorem endsNumber_cons (h : isNumChar c = false) :
    EndsNumber (c :: rest) := by
  simpa [EndsNumber] using h

/-- The first character of a value. -/
def StartsValue (c : Char) : Prop := isSpace c = false ∧ c ≠ ']' ∧ c ≠ '\x7d'

theorem startsValue_of_isNumChar (h : isNumChar c = true) : StartsValue c := by
  have hne : ∀ d, isNumChar d = false → c ≠ d := fun d hd hcd => by simp [hcd, hd] at h
  refine ⟨?_, hne _ (by decide), hne _ (by decide)⟩
  simp [isSpace, hne ' ' (by decide), hne '\t' (by decide), hne '\r' (by decide),
    hne '\n' (by decide)]

theorem render_eq_cons (j : Json) : ∃ c cs, render j = c :: cs ∧ StartsValue c := by
  match j with
  | null => exact ⟨'n', _, rfl, by decide, by decide, by decide⟩
  | bool true => exact ⟨'t', _, rfl, by decide, by decide, by decide⟩
  | bool false => exact ⟨'f', _, rfl, by decide, by decide, by decide⟩
  | str s => exact ⟨'\x22', _, rfl, by decide, by decide, by decide⟩
  | arr items => exact ⟨'[', _, by rw [render]; rfl, by decide, by decide, by decide⟩
  | obj members => exact ⟨'\x7b', _, by rw [render]; rfl, by decide, by decide, by decide⟩
  | num n =>
    obtain ⟨c, cs, hcs, hc⟩ := n.exists_cons
    exact ⟨c, cs, by rw [render, hcs], startsValue_of_isNumChar hc⟩

theorem skipSpace_cons (h : isSpace c = false) (cs : List Char) :
    skipSpace (c :: cs) = c :: cs := by
  simp [skipSpace, h]

theorem skipSpace_render (j : Json) (rest : List Char) :
    skipSpace (render j ++ rest) = render j ++ rest := by
  obtain ⟨c, cs, hj, hc⟩ := render_eq_cons j
  rw [hj, List.cons_append, skipSpace_cons hc.1]

theorem renderItems_eq_cons (j : Json) (js : List Json) :
    ∃ c cs, renderItems (j :: js) = c :: cs ∧ StartsValue c := by
  obtain ⟨c, cs, hj, hc⟩ := render_eq_cons j
  cases js with
  | nil => exact ⟨c, cs, by rw [renderItems, hj], hc⟩
  | cons k ks => exact ⟨c, _, by rw [renderItems, hj, List.cons_append], hc⟩

theorem renderMembers_eq_cons (m : String × Json) (ms : List (String × Json)) :
    ∃ c cs, renderMembers (m :: ms) = c :: cs ∧ StartsValue c := by
  obtain ⟨name, j⟩ := m
  cases ms with
  | nil => exact ⟨'\x22', _, by rw [renderMembers]; rfl, by decide, by decide, by decide⟩
  | cons k ks => exact ⟨'\x22', _, by rw [renderMembers]; rfl, by decide, by decide, by decide⟩

theorem length_render_pos (j : Json) : 0 < (render j).length := by
  obtain ⟨c, cs, hj, -⟩ := render_eq_cons j
  simp [hj]

theorem takeWhile_text_append (n : NumLit) (hrest : EndsNumber rest) :
    (n.text ++ rest).takeWhile isNumChar = n.text := by
  rw [List.takeWhile_append_of_pos (List.all_eq_true.mp n.all_isNumChar)]
  cases rest with
  | nil => simp
  | cons c rest => simp [hrest c rfl]

theorem dropWhile_text_append (n : NumLit) (hrest : EndsNumber rest) :
    (n.text ++ rest).dropWhile isNumChar = rest := by
  rw [List.dropWhile_append_of_pos (List.all_eq_true.mp n.all_isNumChar)]
  cases rest with
  | nil => rfl
  | cons c rest => simp [hrest c rfl]

/-- A number literal is read to its end. -/
theorem parseNumber_text (n : NumLit) (hrest : EndsNumber rest) :
    parseNumber (n.text ++ rest) = some (num n, rest) := by
  have hvalid : isNumber ((n.text ++ rest).takeWhile isNumChar) = true := by
    rw [takeWhile_text_append n hrest]
    exact n.valid
  rw [parseNumber, dif_pos hvalid, dropWhile_text_append n hrest]
  simp [takeWhile_text_append n hrest]

theorem parseName_quote (name : String) (rest : List Char) :
    parseName (quote name.toList ++ ':' :: rest) = some (name, rest) := by
  rw [parseName, quote, List.cons_append, List.cons_append, skipSpace_cons (by decide)]
  simp only [List.append_assoc, List.cons_append, List.nil_append]
  rw [parseString_quote, Option.bind_some, skipSpace_cons (by decide)]
  simp

/-- After a bracket, what is written is not the closing bracket. -/
theorem parseValue_arr {n : ℕ} {items : List Json}
    (hc : StartsValue c) (h : parseItems n (c :: cs) = some (items, rest)) :
    parseValue (n + 1) ('[' :: c :: cs) = some (arr items, rest) := by
  rw [parseValue, skipSpace_cons (by decide)]
  simp only [skipSpace_cons hc.1]
  split
  · next heq => exact absurd (List.cons.inj heq).1 hc.2.1
  · rw [h, Option.map_some]

/-- After a brace, what is written is not the closing brace. -/
theorem parseValue_obj {n : ℕ} {members : List (String × Json)}
    (hc : StartsValue c) (h : parseMembers n (c :: cs) = some (members, rest)) :
    parseValue (n + 1) ('\x7b' :: c :: cs) = some (obj members, rest) := by
  rw [parseValue, skipSpace_cons (by decide)]
  simp only [skipSpace_cons hc.1]
  split
  · next heq => exact absurd (List.cons.inj heq).1 hc.2.2
  · rw [h, Option.map_some]

/-- A text that starts like a number is read as one. -/
theorem parseValue_num {n : ℕ} (lit : NumLit) (hrest : EndsNumber rest) :
    parseValue (n + 1) (lit.text ++ rest) = some (num lit, rest) := by
  have hskip := skipSpace_render (num lit) rest
  rw [render] at hskip
  rw [parseValue, hskip]
  have hnum := parseNumber_text lit hrest
  obtain ⟨c, cs, hcs, hc⟩ := lit.exists_cons
  rw [hcs] at hnum ⊢
  -- the other branches start with a character that no literal starts with
  split
  case h_7 => exact hnum
  all_goals
    next heq =>
      rw [(List.cons.inj heq).1] at hc
      cases hc

/-- What reading with `n` steps finds: every value, list of items and list of members whose text is
short enough. -/
structure ReadsBack (n : ℕ) : Prop where
  value : ∀ (j : Json) (rest : List Char), (render j).length ≤ n → EndsNumber rest →
    parseValue n (render j ++ rest) = some (j, rest)
  items : ∀ (j : Json) (js : List Json) (rest : List Char), (renderItems (j :: js)).length < n →
    parseItems n (renderItems (j :: js) ++ ']' :: rest) = some (j :: js, rest)
  members : ∀ (m : String × Json) (ms : List (String × Json)) (rest : List Char),
    (renderMembers (m :: ms)).length < n →
    parseMembers n (renderMembers (m :: ms) ++ '\x7d' :: rest) = some (m :: ms, rest)

variable {n : ℕ}

theorem ReadsBack.value_succ (ih : ReadsBack n) (j : Json) (rest : List Char)
    (hn : (render j).length ≤ n + 1) (hrest : EndsNumber rest) :
    parseValue (n + 1) (render j ++ rest) = some (j, rest) := by
  match j with
  | null => rfl
  | bool true => rfl
  | bool false => rfl
  | num lit => rw [render]; exact parseValue_num lit hrest
  | str s =>
    rw [render, quote, parseValue, List.cons_append, List.cons_append, skipSpace_cons (by decide)]
    simp only [List.append_assoc, List.cons_append, List.nil_append]
    rw [parseString_quote, Option.map_some, String.ofList_toList]
  | arr [] => rfl
  | arr (j :: js) =>
    rw [render, List.length_append, List.length_cons, List.length_singleton] at hn
    have hitems := ih.items j js rest (by omega)
    obtain ⟨c, cs, hcs, hc⟩ := renderItems_eq_cons j js
    rw [render, hcs]
    rw [hcs] at hitems
    simp only [List.cons_append, List.append_assoc, List.nil_append] at hitems ⊢
    exact parseValue_arr hc hitems
  | obj [] => rfl
  | obj (m :: ms) =>
    rw [render, List.length_append, List.length_cons, List.length_singleton] at hn
    have hmembers := ih.members m ms rest (by omega)
    obtain ⟨c, cs, hcs, hc⟩ := renderMembers_eq_cons m ms
    rw [render, hcs]
    rw [hcs] at hmembers
    simp only [List.cons_append, List.append_assoc, List.nil_append] at hmembers ⊢
    exact parseValue_obj hc hmembers

theorem ReadsBack.items_succ (ih : ReadsBack n) (j : Json) (js : List Json) (rest : List Char)
    (hn : (renderItems (j :: js)).length < n + 1) :
    parseItems (n + 1) (renderItems (j :: js) ++ ']' :: rest) = some (j :: js, rest) := by
  have hpos := length_render_pos j
  cases js with
  | nil =>
    rw [renderItems] at hn ⊢
    rw [parseItems, ih.value j _ (by omega) (endsNumber_cons (by decide)), Option.bind_some,
      skipSpace_cons (by decide)]
    rfl
  | cons k ks =>
    rw [renderItems, List.length_append, List.length_cons] at hn
    rw [renderItems, List.append_assoc, List.cons_append, parseItems,
      ih.value j _ (by omega) (endsNumber_cons (by decide)), Option.bind_some,
      skipSpace_cons (by decide)]
    simp only
    rw [ih.items k ks rest (by omega), Option.map_some]

theorem ReadsBack.members_succ (ih : ReadsBack n) (m : String × Json) (ms : List (String × Json))
    (rest : List Char) (hn : (renderMembers (m :: ms)).length < n + 1) :
    parseMembers (n + 1) (renderMembers (m :: ms) ++ '\x7d' :: rest) = some (m :: ms, rest) := by
  obtain ⟨name, j⟩ := m
  have hpos := length_render_pos j
  cases ms with
  | nil =>
    rw [renderMembers, List.length_append, List.length_cons] at hn
    rw [renderMembers, List.append_assoc, List.cons_append, parseMembers, parseName_quote,
      Option.bind_some, ih.value j _ (by omega) (endsNumber_cons (by decide)), Option.bind_some,
      skipSpace_cons (by decide)]
    rfl
  | cons k ks =>
    simp only [renderMembers, List.length_append, List.length_cons] at hn
    simp only [renderMembers, List.append_assoc, List.cons_append]
    rw [parseMembers, parseName_quote, Option.bind_some,
      ih.value j _ (by omega) (endsNumber_cons (by decide)), Option.bind_some,
      skipSpace_cons (by decide)]
    simp only
    rw [ih.members k ks rest (by omega), Option.map_some]

theorem readsBack (n : ℕ) : ReadsBack n := by
  induction n with
  | zero =>
    refine ⟨fun j rest hn _ => ?_, fun j js rest hn => by omega, fun m ms rest hn => by omega⟩
    have hpos := length_render_pos j
    omega
  | succ n ih => exact ⟨ih.value_succ, ih.items_succ, ih.members_succ⟩

/-- **The reader finds a written value** and leaves what follows it. -/
theorem parseValue_render (j : Json) (hn : (render j).length ≤ n)
    (hrest : EndsNumber rest) : parseValue n (render j ++ rest) = some (j, rest) :=
  (readsBack n).value j rest hn hrest

/-- A written value is read back. -/
theorem parse_render (j : Json) : parse (render j) = some j := by
  have h := parseValue_render j (n := (render j).length + 1) (by omega) endsNumber_nil
  rw [List.append_nil] at h
  rw [parse, h]
  rfl

/-- A text has one value. -/
theorem render_injective : Function.Injective render := fun a b h =>
  Option.some_injective _ (by rw [← parse_render a, ← parse_render b, h])

/-! ### Control characters -/

/-- No control characters. -/
def Printable (cs : List Char) : Prop := ∀ c ∈ cs, 32 ≤ c.toNat

instance (cs : List Char) : Decidable (Printable cs) :=
  List.decidableBAll (fun c : Char => 32 ≤ c.toNat) cs

theorem printable_nil : Printable [] := by decide

theorem Printable.cons (h : 32 ≤ c.toNat) (h' : Printable cs) :
    Printable (c :: cs) := fun d hd => (List.mem_cons.mp hd).elim (fun e => e ▸ h) (h' d)

theorem Printable.append {ds : List Char} (h : Printable cs) (h' : Printable ds) :
    Printable (cs ++ ds) := fun c hc => (List.mem_append.mp hc).elim (h c) (h' c)

theorem printable_hexDigit {n : ℕ} (hn : n < 16) : 32 ≤ (hexDigit n).toNat := by
  revert n
  decide

theorem printable_escapeChar (c : Char) : Printable (escapeChar c) := by
  unfold escapeChar
  split_ifs with hq hb h8 hf hn hr ht hx
  all_goals try decide
  · have hlt : c.toNat < 65536 := by
      rcases hx with h | h
      · omega
      · exact toNat_lt_of_mem_htmlUnsafe h
    exact .cons (by decide) (.cons (by decide) (.cons (printable_hexDigit (by omega))
      (.cons (printable_hexDigit (by omega)) (.cons (printable_hexDigit (by omega))
        (.cons (printable_hexDigit (by omega)) printable_nil)))))
  · rw [not_or, Nat.not_lt] at hx
    exact .cons hx.1 printable_nil

theorem printable_quote (s : List Char) : Printable (quote s) := by
  refine .append (.cons (by decide) fun c hc => ?_) (by decide)
  obtain ⟨d, -, hd⟩ := List.mem_flatMap.mp hc
  exact printable_escapeChar d c hd

theorem printable_text (n : NumLit) : Printable n.text := by
  intro c hc
  have h := List.all_eq_true.mp n.all_isNumChar c hc
  simp only [isNumChar, Bool.or_eq_true, decide_eq_true_eq] at h
  rcases h with h | h
  · simp only [Char.isDigit, Bool.and_eq_true, decide_eq_true_eq] at h
    exact le_trans (by decide) (UInt32.le_iff_toNat_le.mp h.1)
  · exact (by decide : Printable ['-', '+', '.', 'e', 'E']) c h

mutual

/-- **A written value has no control characters.** -/
theorem printable_render : ∀ j : Json, Printable (render j)
  | null => by decide
  | bool true => by decide
  | bool false => by decide
  | num n => printable_text n
  | str s => printable_quote s.toList
  | arr items => .append (.cons (by decide) (printable_renderItems items)) (by decide)
  | obj members => .append (.cons (by decide) (printable_renderMembers members)) (by decide)

theorem printable_renderItems : ∀ js : List Json, Printable (renderItems js)
  | [] => printable_nil
  | [j] => printable_render j
  | j :: k :: js =>
    .append (printable_render j) (.cons (by decide) (printable_renderItems (k :: js)))

theorem printable_renderMembers : ∀ ms : List (String × Json), Printable (renderMembers ms)
  | [] => printable_nil
  | [(name, j)] => .append (printable_quote name.toList) (.cons (by decide) (printable_render j))
  | (name, j) :: m :: ms =>
    .append (.append (printable_quote name.toList) (.cons (by decide) (printable_render j)))
      (.cons (by decide) (printable_renderMembers (m :: ms)))

end

end Json

end Tack.Lib

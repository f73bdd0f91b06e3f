import Tack.Lib.ByteOrder

/-!
# Base 64 texts

The standard alphabet with padding, and the alphabet for URLs without.  The readers skip line breaks
and accept any bits in the padding.

## Main definitions

* `Lib.base64Encode`.
* `Lib.base64RawURLEncode`, `Lib.base64RawURLDecode`.

## Main results

* `Lib.base64RawURLDecode_base64RawURLEncode` — reading what was
  written gives the bytes back.
-/

namespace Tack.Lib

/-- The digits of base 64. -/
def base64Alphabet : List Char :=
  "ABCDEFGHIJKLMNOPQRSTUVWXYZabcdefghijklmnopqrstuvwxyz0123456789+/".toList

/-- The digit of `n < 64`. -/
def base64Char (n : ℕ) : Char := base64Alphabet.getD n 'A'

/-- The value of a digit. -/
def base64Value (c : Char) : Option ℕ :=
  if c ∈ base64Alphabet then some (base64Alphabet.idxOf c) else none

/-- Four digits for three bytes; a shorter last group is padded. -/
def base64Encode : List Byte → List Char
  | [] => []
  | [a] => [base64Char (a / 4), base64Char (a % 4 * 16), '=', '=']
  | [a, b] =>
    [base64Char (a / 4), base64Char (a % 4 * 16 + b / 16), base64Char (b % 16 * 4), '=']
  | a :: b :: c :: rest =>
    base64Char (a / 4) :: base64Char (a % 4 * 16 + b / 16) :: base64Char (b % 16 * 4 + c / 64) ::
      base64Char (c % 64) :: base64Encode rest

/-- The bytes of groups of four digits. -/
def base64Groups : List Char → Option (List Byte)
  | [] => some []
  | [p, q, '=', '='] => do
    let p ← base64Value p
    let q ← base64Value q
    return [Fin.ofNat 256 (p * 4 + q / 16)]
  | [p, q, r, '='] => do
    let p ← base64Value p
    let q ← base64Value q
    let r ← base64Value r
    return [Fin.ofNat 256 (p * 4 + q / 16), Fin.ofNat 256 (q % 16 * 16 + r / 4)]
  | p :: q :: r :: s :: rest => do
    let p ← base64Value p
    let q ← base64Value q
    let r ← base64Value r
    let s ← base64Value s
    let bytes ← base64Groups rest
    return Fin.ofNat 256 (p * 4 + q / 16) :: Fin.ofNat 256 (q % 16 * 16 + r / 4) ::
      Fin.ofNat 256 (r % 4 * 64 + s) :: bytes
  | _ => none

theorem base64Value_base64Char : ∀ n < 64, base64Value (base64Char n) = some n := by
  decide +kernel

theorem base64Char_ne : ∀ n < 64, base64Char n ≠ '=' ∧ base64Char n ≠ '\n' ∧
    base64Char n ≠ '\r' := by
  decide +kernel

theorem byte_ofNat_eq {b : Byte} {n : ℕ} (h : n = b.val) : Fin.ofNat 256 n = b := by
  subst h
  exact Fin.ofNat_val_eq_self b

theorem base64Groups_base64Encode (bytes : List Byte) :
    base64Groups (base64Encode bytes) = some bytes := by
  induction bytes using base64Encode.induct with
  | case1 => rfl
  | case2 a =>
    have ha := a.isLt
    simp only [base64Encode, base64Groups, base64Value_base64Char _ (by omega : a.val / 4 < 64),
      base64Value_base64Char _ (by omega : a.val % 4 * 16 < 64), Option.bind_eq_bind,
      Option.bind_some, Option.pure_def]
    rw [byte_ofNat_eq (b := a) (by omega)]
  | case3 a b =>
    have ha := a.isLt
    have hb := b.isLt
    have hpad := (base64Char_ne (b.val % 16 * 4) (by omega)).1
    rw [base64Encode, base64Groups.eq_3 _ _ _ hpad]
    simp only [base64Value_base64Char _ (by omega : a.val / 4 < 64),
      base64Value_base64Char _ (by omega : a.val % 4 * 16 + b.val / 16 < 64),
      base64Value_base64Char _ (by omega : b.val % 16 * 4 < 64), Option.bind_eq_bind,
      Option.bind_some, Option.pure_def]
    rw [byte_ofNat_eq (b := a) (by omega), byte_ofNat_eq (b := b) (by omega)]
  | case4 a b c rest ih =>
    have ha := a.isLt
    have hb := b.isLt
    have hc := c.isLt
    have hpad := (base64Char_ne (c.val % 64) (by omega)).1
    rw [base64Encode, base64Groups.eq_4 _ _ _ _ _ (fun _ h _ => hpad h) (fun h _ => hpad h)]
    simp only [base64Value_base64Char _ (by omega : a.val / 4 < 64),
      base64Value_base64Char _ (by omega : a.val % 4 * 16 + b.val / 16 < 64),
      base64Value_base64Char _ (by omega : b.val % 16 * 4 + c.val / 64 < 64),
      base64Value_base64Char _ (by omega : c.val % 64 < 64), ih, Option.bind_eq_bind,
      Option.bind_some, Option.pure_def]
    rw [byte_ofNat_eq (b := a) (by omega), byte_ofNat_eq (b := b) (by omega),
      byte_ofNat_eq (b := c) (by omega)]

/-! ### The alphabet for URLs, without padding -/

/-- The digit for URLs of a standard digit. -/
def base64URLChar (c : Char) : Char := if c = '+' then '-' else if c = '/' then '_' else c

/-- The standard digit of a digit for URLs. -/
def base64StdChar (c : Char) : Option Char :=
  if c = '-' then some '+'
  else if c = '_' then some '/'
  else if c = '+' ∨ c = '/' ∨ c = '=' then none
  else some c

/-- A text without its padding, in the alphabet for URLs. -/
def base64RawURLEncode (bytes : List Byte) : List Char :=
  ((base64Encode bytes).filter (· != '=')).map base64URLChar

/-- The padding that completes the last group. -/
def base64Padding (length : ℕ) : List Char := List.replicate ((4 - length % 4) % 4) '='

/-- The bytes of a text in the alphabet for URLs, with line breaks skipped. -/
def base64RawURLDecode (cs : List Char) : Option (List Byte) :=
  ((cs.filter fun c => c != '\n' && c != '\r').mapM base64StdChar).bind fun digits =>
    base64Groups (digits ++ base64Padding digits.length)

theorem base64Padding_add_four (n : ℕ) : base64Padding (n + 4) = base64Padding n := by
  rw [base64Padding, Nat.add_mod_right, base64Padding]

theorem filter_append_base64Padding (bytes : List Byte) :
    (base64Encode bytes).filter (· != '=') ++
      base64Padding ((base64Encode bytes).filter (· != '=')).length = base64Encode bytes := by
  have hdigit : ∀ n < 64, (base64Char n != '=') = true := fun n hn => by
    simpa using (base64Char_ne n hn).1
  induction bytes using base64Encode.induct with
  | case1 => rfl
  | case2 a =>
    have ha := a.isLt
    simp [base64Encode, hdigit _ (by omega : a.val / 4 < 64),
      hdigit _ (by omega : a.val % 4 * 16 < 64), base64Padding]
  | case3 a b =>
    have ha := a.isLt
    have hb := b.isLt
    simp [base64Encode, hdigit _ (by omega : a.val / 4 < 64),
      hdigit _ (by omega : a.val % 4 * 16 + b.val / 16 < 64),
      hdigit _ (by omega : b.val % 16 * 4 < 64), base64Padding]
  | case4 a b c rest ih =>
    have ha := a.isLt
    have hb := b.isLt
    have hc := c.isLt
    simp only [base64Encode, List.filter_cons, hdigit _ (by omega : a.val / 4 < 64),
      hdigit _ (by omega : a.val % 4 * 16 + b.val / 16 < 64),
      hdigit _ (by omega : b.val % 16 * 4 + c.val / 64 < 64),
      hdigit _ (by omega : c.val % 64 < 64), if_true, List.length_cons, List.cons_append,
      base64Padding_add_four, ih]

theorem mem_base64Encode {bytes : List Byte} {c : Char} (h : c ∈ base64Encode bytes) :
    c = '=' ∨ ∃ n < 64, c = base64Char n := by
  induction bytes using base64Encode.induct with
  | case1 => cases h
  | case2 a =>
    have ha := a.isLt
    simp only [base64Encode, List.mem_cons, List.not_mem_nil, or_false] at h
    rcases h with rfl | rfl | rfl | rfl
    · exact .inr ⟨_, by omega, rfl⟩
    · exact .inr ⟨_, by omega, rfl⟩
    · exact .inl rfl
    · exact .inl rfl
  | case3 a b =>
    have ha := a.isLt
    have hb := b.isLt
    simp only [base64Encode, List.mem_cons, List.not_mem_nil, or_false] at h
    rcases h with rfl | rfl | rfl | rfl
    · exact .inr ⟨_, by omega, rfl⟩
    · exact .inr ⟨_, by omega, rfl⟩
    · exact .inr ⟨_, by omega, rfl⟩
    · exact .inl rfl
  | case4 a b c' rest ih =>
    have ha := a.isLt
    have hb := b.isLt
    have hc := c'.isLt
    simp only [base64Encode, List.mem_cons] at h
    rcases h with rfl | rfl | rfl | rfl | h
    · exact .inr ⟨_, by omega, rfl⟩
    · exact .inr ⟨_, by omega, rfl⟩
    · exact .inr ⟨_, by omega, rfl⟩
    · exact .inr ⟨_, by omega, rfl⟩
    · exact ih h

theorem base64StdChar_base64URLChar : ∀ n < 64,
    base64StdChar (base64URLChar (base64Char n)) = some (base64Char n) ∧
      base64URLChar (base64Char n) ≠ '\n' ∧ base64URLChar (base64Char n) ≠ '\r' := by
  decide +kernel

/-- A list whose elements are all read back is read back. -/
theorem mapM_map_eq_some {α β : Type*} {f : β → Option α} {g : α → β} {l : List α}
    (h : ∀ a ∈ l, f (g a) = some a) : (l.map g).mapM f = some l := by
  induction l with
  | nil => rfl
  | cons a l ih =>
    rw [List.map_cons, List.mapM_cons, h a (by simp), ih fun b hb => h b (by simp [hb])]
    rfl

@[simp] theorem base64RawURLDecode_base64RawURLEncode (bytes : List Byte) :
    base64RawURLDecode (base64RawURLEncode bytes) = some bytes := by
  have hdigit : ∀ c ∈ (base64Encode bytes).filter (· != '='), ∃ n < 64, c = base64Char n := by
    intro c hc
    obtain ⟨hmem, hne⟩ := List.mem_filter.mp hc
    exact (mem_base64Encode hmem).resolve_left (by simpa using hne)
  have hkeep : (base64RawURLEncode bytes).filter (fun c => c != '\n' && c != '\r') =
      base64RawURLEncode bytes := by
    refine List.filter_eq_self.mpr fun c hc => ?_
    obtain ⟨d, hd, rfl⟩ := List.mem_map.mp hc
    obtain ⟨n, hn, rfl⟩ := hdigit d hd
    simp [(base64StdChar_base64URLChar n hn).2]
  have hmap : (base64RawURLEncode bytes).mapM base64StdChar =
      some ((base64Encode bytes).filter (· != '=')) := by
    refine mapM_map_eq_some fun c hc => ?_
    obtain ⟨n, hn, rfl⟩ := hdigit c hc
    exact (base64StdChar_base64URLChar n hn).1
  rw [base64RawURLDecode, hkeep, hmap, Option.bind_some, filter_append_base64Padding,
    base64Groups_base64Encode]

theorem base64RawURLEncode_injective : Function.Injective base64RawURLEncode := fun a b h => by
  have hread := congrArg base64RawURLDecode h
  rw [base64RawURLDecode_base64RawURLEncode, base64RawURLDecode_base64RawURLEncode] at hread
  exact Option.some.inj hread

end Tack.Lib

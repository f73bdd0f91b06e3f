import Tack.Lib.Base64
import Tack.Lib.Json
import Tack.Lib.Uuid

/-!
# Fields read from JSON

`encoding/json` matches the name of a member without regard to case, keeps a field when the value is
`null`, and refuses a value of another type.

## Main definitions

* `Lib.foldName` — a name up to case.
* `Lib.readString`, `Lib.readUint`, `Lib.readInt`, `Lib.readUUID` — a value stored in a field.
-/

namespace Tack.Lib

/-- A character up to the case of an ASCII letter.  The long s and the Kelvin sign fold to ASCII
letters too. -/
def foldChar (c : Char) : Char :=
  if c = 'ſ' then 's' else if c = 'K' then 'k' else c.toLower

def foldName (name : String) : List Char := name.toList.map foldChar

/-- Stores a string. -/
def readString {α : Type} (v : Json) (old : α) (set : String → α) : Option α :=
  match v with
  | .str s => some (set s)
  | .null => some old
  | _ => none

/-- The digits of an integer literal without sign. -/
def uintValue (cs : List Char) : Option ℕ :=
  if isDigits cs then some (Nat.ofDigitChars 10 cs 0) else none

/-- Stores an unsigned integer of `bits` bits. -/
def readUint {α : Type} (bits : ℕ) (v : Json) (old : α) (set : ℕ → α) : Option α :=
  match v with
  | .num lit => (uintValue lit.text).bind fun n => if n < 2 ^ bits then some (set n) else none
  | .null => some old
  | _ => none

/-- The value of an integer literal. -/
def intValue : List Char → Option ℤ
  | '-' :: cs => Option.map (fun n : ℕ => -(n : ℤ)) (uintValue cs)
  | cs => Option.map (fun n : ℕ => (n : ℤ)) (uintValue cs)

/-- Stores a signed integer of `bits + 1` bits. -/
def readInt {α : Type} (bits : ℕ) (v : Json) (old : α) (set : ℤ → α) : Option α :=
  match v with
  | .num lit =>
    (intValue lit.text).bind fun n => if -2 ^ bits ≤ n ∧ n < 2 ^ bits then some (set n) else none
  | .null => some old
  | _ => none

/-- Stores a UUID. -/
def readUUID {α : Type} (v : Json) (old : α) (set : UUID → α) : Option α :=
  match v with
  | .str s => (UUID.parse s).map set
  | .null => some old
  | _ => none

/-! ### Written values are read back -/

theorem uintValue_toDigits (n : ℕ) : uintValue (Nat.toDigits 10 n) = some n := by
  have hdigits : isDigits (Nat.toDigits 10 n) = true := by
    rw [isDigits, Bool.and_eq_true, List.all_eq_true]
    refine ⟨?_, fun c hc => isDigit_of_mem_toDigits hc⟩
    simp [Nat.toDigits_ne_nil]
  rw [uintValue, if_pos hdigits, Nat.ofDigitChars_ten_toDigits]

theorem readUint_ofInt {α : Type} {bits n : ℕ} (h : n < 2 ^ bits) (old : α) (set : ℕ → α) :
    readUint bits (.num (.ofInt n)) old set = some (set n) := by
  have htext : (NumLit.ofInt n).text = Nat.toDigits 10 n := by
    simp [NumLit.ofInt]
  rw [readUint, htext, uintValue_toDigits, Option.bind_some, if_pos h]

theorem readInt_ofInt {α : Type} {bits : ℕ} {n : ℤ} (h : -2 ^ bits ≤ n ∧ n < 2 ^ bits) (old : α)
    (set : ℤ → α) : readInt bits (.num (.ofInt n)) old set = some (set n) := by
  have hvalue : intValue (NumLit.ofInt n).text = some n := by
    rw [NumLit.ofInt]
    simp only
    split
    · rw [intValue, uintValue_toDigits, Option.map_some]
      congr 1
      omega
    · rw [intValue.eq_2 _ (toDigits_ne_minus_cons _), uintValue_toDigits, Option.map_some]
      congr 1
      omega
  rw [readInt, hvalue, Option.bind_some, if_pos h]

end Tack.Lib

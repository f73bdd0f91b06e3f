import Tack.Lib.Float64

/-!
# Integers in decimal

`strconv.FormatInt` and `strconv.ParseInt` in base ten for 64 bits.

## Main definitions

* `Lib.formatInt64`, `Lib.parseInt64`.

## Main results

* `Lib.parseInt64_formatInt64` — reading what was written gives the integer back.
-/

namespace Tack.Lib

/-- The digits of an integer, after a minus if it is negative. -/
def formatInt64 (n : Int64) : List Char :=
  if n.toInt < 0 then '-' :: Nat.toDigits 10 n.toInt.natAbs else Nat.toDigits 10 n.toInt.natAbs

/-- The sign of a text, and what stands after it. -/
def splitSign : List Char → Bool × List Char
  | '-' :: cs => (true, cs)
  | '+' :: cs => (false, cs)
  | cs => (false, cs)

/-- The integer of a text; `none` when it has anything but digits after its sign or is out of
range. -/
def parseInt64 (cs : List Char) : Option Int64 :=
  let (neg, digits) := splitSign cs
  if digits = [] ∨ !digits.all Char.isDigit then none
  else if neg then
    if digitsValue digits ≤ 2 ^ 63 then some (Int64.ofInt (-digitsValue digits)) else none
  else if digitsValue digits < 2 ^ 63 then some (Int64.ofInt (digitsValue digits)) else none

theorem splitSign_of_isDigit {cs : List Char} (h : ∀ c ∈ cs, c.isDigit = true) :
    splitSign cs = (false, cs) := by
  unfold splitSign
  split
  · exact absurd (h '-' (by simp)) (by decide)
  · exact absurd (h '+' (by simp)) (by decide)
  · rfl

/-- **Reading what was written gives the integer back.** -/
theorem parseInt64_formatInt64 (n : Int64) : parseInt64 (formatInt64 n) = some n := by
  have hlow := n.le_toInt
  have hhigh := n.toInt_lt
  have hall : (Nat.toDigits 10 n.toInt.natAbs).all Char.isDigit = true :=
    List.all_eq_true.mpr fun c hc => isDigit_of_mem_toDigits hc
  have hne : Nat.toDigits 10 n.toInt.natAbs ≠ [] := Nat.toDigits_ne_nil
  unfold formatInt64
  split_ifs with hneg
  · have hvalue : (-(n.toInt.natAbs : ℤ)) = n.toInt := by omega
    simp only [parseInt64, splitSign, hne, hall, digitsValue_toDigits, hvalue]
    simp
    omega
  · have hvalue : (n.toInt.natAbs : ℤ) = n.toInt := by omega
    rw [parseInt64, splitSign_of_isDigit fun c hc => isDigit_of_mem_toDigits hc]
    simp only [hne, hall, digitsValue_toDigits, hvalue]
    simp
    omega

end Tack.Lib

import Mathlib
import Tack.Lib.Json

/-!
# Number literals as binary64

The finite numbers of binary64, the number nearest to a decimal literal and the shortest literal of a
number.  A magnitude is given by its place among the finite magnitudes, from zero up, which is the
number that its 63 low bits spell; `Lib.units` is the magnitude at a place, as a multiple of the
smallest positive one.

## Main definitions

* `Lib.Float64` — a sign and the place of a finite magnitude.
* `Lib.NumLit.toFloat` — the number nearest to a literal, ties to even; `none` when it overflows.
* `Lib.Float64.toNumLit` — the shortest literal that reads as the number, with an exponent only for
  magnitudes below `10 ^ -6` or from `10 ^ 21` on.

## Main results

* `Lib.Float64.toFloat_toNumLit` — the literal of a number reads as that number.
* `Lib.toFloat_ofInt_injOn` — the integers up to `2 ^ 53` are exact.
-/

namespace Tack.Lib

/-! ### Magnitudes -/

/-- The smallest positive magnitude is `2 ^ -unitExponent`. -/
def unitExponent : ℕ := 1074

/-- The magnitude at a place, in units of the smallest positive one. -/
def units (rank : ℕ) : ℕ :=
  if rank < 2 ^ 52 then rank else (2 ^ 52 + rank % 2 ^ 52) * 2 ^ (rank / 2 ^ 52 - 1)

/-- The nearest natural number, ties to even. -/
def roundEven (q : ℚ) : ℕ :=
  let n := ⌊q⌋₊
  if q - n < 1 / 2 then n else if 1 / 2 < q - n then n + 1 else n + n % 2

/-- The place of the magnitude nearest to `q` units, ties to even. -/
def rankOf (q : ℚ) : ℕ :=
  let shift := Nat.log2 ⌊q⌋₊ - 52
  shift * 2 ^ 52 + roundEven (q / 2 ^ shift)

theorem roundEven_natCast (n : ℕ) : roundEven n = n := by
  simp [roundEven]

theorem roundEven_eq (q : ℚ) : roundEven q = ⌊q⌋₊ ∨ roundEven q = ⌊q⌋₊ + 1 := by
  rw [roundEven]
  split_ifs
  · exact .inl rfl
  · exact .inr rfl
  · omega

/-- A magnitude with a full significand. -/
theorem units_of_significand {m s : ℕ} (hm : 2 ^ 52 ≤ m) (hm' : m < 2 ^ 53) :
    units (s * 2 ^ 52 + m) = m * 2 ^ s := by
  have hmod : (s * 2 ^ 52 + m) % 2 ^ 52 = m - 2 ^ 52 := by omega
  have hdiv : (s * 2 ^ 52 + m) / 2 ^ 52 = s + 1 := by omega
  rw [units, if_neg (by omega), hmod, hdiv, Nat.add_sub_cancel' hm, Nat.add_sub_cancel]

/-- Every place is that of a small magnitude or of one with a full significand. -/
theorem rank_cases (rank : ℕ) : rank < 2 ^ 52 ∨
    ∃ m s, 2 ^ 52 ≤ m ∧ m < 2 ^ 53 ∧ rank = s * 2 ^ 52 + m := by
  rcases Nat.lt_or_ge rank (2 ^ 52) with h | h
  · exact .inl h
  · exact .inr ⟨2 ^ 52 + rank % 2 ^ 52, rank / 2 ^ 52 - 1, by omega, by omega, by omega⟩

/-- **A magnitude is its own nearest.** -/
theorem rankOf_units (rank : ℕ) : rankOf (units rank : ℚ) = rank := by
  rw [rankOf, Nat.floor_natCast]
  rcases rank_cases rank with hsmall | ⟨m, s, hm, hm', rfl⟩
  · have hunits : units rank = rank := if_pos hsmall
    have hlog : Nat.log2 rank - 52 = 0 := by
      rcases Nat.eq_zero_or_pos rank with rfl | hpos
      · decide
      · have := (Nat.log2_lt (k := 52) (by omega)).mpr hsmall
        omega
    simp only [hunits, hlog, pow_zero, div_one, zero_mul, zero_add, roundEven_natCast]
  · have hne : m * 2 ^ s ≠ 0 := Nat.mul_ne_zero (by omega) (by positivity)
    have hlog : Nat.log2 (m * 2 ^ s) = 52 + s := by
      refine (Nat.log2_eq_iff hne).mpr ⟨?_, ?_⟩
      · rw [pow_add]
        exact Nat.mul_le_mul_right _ hm
      · rw [show 52 + s + 1 = 53 + s by omega, pow_add]
        exact Nat.mul_lt_mul_of_pos_right hm' (by positivity)
    have hdiv : ((m * 2 ^ s : ℕ) : ℚ) / 2 ^ s = m := by
      rw [Nat.cast_mul, Nat.cast_pow, Nat.cast_ofNat, mul_div_assoc, div_self (by positivity),
        mul_one]
    simp only [units_of_significand hm hm', hlog, Nat.add_sub_cancel_left, hdiv, roundEven_natCast]

variable {n rank : ℕ} {x : Float64} {ds : List Char} {c : Char}

/-- The units of an integer. -/
theorem exists_units_eq (hn : n ≤ 2 ^ 53) : ∃ rank, units rank = n * 2 ^ unitExponent := by
  rcases Nat.eq_zero_or_pos n with rfl | hpos
  · exact ⟨0, by simp [units]⟩
  · -- scale the significand of `n` up to 53 bits
    have hlog : Nat.log2 n ≤ 53 := by
      have := (Nat.log2_lt (n := n) (k := 54) (by omega)).mpr (by omega)
      omega
    rcases Nat.lt_or_ge n (2 ^ 53) with hlt | hge
    · have hlog' : Nat.log2 n < 53 := (Nat.log2_lt (by omega)).mpr hlt
      obtain ⟨hlo, hhi⟩ := (Nat.log2_eq_iff (n := n) (by omega)).mp rfl
      generalize Nat.log2 n = k at *
      refine ⟨(1022 + k) * 2 ^ 52 + n * 2 ^ (52 - k), ?_⟩
      have hpow : 2 ^ k * 2 ^ (52 - k) = 2 ^ 52 := by
        rw [← pow_add]
        congr 1
        omega
      have hpow' : 2 ^ (k + 1) * 2 ^ (52 - k) = 2 ^ 53 := by
        rw [← pow_add]
        congr 1
        omega
      rw [units_of_significand]
      · rw [mul_assoc, ← pow_add, show 52 - k + (1022 + k) = unitExponent by
          rw [unitExponent]
          omega]
      · rw [← hpow]
        exact Nat.mul_le_mul_right _ hlo
      · rw [← hpow']
        exact Nat.mul_lt_mul_of_pos_right hhi (by positivity)
    · have heq : n = 2 ^ 53 := by omega
      refine ⟨1075 * 2 ^ 52 + 2 ^ 52, ?_⟩
      rw [units_of_significand le_rfl (by omega), heq, ← pow_add, ← pow_add,
        show 52 + 1075 = 53 + unitExponent from rfl]

/-! ### Reading a literal -/

/-- The number that decimal digits spell. -/
def digitsValue (cs : List Char) : ℕ := Nat.ofDigitChars 10 cs 0

/-- The digits of an exponent as a reader of binary64 numbers takes them: from `10000` on it takes no
more. -/
def readExponent (cs : List Char) : ℕ :=
  cs.foldl (fun e c => if e < 10000 then 10 * e + (c.toNat - '0'.toNat) else e) 0

/-- The number of an exponent text, with its digits taken by `value`. -/
def exponentValue (value : List Char → ℕ) : List Char → ℤ
  | [] => 0
  | _ :: '-' :: cs => -(value cs : ℤ)
  | _ :: '+' :: cs => value cs
  | _ :: cs => value cs

/-- The digits after the point. -/
def fractionDigits : List Char → List Char
  | '.' :: cs => cs.takeWhile Char.isDigit
  | _ => []

/-- What follows the fraction. -/
def afterFraction : List Char → List Char
  | '.' :: cs => cs.dropWhile Char.isDigit
  | cs => cs

/-- The value of a literal without sign, with the digits of its exponent taken by `value`. -/
def decimalValue (value : List Char → ℕ) (cs : List Char) : ℚ :=
  let rest := cs.dropWhile Char.isDigit
  let fraction := fractionDigits rest
  digitsValue (cs.takeWhile Char.isDigit ++ fraction) *
    (10 : ℚ) ^ (exponentValue value (afterFraction rest) - fraction.length)

/-- A finite binary64 number. -/
structure Float64 where
  neg : Bool
  /-- The place of the magnitude among the finite ones. -/
  rank : ℕ
  finite : rank < 2047 * 2 ^ 52
  deriving DecidableEq

theorem Float64.ext {y : Float64} (hneg : x.neg = y.neg) (hrank : x.rank = y.rank) : x = y := by
  cases x; cases y; cases hneg; cases hrank; rfl

/-- The place of the magnitude nearest to a value. -/
def nearestRank (q : ℚ) : ℕ := rankOf (q * 2 ^ unitExponent)

/-- The number nearest to a signed value; `none` when it overflows. -/
def Float64.ofValue (neg : Bool) (q : ℚ) : Option Float64 :=
  if h : nearestRank q < 2047 * 2 ^ 52 then some ⟨neg, nearestRank q, h⟩ else none

/-- The number nearest to a literal; `none` when it overflows. -/
def NumLit.toFloat (n : NumLit) : Option Float64 :=
  Float64.ofValue (n.text.head? == some '-') (decimalValue readExponent (dropMinus n.text))

theorem Float64.ofValue_eq_some {neg : Bool} {q : ℚ} :
    Float64.ofValue neg q = some x ↔ x.neg = neg ∧ x.rank = nearestRank q := by
  unfold Float64.ofValue
  constructor
  · intro h
    split at h
    · cases h
      exact ⟨rfl, rfl⟩
    · cases h
  · rintro ⟨hneg, hrank⟩
    rw [dif_pos (hrank ▸ x.finite), Option.some.injEq]
    exact Float64.ext hneg.symm hrank.symm

theorem takeWhile_isDigit (h : ∀ c ∈ ds, c.isDigit = true) (rest : List Char)
    (hrest : ∀ c, rest.head? = some c → c.isDigit = false) :
    (ds ++ rest).takeWhile Char.isDigit = ds ∧ (ds ++ rest).dropWhile Char.isDigit = rest := by
  have htake : rest.takeWhile Char.isDigit = [] ∧ rest.dropWhile Char.isDigit = rest := by
    cases rest with
    | nil => exact ⟨rfl, rfl⟩
    | cons c cs =>
      have hc := hrest c rfl
      exact ⟨List.takeWhile_cons_of_neg (by simp [hc]), List.dropWhile_cons_of_neg (by simp [hc])⟩
  constructor
  · rw [List.takeWhile_append_of_pos h, htake.1, List.append_nil]
  · rw [List.dropWhile_append_of_pos h, htake.2]

/-- The value of a literal by its parts. -/
theorem decimalValue_append (value : List Char → ℕ) (ds rest : List Char) (hds : ∀ c ∈ ds, c.isDigit = true)
    (hrest : ∀ c, rest.head? = some c → c.isDigit = false) :
    decimalValue value (ds ++ rest) = digitsValue (ds ++ fractionDigits rest) *
      (10 : ℚ) ^ (exponentValue value (afterFraction rest) - (fractionDigits rest).length) := by
  obtain ⟨htake, hdrop⟩ := takeWhile_isDigit hds rest hrest
  rw [decimalValue, htake, hdrop]

theorem decimalValue_toDigits (value : List Char → ℕ) (n : ℕ) :
    decimalValue value (Nat.toDigits 10 n) = n := by
  have h := decimalValue_append value (Nat.toDigits 10 n) [] (fun c hc => isDigit_of_mem_toDigits hc)
    (by simp)
  rw [List.append_nil] at h
  rw [h]
  simp [fractionDigits, afterFraction, exponentValue, digitsValue, Nat.ofDigitChars_ten_toDigits]

/-- An integer reads as the number nearest to it. -/
theorem toFloat_ofInt (n : ℤ) :
    (NumLit.ofInt n).toFloat = Float64.ofValue (decide (n < 0)) n.natAbs := by
  have hhead : (Nat.toDigits 10 n.natAbs).head? ≠ some '-' := by
    intro h
    obtain ⟨cs, hcs⟩ := List.head?_eq_some_iff.mp h
    exact toDigits_ne_minus_cons _ _ hcs
  rw [NumLit.toFloat, NumLit.ofInt]
  by_cases hn : n < 0
  · simp only [hn, if_true, List.head?_cons, dropMinus, decimalValue_toDigits]
    rfl
  · simp only [hn, if_false, dropMinus.eq_2 _ (toDigits_ne_minus_cons _), decimalValue_toDigits,
      beq_eq_false_iff_ne.mpr hhead, decide_false]

theorem units_nearestRank (hn : n ≤ 2 ^ 53) :
    units (nearestRank n) = n * 2 ^ unitExponent := by
  obtain ⟨rank, hrank⟩ := exists_units_eq hn
  have hcast : (n : ℚ) * 2 ^ unitExponent = (units rank : ℚ) := by
    rw [hrank, Nat.cast_mul, Nat.cast_pow, Nat.cast_ofNat]
  rw [nearestRank, hcast, rankOf_units, hrank]

/-- **The integers up to `2 ^ 53` are exact.** -/
theorem toFloat_ofInt_injOn {a b : ℤ} (ha : a.natAbs ≤ 2 ^ 53) (hb : b.natAbs ≤ 2 ^ 53) (hxa : (NumLit.ofInt a).toFloat = some x)
    (hxb : (NumLit.ofInt b).toFloat = some x) : a = b := by
  rw [toFloat_ofInt, Float64.ofValue_eq_some] at hxa hxb
  have habs : a.natAbs = b.natAbs := by
    have h : a.natAbs * 2 ^ unitExponent = b.natAbs * 2 ^ unitExponent := by
      rw [← units_nearestRank ha, ← units_nearestRank hb, ← hxa.2, ← hxb.2]
    exact Nat.eq_of_mul_eq_mul_right (by positivity) h
  have hsign : decide (a < 0) = decide (b < 0) := by rw [← hxa.1, ← hxb.1]
  rw [decide_eq_decide] at hsign
  omega

/-- A magnitude has at most 53 significant bits after its shift. -/
theorem rankOf_natCast_le (n : ℕ) : rankOf n ≤ (Nat.log2 n - 52) * 2 ^ 52 + 2 ^ 53 := by
  rw [rankOf, Nat.floor_natCast]
  refine Nat.add_le_add_left ?_ _
  have hfloor : ⌊(n : ℚ) / 2 ^ (Nat.log2 n - 52)⌋₊ = n / 2 ^ (Nat.log2 n - 52) := by
    have h := Nat.floor_div_eq_div (K := ℚ) n (2 ^ (Nat.log2 n - 52))
    rwa [Nat.cast_pow, Nat.cast_ofNat] at h
  have hlt : n / 2 ^ (Nat.log2 n - 52) < 2 ^ 53 := by
    rw [Nat.div_lt_iff_lt_mul (by positivity), ← pow_add]
    exact lt_of_lt_of_le Nat.lt_log2_self (Nat.pow_le_pow_right (by decide) (by omega))
  rcases roundEven_eq ((n : ℚ) / 2 ^ (Nat.log2 n - 52)) with heq | heq
  · rw [heq, hfloor]
    exact hlt.le
  · rw [heq, hfloor]
    exact hlt

/-- The integers of 64 bits do not overflow. -/
theorem exists_toFloat_ofInt {a : ℤ} (ha : a.natAbs ≤ 2 ^ 64) :
    ∃ x, (NumLit.ofInt a).toFloat = some x := by
  have hrank : nearestRank a.natAbs < 2047 * 2 ^ 52 := by
    have hcast : (a.natAbs : ℚ) * 2 ^ unitExponent = ((a.natAbs * 2 ^ unitExponent : ℕ) : ℚ) := by
      rw [Nat.cast_mul, Nat.cast_pow, Nat.cast_ofNat]
    have hlog : Nat.log2 (a.natAbs * 2 ^ unitExponent) ≤ 64 + unitExponent := by
      rcases Nat.eq_zero_or_pos a.natAbs with h0 | hpos
      · simp [h0]
      · have hne : a.natAbs * 2 ^ unitExponent ≠ 0 := by positivity
        have hlt := (Nat.log2_lt (k := 65 + unitExponent) hne).mpr (by
          rw [pow_add]
          exact Nat.mul_lt_mul_of_pos_right (by omega) (by positivity))
        omega
    have hle := rankOf_natCast_le (a.natAbs * 2 ^ unitExponent)
    have hexp : 64 + unitExponent = 1138 := rfl
    rw [nearestRank, hcast]
    omega
  exact ⟨_, by rw [toFloat_ofInt, Float64.ofValue, dif_pos hrank]⟩

/-! ### The shortest literal -/

/-- The value of a magnitude. -/
def rankValue (rank : ℕ) : ℚ := units rank / 2 ^ unitExponent

/-- The multiple of `10 ^ p` that reads as the magnitude, the nearer one if there are two. -/
def decimalAt (rank : ℕ) (p : ℤ) : Option ℕ :=
  let scaled := rankValue rank / (10 : ℚ) ^ p
  let low := ⌊scaled⌋₊
  let reads (n : ℕ) : Bool := nearestRank (n * (10 : ℚ) ^ p) == rank
  if reads low && reads (low + 1) then some (roundEven scaled)
  else if reads low then some low
  else if reads (low + 1) then some (low + 1)
  else none

/-- The exponents that a shortest literal may have, from the largest. -/
def decimalExponents : List ℤ := (List.range 1384).map fun i : ℕ => 309 - (i : ℤ)

/-- The shortest decimal number `n * 10 ^ p` that reads as the magnitude. -/
def shortestDecimal (rank : ℕ) : ℕ × ℤ :=
  (decimalExponents.findSome? fun p => (decimalAt rank p).map fun n => (n, p)).getD (0, 0)

theorem nearestRank_rankValue (rank : ℕ) : nearestRank (rankValue rank) = rank := by
  rw [nearestRank, rankValue, div_mul_cancel₀ _ (by positivity), rankOf_units]

theorem decimalAt_reads {p : ℤ} (h : decimalAt rank p = some n) :
    nearestRank (n * (10 : ℚ) ^ p) = rank := by
  simp only [decimalAt, Bool.and_eq_true, beq_iff_eq] at h
  split_ifs at h with hboth hlow hhigh
  · cases h
    rcases roundEven_eq (rankValue rank / (10 : ℚ) ^ p) with heq | heq
    · rw [heq]
      exact hboth.1
    · rw [heq]
      exact hboth.2
  · cases h
    exact hlow
  · cases h
    exact hhigh

/-- Every magnitude is a multiple of `10 ^ -unitExponent`. -/
theorem decimalAt_unitExponent (rank : ℕ) : decimalAt rank (-(unitExponent : ℤ)) ≠ none := by
  have hscaled : rankValue rank / (10 : ℚ) ^ (-(unitExponent : ℤ)) =
      ((units rank * 5 ^ unitExponent : ℕ) : ℚ) := by
    have hten : (10 : ℚ) ^ unitExponent = 2 ^ unitExponent * 5 ^ unitExponent := by
      rw [← mul_pow]
      norm_num
    rw [rankValue, zpow_neg, zpow_natCast, div_inv_eq_mul, hten, ← mul_assoc,
      div_mul_cancel₀ _ (by positivity)]
    push_cast
    rfl
  have hreads : nearestRank
      ((⌊rankValue rank / (10 : ℚ) ^ (-(unitExponent : ℤ))⌋₊ : ℚ) *
        (10 : ℚ) ^ (-(unitExponent : ℤ))) = rank := by
    rw [hscaled, Nat.floor_natCast, ← hscaled, div_mul_cancel₀ _ (zpow_ne_zero _ (by norm_num)),
      nearestRank_rankValue]
  simp only [decimalAt, hreads, beq_self_eq_true, Bool.true_and, if_true]
  split_ifs <;> simp

/-- The shortest decimal number of a magnitude reads as it. -/
theorem shortestDecimal_reads (rank : ℕ) :
    nearestRank ((shortestDecimal rank).1 * (10 : ℚ) ^ (shortestDecimal rank).2) = rank := by
  have hsome : (decimalExponents.findSome? fun p =>
      (decimalAt rank p).map fun n => (n, p)) ≠ none := by
    rw [Ne, List.findSome?_eq_none_iff]
    intro hnone
    have hmem : -(unitExponent : ℤ) ∈ decimalExponents :=
      List.mem_map.mpr ⟨1383, by simp, by rw [unitExponent]; norm_num⟩
    exact decimalAt_unitExponent rank (Option.map_eq_none_iff.mp (hnone _ hmem))
  obtain ⟨r, hr⟩ := Option.ne_none_iff_exists'.mp hsome
  rw [shortestDecimal, hr, Option.getD_some]
  obtain ⟨p, -, hp⟩ := List.exists_of_findSome?_eq_some hr
  obtain ⟨n, hn, rfl⟩ := Option.map_eq_some_iff.mp hp
  exact decimalAt_reads hn

theorem nearestRank_zero : nearestRank 0 = 0 := by
  simpa [nearestRank, units] using rankOf_units 0

theorem shortestDecimal_pos (h : rank ≠ 0) : 0 < (shortestDecimal rank).1 := by
  by_contra hzero
  have hn : (shortestDecimal rank).1 = 0 := by omega
  have hreads := shortestDecimal_reads rank
  rw [hn, Nat.cast_zero, zero_mul, nearestRank_zero] at hreads
  exact h hreads.symm

/-! ### The text of a literal -/

/-- The decimal digits of `n * 10 ^ p` without an exponent. -/
def plainDigits (n : ℕ) (p : ℤ) : List Char :=
  let ds := Nat.toDigits 10 n
  if 0 ≤ p then ds ++ List.replicate p.toNat '0'
  else
    let places := (-p).toNat
    if places < ds.length then
      ds.take (ds.length - places) ++ '.' :: ds.drop (ds.length - places)
    else '0' :: '.' :: List.replicate (places - ds.length) '0' ++ ds

/-- The text of an exponent. -/
def exponentText (e : ℤ) : List Char :=
  'e' :: (if e < 0 then '-' else '+') :: Nat.toDigits 10 e.natAbs

/-- The digits of `n * 10 ^ p` with one digit before the point and an exponent. -/
def exponentDigits (n : ℕ) (p : ℤ) : List Char :=
  let ds := Nat.toDigits 10 n
  let fraction := if ds.length = 1 then [] else '.' :: ds.tail
  ds.take 1 ++ fraction ++ exponentText (p + (ds.length - 1 : ℕ))

/-- The shortest text of a magnitude. -/
def magnitudeText (rank : ℕ) : List Char :=
  if rank = 0 then ['0']
  else
    let decimal := shortestDecimal rank
    if rank < nearestRank (1 / 10 ^ 6) ∨ nearestRank (10 ^ 21) ≤ rank then
      exponentDigits decimal.1 decimal.2
    else plainDigits decimal.1 decimal.2

theorem digitsValue_append (ds es : List Char) :
    digitsValue (ds ++ es) = 10 ^ es.length * digitsValue ds + digitsValue es := by
  rw [digitsValue, Nat.ofDigitChars_append, Nat.ofDigitChars_eq_ofDigitChars_zero]
  rfl

theorem digitsValue_toDigits (n : ℕ) : digitsValue (Nat.toDigits 10 n) = n :=
  Nat.ofDigitChars_ten_toDigits

theorem digitsValue_zeros (k : ℕ) : digitsValue (List.replicate k '0') = 0 := by
  rw [digitsValue, Nat.ofDigitChars_replicate_zero, mul_zero]

theorem isDigit_of_mem_zeros {k : ℕ} (h : c ∈ List.replicate k '0') :
    c.isDigit = true := by
  rw [List.eq_of_mem_replicate h]
  decide

theorem decimalValue_plainDigits (value : List Char → ℕ) (n : ℕ) (p : ℤ) :
    decimalValue value (plainDigits n p) = n * (10 : ℚ) ^ p := by
  have hds : ∀ c ∈ Nat.toDigits 10 n, c.isDigit = true := fun c hc => isDigit_of_mem_toDigits hc
  have hvalue := digitsValue_toDigits n
  have hpoint : ∀ (cs : List Char) (c : Char), ('.' :: cs).head? = some c → c.isDigit = false := by
    intro cs c hc
    cases hc
    decide
  rw [plainDigits]
  generalize Nat.toDigits 10 n = ds at *
  simp only
  split_ifs with hp hplaces
  · -- the digits are followed by zeros
    have h := decimalValue_append value (ds ++ List.replicate p.toNat '0') []
      (fun c hc => (List.mem_append.mp hc).elim (hds c) isDigit_of_mem_zeros) (by simp)
    rw [List.append_nil] at h
    rw [h, fractionDigits.eq_2 _ (by simp), List.append_nil, digitsValue_append, digitsValue_zeros,
      hvalue, List.length_replicate]
    simp only [afterFraction, exponentValue, List.length_nil, Nat.cast_zero, sub_zero, zpow_zero,
      mul_one, add_zero]
    rw [Nat.cast_mul, Nat.cast_pow, Nat.cast_ofNat, mul_comm, ← zpow_natCast,
      Int.toNat_of_nonneg hp]
  · -- the point is among the digits
    have hdrop : ∀ c ∈ ds.drop (ds.length - (-p).toNat), c.isDigit = true :=
      fun c hc => hds c (List.mem_of_mem_drop hc)
    obtain ⟨htake, hafter⟩ := takeWhile_isDigit hdrop [] (by simp)
    rw [List.append_nil] at htake hafter
    rw [decimalValue_append _ _ _ (fun c hc => hds c (List.mem_of_mem_take hc)) (hpoint _)]
    simp only [fractionDigits, afterFraction, htake, hafter, List.take_append_drop, hvalue,
      exponentValue, List.length_drop]
    congr 2
    omega
  · -- zeros come before the digits
    have hfraction : ∀ c ∈ List.replicate ((-p).toNat - ds.length) '0' ++ ds, c.isDigit = true :=
      fun c hc => (List.mem_append.mp hc).elim isDigit_of_mem_zeros (hds c)
    obtain ⟨htake, hafter⟩ := takeWhile_isDigit hfraction [] (by simp)
    rw [List.append_nil] at htake hafter
    have h := decimalValue_append value ['0']
      ('.' :: (List.replicate ((-p).toNat - ds.length) '0' ++ ds)) (by simp) (hpoint _)
    rw [List.singleton_append] at h
    rw [List.cons_append, List.cons_append, h]
    simp only [fractionDigits, afterFraction, htake, hafter, exponentValue, List.length_append,
      List.length_replicate]
    rw [digitsValue_append, digitsValue_append, digitsValue_zeros, hvalue]
    have hlen : (0 : ℤ) - (((-p).toNat - ds.length + ds.length : ℕ) : ℤ) = p := by omega
    rw [hlen]
    simp [digitsValue, Nat.ofDigitChars]

theorem readExponent_concat (ds : List Char) (c : Char) : readExponent (ds ++ [c]) =
    if readExponent ds < 10000 then 10 * readExponent ds + (c.toNat - '0'.toNat) else readExponent ds := by
  rw [readExponent, List.foldl_append]
  rfl

/-- Exponents of five digits are taken as they are. -/
theorem readExponent_eq (h : digitsValue ds < 100000) :
    readExponent ds = digitsValue ds := by
  induction ds using List.reverseRecOn with
  | nil => rfl
  | append_singleton ds c ih =>
    have hvalue : digitsValue (ds ++ [c]) = 10 * digitsValue ds + (c.toNat - '0'.toNat) := by
      rw [digitsValue_append]
      simp [digitsValue, Nat.ofDigitChars]
    rw [hvalue] at h ⊢
    rw [readExponent_concat, ih (by omega), if_pos (by omega)]

theorem exponentValue_exponentText {e : ℤ} (h : e.natAbs < 100000) :
    exponentValue readExponent (exponentText e) = e := by
  have hread : readExponent (Nat.toDigits 10 e.natAbs) = e.natAbs := by
    rw [readExponent_eq (by rwa [digitsValue_toDigits]), digitsValue_toDigits]
  rw [exponentText]
  split_ifs with he
  · rw [exponentValue, hread]
    omega
  · rw [exponentValue, hread]
    omega

theorem head?_exponentText (e : ℤ) (hc : (exponentText e).head? = some c) :
    c.isDigit = false := by
  cases hc
  decide

theorem decimalValue_exponentDigits {p : ℤ} (hexp : (p + ((Nat.toDigits 10 n).length - 1 : ℕ)).natAbs < 100000) :
    decimalValue readExponent (exponentDigits n p) = n * (10 : ℚ) ^ p := by
  have hds : ∀ c ∈ Nat.toDigits 10 n, c.isDigit = true := fun c hc => isDigit_of_mem_toDigits hc
  have hvalue := digitsValue_toDigits n
  obtain ⟨d, ds, hcons⟩ := List.exists_cons_of_ne_nil (Nat.toDigits_ne_nil (b := 10) (n := n))
  rw [exponentDigits]
  rw [hcons] at hds hvalue hexp ⊢
  rw [List.length_cons, Nat.add_sub_cancel] at hexp
  simp only [List.take_succ_cons, List.take_zero, List.length_cons, Nat.add_sub_cancel,
    List.tail_cons, Nat.add_eq_right, List.length_eq_zero_iff, List.append_assoc]
  have hd : ∀ c ∈ [d], c.isDigit = true := fun c hc => hds c (List.mem_singleton.mp hc ▸ by simp)
  split_ifs with hnil
  · subst hnil
    rw [List.nil_append, decimalValue_append _ _ _ hd fun c hc => head?_exponentText _ hc]
    change digitsValue [d] * (10 : ℚ) ^ (exponentValue readExponent (exponentText _) - 0) = _
    rw [hvalue, exponentValue_exponentText hexp]
    simp
  · obtain ⟨htake, hafter⟩ := takeWhile_isDigit
      (fun c hc => hds c (List.mem_cons_of_mem d hc)) (exponentText (p + (ds.length : ℤ)))
      (fun c hc => head?_exponentText _ hc)
    rw [decimalValue_append _ [d] ('.' :: ds ++ exponentText _) hd (by simp)]
    simp only [List.cons_append, fractionDigits, afterFraction, htake, hafter,
      exponentValue_exponentText hexp, List.nil_append, hvalue, add_sub_cancel_right]

/-! ### The texts are literals -/

/-- A literal starts with its integer digits. -/
theorem isUnsigned_append {d : Char} (ds rest : List Char) (hd : d.isDigit = true) (hne : d ≠ '0')
    (hds : ∀ c ∈ ds, c.isDigit = true) (hrest : ∀ c, rest.head? = some c → c.isDigit = false) :
    isUnsigned (d :: ds ++ rest) = isFraction rest := by
  rw [List.cons_append, isUnsigned.eq_2 _ _ hne, hd, (takeWhile_isDigit hds rest hrest).2,
    Bool.true_and]

theorem isFraction_point (rest : List Char) (hne : ds ≠ []) (hds : ∀ c ∈ ds, c.isDigit = true)
    (hrest : ∀ c, rest.head? = some c → c.isDigit = false) :
    isFraction ('.' :: (ds ++ rest)) = isExponent rest := by
  obtain ⟨htake, hdrop⟩ := takeWhile_isDigit hds rest hrest
  have hempty : ds.isEmpty = false := by simpa using hne
  rw [isFraction, htake, hdrop, hempty, Bool.not_false, Bool.true_and]

theorem isExponent_exponentText (e : ℤ) : isExponent (exponentText e) = true := by
  have hdigits : isDigits (Nat.toDigits 10 e.natAbs) = true := by
    have hne : (Nat.toDigits 10 e.natAbs).isEmpty = false := by
      simp
    rw [isDigits, hne, Bool.not_false, Bool.true_and, List.all_eq_true]
    exact fun c hc => isDigit_of_mem_toDigits hc
  rw [exponentText]
  split_ifs
  · simpa [isExponent] using hdigits
  · simpa [isExponent] using hdigits

/-- The digits of a positive number, its leading digit not zero. -/
theorem exists_toDigits_eq (hn : 0 < n) : ∃ d ds, Nat.toDigits 10 n = d :: ds ∧
    d.isDigit = true ∧ d ≠ '0' ∧ ∀ c ∈ ds, c.isDigit = true := by
  obtain ⟨d, ds, hcons⟩ := List.exists_cons_of_ne_nil (Nat.toDigits_ne_nil (b := 10) (n := n))
  have hds : ∀ c ∈ d :: ds, c.isDigit = true := fun c hc => isDigit_of_mem_toDigits (hcons ▸ hc)
  refine ⟨d, ds, hcons, hds d List.mem_cons_self, ?_, fun c hc => hds c (List.mem_cons_of_mem d hc)⟩
  rintro rfl
  exact head?_toDigits_ne hn (by rw [hcons, List.head?_cons])

theorem isUnsigned_plainDigits (hn : 0 < n) (p : ℤ) :
    isUnsigned (plainDigits n p) = true := by
  obtain ⟨d, ds, hcons, hd, hne, hds⟩ := exists_toDigits_eq hn
  rw [plainDigits, hcons]
  simp only
  split_ifs with hp hplaces
  · have h := isUnsigned_append (ds ++ List.replicate p.toNat '0') [] hd hne
      (fun c hc => (List.mem_append.mp hc).elim (hds c) isDigit_of_mem_zeros) (by simp)
    rw [List.append_nil] at h
    rw [List.cons_append, h]
    rfl
  · -- the point is among the digits
    rw [List.length_cons] at hplaces
    obtain ⟨k, hk⟩ : ∃ k, (d :: ds).length - (-p).toNat = k + 1 :=
      ⟨ds.length - (-p).toNat, by rw [List.length_cons]; omega⟩
    have hlt : k < ds.length := by
      rw [List.length_cons] at hk
      omega
    have hdrop : ∀ c ∈ ds.drop k, c.isDigit = true := fun c hc => hds c (List.mem_of_mem_drop hc)
    have hpoint := isFraction_point [] (by simpa using hlt) hdrop (by simp)
    rw [List.append_nil] at hpoint
    rw [hk, List.take_succ_cons, List.drop_succ_cons,
      isUnsigned_append _ _ hd hne (fun c hc => hds c (List.mem_of_mem_take hc)) (by simp), hpoint]
    rfl
  · -- zeros come before the digits
    have hfraction : ∀ c ∈ List.replicate ((-p).toNat - (d :: ds).length) '0' ++ d :: ds,
        c.isDigit = true := by
      intro c hc
      rcases List.mem_append.mp hc with hc | hc
      · exact isDigit_of_mem_zeros hc
      · exact (List.mem_cons.mp hc).elim (fun h => h ▸ hd) (hds c)
    have hpoint := isFraction_point [] (by simp) hfraction (by simp)
    rw [List.append_nil] at hpoint
    rw [List.cons_append, List.cons_append, isUnsigned, hpoint]
    rfl

theorem isUnsigned_exponentDigits (hn : 0 < n) (p : ℤ) :
    isUnsigned (exponentDigits n p) = true := by
  obtain ⟨d, ds, hcons, hd, hne, hds⟩ := exists_toDigits_eq hn
  rw [exponentDigits, hcons]
  simp only [List.take_succ_cons, List.take_zero, List.length_cons, Nat.add_eq_right,
    List.length_eq_zero_iff, List.tail_cons, List.append_assoc]
  split_ifs with hnil
  · rw [List.nil_append, isUnsigned_append [] _ hd hne (by simp) fun c hc => head?_exponentText _ hc]
    exact isExponent_exponentText _
  · rw [isUnsigned_append [] ('.' :: ds ++ exponentText _) hd hne (by simp) (by simp),
      List.cons_append, isFraction_point _ hnil hds fun c hc => head?_exponentText _ hc,
      isExponent_exponentText]

theorem isNumChar_of_isDigit (h : c.isDigit = true) : isNumChar c = true := by
  rw [isNumChar, h, Bool.true_or]

theorem all_isNumChar_plainDigits (n : ℕ) (p : ℤ) : (plainDigits n p).all isNumChar = true := by
  have hds : ∀ c ∈ Nat.toDigits 10 n, isNumChar c = true := fun c hc =>
    isNumChar_of_isDigit (isDigit_of_mem_toDigits hc)
  have hzeros : ∀ k, ∀ c ∈ List.replicate k '0', isNumChar c = true := fun k c hc =>
    isNumChar_of_isDigit (isDigit_of_mem_zeros hc)
  rw [plainDigits, List.all_eq_true]
  simp only
  intro c hc
  split_ifs at hc
  · exact (List.mem_append.mp hc).elim (hds c) (hzeros _ c)
  · rcases List.mem_append.mp hc with hc | hc
    · exact hds c (List.mem_of_mem_take hc)
    · rcases List.mem_cons.mp hc with rfl | hc
      · decide
      · exact hds c (List.mem_of_mem_drop hc)
  · simp only [List.cons_append, List.mem_cons] at hc
    rcases hc with rfl | rfl | hc
    · decide
    · decide
    · exact (List.mem_append.mp hc).elim (hzeros _ c) (hds c)

theorem all_isNumChar_exponentDigits (n : ℕ) (p : ℤ) :
    (exponentDigits n p).all isNumChar = true := by
  have hds : ∀ c ∈ Nat.toDigits 10 n, isNumChar c = true := fun c hc =>
    isNumChar_of_isDigit (isDigit_of_mem_toDigits hc)
  rw [exponentDigits, List.all_eq_true]
  simp only [exponentText, List.append_assoc, List.mem_append, List.mem_cons]
  rintro c (hc | hc | rfl | rfl | hc)
  · exact hds c (List.mem_of_mem_take hc)
  · split_ifs at hc
    · cases hc
    · rcases List.mem_cons.mp hc with rfl | hc
      · decide
      · exact hds c (List.mem_of_mem_tail hc)
  · decide
  · split_ifs <;> decide
  · exact isNumChar_of_isDigit (isDigit_of_mem_toDigits hc)

/-! ### The exponents of shortest literals -/

/-- The shortest decimal number has as many digits as the value at the smallest exponent at most. -/
theorem shortestDecimal_le {v : ℕ} (hv : rankValue rank ≤ v) :
    (shortestDecimal rank).1 ≤ v * 10 ^ unitExponent + 1 ∧ (shortestDecimal rank).2.natAbs ≤ 1074 := by
  rw [shortestDecimal]
  cases hfound : decimalExponents.findSome? fun p => (decimalAt rank p).map fun n => (n, p) with
  | none => simp
  | some r =>
    obtain ⟨p, hp, hr⟩ := List.exists_of_findSome?_eq_some hfound
    obtain ⟨n, hn, rfl⟩ := Option.map_eq_some_iff.mp hr
    obtain ⟨i, hi, rfl⟩ := List.mem_map.mp hp
    rw [List.mem_range] at hi
    rw [Option.getD_some]
    refine ⟨?_, by omega⟩
    have hscaled : rankValue rank / (10 : ℚ) ^ (309 - (i : ℤ)) ≤ (v * 10 ^ unitExponent : ℕ) := by
      have hpow : ((10 : ℚ) ^ (309 - (i : ℤ)))⁻¹ ≤ 10 ^ unitExponent := by
        rw [← zpow_neg, ← zpow_natCast]
        exact zpow_le_zpow_right₀ (by norm_num) (by rw [unitExponent]; omega)
      rw [div_eq_mul_inv]
      push_cast
      exact mul_le_mul hv hpow (inv_nonneg.mpr (zpow_nonneg (by norm_num) _)) (Nat.cast_nonneg v)
    have hfloor : ⌊rankValue rank / (10 : ℚ) ^ (309 - (i : ℤ))⌋₊ ≤ v * 10 ^ unitExponent :=
      Nat.floor_le_of_le hscaled
    simp only [decimalAt] at hn
    split_ifs at hn
    · cases hn
      rcases roundEven_eq (rankValue rank / (10 : ℚ) ^ (309 - (i : ℤ))) with h | h <;> omega
    · cases hn
      omega
    · cases hn
      omega

/-- The value of a finite magnitude. -/
theorem rankValue_le (h : rank < 2047 * 2 ^ 52) : rankValue rank ≤ (2 ^ 1024 : ℕ) := by
  have hunits : units rank ≤ 2 ^ 1024 * 2 ^ unitExponent := by
    rw [units]
    split_ifs with hsmall
    · exact hsmall.le.trans (by rw [← pow_add]; exact Nat.pow_le_pow_right (by omega) (by omega))
    · have hsignificand : 2 ^ 52 + rank % 2 ^ 52 ≤ 2 ^ 53 := by omega
      have hunit : unitExponent = 1074 := rfl
      have hshift : rank / 2 ^ 52 - 1 ≤ unitExponent + 971 := by omega
      calc (2 ^ 52 + rank % 2 ^ 52) * 2 ^ (rank / 2 ^ 52 - 1)
          ≤ 2 ^ 53 * 2 ^ (unitExponent + 971) :=
            Nat.mul_le_mul hsignificand (Nat.pow_le_pow_right (by omega) hshift)
        _ = 2 ^ 1024 * 2 ^ unitExponent := by
          rw [← pow_add, ← pow_add]
          congr 1
  rw [rankValue, div_le_iff₀ (by positivity)]
  exact_mod_cast hunits

/-- The exponent of the shortest literal of a finite magnitude is a short number. -/
theorem natAbs_exponent_lt (h : rank < 2047 * 2 ^ 52) : ((shortestDecimal rank).2 +
    ((Nat.toDigits 10 (shortestDecimal rank).1).length - 1 : ℕ)).natAbs < 100000 := by
  obtain ⟨hle, hp⟩ := shortestDecimal_le (rankValue_le h)
  have hdigits : (Nat.toDigits 10 (shortestDecimal rank).1).length ≤ 1024 + unitExponent + 1 := by
    refine (Nat.length_toDigits_le_iff (by omega) (by omega)).mpr (lt_of_le_of_lt hle ?_)
    have hpow : 1 ≤ 10 ^ (1024 + unitExponent) := Nat.one_le_pow _ _ (by omega)
    calc 2 ^ 1024 * 10 ^ unitExponent + 1 ≤ 10 ^ 1024 * 10 ^ unitExponent + 1 := by
          gcongr
          omega
      _ = 10 ^ (1024 + unitExponent) + 1 := by rw [← Nat.pow_add]
      _ < 10 ^ (1024 + unitExponent + 1) := by
        rw [Nat.pow_succ]
        omega
  have hunit : unitExponent = 1074 := rfl
  omega

/-- The text of a magnitude is a literal. -/
theorem isUnsigned_magnitudeText (rank : ℕ) : (magnitudeText rank).all isNumChar = true ∧
    isUnsigned (magnitudeText rank) = true := by
  rw [magnitudeText]
  split_ifs with hzero hexponent
  · exact ⟨by decide, by decide⟩
  · exact ⟨all_isNumChar_exponentDigits _ _, isUnsigned_exponentDigits (shortestDecimal_pos hzero) _⟩
  · exact ⟨all_isNumChar_plainDigits _ _, isUnsigned_plainDigits (shortestDecimal_pos hzero) _⟩

/-- The text of a finite magnitude reads as it. -/
theorem magnitudeText_reads (hfinite : rank < 2047 * 2 ^ 52) :
    nearestRank (decimalValue readExponent (magnitudeText rank)) = rank := by
  rw [magnitudeText]
  split_ifs with hzero hexponent
  · have hvalue : decimalValue readExponent ['0'] = 0 := by
      simpa [Nat.toDigits_zero] using decimalValue_toDigits readExponent 0
    rw [hvalue, nearestRank_zero, hzero]
  · rw [decimalValue_exponentDigits (natAbs_exponent_lt hfinite), shortestDecimal_reads]
  · rw [decimalValue_plainDigits, shortestDecimal_reads]

theorem head?_ne_minus_of_isUnsigned {cs : List Char} (h : isUnsigned cs = true) :
    cs.head? ≠ some '-' := by
  intro hhead
  obtain ⟨rest, rfl⟩ := List.head?_eq_some_iff.mp hhead
  rw [isUnsigned.eq_2 _ _ (by decide)] at h
  exact absurd (Bool.and_eq_true_iff.mp h).1 (by decide)

theorem dropMinus_of_head? {cs : List Char} (h : cs.head? ≠ some '-') : dropMinus cs = cs :=
  dropMinus.eq_2 cs fun _ hcs => h (by rw [hcs, List.head?_cons])

namespace Float64

/-- The shortest literal of a number. -/
def toNumLit (x : Float64) : NumLit where
  text := if x.neg then '-' :: magnitudeText x.rank else magnitudeText x.rank
  valid := by
    obtain ⟨hall, hu⟩ := isUnsigned_magnitudeText x.rank
    split
    · rw [isNumber, List.all_cons, hall, Bool.and_true, Bool.and_eq_true]
      exact ⟨by decide, hu⟩
    · rw [isNumber, hall, dropMinus_of_head? (head?_ne_minus_of_isUnsigned hu), hu, Bool.and_true]

/-- **The literal of a number reads as that number.** -/
theorem toFloat_toNumLit (x : Float64) : x.toNumLit.toFloat = some x := by
  have hu := (isUnsigned_magnitudeText x.rank).2
  have hreads := magnitudeText_reads x.finite
  have hhead := head?_ne_minus_of_isUnsigned hu
  have htext : x.toNumLit.text =
      if x.neg then '-' :: magnitudeText x.rank else magnitudeText x.rank := rfl
  rw [NumLit.toFloat, Float64.ofValue_eq_some, htext]
  cases x.neg with
  | true => exact ⟨rfl, by rw [if_pos rfl, dropMinus, hreads]⟩
  | false =>
    simp only [Bool.false_eq_true, if_false, dropMinus_of_head? hhead, hreads, and_true]
    exact (beq_eq_false_iff_ne.mpr hhead).symm

end Float64

/-! ### The length of a literal -/

theorem length_plainDigits_le (n : ℕ) (p : ℤ) :
    (plainDigits n p).length ≤ (Nat.toDigits 10 n).length + p.natAbs + 2 := by
  simp only [plainDigits]
  split_ifs
  · simp
    omega
  · simp
    omega
  · simp
    omega

theorem length_toDigits_le_succ (n : ℕ) : (Nat.toDigits 10 n).length ≤ n + 1 :=
  (Nat.length_toDigits_le_iff (by omega) (by omega)).mpr
    (lt_of_lt_of_le (Nat.lt_pow_self (by omega)) (Nat.pow_le_pow_right (by omega) (by omega)))

theorem length_exponentDigits_le (n : ℕ) (p : ℤ) :
    (exponentDigits n p).length ≤ 2 * (Nat.toDigits 10 n).length + p.natAbs + 5 := by
  have hexp := length_toDigits_le_succ (p + ((Nat.toDigits 10 n).length - 1 : ℕ)).natAbs
  simp only [exponentDigits, exponentText]
  split_ifs <;> simp <;> omega

/-- The text of an integer in the exact range is short. -/
theorem length_magnitudeText_le (hn : n ≤ 2 ^ 53) :
    (magnitudeText (nearestRank n)).length ≤ 4000 := by
  have hvalue : rankValue (nearestRank n) ≤ (n : ℕ) := by
    rw [rankValue, units_nearestRank hn]
    push_cast
    rw [mul_div_cancel_right₀ _ (by positivity)]
  obtain ⟨hle, hp⟩ := shortestDecimal_le hvalue
  have hunit : unitExponent = 1074 := rfl
  have hdigits : (Nat.toDigits 10 (shortestDecimal (nearestRank n)).1).length ≤
      16 + unitExponent + 1 := by
    refine (Nat.length_toDigits_le_iff (by omega) (by omega)).mpr (lt_of_le_of_lt hle ?_)
    have hpow : 1 ≤ 10 ^ (16 + unitExponent) := Nat.one_le_pow _ _ (by omega)
    calc n * 10 ^ unitExponent + 1 ≤ 10 ^ 16 * 10 ^ unitExponent + 1 := by gcongr; omega
      _ = 10 ^ (16 + unitExponent) + 1 := by rw [← Nat.pow_add]
      _ < 10 ^ (16 + unitExponent + 1) := by
        rw [Nat.pow_succ]
        omega
  have hplain := length_plainDigits_le (shortestDecimal (nearestRank n)).1
    (shortestDecimal (nearestRank n)).2
  have hexponent := length_exponentDigits_le (shortestDecimal (nearestRank n)).1
    (shortestDecimal (nearestRank n)).2
  unfold magnitudeText
  split_ifs
  · simp
  · exact le_trans hexponent (by omega)
  · exact le_trans hplain (by omega)

end Tack.Lib

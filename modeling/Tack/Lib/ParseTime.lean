import Mathlib
import Tack.Lib.Rfc3339

/-!
# Instants read from text

`time.Parse` with the layout of RFC 3339 and nanoseconds: years of four digits, hours of one or two,
a fraction after a point or a comma with any number of digits, of which nine count, and zones up to
and including 24:60.

## Main definitions

* `Lib.Time.parseRFC3339Nano` — the instant of a text.
* `Lib.Time.wholeMinutes` — the time with its zone cut to the whole minutes that a text has.

## Main results

* `Lib.Time.parseRFC3339Nano_rfc3339Nano` — the text of an instant in UTC is read back when its year
  has four digits.
* `Lib.Time.parseRFC3339Nano_eq_none` — the text of any other year is not read.
-/

namespace Tack.Lib

/-! ### Dates of the calendar -/

def isLeap (year : ℤ) : Bool := year % 4 == 0 && (year % 100 != 0 || year % 400 == 0)

/-- The number of days of a month. -/
def daysIn (month : ℕ) (year : ℤ) : ℕ :=
  if month = 2 then if isLeap year then 29 else 28
  else if month ∈ [4, 6, 9, 11] then 30
  else 31

/-- A date that the calendar has. -/
def Date.valid (date : Date) : Bool :=
  decide (1 ≤ date.month ∧ date.month ≤ 12 ∧ 1 ≤ date.day ∧ date.day ≤ daysIn date.month date.year)

/-- The calendar has the date of every day. -/
theorem valid_dateOfDay (day : ℤ) : (dateOfDay day).valid = true := by
  refine decide_eq_true ?_
  simp only [dateOfDay]
  generalize (day + 306) / 146097 = era
  have hera : ((day + 306) % 146097).toNat < 146097 := by omega
  generalize ((day + 306) % 146097).toNat = dayOfEra at *
  have hcentury : 36524 * min (dayOfEra / 36524) 3 ≤ dayOfEra ∧ min (dayOfEra / 36524) 3 ≤ 3 ∧
      (dayOfEra - 36524 * min (dayOfEra / 36524) 3 < 36524 ∨ min (dayOfEra / 36524) 3 = 3) ∧
      dayOfEra - 36524 * min (dayOfEra / 36524) 3 < 36525 := by omega
  generalize min (dayOfEra / 36524) 3 = century at *
  obtain ⟨dayOfCentury, hdoc⟩ : ∃ n, dayOfEra = 36524 * century + n :=
    ⟨dayOfEra - 36524 * century, by omega⟩
  rw [hdoc, Nat.add_sub_cancel_left] at hcentury ⊢
  have hdol : dayOfCentury = 1461 * (dayOfCentury / 1461) + dayOfCentury % 1461 := by omega
  have hdol' : dayOfCentury % 1461 < 1461 := by omega
  generalize dayOfCentury / 1461 = leap at *
  generalize dayOfCentury % 1461 = dayOfLeap at *
  have hyear : 365 * min (dayOfLeap / 365) 3 ≤ dayOfLeap ∧ min (dayOfLeap / 365) 3 ≤ 3 ∧
      (dayOfLeap - 365 * min (dayOfLeap / 365) 3 < 365 ∨ min (dayOfLeap / 365) 3 = 3) ∧
      dayOfLeap - 365 * min (dayOfLeap / 365) 3 < 366 := by omega
  generalize min (dayOfLeap / 365) 3 = year at *
  obtain ⟨dayOfYear, hdoy⟩ : ∃ n, dayOfLeap = 365 * year + n := ⟨dayOfLeap - 365 * year, by omega⟩
  rw [hdoy, Nat.add_sub_cancel_left] at hyear ⊢
  -- the year has a day 365 only when its February has 29 days
  have hleap : dayOfYear = 365 →
      isLeap (400 * era + ((100 * century + 4 * leap + year : ℕ) : ℤ) + 1) = true := by
    intro hlast
    simp only [isLeap, Bool.and_eq_true, Bool.or_eq_true, beq_iff_eq, bne_iff_ne]
    omega
  have hmonth : (5 * dayOfYear + 2) / 153 < 12 ∧ 153 * ((5 * dayOfYear + 2) / 153) ≤
      5 * dayOfYear + 2 ∧ 5 * dayOfYear + 2 < 153 * ((5 * dayOfYear + 2) / 153) + 153 := by omega
  generalize (5 * dayOfYear + 2) / 153 = month at *
  have hbound : dayOfYear < 366 := hyear.2.2.2
  generalize 400 * era + ((100 * century + 4 * leap + year : ℕ) : ℤ) = marchYear at *
  clear hdoy hyear hdol hdol' hdoc hcentury hera
  obtain ⟨hlt, hlow, hhigh⟩ := hmonth
  by_cases hfeb : month = 11
  · subst hfeb
    simp only [daysIn]
    norm_num
    split_ifs with h
    · omega
    · have : dayOfYear ≠ 365 := fun hlast => h (hleap hlast)
      omega
  · interval_cases month
    all_goals simp only [daysIn]; norm_num
    all_goals omega

/-! ### Reading -/

/-- A number of two digits; unless the width is fixed, also of one. -/
def getnum (fixed : Bool) : List Char → Option (ℕ × List Char)
  | c :: d :: rest =>
    if !c.isDigit then none
    else if d.isDigit then some (digitsValue [c, d], rest)
    else if fixed then none
    else some (digitsValue [c], d :: rest)
  | [c] => if c.isDigit && !fixed then some (digitsValue [c], []) else none
  | [] => none

/-- A year of four digits. -/
def getYear (cs : List Char) : Option (ℕ × List Char) :=
  if (cs.take 4).length = 4 ∧ (cs.take 4).all Char.isDigit then
    some (digitsValue (cs.take 4), cs.drop 4)
  else none

/-- The rest after an expected character. -/
def skipChar (c : Char) : List Char → Option (List Char)
  | d :: rest => if d = c then some rest else none
  | [] => none

/-- The nanoseconds of the digits of a fraction; digits from the tenth on do not count. -/
def parseNanoseconds (digits : List Char) : ℕ :=
  digitsValue (digits.take 9) * 10 ^ (9 - (digits.take 9).length)

/-- A fraction, if there is one. -/
def getFraction : List Char → ℕ × List Char
  | p :: d :: rest =>
    if (p = '.' ∨ p = ',') ∧ d.isDigit then
      (parseNanoseconds ((d :: rest).takeWhile Char.isDigit), (d :: rest).dropWhile Char.isDigit)
    else (0, p :: d :: rest)
  | cs => (0, cs)

/-- A zone in seconds east of UTC: `Z`, or a sign with hours and minutes. -/
def getZone : List Char → Option (ℤ × List Char)
  | 'Z' :: rest => some (0, rest)
  | sign :: h1 :: h2 :: ':' :: m1 :: m2 :: rest => do
    let (hour, _) ← getnum true [h1, h2]
    let (minute, _) ← getnum true [m1, m2]
    if hour > 24 ∨ minute > 60 then none
    else if sign = '+' then some (((hour * 60 + minute) * 60 : ℕ), rest)
    else if sign = '-' then some (-((hour * 60 + minute) * 60 : ℕ), rest)
    else none
  | _ => none

/-- A date as the layout writes it; the calendar need not have it. -/
def getDate (value : List Char) : Option (Date × List Char) := do
  let (year, value) ← getYear value
  let value ← skipChar '-' value
  let (month, value) ← getnum true value
  let value ← skipChar '-' value
  let (day, value) ← getnum true value
  return (⟨year, month, day⟩, value)

/-- The seconds of a time of day. -/
def getClock (value : List Char) : Option (ℕ × List Char) := do
  let (hour, value) ← getnum false value
  let value ← skipChar ':' value
  let (minute, value) ← getnum true value
  let value ← skipChar ':' value
  let (sec, value) ← getnum true value
  if hour < 24 ∧ minute < 60 ∧ sec < 60 then return (hour * 3600 + minute * 60 + sec, value)
  else none

/-- `time.Parse(time.RFC3339Nano, value)`. -/
def Time.parseRFC3339Nano (value : List Char) : Option Time := do
  let (date, value) ← getDate value
  let value ← skipChar 'T' value
  let (secs, value) ← getClock value
  let (nsec, value) := getFraction value
  let (zone, value) ← getZone value
  if value = [] ∧ date.valid then
    return ⟨dayOfDate date * dayNanos + ((secs : ℤ) - zone) * second + nsec, zone⟩
  else none

/-! ### Reading what was written -/

theorem padded_two : ∀ n < 100, padded 2 n = [Nat.digitChar (n / 10), Nat.digitChar (n % 10)] := by
  decide +kernel

theorem getnum_padded (fixed : Bool) {n : ℕ} (hn : n < 100) (rest : List Char) :
    getnum fixed (padded 2 n ++ rest) = some (n, rest) := by
  have hmem : ∀ c ∈ [Nat.digitChar (n / 10), Nat.digitChar (n % 10)], c.isDigit = true := by
    intro c hc
    rw [← padded_two n hn] at hc
    exact isDigit_of_mem_padded hc
  have hvalue := digitsValue_padded 2 n
  rw [padded_two n hn] at hvalue ⊢
  simp only [List.mem_cons, List.not_mem_nil, or_false, forall_eq_or_imp, forall_eq] at hmem
  simp [getnum, hmem.1, hmem.2, hvalue]

theorem getYear_yearText {year : ℤ} (h0 : 0 ≤ year) (h1 : year ≤ 9999) (rest : List Char) :
    getYear (yearText year ++ rest) = some (year.natAbs, rest) := by
  have hlen : (padded 4 year.natAbs).length = 4 := length_padded (by omega) (by omega)
  have hall : (padded 4 year.natAbs).all Char.isDigit = true :=
    List.all_eq_true.mpr fun c hc => isDigit_of_mem_padded hc
  rw [yearText, if_neg (by omega), getYear, List.take_left' hlen, List.drop_left' hlen,
    if_pos ⟨hlen, hall⟩, digitsValue_padded]

/-- A year that has not four digits is not read. -/
theorem getYear_skip_eq_none {year : ℤ} (h : year < 0 ∨ 9999 < year) (rest : List Char) :
    (getYear (yearText year ++ rest)).bind (fun r => skipChar '-' r.2) = none := by
  rcases h with hneg | hbig
  · rw [yearText, if_pos hneg, getYear, if_neg]
    · rfl
    · simp
  · have hlen : 4 < (padded 4 year.natAbs).length := by
      have hdigits := Nat.length_toDigits_le_iff (n := year.natAbs) (b := 10) (k := 4) (by omega)
        (by omega)
      simp only [padded, List.leftpad, List.length_append, List.length_replicate]
      omega
    obtain ⟨front, c, back, hsplit, hfour⟩ : ∃ front c back, padded 4 year.natAbs =
        front ++ c :: back ∧ front.length = 4 := by
      refine ⟨(padded 4 year.natAbs).take 4, (padded 4 year.natAbs)[4],
        (padded 4 year.natAbs).drop 5, ?_, by rw [List.length_take]; omega⟩
      rw [List.getElem_cons_drop, List.take_append_drop]
    have hc : c ≠ '-' := by
      rintro rfl
      have hmem : '-' ∈ padded 4 year.natAbs := by simp [hsplit]
      exact absurd (isDigit_of_mem_padded hmem) (by decide)
    rw [yearText, if_neg (by omega), getYear, hsplit, List.append_assoc, List.take_left' hfour,
      List.drop_left' hfour]
    split_ifs
    · simp [skipChar, hc]
    · rfl

theorem trimZeros_ne_nil {n : ℕ} (hn : n ≠ 0) : trimZeros (padded 9 n) ≠ [] := by
  intro hnil
  obtain ⟨k, hk⟩ := exists_trimZeros_append (padded 9 n)
  have hvalue := digitsValue_padded 9 n
  rw [hk, hnil, List.nil_append, digitsValue_zeros] at hvalue
  omega

/-- The fraction before what is no digit is read back. -/
theorem getFraction_fractionText {n : ℕ} (hn : n < 10 ^ 9) {c : Char} {rest : List Char} (hc : c.isDigit = false)
    (hpoint : c ≠ '.' ∧ c ≠ ',') : getFraction (fractionText n ++ c :: rest) = (n, c :: rest) := by
  unfold fractionText
  split_ifs with h0
  · rw [h0, List.nil_append]
    cases rest with
    | nil => rfl
    | cons d rest => exact if_neg fun h => h.1.elim hpoint.1 hpoint.2
  · obtain ⟨k, hk⟩ := exists_trimZeros_append (padded 9 n)
    have hlen : (trimZeros (padded 9 n)).length + k = 9 := by
      have := congrArg List.length hk
      rw [length_padded (by omega) hn, List.length_append, List.length_replicate] at this
      exact this.symm
    have hdigits : ∀ c ∈ trimZeros (padded 9 n), c.isDigit = true := by
      intro c hc
      have hmem : c ∈ padded 9 n := by
        rw [hk]
        exact List.mem_append_left _ hc
      exact isDigit_of_mem_padded hmem
    have hvalue : digitsValue (trimZeros (padded 9 n)) * 10 ^ k = n := by
      have := digitsValue_padded 9 n
      rw [hk, digitsValue_append, digitsValue_zeros] at this
      simpa [Nat.mul_comm] using this
    have htake : (trimZeros (padded 9 n) ++ c :: rest).takeWhile Char.isDigit = trimZeros (padded 9 n) := by
      rw [List.takeWhile_append_of_pos hdigits]
      simp [hc]
    have hdrop : (trimZeros (padded 9 n) ++ c :: rest).dropWhile Char.isDigit = c :: rest := by
      rw [List.dropWhile_append_of_pos hdigits]
      simp [hc]
    obtain ⟨d, ds, hd⟩ := List.exists_cons_of_ne_nil (trimZeros_ne_nil h0)
    rw [hd] at htake hdrop hdigits hvalue hlen
    rw [List.cons_append] at htake hdrop
    rw [List.cons_append, hd, List.cons_append, getFraction,
      if_pos ⟨.inl rfl, hdigits d (by simp)⟩, htake, hdrop, parseNanoseconds,
      List.take_of_length_le (by omega), show 9 - (d :: ds).length = k by omega, hvalue]

theorem skipChar_cons (c : Char) (rest : List Char) : skipChar c (c :: rest) = some rest :=
  if_pos rfl

theorem dateText_append (date : Date) (rest : List Char) : dateText date ++ rest =
    yearText date.year ++ '-' :: (padded 2 date.month ++ '-' :: (padded 2 date.day ++ rest)) := by
  simp [dateText]

theorem getDate_dateText {date : Date} (h0 : 0 ≤ date.year) (h1 : date.year ≤ 9999)
    (hmonth : date.month < 100) (hday : date.day < 100) (rest : List Char) :
    getDate (dateText date ++ rest) = some (date, rest) := by
  simp only [dateText_append, getDate, getYear_yearText h0 h1, skipChar_cons, getnum_padded true hmonth,
    getnum_padded true hday, Option.bind_eq_bind, Option.bind_some, Int.natAbs_of_nonneg h0]
  rfl

/-- A date whose year has not four digits is not read. -/
theorem getDate_eq_none {date : Date} (h : date.year < 0 ∨ 9999 < date.year) (rest : List Char) :
    getDate (dateText date ++ rest) = none := by
  have hskip := getYear_skip_eq_none h ('-' :: (padded 2 date.month ++ '-' ::
    (padded 2 date.day ++ rest)))
  rw [dateText_append, getDate]
  cases hyear : getYear (yearText date.year ++ '-' :: (padded 2 date.month ++ '-' ::
      (padded 2 date.day ++ rest))) with
  | none => rfl
  | some r =>
    rw [hyear, Option.bind_some] at hskip
    rw [Option.bind_eq_bind, Option.bind_some]
    dsimp only
    rw [hskip]
    rfl

theorem getClock_clockText {nanos : ℕ} (h : nanos < 86400 * 10 ^ 9) (rest : List Char) :
    getClock (clockText nanos ++ rest) =
      some (nanos / 10 ^ 9, fractionText (nanos % 10 ^ 9) ++ rest) := by
  generalize hfraction : fractionText (nanos % 10 ^ 9) ++ rest = tail
  have hsplit : clockText nanos ++ rest = padded 2 (nanos / 10 ^ 9 / 3600) ++ ':' ::
      (padded 2 (nanos / 10 ^ 9 / 60 % 60) ++ ':' :: (padded 2 (nanos / 10 ^ 9 % 60) ++ tail)) := by
    simp [clockText, ← hfraction]
  have hseconds : nanos / 10 ^ 9 < 86400 := by omega
  rw [hsplit]
  generalize nanos / 10 ^ 9 = seconds at *
  simp only [getClock, getnum_padded false (by omega : seconds / 3600 < 100), skipChar_cons,
    getnum_padded true (by omega : seconds / 60 % 60 < 100),
    getnum_padded true (by omega : seconds % 60 < 100), Option.bind_eq_bind, Option.bind_some]
  rw [if_pos (by omega), show seconds / 3600 * 3600 + seconds / 60 % 60 * 60 + seconds % 60 =
    seconds by omega]
  rfl

theorem exists_zoneText (zone : ℤ) : ∃ c rest, zoneText zone = c :: rest ∧ c.isDigit = false ∧ c ≠ '.' ∧ c ≠ ',' := by
  rw [zoneText]
  split_ifs
  · exact ⟨'Z', [], rfl, by decide, by decide, by decide⟩
  · dsimp only
    split_ifs
    · exact ⟨'-', _, rfl, by decide, by decide, by decide⟩
    · exact ⟨'+', _, rfl, by decide, by decide, by decide⟩

/-- A zone is read back in whole minutes. -/
theorem getZone_zoneText {zone : ℤ} (h : (zone.tdiv 60).natAbs / 60 < 24) :
    getZone (zoneText zone) = some (zone.tdiv 60 * 60, []) := by
  rw [zoneText]
  split_ifs with hzero
  · rw [hzero]
    rfl
  · dsimp only
    generalize zone.tdiv 60 = minutes at *
    have hpair : ∀ n < 100, ∃ a b, padded 2 n = [a, b] ∧ getnum true [a, b] = some (n, []) := by
      intro n hn
      have hnum := getnum_padded true hn []
      rw [List.append_nil, padded_two n hn] at hnum
      exact ⟨_, _, padded_two n hn, hnum⟩
    obtain ⟨a, b, hab, hhour⟩ := hpair (minutes.natAbs / 60) (by omega)
    obtain ⟨c, d, hcd, hminute⟩ := hpair (minutes.natAbs % 60) (by omega)
    rw [hab, hcd]
    split_ifs with hneg
    · rw [List.cons_append, List.cons_append, List.nil_append,
        getZone.eq_2 '-' a b c d [] (by decide), hhour, hminute]
      simp only [Option.bind_eq_bind, Option.bind_some]
      rw [if_neg (by omega), if_neg (by decide), if_pos trivial]
      congr 2
      omega
    · rw [List.cons_append, List.cons_append, List.nil_append,
        getZone.eq_2 '+' a b c d [] (by decide), hhour, hminute]
      simp only [Option.bind_eq_bind, Option.bind_some]
      rw [if_neg (by omega), if_pos trivial]
      congr 2
      omega

namespace Time

theorem localNanos_of_utc {t : Time} (ht : t.zone = 0) : t.localNanos = t.nanos := by
  rw [localNanos, ht, zero_mul, add_zero]

theorem rfc3339Nano_of_utc {t : Time} (ht : t.zone = 0) : t.rfc3339Nano.toList =
    dateText t.date ++ 'T' :: (clockText (t.nanos % dayNanos).toNat ++ ['Z']) := by
  rw [rfc3339Nano, String.toList_ofList, localNanos_of_utc ht, ht]
  rfl

/-- The same clock with the zone cut to whole minutes. -/
def wholeMinutes (t : Time) : Time :=
  ⟨t.localNanos - t.zone.tdiv 60 * 60 * second, t.zone.tdiv 60 * 60⟩

/-- A text in any zone is read back in whole minutes. -/
theorem parseRFC3339Nano_zoned {t : Time} (h0 : 0 ≤ t.date.year) (h1 : t.date.year ≤ 9999)
    (hzone : (t.zone.tdiv 60).natAbs / 60 < 24) :
    parseRFC3339Nano t.rfc3339Nano.toList = some t.wholeMinutes := by
  obtain ⟨hday, hmonth2, hday2⟩ := dayOfDate_dateOfDay (t.localNanos / dayNanos)
  have hvalid := valid_dateOfDay (t.localNanos / dayNanos)
  have hdate : t.date = dateOfDay (t.localNanos / dayNanos) := rfl
  rw [← hdate] at hday hmonth2 hday2 hvalid
  have hbound : (t.localNanos % dayNanos).toNat < 86400 * 10 ^ 9 := by
    rw [dayNanos, hour, second, millisecond, microsecond]
    omega
  obtain ⟨c, rest, hzoneText, hdigit, hpoint⟩ := exists_zoneText t.zone
  have hget := getZone_zoneText hzone
  rw [rfc3339Nano, String.toList_ofList, hzoneText]
  rw [hzoneText] at hget
  simp only [parseRFC3339Nano, getDate_dateText h0 h1 hmonth2 hday2, skipChar_cons, getClock_clockText hbound,
    getFraction_fractionText (Nat.mod_lt _ (by omega) : (t.localNanos % dayNanos).toNat % 10 ^ 9 < 10 ^ 9) hdigit hpoint,
    hget, Option.bind_eq_bind, Option.bind_some]
  rw [if_pos ⟨trivial, hvalid⟩, hday, wholeMinutes]
  have hnanos : t.localNanos / dayNanos * dayNanos +
      ((((t.localNanos % dayNanos).toNat / 10 ^ 9 : ℕ) : ℤ) - t.zone.tdiv 60 * 60) * second +
      (((t.localNanos % dayNanos).toNat % 10 ^ 9 : ℕ) : ℤ) = t.localNanos - t.zone.tdiv 60 * 60 * second := by
    generalize t.zone.tdiv 60 * 60 = z
    rw [dayNanos, hour, second, millisecond, microsecond]
    omega
  rw [hnanos]
  rfl

theorem wholeMinutes_of_utc {t : Time} (ht : t.zone = 0) : t.wholeMinutes = t := by
  rw [wholeMinutes, localNanos_of_utc ht]
  obtain ⟨nanos, zone⟩ := t
  cases ht
  simp

/-- **A text in UTC is read back** when its year has four digits. -/
theorem parseRFC3339Nano_rfc3339Nano {t : Time} (ht : t.zone = 0) (h0 : 0 ≤ t.date.year)
    (h1 : t.date.year ≤ 9999) : parseRFC3339Nano t.rfc3339Nano.toList = some t := by
  rw [parseRFC3339Nano_zoned h0 h1 (by rw [ht]; decide), wholeMinutes_of_utc ht]

/-- The text of any other year is not read. -/
theorem parseRFC3339Nano_eq_none {t : Time} (ht : t.zone = 0)
    (h : t.date.year < 0 ∨ 9999 < t.date.year) : parseRFC3339Nano t.rfc3339Nano.toList = none := by
  rw [rfc3339Nano_of_utc ht, parseRFC3339Nano, getDate_eq_none h]
  rfl

end Time

end Tack.Lib

import Mathlib
import Tack.Lib.Float64
import Tack.Lib.Time

/-!
# Instants as text

The date of a day in the Gregorian calendar and the text of an instant in the format of RFC 3339 with
as many digits of the second as it needs.

## Main definitions

* `Lib.Date`, `Lib.dateOfDay` — a date, and the date of a day counted from January 1 of year 1.
* `Lib.Time.rfc3339Nano` — the text of an instant in its zone.
* `Lib.Time.marshalJSON` — the text inside JSON, which has years of four digits only.

## Main results

* `Lib.dayOfDate_dateOfDay` — a date determines its day.
* `Lib.Time.rfc3339Nano_utc_injective` — in UTC a text determines its instant.
-/

namespace Tack.Lib

/-! ### Dates -/

structure Date where
  year : ℤ
  month : ℕ
  day : ℕ
  deriving DecidableEq, Repr

/-- The date of a day, counted from January 1 of year 1.  The computation counts years from March, so
that a leap day ends its year. -/
def dateOfDay (day : ℤ) : Date :=
  let z := day + 306
  let era := z / 146097
  let dayOfEra := (z % 146097).toNat
  let century := min (dayOfEra / 36524) 3
  let dayOfCentury := dayOfEra - 36524 * century
  let leap := dayOfCentury / 1461
  let dayOfLeap := dayOfCentury % 1461
  let year := min (dayOfLeap / 365) 3
  let dayOfYear := dayOfLeap - 365 * year
  let month := (5 * dayOfYear + 2) / 153
  let marchYear := 400 * era + (100 * century + 4 * leap + year : ℕ)
  { year := if month < 10 then marchYear else marchYear + 1
    month := if month < 10 then month + 3 else month - 9
    day := dayOfYear - (153 * month + 2) / 5 + 1 }

/-- The day of a date, counted from January 1 of year 1. -/
def dayOfDate (date : Date) : ℤ :=
  let month := if 3 ≤ date.month then date.month - 3 else date.month + 9
  let marchYear := if 3 ≤ date.month then date.year else date.year - 1
  let yearOfEra := marchYear % 400
  146097 * (marchYear / 400) + (365 * yearOfEra + yearOfEra / 4 - yearOfEra / 100) +
    ((153 * month + 2) / 5 + date.day - 1 : ℤ) - 306

/-- **A date determines its day**, and its fields have two digits. -/
theorem dayOfDate_dateOfDay (day : ℤ) : dayOfDate (dateOfDay day) = day ∧
    (dateOfDay day).month < 100 ∧ (dateOfDay day).day < 100 := by
  simp only [dateOfDay]
  have hz : day = 146097 * ((day + 306) / 146097) + ((day + 306) % 146097).toNat - 306 := by omega
  have hera : ((day + 306) % 146097).toNat < 146097 := by omega
  generalize (day + 306) / 146097 = era at *
  generalize ((day + 306) % 146097).toNat = dayOfEra at *
  -- each part of the day is bounded by the length of its period
  have hcentury : 36524 * min (dayOfEra / 36524) 3 ≤ dayOfEra ∧ min (dayOfEra / 36524) 3 ≤ 3 ∧
      dayOfEra - 36524 * min (dayOfEra / 36524) 3 < 36525 := by omega
  generalize min (dayOfEra / 36524) 3 = century at *
  obtain ⟨dayOfCentury, hdoc⟩ : ∃ n, dayOfEra = 36524 * century + n := ⟨dayOfEra - 36524 * century, by omega⟩
  have hleap : dayOfCentury / 1461 < 25 := by omega
  have hdol : dayOfCentury = 1461 * (dayOfCentury / 1461) + dayOfCentury % 1461 := by omega
  have hdol' : dayOfCentury % 1461 < 1461 := by omega
  rw [hdoc, Nat.add_sub_cancel_left]
  generalize dayOfCentury / 1461 = leap at *
  generalize dayOfCentury % 1461 = dayOfLeap at *
  have hyear : 365 * min (dayOfLeap / 365) 3 ≤ dayOfLeap ∧ min (dayOfLeap / 365) 3 ≤ 3 ∧
      dayOfLeap - 365 * min (dayOfLeap / 365) 3 < 366 := by omega
  generalize min (dayOfLeap / 365) 3 = year at *
  obtain ⟨dayOfYear, hdoy⟩ : ∃ n, dayOfLeap = 365 * year + n := ⟨dayOfLeap - 365 * year, by omega⟩
  rw [hdoy, Nat.add_sub_cancel_left]
  have hmonth : (5 * dayOfYear + 2) / 153 < 12 ∧
      (153 * ((5 * dayOfYear + 2) / 153) + 2) / 5 ≤ dayOfYear ∧
      dayOfYear - (153 * ((5 * dayOfYear + 2) / 153) + 2) / 5 < 31 := by omega
  generalize (5 * dayOfYear + 2) / 153 = month at *
  generalize hfirst : (153 * month + 2) / 5 = first at *
  have hera : (400 * era + ((100 * century + 4 * leap + year : ℕ) : ℤ)) / 400 = era := by omega
  have hyearOfEra : (400 * era + ((100 * century + 4 * leap + year : ℕ) : ℤ)) % 400 =
      (100 * century + 4 * leap + year : ℕ) := by omega
  have hleaps : ((100 * century + 4 * leap + year : ℕ) : ℤ) / 4 = 25 * century + leap := by omega
  have hcenturies : ((100 * century + 4 * leap + year : ℕ) : ℤ) / 100 = century := by omega
  have hfirst' : (153 * (month : ℤ) + 2) / 5 = first := by omega
  refine ⟨?_, by split_ifs <;> omega, by omega⟩
  simp only [dayOfDate]
  by_cases hmarch : month < 10
  · rw [if_pos hmarch, if_pos hmarch, if_pos (by omega), if_pos (by omega), Nat.add_sub_cancel,
      hera, hyearOfEra, hleaps, hcenturies, hfirst']
    omega
  · rw [if_neg hmarch, if_neg hmarch, if_neg (by omega), if_neg (by omega),
      Nat.sub_add_cancel (by omega), add_sub_cancel_right, hera, hyearOfEra, hleaps, hcenturies,
      hfirst']
    omega

/-! ### Texts -/

/-- The digits of a number, with zeros before them up to a width. -/
def padded (width n : ℕ) : List Char := (Nat.toDigits 10 n).leftpad width '0'

/-- The year with four digits or more. -/
def yearText (year : ℤ) : List Char :=
  if year < 0 then '-' :: padded 4 year.natAbs else padded 4 year.natAbs

def dateText (date : Date) : List Char :=
  yearText date.year ++ '-' :: (padded 2 date.month ++ '-' :: padded 2 date.day)

/-- The text without the zeros at its end. -/
def trimZeros (cs : List Char) : List Char := cs.rdropWhile (· == '0')

/-- The fraction of a second, with as many digits as it needs. -/
def fractionText (nanosecond : ℕ) : List Char :=
  if nanosecond = 0 then [] else '.' :: trimZeros (padded 9 nanosecond)

/-- The time of a day, given in nanoseconds. -/
def clockText (nanos : ℕ) : List Char :=
  let seconds := nanos / 10 ^ 9
  padded 2 (seconds / 3600) ++ ':' :: (padded 2 (seconds / 60 % 60) ++ ':' ::
    (padded 2 (seconds % 60) ++ fractionText (nanos % 10 ^ 9)))

/-- The zone, given in seconds east of UTC. -/
def zoneText (zone : ℤ) : List Char :=
  if zone = 0 then ['Z']
  else
    let minutes := zone.tdiv 60
    (if minutes < 0 then '-' else '+') ::
      (padded 2 (minutes.natAbs / 60) ++ ':' :: padded 2 (minutes.natAbs % 60))

namespace Time

/-- The nanoseconds of a day. -/
def dayNanos : ℤ := 24 * hour

/-- Nanoseconds on the clock of the zone. -/
def localNanos (t : Time) : ℤ := t.nanos + t.zone * second

/-- The date in the zone. -/
def date (t : Time) : Date := dateOfDay (t.localNanos / dayNanos)

/-- The text in the format of RFC 3339. -/
def rfc3339Nano (t : Time) : String :=
  String.ofList (dateText t.date ++ 'T' :: (clockText (t.localNanos % dayNanos).toNat ++
    zoneText t.zone))

/-- The text inside JSON; `none` when the year does not have four digits or the zone is a day or more
away. -/
def marshalJSON (t : Time) : Option String :=
  if 0 ≤ t.date.year ∧ t.date.year ≤ 9999 ∧ (t.zone.tdiv 60).natAbs / 60 < 24 then
    some t.rfc3339Nano
  else none

end Time

/-! ### A text determines its instant -/

theorem digitsValue_padded (width n : ℕ) : digitsValue (padded width n) = n := by
  rw [padded, List.leftpad, digitsValue_append, digitsValue_zeros, digitsValue_toDigits, mul_zero,
    zero_add]

theorem padded_injective (width : ℕ) : Function.Injective (padded width) := fun m n h => by
  rw [← digitsValue_padded width m, h, digitsValue_padded]

theorem isDigit_of_mem_padded {width n : ℕ} {c : Char} (h : c ∈ padded width n) :
    c.isDigit = true := by
  rcases List.mem_append.mp h with h | h
  · exact isDigit_of_mem_zeros h
  · exact isDigit_of_mem_toDigits h

theorem length_padded {width n : ℕ} (hw : 0 < width) (hn : n < 10 ^ width) :
    (padded width n).length = width := by
  have hle := (Nat.length_toDigits_le_iff (b := 10) (by omega) hw).mpr hn
  simp only [padded, List.leftpad, List.length_append, List.length_replicate]
  omega

theorem yearText_injective : Function.Injective yearText := by
  have hminus : ∀ (n : ℕ) (cs : List Char), padded 4 n ≠ '-' :: cs := by
    intro n cs h
    have hdigit : Char.isDigit '-' = true := isDigit_of_mem_padded (h ▸ List.mem_cons_self)
    exact absurd hdigit (by decide)
  intro a b h
  unfold yearText at h
  split_ifs at h with ha hb hb
  · have := padded_injective 4 (List.cons.inj h).2
    omega
  · exact absurd h.symm (hminus _ _)
  · exact absurd h (hminus _ _)
  · have := padded_injective 4 h
    omega

theorem dateText_injective {d e : Date} (hd : d.month < 100 ∧ d.day < 100)
    (he : e.month < 100 ∧ e.day < 100) (h : dateText d = dateText e) : d = e := by
  have hlen : ∀ {n : ℕ}, n < 100 → (padded 2 n).length = 2 := fun hn =>
    length_padded (by omega) (by omega)
  obtain ⟨hyear, hrest⟩ := List.append_inj' h (by simp [hlen, hd, he])
  obtain ⟨hmonth, hday⟩ := List.append_inj (List.cons.inj hrest).2 (by simp [hlen, hd, he])
  cases d
  cases e
  have h1 := yearText_injective hyear
  have h2 := padded_injective 2 hmonth
  have h3 := padded_injective 2 (List.cons.inj hday).2
  simp only at h1 h2 h3
  rw [h1, h2, h3]

/-- Only zeros are trimmed. -/
theorem exists_trimZeros_append (cs : List Char) : ∃ k, cs = trimZeros cs ++ List.replicate k '0' := by
  refine ⟨(cs.reverse.takeWhile (· == '0')).length, ?_⟩
  have hzeros : (cs.reverse.takeWhile (· == '0')).reverse =
      List.replicate (cs.reverse.takeWhile (· == '0')).length '0' := by
    rw [List.eq_replicate_iff, List.length_reverse]
    refine ⟨rfl, fun c hc => ?_⟩
    have hzero := List.mem_takeWhile_imp (List.mem_reverse.mp hc)
    exact eq_of_beq hzero
  rw [← hzeros, trimZeros, List.rdropWhile, ← List.reverse_append, List.takeWhile_append_dropWhile,
    List.reverse_reverse]

theorem trimZeros_injective {cs ds : List Char} (hlen : cs.length = ds.length)
    (h : trimZeros cs = trimZeros ds) : cs = ds := by
  obtain ⟨k, hk⟩ := exists_trimZeros_append cs
  obtain ⟨l, hl⟩ := exists_trimZeros_append ds
  have hkl : k = l := by
    have hk' := congrArg List.length hk
    have hl' := congrArg List.length hl
    rw [List.length_append, List.length_replicate] at hk' hl'
    rw [h] at hk'
    omega
  rw [hk, hl, h, hkl]

theorem fractionText_injective {m n : ℕ} (hm : m < 10 ^ 9) (hn : n < 10 ^ 9)
    (h : fractionText m = fractionText n) : m = n := by
  unfold fractionText at h
  split_ifs at h with h0 h0' h0'
  · rw [h0, h0']
  · refine padded_injective 9 (trimZeros_injective ?_ (List.cons.inj h).2)
    rw [length_padded (by omega) hm, length_padded (by omega) hn]

theorem clockText_injective {m n : ℕ} (hm : m < 86400 * 10 ^ 9) (hn : n < 86400 * 10 ^ 9)
    (h : clockText m = clockText n) : m = n := by
  have hlen : ∀ {n : ℕ}, n < 100 → (padded 2 n).length = 2 := fun hn =>
    length_padded (by omega) (by omega)
  obtain ⟨hhour, h1⟩ := List.append_inj h (by rw [hlen (by omega), hlen (by omega)])
  obtain ⟨hminute, h2⟩ := List.append_inj (List.cons.inj h1).2
    (by rw [hlen (by omega), hlen (by omega)])
  obtain ⟨hsecond, hfraction⟩ := List.append_inj (List.cons.inj h2).2
    (by rw [hlen (by omega), hlen (by omega)])
  have e1 := padded_injective 2 hhour
  have e2 := padded_injective 2 hminute
  have e3 := padded_injective 2 hsecond
  have e4 := fractionText_injective (by omega) (by omega) hfraction
  omega

theorem T_notMem_dateText (date : Date) : 'T' ∉ dateText date := by
  have hdigits : ∀ w n, 'T' ∉ padded w n := fun w n h =>
    absurd (isDigit_of_mem_padded h) (by decide)
  simp only [dateText, yearText, List.mem_append, List.mem_cons, not_or]
  refine ⟨?_, by decide, hdigits _ _, by decide, hdigits _ _⟩
  split_ifs
  · simp [hdigits]
  · exact hdigits _ _

/-- A list is split at the first place of a separator. -/
theorem append_cons_inj {c : Char} {xs ys rs ss : List Char} (hx : c ∉ xs) (hy : c ∉ ys)
    (h : xs ++ c :: rs = ys ++ c :: ss) : xs = ys ∧ rs = ss := by
  induction xs generalizing ys with
  | nil =>
    cases ys with
    | nil => exact ⟨rfl, (List.cons.inj h).2⟩
    | cons y ys => exact absurd ((List.cons.inj h).1 ▸ List.mem_cons_self) hy
  | cons x xs ih =>
    cases ys with
    | nil => exact absurd ((List.cons.inj h).1 ▸ List.mem_cons_self) hx
    | cons y ys =>
      obtain ⟨rfl, hrest⟩ := List.cons.inj h
      obtain ⟨rfl, hrs⟩ := ih (fun hm => hx (List.mem_cons_of_mem x hm))
        (fun hm => hy (List.mem_cons_of_mem x hm)) hrest
      exact ⟨rfl, hrs⟩

/-- **In UTC a text determines its instant.** -/
theorem Time.rfc3339Nano_utc_injective {t u : Time} (ht : t.zone = 0) (hu : u.zone = 0)
    (h : t.rfc3339Nano = u.rfc3339Nano) : t.nanos = u.nanos := by
  have hlocal : ∀ {t : Time}, t.zone = 0 → t.localNanos = t.nanos := by
    intro t ht
    rw [localNanos, ht, zero_mul, add_zero]
  have htext := String.ofList_injective h
  rw [ht, hu] at htext
  obtain ⟨hdate, hrest⟩ := append_cons_inj (T_notMem_dateText _) (T_notMem_dateText _) htext
  have hclock := (List.append_inj' hrest rfl).1
  rw [hlocal ht, hlocal hu] at hclock
  have hnanos := clockText_injective
    (by rw [dayNanos, hour, second, millisecond, microsecond]; omega)
    (by rw [dayNanos, hour, second, millisecond, microsecond]; omega) hclock
  have hday : t.nanos / dayNanos = u.nanos / dayNanos := by
    rw [date, date, hlocal ht, hlocal hu] at hdate
    obtain ⟨ht', htm⟩ := dayOfDate_dateOfDay (t.nanos / dayNanos)
    obtain ⟨hu', hum⟩ := dayOfDate_dateOfDay (u.nanos / dayNanos)
    rw [← ht', dateText_injective htm hum hdate, hu']
  simp only [dayNanos, hour, second, millisecond, microsecond] at hnanos hday
  omega

end Tack.Lib

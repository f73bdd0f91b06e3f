import Mathlib

/-!
# Instants

An instant with the zone it is shown in.  Instants are counted in nanoseconds from the zero time,
January 1 of year 1 in UTC, and no operation here depends on the zone.

## Main definitions

* `Lib.Time` — an instant and a zone offset.
* `Lib.Time.truncate` — rounding down to a multiple of a duration since the zero time.
* `Lib.Time.unixNano` — nanoseconds since 1970 in 64 bits.
-/

namespace Tack.Lib

/-- An instant and the zone it is shown in. -/
structure Time where
  /-- Nanoseconds since the zero time. -/
  nanos : ℤ
  /-- Seconds east of UTC. -/
  zone : ℤ
  deriving DecidableEq, Repr, Inhabited

namespace Time

/-- A duration in nanoseconds. -/
abbrev Duration := ℤ

def microsecond : Duration := 1000

def millisecond : Duration := 1000 * microsecond

def second : Duration := 1000 * millisecond

def hour : Duration := 3600 * second

/-- The zero time. -/
def zero : Time := ⟨0, 0⟩

def isZero (t : Time) : Bool := t.nanos == 0

def before (t u : Time) : Bool := decide (t.nanos < u.nanos)

def after (t u : Time) : Bool := decide (u.nanos < t.nanos)

/-- The same instant, whatever the zones. -/
def equal (t u : Time) : Bool := t.nanos == u.nanos

def add (t : Time) (d : Duration) : Time := { t with nanos := t.nanos + d }

/-- The same instant shown in UTC. -/
def utc (t : Time) : Time := { t with zone := 0 }

/-- Rounds down to a multiple of `d` since the zero time. -/
def truncate (t : Time) (d : Duration) : Time := { t with nanos := t.nanos - t.nanos % d }

/-- The nanoseconds within the second. -/
def nanosecond (t : Time) : ℕ := (t.nanos % second).toNat

/-- Nanoseconds from the zero time to January 1, 1970. -/
def unixEpoch : ℤ := 62135596800 * second

/-- Nanoseconds since 1970, as a signed 64-bit integer. -/
def unixNano (t : Time) : ℤ := (t.nanos - unixEpoch).bmod (2 ^ 64)

end Time

end Tack.Lib

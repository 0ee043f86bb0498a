import Gatekeeper.Text.Numeral

/-!
# Spans of time

A span is a whole number of nanoseconds of less than `2 ^ 64` seconds.  The clock of this library
ticks in milliseconds; a span counts on it as `Span.ceilMillis`, rounded up.
-/

set_option autoImplicit false

namespace Gatekeeper

open Text

/-- Nanoseconds in a second. -/
def nanosPerSecond : Nat := 1000000000

/-- Nanoseconds in a millisecond. -/
def nanosPerMilli : Nat := 1000000

/-- A length of time. -/
structure Span where
  nanos : Nat
  nanos_lt : nanos < wordLimit * nanosPerSecond
  deriving DecidableEq

namespace Span

/-- The span of this many nanoseconds, if there is one. -/
def ofNanos? (n : Nat) : Option Span :=
  if h : n < wordLimit * nanosPerSecond then some ⟨n, h⟩ else none

def zero : Span := ⟨0, by decide⟩

instance : Inhabited Span := ⟨zero⟩

/-- A number of seconds. -/
def seconds (n : Nat) (h : n < wordLimit := by decide) : Span :=
  ⟨n * nanosPerSecond, Nat.mul_lt_mul_of_pos_right h (by decide)⟩

/-- The whole seconds. -/
def secs (s : Span) : Nat := s.nanos / nanosPerSecond

/-- The nanoseconds beyond the whole seconds. -/
def subNanos (s : Span) : Nat := s.nanos % nanosPerSecond

def isZero (s : Span) : Bool := s.nanos == 0

/-- The span in milliseconds, rounded up. -/
def ceilMillis (s : Span) : Nat := (s.nanos + (nanosPerMilli - 1)) / nanosPerMilli

theorem secs_mul_add_subNanos (s : Span) : s.secs * nanosPerSecond + s.subNanos = s.nanos :=
  Nat.div_add_mod' ..

end Span

/-! ## Units

A unit has spellings, a length, and a place in the written form. -/

/-- The units in which spans are written. -/
inductive SpanUnit where
  | nano
  | micro
  | milli
  | second
  | minute
  | hour
  | day
  | week
  | month
  | year
  deriving DecidableEq

namespace SpanUnit

/-- The unit in nanoseconds.  A year is 365.25 days and a month 30.44 days. -/
def nanos : SpanUnit → Nat
  | nano => 1
  | micro => 1000
  | milli => nanosPerMilli
  | second => nanosPerSecond
  | minute => 60 * nanosPerSecond
  | hour => 3600 * nanosPerSecond
  | day => 86400 * nanosPerSecond
  | week => 604800 * nanosPerSecond
  | month => 2630016 * nanosPerSecond
  | year => 31557600 * nanosPerSecond

/-- Every spelling of the unit, case-sensitive. -/
def spellings : SpanUnit → List String
  | nano => ["nanos", "nsec", "ns"]
  | micro => ["usec", "us", "µs"]
  | milli => ["millis", "msec", "ms"]
  | second => ["seconds", "second", "secs", "sec", "s"]
  | minute => ["minutes", "minute", "min", "mins", "m"]
  | hour => ["hours", "hour", "hr", "hrs", "h"]
  | day => ["days", "day", "d"]
  | week => ["weeks", "week", "wk", "wks", "w"]
  | month => ["months", "month", "M"]
  | year => ["years", "year", "yr", "yrs", "y"]

def all : List SpanUnit :=
  [nano, micro, milli, second, minute, hour, day, week, month, year]

/-- The unit that is spelled so. -/
def ofSpelling? (s : String) : Option SpanUnit := all.find? (·.spellings.contains s)

/-- Whole numbers of the unit are counted in seconds; below the second, in nanoseconds. -/
def countsSeconds : SpanUnit → Bool
  | nano | micro | milli => false
  | _ => true

/-- Fractions of the unit are counted in seconds; up to the minute, in nanoseconds. -/
def partsCountSeconds : SpanUnit → Bool
  | nano | micro | milli | second | minute => false
  | _ => true

end SpanUnit

end Gatekeeper

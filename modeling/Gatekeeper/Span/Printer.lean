import Gatekeeper.Span.Basic

/-!
# Spans as text

A span is written as its years, months, days, hours, minutes, seconds, milli-, micro- and
nanoseconds, leaving out what is zero: `1year 2months 3days 4h 5m 6s 7ms 8us 9ns`.  The three
largest units have a plural.  The empty span is `0s`.
-/

set_option autoImplicit false

namespace Gatekeeper.Span

open Text

/-- The units in which spans are written, with the count of each, from the largest to the smallest.
-/
def parts (s : Span) : List (Nat × SpanUnit) :=
  let inYear := s.secs % 31557600
  let inMonth := inYear % 2630016
  let inDay := inMonth % 86400
  [(s.secs / 31557600, .year), (inYear / 2630016, .month), (inMonth / 86400, .day),
   (inDay / 3600, .hour), (inDay % 3600 / 60, .minute), (inDay % 60, .second),
   (s.subNanos / 1000000, .milli), (s.subNanos / 1000 % 1000, .micro), (s.subNanos % 1000, .nano)]

/-- How the unit is written after a count. -/
def label (count : Nat) : SpanUnit → String
  | .year => if 1 < count then "years" else "year"
  | .month => if 1 < count then "months" else "month"
  | .day => if 1 < count then "days" else "day"
  | .week => if 1 < count then "weeks" else "week"
  | .hour => "h"
  | .minute => "m"
  | .second => "s"
  | .milli => "ms"
  | .micro => "us"
  | .nano => "ns"

/-- A count and its unit. -/
def partText (p : Nat × SpanUnit) : List Char :=
  digits p.1 ++ (label p.1 p.2).toList

/-- The written form, as characters. -/
def chars (s : Span) : List Char :=
  if s.nanos = 0 then ['0', 's']
  else [' '].intercalate ((s.parts.filter (·.1 ≠ 0)).map partText)

/-- The written form. -/
def text (s : Span) : String := String.ofList s.chars

end Gatekeeper.Span

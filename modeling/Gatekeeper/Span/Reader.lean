import Gatekeeper.Span.Basic
import Gatekeeper.Text.Blank

/-!
# Reading spans

A span is written as a sum of items, each a number and a unit: `1h 30m`, `2.5 sec`, `1 000ms`.  The
reader goes over the text once, character by character; `Cursor` is where it stands and
`Cursor.next` takes it one character further.

* A number starts at its first digit, blanks before and inside it do not matter.  It ends at the
  first letter, or at a point, after which the digits of a fraction follow, again up to a letter.
* A unit is a run of letters.  A digit after it starts the next number at once.
* An item is added up as soon as its unit has ended, so a fault in it is reported before any fault
  further on.

Offsets in faults are bytes from the start of the text.  Numbers, and what is made of them, are
words; a fraction of a unit must be a whole number of nanoseconds, and of seconds for hours and
above.
-/

set_option autoImplicit false

namespace Gatekeeper

open Text

/-- Why a text is no span. -/
inductive SpanFault where
  | empty
  | numberExpected (offset : Nat)
  | badCharacter (offset : Nat)
  /-- The number `count` stands without a unit. -/
  | unitNeeded (count : Nat)
  | unknownUnit (unit : String)
  /-- Too large, or not a whole number of nanoseconds. -/
  | unrepresentable
  deriving DecidableEq

def SpanFault.text : SpanFault → String
  | empty => "value was empty"
  | numberExpected offset => "expected number at " ++ toString offset
  | badCharacter offset => "invalid character at " ++ toString offset
  | unitNeeded count =>
    "time unit needed, for example " ++ toString count ++ "sec or " ++ toString count ++ "ms"
  | unknownUnit unit =>
    "unknown time unit \"" ++ unit ++ "\", supported units: ns, us/µs, ms, sec, min, hours, days, "
      ++ "weeks, months, years (and few variations)"
  | unrepresentable =>
    "number is too large or cannot be represented without a lack of precision "
      ++ "(values below 1ns are not supported)"

namespace Span

/-- The digits after a point: `divisor` is the power of ten to divide `digits` by. -/
structure Fraction where
  digits : Nat
  divisor : Nat
  deriving DecidableEq

/-- The number, if it is a word. -/
def word (n : Nat) : Except SpanFault Nat :=
  if n < wordLimit then .ok n else .error .unrepresentable

/-- A span and so many seconds or nanoseconds more. -/
def add (s : Span) (inSeconds : Bool) (n : Nat) : Except SpanFault Span := do
  let n ← word n
  let _ ← word (s.subNanos + if inSeconds then 0 else n)
  match ofNanos? (s.nanos + if inSeconds then n * nanosPerSecond else n) with
  | some t => .ok t
  | none => .error .unrepresentable

/-- The number of nanoseconds, or of seconds, that makes one unit. -/
def grains (unit : SpanUnit) (inSeconds : Bool) : Nat :=
  if inSeconds then unit.nanos / nanosPerSecond else unit.nanos

/-- A span and one item more: `count` units and the given fraction of one. -/
def addItem (s : Span) (count : Nat) (fraction : Option Fraction) (unit : List Char) :
    Except SpanFault Span :=
  match unit with
  | [] => .error (.unitNeeded count)
  | _ => match SpanUnit.ofSpelling? (String.ofList unit) with
    | none => .error (.unknownUnit (String.ofList unit))
    | some unit => do
      let s ← s.add unit.countsSeconds (count * grains unit unit.countsSeconds)
      match fraction with
      | none => .ok s
      | some f =>
        if unit = .nano then .error .unrepresentable
        else
          let n ← word (f.digits * grains unit unit.partsCountSeconds)
          if n % f.divisor = 0 then s.add unit.partsCountSeconds (n / f.divisor)
          else .error .unrepresentable

/-- What is being read. -/
inductive Reading where
  /-- Before a number; the search began at offset `since`, and a number was `seen` before it. -/
  | seek (since : Nat) (seen : Bool)
  /-- The whole part of a number. -/
  | count (n : Nat)
  /-- The fraction of a number; `mark` is the offset that a fault in it is reported at. -/
  | fraction (n : Nat) (f : Fraction) (mark : Nat)
  /-- A unit, of which the letters read so far are given. -/
  | unit (n : Nat) (f : Option Fraction) (letters : List Char)
  deriving DecidableEq

/-- Where the reader stands: the offset of the next character, the sum of the items that have ended,
and what is being read. -/
structure Cursor where
  offset : Nat
  sum : Span
  reading : Reading
  deriving DecidableEq

/-- The letters of which units are made. -/
def isUnitLetter (c : Char) : Bool := c.isAlpha || c == 'µ'

/-- One digit more after the point. -/
def Fraction.push (f : Fraction) (d : Nat) : Except SpanFault Fraction := do
  let divisor ← word (10 * f.divisor)
  let digits ← word (10 * f.digits + d)
  return ⟨digits, divisor⟩

namespace Cursor

def start : Cursor := ⟨0, zero, .seek 0 false⟩

/-- Reads one character. -/
def next (r : Cursor) (c : Char) : Except SpanFault Cursor :=
  let past := r.offset + c.utf8Size
  match r.reading with
  | .seek since seen =>
    match digit? c with
    | some d => .ok ⟨past, r.sum, .count d⟩
    | none =>
      if isBlank c then .ok ⟨past, r.sum, .seek since seen⟩ else .error (.numberExpected since)
  | .count n =>
    match digit? c with
    | some d => return ⟨past, r.sum, .count (← word (10 * n + d))⟩
    | none =>
      if isBlank c then .ok ⟨past, r.sum, .count n⟩
      else if isUnitLetter c then .ok ⟨past, r.sum, .unit n none [c]⟩
      else if c = '.' then .ok ⟨past, r.sum, .fraction n ⟨0, 1⟩ r.offset⟩
      else .error (.badCharacter r.offset)
  | .fraction n f mark =>
    match digit? c with
    | some d => return ⟨past, r.sum, .fraction n (← f.push d) past⟩
    | none =>
      if isBlank c then .ok ⟨past, r.sum, .fraction n f past⟩
      else if isUnitLetter c && f.divisor != 1 then .ok ⟨past, r.sum, .unit n (some f) [c]⟩
      else .error (.badCharacter mark)
  | .unit n f letters =>
    if isUnitLetter c then .ok ⟨past, r.sum, .unit n f (letters ++ [c])⟩
    else match digit? c with
      | some d => return ⟨past, ← r.sum.addItem n f letters, .count d⟩
      | none =>
        if isBlank c then return ⟨past, ← r.sum.addItem n f letters, .seek past true⟩
        else .error (.badCharacter r.offset)

/-- The span that has been read when the text ends here. -/
def finish (r : Cursor) : Except SpanFault Span :=
  match r.reading with
  | .seek _ false => .error .empty
  | .seek _ true => .ok r.sum
  | .count n => r.sum.addItem n none []
  | .fraction n f mark =>
    if f.divisor = 1 then .error (.badCharacter mark) else r.sum.addItem n (some f) []
  | .unit n f letters => r.sum.addItem n f letters

end Cursor

/-- Reads a sum of numbers with units. -/
def parse (cs : List Char) : Except SpanFault Span := do
  (← cs.foldlM Cursor.next Cursor.start).finish

/-- Reads a span: a bare word is a number of seconds, all else a sum of numbers with units. -/
def read (cs : List Char) : Except SpanFault Span :=
  match h : word? cs with
  | some n => .ok (seconds n (by simpa using (Option.filter_eq_some_iff.mp h).2))
  | none => parse cs

end Span

end Gatekeeper

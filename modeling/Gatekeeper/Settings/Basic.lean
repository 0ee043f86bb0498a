import Gatekeeper.Settings.Fault

/-!
# Settings

What an engine is told when it is built.  `Settings.check` refuses values that make no sense;
`Settings.ofProperties` reads settings from pairs of a key and a value, in order, so that the last
value of a key wins.  Every value is checked for its form, also one that a later pair replaces; the
ranges are checked once, at the end.

The six settings are the same for the life of an engine.  Two of them are switches that turn off
what the others are about: without authorization everything is allowed, and without caching there
is nothing to refresh.
-/

set_option autoImplicit false

namespace Gatekeeper

open Text

def defaultRefreshInterval : Span := .seconds 300

def defaultBackendTimeout : Span := .seconds 10

/-- The settings of an engine. -/
structure Settings where
  /-- Whether anything is enforced at all. -/
  authorization : Bool := false
  /-- Whether privileges are cached. -/
  caching : Bool := true
  /-- The time between two background refreshes of the cache. -/
  refreshInterval : Span := defaultRefreshInterval
  /-- Whether the privileges of a principal that is not cached are fetched. -/
  fetchOnMiss : Bool := true
  /-- How many calls a refresh may have under way at once. -/
  refreshParallelism : Nat := 16
  /-- How long the answer of a backend is waited for. -/
  backendTimeout : Span := defaultBackendTimeout
  deriving DecidableEq

namespace Settings

/-- Decisions go through the cache. -/
def cachingActive (s : Settings) : Bool := s.authorization && s.caching

/-- The first value that must not be zero and is. -/
def zeroKey? (s : Settings) : Option Key :=
  if s.refreshInterval.isZero then some .refreshInterval
  else if s.refreshParallelism = 0 then some .refreshParallelism
  else if s.backendTimeout.isZero then some .backendTimeout
  else none

/-- Checks the ranges. -/
def check (s : Settings) : Except SettingsFault Unit :=
  match s.zeroKey? with
  | some key => .error (.zero key)
  | none => .ok ()

/-! ## Reading properties

Properties come as pairs of texts, in any order and mixed with those of others.  A pair is looked
at by itself; what must not be zero is looked at when all pairs have been read. -/

/-- A truth value, in any case and with blanks around it. -/
def readBool (key : Key) (value : String) : Except SettingsFault Bool :=
  match String.ofList (lower (trim value.toList)) with
  | "true" => .ok true
  | "false" => .ok false
  | _ => .error (.notBoolean key value)

/-- A number with blanks around it. -/
def readCount (key : Key) (value : String) : Except SettingsFault Nat :=
  match word? (trim value.toList) with
  | some n => .ok n
  | none => .error (.notInteger key value)

/-- A span with blanks around it. -/
def readSpan (key : Key) (value : String) : Except SettingsFault Span :=
  let value := trim value.toList
  match Span.read value with
  | .ok s => .ok s
  | .error fault => .error (.notSpan key (String.ofList value) fault)

/-- The settings with a new value for one key. -/
def assign (s : Settings) (key : Key) (value : String) : Except SettingsFault Settings := do
  match key with
  | .authorization => return { s with authorization := ← readBool key value }
  | .caching => return { s with caching := ← readBool key value }
  | .refreshInterval => return { s with refreshInterval := ← readSpan key value }
  | .fetchOnMiss => return { s with fetchOnMiss := ← readBool key value }
  | .refreshParallelism => return { s with refreshParallelism := ← readCount key value }
  | .backendTimeout => return { s with backendTimeout := ← readSpan key value }

/-- The settings after one more pair.  The key may have blanks around it; a key of another family is
passed over. -/
def assignPair (s : Settings) (pair : String × String) : Except SettingsFault Settings :=
  let key := trim pair.1.toList
  match Vocabulary.ofWord? (String.ofList key) with
  | some key => s.assign key pair.2
  | none =>
    if Key.family.toList.isPrefixOf key then .error (.unknownKey (String.ofList key)) else .ok s

/-- The settings that a list of pairs gives, starting from the defaults. -/
def ofProperties (pairs : List (String × String)) : Except SettingsFault Settings := do
  let s ← pairs.foldlM assignPair {}
  s.check
  return s

end Settings

end Gatekeeper

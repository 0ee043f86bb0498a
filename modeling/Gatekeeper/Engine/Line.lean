import Gatekeeper.Engine.State

/-!
# Log lines

Some of what happens in an engine is worth a line in a log: `Note.line?` says which, at what level
and in what words.
-/

set_option autoImplicit false

namespace Gatekeeper

/-- How important a line is. -/
inductive Level where
  | trace
  | debug
  | info
  | warn
  deriving DecidableEq

def Level.word : Level → String
  | trace => "TRACE"
  | debug => "DEBUG"
  | info => "INFO"
  | warn => "WARN"

/-- A line of the log. -/
structure Line where
  level : Level
  words : String
  deriving DecidableEq

def Line.text (l : Line) : String := l.level.word ++ " " ++ l.words

namespace Engine

/-- The line of a set that has been stored; what is written by hand has none. -/
def storedLine? (p : Principal) (privileges : PrivilegeSet) (o : Origin) : Option Line :=
  let words := " " ++ toString privileges.size ++ " privilege(s) for " ++ p.text
  match o with
  | .call _ (.pass _) => some ⟨.trace, "refreshed" ++ words⟩
  | .call _ _ => some ⟨.trace, "caching" ++ words⟩
  | .hand => none

/-- The line that a note is worth. -/
def Note.line? : Note → Option Line
  | .missed _ p => some ⟨.debug, "no cached privileges for " ++ p.text ++ ", fetching"⟩
  | .stored p privileges o => storedLine? p privileges o
  | .invalidated n => some ⟨.debug, "clearing " ++ toString n ++ " cached principal(s)"⟩
  | .passStarted _ n => some ⟨.debug, "refreshing privileges for " ++ toString n ++ " principal(s)"⟩
  | .passFinished _ r => some ⟨.debug, "privilege refresh finished: " ++ toString r.refreshed
      ++ " refreshed, " ++ toString r.failed ++ " failed"⟩
  | .passAbandoned _ => some ⟨.debug, "abandoning in-flight privilege refresh"⟩
  | .refreshFailed p cause => some ⟨.warn, "failed to refresh privileges for " ++ p.text ++ ": "
      ++ (Error.backendUnavailable cause).text⟩
  | .refreshCrashed _ => some ⟨.warn, "privilege refresh task did not complete:"⟩
  | .cachingUnused => some ⟨.warn, "privilege caching is enabled (" ++ Key.caching.text
      ++ " is true), however no privileges will be cached because authorization is disabled ("
      ++ Key.authorization.text ++ " is false)"⟩
  | .syncStarting period => some ⟨.info, "starting privilege sync every " ++ period.text⟩
  | .syncStopping => some ⟨.info, "shutting down privilege sync"⟩
  | .syncStopped _ => some ⟨.info, "privilege sync stopped"⟩
  | .syncCrashed _ => some ⟨.warn, "privilege sync task panicked:"⟩
  | _ => none

end Engine

end Gatekeeper

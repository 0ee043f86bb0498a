import Gatekeeper.Span.Reader
import Gatekeeper.Text.Vocabulary

/-!
# Settings keys and what can be wrong with settings
-/

set_option autoImplicit false

namespace Gatekeeper

/-- The keys of the settings that this library reads. -/
inductive Key where
  | authorization
  | caching
  | refreshInterval
  | fetchOnMiss
  | refreshParallelism
  | backendTimeout
  deriving DecidableEq

namespace Key

def text : Key → String
  | authorization => "authorization.enabled"
  | caching => "authorization.cache.enabled"
  | refreshInterval => "authorization.cache.refresh-interval"
  | fetchOnMiss => "authorization.cache.fetch-on-miss"
  | refreshParallelism => "authorization.cache.refresh-parallelism"
  | backendTimeout => "authorization.backend.timeout"

/-- What every key of this library begins with; keys that do not are somebody else's. -/
def family : String := "authorization."

def all : List Key :=
  [authorization, caching, refreshInterval, fetchOnMiss, refreshParallelism, backendTimeout]

instance : Vocabulary Key := ⟨all, text, fun k => by cases k <;> decide⟩

end Key

/-- Why settings, or a request to start refreshing, are refused. -/
inductive SettingsFault where
  | notBoolean (key : Key) (value : String)
  | notInteger (key : Key) (value : String)
  | notSpan (key : Key) (value : String) (fault : SpanFault)
  /-- The key belongs to this library's family but is none of its keys. -/
  | unknownKey (key : String)
  | zero (key : Key)
  /-- Refreshing was asked for at intervals of no length. -/
  | zeroPeriod
  /-- The engine has been shut down and cannot be started again. -/
  | shutDown
  /-- There is no scheduler to run the background refresh. -/
  | noScheduler
  /-- A fault that the caller words. -/
  | stated (text : String)
  deriving DecidableEq

def SettingsFault.text : SettingsFault → String
  | notBoolean key value => key.text ++ ": \x60" ++ value ++ "\x60 is not a boolean"
  | notInteger key value => key.text ++ ": \x60" ++ value ++ "\x60 is not a positive integer"
  | notSpan key value fault =>
    key.text ++ ": \x60" ++ value ++ "\x60 is not a duration: " ++ fault.text
  | unknownKey key => "unknown key \x60" ++ key ++ "\x60"
  | zero key => key.text ++ " must be greater than zero"
  | zeroPeriod => "privilege refresh period must be greater than zero"
  | shutDown => "the enforcement engine has been shut down"
  | noScheduler => "the enforcement engine must be started inside a tokio runtime"
  | stated text => text

end Gatekeeper

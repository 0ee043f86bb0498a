import Gatekeeper.Identity.Principal
import Gatekeeper.Identity.Privilege
import Gatekeeper.Settings.Fault
import Gatekeeper.Span.Printer

/-!
# Errors

Every operation of the library fails with one of four kinds of error.  A denial names the principal,
the resource and the action; an unavailable backend carries its cause, and the cause may have causes
of its own, all of them texts to this library.

An error is shown as a text and as the chain of its causes.  A cause is shared by handing on what
it says, since several callers may be told the same failure.
-/

set_option autoImplicit false

namespace Gatekeeper

/-- Why a backend could not answer. -/
inductive Cause where
  /-- The backend's own words, and those of what lies behind them, outermost first. -/
  | reported (text : String) (sources : List String)
  /-- The named operation took longer than the limit. -/
  | timedOut (operation : String) (limit : Span)
  deriving DecidableEq

namespace Cause

def text : Cause → String
  | reported text _ => text
  | timedOut operation limit => operation ++ " timed out after " ++ limit.text

/-- The text of the cause and of what lies behind it, outermost first. -/
def chain : Cause → List String
  | reported text sources => text :: sources
  | timedOut operation limit => [(timedOut operation limit).text]

end Cause

/-- What an operation of the library fails with. -/
inductive Error where
  | permissionDenied (principal : Principal) (entity : Entity) (action : Action)
  | backendUnavailable (cause : Cause)
  | configuration (fault : SettingsFault)
  | invalidId (fault : IdFault)
  deriving DecidableEq

namespace Error

def text : Error → String
  | permissionDenied principal entity action =>
    "principal " ++ principal.text ++ " is not authorized to perform " ++ action.word ++ " on "
      ++ entity.text
  | backendUnavailable cause => "authorization backend unavailable: " ++ cause.text
  | configuration fault => "invalid configuration: " ++ fault.text
  | invalidId fault => "invalid id: " ++ fault.text

/-- The causes behind the error, outermost first. -/
def chain : Error → List String
  | backendUnavailable cause => cause.chain
  | _ => []

def isPermissionDenied : Error → Bool
  | permissionDenied .. => true
  | _ => false

def isBackendUnavailable : Error → Bool
  | backendUnavailable _ => true
  | _ => false

/-- The error as the cause of another: its own words, and those of what lies behind it. -/
def asCause (e : Error) : Cause := .reported e.text e.chain

/-- What is handed on of the error of a call that several wait for, each of whom makes an error of
it again: the cause of an unavailable backend, and any other error as a whole. -/
def shared : Error → Cause
  | backendUnavailable cause => cause
  | e => e.asCause

@[simp] theorem shared_backendUnavailable (cause : Cause) :
    (backendUnavailable cause).shared = cause := rfl

/-- An error comes back from sharing as it was exactly if it is that of an unavailable backend. -/
theorem backendUnavailable_shared_iff {e : Error} :
    backendUnavailable e.shared = e ↔ e.isBackendUnavailable = true := by
  cases e <;> simp [shared, isBackendUnavailable]

end Error

end Gatekeeper

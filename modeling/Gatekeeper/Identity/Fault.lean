import Gatekeeper.Identity.Kind

/-!
# What can be wrong with an identifier

An identifier is refused for a cause, a value of `IdFault`; `IdFault.text` words it.
-/

set_option autoImplicit false

namespace Gatekeeper

/-- What a name is the name of. -/
inductive NameRole where
  | principal
  | space
  | dataset
  | stream
  | application
  | program
  deriving DecidableEq

def NameRole.word : NameRole → String
  | principal => "principal"
  | space => EntityKind.space.word
  | dataset => EntityKind.dataset.word
  | stream => EntityKind.stream.word
  | application => EntityKind.application.word
  | program => EntityKind.program.word

/-- What can be wrong with a name, after trimming. -/
inductive NameFault where
  | empty
  | tooLong
  | badCharacter
  deriving DecidableEq

/-- The length limit of names, in bytes of UTF-8. -/
def nameLimit : Nat := 128

/-- Why an identifier is refused. -/
inductive IdFault where
  | name (role : NameRole) (fault : NameFault)
  /-- The word before the colon, trimmed and in lower case, names no kind of principal. -/
  | unknownPrincipalKind (word : String)
  | unknownEntityKind (word : String)
  | unknownAction (word : String)
  /-- A principal's text has no colon. -/
  | principalShape
  /-- A resource's text has no colon. -/
  | entityShape
  | wrongDepth (kind : EntityKind)
  /-- A child of a kind that lives in namespaces was asked of something else. -/
  | notInSpace (child receiver : EntityKind)
  /-- A program was asked of something that is not an application. -/
  | notInApplication (receiver : EntityKind)
  /-- A fault that the caller words. -/
  | stated (text : String)
  deriving DecidableEq

def NameFault.text (role : NameRole) : NameFault → String
  | empty => role.word ++ " name must not be empty"
  | tooLong => role.word ++ " name length must be <= " ++ toString nameLimit
  | badCharacter => role.word ++ " name contains invalid characters"

def IdFault.text : IdFault → String
  | name role fault => fault.text role
  | unknownPrincipalKind word => "unknown principal type \x60" ++ word ++ "\x60"
  | unknownEntityKind word => "unknown entity kind \x60" ++ word ++ "\x60"
  | unknownAction word => "unknown action \x60" ++ word ++ "\x60"
  | principalShape => "principal must be in type:name format"
  | entityShape => "entity must be in kind:path format"
  | wrongDepth kind => kind.word ++ " id must have " ++ toString kind.depth ++ " segment(s)"
  | notInSpace child receiver =>
    "a " ++ child.word ++ " must belong to a namespace, not a " ++ receiver.word
  | notInApplication receiver =>
    "a program must belong to an application, not a " ++ receiver.word
  | stated text => text

end Gatekeeper

import Gatekeeper.Text.Vocabulary

/-!
# Kinds and actions

Three closed vocabularies: what a principal can be, what a resource can be, and what can be done to
a resource.
-/

set_option autoImplicit false

namespace Gatekeeper

/-- The kind of an authenticated identity. -/
inductive PrincipalKind where
  | user
  | group
  | role
  deriving DecidableEq

namespace PrincipalKind

def word : PrincipalKind → String
  | user => "user"
  | group => "group"
  | role => "role"

instance : Vocabulary PrincipalKind :=
  ⟨[user, group, role], word, fun k => by cases k <;> decide⟩

/-- The position of the kind among all kinds. -/
def rank : PrincipalKind → Nat
  | user => 0
  | group => 1
  | role => 2

end PrincipalKind

/-- The kind of a resource.  A `space` is what is written `namespace`: the outermost container. -/
inductive EntityKind where
  | space
  | dataset
  | stream
  | application
  | program
  deriving DecidableEq

namespace EntityKind

def word : EntityKind → String
  | space => "namespace"
  | dataset => "dataset"
  | stream => "stream"
  | application => "application"
  | program => "program"

instance : Vocabulary EntityKind :=
  ⟨[space, dataset, stream, application, program], word, fun k => by cases k <;> decide⟩

/-- How many names identify a resource of the kind. -/
def depth : EntityKind → Nat
  | space => 1
  | dataset | stream | application => 2
  | program => 3

end EntityKind

/-- What a principal may do to a resource. -/
inductive Action where
  | read
  | write
  | execute
  | admin
  deriving DecidableEq

namespace Action

def word : Action → String
  | read => "read"
  | write => "write"
  | execute => "execute"
  | admin => "admin"

/-- Every action, in order. -/
def all : List Action := [read, write, execute, admin]

instance : Vocabulary Action := ⟨all, word, fun a => by cases a <;> decide⟩

/-- The position of the action among all actions. -/
def rank : Action → Nat
  | read => 0
  | write => 1
  | execute => 2
  | admin => 3

end Action

end Gatekeeper

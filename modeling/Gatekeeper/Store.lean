import Gatekeeper.Error
import Gatekeeper.Table

/-!
# The in-memory store of grants

A store holds what has been granted to each principal.  It can be marked unavailable; every
operation then fails and changes nothing but the count of listings.
-/

set_option autoImplicit false

namespace Gatekeeper

/-- What has been granted to whom. -/
structure Store where
  granted : Table Principal PrivilegeSet := .empty
  available : Bool := true
  /-- How many times privileges have been listed, failures included. -/
  listings : Nat := 0

namespace Store

/-- Why an unavailable store does not answer. -/
def unavailable : Cause := .reported "in-memory authorizer is unavailable" []

/-- What the principal has been granted. -/
def privileges (s : Store) (p : Principal) : PrivilegeSet := (s.granted.get? p).getD .empty

def setAvailable (s : Store) (on : Bool) : Store := { s with available := on }

/-- What an operation makes of the grants, if the store is available. -/
def change (s : Store) (f : Table Principal PrivilegeSet → Table Principal PrivilegeSet) :
    Except Cause Store :=
  if s.available then .ok { s with granted := f s.granted } else .error unavailable

/-- Grants actions on a resource to a principal. -/
def grant (s : Store) (e : Entity) (p : Principal) (as : List Action) : Except Cause Store :=
  s.change fun t => t.put p ((s.privileges p).insertAll (as.map (⟨e, ·⟩)))

/-- Takes actions on a resource from a principal. -/
def revoke (s : Store) (e : Entity) (p : Principal) (as : List Action) : Except Cause Store :=
  s.change fun t => t.update p (·.filter fun x => !(x.entity == e && as.contains x.action))

/-- Takes every action on a resource from every principal. -/
def revokeAll (s : Store) (e : Entity) : Except Cause Store :=
  s.change fun t => t.mapValues (·.filter fun x => x.entity != e)

/-- Lists the privileges of a principal. -/
def list (s : Store) (p : Principal) : Store × Except Cause PrivilegeSet :=
  ({ s with listings := s.listings + 1 },
    if s.available then .ok (s.privileges p) else .error unavailable)

/-- Whether a principal holds a privilege: its privileges are listed and searched. -/
def check (s : Store) (e : Entity) (p : Principal) (a : Action) : Store × Except Cause Bool :=
  let (s, listed) := s.list p
  (s, listed.map fun privileges => decide (⟨e, a⟩ ∈ privileges))

/-! ## Operations as data

What can be asked of a store is given as data as well, so that one can speak of histories. -/

/-- What can be asked of a store. -/
inductive Op where
  | grant (entity : Entity) (principal : Principal) (actions : List Action)
  | revoke (entity : Entity) (principal : Principal) (actions : List Action)
  | revokeAll (entity : Entity)
  | setAvailable (on : Bool)
  | list (principal : Principal)
  | check (entity : Entity) (principal : Principal) (action : Action)
  deriving DecidableEq

/-- What a store answers. -/
inductive Result where
  | done
  | listed (privileges : PrivilegeSet)
  | checked (on : Bool)
  | failed (cause : Cause)
  deriving DecidableEq

/-- The store after a change; one that fails leaves it as it was. -/
def commit (s : Store) : Except Cause Store → Store × Result
  | .ok t => (t, .done)
  | .error cause => (s, .failed cause)

/-- Carries out an operation. -/
def perform (s : Store) : Op → Store × Result
  | .grant e p as => s.commit (s.grant e p as)
  | .revoke e p as => s.commit (s.revoke e p as)
  | .revokeAll e => s.commit (s.revokeAll e)
  | .setAvailable on => (s.setAvailable on, .done)
  | .list p => match s.list p with
    | (s, .ok privileges) => (s, .listed privileges)
    | (s, .error cause) => (s, .failed cause)
  | .check e p a => match s.check e p a with
    | (s, .ok on) => (s, .checked on)
    | (s, .error cause) => (s, .failed cause)

end Store

end Gatekeeper

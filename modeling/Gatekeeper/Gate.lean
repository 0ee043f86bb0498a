import Gatekeeper.Engine.Line
import Gatekeeper.Engine.Step

/-!
# The gate in front of a service

A gate guards a service with one privilege.  A request without a known principal is turned away
before anything is asked of the engine; any other is let through exactly if the engine allows it,
and is then answered by the service behind the gate and by nobody else.

There are four ways for a request to go: it is turned away without a principal, forbidden, turned
away because nobody could say whether it is allowed, or let through.  Each of the first three has
a response of its own.
-/

set_option autoImplicit false

namespace Gatekeeper.Gate

/-- A request as it comes to the gate. -/
structure Request where
  /-- Who the caller is, if that has been found out. -/
  principal : Option Principal
  body : String
  deriving DecidableEq

/-- An answer to a request. -/
structure Response where
  status : Nat
  body : String
  deriving DecidableEq

/-- Why the gate turns a request away. -/
inductive Refusal where
  | noPrincipal
  | denied
  | undecided
  deriving DecidableEq

def Refusal.response : Refusal → Response
  | noPrincipal => ⟨401, "missing enforcement context"⟩
  | denied => ⟨403, "forbidden"⟩
  | undecided => ⟨503, "authorization unavailable"⟩

/-- What is asked of the engine about a request, if anything: whether the principal of the request
may do the action that the gate stands for to its resource. -/
def question? (e : Entity) (a : Action) (r : Request) : Option Engine.Event :=
  r.principal.map fun p => .enforce e p a

/-- What the gate makes of a decision: `none` lets the request through.  Of what an engine tells
those who ask it to enforce, only the permission does. -/
def refusal? : Engine.Outcome → Option Refusal
  | .allowed => none
  | .failed (.permissionDenied ..) => some .denied
  | _ => some .undecided

/-- The line that the gate logs about a decision. -/
def line? (p : Principal) : Engine.Outcome → Option Line
  | .failed (.permissionDenied ..) => none
  | .failed e => some ⟨.warn, "enforcement failed for " ++ p.text ++ ": " ++ e.text⟩
  | _ => none

/-! ## The service behind the gate

A service says whether it takes requests: at once, when it is asked again, or not at all.  A request
that has been let through is handed to it as soon as it does. -/

/-- What a service says when it is asked whether it takes a request. -/
inductive Readiness where
  | ready
  /-- It does not say so until it is asked again. -/
  | hesitant
  | broken (text : String)
  deriving DecidableEq

/-- A service: whether it takes requests, and what it does with one. -/
structure Service where
  readiness : Readiness
  serve : Request → Except String Response

/-- What became of a request, and how often the service was called for it. -/
structure Exchange where
  answer : Except String Response
  served : Nat

/-- Hands a request to the service. -/
def Service.handle (service : Service) (r : Request) : Exchange :=
  match service.readiness with
  | .broken text => ⟨.error text, 0⟩
  | .ready | .hesitant => ⟨service.serve r, 1⟩

/-- The exchange of a request that comes without a principal. -/
def turnedAway : Exchange := ⟨.ok Refusal.noPrincipal.response, 0⟩

/-- The exchange of a request on which the engine has decided. -/
def complete (service : Service) (r : Request) (o : Engine.Outcome) : Exchange :=
  match refusal? o with
  | some refusal => ⟨.ok refusal.response, 0⟩
  | none => service.handle r

/-- A request on which the engine has decided has to wait for the service.  Only one that is let
through comes that far. -/
def stalls (service : Service) (o : Engine.Outcome) : Bool :=
  refusal? o = none && service.readiness = .hesitant

end Gatekeeper.Gate

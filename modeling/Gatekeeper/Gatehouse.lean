import Gatekeeper.Gate

/-!
# What can happen at a gate

Any number of requests are at a gate at once, and whoever else uses the engine goes on using it.  A
run of a gatehouse is any sequence of such acts: a request comes, something happens to the engine,
or somebody looks what the engine has said about a request, which is answered then.  A gate holds
on to its engine, so that where the engine is gone there is no gate that a request could come to.
-/

set_option autoImplicit false

namespace Gatekeeper

open Engine

/-- How far a request has got that has come to a gate. -/
inductive Gate.Fate where
  /-- The engine has been asked in the name of the caller. -/
  | waiting (caller : Id)
  | answered (exchange : Exchange)
  /-- It was taken down by a crash, and has no answer. -/
  | crashed

/-- A gate with the engine that it asks, and all that has come to it. -/
structure Gatehouse where
  entity : Entity
  action : Action
  service : Gate.Service
  engine : State
  /-- The requests in the order in which they have come. -/
  visits : List (Gate.Request × Gate.Fate) := []
  /-- The calls of the service, newest first, each by the place of the request among all. -/
  served : List Nat := []

namespace Gatehouse

/-- What can happen at a gate. -/
inductive Act where
  | arrive (request : Gate.Request)
  /-- Somebody looks whether the engine has said something about a request. -/
  | look (place : Nat)
  | event (event : Event)

/-- A gate in front of a service, with a new engine. -/
def initial (settings : Settings) (checks : Bool) (entity : Entity) (action : Action)
    (service : Gate.Service) : Gatehouse :=
  { entity, action, service, engine := { settings, checks } }

/-- What the engine has told a caller. -/
def told? (g : Gatehouse) (c : Id) : Option Outcome :=
  g.engine.journal.findSome? fun
    | .returned c' o => if c' = c then some o else none
    | _ => none

/-- A request comes. -/
def arrive (g : Gatehouse) (r : Gate.Request) : Gatehouse :=
  match Gate.question? g.entity g.action r with
  | some question =>
    { g with
      engine := g.engine.step question
      visits := g.visits ++ [(r, .waiting g.engine.next)] }
  | none => { g with visits := g.visits ++ [(r, .answered Gate.turnedAway)] }

/-- What the engine has said about the request at a place is heard. -/
def hear (g : Gatehouse) (i : Nat) (r : Gate.Request) : Outcome → Gatehouse
  | .crashed => { g with visits := g.visits.set i (r, .crashed) }
  | o =>
    let exchange := Gate.complete g.service r o
    { g with
      visits := g.visits.set i (r, .answered exchange)
      served := List.replicate exchange.served i ++ g.served }

/-- Somebody looks at the request at a place. -/
def look (g : Gatehouse) (i : Nat) : Gatehouse :=
  match g.visits[i]? with
  | some (r, .waiting c) =>
    match g.told? c with
    | some o => g.hear i r o
    | none => g
  | _ => g

/-- What an act does. -/
def act (g : Gatehouse) : Act → Gatehouse
  | .arrive r => if g.engine.dropped then g else g.arrive r
  | .look i => g.look i
  | .event ev => { g with engine := g.engine.step ev }

/-- What a sequence of acts does. -/
def run (g : Gatehouse) (acts : List Act) : Gatehouse := acts.foldl act g

end Gatehouse

end Gatekeeper

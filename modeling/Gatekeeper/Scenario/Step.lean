import Gatekeeper.Gate
import Gatekeeper.Site.Backend

/-!
# Scenarios

A scenario is a list of steps that are carried out one after the other on a clock of its own.  A
step is one operation, or several steps together; in either case it can be given a time after which
it is given up.  A step that crashes takes down the steps that it is taken together with, and the
scenario.
-/

set_option autoImplicit false

namespace Gatekeeper.Scenario

/-- What a scenario is about. -/
inductive Target where
  | engine
  /-- A refresher over a cache, without an engine around it. -/
  | refresher
  | cache
  | backend
  deriving DecidableEq

/-- The parts that operations work on. -/
inductive Part where
  | engine
  | refresher
  /-- Whatever can run a refresh pass. -/
  | passes
  | cache
  | backend
  | script
  deriving DecidableEq

/-- An operation on a cache. -/
inductive CacheOp where
  | put (principal : Principal) (privileges : List Privilege)
  | get (principal : Principal)
  /-- Keeps the entry of the principal, as it is now, under a name. -/
  | hold (name : String) (principal : Principal)
  /-- Shows what is kept under a name. -/
  | peek (name : String)
  | keys
  | length
  | clear
  deriving DecidableEq

/-- One operation. -/
inductive Op where
  | enforce (entity : Entity) (principal : Principal) (action : Action)
  | update (principal : Principal)
  | iterate
  | invalidate
  | cached (principal : Principal)
  | start (scheduler : Bool)
  | shutdown
  | drop
  /-- A request through a gate that guards a service with an action on a resource. -/
  | request (entity : Entity) (action : Action) (request : Gate.Request) (service : Gate.Service)
  | spawn (handle : String) (period : Span)
  | running (handle : String)
  | stop (handle : String)
  | release (handle : String)
  | cache (op : CacheOp)
  /-- Changes go to the store of the backend; listings and checks are calls to the backend. -/
  | backend (op : Store.Op)
  | script (change : ScriptChange)
  | advance (millis : Nat)
  /-- An operation on a part that names something it cannot. -/
  | malformed (part : Part) (fault : IdFault)

/-- The part that the operation works on, if it needs one. -/
def Op.part? : Op → Option Part
  | enforce .. | update _ | invalidate | cached _ | start _ | shutdown | request .. => some .engine
  | iterate => some .passes
  | spawn .. | stop _ | release _ => some .refresher
  | cache (.peek _) | running _ => none
  | cache _ => some .cache
  | backend _ => some .backend
  | script _ => some .script
  | malformed part _ => some part
  | advance _ | drop => none

/-- A step.  It begins `delay` milliseconds after what it is part of, and is given up when it is not
done `patience` milliseconds after that. -/
inductive Step where
  | one (op : Op) (delay : Nat) (patience : Option Nat)
  | together (steps : List Step) (delay : Nat) (patience : Option Nat)

/-- What a step comes to. -/
inductive Answer where
  | nothing
  | word (word : String)
  | flag (on : Bool)
  | privileges (privileges : Option PrivilegeSet)
  | report (report : Engine.Report)
  | names (names : List String)
  | length (length : Nat)
  | failure (error : Error)
  /-- The backend itself failed. -/
  | backendFailure (text : String)
  | exchange (exchange : Gate.Exchange)
  | skipped
  | gaveUp
  | crashed
  /-- The answers of steps taken together, with the times at which they ended. -/
  | all (answers : List (Answer × Nat))

instance : Inhabited Answer := ⟨.nothing⟩

/-- The step has crashed. -/
def Answer.isCrash : Answer → Bool
  | crashed => true
  | _ => false

/-! ## Tasks

A task follows a step from its beginning to what it comes to, and a group of steps is a group of
tasks. -/

/-- How far an operation has got. -/
inductive Progress where
  /-- Its time has not come. -/
  | waiting
  /-- It waits for what the engine tells a caller. -/
  | asked (caller : Engine.Id)
  /-- It waits for the backend, which it has called itself. -/
  | probing (ticket : Ticket)
  | sleeping (till : Nat)
  /-- It waits for the service behind a gate, which takes no time. -/
  | stalled (exchange : Gate.Exchange)
  | done (answer : Answer)

/-- A step that is being carried out.  It begins at `start`, and is given up at `limit`. -/
inductive Task where
  | one (op : Op) (start : Nat) (limit : Option Nat) (progress : Progress)
  | together (members : List Task) (start : Nat) (limit : Option Nat)
  /-- It has come to an end. -/
  | ended (answer : Answer) (time : Nat)

/-- The task has come to an end. -/
def Task.isOver : Task → Bool
  | ended .. => true
  | _ => false

/-- What the task has come to. -/
def Task.answer : Task → Answer
  | ended answer _ => answer
  | _ => .nothing

/-- What tasks have come to and when, if all of them are over. -/
def Task.answers? (tasks : List Task) : Option (List (Answer × Nat)) :=
  tasks.mapM fun
    | .ended answer time => some (answer, time)
    | _ => none

/-- What tasks taken together have come to: they crash with the first of them that does, and are
otherwise over when each of them is. -/
def Task.joint? (tasks : List Task) : Option Answer :=
  if tasks.any (·.answer.isCrash) then some .crashed else (answers? tasks).map .all

mutual

/-- The task of a step, of a group that begins at the given time. -/
def Step.task (time : Nat) : Step → Task
  | .one op delay patience =>
    .one op (time + delay) (patience.map (time + delay + ·)) .waiting
  | .together steps delay patience =>
    .together (tasks (time + delay) steps) (time + delay) (patience.map (time + delay + ·))

/-- The tasks of the steps of a group that begins at the given time. -/
def tasks (time : Nat) : List Step → List Task
  | [] => []
  | step :: steps => step.task time :: tasks time steps

end

end Gatekeeper.Scenario

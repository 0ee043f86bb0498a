import Gatekeeper.Error
import Gatekeeper.Settings.Basic
import Gatekeeper.Table

/-!
# The state of an enforcement engine

An engine answers whether a principal may do something to a resource.  It keeps whole privilege sets
in a cache, fetches them from a backend, and refreshes them in passes.  Everything that can be under
way at a moment is in `State`:

* the *calls* made to the backend that have not ended;
* the *fetches* registered for principals that were missed in the cache, at most one for each;
* the *callers* that wait for something, and for what;
* the *passes* that refresh the cache, and the *workers* that start passes again and again;
* the *journal* of what has happened, newest first.

Callers, calls, passes and workers are known by numbers, drawn from one supply that never repeats.
Time is counted in milliseconds; ticks of workers, whose periods may be shorter, in nanoseconds.
-/

set_option autoImplicit false

namespace Gatekeeper.Engine

/-- The number of a caller, a call, a pass or a worker. -/
abbrev Id := Nat

/-! ## Calls

A call is made for an owner, about a principal, and asks one question.  A fetch stands for the
call that it has begun, as long as that is under way; if the call crashes the fetch stays behind,
broken. -/

/-- How a backend ends a call, if it does. -/
inductive Reply (α : Type) where
  | value (a : α)
  | failed (cause : Cause)
  | crashed
  deriving DecidableEq

def Reply.map {α β : Type} (f : α → β) : Reply α → Reply β
  | value a => value (f a)
  | failed cause => failed cause
  | crashed => crashed

/-- What a call asks of the backend about a principal. -/
inductive Question where
  | listing
  | check (entity : Entity) (action : Action)
  deriving DecidableEq

/-- For whom a call is made. -/
inductive Owner where
  /-- The fetch that is registered for the call's principal. -/
  | fetch
  /-- A caller that updates the cache entry of the call's principal. -/
  | update (caller : Id)
  /-- A caller that has a decision made without the cache. -/
  | direct (caller : Id) (entity : Entity) (action : Action)
  | pass (pass : Id)
  deriving DecidableEq

/-- The operation that is named when the call takes too long. -/
def Owner.operation : Owner → String
  | direct .. => "enforce"
  | _ => "list_privileges"

/-- A call to the backend that has not ended.  It may take until `deadline`. -/
structure Call where
  principal : Principal
  question : Question
  owner : Owner
  begun : Nat
  deadline : Nat
  deriving DecidableEq

/-- A fetch that is registered for a principal. -/
inductive Fetch where
  | underway (call : Id)
  /-- The call crashed.  The fetch never ends, and whoever waits for it crashes too. -/
  | broken
  deriving DecidableEq

/-! ## Passes and workers

A pass is run for a caller who has asked for it, or for a worker that begins one at every tick. -/

/-- What a pass has come to. -/
structure Report where
  refreshed : Nat := 0
  failed : Nat := 0
  deriving DecidableEq

/-- For whom a pass is run. -/
inductive Driver where
  | caller (caller : Id)
  | worker (worker : Id)
  deriving DecidableEq

/-- A call of a pass that has ended but has not been looked at. -/
structure Landing where
  principal : Principal
  call : Id
  reply : Reply PrivilegeSet
  deriving DecidableEq

/-- A refresh of the principals that were in the cache when it began.  Each of them is first in
`queue`, then `flying` while its call is under way, then in `landed`, and then in the `report`. -/
structure Pass where
  driver : Driver
  queue : List Principal
  flying : List Principal
  landed : List Landing
  report : Report
  deriving DecidableEq

/-- Every principal of the pass is in its report. -/
def Pass.complete (pass : Pass) : Bool :=
  pass.queue.isEmpty && pass.flying.isEmpty && pass.landed.isEmpty

/-- What a worker is doing. -/
inductive Phase where
  /-- It has not run yet. -/
  | fresh
  /-- It waits for its next tick. -/
  | idle
  | refreshing (pass : Id)
  | ended
  | crashed
  deriving DecidableEq

/-- A background task that starts a pass at every tick.  Its next tick is at `due`, in
nanoseconds. -/
structure Worker where
  period : Span
  due : Nat
  phase : Phase
  /-- It has been asked to stop. -/
  stopping : Bool
  deriving DecidableEq

/-- The worker has not ended in one way or the other. -/
def Worker.alive (w : Worker) : Bool :=
  match w.phase with
  | .ended | .crashed => false
  | _ => true

/-! ## Callers

Whoever asks for something gets a number, and is told something under this number once. -/

/-- What is asked of an engine by somebody who waits for an answer. -/
inductive Request where
  | enforce (entity : Entity) (principal : Principal) (action : Action)
  | update (principal : Principal)
  | iterate
  | start
  | shutdown
  | spawn (period : Span)
  | stop (worker : Id)
  deriving DecidableEq

/-- What a caller is told. -/
inductive Outcome where
  | allowed
  | updated
  | refreshed (report : Report)
  | started
  | stopped
  | spawned (worker : Id)
  | failed (error : Error)
  /-- The caller was taken down by a crash. -/
  | crashed
  deriving DecidableEq

/-- What a caller waits for. -/
inductive Waiting where
  /-- The fetch registered for the principal, to decide on the action on the resource. -/
  | fetch (principal : Principal) (entity : Entity) (action : Action)
  /-- A call of its own. -/
  | call (call : Id)
  | pass (pass : Id)
  /-- The end of the worker. -/
  | worker (worker : Id)
  deriving DecidableEq

/-- Where an engine stands in its life: not started, with the worker that it has started, or shut
down. -/
inductive Lifecycle where
  | idle
  | running (worker : Id)
  | stopped
  deriving DecidableEq

/-! ## The journal

The journal is written and never read by what happens.  It holds what can be seen of an engine,
and also what can only be reasoned about, such as which call a set was stored from. -/

/-- Where a stored set comes from. -/
inductive Origin where
  | call (call : Id) (owner : Owner)
  /-- Somebody wrote it into the cache by hand. -/
  | hand
  deriving DecidableEq

/-- How a call has ended. -/
inductive Ending where
  | listed (reply : Reply PrivilegeSet)
  | checked (reply : Reply Bool)
  | timedOut
  deriving DecidableEq

/-- Something that happened in an engine. -/
inductive Note where
  | called (caller : Id) (request : Request)
  | returned (caller : Id) (outcome : Outcome)
  | cancelled (caller : Id)
  /-- A caller found no cache entry and turns to a fetch. -/
  | missed (caller : Id) (principal : Principal)
  /-- A caller waits for the call of a fetch, whether it started the fetch or joined it. -/
  | joined (caller : Id) (call : Id)
  | began (call : Id) (principal : Principal) (question : Question) (owner : Owner)
  | ended (call : Id) (principal : Principal) (ending : Ending)
  /-- Nobody is interested in the call any more. -/
  | dropped (call : Id) (owner : Owner)
  | stored (principal : Principal) (privileges : PrivilegeSet) (origin : Origin)
  /-- The cache was cleared of so many entries by the engine. -/
  | invalidated (count : Nat)
  /-- The cache was cleared by hand. -/
  | cleared
  | passStarted (pass : Id) (count : Nat)
  | passFinished (pass : Id) (report : Report)
  /-- A worker was asked to stop in the middle of a pass. -/
  | passAbandoned (pass : Id)
  | refreshFailed (principal : Principal) (cause : Cause)
  | refreshCrashed (principal : Principal)
  /-- Caching is switched on but has no effect. -/
  | cachingUnused
  | syncStarting (period : Span)
  | syncStopping
  | syncSpawned (worker : Id)
  | syncStopped (worker : Id)
  /-- Somebody who waited for a worker to end learnt that it had crashed. -/
  | syncCrashed (worker : Id)
  deriving DecidableEq

/-! ## The state

All that an engine is made of at a moment. -/

/-- An engine and everything that is under way in it. -/
structure State where
  settings : Settings
  /-- The backend checks single privileges itself; else a check lists and searches. -/
  checks : Bool
  now : Nat := 0
  next : Id := 0
  cache : Table Principal PrivilegeSet := .empty
  calls : Table Id Call := .empty
  fetches : Table Principal Fetch := .empty
  callers : Table Id Waiting := .empty
  passes : Table Id Pass := .empty
  workers : Table Id Worker := .empty
  lifecycle : Lifecycle := .idle
  /-- The engine is gone; what is left of it runs out. -/
  dropped : Bool := false
  journal : List Note := []

/-- A new engine, if its settings pass the check. -/
def build (settings : Settings) (checks : Bool) : Except SettingsFault State := do
  settings.check
  return { settings, checks }

namespace State

/-- The clock in nanoseconds. -/
def nowNanos (s : State) : Nat := s.now * nanosPerMilli

def note (s : State) (n : Note) : State := { s with journal := n :: s.journal }

/-- How many calls a pass may have under way at once. -/
def parallelism (s : State) : Nat := max 1 s.settings.refreshParallelism

/-- The background refresh has been started and has not ended. -/
def running (s : State) : Bool :=
  match s.lifecycle with
  | .running w => (s.workers.get? w).any Worker.alive
  | _ => false

/-- Somebody waits for the fetch registered for the principal. -/
def awaited (s : State) (p : Principal) : Bool :=
  s.callers.values.any fun
    | .fetch q .. => q == p
    | _ => false

/-- Somebody looks after the call.  A fetch that nobody waits for stands still. -/
def attended (s : State) (c : Call) : Bool :=
  match c.owner with
  | .fetch => s.awaited c.principal
  | _ => true

end State

end Gatekeeper.Engine

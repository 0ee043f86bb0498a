import Gatekeeper.Engine.Pass

/-!
# Steps of an engine

`State.step` is all that can happen to an engine: somebody asks for something or gives up, a backend
answers a call or time runs out for it, a pass or a worker gets to run, time passes.  Any sequence
of events is a possible history as far as this file is concerned; an event that is out of place
changes nothing.

Events are as small as what can come between two others.  Nothing that takes time is one event: a
call begins with one and ends with another, a pass is a call at a time, and whoever waits is told
in the event that brings the news.  So the order of a run is the order in which things can come
about, whatever scheduler brings it about, and to speak of all interleavings is to speak of all
lists of events.

Some events reach the engine through itself and others through what it has handed out: its cache,
its workers, the callers that wait.  The latter are still heard when the engine has been dropped.
-/

set_option autoImplicit false

namespace Gatekeeper.Engine

/-- What can happen to an engine. -/
inductive Event where
  /-- Somebody asks whether the principal may do this to the resource. -/
  | enforce (entity : Entity) (principal : Principal) (action : Action)
  /-- Somebody has the cache entry of the principal renewed. -/
  | update (principal : Principal)
  /-- Somebody runs one refresh pass. -/
  | iterate
  /-- Somebody starts the background refresh, at a place where there is a scheduler for it or not.
  -/
  | start (scheduler : Bool)
  | shutdown
  /-- Somebody clears the cache. -/
  | invalidate
  /-- The engine goes away. -/
  | drop
  /-- Somebody starts a worker of his own. -/
  | spawn (period : Span)
  | stop (worker : Id)
  /-- Somebody lets go of a worker without stopping it. -/
  | release (worker : Id)
  /-- Somebody writes into the cache by hand. -/
  | write (principal : Principal) (privileges : PrivilegeSet)
  /-- Somebody clears the cache by hand. -/
  | clear
  /-- A caller no longer waits. -/
  | cancel (caller : Id)
  /-- The backend answers a call with a list of privileges. -/
  | answer (call : Id) (reply : Reply PrivilegeSet)
  /-- The backend answers a call with a verdict. -/
  | verdict (call : Id) (reply : Reply Bool)
  /-- The owner of a call looks whether its time is up. -/
  | expire (call : Id)
  /-- A pass starts its call for a principal. -/
  | launch (pass : Id) (principal : Principal)
  /-- A pass looks at its result for a principal. -/
  | collect (pass : Id) (principal : Principal)
  /-- A worker runs. -/
  | wake (worker : Id)
  /-- Time passes. -/
  | elapse (millis : Nat)
  deriving DecidableEq

namespace State

/-- Decides on an action on a resource.  With authorization off everything is allowed, with caching
off the backend decides; else the cache does, or what is fetched for it. -/
def enforce (s : State) (e : Entity) (p : Principal) (a : Action) : State :=
  let c := s.next
  let s := s.enter (.enforce e p a)
  if !s.settings.authorization then s.finish c .allowed
  else if !s.settings.caching then
    s.startOwnCall c p (if s.checks then .check e a else .listing) (.direct c e a)
  else match s.cache.get? p with
    | some privileges => s.finish c (decision privileges e p a)
    | none =>
      if s.settings.fetchOnMiss then s.joinFetch c e p a
      else s.finish c (.failed (.permissionDenied p e a))

/-- Renews the cache entry of a principal. -/
def update (s : State) (p : Principal) : State :=
  let c := s.next
  let s := s.enter (.update p)
  if s.settings.cachingActive then s.startOwnCall c p .listing (.update c) else s.finish c .updated

/-- Starts the background refresh, if there is a cache to refresh and it has not been started. -/
def start (s : State) (scheduler : Bool) : State :=
  let c := s.next
  let s := s.enter .start
  let s := if !s.settings.authorization && s.settings.caching then s.note .cachingUnused else s
  if !s.settings.cachingActive then s.finish c .started
  else match s.lifecycle with
    | .running _ => s.finish c .started
    | .stopped => s.finish c (.failed (.configuration .shutDown))
    | .idle =>
      if !scheduler then s.finish c (.failed (.configuration .noScheduler))
      else
        let s := s.note (.syncStarting s.settings.refreshInterval)
        if s.settings.refreshInterval.isZero then s.finish c (.failed (.configuration .zeroPeriod))
        else { s.addWorker s.settings.refreshInterval with lifecycle := .running s.next }.finish c
          .started

/-- Ends the background refresh for good. -/
def shutdown (s : State) : State :=
  let c := s.next
  let s := s.enter .shutdown
  match s.lifecycle with
  | .running w => ({ s with lifecycle := .stopped }.note .syncStopping).stopWorker c w
  | _ => { s with lifecycle := .stopped }.finish c .stopped

/-- Starts a worker. -/
def spawn (s : State) (period : Span) : State :=
  let c := s.next
  let s := s.enter (.spawn period)
  if period.isZero then s.finish c (.failed (.configuration .zeroPeriod))
  else (s.addWorker period).finish c (.spawned s.next)

/-- The caller no longer waits.  What only the caller was interested in is dropped with it; a fetch
stays registered, and a worker that was asked to stop still does. -/
def cancel (s : State) (c : Id) : State :=
  match s.callers.get? c with
  | none => s
  | some w =>
    let s := { s with callers := s.callers.erase c }.note (.cancelled c)
    match w with
    | .call id => s.dropCall id
    | .pass n => s.dropPass n
    | .fetch .. | .worker _ => s

/-- Clears the cache. -/
def invalidate (s : State) : State :=
  { s with cache := .empty }.note (.invalidated s.cache.size)

/-- The engine goes away, and with it the worker that it has started. -/
def drop (s : State) : State :=
  match s.lifecycle with
  | .running w => { s with dropped := true }.abortWorker w
  | _ => { s with dropped := true }

/-- What an event does. -/
def step (s : State) : Event → State
  | .enforce e p a => if s.dropped then s else s.enforce e p a
  | .update p => if s.dropped then s else s.update p
  | .iterate =>
    if s.dropped then s else (s.enter .iterate).beginPass (.caller s.next)
  | .start scheduler => if s.dropped then s else s.start scheduler
  | .shutdown => if s.dropped then s else s.shutdown
  | .invalidate => if s.dropped then s else s.invalidate
  | .drop => if s.dropped then s else s.drop
  | .spawn period => s.spawn period
  | .stop w => (s.enter (.stop w)).stopWorker s.next w
  | .release w => s.abortWorker w
  | .write p privileges => s.store p privileges .hand
  | .clear => { s with cache := .empty }.note .cleared
  | .cancel c => s.cancel c
  | .answer id r => s.answer id r
  | .verdict id r => s.verdict id r
  | .expire id => s.expire id
  | .launch n p => s.launch n p
  | .collect n p => s.collect n p
  | .wake w => s.wake w
  | .elapse millis => { s with now := s.now + millis }

/-- What a sequence of events does. -/
def run (s : State) (es : List Event) : State := es.foldl step s

end State

end Gatekeeper.Engine

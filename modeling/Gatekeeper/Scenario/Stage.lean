import Gatekeeper.Scenario.Step
import Gatekeeper.Site.Basic

/-!
# The stage of a scenario

A stage is a site with what a scenario adds to it: the names under which workers and held cache
entries are known, the answers of the engine that have not been picked up, and the log.  This file
says how a stage follows its site, and what the background does when it gets to run: the workers,
and the calls of passes.  It begins with what is due by the clock.  What is new to it is an errand,
and errands are run in the order in which they came up.  Whatever may have moved something says
whether it has, so that it can be told when nothing moves any more.

An engine says nothing of who runs next.  A stage does: it fixes one order, so that a scenario
has one outcome.  What is proved of engines is proved of every order, and so of this one.
-/

set_option autoImplicit false

namespace Gatekeeper.Scenario

open Engine

/-- Something that is new to the background. -/
inductive Errand where
  /-- A worker has been started, or is to end. -/
  | run (worker : Id)
  /-- A pass has begun. -/
  | launch (pass : Id)
  /-- A call of a pass has been dropped. -/
  | forget (call : Id)
  deriving DecidableEq

/-- A site in a scenario. -/
structure Stage where
  target : Target
  site : Site
  /-- What the engine has told callers. -/
  told : Table Id Outcome := .empty
  handles : Table String Id := .empty
  held : Table String PrivilegeSet := .empty
  /-- The scenario has let go of its engine, which goes away when no caller is left in it. -/
  released : Bool := false
  /-- The workers that have been let go of and have not run since. -/
  orphans : List Id := []
  /-- What the background has not got to, in order. -/
  errands : List Errand := []
  /-- The number of the next call that an operation makes to the backend itself. -/
  probes : Nat := 0
  /-- The lines logged, newest first. -/
  log : List Line := []

namespace Stage

def engine (s : Stage) : State := s.site.engine

def now (s : Stage) : Nat := s.site.engine.now

def write (s : Stage) : Option Line → Stage
  | some l => { s with log := l :: s.log }
  | none => s

/-- The target has this part. -/
def has (s : Stage) : Part → Bool
  | .engine => s.target == .engine && !s.released
  | .refresher => s.target == .refresher
  | .passes => s.target == .refresher || (s.target == .engine && !s.released)
  | .cache => s.target != .backend && !s.released
  | .backend => true
  | .script => s.site.backend.scripted

/-! ## The site

Everything that happens to the site goes through these, which pick up what is new: answers for
callers and errands for the background. -/

/-- The errands that come up with a note. -/
def errandsOf (s : Stage) : Note → List Errand
  | .syncSpawned w => [.run w]
  | .called c _ =>
    match s.engine.callers.get? c with
    | some (.worker w) => [.run w]
    | _ => []
  | .passStarted n _ => [.launch n]
  | .dropped id (.pass _) => [.forget id]
  | _ => []

/-- Picks up what a note says. -/
def hear (n : Note) (s : Stage) : Stage :=
  let s := { s.write n.line? with errands := s.errands ++ s.errandsOf n }
  match n with
  | .returned c o => { s with told := s.told.put c o }
  | _ => s

/-- Picks up everything that has happened at a site. -/
def settle (s : Stage) (site : Site) : Stage :=
  site.journal.foldr hear { s with site := { site with journal := [] } }

/-- Lets an event happen. -/
def ask (s : Stage) (e : Event) : Stage := s.settle (s.site.ask e)

/-- Polls the call if that changes anything. -/
def poll (s : Stage) (id : Id) : Stage × Bool :=
  if s.site.due id then (s.settle (s.site.poll id), true) else (s, false)

/-- Lets go of a worker, which ends when it would next run. -/
def release (s : Stage) (w : Id) : Stage :=
  { s with orphans := w :: s.orphans, errands := s.errands ++ [.run w] }

/-- Has the engine go away if nobody uses it any more. -/
def letGo (s : Stage) : Stage :=
  if s.released && !s.engine.dropped && s.engine.callers.entries.isEmpty then s.ask .drop else s

/-- Changes the backend. -/
def setBackend (s : Stage) (backend : Backend) : Stage :=
  { s with site := { s.site with backend } }

/-- Does one thing after another, and says whether any of them moved. -/
def each {α : Type} (s : Stage) (xs : List α) (f : Stage → α → Stage × Bool) : Stage × Bool :=
  xs.foldl (fun (s, moved) x => let (s, m) := f s x; (s, moved || m)) (s, false)

/-! ## The background

Workers and the passes that they run get their turns here, without anybody asking for it. -/

/-- Lets a worker run. -/
def runWorker (s : Stage) (w : Id) : Stage :=
  if s.orphans.contains w then
    { s with orphans := s.orphans.filter (· ≠ w) }.ask (.release w)
  else s.ask (.wake w)

/-- Starts the pass's call for a principal, if the pass may have one more, and polls it. -/
def launch (s : Stage) (n : Id) (p : Principal) : Stage × Bool :=
  match s.engine.passes.get? n with
  | some pass =>
    if pass.flying.length < s.engine.parallelism then
      (((s.ask (.launch n p)).poll s.engine.next).1, true)
    else (s, false)
  | none => (s, false)

/-- Starts the calls of a pass in the order of its queue, as many as it may have. -/
def launchAll (s : Stage) (n : Id) : Stage × Bool :=
  match s.engine.passes.get? n with
  | some pass => s.each pass.queue fun s p => s.launch n p
  | none => (s, false)

/-- Lets the pass look at everything that has landed. -/
def collectAll (s : Stage) (n : Id) : Stage × Bool :=
  match s.engine.passes.get? n with
  | some pass => s.each (pass.landed.map (·.principal)) fun s p => (s.ask (.collect n p), true)
  | none => (s, false)

/-- Lets the pass look at what has landed, if a worker drives it and has not been asked to stop.
The pass of a caller does so when the caller is looked at. -/
def attend (s : Stage) (n : Id) : Stage × Bool :=
  match s.engine.passes.get? n with
  | some pass => match pass.driver with
    | .caller _ => (s, false)
    | .worker _ => if s.engine.halted pass then (s, false) else s.collectAll n
  | none => (s, false)

/-- Runs an errand. -/
def runErrand (s : Stage) : Errand → Stage
  | .run w => s.runWorker w
  | .launch n => (s.launchAll n).1
  | .forget id => { s with site := s.site.forget id }

/-- The calls of passes. -/
def passCalls (s : Stage) : List Id :=
  s.engine.calls.entries.filterMap fun (id, call) =>
    match call.owner with
    | .pass _ => some id
    | _ => none

/-- The workers that wait for a tick, and when it is due. -/
def ticks (s : Stage) : List (Id × Nat) :=
  s.engine.workers.entries.filterMap fun (w, worker) =>
    if worker.phase = .idle then some (w, (worker.due + (nanosPerMilli - 1)) / nanosPerMilli)
    else none

/-- Lets everything in the background run once. -/
def background (s : Stage) : Stage × Bool :=
  let (s, polled) := s.each s.passCalls poll
  let (s, woken) := s.each s.ticks fun s (w, due) =>
    if due ≤ s.now then (s.runWorker w, true) else (s, false)
  let errands := s.errands
  let s := errands.foldl runErrand { s with errands := [] }
  let (s, launched) := s.each s.engine.passes.keys fun s n =>
    if s.errands.contains (.launch n) then (s, false) else s.launchAll n
  let (s, collected) := s.each s.engine.passes.keys attend
  (s, polled || woken || !errands.isEmpty || launched || collected)

/-- The times at which something in the background is to happen. -/
def backgroundTimes (s : Stage) : List Nat :=
  s.ticks.map (·.2) ++ s.passCalls.filterMap s.site.dueAt?

end Stage

end Gatekeeper.Scenario

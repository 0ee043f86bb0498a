import Gatekeeper.Scenario.Operation

/-!
# Running a scenario

Time stands still while anything can move, and then goes on to the next instant that somebody waits
for.  What a step asked for is looked at before the background is; a step that need not wait leaves
the background alone.  After each step the clock goes on by one millisecond, in which the background
runs, and then the state is observed.

The loops are counted down from `horizon`, which is more rounds than any scenario has.
-/

set_option autoImplicit false

namespace Gatekeeper.Scenario

open Engine

/-- A bound on the rounds of a loop. -/
def horizon : Nat := UInt64.size / 4

namespace Stage

/-- Moves the clock to a later time. -/
def moveTo (s : Stage) (time : Nat) : Stage := s.ask (.elapse (time - s.now))

/-- The first of some times that has not come. -/
def nextTime? (s : Stage) (times : List Nat) : Option Nat := (times.filter (s.now < ·)).min?

/-- Runs a task to its end, or until nobody waits for anything any more. -/
def play : Nat → Stage → Task → Stage × Task
  | 0, s, t => (s, t)
  | rounds + 1, s, t =>
    let (s, t, moved) := s.pollTask t
    if t.isOver then (s, t)
    else
      let (s, stirred) := s.background
      if moved || stirred then play rounds s t
      else match s.nextTime? (s.backgroundTimes ++ s.taskTimes t) with
        | some time => play rounds (s.moveTo time) t
        | none => (s, t)

/-- Lets the background run up to a time and at that time. -/
def idle : Nat → Stage → Nat → Stage
  | 0, s, _ => s
  | rounds + 1, s, till =>
    let (s, stirred) := s.background
    if stirred then idle rounds s till
    else if till ≤ s.now then s
    else idle rounds (s.moveTo (min till ((s.nextTime? s.backgroundTimes).getD till))) till

end Stage

/-- What can be seen after a step. -/
structure Observation where
  answer : Answer
  /-- When the step ended. -/
  time : Nat
  /-- The entries of the cache, if there is one. -/
  cache : Option (List (Principal × PrivilegeSet))
  calls : Nat
  /-- The checks of a scripted backend, and how many of its calls sat at once. -/
  scripted : Option (Nat × Nat)
  /-- Whether an engine's background refresh runs, and how many fetches are registered. -/
  engine : Option (Bool × Nat)
  log : List Line

namespace Stage

/-- What can be seen of a stage. -/
def observe (s : Stage) (answer : Answer) (time : Nat) : Observation :=
  let backend := s.site.backend
  { answer, time
    cache := if s.has .cache then
        some (s.engine.cache.entries.mergeSort fun a b => a.1.text ≤ b.1.text) else none
    calls := backend.calls
    scripted := if backend.scripted then some (backend.checks, backend.peak) else none
    engine := if s.has .engine then some (s.engine.running, s.engine.fetches.size) else none
    log := s.log }

/-- Carries out a step, and shows what can be seen then. -/
def take (s : Stage) (step : Step) : Stage × Observation :=
  let s := { s.setBackend s.site.backend.lookAway with log := [] }
  let (s, task) := play horizon s (step.task s.now)
  let time := s.now
  let s := idle horizon s (time + 1)
  (s, s.observe task.answer time)

/-- Carries out steps one after the other, up to the first that crashes. -/
def takeAll (s : Stage) : List Step → List Observation
  | [] => []
  | step :: steps =>
    let (s, seen) := s.take step
    if seen.answer.isCrash then [seen] else seen :: s.takeAll steps

/-- What is shown of a scenario: all that can be seen, and nothing of one that has crashed. -/
def shown? (s : Stage) (steps : List Step) : Option (List Observation) :=
  let seen := s.takeAll steps
  if seen.any (·.answer.isCrash) then none else some seen

/-! ## Stages to begin with

A scenario is about an engine, a refresher, or a part of one, and settings that do not pass the
check leave it without a stage. -/

/-- A stage for a target with an engine of these settings. -/
def create (target : Target) (settings : Settings) (kind : BackendKind) : Stage :=
  { target
    site :=
      { engine := { settings, checks := kind == .checking }
        backend := { kind } } }

/-- A stage with an engine, if its settings pass the check. -/
def ofSettings (settings : Settings) (kind : BackendKind) : Except SettingsFault Stage := do
  let engine ← build settings (kind == .checking)
  return { target := .engine, site := { engine, backend := { kind } } }

/-- A stage with a refresher. -/
def ofRefresher (timeout : Span) (parallelism : Nat) (active : Bool) (kind : BackendKind) : Stage :=
  create .refresher
    { authorization := active, backendTimeout := timeout, refreshParallelism := parallelism } kind

end Stage

end Gatekeeper.Scenario

import Gatekeeper.Engine.Call

/-!
# Passes and workers

A pass refreshes the principals that are in the cache when it begins.  Its calls are started in any
order, at most `parallelism` at once; each result is put into the cache, or counted as failed, when
the pass collects it.  A worker starts one pass after the other, one at every tick of its period,
and looks whether it has been asked to stop before it does anything else.

A pass is driven by whoever has begun it.  A result that has landed is therefore kept until its
driver gets to look at it, and it is lost when the driver stops before that.  How late a tick may
be taken without being late is `lateness`; a tick that is late puts off those after it, and none
is made up for.
-/

set_option autoImplicit false

namespace Gatekeeper.Engine.State

/-- The largest number of calls at once that a pass can be run with; a larger one crashes it. -/
def maxParallelism : Nat := (UInt64.size - 1) / 8

/-- A tick that is taken later than this many nanoseconds after its time is late. -/
def lateness : Nat := 5000000

/-! ## Workers end

A worker ends of its own accord, by a crash, or by being let go of. -/

def setPhase (s : State) (w : Id) (phase : Phase) : State :=
  { s with workers := s.workers.update w ({ · with phase }) }

/-- The callers that wait for the worker to end. -/
def workerWaiters (s : State) (w : Id) : List Id :=
  s.callers.entries.filterMap fun
    | (c, .worker w') => if w' = w then some c else none
    | _ => none

/-- The worker is over, and whoever waits for that is told. -/
def endWorker (s : State) (w : Id) : State :=
  (s.setPhase w .ended).finishAll (s.workerWaiters w) fun _ => .stopped

/-- The worker crashes, and whoever waits for its end finds that out. -/
def crashWorker (s : State) (w : Id) : State :=
  let waiters := s.workerWaiters w
  let s := waiters.foldl (fun s _ => s.note (.syncCrashed w)) (s.setPhase w .crashed)
  s.finishAll waiters fun _ => .stopped

/-! ## Passes begin

A pass takes down who is in the cache, and nobody who gets in later.  It needs as many permits as
it may have calls at once, and there is a limit to those. -/

/-- The driver of a pass learns the report. -/
def reportPass (s : State) (d : Driver) (r : Report) : State :=
  match d with
  | .caller c => s.finish c (.refreshed r)
  | .worker w => s.setPhase w .idle

/-- Begins a pass over the principals in the cache.  Without active caching there is nothing to do;
a pass over no principal is over at once. -/
def beginPass (s : State) (d : Driver) : State :=
  if !s.settings.cachingActive then s.reportPass d {}
  else
    let n := s.next
    let s := { s with next := n + 1 }.note (.passStarted n s.cache.size)
    if maxParallelism < s.parallelism then
      match d with
      | .caller c => s.finish c .crashed
      | .worker w => s.crashWorker w
    else if s.cache.keys.isEmpty then (s.note (.passFinished n {})).reportPass d {}
    else
      let s := { s with passes := s.passes.put n ⟨d, s.cache.keys, [], [], {}⟩ }
      match d with
      | .caller c => s.wait c (.pass n)
      | .worker w => s.setPhase w (.refreshing n)

/-! ## Passes go on

A call can be started for anybody in the queue, and results can be looked at in any order. -/

/-- Starts the pass's call for a principal in its queue, if the pass may have one more. -/
def launch (s : State) (n : Id) (p : Principal) : State :=
  match s.passes.get? n with
  | some pass =>
    if p ∈ pass.queue ∧ pass.flying.length < s.parallelism then
      let pass := { pass with queue := pass.queue.erase p, flying := pass.flying ++ [p] }
      { s with passes := s.passes.put n pass }.startCall p .listing (.pass n)
    else s
  | none => s

/-- The driver of the pass has been asked to stop, and does nothing else before it does. -/
def halted (s : State) (pass : Pass) : Bool :=
  match pass.driver with
  | .caller _ => false
  | .worker w => (s.workers.get? w).any Worker.stopping

/-- Looks at what has landed for the principal: a success replaces the cache entry, a failure leaves
it as it was.  The pass is over when nothing of it is left. -/
def collect (s : State) (n : Id) (p : Principal) : State :=
  match s.passes.get? n with
  | none => s
  | some pass =>
    if s.halted pass then s
    else match pass.landed.find? (·.principal == p) with
      | none => s
      | some l =>
        let r := pass.report
        let (s, r) := match l.reply with
          | .value privileges => (s.store p privileges (.call l.call (.pass n)),
              { r with refreshed := r.refreshed + 1 })
          | .failed cause => (s.note (.refreshFailed p cause), { r with failed := r.failed + 1 })
          | .crashed => (s.note (.refreshCrashed p), { r with failed := r.failed + 1 })
        let pass := { pass with landed := pass.landed.erase l, report := r }
        if pass.complete then
          ({ s with passes := s.passes.erase n }.note (.passFinished n r)).reportPass pass.driver r
        else { s with passes := s.passes.put n pass }

/-- The calls of the pass that have not ended. -/
def passCalls (s : State) (n : Id) : List Id :=
  s.calls.entries.filterMap fun (id, call) => if call.owner = .pass n then some id else none

/-- Drops a pass with its calls. -/
def dropPass (s : State) (n : Id) : State :=
  (s.passCalls n).foldl dropCall { s with passes := s.passes.erase n }

/-! ## Workers

A worker runs when it is woken: it ends if it has been asked to, and takes a tick if one is due. -/

/-- Adds a worker, whose number is `s.next`.  Its first tick is due when it first runs. -/
def addWorker (s : State) (period : Span) : State :=
  { s with
    next := s.next + 1
    workers := s.workers.put s.next ⟨period, 0, .fresh, false⟩ }.note (.syncSpawned s.next)

/-- The worker takes the tick that is due and begins a pass.  After a tick that is not late the next
is one period after its time, after a late one it is one period from now. -/
def takeTick (s : State) (w : Id) (worker : Worker) (due : Nat) : State :=
  let start := if due + lateness < s.nowNanos then s.nowNanos else due
  let worker := { worker with due := start + worker.period.nanos, phase := .idle }
  { s with workers := s.workers.put w worker }.beginPass (.worker w)

/-- Lets the worker run. -/
def wake (s : State) (w : Id) : State :=
  match s.workers.get? w with
  | none => s
  | some worker => match worker.phase with
    | .fresh =>
      if worker.stopping then (s.note (.syncStopped w)).endWorker w
      else s.takeTick w worker s.nowNanos
    | .idle =>
      if worker.stopping then (s.note (.syncStopped w)).endWorker w
      else if worker.due ≤ s.nowNanos then s.takeTick w worker worker.due
      else s
    | .refreshing n =>
      if worker.stopping then
        (((s.note (.passAbandoned n)).dropPass n).note (.syncStopped w)).endWorker w
      else s
    | .ended | .crashed => s

/-- Asks the worker to stop; the caller waits for its end. -/
def stopWorker (s : State) (c : Id) (w : Id) : State :=
  match s.workers.get? w with
  | none => s.finish c .stopped
  | some worker => match worker.phase with
    | .ended => s.finish c .stopped
    | .crashed => (s.note (.syncCrashed w)).finish c .stopped
    | _ => { s with workers := s.workers.put w { worker with stopping := true } }.wait c (.worker w)

/-- Ends the worker at once, in the middle of whatever it does. -/
def abortWorker (s : State) (w : Id) : State :=
  match s.workers.get? w with
  | none => s
  | some worker => match worker.phase with
    | .ended | .crashed => s
    | .refreshing n => (s.dropPass n).endWorker w
    | _ => s.endWorker w

end Gatekeeper.Engine.State

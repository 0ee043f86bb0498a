import Gatekeeper.Scenario.Stage

/-!
# Operations on a stage

What an operation of a scenario does when it begins, each time that it is looked at again, and when
it is given up.  A task adds to that the time of its beginning and its limit, and of tasks together
each is looked at before the limit of all of them is.
-/

set_option autoImplicit false

namespace Gatekeeper.Scenario

open Engine

namespace Stage

/-! ## Operations begin

Some operations are over at once, others ask the engine for something and wait, and some are
calls to the backend that the engine knows nothing of. -/

/-- An operation that is over at once. -/
def answer (s : Stage) (a : Answer) : Stage × Progress := (s, .done a)

/-- An operation that asks the engine for something. -/
def call (s : Stage) (e : Event) : Stage × Progress := (s.ask e, .asked s.engine.next)

def beginCache (s : Stage) : CacheOp → Stage × Progress
  | .put p privileges =>
    let privileges := .ofList privileges
    (s.ask (.write p privileges)).answer (.privileges (some privileges))
  | .get p => s.answer (.privileges (s.engine.cache.get? p))
  | .hold name p =>
    match s.engine.cache.get? p with
    | some privileges => { s with held := s.held.put name privileges }.answer (.flag true)
    | none => s.answer (.flag false)
  | .peek name => s.answer (.privileges (s.held.get? name))
  | .keys => s.answer (.names ((s.engine.cache.keys.map Principal.text).mergeSort (· ≤ ·)))
  | .length => s.answer (.length s.engine.cache.size)
  | .clear => (s.ask .clear).answer .nothing

/-- What a store answers, as the answer to an operation. -/
def storeAnswer : Store.Result → Answer
  | .done => .nothing
  | .listed privileges => .privileges (some privileges)
  | .checked on => .flag on
  | .failed cause => .backendFailure cause.text

/-- A call to the backend that the engine has nothing to do with. -/
def probe (s : Stage) (q : Question) (p : Principal) : Stage × Progress :=
  let ticket := .probe s.probes
  let backend := s.site.backend.begin ticket q p s.now
  ({ s.setBackend backend with probes := s.probes + 1 }, .probing ticket)

def beginBackend (s : Stage) : Store.Op → Stage × Progress
  | .list p => s.probe .listing p
  | .check e p a => s.probe (s.site.backend.checkQuestion e a) p
  | op =>
    let (store, result) := s.site.backend.store.perform op
    (s.setBackend { s.site.backend with store }).answer (storeAnswer result)

/-- Begins an operation. -/
def begin (s : Stage) (op : Op) : Stage × Progress :=
  if !op.part?.all s.has then s.answer .skipped
  else match op with
    | .enforce e p a => s.call (.enforce e p a)
    | .update p => s.call (.update p)
    | .iterate => s.call .iterate
    | .invalidate => (s.ask .invalidate).answer .nothing
    | .cached p => s.answer (.privileges (s.engine.cache.get? p))
    | .start scheduler => s.call (.start scheduler)
    | .shutdown => s.call .shutdown
    | .drop => { s with released := s.released || s.has .engine }.answer .nothing
    | .request e a r _ =>
      match Gate.question? e a r with
      | some question => s.call question
      | none => s.answer (.exchange Gate.turnedAway)
    | .spawn _ period => s.call (.spawn period)
    | .running handle =>
      match (s.handles.get? handle).bind s.engine.workers.get? with
      | some w => s.answer (.flag w.alive)
      | none => s.answer .nothing
    | .stop handle =>
      match s.handles.get? handle with
      | some w => { s with handles := s.handles.erase handle }.call (.stop w)
      | none => s.answer .skipped
    | .release handle =>
      match s.handles.get? handle with
      | some w => ({ s with handles := s.handles.erase handle }.release w).answer .nothing
      | none => s.answer .skipped
    | .cache op => s.beginCache op
    | .backend op => s.beginBackend op
    | .script change =>
      let backend := s.site.backend
      (s.setBackend { backend with script := backend.script.change change }).answer .nothing
    | .advance millis => (s, .sleeping (s.now + millis))
    | .malformed _ fault => s.answer (.failure (.invalidId fault))

/-! ## Operations go on

An operation that waits is driven by what it waits for: whoever runs a pass runs it, whoever
waits for a call looks whether it has been answered. -/

/-- What the engine tells a caller, as the answer to an operation.  A worker that has been spawned
gets its handle; one that had the handle before is let go of. -/
def conclude (s : Stage) (op : Op) (o : Outcome) : Stage × Progress :=
  match op, o with
  | _, .crashed => s.answer .crashed
  | .request _ _ r service, o =>
    let s := s.write (r.principal.bind (Gate.line? · o))
    let exchange := Gate.complete service r o
    if Gate.stalls service o then (s, .stalled exchange) else s.answer (.exchange exchange)
  | .spawn handle _, .spawned w =>
    let s := match s.handles.get? handle with
      | some old => s.release old
      | none => s
    { s with handles := s.handles.put handle w }.answer (.word "spawned")
  | _, .allowed => s.answer (.word "allowed")
  | _, .updated => s.answer (.word "updated")
  | _, .started => s.answer (.word "started")
  | _, .stopped => s.answer (.word "stopped")
  | _, .spawned _ => s.answer (.word "spawned")
  | _, .refreshed r => s.answer (.report r)
  | _, .failed e => s.answer (.failure e)

/-- What a caller does to get on with what it waits for. -/
def drive (s : Stage) (c : Id) : Stage × Bool :=
  match s.engine.callers.get? c with
  | some (.fetch p _ _) =>
    match s.engine.fetches.get? p with
    | some (.underway id) => s.poll id
    | _ => (s, false)
  | some (.call id) => s.poll id
  | some (.pass n) => s.collectAll n
  | some (.worker _) | none => (s, false)

/-- What a backend answers, as the answer to an operation. -/
def replyAnswer {α : Type} (shown : α → Answer) : Reply α → Answer
  | .value a => shown a
  | .failed cause => .backendFailure cause.text
  | .crashed => .crashed

/-- What the backend answers to a call that an operation has made itself. -/
def concludeProbe (s : Stage) (op : Op) (t : Ticket) : Stage × Progress :=
  let backend := s.site.backend.leave t
  match op with
  | .backend (.check e p a) =>
    let (backend, reply) := backend.check e p a
    (s.setBackend backend).answer (replyAnswer .flag reply)
  | .backend (.list p) =>
    let (backend, reply) := backend.list p
    (s.setBackend backend).answer (replyAnswer (.privileges ∘ some) reply)
  | _ => s.answer .nothing

/-- Takes an operation further, if it can go on. -/
def advance (s : Stage) (op : Op) (progress : Progress) : Stage × Progress × Bool :=
  match progress with
  | .asked c =>
    let (s, moved) := s.drive c
    match s.told.get? c with
    | some o =>
      let (s, progress) := { s with told := s.told.erase c }.conclude op o
      (s, progress, true)
    | none => (s, progress, moved)
  | .probing t =>
    if s.site.backend.ready t s.now then
      let (s, progress) := s.concludeProbe op t
      (s, progress, true)
    else (s, progress, false)
  | .sleeping till =>
    if till ≤ s.now then
      let (s, progress) := s.answer .nothing
      (s, progress, true)
    else (s, progress, false)
  | .stalled exchange => (s, .done (.exchange exchange), true)
  | .waiting | .done _ => (s, progress, false)

/-- Gives up an operation. -/
def giveUp (s : Stage) : Progress → Stage
  | .asked c => s.ask (.cancel c)
  | .probing t => s.setBackend (s.site.backend.leave t)
  | _ => s

/-- The times at which something may happen to an operation. -/
def progressTimes (s : Stage) : Progress → List Nat
  | .asked c =>
    match s.engine.callers.get? c with
    | some (.fetch p _ _) =>
      match s.engine.fetches.get? p with
      | some (.underway id) => (s.site.dueAt? id).toList
      | _ => []
    | some (.call id) => (s.site.dueAt? id).toList
    | _ => []
  | .probing t => (s.site.backend.readyAt? t).toList
  | .sleeping till => [till]
  | _ => []

/-! ## Tasks

A task knows its times.  It is looked at until it is over, and no longer than its patience lasts. -/

/-- Looks at an operation: begins it when its time has come, takes it further, and gives it up when
it is not done at its limit. -/
def pollOp (s : Stage) (op : Op) (start : Nat) (limit : Option Nat) (progress : Progress) :
    Stage × Task × Bool :=
  if s.now < start then (s, .one op start limit progress, false)
  else
    let (s, progress, begun) := match progress with
      | .waiting =>
        let (s, progress) := s.begin op
        (s, progress, true)
      | progress => (s, progress, false)
    let (s, progress, moved) := s.advance op progress
    match progress with
    | .done answer => (s.letGo, .ended answer s.now, true)
    | progress =>
      if limit.any (· ≤ s.now) then ((s.giveUp progress).letGo, .ended .gaveUp s.now, true)
      else (s, .one op start limit progress, begun || moved)

mutual

/-- Gives up a task. -/
def giveUpTask (s : Stage) : Task → Stage
  | .one _ _ _ progress => (s.giveUp progress).letGo
  | .together members .. => s.giveUpTasks members
  | .ended .. => s

/-- Gives up every task in order. -/
def giveUpTasks (s : Stage) : List Task → Stage
  | [] => s
  | t :: ts => (s.giveUpTask t).giveUpTasks ts

end

mutual

/-- Looks at a task. -/
def pollTask (s : Stage) : Task → Stage × Task × Bool
  | .one op start limit progress => s.pollOp op start limit progress
  | .together members start limit =>
    if s.now < start then (s, .together members start limit, false)
    else
      let (s, members, moved) := s.pollTasks members
      match Task.joint? members with
      | some answer => (s, .ended answer s.now, true)
      | none =>
        if limit.any (· ≤ s.now) then (s.giveUpTasks members, .ended .gaveUp s.now, true)
        else (s, .together members start limit, moved)
  | .ended answer time => (s, .ended answer time, false)

/-- Looks at every task in order. -/
def pollTasks (s : Stage) : List Task → Stage × List Task × Bool
  | [] => (s, [], false)
  | t :: ts =>
    let (s, t, moved) := s.pollTask t
    let (s, ts, moved') := s.pollTasks ts
    (s, t :: ts, moved || moved')

end

mutual

/-- The times at which something may happen to a task. -/
def taskTimes (s : Stage) : Task → List Nat
  | .one _ start limit progress =>
    if s.now < start then [start] else s.progressTimes progress ++ limit.toList
  | .together members start limit =>
    if s.now < start then [start] else s.tasksTimes members ++ limit.toList
  | .ended .. => []

/-- The times at which something may happen to one of some tasks. -/
def tasksTimes (s : Stage) : List Task → List Nat
  | [] => []
  | t :: ts => s.taskTimes t ++ s.tasksTimes ts

end

end Stage

end Gatekeeper.Scenario

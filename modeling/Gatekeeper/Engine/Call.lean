import Gatekeeper.Engine.State

/-!
# Callers, calls and fetches

The parts of a step that concern single callers and single calls: asking for something, being told,
starting a call, and what follows when a call ends.  What a call ends with goes to its owner at
once, except that a pass first collects what has landed.

A fetch is the one thing here that several callers share.  It belongs to none of them: it is
looked after as long as anybody waits for it, and if all of them give up it stands still,
registered, until somebody else turns to it.
-/

set_option autoImplicit false

namespace Gatekeeper.Engine.State

/-! ## Callers

A caller enters, may have to wait, and is told something. -/

/-- Registers what somebody asks for; the number of the caller is `s.next`. -/
def enter (s : State) (r : Request) : State :=
  { s with next := s.next + 1 }.note (.called s.next r)

/-- Lets the caller wait. -/
def wait (s : State) (c : Id) (w : Waiting) : State := { s with callers := s.callers.put c w }

/-- Tells the caller what came of it. -/
def finish (s : State) (c : Id) (o : Outcome) : State :=
  { s with callers := s.callers.erase c }.note (.returned c o)

/-- Tells every caller in a list the same. -/
def finishAll (s : State) (cs : List Id) (o : Id → Outcome) : State :=
  cs.foldl (fun s c => s.finish c (o c)) s

/-- What a set of privileges means for a request. -/
def decision (privileges : PrivilegeSet) (e : Entity) (p : Principal) (a : Action) : Outcome :=
  if ⟨e, a⟩ ∈ privileges then .allowed else .failed (.permissionDenied p e a)

/-! ## The cache

Whatever is stored replaces the entry as a whole. -/

/-- Replaces the cache entry of a principal. -/
def store (s : State) (p : Principal) (privileges : PrivilegeSet) (o : Origin) : State :=
  { s with cache := s.cache.put p privileges }.note (.stored p privileges o)

/-! ## Calls

A call begins and is over once, either because it has ended or because it is dropped. -/

/-- Starts a call; its number is `s.next`. -/
def startCall (s : State) (p : Principal) (q : Question) (o : Owner) : State :=
  let call := ⟨p, q, o, s.now, s.now + s.settings.backendTimeout.ceilMillis⟩
  { s with next := s.next + 1, calls := s.calls.put s.next call }.note (.began s.next p q o)

/-- Starts a call for the caller, who waits for it. -/
def startOwnCall (s : State) (c : Id) (p : Principal) (q : Question) (o : Owner) : State :=
  ((s.wait c (.call s.next)).note (.joined c s.next)).startCall p q o

/-- Takes the call off the list. -/
def endCall (s : State) (id : Id) (p : Principal) (ending : Ending) : State :=
  { s with calls := s.calls.erase id }.note (.ended id p ending)

/-- Drops the call, if it is under way. -/
def dropCall (s : State) (id : Id) : State :=
  match s.calls.get? id with
  | some call => { s with calls := s.calls.erase id }.note (.dropped id call.owner)
  | none => s

/-! ## Fetches

One fetch at most is registered for a principal.  Callers that find it registered join it; when
its call ends everybody who has joined is told. -/

/-- Turns the caller to the fetch of the principal, which is started if there is none. -/
def joinFetch (s : State) (c : Id) (e : Entity) (p : Principal) (a : Action) : State :=
  let s := s.note (.missed c p)
  match s.fetches.get? p with
  | some .broken => s.finish c .crashed
  | some (.underway id) => (s.wait c (.fetch p e a)).note (.joined c id)
  | none =>
    let id := s.next
    let s := (s.wait c (.fetch p e a)).startCall p .listing .fetch
    { s with fetches := s.fetches.put p (.underway id) }.note (.joined c id)

/-- The callers that wait for the fetch of the principal, and what each wants to know. -/
def fetchWaiters (s : State) (p : Principal) : List (Id × Entity × Action) :=
  s.callers.entries.filterMap fun
    | (c, .fetch q e a) => if q = p then some (c, e, a) else none
    | _ => none

/-- Tells everybody who waits for the fetch of the principal. -/
def answerFetch (s : State) (p : Principal) (o : Entity → Action → Outcome) : State :=
  (s.fetchWaiters p).foldl (fun s (c, e, a) => s.finish c (o e a)) s

/-- The call of a fetch has ended.  A success is stored; after a success or a failure the fetch is
no longer registered, after a crash it is broken for good.  Of a failure all who wait share the
cause, and each has an error of its own. -/
def settleFetch (s : State) (id : Id) (p : Principal) : Reply PrivilegeSet → State
  | .value privileges =>
    let s := s.store p privileges (.call id .fetch)
    { s with fetches := s.fetches.erase p }.answerFetch p fun e a => decision privileges e p a
  | .failed cause =>
    let shared := (Error.backendUnavailable cause).shared
    { s with fetches := s.fetches.erase p }.answerFetch p fun _ _ =>
      .failed (.backendUnavailable shared)
  | .crashed =>
    { s with fetches := s.fetches.put p .broken }.answerFetch p fun _ _ => .crashed

/-! ## When a call ends

The end of a call means something else to each kind of owner, and what that is stands here. -/

/-- The call of an update has ended. -/
def settleUpdate (s : State) (id : Id) (c : Id) (p : Principal) : Reply PrivilegeSet → State
  | .value privileges => (s.store p privileges (.call id (.update c))).finish c .updated
  | .failed cause => s.finish c (.failed (.backendUnavailable cause))
  | .crashed => s.finish c .crashed

/-- The call of a decision without the cache has ended. -/
def settleDirect (s : State) (c : Id) (e : Entity) (p : Principal) (a : Action) :
    Reply Bool → State
  | .value true => s.finish c .allowed
  | .value false => s.finish c (.failed (.permissionDenied p e a))
  | .failed cause => s.finish c (.failed (.backendUnavailable cause))
  | .crashed => s.finish c .crashed

/-- A call of a pass has ended; the pass will look at it. -/
def land (s : State) (n : Id) (l : Landing) : State :=
  { s with passes := s.passes.update n fun pass =>
      { pass with flying := pass.flying.erase l.principal, landed := pass.landed ++ [l] } }

/-- Hands the end of a call to its owner. -/
def settle (s : State) (id : Id) (call : Call) (r : Reply PrivilegeSet) : State :=
  match call.owner with
  | .fetch => s.settleFetch id call.principal r
  | .update c => s.settleUpdate id c call.principal r
  | .direct c e a =>
    s.settleDirect c e call.principal a (r.map fun privileges => decide (⟨e, a⟩ ∈ privileges))
  | .pass n => s.land n ⟨call.principal, id, r⟩

/-- The backend has answered the call with a list. -/
def answer (s : State) (id : Id) (r : Reply PrivilegeSet) : State :=
  match s.calls.get? id with
  | some call =>
    if s.attended call && call.question == .listing then
      (s.endCall id call.principal (.listed r)).settle id call r
    else s
  | none => s

/-- The backend has answered the call with a verdict. -/
def verdict (s : State) (id : Id) (r : Reply Bool) : State :=
  match s.calls.get? id with
  | some call => match call.owner, call.question with
    | .direct c e a, .check .. =>
      (s.endCall id call.principal (.checked r)).settleDirect c e call.principal a r
    | _, _ => s
  | none => s

/-- The owner of the call looks at the clock, having got no answer. -/
def expire (s : State) (id : Id) : State :=
  match s.calls.get? id with
  | some call =>
    if s.attended call && decide (call.deadline ≤ s.now) then
      let cause := .timedOut call.owner.operation s.settings.backendTimeout
      (s.endCall id call.principal .timedOut).settle id call (.failed cause)
    else s
  | none => s

end Gatekeeper.Engine.State

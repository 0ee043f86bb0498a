import Gatekeeper.Proofs.Effects

/-!
# Moves

A step of an engine is a sequence of moves.  Each move is small enough to be looked at on its own
and large enough to leave no loose end: a fetch is registered together with its call, a call ends
together with what follows from it.  So whatever is to hold in every state an engine can come to
need only be checked against the moves, and `step_moves` (in `Gatekeeper.Proofs.Step`) says that
they are all there is to check.

* `Asking` — a caller that has asked for something and to whom nothing else has happened.
* `Quiet` — a change in which callers, calls, fetches, passes and the cache have no part.
* `Move` — the moves, each with the condition on which it is made.

The size of the moves is chosen for the invariants.  A fetch without its call, or a caller that
has been told while its call is still there, are states in the middle of the program, and no
invariant should have to speak of them.
-/

set_option autoImplicit false

namespace Gatekeeper.Engine

/-- Caller `c` has asked for something, and nothing else has happened to it. -/
structure Asking (s : State) (c : Id) (r : Request) : Prop where
  called : .called c r ∈ s.journal
  idle : s.callers.get? c = none
  silent : ∀ n ∈ s.journal, n.caller? = some c → n = .called c r

/-- Calls of this owner are made under these settings. -/
def Owner.enabled (settings : Settings) : Owner → Bool
  | .fetch => settings.cachingActive && settings.fetchOnMiss
  | .update _ | .pass _ => settings.cachingActive
  | .direct .. => settings.authorization && !settings.caching

/-! ## Quiet changes

A quiet change may do anything to the clock, to the lifecycle, and to workers within the limits
of `WorkersKept`, and may add remarks.  Nothing else is touched, so almost every property of the
engine survives it for the same reason. -/

/-- What is kept of the workers: none goes away, none is freed from a request to stop, and none
comes to be in the middle of a pass. -/
structure WorkersKept (s t : State) : Prop where
  kept : ∀ {w k}, s.workers.get? w = some k →
    ∃ k', t.workers.get? w = some k' ∧ (k.stopping = true → k'.stopping = true)
  known : ∀ {w k}, t.workers.get? w = some k → w < t.next
  refreshing : ∀ {w k n}, t.workers.get? w = some k → k.phase = .refreshing n →
    ∃ k', s.workers.get? w = some k' ∧ k'.phase = .refreshing n

/-- A change in which callers, calls, fetches, passes and the cache have no part. -/
structure Quiet (s t : State) : Prop where
  settings : t.settings = s.settings
  checks : t.checks = s.checks
  cache : t.cache = s.cache
  calls : t.calls = s.calls
  fetches : t.fetches = s.fetches
  callers : t.callers = s.callers
  passes : t.passes = s.passes
  next : s.next ≤ t.next
  now : s.now ≤ t.now
  workers : WorkersKept s t
  journal : ∃ new, t.journal = new ++ s.journal
    ∧ ∀ n ∈ new, n.remark = true ∧ ∀ i ∈ n.ids, i < t.next

/-! ## Parts of moves

What a move does is written with a few operations on the state and on passes.  Some are those of
the program, under a name of their own; the inductive types say for whom a call can be begun, and
how a call can end, when a given event happens. -/

namespace State

/-- Starts the fetch of the principal for a caller, who waits for it. -/
def startFetch (s : State) (c : Id) (e : Entity) (p : Principal) (a : Action) : State :=
  let t := (s.wait c (.fetch p e a)).startCall p .listing .fetch
  { t with fetches := t.fetches.put p (.underway s.next) }.note (.joined c s.next)

/-- The caller no longer waits. -/
def leave (s : State) (c : Id) : State :=
  { s with callers := s.callers.erase c }.note (.cancelled c)

/-- Opens a pass over the principals in the cache; its number is `s.next`. -/
def openPass (s : State) (d : Driver) : State :=
  let t := { s with next := s.next + 1 }.note (.passStarted s.next s.cache.size)
  { t with passes := t.passes.put s.next ⟨d, s.cache.keys, [], [], {}⟩ }

/-- What a pass does about one of its results. -/
def digest (s : State) (n : Id) (l : Landing) : State :=
  match l.reply with
  | .value privileges => s.store l.principal privileges (.call l.call (.pass n))
  | .failed cause => s.note (.refreshFailed l.principal cause)
  | .crashed => s.note (.refreshCrashed l.principal)

end State

/-- What the journal says of a result that a pass looks at. -/
def Landing.notes (l : Landing) (n : Id) : List Note :=
  match l.reply with
  | .value privileges => [.stored l.principal privileges (.call l.call (.pass n))]
  | .failed cause => [.refreshFailed l.principal cause]
  | .crashed => [.refreshCrashed l.principal]

theorem Landing.call?_notes {l : Landing} {n : Id} {m : Note} (h : m ∈ l.notes n) :
    m.call? = none := by
  obtain ⟨p, id, r⟩ := l
  cases r <;> rw [List.mem_singleton.mp h] <;> rfl

theorem Landing.caller?_notes {l : Landing} {n : Id} {m : Note} (h : m ∈ l.notes n) :
    m.caller? = none := by
  obtain ⟨p, id, r⟩ := l
  cases r <;> rw [List.mem_singleton.mp h] <;> rfl

theorem State.digest_eq (s : State) (n : Id) (l : Landing) :
    s.digest n l =
      { s with cache := l.reply.put l.principal s.cache, journal := l.notes n ++ s.journal } := by
  obtain ⟨p, id, r⟩ := l
  cases r <;> rfl

/-- The report after one more result. -/
def Report.count (r : Report) : Reply PrivilegeSet → Report
  | .value _ => { r with refreshed := r.refreshed + 1 }
  | .failed _ | .crashed => { r with failed := r.failed + 1 }

/-- The pass after it has looked at one of its results. -/
def Pass.look (pass : Pass) (l : Landing) : Pass :=
  { pass with landed := pass.landed.erase l, report := pass.report.count l.reply }

/-- The pass after it has started its call for a principal. -/
def Pass.fly (pass : Pass) (p : Principal) : Pass :=
  { pass with queue := pass.queue.erase p, flying := pass.flying ++ [p] }

/-- The pass after one of its calls has ended. -/
def Pass.land (pass : Pass) (l : Landing) : Pass :=
  { pass with flying := pass.flying.erase l.principal, landed := pass.landed ++ [l] }

/-- For whom an event can have a call about a principal begun. -/
inductive Begins : Event → Principal → Owner → Prop
  | fetch (e : Entity) (p : Principal) (a : Action) : Begins (.enforce e p a) p .fetch
  | direct (c : Id) (e : Entity) (p : Principal) (a : Action) :
    Begins (.enforce e p a) p (.direct c e a)
  | update (c : Id) (p : Principal) : Begins (.update p) p (.update c)
  | launch (n : Id) (p : Principal) : Begins (.launch n p) p (.pass n)

/-- How a list that was asked for can end when an event happens, and what its owner gets. -/
inductive Ends (ev : Event) (s : State) (id : Id) (call : Call) :
    Ending → Reply PrivilegeSet → Prop
  | answer {r : Reply PrivilegeSet} (hev : ev = .answer id r) (hq : call.question = .listing) :
    Ends ev s id call (.listed r) r
  | expire (hev : ev = .expire id) (ht : call.deadline ≤ s.now) :
    Ends ev s id call .timedOut (.failed (.timedOut call.owner.operation s.settings.backendTimeout))

/-- How a call can end when an event happens, whatever was asked: as a list that was asked for can,
or with the verdict that was. -/
inductive Checks (ev : Event) (s : State) (id : Id) (call : Call) : Ending → Prop
  | list {ending : Ending} {r : Reply PrivilegeSet} (h : Ends ev s id call ending r) :
    Checks ev s id call ending
  | verdict {r : Reply Bool} {e : Entity} {a : Action} (hev : ev = .verdict id r)
    (hq : call.question = .check e a) : Checks ev s id call (.checked r)

theorem Ends.not_checked {ev : Event} {s : State} {id : Id} {call : Call} {ending : Ending}
    {r : Reply PrivilegeSet} (h : Ends ev s id call ending r) (r' : Reply Bool) :
    ending ≠ .checked r' := by
  cases h <;> simp

theorem Checks.check {ev : Event} {s : State} {id : Id} {call : Call} {ending : Ending}
    (h : Checks ev s id call ending) {r : Reply Bool} (hr : ending = .checked r) :
    ∃ e a, call.question = .check e a := by
  cases h with
  | list h => exact absurd hr (h.not_checked r)
  | verdict _ hq => exact ⟨_, _, hq⟩

/-- The event can take a worker out of the middle of its pass. -/
def Event.abandons : Event → Bool
  | .wake _ | .release _ | .drop => true
  | _ => false

/-! ## The moves

Every constructor states its condition and the state that it leads to.  The conditions are as
strong as the program allows, so that nothing has to be found out again about the state before a
move. -/

open State in
/-- What can happen to an engine at once when `ev` happens. -/
inductive Move (ev : Event) (s : State) : State → Prop
  | quiet {t : State} (h : Quiet s t) : Move ev s t
  | enter (r : Request) : Move ev s (s.enter r)
  /-- A caller is told at once. -/
  | reply {c : Id} {r : Request} {o : Outcome} (h : Asking s c r) (ho : Fits s.settings r o) :
    Move ev s (s.finish c o)
  /-- A caller that waited for the end of a worker is told. -/
  | release {c w : Id} (h : s.callers.get? c = some (.worker w)) : Move ev s (s.finish c .stopped)
  | await {c w : Id} {r : Request} (h : Asking s c r) (hw : Waits r (.worker w)) :
    Move ev s (s.wait c (.worker w))
  | own {c : Id} {r : Request} {p : Principal} {q : Question} {o : Owner} (h : Asking s c r)
    (hm : Makes c r p q o) (ho : o ≠ .fetch) (he : o.enabled s.settings = true)
    (hev : Begins ev p o) : Move ev s (s.startOwnCall c p q o)
  | join {c id : Id} {e : Entity} {p : Principal} {a : Action} (hev : ev = .enforce e p a)
    (h : Asking s c (.enforce e p a)) (hf : s.fetches.get? p = some (.underway id)) :
    Move ev s ((s.wait c (.fetch p e a)).note (.joined c id))
  | fetch {c : Id} {e : Entity} {p : Principal} {a : Action} (hev : ev = .enforce e p a)
    (h : Asking s c (.enforce e p a)) (hf : s.fetches.get? p = none)
    (he : Owner.fetch.enabled s.settings = true) : Move ev s (s.startFetch c e p a)
  | fetchEnds {id : Id} {call : Call} {ending : Ending} {r : Reply PrivilegeSet}
    (hc : s.calls.get? id = some call) (ho : call.owner = .fetch)
    (ha : s.awaited call.principal = true) (he : Ends ev s id call ending r) :
    Move ev s ((s.endCall id call.principal ending).settleFetch id call.principal r)
  | updateEnds {id c : Id} {call : Call} {ending : Ending} {r : Reply PrivilegeSet}
    (hc : s.calls.get? id = some call) (ho : call.owner = .update c)
    (he : Ends ev s id call ending r) :
    Move ev s ((s.endCall id call.principal ending).settleUpdate id c call.principal r)
  | directEnds {id c : Id} {call : Call} {e : Entity} {a : Action} {ending : Ending}
    (hc : s.calls.get? id = some call) (ho : call.owner = .direct c e a)
    (he : Checks ev s id call ending) :
    Move ev s ((s.endCall id call.principal ending).finish c
      ((Request.enforce e call.principal a).outcome call.owner s.settings.backendTimeout ending))
  | landing {id n : Id} {call : Call} {ending : Ending} {r : Reply PrivilegeSet}
    (hc : s.calls.get? id = some call) (ho : call.owner = .pass n)
    (he : Ends ev s id call ending r) :
    Move ev s ((s.endCall id call.principal ending).land n ⟨call.principal, id, r⟩)
  | openFor {c : Id} (h : Asking s c .iterate) (ha : s.settings.cachingActive = true)
    (hk : s.cache.keys ≠ []) : Move ev s ((s.openPass (.caller c)).wait c (.pass s.next))
  | openBy {w : Id} {k : Worker} (h : s.workers.get? w = some k)
    (ha : s.settings.cachingActive = true) (hk : s.cache.keys ≠ []) :
    Move ev s ((s.openPass (.worker w)).setPhase w (.refreshing s.next))
  | launch {n : Id} {p : Principal} {pass : Pass} (hev : ev = .launch n p)
    (hp : s.passes.get? n = some pass) (hq : p ∈ pass.queue)
    (hf : pass.flying.length < s.parallelism) :
    Move ev s ({ s with passes := s.passes.put n (pass.fly p) }.startCall p .listing (.pass n))
  | look {n : Id} {pass : Pass} {l : Landing} (hev : ev = .collect n l.principal)
    (hp : s.passes.get? n = some pass) (hh : s.halted pass = false) (hl : l ∈ pass.landed)
    (hc : (pass.look l).complete = false) :
    Move ev s
      { s.digest n l with passes := (s.digest n l).passes.put n (pass.look l) }
  | close {n : Id} {pass : Pass} {l : Landing} (hev : ev = .collect n l.principal)
    (hp : s.passes.get? n = some pass) (hh : s.halted pass = false) (hl : l ∈ pass.landed)
    (hc : (pass.look l).complete = true) :
    Move ev s
      (({ s.digest n l with passes := (s.digest n l).passes.erase n }.note
        (.passFinished n (pass.look l).report)).reportPass pass.driver (pass.look l).report)
  /-- A caller that waits for a fetch or a worker leaves, and these go on without it. -/
  | leave {c : Id} {w : Waiting} (hev : ev = .cancel c) (h : s.callers.get? c = some w)
    (hw : (∃ p e a, w = .fetch p e a) ∨ ∃ w', w = .worker w') :
    Move ev s (s.leave c)
  | leaveCall {c id : Id} (hev : ev = .cancel c) (h : s.callers.get? c = some (.call id)) :
    Move ev s ((s.leave c).dropCall id)
  | leavePass {c n : Id} (hev : ev = .cancel c) (h : s.callers.get? c = some (.pass n)) :
    Move ev s ((s.leave c).dropPass n)
  /-- A pass is dropped that nobody but a worker drives. -/
  | abandon {n : Id} (h : ∀ pass, s.passes.get? n = some pass → ∃ w, pass.driver = .worker w)
    (hev : ev.abandons = true) : Move ev s (s.dropPass n)
  | write {p : Principal} {privileges : PrivilegeSet} (hev : ev = .write p privileges) :
    Move ev s (s.store p privileges .hand)
  | clear {n : Note} (hev : ev = .clear ∨ ev = .invalidate)
    (hn : n = .cleared ∨ ∃ k, n = .invalidated k) :
    Move ev s ({ s with cache := .empty }.note n)

/-- One move after the other. -/
abbrev Moves (ev : Event) : State → State → Prop := Relation.ReflTransGen (Move ev)

end Gatekeeper.Engine

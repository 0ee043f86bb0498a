import Gatekeeper.Engine.State
import Gatekeeper.Store

/-!
# A backend with a script

A backend answers from a store of grants.  One that follows a script first lets every call sit in
its latency, and may then crash it, fail it, or answer a check with a fixed verdict.  The script is
read twice: the latency when a call begins, all else when the latency is over.

Every call holds a ticket while it sits, be it a call of an engine or one from outside, and the
backend counts how many sit at once and how many there have been.
-/

set_option autoImplicit false

namespace Gatekeeper

open Engine

/-- What a scripted backend does to calls, in general and for single principals. -/
structure Script where
  latency : Nat := 0
  failure : Option String := none
  latencies : Table Principal Nat := .empty
  failures : Table Principal String := .empty
  crashing : List Principal := []
  verdicts : Table Principal Bool := .empty

namespace Script

/-- How long a call about the principal takes, in milliseconds. -/
def latencyOf (s : Script) (p : Principal) : Nat := (s.latencies.get? p).getD s.latency

/-- The text with which a call about the principal fails. -/
def failureOf (s : Script) (p : Principal) : Option String := (s.failures.get? p).or s.failure

/-- How the script ends a call about the principal, if it does not leave it to the store. -/
def ending? {α : Type} (s : Script) (p : Principal) : Option (Reply α) :=
  if s.crashing.contains p then some .crashed
  else (s.failureOf p).map fun text => .failed (.reported text [])

end Script

/-- A change of a script, for one principal or in general.  Of what is given for a principal only,
nothing has an effect in general. -/
structure ScriptChange where
  principal : Option Principal := none
  latency : Option Nat := none
  /-- The text to fail with, or that failing ends. -/
  failure : Option (Option String) := none
  crash : Option Bool := none
  verdict : Option (Option Bool) := none

namespace Table

/-- Gives the key a value, or takes its value away. -/
def assign {κ α : Type} [DecidableEq κ] (t : Table κ α) (k : κ) : Option α → Table κ α
  | some v => t.put k v
  | none => t.erase k

end Table

/-- The script after a change. -/
def Script.change (s : Script) (c : ScriptChange) : Script :=
  match c.principal with
  | none => { s with latency := c.latency.getD s.latency, failure := c.failure.getD s.failure }
  | some p =>
    let others := s.crashing.filter (· ≠ p)
    { s with
      latencies := c.latency.elim s.latencies fun ms => s.latencies.put p ms
      failures := c.failure.elim s.failures fun text => s.failures.assign p text
      crashing := c.crash.elim s.crashing fun on => if on then p :: others else others
      verdicts := c.verdict.elim s.verdicts fun v => s.verdicts.assign p v }

/-- The kinds of backends. -/
inductive BackendKind where
  /-- The store itself, without a script. -/
  | store
  /-- A backend that can only list. -/
  | listing
  /-- A backend that can also check. -/
  | checking
  deriving DecidableEq

/-- Who has made a call to a backend: an engine, under the number of the call, or somebody else. -/
inductive Ticket where
  | call (call : Id)
  | probe (probe : Nat)
  deriving DecidableEq

/-- A backend and the calls that sit in their latency. -/
structure Backend where
  kind : BackendKind
  store : Store := {}
  script : Script := {}
  listings : Nat := 0
  checks : Nat := 0
  /-- For each call that sits in its latency, the time when that is over. -/
  sitting : Table Ticket Nat := .empty
  /-- The largest number of calls that were sitting at once since the last look. -/
  peak : Nat := 0

namespace Backend

/-- The backend decides single checks itself. -/
def checksItself (b : Backend) : Bool := b.kind == .checking

/-- The backend follows a script. -/
def scripted (b : Backend) : Bool := b.kind != .store

/-- The number of listings so far. -/
def calls (b : Backend) : Nat :=
  match b.kind with
  | .store => b.store.listings
  | _ => b.listings

/-- A call begins. -/
def begin (b : Backend) (t : Ticket) (q : Question) (p : Principal) (now : Nat) : Backend :=
  if b.kind = .store then b
  else
    let b := match q with
      | .listing => { b with listings := b.listings + 1 }
      | .check .. => { b with checks := b.checks + 1 }
    let latency := b.script.latencyOf p
    if latency = 0 then b
    else
      let sitting := b.sitting.put t (now + latency)
      { b with sitting, peak := max b.peak sitting.size }

/-- A call is over, in whatever way. -/
def leave (b : Backend) (t : Ticket) : Backend := { b with sitting := b.sitting.erase t }

/-- When the backend will answer the call; a call that does not sit can be answered at any time. -/
def readyAt? (b : Backend) (t : Ticket) : Option Nat := b.sitting.get? t

/-- The backend can answer the call. -/
def ready (b : Backend) (t : Ticket) (now : Nat) : Bool := (b.readyAt? t).all (· ≤ now)

/-- A reply as the store gives it. -/
def ofStore {α : Type} : Except Cause α → Reply α
  | .ok a => .value a
  | .error cause => .failed cause

/-- Answers a listing. -/
def list (b : Backend) (p : Principal) : Backend × Reply PrivilegeSet :=
  match b.script.ending? p with
  | some r => (b, r)
  | none =>
    let (store, listed) := b.store.list p
    ({ b with store }, ofStore listed)

/-- Answers a check, of a backend that decides checks itself. -/
def verdict (b : Backend) (e : Entity) (p : Principal) (a : Action) : Backend × Reply Bool :=
  match b.script.ending? p with
  | some r => (b, r)
  | none => match b.script.verdicts.get? p with
    | some v => (b, .value v)
    | none =>
      let (store, checked) := b.store.check e p a
      ({ b with store }, ofStore checked)

/-- Answers a check, of any backend: one that cannot check lists and searches. -/
def check (b : Backend) (e : Entity) (p : Principal) (a : Action) : Backend × Reply Bool :=
  if b.checksItself then b.verdict e p a
  else
    let (b, listed) := b.list p
    (b, listed.map fun privileges => decide (⟨e, a⟩ ∈ privileges))

/-- What a check asks of the backend. -/
def checkQuestion (b : Backend) (e : Entity) (a : Action) : Question :=
  if b.checksItself then .check e a else .listing

/-- Begins to count the calls that sit at once anew. -/
def lookAway (b : Backend) : Backend := { b with peak := b.sitting.size }

end Backend

end Gatekeeper

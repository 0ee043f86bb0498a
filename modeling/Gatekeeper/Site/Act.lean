import Gatekeeper.Site.Basic

/-!
# What can happen at a site

Somebody asks something of the engine, the owner of a call looks for its answer, the store or the
script changes, somebody else calls the backend: a run of a site is any sequence of such acts.  A
call of the engine ends through `poll` only, so that what it ends with is what the backend says; the
backend forgets only calls that are no longer under way, and only one that has a script follows it.

Acts leave open when anybody looks.  Whatever depends on that is stated with a condition on the
run, as in `Gatekeeper.Proofs.Turnaround` and `Gatekeeper.Proofs.Timeout`.
-/

set_option autoImplicit false

namespace Gatekeeper

open Engine

/-- The event ends a call. -/
def Engine.Event.ends : Event → Bool
  | .answer .. | .verdict .. | .expire _ => true
  | _ => false

/-- What can happen at a site. -/
inductive Act where
  /-- An event happens to the engine, other than the end of a call. -/
  | ask (event : Event)
  /-- The owner of a call looks whether it has ended. -/
  | poll (call : Id)
  /-- The backend learns that a call has been dropped. -/
  | forget (call : Id)
  /-- Somebody does something to the store. -/
  | store (op : Store.Op)
  | script (change : ScriptChange)
  /-- Somebody calls the backend himself. -/
  | probe (probe : Nat) (question : Question) (principal : Principal)
  /-- Such a call gets its answer. -/
  | conclude (probe : Nat) (op : Store.Op)
  /-- Whoever has made such a call no longer waits. -/
  | giveUp (probe : Nat)

/-- What is left when somebody's own call to the backend gets its answer. -/
def Backend.conclude (b : Backend) (t : Ticket) : Store.Op → Backend
  | .list p => ((b.leave t).list p).1
  | .check e p a => ((b.leave t).check e p a).1
  | _ => b.leave t

namespace Site

/-- A new engine with a new backend. -/
def initial (settings : Settings) (kind : BackendKind) : Site where
  engine := { settings, checks := kind == .checking }
  backend := { kind }

/-- What an act does. -/
def act (s : Site) : Act → Site
  | .ask ev => if ev.ends then s else s.ask ev
  | .poll id => s.poll id
  | .forget id => if (s.engine.calls.get? id).isSome then s else s.forget id
  | .store op => { s with backend := { s.backend with store := (s.backend.store.perform op).1 } }
  | .script change =>
    if s.backend.scripted then
      { s with backend := { s.backend with script := s.backend.script.change change } }
    else s
  | .probe n q p => { s with backend := s.backend.begin (.probe n) q p s.engine.now }
  | .conclude n op => { s with backend := s.backend.conclude (.probe n) op }
  | .giveUp n => { s with backend := s.backend.leave (.probe n) }

/-- What a sequence of acts does. -/
def run (s : Site) (acts : List Act) : Site := acts.foldl act s

end Site

end Gatekeeper

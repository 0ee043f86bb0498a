import Gatekeeper.Engine.Step
import Gatekeeper.Site.Backend

/-!
# An engine with its backend

A site puts an engine and a backend together.  Whatever happens to the engine happens through
`Site.ask`, which keeps the backend informed of the calls that begin and end; `Site.poll` has the
owner of a call look whether it has been answered, and only if not, whether its time is up.
-/

set_option autoImplicit false

namespace Gatekeeper

open Engine

/-- An engine and the backend that it calls. -/
structure Site where
  engine : State
  backend : Backend
  /-- What has happened in the engine, newest first. -/
  journal : List Note := []

namespace Site

/-- What the backend learns from a note.  That a call of a pass is dropped it learns later, since
such a call is in the hands of the background. -/
def inform (now : Nat) (b : Backend) : Note → Backend
  | .began id p q _ => b.begin (.call id) q p now
  | .dropped _ (.pass _) => b
  | .ended id .. | .dropped id _ => b.leave (.call id)
  | _ => b

/-- The backend learns that a call of a pass has been dropped. -/
def forget (s : Site) (id : Id) : Site := { s with backend := s.backend.leave (.call id) }

/-- Lets an event happen to the engine. -/
def ask (s : Site) (e : Event) : Site :=
  let engine := { s.engine with journal := [] }.step e
  { engine := { engine with journal := [] }
    backend := engine.journal.foldr (fun n b => inform engine.now b n) s.backend
    journal := engine.journal ++ s.journal }

/-- The backend can answer the call, or its time is up. -/
def due (s : Site) (id : Id) : Bool :=
  match s.engine.calls.get? id with
  | some call =>
    s.engine.attended call
      && (s.backend.ready (.call id) s.engine.now || decide (call.deadline ≤ s.engine.now))
  | none => false

/-- The next time at which the call is due, if it is not due now. -/
def dueAt? (s : Site) (id : Id) : Option Nat :=
  (s.engine.calls.get? id).map fun call =>
    match s.backend.readyAt? (.call id) with
    | some t => min t call.deadline
    | none => call.deadline

/-- The owner of the call looks for its answer, and failing that at the clock. -/
def poll (s : Site) (id : Id) : Site :=
  match s.engine.calls.get? id with
  | none => s
  | some call =>
    if !s.engine.attended call then s
    else if s.backend.ready (.call id) s.engine.now then
      match call.question with
      | .listing =>
        let (backend, reply) := s.backend.list call.principal
        { s with backend }.ask (.answer id reply)
      | .check e a =>
        let (backend, reply) := s.backend.verdict e call.principal a
        { s with backend }.ask (.verdict id reply)
    else s.ask (.expire id)

end Site

end Gatekeeper

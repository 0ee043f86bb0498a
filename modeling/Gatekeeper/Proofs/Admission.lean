import Gatekeeper.Proofs.Behind
import Gatekeeper.Proofs.Visits

/-!
# Nobody passes undecided

The service behind a gate is called for a request once if the engine has allowed it to the principal
of this request, and for no other, however many requests there are at a time and whatever else
happens to the engine meanwhile; and a gate does nothing to the engine, to its cache, its fetches
and its backend but what the enforcements do that it asks for.

* `Admission` — all that is promised.
* `nobody_passes_undecided` — it holds of every gate before a service that is ready.

The gate adds nothing to what the engine decides and takes nothing from it.  What the theorem
says of requests is what the engine's own theorems say of their callers, read through the gate.
-/

set_option autoImplicit false

namespace Gatekeeper

open Engine Gatehouse

/-- What is promised of a gate before a service, in every run from a new engine on. -/
structure Admission (settings : Settings) (checks : Bool) (e : Entity) (a : Action)
    (service : Gate.Service) : Prop where
  /-- A request without a principal is turned away, and nothing is asked of the engine; it stays
  turned away. -/
  dismissed : ∀ before r after, let g := (Gatehouse.initial settings checks e a service).run before
    g.engine.dropped = false → r.principal = none →
      (g.act (.arrive r)).engine = g.engine
        ∧ (g.run (.arrive r :: after)).Shows g.visits.length r
          (.answered ⟨.ok ⟨401, "missing enforcement context"⟩, 0⟩) 0
  /-- About any other the engine is asked in the name of its next caller, and the request is guarded
  whatever happens after it has come. -/
  guarded : ∀ before r after p,
    let g := (Gatehouse.initial settings checks e a service).run before
    g.engine.dropped = false → r.principal = some p →
      (g.act (.arrive r)).engine = g.engine.step (.enforce e p a)
        ∧ (g.run (.arrive r :: after)).Guarded e a service g.visits.length r p g.engine.next
  /-- Where no call crashes no request does. -/
  spared : ∀ before r after p,
    let g := (Gatehouse.initial settings checks e a service).run before
    g.engine.dropped = false → r.principal = some p →
      (∀ ev, .event ev ∈ before ++ after → ev.crashes = false) →
        .returned g.engine.next .crashed ∉ (g.run (.arrive r :: after)).engine.journal
  /-- All that a gate does to its engine is to ask about requests. -/
  effect : ∀ acts, ((Gatehouse.initial settings checks e a service).run acts).engine
    = (State.initial settings checks).run (acts.flatMap (Act.events e a))
  /-- So a scenario with gates is seen as the scenario of the enforcements behind them, but for the
  answers and for what is logged: the cache, the calls, the fetches and the times are the same. -/
  played : ∀ (s : Scenario.Stage) (steps : List Scenario.Step),
    (∀ service' ∈ Scenario.servicesOf steps, service'.readiness = .ready) →
      (s.takeAll steps).map (fun seen => { seen with log := [] })
        = List.zipWith Scenario.Observation.through steps (s.takeAll (Scenario.behindAll steps))

section

variable {settings : Settings} {checks : Bool} {e : Entity} {a : Action} {service : Gate.Service}

theorem Gatehouse.Placed.initial : (Gatehouse.initial settings checks e a service).Placed := by
  intro i hi
  cases hi

theorem Gatehouse.books_run (acts : List Act) :
    Books ((Gatehouse.initial settings checks e a service).run acts).engine := by
  rw [engine_run]
  exact (Books.initial settings checks).run _

theorem Gatehouse.unharmed_run {acts : List Act}
    (h : ∀ ev, .event ev ∈ acts → ev.crashes = false) :
    Unharmed ((Gatehouse.initial settings checks e a service).run acts).engine := by
  rw [engine_run]
  exact (Unharmed.initial settings checks).run (Books.initial settings checks) (crashes_events h)

end

/-- **Nobody gets through a gate undecided.**  In every run of a gate before a service that is
ready, with any number of requests at a time and whatever else happens to the engine, the service is
called once for a request whose principal the engine allows what the gate stands for, and for no
other; and the gate has no effect but that of the enforcements. -/
theorem nobody_passes_undecided (settings : Settings) (checks : Bool) (e : Entity) (a : Action)
    (service : Gate.Service) (hready : service.readiness = .ready) :
    Admission settings checks e a service where
  dismissed before r after hd hp := by
    obtain ⟨hengine, hshows⟩ := act_arrive_dismissed (Placed.initial.run before) hd hp
    exact ⟨hengine, dismissed_run hshows after⟩
  guarded before r after p hd hp := by
    have hplaced : ((Gatehouse.initial settings checks e a service).run before).Placed :=
      Placed.initial.run before
    obtain ⟨he, ha, hs, -⟩ := (Gatehouse.initial settings checks e a service).run_frame before
    obtain ⟨hengine, -⟩ := act_arrive_waits hplaced hd hp
    have hguarded := guarded_arrive (books_run before) hplaced hd hp (hs.symm ▸ hready) after
    rw [he, ha] at hengine
    rw [he, ha, hs] at hguarded
    exact ⟨hengine, hguarded⟩
  spared before r after p hd hp hcrash :=
    spared_arrive (books_run before) (unharmed_run fun ev h => hcrash ev (List.mem_append_left _ h))
      (Placed.initial.run before) hd hp fun ev h => hcrash ev (List.mem_append_right _ h)
  effect acts := engine_run _ acts
  played s steps hready := Scenario.takeAll_behind hready rfl

/-- Two requests of one principal share a fetch; one comes without a principal, and one of somebody
who is denied.  They are answered in another order than they came. -/
theorem nobody_passes_undecided_of_four :
    let e : Entity := .space "docs"
    let service : Gate.Service := ⟨.ready, fun r => .ok ⟨200, r.body⟩⟩
    let alice : Principal := ⟨.user, "alice"⟩
    let bob : Principal := ⟨.user, "bob"⟩
    let before : List Act := [.arrive ⟨some alice, "a"⟩, .arrive ⟨none, "b"⟩]
    let after : List Act := [.arrive ⟨some bob, "d"⟩, .look 2,
      .event (.answer 1 (.value (.ofList [⟨e, .read⟩]))), .event (.answer 4 (.value (.ofList []))),
      .look 3, .look 0]
    let g := (Gatehouse.initial { authorization := true } false e .read service).run before
    let h := g.run (.arrive ⟨some alice, "c"⟩ :: after)
    service.readiness = .ready ∧ g.engine.dropped = false ∧ h.served = [0]
      ∧ Note.returned g.engine.next .allowed ∈ h.engine.journal
      ∧ (h.look g.visits.length).Shows g.visits.length ⟨some alice, "c"⟩
        (.answered ⟨.ok ⟨200, "c"⟩, 1⟩) 1 := by
  intro e service alice bob before after g h
  have hadmission := nobody_passes_undecided { authorization := true } false e .read service rfl
  have hd : g.engine.dropped = false := by decide +kernel
  have hserved : h.served = [0] := by decide +kernel
  have htold : Note.returned g.engine.next .allowed ∈ h.engine.journal := by decide +kernel
  have hguarded : h.Guarded e .read service g.visits.length ⟨some alice, "c"⟩ alice g.engine.next :=
    (hadmission.guarded before ⟨some alice, "c"⟩ after alice hd rfl).2
  -- what the run comes to has been computed above, and must not be unfolded below
  clear_value h g
  exact ⟨rfl, hd, hserved, htold, hguarded.admitted htold⟩

end Gatekeeper

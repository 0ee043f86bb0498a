import Gatekeeper.Gatehouse
import Gatekeeper.Proofs.Spared

/-!
# Requests at a gate

A request that has come to a gate keeps its place, and nothing but a look at this place changes how
it stands.  It is asked about in the name of a caller of its own, and stands as the engine has told
this caller, whatever happens to the other requests meanwhile.

* `Gatehouse.engine_run` — a gate does nothing to its engine but ask about the requests.
* `Gatehouse.Stands` — how a request can stand that the engine was asked about; `Stands.run` says
  that it stands like that after every run.
* `Gatehouse.Guarded`, `Gatehouse.guarded_arrive` — what is promised to such a request.
* `Gatehouse.dismissed_run` — a request without a principal stays turned away.

What a request gets depends on the engine only through what its caller is told, and the engine
tells a caller one thing.  So it makes no difference who else is at the gate or in what order
anybody looks, and the interleaving of requests never has to be spoken of.
-/

set_option autoImplicit false

namespace Gatekeeper

open Engine

namespace Gatehouse

/-- The events that an act brings to the engine of a gate. -/
def Act.events (e : Entity) (a : Action) : Act → List Event
  | .arrive r => (Gate.question? e a r).toList
  | .look _ => []
  | .event ev => [ev]

/-- The request at the place stands like this, and the service has been called for it so often. -/
def Shows (g : Gatehouse) (i : Nat) (r : Gate.Request) (fate : Gate.Fate) (times : Nat) : Prop :=
  g.visits[i]? = some (r, fate) ∧ g.served.count i = times

/-- How a request at a place can stand, about which the engine was asked in the name of a caller. -/
inductive Stands (g : Gatehouse) (i : Nat) (r : Gate.Request) (c : Id) : Prop
  | waits (h : g.Shows i r (.waiting c) 0)
  | told {o : Outcome} (ho : .returned c o ∈ g.engine.journal) (hc : o ≠ .crashed)
    (h : g.Shows i r (.answered (Gate.complete g.service r o)) (Gate.complete g.service r o).served)
  | crashed (ho : .returned c .crashed ∈ g.engine.journal) (h : g.Shows i r .crashed 0)

section

variable {g : Gatehouse} {e : Entity} {a : Action} {i : Nat} {r : Gate.Request} {c : Id}
  {o : Outcome} {x : Act}

/-! ## The engine of a gate

All that a gate does to its engine is to ask for a decision in the name of a new caller.  So a
run of a gate is a run of its engine, and all that is known of the latter applies. -/

theorem hear_eq (g : Gatehouse) (i : Nat) (r : Gate.Request) (ho : o ≠ .crashed) :
    g.hear i r o = { g with
      visits := g.visits.set i (r, .answered (Gate.complete g.service r o))
      served := List.replicate (Gate.complete g.service r o).served i ++ g.served } := by
  cases o <;> first | rfl | exact absurd rfl ho

/-- A gate stays what it is, and the engine runs as the events say that are brought to it. -/
theorem act_frame (g : Gatehouse) (x : Act) : (g.act x).entity = g.entity
    ∧ (g.act x).action = g.action ∧ (g.act x).service = g.service
    ∧ (g.act x).engine = g.engine.run (x.events g.entity g.action) := by
  cases x with
  | arrive r =>
    rw [act]
    split
    · rename_i hd
      refine ⟨rfl, rfl, rfl, ?_⟩
      rw [Act.events, Gate.question?]
      cases r.principal with
      | none => rfl
      | some p =>
        have hstep : g.engine.step (.enforce g.entity p g.action) = g.engine :=
          step_of_dropped hd rfl
        exact hstep.symm
    · rw [arrive, Act.events]
      cases Gate.question? g.entity g.action r <;> exact ⟨rfl, rfl, rfl, rfl⟩
  | look i =>
    rw [act, look]
    split
    · split
      · rename_i o _
        cases o <;> exact ⟨rfl, rfl, rfl, rfl⟩
      · exact ⟨rfl, rfl, rfl, rfl⟩
    · exact ⟨rfl, rfl, rfl, rfl⟩
  | event ev => exact ⟨rfl, rfl, rfl, rfl⟩

theorem run_frame (g : Gatehouse) (acts : List Act) : (g.run acts).entity = g.entity
    ∧ (g.run acts).action = g.action ∧ (g.run acts).service = g.service
    ∧ (g.run acts).engine = g.engine.run (acts.flatMap (Act.events g.entity g.action)) := by
  induction acts generalizing g with
  | nil => exact ⟨rfl, rfl, rfl, rfl⟩
  | cons x acts ih =>
    obtain ⟨he, ha, hs, hrun⟩ := g.act_frame x
    obtain ⟨he', ha', hs', hrun'⟩ := ih (g.act x)
    refine ⟨he'.trans he, ha'.trans ha, hs'.trans hs, hrun'.trans ?_⟩
    rw [he, ha, hrun, List.flatMap_cons, Engine.run_append]

/-- **The effect of a gate on its engine is that of the enforcements which it asks for.** -/
theorem engine_run (g : Gatehouse) (acts : List Act) :
    (g.run acts).engine = g.engine.run (acts.flatMap (Act.events g.entity g.action)) :=
  (g.run_frame acts).2.2.2

/-- No call crashes unless somebody brings it about. -/
theorem crashes_events {acts : List Act}
    (h : ∀ ev, .event ev ∈ acts → ev.crashes = false) :
    ∀ ev ∈ acts.flatMap (Act.events e a), ev.crashes = false := by
  intro ev hev
  obtain ⟨x, hx, hev⟩ := List.mem_flatMap.mp hev
  cases x with
  | arrive r =>
    obtain ⟨p, -, rfl⟩ := Option.map_eq_some_iff.mp (Option.mem_toList.mp hev)
    rfl
  | look i => cases hev
  | event ev' => exact List.mem_singleton.mp hev ▸ h _ hx

theorem books_act (hb : Books g.engine) (x : Act) : Books (g.act x).engine := by
  rw [(g.act_frame x).2.2.2]
  exact hb.run _

theorem journal_act (hb : Books g.engine) (x : Act) :
    g.engine.journal ⊆ (g.act x).engine.journal := by
  rw [(g.act_frame x).2.2.2]
  exact (hb.suffix_run _).subset

theorem told?_eq_some_iff (hb : Books g.engine) :
    g.told? c = some o ↔ .returned c o ∈ g.engine.journal := by
  have hmem : ∀ {o'}, g.told? c = some o' → .returned c o' ∈ g.engine.journal := by
    intro o' h
    obtain ⟨n, hn, hno⟩ := List.exists_of_findSome?_eq_some h
    split at hno
    · split_ifs at hno with hc
      rwa [← hc, ← Option.some.inj hno]
    · cases hno
  refine ⟨hmem, fun h => ?_⟩
  cases ht : g.told? c with
  | none => simpa using List.findSome?_eq_none_iff.mp ht _ h
  | some o' => rw [hb.callers.returned_unique (hmem ht) h]

/-! ## Places

Requests keep their place in the list of visits.  Anything that happens elsewhere leaves alone
what stands there. -/

/-- Only a look at its place changes how a request stands. -/
theorem act_place (hi : i < g.visits.length) (hx : x ≠ .look i) :
    (g.act x).visits[i]? = g.visits[i]? ∧ (g.act x).served.count i = g.served.count i := by
  cases x with
  | arrive r =>
    rw [act]
    split
    · exact ⟨rfl, rfl⟩
    · rw [arrive]
      split <;> exact ⟨List.getElem?_append_left hi, rfl⟩
  | look j =>
    have hj : j ≠ i := fun h => hx (h ▸ rfl)
    rw [act, look]
    split
    · split
      · rename_i o _
        by_cases ho : o = .crashed
        · subst ho
          exact ⟨List.getElem?_set_ne hj, rfl⟩
        · rw [hear_eq _ _ _ ho]
          refine ⟨List.getElem?_set_ne hj, ?_⟩
          rw [List.count_append, List.count_replicate, if_neg (by simpa using hj), Nat.zero_add]
      · exact ⟨rfl, rfl⟩
    · exact ⟨rfl, rfl⟩
  | event ev => exact ⟨rfl, rfl⟩

theorem Shows.lt {fate : Gate.Fate} {n : Nat} (h : g.Shows i r fate n) : i < g.visits.length :=
  (List.getElem?_eq_some_iff.mp h.1).1

theorem Shows.act {fate : Gate.Fate} {n : Nat} (h : g.Shows i r fate n) (hx : x ≠ .look i) :
    (g.act x).Shows i r fate n := by
  obtain ⟨hv, hs⟩ := act_place h.lt hx
  exact ⟨hv.trans h.1, hs.trans h.2⟩

/-! ## Looks

A request is answered when somebody looks at it and the engine has told its caller something.
These lemmas give the outcome of a look in each case, and `Stands` holds them together along a
run. -/

theorem engine_look (g : Gatehouse) (i : Nat) : (g.look i).engine = g.engine :=
  (g.act_frame (.look i)).2.2.2

theorem service_look (g : Gatehouse) (i : Nat) : (g.look i).service = g.service :=
  (g.act_frame (.look i)).2.2.1

/-- A request that does not wait is left as it is. -/
theorem look_of_shows {fate : Gate.Fate} {n : Nat} (h : g.Shows i r fate n)
    (hf : ∀ c, fate ≠ .waiting c) : g.look i = g := by
  rw [look, h.1]
  cases fate with
  | waiting c => exact absurd rfl (hf c)
  | answered | crashed => rfl

/-- A request waits as long as the engine has not said anything. -/
theorem look_of_untold (hb : Books g.engine) (h : g.Shows i r (.waiting c) 0)
    (ho : ∀ o, .returned c o ∉ g.engine.journal) : g.look i = g := by
  have hnone : g.told? c = none := by
    rw [Option.eq_none_iff_forall_ne_some]
    exact fun o ht => ho o ((told?_eq_some_iff hb).mp ht)
  simp only [look, h.1, hnone]

/-- A request is answered when somebody looks after the engine has said something. -/
theorem look_of_told (hb : Books g.engine) (h : g.Shows i r (.waiting c) 0)
    (ho : .returned c o ∈ g.engine.journal) (hc : o ≠ .crashed) :
    (g.look i).Shows i r (.answered (Gate.complete g.service r o))
      (Gate.complete g.service r o).served := by
  simp only [look, h.1, (told?_eq_some_iff hb).mpr ho, hear_eq _ _ _ hc]
  refine ⟨List.getElem?_set_self h.lt, ?_⟩
  rw [List.count_append, List.count_replicate_self, h.2, Nat.add_zero]

theorem look_of_crashed (hb : Books g.engine) (h : g.Shows i r (.waiting c) 0)
    (ho : .returned c .crashed ∈ g.engine.journal) : (g.look i).Shows i r .crashed 0 := by
  simp only [look, h.1, (told?_eq_some_iff hb).mpr ho]
  exact ⟨List.getElem?_set_self h.lt, h.2⟩

namespace Stands

theorem look (hb : Books g.engine) (h : g.Stands i r c) : (g.look i).Stands i r c := by
  cases h with
  | waits h =>
    -- a crash is asked for first, since it is told like an outcome but answers nobody
    by_cases hcrash : .returned c .crashed ∈ g.engine.journal
    · exact .crashed (g.engine_look i ▸ hcrash) (look_of_crashed hb h hcrash)
    by_cases htold : ∃ o, .returned c o ∈ g.engine.journal
    · obtain ⟨o, ho⟩ := htold
      have hc : o ≠ .crashed := fun hc => hcrash (hc ▸ ho)
      have hshows := look_of_told hb h ho hc
      rw [← g.service_look i] at hshows
      exact .told (g.engine_look i ▸ ho) hc hshows
    · rw [look_of_untold hb h fun o ho => htold ⟨o, ho⟩]
      exact .waits h
  | told ho hc h =>
    rw [look_of_shows h fun c => by simp]
    exact .told ho hc h
  | crashed ho h =>
    rw [look_of_shows h fun c => by simp]
    exact .crashed ho h

/-- How a request can stand before an act, so it can afterwards. -/
theorem act (hb : Books g.engine) (h : g.Stands i r c) (x : Act) : (g.act x).Stands i r c := by
  by_cases hx : x = .look i
  · subst hx
    exact h.look hb
  -- the place is left alone, and what has been told stays told
  cases h with
  | waits h => exact .waits (h.act hx)
  | told ho hc h =>
    have hshows := h.act hx
    rw [← (g.act_frame x).2.2.1] at hshows
    exact .told (journal_act hb x ho) hc hshows
  | crashed ho h => exact .crashed (journal_act hb x ho) (h.act hx)

/-- **A request stands as the engine has told the caller in whose name it was asked.** -/
theorem run (hb : Books g.engine) (h : g.Stands i r c) (acts : List Act) :
    (g.run acts).Stands i r c := by
  induction acts generalizing g with
  | nil => exact h
  | cons x acts ih => exact ih (books_act hb x) (h.act hb x)

end Stands

namespace Stands

/-- Whoever looks at a request finds it as the engine has told its caller. -/
theorem shows_of_told (hb : Books g.engine) (h : g.Stands i r c)
    (ho : .returned c o ∈ g.engine.journal) (hc : o ≠ .crashed) :
    (g.look i).Shows i r (.answered (Gate.complete g.service r o))
      (Gate.complete g.service r o).served := by
  cases h with
  | waits h => exact look_of_told hb h ho hc
  | told ho' _ h =>
    obtain rfl := hb.callers.returned_unique ho ho'
    rwa [look_of_shows h fun c => by simp]
  | crashed ho' => exact absurd (hb.callers.returned_unique ho ho') hc

theorem shows_of_crashed (hb : Books g.engine) (h : g.Stands i r c)
    (ho : .returned c .crashed ∈ g.engine.journal) : (g.look i).Shows i r .crashed 0 := by
  cases h with
  | waits h => exact look_of_crashed hb h ho
  | told ho' hc => exact absurd (hb.callers.returned_unique ho' ho) hc
  | crashed _ h => rwa [look_of_shows h fun c => by simp]

theorem shows_of_untold (h : g.Stands i r c) (ho : ∀ o, .returned c o ∉ g.engine.journal) :
    g.Shows i r (.waiting c) 0 := by
  cases h with
  | waits h => exact h
  | told ho' => exact absurd ho' (ho _)
  | crashed ho' => exact absurd ho' (ho _)

end Stands

/-! ## Requests that come

A request without a principal never gets as far as the engine.  Any other takes the next place
and waits there, and the service has not been called for it yet. -/

/-- The service has been called for nobody who has not come. -/
def Placed (g : Gatehouse) : Prop := ∀ i ∈ g.served, i < g.visits.length

theorem Placed.act (h : g.Placed) (x : Act) : (g.act x).Placed := by
  cases x with
  | arrive r =>
    rw [Gatehouse.act]
    split
    · exact h
    · rw [arrive]
      split <;>
      · intro i hi
        rw [List.length_append]
        exact Nat.lt_add_right _ (h i hi)
  | look i =>
    -- only places that somebody has come to are looked at
    rw [Gatehouse.act, Gatehouse.look]
    split
    · rename_i hv
      split
      · rename_i o _
        by_cases ho : o = .crashed
        · subst ho
          intro j hj
          exact (List.length_set ..).symm ▸ h j hj
        · rw [hear_eq _ _ _ ho]
          intro j hj
          rw [List.length_set]
          rcases List.mem_append.mp hj with hj | hj
          · rw [List.eq_of_mem_replicate hj]
            exact (List.getElem?_eq_some_iff.mp hv).1
          · exact h j hj
      · exact h
    · exact h
  | event ev => exact h

theorem Placed.run (h : g.Placed) (acts : List Act) : (g.run acts).Placed := by
  induction acts generalizing g with
  | nil => exact h
  | cons x acts ih => exact ih (h.act x)

theorem Placed.count_eq_zero (h : g.Placed) : g.served.count g.visits.length = 0 :=
  List.count_eq_zero.mpr fun hi => Nat.lt_irrefl _ (h _ hi)

/-- A request without a principal is turned away, and nothing is asked of the engine. -/
theorem act_arrive_dismissed (h : g.Placed) (hd : g.engine.dropped = false)
    (hp : r.principal = none) : (g.act (.arrive r)).engine = g.engine
      ∧ (g.act (.arrive r)).Shows g.visits.length r (.answered Gate.turnedAway) 0 := by
  have hact : g.act (.arrive r)
      = { g with visits := g.visits ++ [(r, .answered Gate.turnedAway)] } := by
    simp [Gatehouse.act, hd, arrive, Gate.question?, hp]
  rw [hact]
  exact ⟨rfl, List.getElem?_concat_length, h.count_eq_zero⟩

/-- Any other request waits, and the engine is asked whether its principal may do what the gate
stands for. -/
theorem act_arrive_waits (h : g.Placed) (hd : g.engine.dropped = false) {p : Principal}
    (hp : r.principal = some p) :
    (g.act (.arrive r)).engine = g.engine.step (.enforce g.entity p g.action)
      ∧ (g.act (.arrive r)).Shows g.visits.length r (.waiting g.engine.next) 0 := by
  have hact : g.act (.arrive r) = { g with
      engine := g.engine.step (.enforce g.entity p g.action)
      visits := g.visits ++ [(r, .waiting g.engine.next)] } := by
    simp [Gatehouse.act, hd, arrive, Gate.question?, hp]
  rw [hact]
  exact ⟨rfl, List.getElem?_concat_length, h.count_eq_zero⟩

/-- A request that has been turned away stays turned away. -/
theorem dismissed_run (h : g.Shows i r (.answered Gate.turnedAway) 0) (acts : List Act) :
    (g.run acts).Shows i r (.answered Gate.turnedAway) 0 := by
  induction acts generalizing g with
  | nil => exact h
  | cons x acts ih =>
    refine ih ?_
    by_cases hx : x = .look i
    · subst hx
      show (g.look i).Shows i r (.answered Gate.turnedAway) 0
      rwa [look_of_shows h fun c => by simp]
    · exact h.act hx

/-! ## What is promised to a request

What the gate answers is put in terms of what the engine has told the caller: the service is
called once if that is that the action is allowed, and not at all otherwise. -/

/-- What is promised to a request at a place, about which the engine was asked in the name of a
caller: it waits till the engine has told the caller something, and whoever looks then finds it
answered as it must be. -/
structure Guarded (g : Gatehouse) (e : Entity) (a : Action) (service : Gate.Service) (i : Nat)
    (r : Gate.Request) (p : Principal) (c : Id) : Prop where
  asked : .called c (.enforce e p a) ∈ g.engine.journal
  /-- The engine says one thing and no other. -/
  decided : ∀ o, .returned c o ∈ g.engine.journal →
    (∀ o', .returned c o' ∈ g.engine.journal → o' = o)
      ∧ (o = .allowed ∨ o = .failed (.permissionDenied p e a)
        ∨ (∃ cause, o = .failed (.backendUnavailable cause)) ∨ o = .crashed)
  /-- Nobody is answered before. -/
  undecided : (∀ o, .returned c o ∉ g.engine.journal) → g.Shows i r (.waiting c) 0 ∧ g.look i = g
  /-- Who is allowed gets what the service says, which is called once. -/
  admitted : .returned c .allowed ∈ g.engine.journal →
    (g.look i).Shows i r (.answered ⟨service.serve r, 1⟩) 1
  forbidden : ∀ p' e' a', .returned c (.failed (.permissionDenied p' e' a')) ∈ g.engine.journal →
    (g.look i).Shows i r (.answered ⟨.ok ⟨403, "forbidden"⟩, 0⟩) 0
  unavailable : ∀ error, (∀ p' e' a', error ≠ .permissionDenied p' e' a') →
    .returned c (.failed error) ∈ g.engine.journal →
      (g.look i).Shows i r (.answered ⟨.ok ⟨503, "authorization unavailable"⟩, 0⟩) 0
  crashed : .returned c .crashed ∈ g.engine.journal → (g.look i).Shows i r .crashed 0
  /-- The service is called once for whom the engine allows it, and never for anybody else. -/
  once : g.served.count i ≤ (g.look i).served.count i
    ∧ (g.look i).served.count i = if .returned c .allowed ∈ g.engine.journal then 1 else 0

theorem complete_of_allowed {service : Gate.Service} (h : service.readiness = .ready) :
    Gate.complete service r .allowed = ⟨service.serve r, 1⟩ := by
  rw [Gate.complete, Gate.refusal?, Gate.Service.handle, h]

theorem complete_of_failed {service : Gate.Service} {error : Error}
    (h : ∀ p e a, error ≠ .permissionDenied p e a) : Gate.complete service r (.failed error)
      = ⟨.ok ⟨503, "authorization unavailable"⟩, 0⟩ := by
  cases error with
  | permissionDenied p e a => exact absurd rfl (h p e a)
  | _ => rfl

/-- A look calls the service if it does anything about it. -/
theorem count_le_look (g : Gatehouse) (i : Nat) :
    g.served.count i ≤ (g.look i).served.count i := by
  rw [look]
  split
  · split
    · rename_i o _
      by_cases ho : o = .crashed
      · rw [ho]
        exact Nat.le_refl _
      · rw [hear_eq _ _ _ ho, List.count_append]
        exact Nat.le_add_left _ _
    · exact Nat.le_refl _
  · exact Nat.le_refl _

/-- The service has been called for nobody else than those whom the engine has allowed it. -/
theorem Stands.count_look (hb : Books g.engine) (h : g.Stands i r c) {p : Principal}
    (hc : .called c (.enforce e p a) ∈ g.engine.journal)
    (hready : g.service.readiness = .ready) :
    (g.look i).served.count i = if .returned c .allowed ∈ g.engine.journal then 1 else 0 := by
  by_cases htold : ∃ o, .returned c o ∈ g.engine.journal
  case neg =>
    have huntold : ∀ o, .returned c o ∉ g.engine.journal := fun o ho => htold ⟨o, ho⟩
    have hwaits := h.shows_of_untold huntold
    rw [look_of_untold hb hwaits huntold, if_neg (huntold _)]
    exact hwaits.2
  obtain ⟨o, ho⟩ := htold
  have hallowed : .returned c .allowed ∈ g.engine.journal ↔ o = .allowed :=
    ⟨fun h => hb.callers.returned_unique ho h, fun h => h ▸ ho⟩
  rw [if_congr hallowed rfl rfl]
  rcases outcome_of_enforce hb hc ho with rfl | rfl | ⟨cause, rfl⟩ | rfl
  · have hshows := h.shows_of_told hb ho (by simp)
    rw [complete_of_allowed hready] at hshows
    exact hshows.2
  · exact (h.shows_of_told hb ho (by simp)).2
  · exact (h.shows_of_told hb ho (by simp)).2
  · exact (h.shows_of_crashed hb ho).2

/-- A request that stands as it can has what it is promised. -/
theorem Stands.guarded (hb : Books g.engine) (h : g.Stands i r c) {p : Principal}
    (hc : .called c (.enforce g.entity p g.action) ∈ g.engine.journal)
    (hready : g.service.readiness = .ready) :
    g.Guarded g.entity g.action g.service i r p c where
  asked := hc
  decided _ ho :=
    ⟨fun _ ho' => hb.callers.returned_unique ho' ho, outcome_of_enforce hb hc ho⟩
  undecided ho := ⟨h.shows_of_untold ho, look_of_untold hb (h.shows_of_untold ho) ho⟩
  admitted ho := by
    have hshows := h.shows_of_told hb ho (by simp)
    rwa [complete_of_allowed hready] at hshows
  forbidden _ _ _ ho := h.shows_of_told hb ho (by simp)
  unavailable error herror ho := by
    have hshows := h.shows_of_told hb ho (by simp)
    rwa [complete_of_failed herror] at hshows
  crashed := h.shows_of_crashed hb
  once := ⟨g.count_le_look i, h.count_look hb hc hready⟩

/-- **A request that comes with a principal is guarded**, whatever happens afterwards. -/
theorem guarded_arrive (hb : Books g.engine) (h : g.Placed) (hd : g.engine.dropped = false)
    {p : Principal} (hp : r.principal = some p) (hready : g.service.readiness = .ready)
    (after : List Act) : (g.run (.arrive r :: after)).Guarded g.entity g.action g.service
      g.visits.length r p g.engine.next := by
  obtain ⟨hengine, hshows⟩ := act_arrive_waits h hd hp
  obtain ⟨he, ha, hs, hrun⟩ := g.run_frame (.arrive r :: after)
  have hstands := (Stands.waits hshows).run (books_act hb _) after
  have hbooks : Books (g.run (.arrive r :: after)).engine := by
    rw [hrun]
    exact hb.run _
  have hasked : .called g.engine.next (.enforce g.entity p g.action)
      ∈ (g.run (.arrive r :: after)).engine.journal := by
    have hcalled := called_enforce hb hd g.entity p g.action
    rw [← hengine] at hcalled
    show _ ∈ ((g.act (.arrive r)).run after).engine.journal
    rw [engine_run]
    exact ((books_act hb _).suffix_run _).subset hcalled
  rw [← he, ← ha] at hasked
  have hguarded := hstands.guarded hbooks hasked (hs.symm ▸ hready)
  rwa [he, ha, hs] at hguarded

/-- Where no call crashes, no request does. -/
theorem spared_arrive (hb : Books g.engine) (hi : Unharmed g.engine) (h : g.Placed)
    (hd : g.engine.dropped = false) {p : Principal} (hp : r.principal = some p) {after : List Act}
    (hcrash : ∀ ev, .event ev ∈ after → ev.crashes = false) :
    .returned g.engine.next .crashed ∉ (g.run (.arrive r :: after)).engine.journal := by
  obtain ⟨hengine, -⟩ := act_arrive_waits h hd hp
  show _ ∉ ((g.act (.arrive r)).run after).engine.journal
  rw [engine_run, hengine]
  exact enforce_spared hb hi hd (crashes_events hcrash)

end

end Gatehouse

end Gatekeeper

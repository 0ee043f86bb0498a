import Gatekeeper.Proofs.Halt

/-!
# What a shutdown is worth

Whoever shuts down an engine whose refresh is running waits for the end of the worker, and finds
that nothing is left of it.  The engine forgets its worker at that moment; so whoever shuts it down
again has nobody to wait for, and is told at once that the refresh has stopped.  That is so if the
worker has come to its end by then, and not before: a worker that has not run since may be in the
middle of a pass that goes on asking.  What it does not do, whoever has been told what, is store
anything.

* `Final` — whoever shuts down the engine and is told so can rely on it that nothing is left of the
  worker.
* `StoresNoMore` — the worker begins no pass and stores nothing any more.
* `final_iff` — the shutdown is final exactly if it is the first, or the worker is at its end.

The exact condition is about the worker and not about who asks.  It is found by asking what a
second caller could wait for: the engine has forgotten its worker, so nothing in it can tell when
the worker ends.
-/

set_option autoImplicit false

namespace Gatekeeper.Engine

/-- Whoever shuts down the engine, and is told so, finds that nothing is left of the worker. -/
def Final (s : State) (w : Id) : Prop :=
  ∀ es o, .returned s.next o ∈ ((s.step .shutdown).run es).journal →
    Gone ((s.step .shutdown).run es) w

/-- The worker begins no pass any more, and those that it runs store nothing. -/
structure StoresNoMore (s : State) (w : Id) : Prop where
  begins : ∀ es n, s.next ≤ n → ¬ (s.run es).Driven w n
  stores : ∀ n, s.Driven w n → ∀ es, StoresNothing n s (s.run es)

section

variable {s t : State} {ev : Event} {n w : Id} {k : Worker}

namespace WorkerBooks

/-! ## A worker that has been asked to stop

It takes no tick any more, so the pass that it is in the middle of is its last, and that pass
looks at nothing. -/

/-- A worker that has been asked to stop comes to be in the middle of no other pass. -/
theorem refreshing_of_run (h : WorkerBooks s) (hw : Halting s w) (es : List Event)
    (hr : (s.run es).Refreshing w n) : s.Refreshing w n := by
  induction es generalizing s with
  | nil => exact hr
  | cons ev es ih =>
    have hback := ih (h.step ev) (h.halting_run hw [ev]) hr
    obtain ⟨k, hk, -⟩ := id hw
    obtain ⟨k', hk', hf⟩ := h.fate hk ev
    have hphase := hback.phase hk'
    cases hf with
    | stays | asked => exact ⟨k, hk, hphase⟩
    | ends | rests => cases hphase
    | ticks hev hticks =>
      rw [hw.not_ticks hk] at hticks
      cases hticks

/-- **A worker that has been asked to stop begins no pass any more and stores nothing.** -/
theorem storesNoMore (h : WorkerBooks s) (hw : Halting s w) : StoresNoMore s w where
  begins es n hle hd := by
    obtain ⟨k, hk, hphase⟩ := h.refreshing_of_run hw es ((h.run es).refreshing hd)
    exact absurd (h.books.orderly.phases hk hphase).1 (Nat.not_lt_of_le hle)
  stores n hd := by
    obtain ⟨pass, hp, hdriver⟩ := hd
    refine h.books.storesNothing_run (h.books.orderly.passes hp) fun pass' hp' => ?_
    rw [hp, Option.some_inj] at hp'
    exact hp' ▸ h.halted hw hp hdriver

/-! ## Whether a shutdown is final

The first shutdown waits for the worker and is told when the worker has ended.  Any later one
finds no worker to wait for.  So it is final if and only if the worker has come to its end
already, which is shown by letting the worker not run. -/

/-- An engine does not know of a worker that it has started any more once that has been asked to
stop. -/
theorem onward (h : WorkerBooks s)
    (hl : s.lifecycle = .running w ∨ s.lifecycle = .stopped ∧ Halting s w) (ev : Event) :
    (s.step ev).lifecycle = .running w
      ∨ (s.step ev).lifecycle = .stopped ∧ Halting (s.step ev) w := by
  have hsame : (s.step ev).lifecycle = s.lifecycle → (s.step ev).lifecycle = .running w
      ∨ (s.step ev).lifecycle = .stopped ∧ Halting (s.step ev) w := by
    intro he
    rw [he]
    exact hl.imp_right fun ⟨hs, hw⟩ => ⟨hs, h.halting_run hw [ev]⟩
  have hclosed : ev = .shutdown ∧ (s.step ev).lifecycle = .stopped →
      (s.step ev).lifecycle = .running w
        ∨ (s.step ev).lifecycle = .stopped ∧ Halting (s.step ev) w := by
    rintro ⟨rfl, hs⟩
    cases hd : s.dropped with
    | true => exact hsame (by rw [step_of_dropped hd rfl])
    | false =>
      refine Or.inr ⟨hs, ?_⟩
      rcases hl with hl | ⟨-, hw⟩
      · obtain ⟨k, hk⟩ := h.running hl
        exact halting_of_stop hk (Or.inr ⟨rfl, hd, hl⟩)
      · exact h.halting_run hw [.shutdown]
  rcases (step_workers h ev).lifecycle with hl' | ⟨hidle, -⟩ | hl'
  · exact hsame hl'
  · rw [hidle] at hl
    rcases hl with hl | ⟨hl, -⟩ <;> cases hl
  · exact hclosed hl'

theorem onward_run (h : WorkerBooks s)
    (hl : s.lifecycle = .running w ∨ s.lifecycle = .stopped ∧ Halting s w) (es : List Event) :
    (s.run es).lifecycle = .running w ∨ (s.run es).lifecycle = .stopped ∧ Halting (s.run es) w := by
  induction es generalizing s with
  | nil => exact hl
  | cons ev es ih => exact ih (h.step ev) (h.onward hl ev)

/-- Whoever shuts down an engine that knows its worker can rely on it. -/
theorem final_of_running (h : WorkerBooks s) (hd : s.dropped = false)
    (hl : s.lifecycle = .running w) : Final s w := by
  intro es o hr
  obtain ⟨k, hk⟩ := h.running hl
  exact ((h.step .shutdown).run es).gone (h.stop_run hk (Or.inr ⟨rfl, hd, hl⟩) es hr)

theorem final_of_dead (h : WorkerBooks s) (hw : Dead s w) : Final s w := fun es _ _ =>
  ((h.step .shutdown).run es).gone (h.dead_run hw (.shutdown :: es))

end WorkerBooks

/-- Whoever shuts down an engine that has been shut down is told so at once. -/
theorem dead_of_final (hd : s.dropped = false) (hl : s.lifecycle = .stopped) (h : Final s w) :
    Dead s w := by
  have hstep : s.step .shutdown
      = State.finish { s.enter .shutdown with lifecycle := .stopped } s.next .stopped := by
    have hl' : (s.enter .shutdown).lifecycle = .stopped := hl
    rw [step_shutdown hd, State.shutdown]
    simp only [hl']
  have hgone : Gone (s.step .shutdown) w := by
    refine h [] .stopped ?_
    rw [State.run, List.foldl_nil, hstep]
    exact List.mem_cons_self
  have hdead := hgone.dead
  rw [hstep] at hdead
  exact hdead

end

/-- **A shutdown is final exactly if it is the first, or the worker is at its end.**  Otherwise
whoever asks for it is told so at once, and the worker may go on asking; but it stores nothing. -/
theorem final_iff (settings : Settings) (checks : Bool) (es es' : List Event) {w : Id}
    (hl : ((State.initial settings checks).run es).lifecycle = .running w)
    (hd : ((State.initial settings checks).run (es ++ es')).dropped = false) :
    let s := (State.initial settings checks).run (es ++ es')
    (Final s w ↔ s.lifecycle = .running w ∨ Dead s w) ∧ StoresNoMore (s.step .shutdown) w := by
  intro s
  have hstart : WorkerBooks ((State.initial settings checks).run es) :=
    (WorkerBooks.initial settings checks).run es
  have hs : WorkerBooks s := (WorkerBooks.initial settings checks).run (es ++ es')
  have honward : s.lifecycle = .running w ∨ s.lifecycle = .stopped ∧ Halting s w := by
    have hrun := hstart.onward_run (Or.inl hl) es'
    rwa [← run_append] at hrun
  refine ⟨⟨fun h => honward.imp_right fun hstopped => dead_of_final hd hstopped.1 h, ?_⟩, ?_⟩
  · rintro (hrunning | hdead)
    · exact hs.final_of_running hd hrunning
    · exact hs.final_of_dead hdead
  · refine (hs.step .shutdown).storesNoMore ?_
    rcases honward with hrunning | ⟨-, hhalting⟩
    · obtain ⟨k, hk⟩ := hs.running hrunning
      exact halting_of_stop hk (Or.inr ⟨rfl, hd, hrunning⟩)
    · exact hs.halting_run hhalting [.shutdown]

/-- The engine is shut down in the middle of a pass, and again before the worker has run: the first
shutdown is final, and the second is not. -/
theorem final_iff_of_two :
    let settings : Settings := { authorization := true }
    let es : List Event := [.start true, .update ⟨.user, "alice"⟩,
      .answer 3 (.value (.ofList [])), .wake 1]
    let s := (State.initial settings true).run es
    let t := (State.initial settings true).run (es ++ [.shutdown])
    s.lifecycle = .running 1 ∧ s.dropped = false ∧ t.dropped = false
      ∧ Final s 1 ∧ ¬ Final t 1 ∧ StoresNoMore (t.step .shutdown) 1 := by
  intro settings es s t
  have hl : s.lifecycle = .running 1 := by decide
  have hd : ((State.initial settings true).run (es ++ [])).dropped = false := by decide
  have hd' : t.dropped = false := by decide
  have halive : t.workers.get? 1
      = some ⟨settings.refreshInterval, settings.refreshInterval.nanos, .refreshing 4, true⟩ := by
    decide
  have hfirst := final_iff settings true es [] hl hd
  have hsecond := final_iff settings true es [.shutdown] hl hd'
  refine ⟨hl, by decide, hd', hfirst.1.mpr (Or.inl hl), fun h => ?_, hsecond.2⟩
  rcases hsecond.1.mp h with hrunning | ⟨k, hk, hdead⟩
  · have hstopped : t.lifecycle = .stopped := by decide
    rw [hstopped] at hrunning
    cases hrunning
  · rw [halive, Option.some_inj] at hk
    rw [← hk] at hdead
    cases hdead

/-- Somebody is told that the refresh has stopped; but the worker is in the middle of its pass, and
asks for a list then. -/
theorem call_after_second_shutdown :
    let p : Principal := ⟨.user, "alice"⟩
    let s := (State.initial { authorization := true } true).run
      [.start true, .update p, .answer 3 (.value (.ofList [])), .wake 1, .shutdown]
    let t := s.step .shutdown
    .called s.next .shutdown ∈ t.journal ∧ .returned s.next .stopped ∈ t.journal
      ∧ (t.workers.get? 1).map Worker.phase = some (.refreshing 4)
      ∧ t.asked 4 p = 0 ∧ (t.step (.launch 4 p)).asked 4 p = 1 ∧ ¬ Final s 1 := by
  intro p s t
  have hphase : (t.workers.get? 1).map Worker.phase = some (.refreshing 4) := by decide
  refine ⟨by decide, by decide, hphase, by decide, by decide, fun h => ?_⟩
  obtain ⟨k, hk, hdead⟩ := (h [] .stopped (by decide)).dead
  have hk' : t.workers.get? 1 = some k := hk
  rw [hk', Option.map_some, Option.some_inj] at hphase
  rw [Worker.alive_of_refreshing hphase] at hdead
  cases hdead

end Gatekeeper.Engine

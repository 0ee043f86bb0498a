import Gatekeeper.Proofs.Roster

/-!
# The life of an engine

An engine that caches is not started, then runs, then is shut down, and there is no way back.  Its
refresh is started once; from the moment that somebody asks for the shutdown no pass is begun any
more but for a caller who runs one, and who has waited for the end of the worker knows that nothing
is left of the refresh.

* `Lifecycle.Onward` — the stages of an engine's life.
* `Halted` — once it is shut down, passes are begun by callers only.
* `Over`, `Roster.over` — nothing is left of the refresh once its worker has come to its end.
* `OneWay`, `one_way` — what is promised of the life of an engine.

The life of the engine and the life of its worker are two things that the program keeps in step:
the one comes up when the other starts, and is asked to stop when it ends.  That they stay in
step is what the roster says; here it is turned into what somebody outside can rely on.
-/

set_option autoImplicit false

namespace Gatekeeper.Engine

/-- Where an engine can stand in its life after it has stood at another point. -/
inductive Lifecycle.Onward : Lifecycle → Lifecycle → Prop
  | stay (l : Lifecycle) : Onward l l
  | start (w : Id) : Onward .idle (.running w)
  | halt (l : Lifecycle) : Onward l .stopped

/-- The engine has been shut down, or is gone. -/
def Halted (s : State) : Prop := s.lifecycle = .stopped ∨ s.dropped = true

/-- Nothing is left of the refresh: the worker has come to its end, and of the passes that have been
begun those of callers are the only ones that will ever ask or write anything. -/
structure Over (s : State) (w : Id) : Prop where
  dead : Dead s w
  still : ∀ v, s.wake v = s
  passes : ∀ n < s.next, (∃ pass c, s.passes.get? n = some pass ∧ pass.driver = .caller c)
    ∨ ∀ es, DoesNothing n s (s.run es)

section

variable {s t : State} {ev : Event} {w : Id}

/-! ## On the way to the end

There is no way back from being shut down, nor from being gone, whoever lays hands on workers.  So
what is so of an engine that has come so far stays so; what that is needs an engine that is left
alone. -/

theorem WorkerStep.onward (h : WorkerStep s ev t) : s.lifecycle.Onward t.lifecycle := by
  rcases h.lifecycle with hl | ⟨hi, w, hl⟩ | ⟨-, hl⟩
  · rw [hl]
    exact .stay _
  · rw [hi, hl]
    exact .start w
  · rw [hl]
    exact .halt _

namespace Halted

theorem step (h : Halted s) (hs : WorkerBooks s) (ev : Event) : Halted (s.step ev) := by
  have hstep := step_workers hs ev
  rcases h with hl | hd
  · have honward := hstep.onward
    rw [hl] at honward
    generalize hl' : (s.step ev).lifecycle = l at honward
    cases honward <;> exact Or.inl hl'
  · rcases hstep.dropped with hd' | ⟨-, hd'⟩
    · exact Or.inr (hd'.trans hd)
    · exact Or.inr hd'

theorem of_event (s : State) (hev : ev = .shutdown ∨ ev = .drop) : Halted (s.step ev) := by
  cases hd : s.dropped with
  | true =>
    have hasks : ev.asks = true := by rcases hev with rfl | rfl <;> rfl
    rw [step_of_dropped hd hasks]
    exact Or.inr hd
  | false =>
    rcases hev with rfl | rfl
    · rw [step_shutdown hd]
      exact Or.inl (shutdown_lifecycle s)
    · rw [step_drop hd]
      exact Or.inr (drop_dropped s)

/-- Once an engine has been shut down it stays so, and so it does once it is gone. -/
theorem run (hs : WorkerBooks s) {es : List Event}
    (h : Halted s ∨ .shutdown ∈ es ∨ .drop ∈ es) : Halted (s.run es) := by
  induction es generalizing s with
  | nil => exact h.resolve_right (by simp)
  | cons ev es ih =>
    rw [run_cons]
    refine ih (hs.step ev) ?_
    simp only [List.mem_cons] at h
    rcases h with h | (rfl | h) | rfl | h
    · exact Or.inl (h.step hs ev)
    · exact Or.inl (.of_event s (Or.inl rfl))
    · exact Or.inr (Or.inl h)
    · exact Or.inl (.of_event s (Or.inr rfl))
    · exact Or.inr (Or.inr h)

/-- **No pass is begun but by a caller who runs one.** -/
theorem iterate_of_started (h : Halted s) (hs : Roster s) {n : Id} {k : Nat}
    (hold : .passStarted n k ∉ s.journal) (hnew : .passStarted n k ∈ (s.step ev).journal) :
    ev = .iterate := by
  obtain ⟨d, u, ho, -⟩ := started_cases hs.books.orderly hold hnew
  rcases ho.driver with ⟨hev, -⟩ | ⟨w, k, -, -, hrest⟩
  · exact hev
  · exact absurd ⟨k, hrest⟩ (hs.halted h w)

end Halted

/-- An engine that nobody has shut down has not been. -/
theorem WorkerBooks.lifecycle_ne_stopped (h : WorkerBooks s) (hl : s.lifecycle ≠ .stopped)
    {es : List Event} (hno : .shutdown ∉ es) : (s.run es).lifecycle ≠ .stopped := by
  have hkept : WorkerBooks (s.run es) ∧ (s.run es).lifecycle ≠ .stopped := by
    refine run_keeps (P := fun t => WorkerBooks t ∧ t.lifecycle ≠ .stopped) ⟨h, hl⟩ ?_
    rintro ev hev t ⟨ht, hl⟩
    refine ⟨ht.step ev, ?_⟩
    rcases (step_workers ht ev).lifecycle with hl' | ⟨-, w, hl'⟩ | ⟨rfl, -⟩
    · rwa [hl']
    · rw [hl']
      simp
    · exact absurd hev hno
  exact hkept.2

/-! ## Starting the refresh

Before the shutdown everybody who starts the refresh is told that it has been started, and nobody
is after it. -/

/-- Whoever starts the refresh is turned away exactly if the engine has been shut down. -/
theorem Roster.start_outcome (h : Roster s) (hd : s.dropped = false) :
    .returned s.next (if s.lifecycle = .stopped then .failed (.configuration .shutDown)
      else .started) ∈ (s.step (.start true)).journal := by
  rw [step_start hd]
  cases hl : s.lifecycle with
  | idle =>
    rw [State.start_idle h.active h.periodic hl, if_neg (by simp)]
    exact List.mem_cons_self
  | running w =>
    rw [State.start_running h.active hl, if_neg (by simp)]
    exact List.mem_cons_self
  | stopped =>
    rw [State.start_stopped h.active hl, if_pos rfl]
    exact List.mem_cons_self

/-- Once the engine has been shut down no worker comes up. -/
theorem Halted.spawned (h : Halted s) (hs : Roster s) (hev : ev.hosted = true) :
    (s.step ev).spawned = s.spawned := by
  rcases spawned_step hs.books.orderly hev with hsame | ⟨-, hd, hl, -⟩
  · exact hsame
  · rcases h with h | h
    · rw [hl] at h
      cases h
    · rw [hd] at h
      cases h

/-! ## The end of the worker

With its only worker nothing is left of the refresh.  That whoever has shut down the engine finds it
like this when he is told so is known of all workers already (`WorkerBooks.stop_run`). -/

theorem State.called_shutdown (s : State) : .called s.next .shutdown ∈ s.shutdown.journal := by
  rw [shutdown]
  split
  · rw [stopWorker]
    split
    · simp [finish, note, enter]
    · split <;> simp [finish, note, enter, wait]
  · simp [finish, note, enter]

/-- Once the worker has come to its end nothing is left of the refresh. -/
theorem Roster.over (h : Roster s) (hw : Dead s w) : Over s w where
  dead := hw
  still v := by
    obtain ⟨k, hk, hdead⟩ := hw
    cases hv : s.workers.get? v with
    | none => rw [State.wake, hv]
    | some k' =>
      obtain rfl := h.single hv hk
      exact State.wake_of_dead ⟨k, hk, hdead⟩
  passes n hlt := by
    rcases (h.gone hw).passes n hlt with ⟨pass, hp, hne⟩ | huntold
    · cases hd : pass.driver with
      | caller c => exact Or.inl ⟨pass, c, hp, hd⟩
      | worker v =>
        obtain ⟨k, hk, -⟩ := hw
        obtain ⟨k', hk', -⟩ := h.refreshing ⟨pass, hp, hd⟩
        exact absurd (h.single hk' hk ▸ hd) hne
    · exact Or.inr huntold

/-! ## The promise

The stages of the life of an engine, its one worker, and what a shutdown comes to are put
together. -/

/-- What is promised of the life of an engine, as long as nobody else lays hands on its worker. -/
structure OneWay (s : State) : Prop where
  idle : s.lifecycle = .idle
  onward : ∀ es ev, (∀ ev' ∈ ev :: es, ev'.hosted = true) →
    (s.run es).lifecycle.Onward ((s.run es).step ev).lifecycle
  /-- One worker comes up at most, however often the refresh is started. -/
  single : ∀ es, (∀ ev ∈ es, ev.hosted = true) → (s.run es).spawned ≤ 1
  /-- Whoever starts the refresh is turned away exactly if the engine has been shut down. -/
  starts : ∀ es, (∀ ev ∈ es, ev.hosted = true) → (s.run es).dropped = false →
    .returned (s.run es).next (if .shutdown ∈ es then .failed (.configuration .shutDown)
      else .started) ∈ ((s.run es).step (.start true)).journal
  /-- Once somebody has asked for the shutdown, or the engine is gone, no worker comes up, and no
  pass is begun but by callers who run one. -/
  halts : ∀ es ev, (∀ ev' ∈ ev :: es, ev'.hosted = true) → .shutdown ∈ es ∨ .drop ∈ es →
    ((s.run es).step ev).spawned = (s.run es).spawned
      ∧ ∀ n k, .passStarted n k ∉ (s.run es).journal →
        .passStarted n k ∈ ((s.run es).step ev).journal → ev = .iterate
  /-- Once whoever has shut down the running engine is told anything, nothing is left of the
  refresh. -/
  exits : ∀ es w es', (∀ ev ∈ es ++ es', ev.hosted = true) → (s.run es).dropped = false →
    (s.run es).lifecycle = .running w →
    ∀ o, .returned (s.run es).next o ∈ (((s.run es).step .shutdown).run es').journal →
      ∀ es'', (∀ ev ∈ es'', ev.hosted = true) →
        Over ((((s.run es).step .shutdown).run es').run es'') w

/-- **The life of an engine goes one way.**  It is started once, if at all, with one worker; it is
shut down for good; from then on the refresh begins nothing, and once its worker has come to its end
nothing is left of it. -/
theorem one_way {settings : Settings} {checks : Bool} (hbuild : build settings checks = .ok s)
    (ha : settings.cachingActive = true) : OneWay s := by
  have hroster : Roster s := .initial hbuild ha
  obtain ⟨-, rfl⟩ := build_eq_ok_iff.mp hbuild
  refine ⟨rfl, fun es ev hes => ?_, fun es hes => ?_, fun es hes hd => ?_, fun es ev hes hend => ?_,
    fun es w es' hes hd hl o hr es'' hes'' => ?_⟩
  · have hrun := hroster.run fun ev' hev' => hes ev' (List.mem_cons_of_mem ev hev')
    exact (step_workers hrun.toWorkerBooks ev).onward
  · refine (hroster.run hes).spawned.trans ?_
    split <;> omega
  · have hrun := hroster.run hes
    have hiff : .shutdown ∈ es ↔ ((State.initial settings checks).run es).lifecycle = .stopped := by
      constructor
      · intro hm
        refine (Halted.run hroster.toWorkerBooks (Or.inr (Or.inl hm))).resolve_right ?_
        rw [hd]
        simp
      · intro hl
        by_contra hno
        exact hroster.lifecycle_ne_stopped (by simp [State.initial]) hno hl
    simp only [hiff]
    exact hrun.start_outcome hd
  · have hes' : ∀ ev' ∈ es, ev'.hosted = true := fun ev' hev' =>
      hes ev' (List.mem_cons_of_mem ev hev')
    have hrun := hroster.run hes'
    have hending := Halted.run hroster.toWorkerBooks (Or.inr hend)
    exact ⟨hending.spawned hrun (hes ev List.mem_cons_self),
      fun n k hold hnew => hending.iterate_of_started hrun hold hnew⟩
  · have hrun := hroster.run fun ev hev => hes ev (List.mem_append_left es' hev)
    have hes' : ∀ ev ∈ es', ev.hosted = true := fun ev hev => hes ev (List.mem_append_right es hev)
    have hclosed : Roster (((State.initial settings checks).run es).step .shutdown) := hrun.step rfl
    have hend := hclosed.run hes'
    have hcalled : .called ((State.initial settings checks).run es).next .shutdown
        ∈ ((((State.initial settings checks).run es).step .shutdown).run es').journal := by
      refine (hclosed.books.suffix_run es').subset ?_
      rw [step_shutdown hd]
      exact State.called_shutdown _
    obtain rfl : o = .stopped := by
      have hfits := hend.books.callers.fits hcalled hr
      cases o with
      | stopped => rfl
      | _ => exact hfits.elim
    obtain ⟨k, hk⟩ := hrun.running hl
    have hdead := hrun.stop_run hk (Or.inr ⟨rfl, hd, hl⟩) es' hr
    exact (hend.run hes'').over (hend.dead_run hdead es'')

end

/-- The refresh of an engine is started twice; the engine is shut down at a tick of its worker,
while a pass is under way, and can be started no more. -/
theorem one_way_of_defaults :
    let settings : Settings := { authorization := true }
    let s := State.initial settings true
    let es : List Event := [.start true, .start true, .update ⟨.user, "alice"⟩,
      .answer 4 (.value (.ofList [])), .wake 1, .elapse 1000000]
    let t := ((s.run es).step .shutdown).run [.wake 1]
    build settings true = .ok s ∧ settings.cachingActive = true ∧ OneWay s
      ∧ (∀ es', (∀ ev ∈ es', ev.hosted = true) → Over (t.run es') 1)
      ∧ .returned t.next (.failed (.configuration .shutDown))
        ∈ (t.step (.start true)).journal := by
  intro settings s es t
  have hbuild : build settings true = .ok s := build_eq_ok_iff.mpr ⟨rfl, rfl⟩
  have honeway : OneWay s := one_way hbuild rfl
  exact ⟨hbuild, rfl, honeway, honeway.exits es 1 [.wake 1] (by decide) (by decide) (by decide)
    .stopped (by decide), by decide⟩

end Gatekeeper.Engine

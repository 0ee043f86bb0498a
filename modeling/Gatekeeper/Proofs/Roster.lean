import Gatekeeper.Proofs.Halt

/-!
# The worker of an engine

An engine has one worker at most, which comes up when the refresh is started for the first time and
never comes back once it has been asked to stop.  As long as nobody lays hands on workers of his
own, it is the only one there is.  What a step does to workers at large is known from
`step_workers`; here it is read for an engine that is left alone.

* `Event.hosted` — nobody but the engine starts or stops workers.
* `Roster`, `Roster.run` — the engine's worker is the only one, and does not work once the engine
  has been shut down or is gone.
* `spawned_step` — how many workers come up.

That there is one worker is not a matter of what workers do, but of who starts them: only the
first start of the refresh has one come up, and where the engine stands in its life says whether
that has been.
-/

set_option autoImplicit false

namespace Gatekeeper.Engine

/-- The event leaves the workers to the engine: nobody starts, stops or releases one of his own, and
whoever starts the refresh does so where there is a scheduler for it. -/
def Event.hosted : Event → Bool
  | .spawn _ | .stop _ | .release _ | .start false => false
  | _ => true

/-- The note says that a worker has come up. -/
def Note.spawns : Note → Bool
  | .syncSpawned _ => true
  | _ => false

/-- How many workers have come up. -/
def State.spawned (s : State) : Nat := s.journal.countP Note.spawns

/-- What is so of an engine whose workers nobody else lays hands on: its worker is the only one, and
does not work once the engine has been shut down or is gone. -/
structure Roster (s : State) : Prop extends WorkerBooks s where
  single : ∀ {w w' k k'}, s.workers.get? w = some k → s.workers.get? w' = some k' → w = w'
  idle : s.lifecycle = .idle → ∀ w, s.workers.get? w = none
  halted : s.lifecycle = .stopped ∨ s.dropped = true → ∀ w, ¬ s.Working w
  active : s.settings.cachingActive = true
  periodic : s.settings.refreshInterval.isZero = false
  spawned : s.spawned ≤ if s.lifecycle = .idle then 0 else 1

section

variable {s t u : State} {ev : Event} {w : Id} {k k' : Worker}

/-! ## Starting the refresh

Whoever starts the refresh of an engine that caches is answered by where the engine stands in its
life, and only the first start has a worker come up. -/

namespace State

variable (ha : s.settings.cachingActive = true)

include ha

theorem start_running (hl : s.lifecycle = .running w) (scheduler : Bool) :
    s.start scheduler = (s.enter .start).finish s.next .started := by
  have hauth : s.settings.authorization = true := (Bool.and_eq_true_iff.mp ha).1
  have hl' : (s.enter .start).lifecycle = .running w := hl
  have ha' : (s.enter .start).settings.cachingActive = true := ha
  simp [start_eq, startFor, hauth, ha', hl']

theorem start_stopped (hl : s.lifecycle = .stopped) (scheduler : Bool) :
    s.start scheduler = (s.enter .start).finish s.next (.failed (.configuration .shutDown)) := by
  have hauth : s.settings.authorization = true := (Bool.and_eq_true_iff.mp ha).1
  have hl' : (s.enter .start).lifecycle = .stopped := hl
  have ha' : (s.enter .start).settings.cachingActive = true := ha
  simp [start_eq, startFor, hauth, ha', hl']

/-- The refresh is started for the first time. -/
theorem start_idle (hz : s.settings.refreshInterval.isZero = false) (hl : s.lifecycle = .idle) :
    s.start true = State.finish
      { ((s.enter .start).note (.syncStarting s.settings.refreshInterval)).addWorker
          s.settings.refreshInterval with lifecycle := .running (s.next + 1) }
      s.next .started := by
  have hauth : s.settings.authorization = true := (Bool.and_eq_true_iff.mp ha).1
  have hl' : (s.enter .start).lifecycle = .idle := hl
  have ha' : (s.enter .start).settings.cachingActive = true := ha
  have hs : ∀ n, ((s.enter .start).note n).settings = s.settings := fun n => rfl
  simp only [start_eq, startFor, hauth, ha', hl', hs, hz, Bool.not_true, Bool.false_and,
    Bool.false_eq_true, if_false]
  rfl

end State

/-- Whoever starts the refresh for the first time has the worker of the engine come up. -/
theorem Roster.start_first (h : Roster s) (hl : s.lifecycle = .idle) :
    (s.start true).lifecycle = .running (s.next + 1)
      ∧ (s.start true).workers
        = s.workers.put (s.next + 1) ⟨s.settings.refreshInterval, 0, .fresh, false⟩ := by
  rw [State.start_idle h.active h.periodic hl]
  exact ⟨rfl, rfl⟩

/-! ## What a step leaves of the only worker

An engine that is left alone has a worker come up only where there is none.  And it is shut down or
dropped either with no worker, or with one that it asks to stop or lets go of in the same step; so
none is at work after that. -/

/-- What happens to a worker has it at work only if it was. -/
theorem Fate.working (h : Fate s ev w k k') (hs : k'.stopping = false) (ha : k'.alive = true) :
    k.stopping = false ∧ k.alive = true :=
  ⟨Bool.eq_false_iff.mpr fun hk => by simp [h.stopping hk] at hs, h.alive ha⟩

namespace Roster

variable (h : Roster s) (hev : ev.hosted = true)

include h hev

/-- A worker that is there was there before, or is the first and the only one. -/
theorem origin (hw : (s.step ev).workers.get? w = some k') :
    (∃ k, s.workers.get? w = some k ∧ Fate s ev w k k')
      ∨ s.lifecycle = .idle ∧ (s.step ev).lifecycle = .running w ∧ (s.step ev).dropped = false := by
  refine ((step_workers h.toWorkerBooks ev).origin hw).imp_right fun ⟨_, _, hl⟩ => ?_
  refine hl.resolve_left fun hspawn => ?_
  rw [hspawn] at hev
  cases hev

theorem single_step {w' : Id} (hw : (s.step ev).workers.get? w = some k)
    (hw' : (s.step ev).workers.get? w' = some k') : w = w' := by
  have hnone : ∀ {v k₀}, s.lifecycle = .idle → s.workers.get? v ≠ some k₀ := by
    intro v k₀ hl hv
    rw [h.idle hl v] at hv
    cases hv
  rcases h.origin hev hw with ⟨k₁, hk₁, -⟩ | ⟨hl, hrun, -⟩ <;>
    rcases h.origin hev hw' with ⟨k₂, hk₂, -⟩ | ⟨hl', hrun', -⟩
  · exact h.single hk₁ hk₂
  · exact absurd hk₁ (hnone hl')
  · exact absurd hk₂ (hnone hl)
  · rw [hrun] at hrun'
    injection hrun'

theorem idle_step (hl : (s.step ev).lifecycle = .idle) (w : Id) :
    (s.step ev).workers.get? w = none := by
  refine Option.eq_none_iff_forall_ne_some.mpr fun k hk => ?_
  rcases h.origin hev hk with ⟨k₀, hk₀, -⟩ | ⟨-, hrun, -⟩
  · have hidle : s.lifecycle = .idle := by
      rcases (step_workers h.toWorkerBooks ev).lifecycle with
        hsame | ⟨-, v, hrun⟩ | ⟨-, hstopped⟩
      · exact hsame ▸ hl
      · rw [hl] at hrun
        cases hrun
      · rw [hl] at hstopped
        cases hstopped
    rw [h.idle hidle w] at hk₀
    cases hk₀
  · rw [hl] at hrun
    cases hrun

theorem halted_step (hh : (s.step ev).lifecycle = .stopped ∨ (s.step ev).dropped = true)
    (w : Id) : ¬ (s.step ev).Working w := by
  rintro ⟨k, hk, hstopping, halive⟩
  have hnot : ¬ Halting (s.step ev) w := by
    rintro ⟨k', hk', hend⟩
    rw [hk, Option.some_inj] at hk'
    rcases hend with hend | hend <;> simp_all
  rcases h.origin hev hk with ⟨k₀, hk₀, hf⟩ | ⟨-, hrun, hthere⟩
  · by_cases hs : s.lifecycle = .stopped ∨ s.dropped = true
    · exact h.halted hs w ⟨k₀, hk₀, hf.working hstopping halive⟩
    -- the worker was that of the engine, which has stopped it or let go of it in this step
    rw [not_or, Bool.not_eq_true] at hs
    have hl : s.lifecycle = .running w := by
      cases hl : s.lifecycle with
      | idle =>
        rw [h.idle hl w] at hk₀
        cases hk₀
      | running v =>
        obtain ⟨k₁, hk₁⟩ := h.running hl
        rw [h.single hk₁ hk₀]
      | stopped => exact absurd hl hs.1
    rcases hh with hstopped | hdropped
    · rcases (step_workers h.toWorkerBooks ev).lifecycle with hsame | ⟨hidle, -⟩ | ⟨rfl, -⟩
      · rw [hstopped, hl] at hsame
        cases hsame
      · rw [hl] at hidle
        cases hidle
      · exact hnot (halting_of_stop hk₀ (Or.inr ⟨rfl, hs.2, hl⟩))
    · rcases (step_workers h.toWorkerBooks ev).dropped with hsame | ⟨rfl, -⟩
      · rw [hdropped, hs.2] at hsame
        cases hsame
      · exact hnot (.of_dead (dead_of_releases hk₀ (Or.inr ⟨rfl, hs.2, hl⟩)))
  · rw [hrun, hthere] at hh
    simp at hh

end Roster

/-! ## How many workers come up

Every worker that comes up leaves a mark, and marks are counted. -/

theorem State.spawned_eq (s : State) : s.spawned = s.marks.countP Note.spawns := by
  rw [marks, spawned, List.countP_filter]
  refine List.countP_congr fun m _ => ?_
  cases m <;> simp [Note.spawns, Note.mark]

/-- A worker comes up only when the refresh is started for the first time. -/
theorem spawned_step (h : Orderly s) (hev : ev.hosted = true) :
    (s.step ev).spawned = s.spawned
      ∨ ev = .start true ∧ s.dropped = false ∧ s.lifecycle = .idle
        ∧ (s.step ev).spawned = s.spawned + 1 := by
  rw [State.spawned_eq, State.spawned_eq]
  rcases step_marks h ev with hm | ⟨d, u, ho⟩ | ⟨n, pass, l, hc⟩ | ⟨w, hw⟩
  · exact Or.inl (by rw [hm])
  · left
    rw [ho.begins, ← ho.marks]
    cases ha : u.settings.cachingActive with
    | false => rw [State.marks_beginPass_idle ha]
    | true =>
      rcases State.marks_beginPass ha d with hm | ⟨-, hm⟩ <;> simp [hm, Note.spawns]
  · exact Or.inl (by simp [hc.marks, Note.spawns])
  · rcases hw.event with ⟨period, rfl⟩ | ⟨rfl, hd, hl⟩
    · cases hev
    · exact Or.inr ⟨rfl, hd, hl, by rw [hw.marks, List.countP_cons_of_pos rfl]⟩

/-! ## Every run

A new engine has no worker at all, and each step of an engine that is left alone keeps the
roster. -/

namespace Roster

/-- A new engine has no worker, and its settings have one come up with a period that is not zero. -/
theorem of_periodic {settings : Settings} (checks : Bool) (ha : settings.cachingActive = true)
    (hz : settings.refreshInterval.isZero = false) : Roster (.initial settings checks) := by
  have hbooks := WorkerBooks.initial settings checks
  exact { hbooks with
    single := by rintro w w' k k' ⟨⟩
    idle := fun _ _ => rfl
    halted := by rintro - w ⟨k, ⟨⟩, -⟩
    active := ha
    periodic := hz
    spawned := Nat.le_refl 0 }

theorem initial {settings : Settings} {checks : Bool} (hbuild : build settings checks = .ok s)
    (ha : settings.cachingActive = true) : Roster s := by
  obtain ⟨hz, rfl⟩ := build_eq_ok_iff.mp hbuild
  refine of_periodic checks ha ?_
  rw [← Bool.not_eq_true]
  intro hzero
  simp [Settings.check, Settings.zeroKey?, hzero] at hz

theorem step (h : Roster s) (hev : ev.hosted = true) : Roster (s.step ev) := by
  have hsettings : (s.step ev).settings = s.settings := h.books.orderly.settings_run [ev]
  exact {
    h.toWorkerBooks.step ev with
    single := h.single_step hev
    idle := h.idle_step hev
    halted := h.halted_step hev
    active := hsettings ▸ h.active
    periodic := hsettings ▸ h.periodic
    spawned := by
      have hle := h.spawned
      rcases spawned_step h.books.orderly hev with hsame | ⟨rfl, hd, hl, hmore⟩
      · rw [hsame]
        rcases (step_workers h.toWorkerBooks ev).lifecycle with
          hl | ⟨hidle, w, hl⟩ | ⟨-, hl⟩
        · rw [hl]
          exact hle
        · simp_all
        · rw [hl, if_neg (by simp)]
          exact hle.trans (by split <;> omega)
      · rw [hl, if_pos rfl] at hle
        rw [step_start hd, (h.start_first hl).1, if_neg (by simp), ← step_start hd, hmore]
        omega }

theorem run (h : Roster s) {es : List Event} (hes : ∀ ev ∈ es, ev.hosted = true) :
    Roster (s.run es) :=
  run_keeps h fun ev hev _ ht => ht.step (hes ev hev)

end Roster

end

end Gatekeeper.Engine

import Gatekeeper.Proofs.Clock
import Gatekeeper.Proofs.Halt
import Gatekeeper.Proofs.Rest

/-!
# How often a worker begins a pass

A worker looks at its clock only between two passes.  What it goes by is the tick that is due next:
a pass is not begun before it, and when it is begun the tick after it is put a period later, from
the time of the tick or, if that is long past, from now.  So two passes are never begun much less
than a period apart, however long the first of them takes, and ticks that have been slept through
are gone.

* `State.begins`, `State.starts` — when a worker begins a pass.
* `DueFrom` — no tick of a worker is due before some moment; `DueFrom.le_starts` says how far its
  passes are put off by that.
* `starts_apart` — passes that are begun one after the other are as many periods apart, but for the
  lateness of the first.
* `WorkerBooks.driven_run` — what becomes of the pass that a worker is in the middle of.
* `Periodic` and `passes_keep_apart` — what is so of a worker from the moment when it comes up.

A worker is followed through a run by the tick that is due next, which only moves when a pass
begins.  So the distance between two passes is bounded by comparing ticks, and nothing has to be
known of what the passes do or how long they take.
-/

set_option autoImplicit false

namespace Gatekeeper.Engine

namespace State

/-- The worker begins a pass with the event. -/
def begins (s : State) (w : Id) (ev : Event) : Bool :=
  decide (ev = .wake w) && (s.workers.get? w).any (·.ticks s.nowNanos)

/-- The times, in nanoseconds, at which the worker begins a pass while the events happen. -/
def starts (s : State) (w : Id) : List Event → List Nat
  | [] => []
  | ev :: es =>
    if s.begins w ev then s.nowNanos :: (s.step ev).starts w es else (s.step ev).starts w es

/-- Time does not go on before everything that can run has run. -/
def Unhurried (s : State) : List Event → Prop
  | [] => True
  | ev :: es => (∀ millis, ev = .elapse millis → s.AtRest) ∧ (s.step ev).Unhurried es

end State

/-- The worker has run, it has a tick every `period` nanoseconds, and none is due before `due`. -/
def DueFrom (s : State) (w : Id) (period due : Nat) : Prop :=
  ∃ k, s.workers.get? w = some k ∧ k.period.nanos = period ∧ k.phase ≠ .fresh ∧ due ≤ k.due

/-- The worker has not run since it came up, and has a tick every `period` nanoseconds. -/
def Unpolled (s : State) (w : Id) (period : Nat) : Prop :=
  ∃ k, s.workers.get? w = some k ∧ k.period.nanos = period ∧ k.phase = .fresh

section

variable {s t u : State} {ev : Event} {n w : Id} {k k' : Worker} {now period due x y : Nat}

/-! ## The next tick

Ticks are counted in nanoseconds, and a tick counts as late only if it is missed by more than a
fixed time.  A tick that is not late is followed by one that is a period after it; a late one by
one that is a period from now. -/

namespace Worker

theorem due_le_of_ticks (h : k.ticks now = true) (hp : k.phase ≠ .fresh) : k.due ≤ now := by
  rcases phase_of_ticks h with hfresh | hidle
  · exact absurd hfresh hp
  · rw [ticks, hidle, Bool.and_eq_true, decide_eq_true_iff] at h
    exact h.2

/-- The next tick is one period from now, but for the time for which a tick is not late. -/
theorem now_add_period_le (k : Worker) (now : Nat) :
    now + k.period.nanos ≤ k.next now + State.lateness := by
  rw [next]
  split <;> omega

theorem due_add_period_le (h : k.ticks now = true) (hp : k.phase ≠ .fresh) :
    k.due + k.period.nanos ≤ k.next now := by
  have hdue := due_le_of_ticks h hp
  have htick : k.tick now = k.due := by
    rw [tick]
    split
    · rename_i hfresh
      exact absurd hfresh hp
    · rfl
  rw [next, htick]
  split <;> omega

/-- After a late tick the next is one period from now. -/
theorem next_of_late (h : k.tick now + State.lateness < now) :
    k.next now = now + k.period.nanos := by
  rw [next, if_pos h]

end Worker

/-! ## The beginning of a pass

To begin a pass is to take a tick, so the worker is idle and the tick is due.  `DueFrom` carries
from one pass to the next that no tick is due before a certain moment, and the distance between
passes follows by induction on the run. -/

theorem State.begins_iff : s.begins w ev = true ↔
    ev = .wake w ∧ ∃ k, s.workers.get? w = some k ∧ k.ticks s.nowNanos = true := by
  rw [begins, Bool.and_eq_true, decide_eq_true_iff, Option.any_eq_true]

/-- What becomes of a worker that begins a pass. -/
theorem State.worker_of_begins (h : s.begins w ev = true) : ∃ k phase,
    s.workers.get? w = some k ∧ k.ticks s.nowNanos = true ∧ phase ≠ .fresh
      ∧ (s.step ev).workers.get? w = some { k.ticked s.nowNanos with phase } := by
  obtain ⟨rfl, k, hk, hticks⟩ := begins_iff.mp h
  obtain ⟨phase, hb⟩ := beginPass_worker
    { s with workers := s.workers.put w (k.ticked s.nowNanos) } w
  refine ⟨k, phase, hk, hticks, ?_, ?_⟩
  · rintro rfl
    rcases hb.phase with h | ⟨h, -⟩ | h <;> cases h
  · rw [step, wake_of_ticks hk hticks, hb.workers, Table.get?_put_update, if_pos rfl]

/-- A worker that begins a pass with an event is woken by it, and neither stopped nor let go of. -/
theorem Fate.of_not_begins (h : Fate s ev w k k') (hk : s.workers.get? w = some k)
    (hb : s.begins w ev = false) : k'.due = k.due ∧ (k.phase ≠ .fresh → k'.phase ≠ .fresh) := by
  cases h with
  | stays | asked => exact ⟨rfl, id⟩
  | ends | rests => exact ⟨rfl, fun _ => by simp⟩
  | ticks hev hticks =>
    rw [State.begins_iff.mpr ⟨hev, k, hk, hticks⟩] at hb
    cases hb

namespace DueFrom

/-- **A worker that begins a pass has reached the tick that is due**, and the next one is a period
away from it. -/
theorem step_of_begins (h : DueFrom s w period due) (hb : s.begins w ev = true) :
    due ≤ s.nowNanos ∧ DueFrom (s.step ev) w period (due + period) := by
  obtain ⟨k, hk, rfl, hp, hdue⟩ := h
  obtain ⟨k', phase, hk', hticks, hphase, hafter⟩ := State.worker_of_begins hb
  rw [hk, Option.some_inj] at hk'
  subst hk'
  refine ⟨Nat.le_trans hdue (Worker.due_le_of_ticks hticks hp), _, hafter, rfl, hphase, ?_⟩
  exact Nat.le_trans (Nat.add_le_add_right hdue _) (Worker.due_add_period_le hticks hp)

theorem step (h : DueFrom s w period due) (hm : WorkerBooks s) (ev : Event) :
    DueFrom (s.step ev) w period due := by
  cases hb : s.begins w ev with
  | true =>
    obtain ⟨k, hk, hperiod, hp, hdue⟩ := (h.step_of_begins hb).2
    exact ⟨k, hk, hperiod, hp, Nat.le_trans (Nat.le_add_right ..) hdue⟩
  | false =>
    obtain ⟨k, hk, hperiod, hp, hdue⟩ := h
    obtain ⟨k', hk', hf⟩ := hm.fate hk ev
    have hkept := hf.of_not_begins hk hb
    exact ⟨k', hk', hf.period ▸ hperiod, hkept.2 hp, hkept.1 ▸ hdue⟩

/-- **Passes are put off by the tick that is due next**, each by a period more than the one before.
-/
theorem le_starts (h : DueFrom s w period due) (hm : WorkerBooks s) (es : List Event) {j : Nat}
    (hx : (s.starts w es)[j]? = some x) : due + j * period ≤ x := by
  induction es generalizing s due j with
  | nil => cases hx
  | cons ev es ih =>
    rw [State.starts] at hx
    cases hb : s.begins w ev with
    | false =>
      rw [hb] at hx
      exact ih (h.step hm ev) (hm.step ev) hx
    | true =>
      obtain ⟨hnow, hnext⟩ := h.step_of_begins hb
      rw [hb, if_pos rfl] at hx
      cases j with
      | zero =>
        rw [List.getElem?_cons_zero, Option.some_inj] at hx
        omega
      | succ j =>
        rw [List.getElem?_cons_succ] at hx
        have hlater := ih hnext (hm.step ev) hx
        rw [Nat.succ_mul]
        omega

end DueFrom

/-- A worker that begins a pass begins the next one a period later, but for the time for which a
tick is not late. -/
theorem dueFrom_of_begins (hk : s.workers.get? w = some k) (hb : s.begins w ev = true) :
    DueFrom (s.step ev) w k.period.nanos (k.next s.nowNanos) := by
  obtain ⟨k', phase, hk', -, hphase, hafter⟩ := State.worker_of_begins hb
  rw [hk, Option.some_inj] at hk'
  subst hk'
  exact ⟨_, hafter, rfl, hphase, Nat.le_refl _⟩

/-- **Passes are as many periods apart as there are passes between them**, but for the time for
which a tick is not late. -/
theorem starts_apart (hm : WorkerBooks s) (hk : s.workers.get? w = some k) (es : List Event)
    {i m : Nat}
    (hx : (s.starts w es)[i]? = some x) (hy : (s.starts w es)[i + m]? = some y) :
    x + m * k.period.nanos ≤ y + State.lateness := by
  induction es generalizing s k i with
  | nil => cases hx
  | cons ev es ih =>
    obtain ⟨k', hk', hf⟩ := hm.fate hk ev
    rw [State.starts] at hx hy
    cases hb : s.begins w ev with
    | false =>
      rw [hb] at hx hy
      exact hf.period ▸ ih (hm.step ev) hk' hx hy
    | true =>
      rw [hb, if_pos rfl] at hx hy
      cases i with
      | succ i =>
        rw [List.getElem?_cons_succ] at hx
        rw [Nat.succ_add, List.getElem?_cons_succ] at hy
        exact hf.period ▸ ih (hm.step ev) hk' hx hy
      | zero =>
        rw [List.getElem?_cons_zero, Option.some_inj] at hx
        subst hx
        cases m with
        | zero =>
          rw [List.getElem?_cons_zero, Option.some_inj] at hy
          omega
        | succ m =>
          rw [Nat.zero_add, List.getElem?_cons_succ] at hy
          have hnext := k.now_add_period_le s.nowNanos
          have hlater := (dueFrom_of_begins hk hb).le_starts (hm.step ev) es hy
          rw [Nat.succ_mul]
          omega

/-- A worker that has been asked to stop begins no pass any more. -/
theorem Halting.starts (h : Halting s w) (hm : WorkerBooks s) (es : List Event) :
    s.starts w es = [] := by
  induction es generalizing s with
  | nil => rfl
  | cons ev es ih =>
    have hb : s.begins w ev = false := by
      refine Bool.eq_false_iff.mpr fun hb => ?_
      obtain ⟨-, k, hk, hticks⟩ := State.begins_iff.mp hb
      rw [h.not_ticks hk] at hticks
      cases hticks
    rw [State.starts, hb]
    exact ih (hm.halting_run h [ev]) (hm.step ev)

/-! ## The first pass

A worker that has come up is due at once.  Where time does not go on before everything that can
run has run, that is the moment at which it came up. -/

/-- A worker that has not run is not at rest. -/
theorem Unpolled.not_atRest (h : Unpolled s w period) : ¬ s.AtRest := by
  intro hrest
  obtain ⟨k, hk, -, hp⟩ := h
  have hwake : s.step (.wake w) = s := hrest (.wake w) rfl
  cases hs : k.stopping with
  | true =>
    have hhalting : Halting s w := ⟨k, hk, Or.inl hs⟩
    obtain ⟨k', hk', hdead⟩ := hhalting.wake
    have hwake' : s.wake w = s := hwake
    rw [hwake', hk, Option.some_inj] at hk'
    rw [← hk', Worker.alive, hp] at hdead
    cases hdead
  | false =>
    have hticks : k.ticks s.nowNanos = true := by simp [Worker.ticks, hp, hs]
    obtain ⟨k', phase, hk', -, hphase, hafter⟩ :=
      State.worker_of_begins (State.begins_iff.mpr ⟨rfl, k, hk, hticks⟩)
    rw [hwake, hk, Option.some_inj] at hafter
    rw [hafter] at hp
    exact hphase hp

/-- **The first pass begins when the worker first runs**, unless somebody has asked the worker to
stop or let go of it by then. -/
theorem WorkerBooks.first_poll (hm : WorkerBooks s) (hk : s.workers.get? w = some k)
    (hp : k.phase = .fresh) (hs : k.stopping = false) {es : List Event} (hes : .wake w ∉ es) :
    (s.run es).begins w (.wake w) = true ∨ ∃ es₁ ev es₂, es = es₁ ++ ev :: es₂
      ∧ (Stops (s.run es₁) w ev ∨ Releases (s.run es₁) w ev) := by
  induction es generalizing s with
  | nil =>
    refine Or.inl (State.begins_iff.mpr ⟨rfl, k, hk, ?_⟩)
    simp [Worker.ticks, hp, hs]
  | cons ev es ih =>
    rw [List.mem_cons, not_or] at hes
    obtain ⟨k', hk', hf⟩ := hm.fate hk ev
    cases hf with
    | stays =>
      rcases ih (hm.step ev) hk' hes.2 with hbegins | ⟨es₁, ev', es₂, rfl, hstopped⟩
      · exact Or.inl hbegins
      · exact Or.inr ⟨ev :: es₁, ev', es₂, rfl, hstopped⟩
    | asked hev => exact Or.inr ⟨[], ev, es, rfl, Or.inl hev⟩
    | ends hev =>
      rcases hev with ⟨rfl, -⟩ | hev
      · exact absurd rfl hes.1
      · exact Or.inr ⟨[], ev, es, rfl, Or.inr hev⟩
    | ticks hev => exact absurd hev.symm hes.1
    | rests _ hrefreshing =>
      rw [hp] at hrefreshing
      cases hrefreshing

/-- **The first pass begins at the time at which the worker comes up**, where time does not go on
before everything that can run has run. -/
theorem Unpolled.starts_head (h : Unpolled s w period) (hm : WorkerBooks s) {es : List Event}
    (hes : s.Unhurried es) (hx : (s.starts w es).head? = some x) : x = s.nowNanos := by
  induction es generalizing s with
  | nil => cases hx
  | cons ev es ih =>
    rw [State.starts] at hx
    cases hb : s.begins w ev with
    | true =>
      rw [hb, if_pos rfl, List.head?_cons, Option.some_inj] at hx
      exact hx.symm
    | false =>
      rw [hb] at hx
      have hnow : (s.step ev).nowNanos = s.nowNanos := by
        rw [State.nowNanos, step_now s fun millis he => h.not_atRest (hes.1 millis he)]
        rfl
      have hover : Halting (s.step ev) w → x = s.nowNanos := by
        intro hhalting
        have hnone := hhalting.starts (hm.step ev) es
        rw [if_neg Bool.false_ne_true, hnone] at hx
        cases hx
      obtain ⟨k, hk, hperiod, hp⟩ := h
      obtain ⟨k', hk', hf⟩ := hm.fate hk ev
      cases hf with
      | stays => exact hnow ▸ ih ⟨k, hk', hperiod, hp⟩ (hm.step ev) hes.2 hx
      | asked => exact hover ⟨_, hk', Or.inl rfl⟩
      | ends => exact hover ⟨_, hk', Or.inr rfl⟩
      | ticks hev hticks =>
        rw [State.begins_iff.mpr ⟨hev, k, hk, hticks⟩] at hb
        cases hb
      | rests _ hrefreshing =>
        rw [hp] at hrefreshing
        cases hrefreshing

/-! ## One pass at a time

A worker that is in the middle of a pass takes no tick.  So what it has begun before has come to
its end when it begins the next pass. -/

/-- A worker that is there stays there, with its period. -/
theorem WorkerBooks.worker_run (hm : WorkerBooks s) (hk : s.workers.get? w = some k)
    (es : List Event) :
    ∃ k', (s.run es).workers.get? w = some k' ∧ k'.period = k.period := by
  induction es generalizing s k with
  | nil => exact ⟨k, hk, rfl⟩
  | cons ev es ih =>
    obtain ⟨k', hk', hf⟩ := hm.fate hk ev
    obtain ⟨k'', hk'', hperiod⟩ := ih (hm.step ev) hk'
    exact ⟨k'', hk'', hperiod.trans hf.period⟩

/-- A worker that begins a pass is in the middle of none. -/
theorem WorkerBooks.idle_of_begins (hm : WorkerBooks s) (hb : s.begins w ev = true) (n : Id) :
    ¬ s.Driven w n := by
  intro hd
  obtain ⟨-, k, hk, hticks⟩ := State.begins_iff.mp hb
  have hphase := (hm.refreshing hd).phase hk
  rcases Worker.phase_of_ticks hticks with hp | hp <;>
  · rw [hp] at hphase
    cases hphase

/-- A worker comes to be in the middle of a pass only by beginning it. -/
theorem WorkerBooks.begins_of_driven (hm : WorkerBooks s) (hw : s.workers.get? w = some k)
    (hd : (s.step ev).Driven w n) : s.Driven w n ∨ s.begins w ev = true := by
  obtain ⟨k', hk', hf⟩ := hm.fate hw ev
  have hphase := ((hm.step ev).refreshing hd).phase hk'
  have hkept : k.phase = .refreshing n → s.Driven w n := fun hp =>
    (hm.staffed w n).mpr ⟨k, hw, hp⟩
  cases hf with
  | stays | asked => exact Or.inl (hkept hphase)
  | ends | rests => cases hphase
  | ticks hev hticks => exact Or.inr (State.begins_iff.mpr ⟨hev, k, hw, hticks⟩)

/-- **A worker goes on with its pass until the end of it**, unless it is stopped. -/
theorem WorkerBooks.driven_run (hm : WorkerBooks s) (hd : s.Driven w n) (es : List Event) :
    (s.run es).Driven w n ∨ (∃ r, .passFinished n r ∈ (s.run es).journal)
      ∨ Halting (s.run es) w := by
  induction es generalizing s with
  | nil => exact Or.inl hd
  | cons ev es ih =>
    rcases hm.driven_step hd ev with hd' | ⟨r, hr⟩ | hstopped
    · exact ih (hm.step ev) hd'
    · exact Or.inr (Or.inl ⟨r, ((hm.step ev).books.suffix_run es).subset hr⟩)
    · obtain ⟨k, hk, -⟩ := hm.refreshing hd
      obtain ⟨k', hk', -⟩ := hm.fate hk ev
      refine Or.inr (Or.inr ((hm.step ev).halting_run ⟨k', hk', ?_⟩ es))
      by_contra hnot
      rw [not_or] at hnot
      exact hstopped ⟨k', hk', by simpa using hnot.1, by simpa using hnot.2⟩

/-- **A worker begins a pass only when all that it has begun before have come to their end.** -/
theorem WorkerBooks.finished_of_begins (hm : WorkerBooks s) (hd : s.Driven w n) {es : List Event}
    (hb : (s.run es).begins w ev = true) : ∃ r, .passFinished n r ∈ (s.run es).journal := by
  rcases hm.driven_run hd es with hdriven | hfinished | hhalting
  · exact absurd hdriven ((hm.run es).idle_of_begins hb n)
  · exact hfinished
  · obtain ⟨-, k, hk, hticks⟩ := State.begins_iff.mp hb
    rw [hhalting.not_ticks hk] at hticks
    cases hticks

/-- The beginning of a pass is noted. -/
theorem State.started_of_begins (ha : s.settings.cachingActive = true)
    (hb : s.begins w ev = true) : .passStarted s.next s.cache.size ∈ (s.step ev).journal := by
  obtain ⟨rfl, k, hk, hticks⟩ := begins_iff.mp hb
  rw [step, wake_of_ticks hk hticks]
  refine (mem_marks_iff (n := .passStarted s.next s.cache.size)).mp ?_ |>.1
  rcases marks_beginPass (s := { s with workers := s.workers.put w (k.ticked s.nowNanos) }) ha
    (.worker w) with hm | ⟨-, hm⟩
  · rw [hm]
    exact List.mem_cons_self
  · rw [hm]
    exact List.mem_cons_of_mem _ List.mem_cons_self

/-! ## From the moment when it comes up

All this is put together for a worker that has just come up, whether an engine has started it for
itself or somebody runs it on his own. -/

/-- A worker that comes up has not run. -/
theorem WorkerStep.hired (h : WorkerStep s ev t) (hnone : s.workers.get? w = none)
    (hk : t.workers.get? w = some k) : Hires s k.period ev ∧ k = ⟨k.period, 0, .fresh, false⟩ := by
  rcases h.origin hk with ⟨k₀, hk₀, -⟩ | ⟨hev, hfresh, -⟩
  · rw [hnone] at hk₀
    cases hk₀
  · exact ⟨hev, hfresh⟩

end

/-- What is so of a worker that has just come up in `s` and has a tick every `period` nanoseconds.
-/
structure Periodic (s : State) (w : Id) (period : Nat) : Prop where
  /-- The first pass begins when the worker first runs, unless somebody has stopped it by then. -/
  poll : ∀ {es}, .wake w ∉ es → (s.run es).begins w (.wake w) = true
    ∨ ∃ es₁ ev es₂, es = es₁ ++ ev :: es₂
      ∧ (Stops (s.run es₁) w ev ∨ Releases (s.run es₁) w ev)
  /-- Where time does not go on before everything that can run has run, that is at once. -/
  prompt : ∀ {es}, s.Unhurried es → ∀ x ∈ (s.starts w es).head?, x = s.nowNanos
  /-- The beginning of a pass is noted, if there is a cache to be refreshed. -/
  noted : ∀ {es ev}, s.settings.cachingActive = true → (s.run es).begins w ev = true →
    .passStarted (s.run es).next (s.run es).cache.size ∈ ((s.run es).step ev).journal
  /-- The worker is in the middle of a pass only when it has begun it. -/
  only : ∀ {es ev n}, ((s.run es).step ev).Driven w n →
    (s.run es).Driven w n ∨ (s.run es).begins w ev = true
  /-- When a pass begins there is no other, and all before have come to their end. -/
  alone : ∀ {es es' ev n}, ((s.run es).run es').begins w ev = true →
    ¬ ((s.run es).run es').Driven w n
      ∧ ((s.run es).Driven w n → ∃ r, .passFinished n r ∈ ((s.run es).run es').journal)
  /-- Passes are as many periods apart as there are passes between them, but for the time for which
  a tick is not late. -/
  apart : ∀ {es i m x y}, (s.starts w es)[i]? = some x → (s.starts w es)[i + m]? = some y →
    x + m * period ≤ y + State.lateness
  /-- No two passes are begun at one moment. -/
  once : ∀ es, (s.starts w es).Pairwise (· < ·)
  /-- When the tick was late a whole period passes before the next pass. -/
  overdue : ∀ {es ev k}, (s.run es).workers.get? w = some k → (s.run es).begins w ev = true →
    k.tick (s.run es).nowNanos + State.lateness < (s.run es).nowNanos →
    ∀ es', ∀ x ∈ ((s.run es).step ev).starts w es', (s.run es).nowNanos + period ≤ x
  /-- When somebody has stopped the worker it begins no pass any more. -/
  stopped : ∀ {es ev}, Stops (s.run es) w ev ∨ Releases (s.run es) w ev →
    ∀ es', ((s.run es).step ev).starts w es' = []

theorem WorkerBooks.periodic {s : State} {w : Id} {k : Worker} (hm : WorkerBooks s)
    (hk : s.workers.get? w = some k) (hp : k.phase = .fresh) (hgoing : k.stopping = false)
    (hperiod : State.lateness < k.period.nanos) : Periodic s w k.period.nanos where
  poll hes := hm.first_poll hk hp hgoing hes
  prompt hes x hx := Unpolled.starts_head ⟨k, hk, rfl, hp⟩ hm hes hx
  noted {es ev} ha hb := by
    have hsame : (s.run es).settings = s.settings := hm.books.orderly.settings_run es
    exact State.started_of_begins (hsame ▸ ha) hb
  only {es ev n} hd := by
    obtain ⟨k', hk', -⟩ := hm.worker_run hk es
    exact (hm.run es).begins_of_driven hk' hd
  alone {es es' ev n} hb := by
    obtain ⟨rfl, -⟩ := State.begins_iff.mp hb
    exact ⟨((hm.run es).run es').idle_of_begins hb n,
      fun hd => (hm.run es).finished_of_begins hd hb⟩
  apart hx hy := starts_apart hm hk _ hx hy
  once es := by
    refine List.pairwise_iff_getElem.mpr fun i j hi hj hlt => ?_
    obtain ⟨m, rfl⟩ := Nat.exists_eq_add_of_lt hlt
    have hapart := starts_apart hm hk es (m := m + 1) (List.getElem?_eq_getElem hi)
      (List.getElem?_eq_getElem hj)
    rw [Nat.succ_mul] at hapart
    omega
  overdue {es ev k'} hk' hb hlate es' x hx := by
    obtain ⟨k₀, hk₀, hsame⟩ := hm.worker_run hk es
    obtain rfl : k₀ = k' := Option.some_inj.mp (hk₀.symm.trans hk')
    obtain ⟨j, hj⟩ := List.mem_iff_getElem?.mp hx
    have hlater := (dueFrom_of_begins hk' hb).le_starts ((hm.run es).step ev) es' hj
    rw [Worker.next_of_late hlate, hsame] at hlater
    omega
  stopped {es ev} hev es' := by
    obtain ⟨k', hk', -⟩ := hm.worker_run hk es
    have hhalting : Halting ((s.run es).step ev) w :=
      hev.elim (halting_of_stop hk') fun hr => .of_dead (dead_of_releases hk' hr)
    exact hhalting.starts ((hm.run es).step ev) es'

/-- **Every worker keeps its passes apart** from the moment when it comes up, if its period is
longer than the time for which a tick is not late. -/
theorem passes_keep_apart (settings : Settings) (checks : Bool) (es : List Event) (ev : Event)
    {w : Id} {k : Worker}
    (hnone : ((State.initial settings checks).run es).workers.get? w = none)
    (hk : (((State.initial settings checks).run es).step ev).workers.get? w = some k)
    (hperiod : State.lateness < k.period.nanos) :
    let s := (State.initial settings checks).run es
    Hires s k.period ev ∧ Periodic (s.step ev) w k.period.nanos := by
  intro s
  have hs : WorkerBooks s := (WorkerBooks.initial settings checks).run es
  obtain ⟨hhires, hfresh⟩ := (step_workers hs ev).hired hnone hk
  exact ⟨hhires, (hs.step ev).periodic hk (by rw [hfresh]) (by rw [hfresh]) hperiod⟩

/-- A pass takes as long as three periods and a half: the next one begins when it is over, and the
one after that a period later. -/
theorem passes_keep_apart_of_slow_pass :
    let p : Principal := ⟨.user, "alice"⟩
    let period : Span := ⟨10000000, by decide⟩
    let es : List Event := [.update p, .answer 1 (.value (.ofList []))]
    let es' : List Event := [.wake 3, .launch 4 p, .elapse 35, .wake 3,
      .answer 5 (.value (.ofList [])), .collect 4 p, .wake 3, .launch 6 p,
      .answer 7 (.value (.ofList [])), .collect 6 p, .wake 3, .elapse 10, .wake 3]
    let s := ((State.initial { authorization := true } true).run es).step (.spawn period)
    State.lateness < period.nanos ∧ Periodic s 3 period.nanos
      ∧ s.starts 3 es' = [0, 35000000, 45000000] := by
  intro p period es es' s
  have hperiod : State.lateness < period.nanos := by decide
  have hkeep := passes_keep_apart { authorization := true } true es (.spawn period) (w := 3)
    (k := ⟨period, 0, .fresh, false⟩) (by decide) (by decide) hperiod
  exact ⟨hperiod, hkeep.2, by decide⟩

end Gatekeeper.Engine

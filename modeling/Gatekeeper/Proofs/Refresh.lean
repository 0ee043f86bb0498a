import Gatekeeper.Proofs.Completion
import Gatekeeper.Proofs.Fates

/-!
# What takes the refresh down

A pass reports what it has done, whatever the backend does, and the worker that an engine has
started goes on until it is told to stop.  The only thing that takes a pass down is to run it with
more calls at once than it can be run with; and the check of the settings, which refuses zero, lets
such a number pass.

* `Tended` — an engine's own worker is at work; `step_tended` says what leaves it so.
* `step_iterate_crashed` — what too many calls at once do to whoever runs a pass.
* `RefreshSafe` — what is promised of passes and of the worker, after any run.
* `refresh_safe_iff` — the promise is kept exactly if the number of calls is not too large.

Everything here turns on one comparison, between the number of calls at once and the number of
permits that there can be.  On the one side nothing that a backend does takes a pass or a worker
down, and a crash of a call is a failure like any other; on the other side every pass goes down
as it begins.
-/

set_option autoImplicit false

namespace Gatekeeper.Engine

section

variable {s t u : State} {ev : Event} {w : Id}

/-! ## The life of an engine

What leaves an engine's worker at work is read off what a step does to workers, as stated in
`Gatekeeper.Proofs.Fates`: a worker that nobody stops, lets go of or takes down stays at work. -/

/-- Whoever starts the refresh finds it running afterwards, or is told something else than that it
has been started. -/
theorem start_cases (ha : s.settings.cachingActive = true) (scheduler : Bool) :
    (∃ w, (s.start scheduler).lifecycle = .running w)
      ∨ ∃ o, .returned s.next o ∈ (s.start scheduler).journal ∧ o ≠ .started := by
  have hused : ¬ (!s.settings.authorization && s.settings.caching) = true := by
    simp [(Bool.and_eq_true_iff.mp ha).1]
  have hactive : ¬ (!(s.enter .start).settings.cachingActive) = true := by
    show ¬ (!s.settings.cachingActive) = true
    simp [ha]
  rw [State.start_eq, if_neg hused, State.startFor, if_neg hactive]
  cases hl : (s.enter .start).lifecycle with
  | running w => exact Or.inl ⟨w, hl⟩
  | stopped => exact Or.inr ⟨_, List.mem_cons_self, by simp⟩
  | idle =>
    dsimp only
    split
    · exact Or.inr ⟨_, List.mem_cons_self, by simp⟩
    · split
      · exact Or.inr ⟨_, List.mem_cons_self, by simp⟩
      · exact Or.inl ⟨_, rfl⟩

/-- The engine's own worker, if it has one, is at work as long as the engine is there. -/
def Tended (s : State) (w : Id) : Prop :=
  s.lifecycle = .running w → s.dropped = false → s.Working w

/-- An event that nobody takes the worker down with. -/
def Event.spares (w : Id) : Event → Bool
  | .stop v | .release v => v != w
  | _ => true

/-- **The engine's own worker stays at work**, unless the event ends the engine's life. -/
theorem step_tended (h : WorkerBooks s) (hpar : s.parallelism ≤ State.maxParallelism)
    (hev : ev.spares w = true) (hs : Tended s w) : Tended (s.step ev) w := by
  intro hl hd
  have hstep := step_workers h ev
  have hthere : s.dropped = false := by
    rcases hstep.dropped with hsame | ⟨-, hgone⟩
    · exact hsame ▸ hd
    · rw [hd] at hgone
      cases hgone
  rcases hstep.lifecycle with hsame | ⟨hidle, -⟩ | ⟨-, hstopped⟩
  · refine h.working_step hpar (hs (hsame ▸ hl) hthere) ?_ ?_
    · rintro (rfl | ⟨rfl, -⟩)
      · simp [Event.spares] at hev
      · rw [step_shutdown hthere, shutdown_lifecycle] at hl
        cases hl
    · rintro (rfl | ⟨rfl, -⟩)
      · simp [Event.spares] at hev
      · rw [step_drop hthere, drop_dropped] at hd
        cases hd
  · obtain ⟨period, hw⟩ := hstep.started hidle hl
    exact ⟨_, hw, rfl, rfl⟩
  · rw [hl] at hstopped
    cases hstopped

/-- An engine that is there has started the refresh, and the worker is at work. -/
structure Alive (s : State) (w : Id) : Prop where
  running : s.lifecycle = .running w
  kept : s.dropped = false
  working : s.Working w

theorem Alive.runs (h : Alive s w) : s.running = true := by
  obtain ⟨k, hk, -, halive⟩ := h.working
  rw [State.running, h.running]
  dsimp only
  rw [hk, Option.any_some, halive]

/-- The refresh goes on whatever happens, unless the engine is shut down or goes. -/
theorem step_alive (h : WorkerBooks s) (hpar : s.parallelism ≤ State.maxParallelism)
    (hev : ev.spares w = true) (hshutdown : ev ≠ .shutdown) (hdrop : ev ≠ .drop)
    (hs : Alive s w) : Alive (s.step ev) w := by
  have hstep := step_workers h ev
  refine ⟨?_, ?_, h.working_step hpar hs.working ?_ ?_⟩
  · rcases hstep.lifecycle with hsame | ⟨hidle, -⟩ | ⟨rfl, -⟩
    · rw [hsame, hs.running]
    · rw [hs.running] at hidle
      cases hidle
    · exact absurd rfl hshutdown
  · rcases hstep.dropped with hsame | ⟨rfl, -⟩
    · rw [hsame, hs.kept]
    · exact absurd rfl hdrop
  · rintro (rfl | ⟨rfl, -⟩)
    · simp [Event.spares] at hev
    · exact hshutdown rfl
  · rintro (rfl | ⟨rfl, -⟩)
    · simp [Event.spares] at hev
    · exact hdrop rfl

/-! ## Every run

An engine whose settings allow a pass to be run stays such an engine.  Whoever then runs a pass is
told nothing but its report, and whoever starts the refresh has a worker that goes on. -/

/-- An engine that caches, and has its passes run with a number of calls that they can be run with.
-/
structure Sound (s : State) : Prop extends WorkerBooks s where
  active : s.settings.cachingActive = true
  parallelism : s.parallelism ≤ State.maxParallelism

namespace Sound

theorem run (h : Sound s) (es : List Event) : Sound (s.run es) where
  toWorkerBooks := h.toWorkerBooks.run es
  active := by
    rw [h.books.orderly.settings_run]
    exact h.active
  parallelism := by
    rw [State.parallelism, h.books.orderly.settings_run]
    exact h.parallelism

theorem step (h : Sound s) (ev : Event) : Sound (s.step ev) := h.run [ev]

theorem tended_run (h : Sound s) {es : List Event} (hes : ∀ ev ∈ es, ev.spares w = true)
    (hs : Tended s w) : Tended (s.run es) w := by
  have hkept : Sound (s.run es) ∧ Tended (s.run es) w := by
    refine run_keeps (P := fun t => Sound t ∧ Tended t w) ⟨h, hs⟩ ?_
    rintro ev hev t ⟨ht, hw⟩
    exact ⟨ht.step ev, step_tended ht.toWorkerBooks ht.parallelism (hes ev hev) hw⟩
  exact hkept.2

theorem alive_run (h : Sound s) {es : List Event} (hes : ∀ ev ∈ es, ev.spares w = true)
    (hshutdown : .shutdown ∉ es) (hdrop : .drop ∉ es) (hs : Alive s w) : Alive (s.run es) w := by
  have hkept : Sound (s.run es) ∧ Alive (s.run es) w := by
    refine run_keeps (P := fun t => Sound t ∧ Alive t w) ⟨h, hs⟩ ?_
    rintro ev hev t ⟨ht, hw⟩
    refine ⟨ht.step ev, step_alive ht.toWorkerBooks ht.parallelism (hes ev hev) ?_ ?_ hw⟩
    · rintro rfl
      exact hshutdown hev
    · rintro rfl
      exact hdrop hev
  exact hkept.2

/-- Whoever is told that the refresh has been started has an engine whose worker is at work. -/
theorem alive_of_started (h : Sound s) {scheduler : Bool}
    (htended : ∀ w, (s.step (.start scheduler)).lifecycle = .running w → Tended s w)
    (hr : .returned s.next .started ∈ (s.step (.start scheduler)).journal) :
    ∃ w, Alive (s.step (.start scheduler)) w := by
  have hd : s.dropped = false := by
    by_contra hd
    rw [step_of_dropped (Bool.of_not_eq_false hd) rfl] at hr
    exact h.books.orderly.silent_next rfl hr
  have hthere : (s.step (.start scheduler)).dropped = false := by
    rcases (step_workers h.toWorkerBooks (.start scheduler)).dropped with hsame | ⟨hev, -⟩
    · rw [hsame, hd]
    · cases hev
  rcases start_cases h.active scheduler with ⟨w, hl⟩ | ⟨o, ho, hne⟩
  · rw [← step_start hd] at hl
    exact ⟨w, hl, hthere,
      step_tended h.toWorkerBooks h.parallelism rfl (htended w hl) hl hthere⟩
  · have hbooks : Books (s.step (.start scheduler)) := h.books.run [.start scheduler]
    rw [← step_start hd] at ho
    exact absurd (hbooks.callers.returned_unique ho hr) hne

/-- A pass over nobody is over at once. -/
theorem step_iterate_empty (h : Sound s) (hd : s.dropped = false) (hk : s.cache.keys = []) :
    s.step .iterate = (({ s.enter .iterate with next := s.next + 1 + 1 }.note
      (.passStarted (s.next + 1) s.cache.size)).note (.passFinished (s.next + 1) {})).finish s.next
        (.refreshed {}) := by
  have hrun : ¬ State.maxParallelism < (s.enter .iterate).parallelism :=
    Nat.not_lt_of_le h.parallelism
  rw [step_iterate hd, State.beginPass_over (s := s.enter .iterate) h.active hrun hk]
  rfl

/-- Whoever runs a pass over somebody waits for it. -/
theorem step_iterate_opens (h : Sound s) (hd : s.dropped = false) (hk : s.cache.keys ≠ []) :
    s.step .iterate
      = ((s.enter .iterate).openPass (.caller s.next)).wait s.next (.pass (s.next + 1)) := by
  have hrun : ¬ State.maxParallelism < (s.enter .iterate).parallelism :=
    Nat.not_lt_of_le h.parallelism
  rw [step_iterate hd, State.beginPass_opens (s := s.enter .iterate) h.active hrun hk]
  rfl

/-- Whoever runs a pass is told its report at once, or waits for the pass. -/
theorem iterate_cases (h : Sound s) (hd : s.dropped = false) :
    Told (s.step .iterate) s.next ∨ ∃ n pass, (s.step .iterate).passes.get? n = some pass
      ∧ pass.driver = .caller s.next := by
  by_cases hk : s.cache.keys = []
  · rw [h.step_iterate_empty hd hk]
    exact Or.inl (Or.inr ⟨_, List.mem_cons_self⟩)
  · rw [h.step_iterate_opens hd hk]
    exact Or.inr ⟨_, _, Table.get?_put_self, rfl⟩

end Sound

/-! ## Too many calls

If the number of calls at once is larger than there can be permits, a pass crashes whoever runs
it in the step in which it begins, whether or not there is anybody to ask for. -/

theorem step_iterate_crashed (ha : s.settings.cachingActive = true) (hd : s.dropped = false)
    (hlt : State.maxParallelism < s.parallelism) :
    .called s.next .iterate ∈ (s.step .iterate).journal
      ∧ .returned s.next .crashed ∈ (s.step .iterate).journal := by
  rw [step_iterate hd, State.beginPass_crash (s := s.enter .iterate) ha hlt]
  exact ⟨List.mem_cons_of_mem _ (List.mem_cons_of_mem _ List.mem_cons_self), List.mem_cons_self⟩

/-! ## The promise

The check of the settings refuses a number of zero and no other, so both cases occur. -/

/-- What is promised of the refresh of an engine, whatever is asked of it and whatever its backend
does. -/
structure RefreshSafe (s : State) : Prop where
  /-- Whoever runs a pass is told nothing but its report. -/
  reports : ∀ es c o, .called c .iterate ∈ (s.run es).journal → .returned c o ∈ (s.run es).journal →
    ∃ r, o = .refreshed r
  /-- In a fair run it is told so, unless it gives up. -/
  returns : ∀ es events, (s.run es).dropped = false → Fair ((s.run es).step .iterate) events →
    ∃ n, Told (((s.run es).step .iterate).trace events n) (s.run es).next
  /-- Once the refresh has been started it goes on until the engine is shut down or goes, as long as
  nobody else lays hands on its worker. -/
  runs : ∀ es scheduler es',
    .returned (s.run es).next .started ∈ ((s.run es).step (.start scheduler)).journal →
    (∀ w, ((s.run es).step (.start scheduler)).lifecycle = .running w →
      ∀ ev ∈ es ++ es', ev.spares w = true) →
    .shutdown ∉ es' → .drop ∉ es' →
    (((s.run es).step (.start scheduler)).run es').running = true

theorem Sound.refreshSafe (h : Sound s) (hidle : s.lifecycle = .idle) : RefreshSafe s where
  reports es c o hc hr := by
    have hfits := (h.run es).books.callers.fits hc hr
    cases o with
    | refreshed r => exact ⟨r, rfl⟩
    | crashed => exact absurd hfits (Nat.not_lt_of_le (h.run es).parallelism)
    | _ => exact hfits.elim
  returns es events hd hfair := by
    rcases (h.run es).iterate_cases hd with htold | ⟨n, pass, hp, hdriver⟩
    · exact ⟨0, htold⟩
    · exact told_of_fair ((h.run es).step .iterate).books hfair (k := 0) hp hdriver
  runs es scheduler es' hr hspares hshutdown hdrop := by
    have htended : ∀ w, ((s.run es).step (.start scheduler)).lifecycle = .running w →
        Tended (s.run es) w := by
      intro w hl
      refine h.tended_run (fun ev hev => hspares w hl ev (List.mem_append_left es' hev))
        fun hl' => ?_
      rw [hidle] at hl'
      cases hl'
    obtain ⟨w, hw⟩ := (h.run es).alive_of_started htended hr
    refine (((h.run es).step (.start scheduler)).alive_run
      (fun ev hev => ?_) hshutdown hdrop hw).runs
    exact hspares w hw.running ev (List.mem_append_right es hev)

/-- **The refresh is safe exactly if the number of calls at once is one that a pass can be run
with.**  The check of the settings lets larger ones pass: then whoever runs a pass is taken down,
and so is the worker at its first tick. -/
theorem refresh_safe_iff {settings : Settings} {checks : Bool}
    (hbuild : build settings checks = .ok s) (ha : settings.cachingActive = true) :
    RefreshSafe s ↔ settings.refreshParallelism ≤ State.maxParallelism := by
  obtain ⟨-, rfl⟩ := build_eq_ok_iff.mp hbuild
  constructor
  · intro hsafe
    by_contra hlt
    have htoo : State.maxParallelism < (State.initial settings checks).parallelism :=
      Nat.lt_of_lt_of_le (Nat.lt_of_not_le hlt) (Nat.le_max_right ..)
    have hcrashed := step_iterate_crashed ha rfl htoo
    obtain ⟨r, hr⟩ := hsafe.reports [.iterate] 0 .crashed hcrashed.1 hcrashed.2
    cases hr
  · intro hle
    have hsound : Sound (State.initial settings checks) :=
      ⟨.initial settings checks, ha, Nat.max_le.mpr ⟨by decide, hle⟩⟩
    exact hsound.refreshSafe rfl

end

/-- With nothing but authorization switched on the refresh is safe. -/
theorem refresh_safe_iff_of_defaults :
    let settings : Settings := { authorization := true }
    let s := State.initial settings true
    build settings true = .ok s ∧ settings.cachingActive = true ∧ RefreshSafe s := by
  intro settings s
  have hbuild : build settings true = .ok s := build_eq_ok_iff.mpr ⟨rfl, rfl⟩
  have hle : settings.refreshParallelism ≤ State.maxParallelism := by decide
  exact ⟨hbuild, rfl, (refresh_safe_iff hbuild rfl).mpr hle⟩

/-- An engine is built that takes its worker down at the first tick, and whoever runs a pass. -/
theorem refresh_crashes_unasked :
    let settings : Settings :=
      { authorization := true, refreshParallelism := State.maxParallelism + 1 }
    let s := State.initial settings true
    build settings true = .ok s ∧ settings.cachingActive = true
      ∧ .returned 0 .started ∈ (s.step (.start true)).journal
      ∧ ((s.step (.start true)).run [.wake 1]).running = false
      ∧ .returned 0 .crashed ∈ (s.step .iterate).journal ∧ ¬ RefreshSafe s := by
  intro settings s
  have hcrashed : .returned 0 .crashed ∈ (s.step .iterate).journal := by decide
  refine ⟨build_eq_ok_iff.mpr ⟨rfl, rfl⟩, rfl, by decide, by decide, hcrashed, fun hsafe => ?_⟩
  obtain ⟨r, hr⟩ := hsafe.reports [.iterate] 0 .crashed (by decide) hcrashed
  cases hr

end Gatekeeper.Engine

import Gatekeeper.Proofs.Account
import Gatekeeper.Proofs.Workers

/-!
# Workers and the passes that they run

Whoever starts, stops or lets go of workers, a worker is in the middle of a pass as long as the pass
is there for it to run, and no longer.  What can be done to a worker comes in few parts, of which
the events are made up: it is asked to stop, somebody lets go of it, it ends, or it begins a pass.
For each of them this file says what becomes of the worker and of its passes.

* `Staffed` — every worker is in the middle of the passes that are there for it, and of no other.
* `Moves.driven` — a pass that a worker runs goes on, unless its last result is looked at or the
  worker is taken out of it.
* `PassesFollow` — what becomes of the passes when a worker comes to be in another phase.
* `State.beginPass_worker`, `State.endWorker_eq`, `State.stopWorker_cases`,
  `State.abortWorker_cases` — the parts that events are made up of.

Whether a worker is in the middle of a pass can be read in two places, in the phase of the worker
and in the driver of the pass.  They agree, but not in the middle of a step; so the parts of a
step say how the one changes and how the other does, and the agreement is put together when the
step is over.
-/

set_option autoImplicit false

namespace Gatekeeper.Engine

/-- The worker is in the middle of the pass. -/
def State.Refreshing (s : State) (w n : Id) : Prop :=
  ∃ k, s.workers.get? w = some k ∧ k.phase = .refreshing n

/-- The worker has neither been asked to stop nor come to an end. -/
def State.Working (s : State) (w : Id) : Prop :=
  ∃ k, s.workers.get? w = some k ∧ k.stopping = false ∧ k.alive = true

/-- The worker has come to its end. -/
def Dead (s : State) (w : Id) : Prop := ∃ k, s.workers.get? w = some k ∧ k.alive = false

/-- Every worker is in the middle of the passes that are there for it, and of no other. -/
def Staffed (s : State) : Prop := ∀ w n, s.Driven w n ↔ s.Refreshing w n

/-- The worker `v` comes to be in the phase, and the only pass that is there for it then is the one
that it is in the middle of.  The passes of other workers are those that there were. -/
structure PassesFollow (s t : State) (v : Id) (phase : Phase) : Prop where
  own : ∀ n, t.Driven v n ↔ phase = .refreshing n
  others : ∀ w n, w ≠ v → (t.Driven w n ↔ s.Driven w n)

section

variable {ev : Event} {s t u : State} {n w v : Id} {k : Worker} {pass : Pass}

/-! ## Who runs which pass

A pass is run by one worker, and a worker is in the middle of one pass.  So once both agree on who
runs what, as `Staffed` says, either can be read off the other. -/

/-- Whoever is in the middle of a pass is alive. -/
theorem Worker.alive_of_refreshing (h : k.phase = .refreshing n) : k.alive = true := by
  rw [Worker.alive, h]

theorem State.refreshing_iff (hw : s.workers.get? w = some k) :
    s.Refreshing w n ↔ k.phase = .refreshing n := by
  simp [State.Refreshing, hw]

theorem State.Refreshing.phase (h : s.Refreshing w n) (hw : s.workers.get? w = some k) :
    k.phase = .refreshing n :=
  (State.refreshing_iff hw).mp h

/-- A pass is run by one worker. -/
theorem State.Driven.unique (h : s.Driven w n) (h' : s.Driven v n) : w = v := by
  obtain ⟨pass, hp, hd⟩ := h
  obtain ⟨pass', hp', hd'⟩ := h'
  rw [hp, Option.some_inj] at hp'
  rw [← hp', hd] at hd'
  injection hd'

theorem State.driven_iff_of_passes (hp : t.passes = s.passes) : t.Driven w n ↔ s.Driven w n := by
  rw [State.Driven, State.Driven, hp]

/-- **A pass that a worker runs goes on with every move**, unless it looks at the last of its
results, or the event is one that can take the worker out of it. -/
theorem Moves.driven (hb : Books s) (m : Moves ev s t) (h : s.Driven w n) :
    t.Driven w n ∨ (∃ p r, ev = .collect n p ∧ .passFinished n r ∈ t.journal)
      ∨ ev.abandons = true := by
  refine m.keeps_of_books (P := fun t => t.Driven w n
    ∨ (∃ p r, ev = .collect n p ∧ .passFinished n r ∈ t.journal) ∨ ev.abandons = true) hb
    (Or.inl h) ?_
  rintro t u hb (⟨pass, hp, hd⟩ | ⟨p, r, hev, hr⟩ | hev) m
  · cases m.goes hb hp with
    | stays hp' => exact Or.inl ⟨pass, hp', hd⟩
    | launches _ _ hp' | lands _ _ _ _ hp' | looks _ _ hp' => exact Or.inl ⟨_, hp', hd⟩
    | closes _ _ _ _ hev hf => exact Or.inr (Or.inl ⟨_, _, hev, hf⟩)
    | cancelled hd' =>
      rw [hd] at hd'
      cases hd'
    | abandoned _ _ hev => exact Or.inr (Or.inr hev)
  · exact Or.inr (Or.inl ⟨p, r, hev, (m.touch hb).suffix.subset hr⟩)
  · exact Or.inr (Or.inr hev)

/-- An event that has nothing to do with workers leaves their passes to them. -/
theorem driven_step_of_aloof (hb : Books s) (hev : ev.aloof = true) :
    (s.step ev).Driven w n ↔ s.Driven w n := by
  refine ⟨(step_aloof hev).passes, fun h => ?_⟩
  rcases Moves.driven hb (step_moves hb.orderly ev) h with h | ⟨p, r, rfl, -⟩ | habandons
  · exact h
  · cases hev
  · cases ev with
    | wake | release | drop => cases hev
    | _ => cases habandons

/-! ## Passes that follow their worker

What is put down here is what each part of an event does to the table of passes: it leaves it alone,
takes out the pass of the worker, or puts in a new one. -/

namespace PassesFollow

variable {phase : Phase}

/-- The worker is in the middle of what it was in the middle of. -/
theorem of_eq (hs : Staffed s) (hv : s.workers.get? v = some k) (hp : t.passes = s.passes)
    (hphase : ∀ n, phase = .refreshing n ↔ k.phase = .refreshing n) :
    PassesFollow s t v phase where
  own n := by rw [State.driven_iff_of_passes hp, hs v n, State.refreshing_iff hv, hphase]
  others _ _ _ := State.driven_iff_of_passes hp

/-- The worker is in the middle of no pass, before and after. -/
theorem of_free (hs : Staffed s) (hv : s.workers.get? v = some k)
    (hk : ∀ n, k.phase ≠ .refreshing n) (hp : t.passes = s.passes)
    (hphase : ∀ n, phase ≠ .refreshing n) : PassesFollow s t v phase :=
  of_eq hs hv hp fun n => iff_of_false (hphase n) (hk n)

/-- The pass that the worker is in the middle of is gone. -/
theorem of_erase (hs : Staffed s) (hv : s.workers.get? v = some k) (hk : k.phase = .refreshing n)
    (hp : t.passes = s.passes.erase n) (hphase : ∀ m, phase ≠ .refreshing m) :
    PassesFollow s t v phase where
  own m := by
    refine iff_of_false ?_ (hphase m)
    rintro ⟨pass, hm, hd⟩
    rw [hp] at hm
    obtain ⟨hne, hm⟩ := Table.get?_erase_eq_some_iff.mp hm
    have hphase := ((hs v m).mp ⟨pass, hm, hd⟩).phase hv
    rw [hk] at hphase
    injection hphase with hphase
    exact hne hphase.symm
  others w m hw := by
    refine ⟨fun ⟨pass, hm, hd⟩ => ?_, fun hd => ?_⟩
    · rw [hp] at hm
      exact ⟨pass, (Table.get?_erase_eq_some_iff.mp hm).2, hd⟩
    · have hne : m ≠ n := by
        rintro rfl
        exact hw (hd.unique ((hs v m).mpr ⟨k, hv, hk⟩))
      rwa [State.Driven, hp, Table.get?_erase_of_ne hne]

/-- The worker begins a pass. -/
theorem of_put (hs : Staffed s) (hb : Orderly s) (hv : s.workers.get? v = some k)
    (hk : ∀ n, k.phase ≠ .refreshing n) (hp : t.passes = s.passes.put s.next pass)
    (hd : pass.driver = .worker v) : PassesFollow s t v (.refreshing s.next) where
  own m := by
    have hfree : ¬ s.Driven v m := fun hd => hk m (((hs v m).mp hd).phase hv)
    by_cases hm : m = s.next
    · subst hm
      exact iff_of_true ⟨pass, by rw [hp, Table.get?_put_self], hd⟩ rfl
    · rw [State.Driven, hp, Table.get?_put_of_ne hm]
      exact iff_of_false hfree fun he => hm (by injection he with he; exact he.symm)
  others w m hw := by
    by_cases hm : m = s.next
    · subst hm
      refine iff_of_false ?_ ?_
      · rintro ⟨pass', hp', hd'⟩
        rw [hp, Table.get?_put_self, Option.some_inj] at hp'
        rw [← hp', hd] at hd'
        injection hd' with hd'
        exact hw hd'.symm
      · rintro ⟨pass', hp', -⟩
        exact absurd (hb.passes hp') (Nat.lt_irrefl _)
    · rw [State.Driven, State.Driven, hp, Table.get?_put_of_ne hm]

end PassesFollow

/-! ## What can be done to a worker

Asking it to stop leaves it in its phase; letting go of it ends it, and drops its pass before that.
Both come to nothing if the worker is at its end. -/

theorem State.endWorker_eq (s : State) (w : Id) : s.endWorker w =
    { s with
      workers := s.workers.update w ({ · with phase := .ended })
      callers := s.callers.filter fun c _ => decide (c ∉ s.workerWaiters w)
      journal := ((s.workerWaiters w).map fun c => Note.returned c .stopped).reverse
        ++ s.journal } := by
  rw [endWorker, finishAll_eq]
  rfl

theorem State.get?_dropPass (s : State) (n : Id) : (s.dropPass n).passes.get? n = none := by
  rw [dropPass_eq]
  exact Table.get?_erase_self

/-- Whoever asks a worker to stop waits for its end, unless it has come to its end. -/
theorem State.stopWorker_cases (hw : s.workers.get? w = some k) (c : Id) :
    (k.alive = false ∧ ∃ new, (∀ m ∈ new, Note.exit m = false)
      ∧ s.stopWorker c w = State.finish { s with journal := new ++ s.journal } c .stopped)
    ∨ k.alive = true ∧ s.stopWorker c w
      = State.wait { s with workers := s.workers.put w { k with stopping := true } } c
        (.worker w) := by
  rw [stopWorker, hw]
  dsimp only
  split
  · rename_i hp
    exact Or.inl ⟨by rw [Worker.alive, hp], [], by simp, rfl⟩
  · rename_i hp
    exact Or.inl ⟨by rw [Worker.alive, hp], [.syncCrashed w], by simp [Note.exit], rfl⟩
  · rename_i hended hcrashed
    refine Or.inr ⟨?_, rfl⟩
    rw [Worker.alive]
    split <;> simp_all

/-- Whoever lets go of a worker ends it, and drops the pass that it is in the middle of. -/
theorem State.abortWorker_cases (hw : s.workers.get? w = some k) :
    (k.alive = false ∧ s.abortWorker w = s)
    ∨ (∃ n, k.phase = .refreshing n ∧ s.abortWorker w = (s.dropPass n).endWorker w)
    ∨ k.alive = true ∧ (∀ n, k.phase ≠ .refreshing n) ∧ s.abortWorker w = s.endWorker w := by
  rw [abortWorker, hw]
  dsimp only
  split
  · rename_i hp
    exact Or.inl ⟨by rw [Worker.alive, hp], rfl⟩
  · rename_i hp
    exact Or.inl ⟨by rw [Worker.alive, hp], rfl⟩
  · rename_i n hp
    exact Or.inr (Or.inl ⟨n, hp, rfl⟩)
  · rename_i hended hcrashed hother
    refine Or.inr (Or.inr ⟨?_, hother, rfl⟩)
    rw [Worker.alive]
    split <;> simp_all

theorem State.lifecycle_stopWorker (s : State) (c w : Id) :
    (s.stopWorker c w).lifecycle = s.lifecycle := by
  cases hw : s.workers.get? w with
  | none =>
    rw [stopWorker, hw]
    rfl
  | some k =>
    rcases stopWorker_cases hw c with ⟨-, new, -, hs⟩ | ⟨-, hs⟩ <;>
    · rw [hs]
      rfl

theorem State.dropped_abortWorker (s : State) (w : Id) :
    (s.abortWorker w).dropped = s.dropped := by
  cases hw : s.workers.get? w with
  | none => rw [abortWorker, hw]
  | some k =>
    rcases abortWorker_cases hw with ⟨-, hs⟩ | ⟨n, -, hs⟩ | ⟨-, -, hs⟩
    · rw [hs]
    · rw [hs, endWorker_eq, dropPass_eq]
    · rw [hs, endWorker_eq]

theorem shutdown_lifecycle (s : State) : s.shutdown.lifecycle = .stopped := by
  rw [State.shutdown]
  split
  · exact State.lifecycle_stopWorker _ _ _
  · rfl

theorem drop_dropped (s : State) : s.drop.dropped = true := by
  rw [State.drop]
  split
  · exact State.dropped_abortWorker _ _
  · rfl

/-- A worker that is at its end does nothing when it is run. -/
theorem State.wake_of_dead (hw : Dead s w) : s.wake w = s := by
  obtain ⟨k, hk, hdead⟩ := hw
  rw [wake, hk]
  dsimp only
  split <;> simp_all [Worker.alive]

/-- The worker `v` begins a pass and comes to be in the phase: it goes on with the pass, or waits
for its next tick if the pass is over at once, or crashes, which it does only if a pass cannot be
run with so many calls at once; and only then is anybody told of its end. -/
structure BeginsPass (s t : State) (v : Id) (phase : Phase) : Prop where
  workers : t.workers = s.workers.update v ({ · with phase })
  lifecycle : t.lifecycle = s.lifecycle
  dropped : t.dropped = s.dropped
  passes : t.passes = s.passes
      ∧ (phase = .idle ∨ phase = .crashed ∧ State.maxParallelism < s.parallelism)
    ∨ (∃ pass, t.passes = s.passes.put s.next pass ∧ pass.driver = .worker v)
      ∧ phase = .refreshing s.next
  exits : ∀ m ∈ t.journal, m.exit = true → m ∈ s.journal
    ∨ phase = .crashed ∧ ∃ c, m = .returned c .stopped ∧ s.callers.get? c = some (.worker v)

theorem BeginsPass.phase {reached : Phase} (h : BeginsPass s t v reached) :
    reached = .idle ∨ (reached = .crashed ∧ State.maxParallelism < s.parallelism)
      ∨ reached = .refreshing s.next := by
  rcases h.passes with ⟨-, hp | hp⟩ | ⟨-, hp⟩
  · exact Or.inl hp
  · exact Or.inr (Or.inl hp)
  · exact Or.inr (Or.inr hp)

theorem State.beginPass_worker (s : State) (v : Id) :
    ∃ phase, BeginsPass s (s.beginPass (.worker v)) v phase := by
  cases ha : s.settings.cachingActive with
  | false =>
    have hs : s.beginPass (.worker v) = s.setPhase v .idle := by
      rw [beginPass, ha]
      rfl
    rw [hs]
    exact ⟨.idle, rfl, rfl, rfl, Or.inl ⟨rfl, Or.inl rfl⟩, fun m hm _ => Or.inl hm⟩
  | true =>
    rcases beginPass_cases ha (.worker v) with ⟨hlt, hs⟩ | ⟨-, hs⟩ | ⟨-, hs⟩
    · rw [hs, takeDown, crashWorker_eq]
      refine ⟨.crashed, rfl, rfl, rfl, Or.inl ⟨rfl, Or.inr ⟨rfl, hlt⟩⟩, fun m hm he => ?_⟩
      rcases List.mem_append.mp hm with hm | hm
      · obtain ⟨c, hc, rfl⟩ := List.mem_map.mp (List.mem_reverse.mp hm)
        exact Or.inr ⟨rfl, c, rfl, mem_workerWaiters_iff.mp hc⟩
      · rcases List.mem_append.mp hm with hm | hm
        · obtain ⟨c, -, rfl⟩ := List.mem_map.mp hm
          cases he
        · exact Or.inl ((List.mem_cons.mp hm).resolve_left fun e => by rw [e] at he; cases he)
    · rw [hs]
      refine ⟨.idle, rfl, rfl, rfl, Or.inl ⟨rfl, Or.inl rfl⟩, fun m hm he => Or.inl ?_⟩
      exact exits_of_append [.passFinished s.next {}, .passStarted s.next s.cache.size] rfl
        (by simp [Note.exit]) m hm he
    · rw [hs]
      refine ⟨.refreshing s.next, rfl, rfl, rfl, Or.inr ⟨⟨_, rfl, rfl⟩, rfl⟩,
        fun m hm he => Or.inl ?_⟩
      exact exits_of_append [.passStarted s.next s.cache.size] rfl (by simp [Note.exit]) m hm he

end

end Gatekeeper.Engine

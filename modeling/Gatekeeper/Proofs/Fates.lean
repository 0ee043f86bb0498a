import Gatekeeper.Proofs.Staff

/-!
# What becomes of a worker

Workers can be started, stopped and let go of by anybody, and an engine does so with its own.  Few
things can happen to one of them all the same: it is asked to stop, it ends, it takes a tick, or it
learns that its pass is over.  `step_workers` goes through the events once and says so for all
workers and their passes; everything else about workers is read off it: they stay with their
passes, one that is at its end stays there, whoever waits for the end of one is told of it only
then, and an engine goes from where it stands in its life in one direction.

* `Worker.ticks`, `Worker.next` — when a worker has a tick to take, and when the one after that is
  due.
* `WorkerBooks` — what is so of workers in every run.
* `Fate`, `WorkerStep` — what can happen to one worker, and what a step does to all of them.
* `WorkerStep.origin`, `WorkerStep.fate` — where a worker that is there comes from, and what becomes
  of it.
* `WorkerStep.exit` — nobody who waits for the end of a worker is told of it before.
* `WorkerBooks.dead_run` — the end of a worker is for good.

With this classification nothing that is proved later about workers has to go through the events
again.  A fact about one worker is read off its `Fate`, a fact about all of them off the books,
and an engine that is left alone is a special case (`Gatekeeper.Proofs.Roster`).
-/

set_option autoImplicit false

namespace Gatekeeper.Engine

/-! ## Ticks

When a worker runs it takes a tick if it has not run yet, or if its tick is due.  A tick that it
takes late puts off the next one, which would otherwise come a period after it was due. -/

namespace Worker

/-- The worker has a tick to take at the moment `now`, in nanoseconds. -/
def ticks (k : Worker) (now : Nat) : Bool :=
  !k.stopping && match k.phase with
    | .fresh => true
    | .idle => decide (k.due ≤ now)
    | .refreshing _ | .ended | .crashed => false

/-- The time of the tick that the worker takes at the moment `now`. -/
def tick (k : Worker) (now : Nat) : Nat :=
  match k.phase with
  | .fresh => now
  | _ => k.due

/-- The time of the tick after the one that the worker takes at the moment `now`. -/
def next (k : Worker) (now : Nat) : Nat :=
  (if k.tick now + State.lateness < now then now else k.tick now) + k.period.nanos

/-- The worker after it has taken a tick, before it begins its pass. -/
def ticked (k : Worker) (now : Nat) : Worker := { k with due := k.next now, phase := .idle }

end Worker

/-! ## What can happen

Each event is about one worker at most.  What can happen to that worker is its `Fate`; the others
stay as they are.  `WorkerStep` adds what is so of the passes, of the place at which the engine
stands in its life, and of those who are told of the end of a worker. -/

/-- The event is that somebody asks the worker to stop. -/
def Stops (s : State) (w : Id) (ev : Event) : Prop :=
  ev = .stop w ∨ ev = .shutdown ∧ s.dropped = false ∧ s.lifecycle = .running w

/-- The event is that somebody lets go of the worker. -/
def Releases (s : State) (w : Id) (ev : Event) : Prop :=
  ev = .release w ∨ ev = .drop ∧ s.dropped = false ∧ s.lifecycle = .running w

/-- The event is that somebody starts a worker with a tick every period. -/
def Hires (s : State) (period : Span) (ev : Event) : Prop :=
  ev = .spawn period ∨ ∃ scheduler, ev = .start scheduler ∧ period = s.settings.refreshInterval

/-- What can happen in a step to the worker `w`, which was `k`. -/
inductive Fate (s : State) (ev : Event) (w : Id) (k : Worker) : Worker → Prop
  | stays : Fate s ev w k k
  | asked (hev : Stops s w ev) (ha : k.alive = true) : Fate s ev w k { k with stopping := true }
  | ends (hev : ev = .wake w ∧ k.stopping = true ∨ Releases s w ev) (ha : k.alive = true) :
    Fate s ev w k { k with phase := .ended }
  | ticks (hev : ev = .wake w) (hk : k.ticks s.nowNanos = true) {phase : Phase}
    (hp : phase = .idle ∨ (phase = .crashed ∧ State.maxParallelism < s.parallelism)
      ∨ phase = .refreshing s.next) :
    Fate s ev w k { k.ticked s.nowNanos with phase }
  /-- Its pass is over. -/
  | rests {n : Id} (hev : ∃ p, ev = .collect n p) (hk : k.phase = .refreshing n) :
    Fate s ev w k { k with phase := .idle }

/-- What is so of workers in every run: they are in the middle of the passes that are there for
them, and the one that the engine has started is there. -/
structure WorkerBooks (s : State) : Prop where
  books : Books s
  staffed : Staffed s
  running : ∀ {w}, s.lifecycle = .running w → ∃ k, s.workers.get? w = some k

/-- What a step does to the workers and their passes, and whom it tells that one of them is at its
end. -/
inductive WorkerStep (s : State) (ev : Event) (t : State) : Prop
  /-- Workers have no part in it. -/
  | aloof (h : Aloof s t) (hp : ∀ w n, t.Driven w n ↔ s.Driven w n)
  /-- A worker comes up: somebody starts one of his own, or the engine starts its only one. -/
  | hires {v : Id} {period : Span} (hev : Hires s period ev) (hv : s.next ≤ v)
    (hw : t.workers = s.workers.put v ⟨period, 0, .fresh, false⟩) (hp : t.passes = s.passes)
    (hd : t.dropped = s.dropped) (hl : ev = .spawn period ∧ t.lifecycle = s.lifecycle
      ∨ s.lifecycle = .idle ∧ t.lifecycle = .running v ∧ t.dropped = false)
    (he : ∀ m ∈ t.journal, m.exit = true → m ∈ s.journal)
  /-- Somebody who asks for the end of a worker has nothing to wait for. -/
  | refers (hw : t.workers = s.workers) (hp : t.passes = s.passes)
    (hd : t.dropped = s.dropped ∨ ev = .drop ∧ t.dropped = true)
    (hl : t.lifecycle = s.lifecycle ∨ ev = .shutdown ∧ t.lifecycle = .stopped)
    (he : ∀ m ∈ t.journal, m.exit = true → m ∈ s.journal ∨ m = .returned s.next .stopped)
  /-- Something happens to one worker. -/
  | turns {v : Id} {k k' : Worker} (hv : s.workers.get? v = some k) (hf : Fate s ev v k k')
    (hv' : t.workers.get? v = some k') (hw : ∀ w, w ≠ v → t.workers.get? w = s.workers.get? w)
    (hp : PassesFollow s t v k'.phase) (hd : t.dropped = s.dropped ∨ ev = .drop ∧ t.dropped = true)
    (hl : t.lifecycle = s.lifecycle ∨ ev = .shutdown ∧ t.lifecycle = .stopped)
    (he : ∀ m ∈ t.journal, m.exit = true → m ∈ s.journal
      ∨ k'.alive = false ∧ ∃ c, m = .returned c .stopped ∧ s.callers.get? c = some (.worker v))

section

variable {s t u : State} {ev : Event} {c n v w : Id} {k k' : Worker}

namespace Worker

/-- A worker with a tick to take has not run yet, or waits for its next tick. -/
theorem phase_of_ticks {now : Nat} (h : k.ticks now = true) :
    k.phase = .fresh ∨ k.phase = .idle := by
  rw [ticks, Bool.and_eq_true] at h
  cases hp : k.phase with
  | fresh => exact Or.inl rfl
  | idle => exact Or.inr rfl
  | _ => simp [hp] at h

theorem going_of_ticks {now : Nat} (h : k.ticks now = true) : k.stopping = false := by
  rw [ticks, Bool.and_eq_true] at h
  simpa using h.1

theorem alive_of_ticks {now : Nat} (h : k.ticks now = true) : k.alive = true := by
  rcases phase_of_ticks h with hp | hp <;> rw [alive, hp]

end Worker

namespace State

/-- A worker that runs takes a tick if it has one to take. -/
theorem wake_of_ticks (hw : s.workers.get? w = some k) (hk : k.ticks s.nowNanos = true) :
    s.wake w
      = { s with workers := s.workers.put w (k.ticked s.nowNanos) }.beginPass (.worker w) := by
  have hgoing := Worker.going_of_ticks hk
  have hdue : k.phase = .idle → k.due ≤ s.nowNanos := by
    intro hp
    rw [Worker.ticks, hp, Bool.and_eq_true, decide_eq_true_iff] at hk
    exact hk.2
  rw [wake, hw]
  rcases Worker.phase_of_ticks hk with hp | hp
  · simp only [hp, hgoing, Bool.false_eq_true, if_false, takeTick, Worker.ticked,
      Worker.next, Worker.tick]
  · simp only [hp, hgoing, Bool.false_eq_true, if_false, if_pos (hdue hp), takeTick,
      Worker.ticked, Worker.next, Worker.tick]

/-- If it has none, it does nothing, unless it has been asked to stop. -/
theorem wake_of_not_ticks (hw : s.workers.get? w = some k) (hk : k.ticks s.nowNanos = false) :
    s.wake w = s ∨ k.stopping = true ∧ k.alive = true
      ∧ ((∀ n, k.phase ≠ .refreshing n) ∧ s.wake w = (s.note (.syncStopped w)).endWorker w
        ∨ ∃ n, k.phase = .refreshing n ∧ s.wake w
          = (((s.note (.passAbandoned n)).dropPass n).note (.syncStopped w)).endWorker w) := by
  rcases s.wake_cases w with
    hs | ⟨k', due, hw', hgoing, hphase, hs⟩ | ⟨k', hw', hstop, hend⟩
  · exact Or.inl hs
  · rw [hw, Option.some_inj] at hw'
    subst hw'
    rw [Worker.ticks, hgoing] at hk
    rcases hphase with hp | hp
    · simp [hp] at hk
    · simp only [hp, Bool.not_false, Bool.true_and, decide_eq_false_iff_not] at hk
      refine Or.inl ?_
      rw [wake, hw]
      simp [hp, hgoing, hk]
  · rw [hw, Option.some_inj] at hw'
    subst hw'
    by_cases halive : k.alive = true
    · exact Or.inr ⟨hstop, halive, hend⟩
    · exact Or.inl (State.wake_of_dead ⟨k, hw, Bool.eq_false_iff.mpr halive⟩)

end State

/-! ## Going through the events

The events that stop workers come down to `State.stopWorker`, those that let go of them to
`State.abortWorker`, and both are done after something in which workers have no part; so the lemmas
here speak of a state `u` that differs from `s` in nothing that matters to workers. -/

namespace WorkerStep

/-- A worker ends, after something that has taken its pass from it. -/
theorem ends (hev : ev = .wake v ∧ k.stopping = true ∨ Releases s v ev)
    (hv : s.workers.get? v = some k) (ha : k.alive = true) (hw : u.workers = s.workers)
    (hp : PassesFollow s u v .ended) (hc : u.callers = s.callers)
    (hd : u.dropped = s.dropped ∨ ev = .drop ∧ u.dropped = true) (hl : u.lifecycle = s.lifecycle)
    (he : ∀ m ∈ u.journal, m.exit = true → m ∈ s.journal) : WorkerStep s ev (u.endWorker v) := by
  rw [State.endWorker_eq]
  refine .turns hv (.ends hev ha) ?_ (fun w hne => ?_) ⟨hp.own, hp.others⟩ hd (Or.inl hl)
    fun m hm hexit => ?_
  · simp [Table.get?_update, hw, hv]
  · simp [Table.get?_update, hw, hne]
  · rcases List.mem_append.mp hm with hm | hm
    · obtain ⟨c, hwaits, rfl⟩ := List.mem_map.mp (List.mem_reverse.mp hm)
      exact Or.inr ⟨rfl, c, rfl, hc ▸ State.mem_workerWaiters_iff.mp hwaits⟩
    · exact Or.inl (he m hm hexit)

/-- Somebody lets go of a worker, after something in which workers have no part. -/
theorem abortWorker (hs : Staffed s) (hev : Releases s v ev) (hw : u.workers = s.workers)
    (hp : u.passes = s.passes) (hc : u.callers = s.callers)
    (hd : u.dropped = s.dropped ∨ ev = .drop ∧ u.dropped = true) (hl : u.lifecycle = s.lifecycle)
    (hj : u.journal = s.journal) : WorkerStep s ev (u.abortWorker v) := by
  have hsame : WorkerStep s ev u := .refers hw hp hd (Or.inl hl) fun m hm _ => Or.inl (hj ▸ hm)
  cases hv : u.workers.get? v with
  | none =>
    rw [State.abortWorker, hv]
    exact hsame
  | some k =>
    have hv' : s.workers.get? v = some k := hw ▸ hv
    rcases State.abortWorker_cases hv with ⟨-, hu⟩ | ⟨n, hn, hu⟩ | ⟨halive, hk, hu⟩
    · rw [hu]
      exact hsame
    · have ha : Aloof u (u.dropPass n) := .dropPass n
      rw [hu]
      refine .ends (Or.inr hev) hv' (Worker.alive_of_refreshing hn) (ha.workers.trans hw) ?_ ?_
        (ha.dropped.symm ▸ hd) (ha.lifecycle.trans hl) fun m hm he => hj ▸ ha.exits m hm he
      · refine .of_erase hs hv' hn ?_ (by simp)
        rw [State.dropPass_eq, hp]
      · rw [State.dropPass_eq]
        exact hc
    · rw [hu]
      exact .ends (Or.inr hev) hv' halive hw (.of_free hs hv' hk hp (by simp)) hc
        hd hl fun m hm _ => hj ▸ hm

/-- Somebody asks a worker to stop, after something in which workers have no part. -/
theorem stopWorker (hs : Staffed s) (hev : Stops s v ev) (hv : s.workers.get? v = some k)
    (hw : u.workers = s.workers) (hp : u.passes = s.passes) (hd : u.dropped = s.dropped)
    (hl : u.lifecycle = s.lifecycle ∨ ev = .shutdown ∧ u.lifecycle = .stopped) (new : List Note)
    (hj : u.journal = new ++ s.journal) (hnew : ∀ m ∈ new, m.exit = false) :
    WorkerStep s ev (u.stopWorker s.next v) := by
  have hexits := exits_of_append new hj hnew
  have hv' : u.workers.get? v = some k := hw ▸ hv
  rcases State.stopWorker_cases hv' s.next with ⟨-, more, hmore, hu⟩ | ⟨halive, hu⟩
  · rw [hu]
    refine .refers hw hp (Or.inl hd) hl fun m hm he => ?_
    rcases List.mem_cons.mp hm with rfl | hm
    · exact Or.inr rfl
    · have hold := exits_of_append (t := { u with journal := more ++ u.journal }) more rfl hmore
      exact Or.inl (hexits m (hold m hm he) he)
  · rw [hu]
    refine .turns hv (.asked hev halive) Table.get?_put_self (fun w hne => ?_)
      (.of_eq hs hv hp fun n => Iff.rfl) (Or.inl hd) hl fun m hm he => Or.inl (hexits m hm he)
    exact (Table.get?_put_of_ne hne).trans (by rw [hw])

/-- Somebody starts the refresh. -/
theorem start (hd : s.dropped = false) (scheduler : Bool) :
    WorkerStep s (.start scheduler) (s.start scheduler) := by
  have hfor : ∀ {u : State} (new : List Note), u.settings = s.settings → u.workers = s.workers →
      u.passes = s.passes → u.dropped = s.dropped → u.lifecycle = s.lifecycle → s.next ≤ u.next →
      u.journal = new ++ s.journal → (∀ m ∈ new, m.exit = false) →
      WorkerStep s (.start scheduler) (u.startFor s.next scheduler) := by
    intro u new hsettings hw hp hsame hl hn hj hnew
    have htold : ∀ {o : Outcome}, (Note.returned s.next o).exit = false →
        WorkerStep s (.start scheduler) (u.finish s.next o) := by
      intro o ho
      refine .refers hw hp (Or.inl hsame) (Or.inl hl) fun m hm he => Or.inl ?_
      refine exits_of_append (t := u.finish s.next o) (.returned s.next o :: new) ?_ ?_ m hm he
      · exact congrArg _ hj
      · exact List.forall_mem_cons.mpr ⟨ho, hnew⟩
    rw [State.startFor]
    split
    · exact htold rfl
    · split
      · exact htold rfl
      · exact htold rfl
      · rename_i hidle
        split
        · exact htold rfl
        · dsimp only
          split
          · refine .refers hw hp (Or.inl hsame) (Or.inl hl) fun m hm he => Or.inl ?_
            exact exits_of_append (_ :: _ :: new) (congrArg (_ :: _ :: ·) hj)
              (by simpa [Note.exit] using hnew) m hm he
          · refine .hires (v := u.next) (Or.inr ⟨scheduler, rfl, rfl⟩) hn
              (by rw [← hw, ← hsettings]; rfl) hp hsame
              (Or.inr ⟨hl ▸ hidle, rfl, hsame.trans hd⟩) fun m hm he => ?_
            exact exits_of_append (_ :: _ :: _ :: new) (congrArg (_ :: _ :: _ :: ·) hj)
              (by simpa [Note.exit] using hnew) m hm he
  rw [State.start_eq]
  split
  · exact hfor [.cachingUnused, .called s.next .start] rfl rfl rfl rfl rfl (Nat.le_succ _) rfl
      (by simp [Note.exit])
  · exact hfor [.called s.next .start] rfl rfl rfl rfl rfl (Nat.le_succ _) rfl
      (by simp [Note.exit])

/-! ### Workers that run

A worker that is woken takes a tick, ends, or does nothing, and one that looks at the last result
of its pass comes to rest. -/

/-- A worker runs. -/
theorem wake (h : WorkerBooks s) (w : Id) : WorkerStep s (.wake w) (s.wake w) := by
  cases hw : s.workers.get? w with
  | none =>
    rw [State.wake, hw]
    exact .aloof (.refl s) fun _ _ => Iff.rfl
  | some k =>
    cases hk : k.ticks s.nowNanos with
    | true =>
      have hfree : ∀ n, k.phase ≠ .refreshing n := by
        intro n hn
        rcases Worker.phase_of_ticks hk with hp | hp <;>
        · rw [hp] at hn
          cases hn
      obtain ⟨phase, hb⟩ := State.beginPass_worker
        { s with workers := s.workers.put w (k.ticked s.nowNanos) } w
      rw [State.wake_of_ticks hw hk]
      refine .turns hw (.ticks rfl hk hb.phase) ?_ (fun v hne => ?_) ?_ (Or.inl hb.dropped)
        (Or.inl hb.lifecycle) fun m hm hexit => ?_
      · rw [hb.workers, Table.get?_put_update, if_pos rfl]
      · rw [hb.workers, Table.get?_put_update, if_neg hne]
      · rcases hb.passes with ⟨hp, hphase⟩ | ⟨⟨pass, hp, hd⟩, rfl⟩
        · exact .of_free h.staffed hw hfree hp (by rcases hphase with rfl | ⟨rfl, -⟩ <;> simp)
        · exact .of_put h.staffed h.books.orderly hw hfree hp hd
      · rcases hb.exits m hm hexit with hm | ⟨rfl, hc⟩
        · exact Or.inl hm
        · exact Or.inr ⟨rfl, hc⟩
    | false =>
      rcases State.wake_of_not_ticks hw hk with
        hs | ⟨hstop, halive, ⟨hfree, hs⟩ | ⟨n, hn, hs⟩⟩
      · rw [hs]
        exact .aloof (.refl s) fun _ _ => Iff.rfl
      · rw [hs]
        exact .ends (Or.inl ⟨rfl, hstop⟩) hw halive rfl (.of_free h.staffed hw hfree rfl (by simp))
          rfl (Or.inl rfl) rfl (exits_of_append [.syncStopped w] rfl (by simp [Note.exit]))
      · have hnoted : ∀ {u : State} {m : Note}, m.exit = false → Aloof u (u.note m) :=
          fun {u m} hm => .of_eq [m] rfl rfl rfl rfl rfl (by simpa using hm)
        have ha : Aloof s (((s.note (.passAbandoned n)).dropPass n).note (.syncStopped w)) :=
          (hnoted rfl).trans ((Aloof.dropPass n).trans (hnoted rfl))
        rw [hs]
        refine .ends (Or.inl ⟨rfl, hstop⟩) hw halive ha.workers (.of_erase h.staffed hw hn ?_
          (by simp)) ?_ (Or.inl ha.dropped) ha.lifecycle ha.exits
        all_goals
        · rw [State.dropPass_eq]
          rfl

/-- A pass looks at a result, from which its worker may learn that it is over. -/
theorem collect (hs : Staffed s) (n : Id) (p : Principal) :
    WorkerStep s (.collect n p) (s.collect n p) := by
  rcases collect_aloof s n p with ⟨ha, hkept⟩ | ⟨pass, l, w, hc, hd⟩
  · exact .aloof ha fun w m => ⟨ha.passes, hkept⟩
  obtain ⟨k, hw, hphase⟩ := (hs w n).mp ⟨pass, hc.present, hd⟩
  have hstep : s.collect n p = _ := hc.step
  rw [hd, State.digest_eq] at hstep
  rw [hstep]
  refine .turns hw (.rests ⟨p, rfl⟩ hphase) ?_ (fun v hne => ?_)
    (.of_erase hs hw hphase rfl (by simp)) (Or.inl rfl) (Or.inl rfl) fun m hm he => Or.inl ?_
  · simp [State.reportPass, State.setPhase, State.note, Table.get?_update, hw]
  · simp [State.reportPass, State.setPhase, State.note, Table.get?_update, hne]
  · refine (Aloof.digest (s := s) n l).exits m ?_ he
    rw [State.digest_eq]
    exact (List.mem_cons.mp hm).resolve_left fun e => by rw [e] at he; cases he

end WorkerStep

/-! ### All events

Any other event is one in which workers have no part. -/

/-- **What a step does to workers**, whoever lays hands on them. -/
theorem step_workers (h : WorkerBooks s) (ev : Event) : WorkerStep s ev (s.step ev) := by
  by_cases hasks : s.dropped = true ∧ ev.asks = true
  · rw [step_of_dropped hasks.1 hasks.2]
    exact .aloof (.refl s) fun _ _ => Iff.rfl
  have hd : ev.asks = true → s.dropped = false := fun ha => by simpa [ha] using hasks
  cases ev with
  | start scheduler =>
    rw [step_start (hd rfl)]
    exact .start (hd rfl) scheduler
  | shutdown =>
    rw [step_shutdown (hd rfl), State.shutdown]
    split
    · rename_i w hl
      obtain ⟨k, hk⟩ := h.running hl
      exact .stopWorker h.staffed (Or.inr ⟨rfl, hd rfl, hl⟩) hk rfl rfl rfl (Or.inr ⟨rfl, rfl⟩)
        [.syncStopping, .called s.next .shutdown] rfl (by simp [Note.exit])
    · refine .refers rfl rfl (Or.inl rfl) (Or.inr ⟨rfl, rfl⟩) fun m hm he => ?_
      rcases List.mem_cons.mp hm with hm | hm
      · exact Or.inr hm
      · exact Or.inl (exits_of_append (t := s.enter .shutdown) [.called s.next .shutdown] rfl
          (by simp [Note.exit]) m hm he)
  | drop =>
    rw [step_drop (hd rfl), State.drop]
    split
    · rename_i w hl
      exact .abortWorker (s := s) (u := { s with dropped := true }) h.staffed
        (Or.inr ⟨rfl, hd rfl, hl⟩) rfl rfl rfl (Or.inr ⟨rfl, rfl⟩) rfl rfl
    · exact .refers rfl rfl (Or.inr ⟨rfl, rfl⟩) (Or.inl rfl) fun m hm _ => Or.inl hm
  | spawn period =>
    rw [State.step, State.spawn]
    split
    · exact .refers rfl rfl (Or.inl rfl) (Or.inl rfl) fun m hm he => Or.inl <| exits_of_append
        [.returned s.next (.failed (.configuration .zeroPeriod)), .called s.next (.spawn period)]
        rfl (by simp [Note.exit]) m hm he
    · exact .hires (v := s.next + 1) (Or.inl rfl) (Nat.le_succ _) rfl rfl rfl (Or.inl ⟨rfl, rfl⟩)
        (exits_of_append [.returned s.next (.spawned (s.next + 1)), .syncSpawned (s.next + 1),
          .called s.next (.spawn period)] rfl (by simp [Note.exit]))
  | stop v =>
    cases hv : s.workers.get? v with
    | none =>
      have hs : s.step (.stop v) = (s.enter (.stop v)).finish s.next .stopped := by
        have hv' : (s.enter (.stop v)).workers.get? v = none := hv
        rw [State.step, State.stopWorker, hv']
      rw [hs]
      refine .refers rfl rfl (Or.inl rfl) (Or.inl rfl) fun m hm he => ?_
      rcases List.mem_cons.mp hm with hm | hm
      · exact Or.inr hm
      · exact Or.inl (exits_of_append (t := s.enter (.stop v)) [.called s.next (.stop v)] rfl
          (by simp [Note.exit]) m hm he)
    | some k =>
      exact .stopWorker h.staffed (Or.inl rfl) hv rfl rfl rfl (Or.inl rfl)
        [.called s.next (.stop v)] rfl (by simp [Note.exit])
  | release v => exact .abortWorker h.staffed (Or.inl rfl) rfl rfl rfl (Or.inl rfl) rfl rfl
  | collect n p => exact .collect h.staffed n p
  | wake w => exact .wake h w
  | _ => exact .aloof (step_aloof rfl) fun _ _ => driven_step_of_aloof h.books rfl

/-! ## What is read off

First what one fate says of its worker, then what a step says: where a worker that is there comes
from and what becomes of it, where the engine stands, that workers and passes stay together, and who
is told of an end. -/

namespace Fate

variable (h : Fate s ev w k k')

include h

theorem period : k'.period = k.period := by cases h <;> rfl

/-- A request to stop is never taken back. -/
theorem stopping (hs : k.stopping = true) : k'.stopping = true := by
  cases h with
  | asked => rfl
  | _ => exact hs

theorem alive (ha : k'.alive = true) : k.alive = true := by
  cases h with
  | stays => exact ha
  | asked hev halive | ends hev halive => exact halive
  | ticks hev hk => exact Worker.alive_of_ticks hk
  | rests hev hk => exact Worker.alive_of_refreshing hk

/-- A worker that is at its end stays there. -/
theorem dead (hdead : k.alive = false) : k'.alive = false :=
  Bool.eq_false_iff.mpr fun halive => by simp [h.alive halive] at hdead

end Fate

namespace WorkerStep

variable (h : WorkerStep s ev t)

include h

/-- What becomes of a worker that is there. -/
theorem fate (hb : Orderly s) (hw : s.workers.get? w = some k) :
    ∃ k', t.workers.get? w = some k' ∧ Fate s ev w k k' := by
  cases h with
  | aloof ha => exact ⟨k, by rw [ha.workers, hw], .stays⟩
  | hires hev hv hw' =>
    refine ⟨k, ?_, .stays⟩
    rw [hw', Table.get?_put_of_ne (Nat.ne_of_lt (Nat.lt_of_lt_of_le (hb.workers hw) hv)), hw]
  | refers hw' => exact ⟨k, by rw [hw', hw], .stays⟩
  | @turns v k₀ k₁ hv hf hv' hother =>
    by_cases hne : w = v
    · subst hne
      rw [hw, Option.some_inj] at hv
      subst hv
      exact ⟨k₁, hv', hf⟩
    · exact ⟨k, (hother w hne).trans hw, .stays⟩

/-- **A worker that is there was there before, or has just come up.** -/
theorem origin (hw : t.workers.get? w = some k') :
    (∃ k, s.workers.get? w = some k ∧ Fate s ev w k k')
      ∨ Hires s k'.period ev ∧ k' = ⟨k'.period, 0, .fresh, false⟩
        ∧ (ev = .spawn k'.period
          ∨ s.lifecycle = .idle ∧ t.lifecycle = .running w ∧ t.dropped = false) := by
  cases h with
  | aloof ha => exact Or.inl ⟨k', ha.workers ▸ hw, .stays⟩
  | hires hev hv hw' hp hd hl =>
    rw [hw'] at hw
    rcases Table.get?_put_eq_some_iff.mp hw with ⟨rfl, rfl⟩ | ⟨-, hw⟩
    · exact Or.inr ⟨hev, rfl, hl.imp_left And.left⟩
    · exact Or.inl ⟨k', hw, .stays⟩
  | refers hw' => exact Or.inl ⟨k', hw' ▸ hw, .stays⟩
  | @turns v k₀ k₁ hv hf hv' hother =>
    by_cases hne : w = v
    · subst hne
      rw [hw, Option.some_inj] at hv'
      exact Or.inl ⟨k₀, hv, hv' ▸ hf⟩
    · exact Or.inl ⟨k', (hother w hne).symm.trans hw, .stays⟩

/-- **Where an engine goes from where it stands in its life.** -/
theorem lifecycle : t.lifecycle = s.lifecycle
    ∨ (s.lifecycle = .idle ∧ ∃ w, t.lifecycle = .running w)
    ∨ ev = .shutdown ∧ t.lifecycle = .stopped := by
  cases h with
  | aloof ha => exact Or.inl ha.lifecycle
  | hires hev hv hw hp hd hl =>
    rcases hl with ⟨-, hl⟩ | ⟨hidle, hl, -⟩
    · exact Or.inl hl
    · exact Or.inr (Or.inl ⟨hidle, _, hl⟩)
  | refers hw hp hd hl | turns hv hf hv' hw hp hd hl => exact hl.imp_right Or.inr

/-- An engine is gone only if it is dropped. -/
theorem dropped : t.dropped = s.dropped ∨ ev = .drop ∧ t.dropped = true := by
  cases h with
  | aloof ha => exact Or.inl ha.dropped
  | hires hev hv hw hp hd => exact Or.inl hd
  | refers hw hp hd | turns hv hf hv' hw hp hd => exact hd

/-- A worker that the engine has started is there. -/
theorem running (hb : WorkerBooks s) (hl : t.lifecycle = .running w) :
    ∃ k, t.workers.get? w = some k := by
  have hkept : t.lifecycle = s.lifecycle → ∃ k, t.workers.get? w = some k := by
    intro hsame
    obtain ⟨k, hk⟩ := hb.running (hsame ▸ hl)
    obtain ⟨k', hk', -⟩ := h.fate hb.books.orderly hk
    exact ⟨k', hk'⟩
  have hstopped : ¬ (ev = .shutdown ∧ t.lifecycle = .stopped) := by simp [hl]
  cases h with
  | aloof ha => exact hkept ha.lifecycle
  | hires hev hv hw hp hd hl' =>
    rcases hl' with ⟨-, hl'⟩ | ⟨-, hl', -⟩
    · exact hkept hl'
    · rw [hl] at hl'
      injection hl' with hl'
      exact ⟨_, by rw [hw, hl', Table.get?_put_self]⟩
  | refers hw hp hd hl' | turns hv hf hv' hw hp hd hl' => exact hkept (hl'.resolve_right hstopped)

/-- The worker with which the refresh is started has not run. -/
theorem started (hi : s.lifecycle = .idle) (hl : t.lifecycle = .running w) :
    ∃ period, t.workers.get? w = some ⟨period, 0, .fresh, false⟩ := by
  have hkept : t.lifecycle ≠ s.lifecycle := by simp [hi, hl]
  have hstopped : ¬ (ev = .shutdown ∧ t.lifecycle = .stopped) := by simp [hl]
  cases h with
  | aloof ha => exact absurd ha.lifecycle hkept
  | @hires v period hev hv hw hp hd hl' =>
    rcases hl' with ⟨-, hl'⟩ | ⟨-, hl', -⟩
    · exact absurd hl' hkept
    · rw [hl] at hl'
      injection hl' with hl'
      exact ⟨period, by rw [hw, hl', Table.get?_put_self]⟩
  | refers hw hp hd hl' | turns hv hf hv' hw hp hd hl' =>
    exact absurd hl' (not_or.mpr ⟨hkept, hstopped⟩)

/-- **Workers and passes stay together.** -/
theorem staffed (hb : Orderly s) (hs : Staffed s) : Staffed t := by
  have hsame : t.workers = s.workers → (∀ w n, t.Driven w n ↔ s.Driven w n) → Staffed t := by
    intro hw hp w n
    rw [hp, hs w n, State.Refreshing, State.Refreshing, hw]
  cases h with
  | aloof ha hp => exact hsame ha.workers hp
  | refers hw hp => exact hsame hw fun _ _ => State.driven_iff_of_passes hp
  | @hires v period hev hv hw hp =>
    intro w n
    rw [State.driven_iff_of_passes hp, hs w n]
    by_cases hne : w = v
    · subst hne
      refine iff_of_false ?_ ?_
      · rintro ⟨k, hk, -⟩
        exact absurd (hb.workers hk) (Nat.not_lt_of_le hv)
      · rw [State.refreshing_iff (by rw [hw, Table.get?_put_self])]
        simp
    · rw [State.Refreshing, State.Refreshing, hw, Table.get?_put_of_ne hne]
  | @turns v k k' hv hf hv' hw hp =>
    intro w n
    by_cases hne : w = v
    · subst hne
      rw [hp.own, State.refreshing_iff hv']
    · rw [hp.others w n hne, hs w n, State.Refreshing, State.Refreshing, hw w hne]

/-- Whoever is told of the end of a worker had nothing to wait for, or waited for one that is at its
end now. -/
theorem exit (hnew : .returned c .stopped ∈ t.journal) (hold : .returned c .stopped ∉ s.journal) :
    c = s.next ∨ ∃ w, s.callers.get? c = some (.worker w) ∧ Dead t w := by
  cases h with
  | aloof ha => exact absurd (ha.exits _ hnew rfl) hold
  | hires hev hv hw hp hd hl he => exact absurd (he _ hnew rfl) hold
  | refers hw hp hd hl he =>
    have hnext := (he _ hnew rfl).resolve_left hold
    injection hnext with hnext
    exact Or.inl hnext
  | @turns v k k' hv hf hv' hw hp hd hl he =>
    obtain ⟨hdead, c', hm, hc⟩ := (he _ hnew rfl).resolve_left hold
    injection hm with hm
    subst hm
    exact Or.inr ⟨v, hc, k', hv', hdead⟩

end WorkerStep

/-! ## Every run

What a step leaves so is so after every run: workers and passes are together, a worker that is at
its end is there for good, and a pass that a worker runs goes on until it is over or the worker is
stopped. -/

namespace WorkerBooks

theorem initial (settings : Settings) (checks : Bool) : WorkerBooks (.initial settings checks) where
  books := .initial settings checks
  staffed w n := iff_of_false (by rintro ⟨pass, ⟨⟩, -⟩) (by rintro ⟨k, ⟨⟩, -⟩)
  running hl := by cases hl

theorem step (h : WorkerBooks s) (ev : Event) : WorkerBooks (s.step ev) where
  books := h.books.run [ev]
  staffed := (step_workers h ev).staffed h.books.orderly h.staffed
  running hl := (step_workers h ev).running h hl

theorem run (h : WorkerBooks s) (es : List Event) : WorkerBooks (s.run es) := by
  induction es generalizing s with
  | nil => exact h
  | cons ev es ih => exact ih (h.step ev)

/-- A worker is in the middle of every pass that is there for it. -/
theorem refreshing (h : WorkerBooks s) (hd : s.Driven w n) : s.Refreshing w n :=
  (h.staffed w n).mp hd

theorem fate (h : WorkerBooks s) (hw : s.workers.get? w = some k) (ev : Event) :
    ∃ k', (s.step ev).workers.get? w = some k' ∧ Fate s ev w k k' :=
  (step_workers h ev).fate h.books.orderly hw

/-- **The end of a worker is for good.** -/
theorem dead_run (h : WorkerBooks s) (hw : Dead s w) (es : List Event) : Dead (s.run es) w := by
  induction es generalizing s with
  | nil => exact hw
  | cons ev es ih =>
    obtain ⟨k, hk, hdead⟩ := hw
    obtain ⟨k', hk', hf⟩ := h.fate hk ev
    exact ih (h.step ev) ⟨k', hk', hf.dead hdead⟩

/-- **A worker stays at work** until somebody asks it to stop or lets go of it, if a pass can be run
with as many calls at once as there may be. -/
theorem working_step (h : WorkerBooks s) (hpar : s.parallelism ≤ State.maxParallelism)
    (hw : s.Working w) (hstop : ¬ Stops s w ev) (hrelease : ¬ Releases s w ev) :
    (s.step ev).Working w := by
  obtain ⟨k, hk, hgoing, halive⟩ := hw
  obtain ⟨k', hk', hf⟩ := h.fate hk ev
  refine ⟨k', hk', ?_⟩
  cases hf with
  | stays => exact ⟨hgoing, halive⟩
  | asked hev => exact absurd hev hstop
  | ends hev =>
    refine absurd hev (not_or.mpr ⟨fun h => ?_, hrelease⟩)
    rw [hgoing] at h
    cases h.2
  | ticks _ _ hphase =>
    rcases hphase with rfl | ⟨-, hlt⟩ | rfl
    · exact ⟨hgoing, rfl⟩
    · exact absurd hlt (Nat.not_lt_of_le hpar)
    · exact ⟨hgoing, rfl⟩
  | rests => exact ⟨hgoing, rfl⟩

/-- A worker that is at its end runs no pass. -/
theorem not_driven (h : WorkerBooks s) (hw : Dead s w) (n : Id) : ¬ s.Driven w n := by
  intro hd
  obtain ⟨k, hk, hdead⟩ := hw
  rw [Worker.alive_of_refreshing ((h.refreshing hd).phase hk)] at hdead
  cases hdead

/-- **A pass that a worker runs goes on or comes to its end, or the worker is at work no more.** -/
theorem driven_step (h : WorkerBooks s) (hd : s.Driven w n) (ev : Event) : (s.step ev).Driven w n
    ∨ (∃ r, .passFinished n r ∈ (s.step ev).journal) ∨ ¬ (s.step ev).Working w := by
  rcases Moves.driven h.books (step_moves h.books.orderly ev) hd with hd' | ⟨p, r, -, hr⟩ | hev
  · exact Or.inl hd'
  · exact Or.inr (Or.inl ⟨r, hr⟩)
  obtain ⟨k, hk, hphase⟩ := h.refreshing hd
  obtain ⟨k', hk', hf⟩ := h.fate hk ev
  have hkept : k'.phase = .refreshing n → (s.step ev).Driven w n := fun hp =>
    ((h.step ev).staffed w n).mpr ⟨k', hk', hp⟩
  cases hf with
  | stays | asked => exact Or.inl (hkept hphase)
  | ends =>
    refine Or.inr (Or.inr ?_)
    rintro ⟨k₁, hk₁, -, halive⟩
    rw [hk', Option.some_inj] at hk₁
    rw [← hk₁] at halive
    cases halive
  | ticks _ hticks =>
    rcases Worker.phase_of_ticks hticks with hp | hp <;>
    · rw [hp] at hphase
      cases hphase
  | rests hcollect =>
    obtain ⟨p, rfl⟩ := hcollect
    cases hev

end WorkerBooks

end

end Gatekeeper.Engine

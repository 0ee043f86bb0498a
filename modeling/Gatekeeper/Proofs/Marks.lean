import Gatekeeper.Proofs.Passes

/-!
# When passes begin and end, and when workers come up

The journal marks the beginning and the end of every pass, and every worker that comes up.  Few
events can leave such a mark, and `step_marks` says which: whoever runs a pass begins it, a pass
that looks at the last of its results ends, and a worker comes up for somebody who starts the
refresh or a worker of his own.

* `State.marks` — the marks in the journal; beside it, what each part of a step adds to them.
* `Opens`, `Closes`, `Spawns` — the three ways in which a step can leave a mark.
* `started_cases`, `finished_cases`, `spawned_cases` — where a mark that is new comes from.

A step is a sequence of moves, but a mark is better looked for in the program itself: passes
begin in one place, end in one place, and workers come up in one place.  So this file does not go
by moves.  For each part of a step it is said what it does to the marks, and from that the steps
are read off event by event.
-/

set_option autoImplicit false

namespace Gatekeeper.Engine

/-- The note marks the beginning or the end of a pass, or a worker that has come up. -/
def Note.mark : Note → Bool
  | .passStarted .. | .passFinished .. | .syncSpawned _ => true
  | _ => false

namespace State

variable {s t : State}

/-- The marks in the journal, newest first. -/
def marks (s : State) : List Note := s.journal.filter Note.mark

theorem mem_marks_iff {n : Note} : n ∈ s.marks ↔ n ∈ s.journal ∧ n.mark = true := List.mem_filter

theorem marks_note_of_mark {n : Note} (h : n.mark = true) : (s.note n).marks = n :: s.marks :=
  List.filter_cons_of_pos h

theorem marks_note_of_not {n : Note} (h : n.mark = false) : (s.note n).marks = s.marks :=
  List.filter_cons_of_neg (by simp [h])

/-- Notes are added that are no marks. -/
theorem marks_append (new : List Note) (hj : t.journal = new ++ s.journal)
    (hn : ∀ n ∈ new, n.mark = false) : t.marks = s.marks := by
  have hnil : new.filter Note.mark = [] :=
    List.filter_eq_nil_iff.mpr fun n hm => by rw [hn n hm]; simp
  rw [marks, hj, List.filter_append, hnil, List.nil_append]
  rfl

theorem mark_map {α : Type} {f : α → Note} (hf : ∀ x, (f x).mark = false) (l : List α) :
    ∀ n ∈ l.map f, n.mark = false := by
  intro n hn
  obtain ⟨x, -, rfl⟩ := List.mem_map.mp hn
  exact hf x

theorem mark_map_reverse {α : Type} {f : α → Note} (hf : ∀ x, (f x).mark = false) (l : List α) :
    ∀ n ∈ (l.map f).reverse, n.mark = false := fun n hn =>
  mark_map hf l n (List.mem_reverse.mp hn)

/-! ## Parts of steps that leave no mark

Only two places of the program write marks: where a pass begins or ends, and where a worker comes
up.  Everything else is listed here, part by part, so that the cases below need not look into it. -/

@[simp] theorem marks_finishAll (s : State) (cs : List Id) (o : Id → Outcome) :
    (s.finishAll cs o).marks = s.marks := by
  rw [finishAll_eq]
  exact marks_append _ rfl (mark_map_reverse (fun _ => rfl) cs)

@[simp] theorem marks_dropCall (s : State) (id : Id) : (s.dropCall id).marks = s.marks := by
  rw [dropCall]
  split <;> rfl

@[simp] theorem marks_dropPass (s : State) (n : Id) : (s.dropPass n).marks = s.marks := by
  rw [dropPass_eq]
  exact marks_append _ rfl (mark_map_reverse (fun _ => rfl) _)

@[simp] theorem marks_endWorker (s : State) (w : Id) : (s.endWorker w).marks = s.marks :=
  marks_finishAll _ _ _

@[simp] theorem marks_crashWorker (s : State) (w : Id) : (s.crashWorker w).marks = s.marks := by
  rw [crashWorker, noteEach_eq, marks_finishAll]
  exact marks_append (s := s.setPhase w .crashed) _ rfl (mark_map (fun _ => rfl) _)

@[simp] theorem marks_reportPass (s : State) (d : Driver) (r : Report) :
    (s.reportPass d r).marks = s.marks := by
  cases d <;> rfl

theorem marks_digest (s : State) (n : Id) (l : Landing) : (s.digest n l).marks = s.marks := by
  rw [digest]
  split <;> rfl

theorem marks_settle (s : State) (id : Id) (call : Call) (r : Reply PrivilegeSet) :
    (s.settle id call r).marks = s.marks := by
  have hnotes : ∀ p o, ∀ n ∈ r.notes p o, n.mark = false := by
    intro p o n hn
    obtain ⟨S, -, rfl⟩ := Reply.mem_notes_iff.mp hn
    rfl
  rw [settle]
  split
  · rw [settleFetch_eq]
    refine marks_append _ (List.append_assoc ..).symm fun n hn => ?_
    rcases List.mem_append.mp hn with hn | hn
    · exact mark_map_reverse (fun _ => rfl) _ n hn
    · exact hnotes _ _ n hn
  · rw [settleUpdate_eq]
    exact marks_append (_ :: r.notes _ _) rfl (List.forall_mem_cons.mpr ⟨rfl, hnotes _ _⟩)
  · rw [settleDirect_eq]
    rfl
  · rfl

theorem marks_joinFetch (s : State) (c : Id) (e : Entity) (p : Principal) (a : Action) :
    (s.joinFetch c e p a).marks = s.marks := by
  rw [joinFetch]
  dsimp only
  split <;> rfl

theorem marks_enforce (s : State) (e : Entity) (p : Principal) (a : Action) :
    (s.enforce e p a).marks = s.marks := by
  rw [enforce]
  split
  · rfl
  · split
    · rfl
    · split
      · rfl
      · split
        · exact marks_joinFetch ..
        · rfl

theorem marks_update (s : State) (p : Principal) : (s.update p).marks = s.marks := by
  rw [update]
  split <;> rfl

theorem marks_stopWorker (s : State) (c w : Id) : (s.stopWorker c w).marks = s.marks := by
  rw [stopWorker]
  split
  · rfl
  · split <;> rfl

theorem marks_abortWorker (s : State) (w : Id) : (s.abortWorker w).marks = s.marks := by
  rw [abortWorker]
  split
  · rfl
  · split <;> simp

theorem marks_shutdown (s : State) : s.shutdown.marks = s.marks := by
  rw [shutdown]
  split
  · exact marks_stopWorker _ _ _
  · rfl

theorem marks_drop (s : State) : s.drop.marks = s.marks := by
  rw [drop]
  split
  · exact marks_abortWorker _ _
  · rfl

theorem marks_cancel (s : State) (c : Id) : (s.cancel c).marks = s.marks := by
  rw [cancel]
  split
  · rfl
  · dsimp only
    split
    · exact marks_dropCall _ _
    · exact marks_dropPass _ _
    · rfl
    · rfl

theorem marks_answer (s : State) (id : Id) (r : Reply PrivilegeSet) :
    (s.answer id r).marks = s.marks := by
  rw [answer]
  split
  · split
    · exact marks_settle _ _ _ _
    · rfl
  · rfl

theorem marks_verdict (s : State) (id : Id) (r : Reply Bool) :
    (s.verdict id r).marks = s.marks := by
  rw [verdict]
  split
  · split
    · rw [settleDirect_eq]
      rfl
    · rfl
  · rfl

theorem marks_expire (s : State) (id : Id) : (s.expire id).marks = s.marks := by
  rw [expire]
  split
  · split
    · exact marks_settle _ _ _ _
    · rfl
  · rfl

theorem marks_launch (s : State) (n : Id) (p : Principal) : (s.launch n p).marks = s.marks := by
  rw [launch]
  split
  · split <;> rfl
  · rfl

/-! ## How a pass begins

To begin a pass is to draw a number for it, to note its beginning, and then one of three: it may
make more calls at once than there can be permits and takes down whoever runs it, it may have
nobody to ask for and be over at once, or it goes on.  `beginPass_cases` is this case
distinction, with the state that each case leads to. -/

/-- A number is drawn for a pass, and its beginning is noted. -/
def draw (s : State) : State :=
  { s with next := s.next + 1 }.note (.passStarted s.next s.cache.size)

/-- Whoever runs a pass crashes. -/
def takeDown (s : State) : Driver → State
  | .caller c => s.finish c .crashed
  | .worker w => s.crashWorker w

/-- Whoever runs a pass waits for its end. -/
def attendPass (s : State) (n : Id) : Driver → State
  | .caller c => s.wait c (.pass n)
  | .worker w => s.setPhase w (.refreshing n)

section

variable (ha : s.settings.cachingActive = true)

include ha

/-- A pass with too many calls at once takes whoever runs it down. -/
theorem beginPass_crash (hlt : maxParallelism < s.parallelism) (d : Driver) :
    s.beginPass d = s.draw.takeDown d := by
  rw [beginPass]
  simp only [ha, Bool.not_true, Bool.false_eq_true, if_false]
  refine (if_pos hlt).trans ?_
  cases d <;> rfl

/-- A pass over nobody is over at once. -/
theorem beginPass_over (hle : ¬ maxParallelism < s.parallelism) (hk : s.cache.keys = [])
    (d : Driver) : s.beginPass d = (s.draw.note (.passFinished s.next {})).reportPass d {} := by
  have hempty : s.cache.keys.isEmpty = true := List.isEmpty_iff.mpr hk
  rw [beginPass]
  simp only [ha, Bool.not_true, Bool.false_eq_true, if_false]
  exact (if_neg hle).trans (if_pos hempty)

theorem beginPass_opens (hle : ¬ maxParallelism < s.parallelism) (hk : s.cache.keys ≠ [])
    (d : Driver) : s.beginPass d = (s.openPass d).attendPass s.next d := by
  have hempty : ¬ s.cache.keys.isEmpty = true := mt List.isEmpty_iff.mp hk
  rw [beginPass]
  simp only [ha, Bool.not_true, Bool.false_eq_true, if_false]
  refine (if_neg hle).trans ((if_neg hempty).trans ?_)
  cases d <;> rfl

/-- A pass that is begun cannot be run, or is over at once, or goes on. -/
theorem beginPass_cases (d : Driver) :
    (maxParallelism < s.parallelism ∧ s.beginPass d = s.draw.takeDown d)
      ∨ (s.cache.keys = []
        ∧ s.beginPass d = (s.draw.note (.passFinished s.next {})).reportPass d {})
      ∨ (s.cache.keys ≠ [] ∧ s.beginPass d = (s.openPass d).attendPass s.next d) := by
  by_cases hlt : maxParallelism < s.parallelism
  · exact Or.inl ⟨hlt, beginPass_crash ha hlt d⟩
  · by_cases hk : s.cache.keys = []
    · exact Or.inr (Or.inl ⟨hk, beginPass_over ha hlt hk d⟩)
    · exact Or.inr (Or.inr ⟨hk, beginPass_opens ha hlt hk d⟩)

end

@[simp] theorem marks_draw (s : State) :
    s.draw.marks = .passStarted s.next s.cache.size :: s.marks := rfl

@[simp] theorem marks_takeDown (s : State) (d : Driver) : (s.takeDown d).marks = s.marks := by
  cases d with
  | caller c => rfl
  | worker w => exact marks_crashWorker s w

@[simp] theorem marks_attendPass (s : State) (n : Id) (d : Driver) :
    (s.attendPass n d).marks = s.marks := by
  cases d <;> rfl

/-! ### What else a beginning leaves alone

A pass that begins draws one number, and adds a pass only if it goes on.  A worker that it takes
down changes workers and callers and nothing else. -/

/-- A worker that crashes leaves everything but workers and callers alone. -/
theorem crashWorker_eq (s : State) (w : Id) : s.crashWorker w =
    { s with
      workers := s.workers.update w ({ · with phase := .crashed })
      callers := s.callers.filter fun c _ => decide (c ∉ s.workerWaiters w)
      journal := ((s.workerWaiters w).map fun c => Note.returned c .stopped).reverse
        ++ ((s.workerWaiters w).map (fun _ => Note.syncCrashed w) ++ s.journal) } := by
  rw [crashWorker, noteEach_eq, finishAll_eq]
  rfl

theorem journal_crashWorker (s : State) (w : Id) : ∃ new,
    (s.crashWorker w).journal = new ++ s.journal
      ∧ ∀ n ∈ new, (∃ c, n = .returned c .stopped) ∨ n = .syncCrashed w := by
  rw [crashWorker_eq]
  refine ⟨_, (List.append_assoc ..).symm, fun n hn => ?_⟩
  rcases List.mem_append.mp hn with hn | hn
  · obtain ⟨c, -, rfl⟩ := List.mem_map.mp (List.mem_reverse.mp hn)
    exact Or.inl ⟨c, rfl⟩
  · obtain ⟨c, -, rfl⟩ := List.mem_map.mp hn
    exact Or.inr rfl

/-- A number is drawn for every pass. -/
theorem next_beginPass (ha : s.settings.cachingActive = true) (d : Driver) :
    s.next < (s.beginPass d).next := by
  rcases beginPass_cases ha d with ⟨-, hs⟩ | ⟨-, hs⟩ | ⟨-, hs⟩
  · rw [hs]
    cases d with
    | caller c => exact Nat.lt_succ_self _
    | worker w =>
      rw [takeDown, crashWorker_eq]
      exact Nat.lt_succ_self _
  · rw [hs]
    cases d <;> exact Nat.lt_succ_self _
  · rw [hs]
    cases d <;> exact Nat.lt_succ_self _

/-- Unless a pass goes on, there are no more passes than before. -/
theorem passes_beginPass (ha : s.settings.cachingActive = true) (d : Driver) :
    (s.beginPass d).passes = s.passes
      ∨ s.cache.keys ≠ []
        ∧ (s.beginPass d).passes = s.passes.put s.next ⟨d, s.cache.keys, [], [], {}⟩ := by
  rcases beginPass_cases ha d with ⟨-, hs⟩ | ⟨-, hs⟩ | ⟨hk, hs⟩
  · rw [hs]
    cases d with
    | caller c => exact Or.inl rfl
    | worker w =>
      rw [takeDown, crashWorker_eq]
      exact Or.inl rfl
  · rw [hs]
    cases d <;> exact Or.inl rfl
  · rw [hs]
    cases d <;> exact Or.inr ⟨hk, rfl⟩

/-- The beginning of a pass is marked, and so is its end if it is over at once. -/
theorem marks_beginPass (ha : s.settings.cachingActive = true) (d : Driver) :
    (s.beginPass d).marks = .passStarted s.next s.cache.size :: s.marks
      ∨ s.cache.keys = [] ∧ (s.beginPass d).marks
        = .passFinished s.next {} :: .passStarted s.next s.cache.size :: s.marks := by
  rcases beginPass_cases ha d with ⟨-, hs⟩ | ⟨hk, hs⟩ | ⟨-, hs⟩
  · exact Or.inl (by rw [hs, marks_takeDown, marks_draw])
  · exact Or.inr ⟨hk, by rw [hs, marks_reportPass]; rfl⟩
  · exact Or.inl (by rw [hs, marks_attendPass]; rfl)

theorem marks_beginPass_idle (ha : s.settings.cachingActive = false) (d : Driver) :
    (s.beginPass d).marks = s.marks := by
  have hactive : (!s.settings.cachingActive) = true := by
    rw [ha]
    rfl
  rw [beginPass, if_pos hactive, marks_reportPass]

end State

/-! ## Where a mark can come from

`Opens`, `Closes` and `Spawns` describe the three ways together with the state before: who runs
the pass, which result is the last, which worker comes up.  `step_marks` says that there is no
other, and the lemmas after it read it backwards, from a mark in the journal to the event that
left it. -/

section

variable {s u : State} {ev : Event}

/-- The event has `d` begin a pass, in the state `u` that is left by what comes before. -/
structure Opens (s : State) (ev : Event) (d : Driver) (u : State) : Prop where
  move : Move ev s u
  drives : u.Drives d
  cache : u.cache = s.cache
  passes : u.passes = s.passes
  marks : u.marks = s.marks
  begins : s.step ev = u.beginPass d
  driver : (ev = .iterate ∧ s.dropped = false ∧ d = .caller s.next)
    ∨ ∃ w k, ev = .wake w ∧ d = .worker w ∧ s.workers.get? w = some k ∧ k.stopping = false
      ∧ k.alive = true

/-- The event has the pass look at `l`, the last of its results. -/
structure Closes (s : State) (ev : Event) (n : Id) (pass : Pass) (l : Landing) : Prop where
  event : ev = .collect n l.principal
  present : s.passes.get? n = some pass
  free : s.halted pass = false
  landed : l ∈ pass.landed
  complete : (pass.look l).complete = true
  step : s.step ev = ({ s.digest n l with passes := (s.digest n l).passes.erase n }.note
    (.passFinished n (pass.look l).report)).reportPass pass.driver (pass.look l).report

/-- The event has the worker come up. -/
structure Spawns (s : State) (ev : Event) (w : Id) : Prop where
  marks : (s.step ev).marks = .syncSpawned w :: s.marks
  event : (∃ period, ev = .spawn period)
    ∨ ev = .start true ∧ s.dropped = false ∧ s.lifecycle = .idle

theorem Closes.marks {n : Id} {pass : Pass} {l : Landing} (h : Closes s ev n pass l) :
    (s.step ev).marks = .passFinished n (pass.look l).report :: s.marks := by
  rw [h.step, State.marks_reportPass, State.marks_note_of_mark rfl]
  exact congrArg _ (s.marks_digest n l)

namespace State

/-! ### Event by event

A worker that is woken, a refresh that is started, a worker that is spawned and a result that is
looked at are the events in which a mark can be left. -/

/-- A worker that runs does nothing, or takes a tick, or ends because it has been asked to. -/
theorem wake_cases (s : State) (w : Id) : s.wake w = s
    ∨ (∃ k due, s.workers.get? w = some k ∧ k.stopping = false
      ∧ (k.phase = .fresh ∨ k.phase = .idle) ∧ s.wake w = s.takeTick w k due)
    ∨ ∃ k, s.workers.get? w = some k ∧ k.stopping = true
      ∧ ((∀ n, k.phase ≠ .refreshing n) ∧ s.wake w = (s.note (.syncStopped w)).endWorker w
        ∨ ∃ n, k.phase = .refreshing n
          ∧ s.wake w
            = (((s.note (.passAbandoned n)).dropPass n).note (.syncStopped w)).endWorker w) := by
  rw [wake]
  cases hw : s.workers.get? w with
  | none => exact Or.inl rfl
  | some k =>
    dsimp only
    split
    · rename_i hp
      cases hk : k.stopping with
      | true => exact Or.inr (Or.inr ⟨k, rfl, hk, Or.inl ⟨by simp [hp], rfl⟩⟩)
      | false => exact Or.inr (Or.inl ⟨k, _, rfl, hk, Or.inl hp, rfl⟩)
    · rename_i hp
      cases hk : k.stopping with
      | true => exact Or.inr (Or.inr ⟨k, rfl, hk, Or.inl ⟨by simp [hp], rfl⟩⟩)
      | false =>
        by_cases hdue : k.due ≤ s.nowNanos
        · exact Or.inr (Or.inl ⟨k, _, rfl, hk, Or.inr hp, if_pos hdue⟩)
        · exact Or.inl (if_neg hdue)
    · rename_i n hp
      cases hk : k.stopping with
      | true => exact Or.inr (Or.inr ⟨k, rfl, hk, Or.inr ⟨n, hp, rfl⟩⟩)
      | false => exact Or.inl rfl
    · exact Or.inl rfl
    · exact Or.inl rfl

/-- A worker that runs begins a pass, or leaves no mark. -/
theorem marks_wake (h : Orderly s) (w : Id) :
    (s.wake w).marks = s.marks ∨ ∃ u, Opens s (.wake w) (.worker w) u := by
  rcases wake_cases s w with hs | ⟨k, due, hw, hk, hphase, hs⟩ | ⟨k, -, -, ⟨-, hs⟩ | ⟨n, -, hs⟩⟩
  · exact Or.inl (by rw [hs])
  · have hq : Quiet s { s with workers := s.workers.put w { k with
        due := (if due + lateness < s.nowNanos then s.nowNanos else due) + k.period.nanos
        phase := .idle } } :=
      .rework (.put h _ hw rfl (Nat.le_refl _) id fun n hn => by cases hn)
    exact Or.inr ⟨_, .quiet hq, ⟨_, Table.get?_put_self⟩, rfl, rfl, rfl, hs,
      Or.inr ⟨w, k, rfl, rfl, hw, hk, by rcases hphase with h | h <;> rw [Worker.alive, h]⟩⟩
  · refine Or.inl ?_
    rw [hs, marks_endWorker]
    rfl
  · refine Or.inl ?_
    rw [hs, marks_endWorker, marks_note_of_not rfl, marks_dropPass]
    rfl

/-- Whoever starts the refresh leaves no mark, or has a worker come up. -/
theorem marks_start (hd : s.dropped = false) (scheduler : Bool) :
    (s.start scheduler).marks = s.marks ∨ ∃ w, Spawns s (.start scheduler) w := by
  have hstep := step_start hd scheduler
  generalize hu : (if !s.settings.authorization && s.settings.caching
    then (s.enter .start).note .cachingUnused else s.enter .start) = u
  have hlife : u.lifecycle = s.lifecycle := by
    rw [← hu]
    split <;> rfl
  have hmarks : u.marks = s.marks := by
    rw [← hu]
    split <;> rfl
  rw [start_eq, hu] at hstep ⊢
  rw [startFor] at hstep ⊢
  split
  · exact Or.inl hmarks
  · rename_i hactive
    rw [if_neg hactive] at hstep
    split
    · exact Or.inl hmarks
    · exact Or.inl hmarks
    · rename_i hl
      simp only [hl] at hstep
      cases scheduler with
      | false => exact Or.inl hmarks
      | true =>
        simp only [Bool.not_true, Bool.false_eq_true, if_false] at hstep ⊢
        split
        · exact Or.inl hmarks
        · rename_i hz
          rw [if_neg hz] at hstep
          refine Or.inr ⟨u.next, ?_, Or.inr ⟨rfl, hd, hlife ▸ hl⟩⟩
          rw [hstep, ← hmarks]
          rfl

theorem marks_spawn (s : State) (period : Span) :
    (s.spawn period).marks = s.marks ∨ Spawns s (.spawn period) (s.next + 1) := by
  have hstep : s.step (.spawn period) = s.spawn period := rfl
  rw [spawn] at hstep ⊢
  split
  · exact Or.inl rfl
  · rename_i hz
    rw [if_neg hz] at hstep
    exact Or.inr ⟨by rw [hstep]; rfl, Or.inl ⟨period, rfl⟩⟩

/-- A pass that looks at a result comes to its end, or leaves no mark. -/
theorem marks_collect (s : State) (n : Id) (p : Principal) :
    (s.collect n p).marks = s.marks ∨ ∃ pass l, Closes s (.collect n p) n pass l := by
  rcases collect_cases s n p with hs | ⟨pass, l, hp, hh, hf⟩
  · exact Or.inl (by rw [hs])
  · have hl := List.mem_of_find?_eq_some hf
    obtain rfl : l.principal = p := by simpa using List.find?_some hf
    have hs := collect_eq hp hh hf
    cases hc : (pass.look l).complete with
    | true =>
      rw [hc, if_pos rfl] at hs
      exact Or.inr ⟨pass, l, rfl, hp, hh, hl, hc, hs⟩
    | false =>
      rw [hc, if_neg Bool.false_ne_true] at hs
      exact Or.inl (by rw [hs]; exact marks_digest s n l)

end State

/-! ### Steps

No other event leaves any. -/

/-- **A step leaves a mark only if a pass begins or ends in it, or a worker comes up.** -/
theorem step_marks (h : Orderly s) (ev : Event) : (s.step ev).marks = s.marks
    ∨ (∃ d u, Opens s ev d u) ∨ (∃ n pass l, Closes s ev n pass l) ∨ ∃ w, Spawns s ev w := by
  by_cases hasks : s.dropped = true ∧ ev.asks = true
  · exact Or.inl (by rw [step_of_dropped hasks.1 hasks.2])
  have hd : ev.asks = true → s.dropped = false := fun ha => by simpa [ha] using hasks
  cases ev with
  | enforce e p a =>
    rw [State.step, hd rfl, if_neg Bool.false_ne_true]
    exact Or.inl (s.marks_enforce e p a)
  | update p =>
    rw [State.step, hd rfl, if_neg Bool.false_ne_true]
    exact Or.inl (s.marks_update p)
  | iterate =>
    exact Or.inr (Or.inl ⟨.caller s.next, s.enter .iterate, .enter .iterate,
      h.asking_enter .iterate, rfl, rfl, rfl, step_iterate (hd rfl),
      Or.inl ⟨rfl, hd rfl, rfl⟩⟩)
  | start scheduler =>
    rcases State.marks_start (hd rfl) scheduler with hs | hs
    · exact Or.inl (by rw [step_start (hd rfl), hs])
    · exact Or.inr (Or.inr (Or.inr hs))
  | shutdown => exact Or.inl (by rw [step_shutdown (hd rfl), State.marks_shutdown])
  | invalidate => exact Or.inl (by rw [step_invalidate (hd rfl)]; rfl)
  | drop => exact Or.inl (by rw [step_drop (hd rfl), State.marks_drop])
  | spawn period =>
    rcases s.marks_spawn period with hs | hs
    · exact Or.inl hs
    · exact Or.inr (Or.inr (Or.inr ⟨_, hs⟩))
  | stop w => exact Or.inl ((s.enter (.stop w)).marks_stopWorker s.next w)
  | release w => exact Or.inl (s.marks_abortWorker w)
  | write p S => exact Or.inl rfl
  | clear => exact Or.inl rfl
  | cancel c => exact Or.inl (s.marks_cancel c)
  | answer id r => exact Or.inl (s.marks_answer id r)
  | verdict id r => exact Or.inl (s.marks_verdict id r)
  | expire id => exact Or.inl (s.marks_expire id)
  | launch n p => exact Or.inl (s.marks_launch n p)
  | collect n p =>
    rcases s.marks_collect n p with hs | hs
    · exact Or.inl hs
    · exact Or.inr (Or.inr (Or.inl ⟨n, hs⟩))
  | wake w =>
    rcases State.marks_wake h w with hs | hs
    · exact Or.inl hs
    · exact Or.inr (Or.inl ⟨_, hs⟩)
  | elapse millis => exact Or.inl rfl

/-- Where there is a cache the beginning of a pass is marked, and so is its end if it is over at
once. -/
theorem Opens.marks_step {d : Driver} (ho : Opens s ev d u) : (s.step ev).marks = s.marks
    ∨ s.settings.cachingActive = true
      ∧ ((s.step ev).marks = .passStarted u.next s.cache.size :: s.marks
        ∨ s.cache.keys = [] ∧ (s.step ev).marks
          = .passFinished u.next {} :: .passStarted u.next s.cache.size :: s.marks) := by
  rw [ho.begins, ← ho.marks, ← ho.cache, ← ho.move.settings]
  cases ha : u.settings.cachingActive with
  | false => exact Or.inl (State.marks_beginPass_idle ha d)
  | true => exact Or.inr ⟨rfl, State.marks_beginPass ha d⟩

/-- The number of a pass whose beginning is marked is the one that was drawn for it. -/
theorem started_cases (h : Orderly s) {n : Id} {k : Nat} (hnew : .passStarted n k ∉ s.journal)
    (hs : .passStarted n k ∈ (s.step ev).journal) : ∃ d u, Opens s ev d u
      ∧ s.settings.cachingActive = true ∧ n = u.next ∧ k = s.cache.size := by
  have hmark : .passStarted n k ∈ (s.step ev).marks := State.mem_marks_iff.mpr ⟨hs, rfl⟩
  have hold : .passStarted n k ∉ s.marks := fun hm => hnew (State.mem_marks_iff.mp hm).1
  rcases step_marks h ev with he | ⟨d, u, ho⟩ | ⟨m, pass, l, hc⟩ | ⟨w, hw⟩
  · exact absurd (he ▸ hmark) hold
  · rcases ho.marks_step with hm | ⟨ha, hm | ⟨-, hm⟩⟩
    · exact absurd (hm ▸ hmark) hold
    · rw [hm] at hmark
      injection (List.mem_cons.mp hmark).resolve_right hold with hn hk
      exact ⟨d, u, ho, ha, hn, hk⟩
    · rw [hm] at hmark
      rcases List.mem_cons.mp hmark with hm | hm
      · cases hm
      · injection (List.mem_cons.mp hm).resolve_right hold with hn hk
        exact ⟨d, u, ho, ha, hn, hk⟩
  · rw [hc.marks] at hmark
    cases (List.mem_cons.mp hmark).resolve_right hold
  · rw [hw.marks] at hmark
    cases (List.mem_cons.mp hmark).resolve_right hold

/-- A pass whose end is marked has looked at the last of its results, or is over at once because
nobody was in the cache. -/
theorem finished_cases (h : Orderly s) {n : Id} {r : Report} (hnew : .passFinished n r ∉ s.journal)
    (hs : .passFinished n r ∈ (s.step ev).journal) :
    (∃ pass l, Closes s ev n pass l ∧ r = (pass.look l).report)
      ∨ ∃ d u, Opens s ev d u ∧ s.settings.cachingActive = true ∧ n = u.next ∧ r = {}
        ∧ s.cache.keys = [] := by
  have hmark : .passFinished n r ∈ (s.step ev).marks := State.mem_marks_iff.mpr ⟨hs, rfl⟩
  have hold : .passFinished n r ∉ s.marks := fun hm => hnew (State.mem_marks_iff.mp hm).1
  rcases step_marks h ev with he | ⟨d, u, ho⟩ | ⟨m, pass, l, hc⟩ | ⟨w, hw⟩
  · exact absurd (he ▸ hmark) hold
  · rcases ho.marks_step with hm | ⟨ha, hm | ⟨hk, hm⟩⟩
    · exact absurd (hm ▸ hmark) hold
    · rw [hm] at hmark
      cases (List.mem_cons.mp hmark).resolve_right hold
    · rw [hm] at hmark
      rcases List.mem_cons.mp hmark with hm | hm
      · injection hm with hn hr
        exact Or.inr ⟨d, u, ho, ha, hn, hr, hk⟩
      · cases (List.mem_cons.mp hm).resolve_right hold
  · rw [hc.marks] at hmark
    injection (List.mem_cons.mp hmark).resolve_right hold with hn hr
    subst hn
    exact Or.inl ⟨pass, l, hc, hr⟩
  · rw [hw.marks] at hmark
    cases (List.mem_cons.mp hmark).resolve_right hold

end

end Gatekeeper.Engine

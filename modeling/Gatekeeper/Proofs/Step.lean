import Gatekeeper.Proofs.Numbers

/-!
# Every step is a sequence of moves

What an event does to an engine is taken apart into moves, part by part and in the order in which
the parts are made.  The main results are `step_moves` and, for whole runs, `run_induction`: a
property that the moves keep holds wherever a run of the engine can lead.

Every operation of the engine is gone through once, here, and after this file nobody unfolds one
in order to prove an invariant.  An operation is a sequence of moves because it is written as a
sequence of small changes; what has to be shown is that the condition of each move holds in the
state in which it is made.  Most conditions say that a caller is still asking, or that a number
has been drawn.
-/

set_option autoImplicit false

namespace Gatekeeper.Engine

variable {ev : Event} {s t u : State}

theorem Moves.orderly (h : Orderly s) (m : Moves ev s t) : Orderly t := by
  induction m with
  | refl => exact h
  | tail _ m ih => exact m.orderly ih

/-! ## Quiet changes

Much of what happens to an engine concerns neither callers, nor calls, nor the cache: the clock
runs, a worker goes to sleep or wakes up, a remark is written into the journal.  All of that is
one kind of move, and these lemmas say which parts of a step are of that kind, so that nobody
after this file has to look at them one by one. -/

namespace WorkersKept

theorem refl (h : Orderly s) (ht : t.workers = s.workers) (hn : s.next ≤ t.next) :
    WorkersKept s t where
  kept hw := ⟨_, ht ▸ hw, id⟩
  known hw := Nat.lt_of_lt_of_le (h.workers (ht ▸ hw)) hn
  refreshing hw hk := ⟨_, ht ▸ hw, hk⟩

/-- One worker goes on to something else than a pass, or stays with what it does. -/
theorem put (h : Orderly s) (k' : Worker) {w : Id} {k : Worker} (hw : s.workers.get? w = some k)
    (ht : t.workers = s.workers.put w k') (hn : s.next ≤ t.next)
    (hs : k.stopping = true → k'.stopping = true)
    (hp : ∀ n, k'.phase = .refreshing n → k.phase = .refreshing n) : WorkersKept s t where
  kept {v j} hv := by
    rw [ht, Table.get?_put]
    split
    · rename_i he
      rw [he, hw, Option.some_inj] at hv
      exact ⟨k', rfl, hv ▸ hs⟩
    · exact ⟨j, hv, id⟩
  known {v j} hv := by
    rw [ht, Table.get?_put_eq_some_iff] at hv
    rcases hv with ⟨rfl, -⟩ | ⟨-, hv⟩
    · exact Nat.lt_of_lt_of_le (h.workers hw) hn
    · exact Nat.lt_of_lt_of_le (h.workers hv) hn
  refreshing {v j n} hv hj := by
    rw [ht, Table.get?_put_eq_some_iff] at hv
    rcases hv with ⟨rfl, rfl⟩ | ⟨-, hv⟩
    · exact ⟨k, hw, hp n hj⟩
    · exact ⟨j, hv, hj⟩

end WorkersKept

namespace Quiet

/-- Notes are added that tell nothing of callers, calls and the cache. -/
theorem notes (h : Orderly s) (new : List Note)
    (hr : ∀ n ∈ new, n.remark = true ∧ ∀ i ∈ n.ids, i < s.next) :
    Quiet s { s with journal := new ++ s.journal } where
  settings := rfl
  checks := rfl
  cache := rfl
  calls := rfl
  fetches := rfl
  callers := rfl
  passes := rfl
  next := Nat.le_refl _
  now := Nat.le_refl _
  workers := .refl h rfl (Nat.le_refl _)
  journal := ⟨new, rfl, hr⟩

theorem note (h : Orderly s) {n : Note} (hr : n.remark = true) (hi : n.ids = []) :
    Quiet s (s.note n) := by
  refine notes h [n] fun m hm => ?_
  rw [List.mem_singleton.mp hm, hi]
  exact ⟨hr, fun i hi => absurd hi List.not_mem_nil⟩

/-- A change of the workers alone. -/
theorem rework {workers : Table Id Worker} (hw : WorkersKept s { s with workers := workers }) :
    Quiet s { s with workers := workers } where
  settings := rfl
  checks := rfl
  cache := rfl
  calls := rfl
  fetches := rfl
  callers := rfl
  passes := rfl
  next := Nat.le_refl _
  now := Nat.le_refl _
  workers := hw
  journal := ⟨[], rfl, fun _ h => absurd h List.not_mem_nil⟩

/-- A change of the clock, of where the engine stands in its life, or of whether it is gone. -/
theorem circumstance (h : Orderly s) {now : Nat} (hn : s.now ≤ now) (lifecycle : Lifecycle)
    (dropped : Bool) :
    Quiet s { s with now := now, lifecycle := lifecycle, dropped := dropped } where
  settings := rfl
  checks := rfl
  cache := rfl
  calls := rfl
  fetches := rfl
  callers := rfl
  passes := rfl
  next := Nat.le_refl _
  now := hn
  workers := .refl h rfl (Nat.le_refl _)
  journal := ⟨[], rfl, fun _ h => absurd h List.not_mem_nil⟩

theorem setPhase (h : Orderly s) (w : Id) {phase : Phase} (hp : ∀ n, phase ≠ .refreshing n) :
    Quiet s (s.setPhase w phase) := by
  refine rework ?_
  rw [Table.update]
  cases hw : s.workers.get? w with
  | none => exact .refl h rfl (Nat.le_refl _)
  | some k => exact .put h _ hw rfl (Nat.le_refl _) id fun n hn => absurd hn (hp n)

theorem addWorker (h : Orderly s) (period : Span) : Quiet s (s.addWorker period) where
  settings := rfl
  checks := rfl
  cache := rfl
  calls := rfl
  fetches := rfl
  callers := rfl
  passes := rfl
  next := Nat.le_succ _
  now := Nat.le_refl _
  workers := {
    kept := fun {w k} hw => by
      have hne : w ≠ s.next := Nat.ne_of_lt (h.workers hw)
      exact ⟨k, (Table.get?_put_of_ne hne).trans hw, id⟩
    known := fun {w k} hw => by
      rcases Table.get?_put_eq_some_iff.mp hw with ⟨rfl, -⟩ | ⟨-, hw⟩
      · exact Nat.lt_succ_self _
      · exact Nat.lt_succ_of_lt (h.workers hw)
    refreshing := fun {w k n} hw hk => by
      rcases Table.get?_put_eq_some_iff.mp hw with ⟨-, rfl⟩ | ⟨-, hw⟩
      · cases hk
      · exact ⟨k, hw, hk⟩ }
  journal := by
    refine ⟨[.syncSpawned s.next], rfl, fun n hn => ?_⟩
    rw [List.mem_singleton.mp hn]
    exact ⟨rfl, fun i hi => absurd hi List.not_mem_nil⟩

/-- A pass is begun of which nothing comes. -/
theorem draw (h : Orderly s) (count : Nat) :
    Quiet s ({ s with next := s.next + 1 }.note (.passStarted s.next count)) where
  settings := rfl
  checks := rfl
  cache := rfl
  calls := rfl
  fetches := rfl
  callers := rfl
  passes := rfl
  next := Nat.le_succ _
  now := Nat.le_refl _
  workers := .refl h rfl (Nat.le_succ _)
  journal := by
    refine ⟨[.passStarted s.next count], rfl, fun n hn => ?_⟩
    rw [List.mem_singleton.mp hn]
    refine ⟨rfl, fun i hi => ?_⟩
    rw [List.mem_singleton.mp hi]
    exact Nat.lt_succ_self _

end Quiet

/-- Somebody who has asked notices nothing of a quiet change. -/
theorem Asking.quiet {c : Id} {r : Request} (h : Asking s c r) (hq : Quiet s t) :
    Asking t c r := by
  obtain ⟨new, he, hnew⟩ := hq.journal
  refine ⟨?_, ?_, fun n hn hc => ?_⟩
  · rw [he]
    exact List.mem_append_right _ h.called
  · rw [hq.callers]
    exact h.idle
  · rw [he] at hn
    rcases List.mem_append.mp hn with hn | hn
    · rw [Note.caller?_of_remark (hnew n hn).1] at hc
      cases hc
    · exact h.silent n hn hc

/-! ## Workers end

When a worker ends, however it ends, those who wait for it are told.  In the list of callers they
stand behind each other, so its end is one quiet change and as many moves as there are callers.
A worker that is in the middle of a pass has the pass dropped first.

`Drives` says who may begin a pass: a caller who has asked for one, or a worker that is there.
What the two have in common ends with it, since a caller waits for its pass in the table of callers
and a worker in its own phase. -/

namespace State

/-- The callers in a list, who wait for the end of a worker, are told one after the other. -/
theorem finishAll_moves {w : Id} {l : List Id} (hl : l.Nodup)
    (h : ∀ c ∈ l, s.callers.get? c = some (.worker w)) :
    Moves ev s (s.finishAll l fun _ => .stopped) := by
  induction l generalizing s with
  | nil => exact .refl
  | cons c l ih =>
    rw [List.nodup_cons] at hl
    refine .head (.release (h c List.mem_cons_self)) (ih hl.2 fun c' hc' => ?_)
    have hne : c' ≠ c := fun e => hl.1 (e ▸ hc')
    rw [finish, State.note, Table.get?_erase_of_ne hne]
    exact h c' (List.mem_cons_of_mem _ hc')

theorem endWorker_moves (h : Orderly s) (w : Id) : Moves ev s (s.endWorker w) := by
  have hp : Quiet s (s.setPhase w .ended) := .setPhase h w fun n e => by cases e
  refine .head (.quiet hp) ?_
  exact finishAll_moves (workerWaiters_nodup s w) fun c hc => mem_workerWaiters_iff.mp hc

theorem noteEach_eq {α : Type} (n : Note) (l : List α) (s : State) :
    l.foldl (fun s _ => s.note n) s = { s with journal := l.map (fun _ => n) ++ s.journal } := by
  induction l generalizing s with
  | nil => rfl
  | cons x l ih =>
    rw [List.foldl_cons, ih, List.map_cons]
    have hr : l.map (fun _ => n) ++ n :: s.journal = n :: (l.map (fun _ => n) ++ s.journal) := by
      rw [List.map_const', List.append_cons, ← List.replicate_succ', List.replicate_succ,
        List.cons_append]
    rw [note, hr, List.cons_append]

theorem crashWorker_moves (h : Orderly s) (w : Id) : Moves ev s (s.crashWorker w) := by
  have hp : Quiet s (s.setPhase w .crashed) := .setPhase h w fun n e => by cases e
  have hn := Quiet.notes (h.quiet hp) ((s.workerWaiters w).map fun _ => .syncCrashed w) ?_
  · refine .head (.quiet hp) ?_
    rw [crashWorker, noteEach_eq]
    refine .head (.quiet hn) ?_
    exact finishAll_moves (workerWaiters_nodup s w) fun c hc => mem_workerWaiters_iff.mp hc
  · intro n hn
    obtain ⟨-, -, rfl⟩ := List.mem_map.mp hn
    exact ⟨rfl, fun i hi => absurd hi List.not_mem_nil⟩

/-- Whoever drives a pass may begin one. -/
def Drives (s : State) : Driver → Prop
  | .caller c => Asking s c .iterate
  | .worker w => ∃ k, s.workers.get? w = some k

theorem Drives.quiet {d : Driver} (h : Drives s d) (hq : Quiet s t) : Drives t d := by
  cases d with
  | caller c => exact Asking.quiet h hq
  | worker w =>
    obtain ⟨k, hk⟩ := h
    obtain ⟨k', hk', -⟩ := hq.workers.kept hk
    exact ⟨k', hk'⟩

theorem reportPass_moves (h : Orderly s) {d : Driver} (hd : Drives s d) (r : Report) :
    Moves ev s (s.reportPass d r) := by
  cases d with
  | caller c => exact .single (.reply hd trivial)
  | worker w => exact .single (.quiet (.setPhase h w fun n e => by cases e))

theorem beginPass_moves (h : Orderly s) {d : Driver} (hd : Drives s d) :
    Moves ev s (s.beginPass d) := by
  rw [beginPass]
  split
  · exact reportPass_moves h hd {}
  · rename_i ha
    have hq := Quiet.draw h s.cache.size
    have hd' := hd.quiet hq
    dsimp only
    split
    · rename_i hc
      refine .head (.quiet hq) ?_
      cases d with
      | caller c => exact .single (.reply hd' hc)
      | worker w => exact crashWorker_moves (h.quiet hq) w
    · split
      · have hn := Quiet.note (h.quiet hq) (n := .passFinished s.next {}) rfl rfl
        refine .head (.quiet hq) (.head (.quiet hn) ?_)
        exact reportPass_moves ((h.quiet hq).quiet hn) (hd'.quiet hn) {}
      · rename_i hk
        have hk' : s.cache.keys ≠ [] := fun e => hk (List.isEmpty_iff.mpr e)
        have ha' : s.settings.cachingActive = true := by simpa using ha
        cases d with
        | caller c => exact .single (.openFor hd ha' hk')
        | worker w =>
          obtain ⟨k, hw⟩ := hd
          exact .single (.openBy hw ha' hk')

/-- A worker in the middle of a pass may drop it. -/
theorem abandon_moves (h : Orderly s) {w n : Id} {k : Worker} (hw : s.workers.get? w = some k)
    (hk : k.phase = .refreshing n) (hev : ev.abandons = true) : Moves ev s (s.dropPass n) :=
  .single (.abandon (fun pass hp => ⟨w, (h.phases hw hk).2 pass hp⟩) hev)

theorem abortWorker_moves (h : Orderly s) (w : Id) (hev : ev.abandons = true) :
    Moves ev s (s.abortWorker w) := by
  rw [abortWorker]
  cases hw : s.workers.get? w with
  | none => exact .refl
  | some k =>
    dsimp only
    split
    · exact .refl
    · exact .refl
    · rename_i n hk
      exact (abandon_moves h hw hk hev).trans (endWorker_moves (h.dropPass n) w)
    · exact endWorker_moves h w

theorem stopWorker_moves (h : Orderly s) {c w : Id} {r : Request} (ha : Asking s c r)
    (hr : Waits r (.worker w)) : Moves ev s (s.stopWorker c w) := by
  have hf : ∀ settings, Fits settings r .stopped := by
    intro settings
    cases hr <;> trivial
  rw [stopWorker]
  cases hw : s.workers.get? w with
  | none => exact .single (.reply ha (hf _))
  | some k =>
    dsimp only
    split
    · exact .single (.reply ha (hf _))
    · have hn := Quiet.note h (n := .syncCrashed w) rfl rfl
      exact .head (.quiet hn) (.single (.reply (ha.quiet hn) (hf _)))
    · have hq := Quiet.rework (s := s) (.put h { k with stopping := true } hw rfl
        (Nat.le_refl _) (fun _ => rfl) fun n hn => hn)
      exact .head (.quiet hq) (.single (.await (ha.quiet hq) hr))

theorem takeTick_moves (h : Orderly s) {w : Id} {k : Worker} (hw : s.workers.get? w = some k)
    (due : Nat) : Moves ev s (s.takeTick w k due) := by
  rw [takeTick]
  have hq := Quiet.rework (s := s) (.put h { k with
      due := (if due + lateness < s.nowNanos then s.nowNanos else due) + k.period.nanos
      phase := .idle } hw rfl (Nat.le_refl _) id fun n hn => by cases hn)
  exact .head (.quiet hq) (beginPass_moves (h.quiet hq) ⟨_, Table.get?_put_self⟩)

theorem wake_moves (h : Orderly s) (w : Id) : Moves (.wake w) s (s.wake w) := by
  have hend : ∀ {s : State}, Orderly s →
      Moves (.wake w) s ((s.note (.syncStopped w)).endWorker w) := by
    intro s h
    have hn := Quiet.note h (n := .syncStopped w) rfl rfl
    exact .head (.quiet hn) (endWorker_moves (h.quiet hn) w)
  rw [wake]
  cases hw : s.workers.get? w with
  | none => exact .refl
  | some k =>
    dsimp only
    split
    · split
      · exact hend h
      · exact takeTick_moves h hw _
    · split
      · exact hend h
      · split
        · exact takeTick_moves h hw _
        · exact .refl
    · rename_i n hk
      split
      · have hn := Quiet.note h (n := .passAbandoned n) rfl rfl
        have hw' : (s.note (.passAbandoned n)).workers.get? w = some k := hw
        refine .head (.quiet hn) ((abandon_moves (h.quiet hn) hw' hk rfl).trans ?_)
        exact hend ((h.quiet hn).dropPass n)
      · exact .refl
    · exact .refl
    · exact .refl

/-! ## Requests

Everybody who asks for something first enters, which is a move of its own: it draws the number of
the caller, who from then on is `Asking`.  What follows is one more move or a few, each of them
allowed because the caller is still asking.  To start the refresh is the one request that may
leave a remark before anything else; `start_eq` takes the remark apart from the rest. -/

theorem joinFetch_moves (h : Orderly s) {c : Id} {e : Entity} {p : Principal} {a : Action}
    (ha : Asking s c (.enforce e p a)) (he : Owner.fetch.enabled s.settings = true) :
    Moves (.enforce e p a) s (s.joinFetch c e p a) := by
  have hq := Quiet.note h (n := .missed c p) rfl rfl
  refine .head (.quiet hq) ?_
  rw [joinFetch]
  dsimp only
  split
  · exact .single (.reply (ha.quiet hq) trivial)
  · rename_i id hf
    exact .single (.join rfl (ha.quiet hq) hf)
  · rename_i hf
    exact .single (.fetch rfl (ha.quiet hq) hf he)

theorem enforce_moves (h : Orderly s) (e : Entity) (p : Principal) (a : Action) :
    Moves (.enforce e p a) s (s.enforce e p a) := by
  have ha := h.asking_enter (.enforce e p a)
  have h := h.enter (.enforce e p a)
  refine .head (.enter (.enforce e p a)) ?_
  rw [State.enforce]
  split
  · exact .single (.reply ha trivial)
  · rename_i hauth
    rw [Bool.not_eq_true, Bool.not_eq_false'] at hauth
    have hauth : s.settings.authorization = true := hauth
    split
    · rename_i hcaching
      have he : (Owner.direct s.next e a).enabled s.settings = true := by
        have hcaching : (!s.settings.caching) = true := hcaching
        rw [Owner.enabled, hauth, hcaching]
        rfl
      refine .single (.own ha ?_ (fun e => by cases e) he (.direct s.next e p a))
      split
      · exact .check e p a
      · exact .list e p a
    · rename_i hcaching
      rw [Bool.not_eq_true, Bool.not_eq_false'] at hcaching
      have hcaching : s.settings.caching = true := hcaching
      split
      · rename_i S hS
        exact .single (.reply ha (fits_decision _ S e p a))
      · split
        · rename_i hfetch
          refine joinFetch_moves h ha ?_
          show (s.settings.cachingActive && s.settings.fetchOnMiss) = true
          have hfetch : s.settings.fetchOnMiss = true := hfetch
          rw [Settings.cachingActive, hauth, hcaching, hfetch]
          rfl
        · exact .single (.reply ha (.inl rfl))

theorem update_moves (h : Orderly s) (p : Principal) : Moves (.update p) s (s.update p) := by
  have ha := h.asking_enter (.update p)
  refine .head (.enter (.update p)) ?_
  rw [State.update]
  split
  · rename_i he
    exact .single (.own ha (.update p) (fun e => by cases e) he (.update s.next p))
  · exact .single (.reply ha trivial)

/-- What is left of starting the refresh for caller `c`, who has entered. -/
def startFor (s : State) (c : Id) (scheduler : Bool) : State :=
  if !s.settings.cachingActive then s.finish c .started
  else match s.lifecycle with
    | .running _ => s.finish c .started
    | .stopped => s.finish c (.failed (.configuration .shutDown))
    | .idle =>
      if !scheduler then s.finish c (.failed (.configuration .noScheduler))
      else
        let s := s.note (.syncStarting s.settings.refreshInterval)
        if s.settings.refreshInterval.isZero then s.finish c (.failed (.configuration .zeroPeriod))
        else { s.addWorker s.settings.refreshInterval with lifecycle := .running s.next }.finish c
          .started

theorem start_eq (s : State) (scheduler : Bool) :
    s.start scheduler = (if !s.settings.authorization && s.settings.caching
      then (s.enter .start).note .cachingUnused else s.enter .start).startFor s.next scheduler :=
  rfl

theorem startFor_moves (h : Orderly s) {c : Id} (ha : Asking s c .start) (scheduler : Bool) :
    Moves ev s (s.startFor c scheduler) := by
  rw [startFor]
  split
  · exact .single (.reply ha trivial)
  · split
    · exact .single (.reply ha trivial)
    · exact .single (.reply ha ⟨_, rfl⟩)
    · split
      · exact .single (.reply ha ⟨_, rfl⟩)
      · have hn := Quiet.note h (n := .syncStarting s.settings.refreshInterval) rfl rfl
        have h := h.quiet hn
        have ha := ha.quiet hn
        refine .head (.quiet hn) ?_
        dsimp only
        split
        · exact .single (.reply ha ⟨_, rfl⟩)
        · have hw := Quiet.addWorker h s.settings.refreshInterval
          have hl := Quiet.circumstance (h.quiet hw) (Nat.le_refl _) (.running s.next) s.dropped
          refine .head (.quiet hw) (.head (.quiet hl) ?_)
          exact .single (.reply ((ha.quiet hw).quiet hl) trivial)

theorem start_moves (h : Orderly s) (scheduler : Bool) : Moves ev s (s.start scheduler) := by
  have ha := h.asking_enter .start
  have h := h.enter .start
  refine .head (.enter .start) ?_
  rw [start_eq]
  split
  · have hn := Quiet.note h (n := .cachingUnused) rfl rfl
    exact .head (.quiet hn) (startFor_moves (h.quiet hn) (ha.quiet hn) scheduler)
  · exact startFor_moves h ha scheduler

theorem shutdown_moves (h : Orderly s) : Moves ev s s.shutdown := by
  have ha := h.asking_enter .shutdown
  have h := h.enter .shutdown
  refine .head (.enter .shutdown) ?_
  have hl := Quiet.circumstance h (Nat.le_refl _) .stopped s.dropped
  refine .head (.quiet hl) ?_
  rw [State.shutdown]
  split
  · rename_i w hw
    have hn := Quiet.note (h.quiet hl) (n := .syncStopping) rfl rfl
    refine .head (.quiet hn) ?_
    exact stopWorker_moves ((h.quiet hl).quiet hn) ((ha.quiet hl).quiet hn) (.shutdown w)
  · exact .single (.reply (ha.quiet hl) trivial)

theorem spawn_moves (h : Orderly s) (period : Span) : Moves ev s (s.spawn period) := by
  have ha := h.asking_enter (.spawn period)
  have h := h.enter (.spawn period)
  refine .head (.enter (.spawn period)) ?_
  rw [State.spawn]
  split
  · exact .single (.reply ha rfl)
  · have hw := Quiet.addWorker h period
    exact .head (.quiet hw) (.single (.reply (ha.quiet hw) trivial))

theorem cancel_move (s : State) (c : Id) :
    s.cancel c = s ∨ Move (.cancel c) s (s.cancel c) := by
  rw [State.cancel]
  cases hc : s.callers.get? c with
  | none => exact .inl rfl
  | some w =>
    cases w with
    | fetch p e a => exact .inr (.leave rfl hc (.inl ⟨p, e, a, rfl⟩))
    | call id => exact .inr (.leaveCall rfl hc)
    | pass n => exact .inr (.leavePass rfl hc)
    | worker w => exact .inr (.leave rfl hc (.inr ⟨w, rfl⟩))

theorem drop_moves (h : Orderly s) : Moves .drop s s.drop := by
  have hq := Quiet.circumstance h (Nat.le_refl _) s.lifecycle true
  refine .head (.quiet hq) ?_
  rw [State.drop]
  split
  · rename_i w hw
    exact abortWorker_moves (h.quiet hq) w rfl
  · exact .refl

/-! ## Calls and passes

The events here come from the backend, from the clock and from whoever runs a pass.  Each names
what it is about by number, and nothing happens if there is no such thing or it is not the turn
of it.  So each is first brought into the form that it has when something does happen
(`launch_eq`, `answer_eq`, `expire_eq`, `collect_eq`), and that is one move. -/

section

variable {n id : Id} {p : Principal} {pass : Pass} {call : Call} {l : Landing}

theorem launch_eq (hp : s.passes.get? n = some pass) (hq : p ∈ pass.queue)
    (hf : pass.flying.length < s.parallelism) :
    s.launch n p
      = { s with passes := s.passes.put n (pass.fly p) }.startCall p .listing (.pass n) := by
  rw [launch, hp]
  exact if_pos ⟨hq, hf⟩

theorem answer_eq (hid : s.calls.get? id = some call) (ha : s.attended call = true)
    (hq : call.question = .listing) (r : Reply PrivilegeSet) :
    s.answer id r = (s.endCall id call.principal (.listed r)).settle id call r := by
  have hcond : (s.attended call && call.question == .listing) = true := by
    rw [ha, hq]
    rfl
  rw [answer, hid]
  exact if_pos hcond

theorem expire_eq (hid : s.calls.get? id = some call) (ha : s.attended call = true)
    (ht : call.deadline ≤ s.now) :
    s.expire id = (s.endCall id call.principal .timedOut).settle id call
      (.failed (.timedOut call.owner.operation s.settings.backendTimeout)) := by
  have hcond : (s.attended call && decide (call.deadline ≤ s.now)) = true := by
    rw [ha, decide_eq_true ht]
    rfl
  rw [expire, hid]
  exact if_pos hcond

theorem land_eq (hp : s.passes.get? n = some pass) (l : Landing) :
    s.land n l = { s with passes := s.passes.put n (pass.land l) } := by
  rw [land, Table.update, hp]
  rfl

theorem collect_eq (hp : s.passes.get? n = some pass) (hh : s.halted pass = false)
    (hl : pass.landed.find? (·.principal == p) = some l) :
    s.collect n p = if (pass.look l).complete then
        ({ s.digest n l with passes := (s.digest n l).passes.erase n }.note
          (.passFinished n (pass.look l).report)).reportPass pass.driver (pass.look l).report
      else { s.digest n l with passes := (s.digest n l).passes.put n (pass.look l) } := by
  obtain rfl : l.principal = p := by simpa using List.find?_some hl
  rw [collect, hp]
  simp only [hh, Bool.false_eq_true, if_false, hl]
  obtain ⟨q, id, r⟩ := l
  cases r <;> rfl

/-- A pass looks at nothing, or at what has landed. -/
theorem collect_cases (s : State) (n : Id) (p : Principal) : s.collect n p = s
    ∨ ∃ pass l, s.passes.get? n = some pass ∧ s.halted pass = false
      ∧ pass.landed.find? (·.principal == p) = some l := by
  cases hp : s.passes.get? n with
  | none => exact .inl (by rw [collect, hp])
  | some pass =>
    cases hh : s.halted pass with
    | true => exact .inl (by simp [collect, hp, hh])
    | false =>
      cases hl : pass.landed.find? (·.principal == p) with
      | none => exact .inl (by simp [collect, hp, hh, hl])
      | some l => exact .inr ⟨pass, l, rfl, hh, hl⟩

end

/-- The end of a call goes to its owner in one move. -/
theorem settle_move {id : Id} {call : Call} {ending : Ending} {r : Reply PrivilegeSet}
    (hc : s.calls.get? id = some call) (ha : s.attended call = true)
    (he : Ends ev s id call ending r) :
    Move ev s ((s.endCall id call.principal ending).settle id call r) := by
  rw [settle]
  split
  · rename_i ho
    rw [attended, ho] at ha
    exact .fetchEnds hc ho ha he
  · rename_i c ho
    exact .updateEnds hc ho he
  · rename_i c e a ho
    rw [settleDirect_eq, verdict_map_mem]
    have hr : (Request.enforce e call.principal a).answer r
        = (Request.enforce e call.principal a).outcome call.owner
          s.settings.backendTimeout ending := by
      cases he with
      | answer hev hq => rfl
      | expire hev ht => rfl
    rw [hr]
    exact .directEnds hc ho (.list he)
  · rename_i n ho
    exact .landing hc ho he

theorem answer_move (s : State) (id : Id) (r : Reply PrivilegeSet) :
    s.answer id r = s ∨ Move (.answer id r) s (s.answer id r) := by
  rw [State.answer]
  cases hc : s.calls.get? id with
  | none => exact .inl rfl
  | some call =>
    dsimp only
    split
    · rename_i h
      rw [Bool.and_eq_true, beq_iff_eq] at h
      exact .inr (settle_move hc h.1 (.answer rfl h.2))
    · exact .inl rfl

theorem expire_move (s : State) (id : Id) :
    s.expire id = s ∨ Move (.expire id) s (s.expire id) := by
  rw [State.expire]
  cases hc : s.calls.get? id with
  | none => exact .inl rfl
  | some call =>
    dsimp only
    split
    · rename_i h
      rw [Bool.and_eq_true, decide_eq_true_iff] at h
      exact .inr (settle_move hc h.1 (.expire rfl h.2))
    · exact .inl rfl

theorem verdict_move (s : State) (id : Id) (r : Reply Bool) :
    s.verdict id r = s ∨ Move (.verdict id r) s (s.verdict id r) := by
  rw [State.verdict]
  cases hc : s.calls.get? id with
  | none => exact .inl rfl
  | some call =>
    dsimp only
    split
    · rename_i c e a e' a' ho hq
      rw [settleDirect_eq]
      have hm := Move.directEnds hc ho (.verdict (rfl : Event.verdict id r = _) hq)
      rw [ho] at hm
      exact .inr hm
    · exact .inl rfl

theorem launch_move (s : State) (n : Id) (p : Principal) :
    s.launch n p = s ∨ Move (.launch n p) s (s.launch n p) := by
  rw [State.launch]
  cases hp : s.passes.get? n with
  | none => exact .inl rfl
  | some pass =>
    dsimp only
    split
    · rename_i h
      exact .inr (.launch rfl hp h.1 h.2)
    · exact .inl rfl

theorem collect_move (s : State) (n : Id) (p : Principal) :
    s.collect n p = s ∨ Move (.collect n p) s (s.collect n p) := by
  rcases collect_cases s n p with h | ⟨pass, l, hp, hh, hf⟩
  · exact .inl h
  · have hl := List.mem_of_find?_eq_some hf
    obtain rfl : l.principal = p := by simpa using List.find?_some hf
    rw [collect_eq hp hh hf]
    split
    · rename_i hc
      exact .inr (.close rfl hp hh hl hc)
    · rename_i hc
      exact .inr (.look rfl hp hh hl (by simpa using hc))

end State

/-! ## Every step, every run

All events are put together here.  What is proved of moves from now on reaches runs in two ways:
`run_keeps` for what every *event* keeps, `run_induction` for what every *move* keeps. -/

theorem build_eq_ok_iff {settings : Settings} {checks : Bool} :
    build settings checks = .ok s ↔ settings.check = .ok () ∧ s = .initial settings checks := by
  rw [build]
  cases settings.check with
  | error fault =>
    refine iff_of_false (fun h => ?_) (by simp)
    injection h
  | ok u =>
    refine ⟨fun h => ⟨rfl, ?_⟩, fun h => ?_⟩
    · injection h with h
      exact h.symm
    · rw [h.2]
      rfl

theorem moves_of_move (h : t = s ∨ Move ev s t) : Moves ev s t := by
  rcases h with rfl | h
  · exact .refl
  · exact .single h

/-- **Whatever happens to an engine is a sequence of moves.** -/
theorem step_moves (h : Orderly s) (ev : Event) : Moves ev s (s.step ev) := by
  cases ev with
  | enforce e p a =>
    rw [State.step]
    split
    · exact .refl
    · exact State.enforce_moves h e p a
  | update p =>
    rw [State.step]
    split
    · exact .refl
    · exact State.update_moves h p
  | iterate =>
    rw [State.step]
    split
    · exact .refl
    · exact .head (.enter .iterate) (State.beginPass_moves (h.enter _) (h.asking_enter .iterate))
  | start scheduler =>
    rw [State.step]
    split
    · exact .refl
    · exact State.start_moves h scheduler
  | shutdown =>
    rw [State.step]
    split
    · exact .refl
    · exact State.shutdown_moves h
  | invalidate =>
    rw [State.step]
    split
    · exact .refl
    · exact .single (.clear (.inr rfl) (.inr ⟨_, rfl⟩))
  | drop =>
    rw [State.step]
    split
    · exact .refl
    · exact State.drop_moves h
  | spawn period => exact State.spawn_moves h period
  | stop w =>
    exact .head (.enter (.stop w))
      (State.stopWorker_moves (h.enter _) (h.asking_enter (.stop w)) (.stop w))
  | release w => exact State.abortWorker_moves h w rfl
  | write p S => exact .single (.write rfl)
  | clear => exact .single (.clear (.inl rfl) (.inl rfl))
  | cancel c => exact moves_of_move (State.cancel_move s c)
  | answer id r => exact moves_of_move (State.answer_move s id r)
  | verdict id r => exact moves_of_move (State.verdict_move s id r)
  | expire id => exact moves_of_move (State.expire_move s id)
  | launch n p => exact moves_of_move (State.launch_move s n p)
  | collect n p => exact moves_of_move (State.collect_move s n p)
  | wake w => exact State.wake_moves h w
  | elapse millis =>
    exact .single (.quiet (.circumstance h (Nat.le_add_right _ _) s.lifecycle s.dropped))

theorem Orderly.step (h : Orderly s) (ev : Event) : Orderly (s.step ev) :=
  (step_moves h ev).orderly h

/-- **What every move keeps, the moves of a step keep.** -/
theorem Moves.keeps {P : State → Prop} (m : Moves ev s t) (h : Orderly s) (hs : P s)
    (move : ∀ {t u : State}, Orderly t → P t → Move ev t u → P u) : P t := by
  have hkept : Orderly t ∧ P t := by
    induction m with
    | refl => exact ⟨h, hs⟩
    | tail _ m ih => exact ⟨m.orderly ih.1, move ih.1 ih.2 m⟩
  exact hkept.2

/-- **What every event of a run keeps, the run keeps.** -/
theorem run_keeps {P : State → Prop} {es : List Event} (hs : P s)
    (step : ∀ ev ∈ es, ∀ {t : State}, P t → P (t.step ev)) : P (s.run es) := by
  induction es generalizing s with
  | nil => exact hs
  | cons ev es ih =>
    exact ih (step ev List.mem_cons_self hs) fun ev' hev => step ev' (List.mem_cons_of_mem _ hev)

/-- **A property that every move keeps is kept by every run.** -/
theorem run_induction {P : State → Prop} {es : List Event} (h : Orderly s) (hs : P s)
    (move : ∀ ev ∈ es, ∀ {t u : State}, Orderly t → P t → Move ev t u → P u) : P (s.run es) := by
  have hkept : Orderly (s.run es) ∧ P (s.run es) :=
    run_keeps (P := fun t => Orderly t ∧ P t) ⟨h, hs⟩ fun ev hev _ ⟨ho, ht⟩ =>
      ⟨ho.step ev, (step_moves ho ev).keeps ho ht (move ev hev)⟩
  exact hkept.2

/-! ## Engines that are there, and engines that are gone

Nobody can ask anything of an engine that has been dropped, but what it has begun goes on.  For
an engine that is there the step is the operation itself, which is said here once for each
request. -/

/-- The event asks something of the engine itself. -/
def Event.asks : Event → Bool
  | .enforce .. | .update _ | .iterate | .start _ | .shutdown | .invalidate | .drop => true
  | _ => false

/-- An engine that is gone does not hear what is asked of it. -/
theorem step_of_dropped (hd : s.dropped = true) (hev : ev.asks = true) : s.step ev = s := by
  cases ev <;> simp_all [State.step, Event.asks]

section

variable (hd : s.dropped = false)

include hd

theorem step_iterate : s.step .iterate = (s.enter .iterate).beginPass (.caller s.next) := by
  simp [State.step, hd]

theorem step_start (scheduler : Bool) : s.step (.start scheduler) = s.start scheduler := by
  simp [State.step, hd]

theorem step_shutdown : s.step .shutdown = s.shutdown := by
  simp [State.step, hd]

theorem step_invalidate : s.step .invalidate = s.invalidate := by
  simp [State.step, hd]

theorem step_drop : s.step .drop = s.drop := by
  simp [State.step, hd]

end

/-- The engine goes, and the worker that it has started with it. -/
theorem State.drop_of_running {w : Id} (hl : s.lifecycle = .running w) :
    s.drop = State.abortWorker { s with dropped := true } w := by
  simp only [State.drop, hl]

theorem State.drop_of_not_running (hl : ∀ w, s.lifecycle ≠ .running w) :
    s.drop = { s with dropped := true } := by
  rw [State.drop]
  split
  · rename_i w hw
    exact absurd hw (hl w)
  · rfl

/-! ## How an enforcement begins

Which way an enforcement takes is settled in the step in which it is asked for, by the settings
and by what the cache holds: it is decided, refused, joins or starts a fetch, or makes a call of
its own.  The equations give the state after that step as a whole. -/

section Enforce

variable {e : Entity} {p : Principal} {a : Action}

theorem step_enforce_hit {privileges : PrivilegeSet} (hd : s.dropped = false)
    (ha : s.settings.authorization = true) (hc : s.settings.caching = true)
    (hp : s.cache.get? p = some privileges) : s.step (.enforce e p a)
      = (s.enter (.enforce e p a)).finish s.next (State.decision privileges e p a) := by
  have hp' : (s.enter (.enforce e p a)).cache.get? p = some privileges := hp
  have hs : (s.enter (.enforce e p a)).settings = s.settings := rfl
  simp [State.step, State.enforce, hd, hs, ha, hc, hp']

theorem step_enforce_unfetched (hd : s.dropped = false) (ha : s.settings.authorization = true)
    (hc : s.settings.caching = true) (hf : s.settings.fetchOnMiss = false)
    (hp : s.cache.get? p = none) : s.step (.enforce e p a)
      = (s.enter (.enforce e p a)).finish s.next (.failed (.permissionDenied p e a)) := by
  have hp' : (s.enter (.enforce e p a)).cache.get? p = none := hp
  have hs : (s.enter (.enforce e p a)).settings = s.settings := rfl
  simp [State.step, State.enforce, hd, hs, ha, hc, hf, hp']

theorem step_enforce_miss (hd : s.dropped = false) (ha : s.settings.authorization = true)
    (hc : s.settings.caching = true) (hf : s.settings.fetchOnMiss = true)
    (hp : s.cache.get? p = none) : s.step (.enforce e p a)
      = (s.enter (.enforce e p a)).joinFetch s.next e p a := by
  have hp' : (s.enter (.enforce e p a)).cache.get? p = none := hp
  have hs : (s.enter (.enforce e p a)).settings = s.settings := rfl
  simp [State.step, State.enforce, hd, hs, ha, hc, hf, hp']

theorem step_enforce_direct (hd : s.dropped = false) (ha : s.settings.authorization = true)
    (hc : s.settings.caching = false) : s.step (.enforce e p a)
      = (s.enter (.enforce e p a)).startOwnCall s.next p
        (if s.checks then .check e a else .listing) (.direct s.next e a) := by
  have hs : (s.enter (.enforce e p a)).settings = s.settings := rfl
  have hk : (s.enter (.enforce e p a)).checks = s.checks := rfl
  simp [State.step, State.enforce, hd, hs, hk, ha, hc]

end Enforce

/-! ## What never changes

Settings and backend belong to an engine for good, and the clock and the counter of numbers only
go forward.  That is so of every move, and therefore of every step and every run. -/

/-- An engine keeps its settings, and its backend. -/
theorem Move.fixed (m : Move ev s t) : t.settings = s.settings ∧ t.checks = s.checks := by
  cases m with
  | quiet hq => exact ⟨hq.settings, hq.checks⟩
  | fetchEnds => rw [State.settleFetch_eq]; exact ⟨rfl, rfl⟩
  | updateEnds => rw [State.settleUpdate_eq]; exact ⟨rfl, rfl⟩
  | look => rw [State.digest_eq]; exact ⟨rfl, rfl⟩
  | @close n pass l =>
    rw [State.digest_eq]
    cases pass.driver <;> exact ⟨rfl, rfl⟩
  | leaveCall =>
    rw [State.dropCall]
    split <;> exact ⟨rfl, rfl⟩
  | leavePass => rw [State.dropPass_eq]; exact ⟨rfl, rfl⟩
  | abandon => rw [State.dropPass_eq]; exact ⟨rfl, rfl⟩
  | _ => exact ⟨rfl, rfl⟩

theorem Move.settings (m : Move ev s t) : t.settings = s.settings := m.fixed.1

theorem Orderly.settings_run (h : Orderly s) (es : List Event) :
    (s.run es).settings = s.settings :=
  run_induction (P := fun t => t.settings = s.settings) h rfl fun _ _ _ _ _ ht m =>
    m.settings.trans ht

theorem Orderly.checks_run (h : Orderly s) (es : List Event) : (s.run es).checks = s.checks :=
  run_induction (P := fun t => t.checks = s.checks) h rfl fun _ _ _ _ _ ht m => m.fixed.2.trans ht

/-- Neither the clock nor the counter of numbers goes back. -/
theorem Move.counters_le (m : Move ev s t) : s.now ≤ t.now ∧ s.next ≤ t.next := by
  cases m with
  | quiet hq => exact ⟨hq.now, hq.next⟩
  | enter | own | fetch | openFor | openBy | launch => exact ⟨Nat.le_refl _, Nat.le_succ _⟩
  | fetchEnds => rw [State.settleFetch_eq]; exact ⟨Nat.le_refl _, Nat.le_refl _⟩
  | updateEnds => rw [State.settleUpdate_eq]; exact ⟨Nat.le_refl _, Nat.le_refl _⟩
  | look => rw [State.digest_eq]; exact ⟨Nat.le_refl _, Nat.le_refl _⟩
  | @close n pass l =>
    rw [State.digest_eq]
    cases pass.driver <;> exact ⟨Nat.le_refl _, Nat.le_refl _⟩
  | leaveCall =>
    rw [State.dropCall]
    split <;> exact ⟨Nat.le_refl _, Nat.le_refl _⟩
  | leavePass | abandon => rw [State.dropPass_eq]; exact ⟨Nat.le_refl _, Nat.le_refl _⟩
  | _ => exact ⟨Nat.le_refl _, Nat.le_refl _⟩

/-- Time does not go back. -/
theorem Move.now_le (m : Move ev s t) : s.now ≤ t.now := m.counters_le.1

/-- Numbers are drawn once. -/
theorem Move.next_le (m : Move ev s t) : s.next ≤ t.next := m.counters_le.2

theorem Orderly.now_le_step (h : Orderly s) (ev : Event) : s.now ≤ (s.step ev).now :=
  (step_moves h ev).keeps (P := fun t => s.now ≤ t.now) h (Nat.le_refl _) fun _ hle m =>
    Nat.le_trans hle m.now_le

theorem Orderly.next_le_step (h : Orderly s) (ev : Event) : s.next ≤ (s.step ev).next :=
  (step_moves h ev).keeps (P := fun t => s.next ≤ t.next) h (Nat.le_refl _) fun _ hle m =>
    Nat.le_trans hle m.next_le

theorem Orderly.now_le_run (h : Orderly s) (es : List Event) : s.now ≤ (s.run es).now :=
  run_induction (P := fun t => s.now ≤ t.now) h (Nat.le_refl _) fun _ _ _ _ _ hle m =>
    Nat.le_trans hle m.now_le

theorem run_append (s : State) (es es' : List Event) : s.run (es ++ es') = (s.run es).run es' :=
  List.foldl_append ..

theorem run_cons (s : State) (ev : Event) (es : List Event) : s.run (ev :: es) =
    (s.step ev).run es :=
  rfl

end Gatekeeper.Engine

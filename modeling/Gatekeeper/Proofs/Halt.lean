import Gatekeeper.Proofs.Fates

/-!
# How a worker is stopped

A worker that is asked to stop does so when it next runs, and till then a pass that it is in the
middle of begins calls as before, but does not look at what has landed.  So nothing of the pass is
stored any more from the moment of the request; but that nothing more is asked for is known only to
those who have waited for the end.

* `WorkerBooks.exit_run`, `WorkerBooks.stop_run` — whoever has waited for the end of a worker, or
  has asked it to stop, and been told anything finds it at its end.
* `Gone`, `WorkerBooks.gone` — nothing is left of a worker that is at its end.
* `StoresNothing`, `Books.storesNothing_run` — a pass whose worker has been asked to stop stores
  nothing.
* `Halting`, `WorkerBooks.halting_run` — a worker that has been asked to stop, or is at its end,
  stays so.

Three things are told apart that are easily confused: that a worker has been asked to stop, that
it has come to its end, and that somebody knows of it.  The first is in the state of the worker,
the second in its phase, the third in the journal; and what may be concluded from each differs.
-/

set_option autoImplicit false

namespace Gatekeeper.Engine

/-- Nothing is left of the worker: it is at its end and runs no pass any more, and of the passes
that have been begun those that others run are the only ones that will ever ask for anything or
store anything. -/
structure Gone (s : State) (w : Id) : Prop where
  dead : Dead s w
  idle : ∀ es n, ¬ (s.run es).Driven w n
  passes : ∀ n < s.next, (∃ pass, s.passes.get? n = some pass ∧ pass.driver ≠ .worker w)
    ∨ ∀ es, DoesNothing n s (s.run es)

/-- The pass stores nothing between one state and the other. -/
structure StoresNothing (n : Id) (s t : State) : Prop where
  writes : t.writes n = s.writes n
  written : ∀ p, t.written n p = s.written n p

/-- The worker has been asked to stop, or is at its end. -/
def Halting (s : State) (w : Id) : Prop :=
  ∃ k, s.workers.get? w = some k ∧ (k.stopping = true ∨ k.alive = false)

section

variable {s t u : State} {ev : Event} {c n v w : Id} {k k' : Worker} {pass pass' : Pass}

/-! ## Waiting for the end of a worker

Whoever has asked a worker to stop waits until it has come to its end.  So if such a caller has
been told anything, the worker is at its end. -/

/-- Somebody who waits for the end of a worker goes on to, unless told or given up. -/
theorem Move.awaits (hb : Books s) (m : Move ev s t) (hc : s.callers.get? c = some (.worker w)) :
    t.callers.get? c = some (.worker w) ∨ .returned c .stopped ∈ t.journal
      ∨ .cancelled c ∈ t.journal := by
  have hput : ∀ {c' : Id} {r : Request} (x : Waiting), Asking s c' r →
      (s.callers.put c' x).get? c = some (.worker w) := by
    intro c' r x ha
    refine (Table.get?_put_of_ne ?_).trans hc
    rintro rfl
    rw [ha.idle] at hc
    cases hc
  have herase : ∀ {c' : Id}, s.callers.get? c' ≠ some (.worker w) →
      (s.callers.erase c').get? c = some (.worker w) := by
    intro c' hne
    refine (Table.get?_erase_of_ne ?_).trans hc
    rintro rfl
    exact hne hc
  have howner : ∀ {id : Id} {call : Call} {c' : Id}, s.calls.get? id = some call →
      call.owner.caller? = some c' → s.callers.get? c' ≠ some (.worker w) := by
    intro id call c' hid ho
    rw [(hb.callers.owners hid ho).1]
    simp
  cases m with
  | quiet hq => exact Or.inl (hq.callers ▸ hc)
  | reply ha ho => exact Or.inl (herase (by rw [ha.idle]; simp))
  | @release c' w' hc' =>
    by_cases he : c = c'
    · exact Or.inr (Or.inl (he ▸ List.mem_cons_self))
    · exact Or.inl ((Table.get?_erase_of_ne he).trans hc)
  | await ha | own ha | openFor ha => exact Or.inl (hput _ ha)
  | join hev ha | fetch hev ha => exact Or.inl (hput _ ha)
  | fetchEnds hid ho ha he =>
    rw [State.settleFetch_eq]
    exact Or.inl (Table.get?_filter_eq_some_iff.mpr ⟨hc, rfl⟩)
  | updateEnds hid ho he =>
    rw [State.settleUpdate_eq]
    exact Or.inl (herase (howner hid (by rw [ho]; rfl)))
  | directEnds hid ho he => exact Or.inl (herase (howner hid (by rw [ho]; rfl)))
  | look =>
    rw [State.digest_eq]
    exact Or.inl hc
  | @close n pass l hev hp =>
    rw [State.digest_eq]
    cases hd : pass.driver with
    | caller c' =>
      refine Or.inl (herase ?_)
      rw [hb.passes.driven hp hd]
      simp
    | worker v => exact Or.inl hc
  | @leave c' x hev hc' =>
    by_cases he : c = c'
    · exact Or.inr (Or.inr (he ▸ List.mem_cons_self))
    · exact Or.inl ((Table.get?_erase_of_ne he).trans hc)
  | leaveCall hev hc' =>
    obtain ⟨-, call, hid, -⟩ := hb.callers.waiters hc'
    rw [State.dropCall_eq (s := s.leave _) hid]
    exact Or.inl (herase (by rw [hc']; simp))
  | leavePass hev hc' =>
    rw [State.dropPass_eq]
    exact Or.inl (herase (by rw [hc']; simp))
  | abandon =>
    rw [State.dropPass_eq]
    exact Or.inl hc
  | _ => exact Or.inl hc

/-- Both ways to ask a worker to stop are one, but for what is noted and the lifecycle. -/
theorem Stops.step_eq (hev : Stops s w ev) :
    ∃ u : State, u.workers = s.workers ∧ s.step ev = u.stopWorker s.next w := by
  rcases hev with rfl | ⟨rfl, hd, hl⟩
  · exact ⟨s.enter (.stop w), rfl, rfl⟩
  · refine ⟨{ s.enter .shutdown with lifecycle := .stopped }.note .syncStopping, rfl, ?_⟩
    have hl' : (s.enter .shutdown).lifecycle = .running w := hl
    rw [step_shutdown hd, State.shutdown]
    simp only [hl']

/-- Whoever asks a worker to stop waits for its end, unless it is at its end. -/
theorem waits_of_stop (hw : s.workers.get? w = some k) (hev : Stops s w ev) :
    Dead (s.step ev) w ∨ (s.step ev).callers.get? s.next = some (.worker w) := by
  obtain ⟨u, hu, hstep⟩ := hev.step_eq
  rw [← hu] at hw
  rw [hstep]
  rcases State.stopWorker_cases hw s.next with ⟨hdead, new, -, hs⟩ | ⟨-, hs⟩
  · rw [hs]
    exact Or.inl ⟨k, hw, hdead⟩
  · rw [hs]
    exact Or.inr Table.get?_put_self

namespace WorkerBooks

/-- Nobody who waits for the end of a worker has been told anything. -/
theorem not_returned (h : WorkerBooks s) (hc : s.callers.get? c = some (.worker w)) (o : Outcome) :
    .returned c o ∉ s.journal := by
  intro hr
  obtain ⟨r, -, hthread⟩ := h.books.callers.thread_of_unserved hc rfl
  have hm : .returned c o ∈ thread Note.caller? c s.journal := mem_thread.mpr ⟨hr, rfl⟩
  rw [hthread] at hm
  simp at hm

/-- **Somebody who waits for the end of a worker goes on to**, or gives up, or is told when the
worker is at its end. -/
theorem awaits (h : WorkerBooks s) (hc : s.callers.get? c = some (.worker w)) (ev : Event) :
    (s.step ev).callers.get? c = some (.worker w) ∨ Dead (s.step ev) w
      ∨ .cancelled c ∈ (s.step ev).journal := by
  have hkept : (s.step ev).callers.get? c = some (.worker w)
      ∨ .returned c .stopped ∈ (s.step ev).journal ∨ .cancelled c ∈ (s.step ev).journal := by
    refine (step_moves h.books.orderly ev).keeps_of_books (P := fun t =>
      t.callers.get? c = some (.worker w) ∨ .returned c .stopped ∈ t.journal
        ∨ .cancelled c ∈ t.journal) h.books (Or.inl hc) ?_
    rintro t u hb (hc | hr | hx) m
    · exact m.awaits hb hc
    · exact Or.inr (Or.inl ((m.touch hb).suffix.subset hr))
    · exact Or.inr (Or.inr ((m.touch hb).suffix.subset hx))
  refine hkept.imp_right (Or.imp_left fun hr => ?_)
  rcases (step_workers h ev).exit hr (h.not_returned hc _) with rfl | ⟨v, hv, hdead⟩
  · exact absurd (h.books.orderly.callers hc) (Nat.lt_irrefl _)
  · rw [hc] at hv
    injection hv with hv
    injection hv with hv
    exact hv ▸ hdead

/-- **Whoever has waited for the end of a worker and been told anything finds it at its end.** -/
theorem exit_run (h : WorkerBooks s) (hc : s.callers.get? c = some (.worker w)) (es : List Event)
    {o : Outcome} (hr : .returned c o ∈ (s.run es).journal) : Dead (s.run es) w := by
  induction es generalizing s with
  | nil => exact absurd hr (h.not_returned hc o)
  | cons ev es ih =>
    have hstep := h.step ev
    rcases h.awaits hc ev with hc | hdead | hx
    · exact ih hstep hc hr
    · exact hstep.dead_run hdead es
    · exact absurd hr ((hstep.run es).books.callers.not_returned_of_cancelled
        ((hstep.books.suffix_run es).subset hx) o)

/-- **Whoever has asked a worker to stop, and been told anything, finds it at its end.** -/
theorem stop_run (h : WorkerBooks s) (hw : s.workers.get? w = some k)
    (hev : Stops s w ev)
    (es : List Event) {o : Outcome} (hr : .returned s.next o ∈ ((s.step ev).run es).journal) :
    Dead ((s.step ev).run es) w := by
  rcases waits_of_stop hw hev with hdead | hc
  · exact (h.step ev).dead_run hdead es
  · exact (h.step ev).exit_run hc es hr

/-- **Nothing is left of a worker that is at its end.** -/
theorem gone (h : WorkerBooks s) (hw : Dead s w) : Gone s w where
  dead := hw
  idle es n := (h.run es).not_driven (h.dead_run hw es) n
  passes n hlt := by
    cases hp : s.passes.get? n with
    | none => exact Or.inr (h.books.doesNothing_run hlt hp)
    | some pass => exact Or.inl ⟨pass, rfl, fun hd => h.not_driven hw n ⟨pass, hp, hd⟩⟩

end WorkerBooks

/-! ## Passes that store nothing any more

A pass stores a list when it looks at a result, and it looks at none while its worker has been
asked to stop. -/

namespace StoresNothing

theorem refl (n : Id) (s : State) : StoresNothing n s s where
  writes := rfl
  written _ := rfl

theorem trans (h : StoresNothing n s t) (h' : StoresNothing n t u) : StoresNothing n s u where
  writes := h'.writes.trans h.writes
  written p := (h'.written p).trans (h.written p)

/-- Notes are added none of which says that the pass has stored anything. -/
theorem of_silent (new : List Note) (hj : t.journal = new ++ s.journal)
    (hn : ∀ m ∈ new, m.writes n = false) : StoresNothing n s t where
  writes := by
    rw [State.writes, hj]
    exact countP_append_of_silent hn
  written p := by
    rw [State.written, hj]
    refine countP_append_of_silent fun m hm => ?_
    have hsilent := hn m hm
    unfold Note.writes at hsilent
    unfold Note.writesFor
    split
    · simp_all
    · rfl

end StoresNothing

theorem Note.writes_of_stores {m : Note} (h : m.stores = false) (n : Id) : m.writes n = false := by
  cases m <;> first | rfl | cases h

/-- A move by which a pass stores something is not made while its worker has been asked to stop. -/
theorem Touch.storesNothing (m : Touch ev s t)
    (hh : ∀ pass, s.passes.get? n = some pass → s.halted pass = true) : StoresNothing n s t := by
  cases m with
  | nothing new hc hj hn =>
    exact .of_silent new hj fun m hm => Note.writes_of_stores (hn m hm).stores n
  | @list id p o S before after hr hb he hc hj hbefore hafter =>
    refine .of_silent (after ++ .stored p S (.call id o) :: before) (by rw [hj]; simp) ?_
    intro m hm
    rcases List.mem_append.mp hm with hm | hm
    · exact Note.writes_of_stores (hafter m hm).stores n
    · rcases List.mem_cons.mp hm with rfl | hm
      · cases hr with
        | @call call hcall hp ho =>
          refine Note.writes_of_silent fun hk => ?_
          cases howner : call.owner with
          | pass k => exact ho k howner
          | _ => simp [howner, Note.pass?] at hk
        | @landing k pass l S' hp hfree =>
          refine Note.writes_of_silent fun hk => ?_
          obtain rfl : k = n := by simpa [Note.pass?] using hk
          rw [hh pass hp] at hfree
          cases hfree
      · exact Note.writes_of_stores (hbefore m hm).stores n
  | @hand p S hev hc hj => exact .of_silent [.stored p S .hand] hj (by simp [Note.writes])
  | @clear m hev hc hj hm =>
    refine .of_silent [m] hj ?_
    rcases hm with rfl | ⟨k, rfl⟩ <;> simp [Note.writes]

/-- A pass whose worker has been asked to stop is left so by every move. -/
theorem Move.stays_halted (hb : Books s) (m : Move ev s t) (hlt : n < s.next)
    (hh : ∀ pass, s.passes.get? n = some pass → s.halted pass = true)
    (hp : t.passes.get? n = some pass) : t.halted pass = true := by
  rcases m.known hp with ⟨pass₀, hp₀⟩ | ⟨rfl, -⟩
  · exact m.halted ((m.goes hb hp₀).driver hp) (hh pass₀ hp₀)
  · exact absurd hlt (Nat.lt_irrefl _)

/-- **A pass whose worker has been asked to stop stores nothing any more.** -/
theorem Books.storesNothing_run (hb : Books s) (hlt : n < s.next)
    (hh : ∀ pass, s.passes.get? n = some pass → s.halted pass = true) (es : List Event) :
    StoresNothing n s (s.run es) := by
  refine (hb.run_induction (P := fun t => n < t.next
    ∧ (∀ pass, t.passes.get? n = some pass → t.halted pass = true) ∧ StoresNothing n s t)
    ⟨hlt, hh, .refl n s⟩ ?_).2.2
  intro ev _ t u hb ⟨hlt, hhalted, hnothing⟩ m
  exact ⟨Nat.lt_of_lt_of_le hlt m.next_le, fun pass hp => m.stays_halted hb hlt hhalted hp,
    hnothing.trans ((m.touch hb).storesNothing hhalted)⟩

/-! ## Workers that have been asked to stop

There is no way back for a worker that has been asked to stop: when it runs once more it ends. -/

theorem Halting.of_dead (h : Dead s w) : Halting s w := by
  obtain ⟨k, hk, hdead⟩ := h
  exact ⟨k, hk, Or.inr hdead⟩

/-- A worker that has been asked to stop has no tick to take. -/
theorem Halting.not_ticks (h : Halting s w) (hw : s.workers.get? w = some k) (now : Nat) :
    k.ticks now = false := by
  obtain ⟨k', hk', hstop⟩ := h
  rw [hw, Option.some_inj] at hk'
  subst hk'
  refine Bool.eq_false_iff.mpr fun hticks => ?_
  rcases hstop with hstop | hdead
  · rw [Worker.going_of_ticks hticks] at hstop
    cases hstop
  · rw [Worker.alive_of_ticks hticks] at hdead
    cases hdead

theorem dead_endWorker (hw : s.workers.get? w = some k) : Dead (s.endWorker w) w := by
  rw [State.endWorker_eq]
  exact ⟨{ k with phase := .ended }, by simp [Table.get?_update, hw], rfl⟩

theorem dead_abortWorker (hw : s.workers.get? w = some k) : Dead (s.abortWorker w) w := by
  rcases State.abortWorker_cases hw with ⟨hdead, hs⟩ | ⟨m, -, hs⟩ | ⟨-, -, hs⟩
  · rw [hs]
    exact ⟨k, hw, hdead⟩
  · rw [hs]
    refine dead_endWorker (k := k) ?_
    rw [State.dropPass_eq]
    exact hw
  · rw [hs]
    exact dead_endWorker hw

/-- A worker that somebody lets go of is at its end. -/
theorem dead_of_releases (hw : s.workers.get? w = some k) (hev : Releases s w ev) :
    Dead (s.step ev) w := by
  rcases hev with rfl | ⟨rfl, hd, hl⟩
  · exact dead_abortWorker hw
  rw [step_drop hd, State.drop]
  split
  · rename_i v hv
    rw [hl] at hv
    injection hv with hv
    exact hv ▸ dead_abortWorker (s := { s with dropped := true }) hw
  · rename_i hother
    exact absurd hl (hother _)

/-- A worker that has been asked to stop is at its end when it has run once more. -/
theorem Halting.wake (h : Halting s w) : Dead (s.wake w) w := by
  obtain ⟨k, hk, hstop⟩ := h
  cases halive : k.alive with
  | false =>
    have hdead : Dead s w := ⟨k, hk, halive⟩
    rw [State.wake_of_dead hdead]
    exact hdead
  | true =>
    have hs : k.stopping = true := hstop.resolve_right (by simp [halive])
    rw [State.wake, hk]
    cases hp : k.phase with
    | fresh | idle =>
      simp only [hp, hs, if_true]
      exact dead_endWorker (s := s.note (.syncStopped w)) hk
    | refreshing m =>
      simp only [hp, hs, if_true]
      refine dead_endWorker (k := k) ?_
      rw [State.dropPass_eq]
      exact hk
    | ended | crashed =>
      rw [Worker.alive, hp] at halive
      cases halive

theorem halting_of_stop (hw : s.workers.get? w = some k) (hev : Stops s w ev) :
    Halting (s.step ev) w := by
  obtain ⟨u, hu, hstep⟩ := hev.step_eq
  rw [← hu] at hw
  rw [hstep]
  rcases State.stopWorker_cases hw s.next with ⟨hdead, new, -, hs⟩ | ⟨-, hs⟩
  · rw [hs]
    exact .of_dead ⟨k, hw, hdead⟩
  · rw [hs]
    exact ⟨_, Table.get?_put_self, Or.inl rfl⟩

namespace WorkerBooks

theorem halting_run (h : WorkerBooks s) (hw : Halting s w) (es : List Event) :
    Halting (s.run es) w := by
  induction es generalizing s with
  | nil => exact hw
  | cons ev es ih =>
    obtain ⟨k, hk, hstop⟩ := hw
    obtain ⟨k', hk', hf⟩ := h.fate hk ev
    exact ih (h.step ev) ⟨k', hk', hstop.imp hf.stopping hf.dead⟩

/-- The pass that a worker is in the middle of knows when the worker has been asked to stop. -/
theorem halted (h : WorkerBooks s) (hw : Halting s w) (hp : s.passes.get? n = some pass)
    (hd : pass.driver = .worker w) : s.halted pass = true := by
  obtain ⟨k, hk, hstop⟩ := hw
  have halive := Worker.alive_of_refreshing ((h.refreshing ⟨pass, hp, hd⟩).phase hk)
  rw [State.halted, hd]
  dsimp only
  rw [hk, Option.any_some]
  exact hstop.resolve_right (by simp [halive])

end WorkerBooks

end

end Gatekeeper.Engine

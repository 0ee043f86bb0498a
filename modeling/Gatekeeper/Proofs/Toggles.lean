import Gatekeeper.Proofs.Provenance

/-!
# What the switches silence

An engine whose authorization or whose caching is switched off has no cache to keep: nobody has to
wait for a list, nothing is refreshed, no worker runs.  Whoever asks it for anything but a decision
is told at once that all is well; a decision is given away if authorization is off, and otherwise
left to one call to the backend.

* `Request.reply?` — what such an engine answers at once.
* `Bare` — an engine in which there is nothing but callers that wait for calls of their own.
* `Inert` — all that can happen to a bare engine.
* `State.blank` — an engine without its cache; `Bare.run_blank` says that nothing else depends on
  what somebody writes into it.
* `AtOnce` — somebody is told in the step in which it asks, and the backend is not called for it.
* `Silenced`, `switches_silence` — what is so after every run.

With a switch off, the state of an engine is all but empty, and stays so; this is the invariant
`Bare`.  Everything an engine can then do fits into the few lines of `Inert`, and what is
promised is read off them.  One part of the promise is that something does *not* depend on the
cache, which is shown by running the engine a second time without one.
-/

set_option autoImplicit false

namespace Gatekeeper.Engine

/-- What whoever asks is told at once by an engine without a cache, if anything. -/
def Request.reply? (settings : Settings) : Request → Option Outcome
  | .enforce .. => if settings.authorization then none else some .allowed
  | .update _ => some .updated
  | .iterate => some (.refreshed {})
  | .start => some .started
  | .shutdown | .stop _ => some .stopped
  | .spawn _ => none

/-- There is nothing in the engine but callers that wait for calls of their own. -/
structure Bare (s : State) : Prop where
  inactive : s.settings.cachingActive = false
  fetches : s.fetches = .empty
  passes : s.passes = .empty
  workers : s.workers = .empty
  idle : ∀ w, s.lifecycle ≠ .running w
  calls : ∀ {id call}, s.calls.get? id = some call → ∃ c e a, call.owner = .direct c e a
  callers : ∀ {c w}, s.callers.get? c = some w → ∃ id, w = .call id

/-- What can happen to a bare engine: something that concerns no caller and no call, a question that
is answered at once, or one that is left to the backend, the end of a call, or of somebody's
patience. -/
inductive Inert (ev : Event) (s : State) : State → Prop
  | circumstance (now : Nat) (lifecycle : Lifecycle) (dropped : Bool)
    (cache : Table Principal PrivilegeSet) (new : List Note) (hl : ∀ w, lifecycle ≠ .running w)
    (hc : (∀ p privileges, ev ≠ .write p privileges) → s.cache = .empty → cache = .empty)
    (hn : ∀ m ∈ new, m.caller? = none ∧ m.call? = none) :
    Inert ev s { s with
      now := now, lifecycle := lifecycle, dropped := dropped, cache := cache
      journal := new ++ s.journal }
  | told (r : Request) (o : Outcome) (lifecycle : Lifecycle) (new : List Note)
    (hl : ∀ w, lifecycle ≠ .running w) (ho : r.reply? s.settings = some o)
    (hn : ∀ m ∈ new, m.caller? = none ∧ m.call? = none) :
    Inert ev s { s with
      next := s.next + 1, lifecycle := lifecycle, callers := s.callers.erase s.next
      journal := .returned s.next o :: (new ++ .called s.next r :: s.journal) }
  | asks (e : Entity) (p : Principal) (a : Action) (ha : s.settings.authorization = true) :
    Inert ev s ((s.enter (.enforce e p a)).startOwnCall s.next p
      (if s.checks then .check e a else .listing) (.direct s.next e a))
  | ends {id : Id} {call : Call} {c : Id} {e : Entity} {a : Action} (ending : Ending) (o : Outcome)
    (hid : s.calls.get? id = some call) (hown : call.owner = .direct c e a) :
    Inert ev s ((s.endCall id call.principal ending).finish c o)
  | leaves (c id : Id) (hc : s.callers.get? c = some (.call id)) :
    Inert ev s ((s.leave c).dropCall id)

/-- The event lets something run that goes on in the background. -/
def Event.inner : Event → Bool
  | .release _ | .launch .. | .collect .. | .wake _ => true
  | _ => false

section

variable {s t : State} {ev : Event}

/-! ## What a bare engine does

Each operation looks at the two switches first.  Without a cache what is left of it is to enter
and to be told, and the equations here say so; only a decision may need a call. -/

namespace Bare

theorem initial {settings : Settings} (hoff : settings.cachingActive = false) (checks : Bool) :
    Bare (.initial settings checks) where
  inactive := hoff
  fetches := rfl
  passes := rfl
  workers := rfl
  idle w h := by cases h
  calls h := by cases h
  callers h := by cases h

variable (h : Bare s)

include h

theorem not_caching (ha : s.settings.authorization = true) : s.settings.caching = false := by
  have hoff := h.inactive
  rwa [Settings.cachingActive, ha, Bool.true_and] at hoff

/-- With authorization off everybody is allowed, otherwise the backend is called. -/
theorem enforce_eq (e : Entity) (p : Principal) (a : Action) :
    s.enforce e p a = if s.settings.authorization then
      (s.enter (.enforce e p a)).startOwnCall s.next p
        (if s.checks then .check e a else .listing) (.direct s.next e a)
      else (s.enter (.enforce e p a)).finish s.next .allowed := by
  have hs : (s.enter (.enforce e p a)).settings = s.settings := rfl
  have hk : (s.enter (.enforce e p a)).checks = s.checks := rfl
  cases ha : s.settings.authorization with
  | false => simp [State.enforce, hs, ha]
  | true => simp [State.enforce, hs, hk, ha, h.not_caching ha]

theorem update_eq (p : Principal) :
    s.update p = (s.enter (.update p)).finish s.next .updated := by
  have hs : (s.enter (.update p)).settings = s.settings := rfl
  simp [State.update, hs, h.inactive]

theorem iterate_eq : (s.enter .iterate).beginPass (.caller s.next)
    = (s.enter .iterate).finish s.next (.refreshed {}) := by
  have hs : (s.enter .iterate).settings = s.settings := rfl
  simp [State.beginPass, hs, h.inactive, State.reportPass]

theorem start_eq (scheduler : Bool) :
    s.start scheduler = (if !s.settings.authorization && s.settings.caching
      then (s.enter .start).note .cachingUnused else s.enter .start).finish s.next .started := by
  rw [State.start_eq, State.startFor, if_pos]
  split <;> simp [State.note, State.enter, h.inactive]

theorem shutdown_eq :
    s.shutdown = { s.enter .shutdown with lifecycle := .stopped }.finish s.next .stopped := by
  rw [State.shutdown]
  dsimp only
  split
  · rename_i w hw
    exact absurd hw (h.idle w)
  · rfl

theorem stop_eq (w : Id) : (s.enter (.stop w)).stopWorker s.next w
    = (s.enter (.stop w)).finish s.next .stopped := by
  have hw : (s.enter (.stop w)).workers.get? w = none := by
    show s.workers.get? w = none
    rw [h.workers, Table.get?_empty]
  rw [State.stopWorker, hw]

/-- There is nothing in the background that could run. -/
theorem step_of_inner (hev : ev.inner = true) : s.step ev = s := by
  cases ev with
  | release w => rw [State.step, State.abortWorker, h.workers, Table.get?_empty]
  | launch n p => rw [State.step, State.launch, h.passes, Table.get?_empty]
  | collect n p => rw [State.step, State.collect, h.passes, Table.get?_empty]
  | wake w => rw [State.step, State.wake, h.workers, Table.get?_empty]
  | _ => cases hev

end Bare

/-- What a call comes to that a caller made for a decision goes to that caller alone. -/
theorem State.settle_direct {id : Id} {call : Call} {c : Id} {e : Entity} {a : Action}
    (ho : call.owner = .direct c e a) (s : State) (r : Reply PrivilegeSet) :
    s.settle id call r = s.finish c ((Request.enforce e call.principal a).answer r) := by
  rw [settle, ho]
  dsimp only
  rw [settleDirect_eq, verdict_map_mem]

/-! ## All that can happen

`Inert` lists what a step can be, in the words of the state before and after.  Since every one of
these leaves the engine bare, the list holds along a whole run.  A worker of somebody's own is
left out, as it is the one thing that brings a worker into an engine without a cache. -/

namespace Inert

variable (h : Bare s)

include h

theorem same : Inert ev s s :=
  .circumstance s.now s.lifecycle s.dropped s.cache [] h.idle (fun _ hc => hc)
    fun _ hm => absurd hm List.not_mem_nil

/-- The cache is another, and the journal says so. -/
theorem cached {m : Note} (hm : m.caller? = none ∧ m.call? = none)
    {cache : Table Principal PrivilegeSet}
    (hc : (∀ p privileges, ev ≠ .write p privileges) → s.cache = .empty → cache = .empty) :
    Inert ev s ({ s with cache := cache }.note m) :=
  .circumstance s.now s.lifecycle s.dropped cache [m] h.idle hc
    fun _ hn => List.mem_singleton.mp hn ▸ hm

/-- Whoever asks is told in the same step. -/
theorem at_once {r : Request} {o : Outcome} (ho : r.reply? s.settings = some o) :
    Inert ev s ((s.enter r).finish s.next o) :=
  .told r o s.lifecycle [] h.idle ho fun _ hm => absurd hm List.not_mem_nil

theorem settled {id : Id} {call : Call} (hid : s.calls.get? id = some call) (ending : Ending)
    (r : Reply PrivilegeSet) :
    Inert ev s ((s.endCall id call.principal ending).settle id call r) := by
  obtain ⟨c, e, a, ho⟩ := h.calls hid
  rw [State.settle_direct ho]
  exact .ends ending _ hid ho

end Inert

/-- **What happens to a bare engine**, unless somebody starts a worker of his own. -/
theorem Bare.inert (h : Bare s) (ev : Event) (hev : ∀ period, ev ≠ .spawn period) :
    Inert ev s (s.step ev) := by
  have hask : ∀ {t : State}, Inert ev s t → Inert ev s (if s.dropped then s else t) := by
    intro t ht
    split
    · exact .same h
    · exact ht
  cases ev with
  | enforce e p a =>
    refine hask ?_
    rw [h.enforce_eq]
    split
    · rename_i ha
      exact .asks e p a ha
    · rename_i ha
      exact .at_once h (if_neg ha)
  | update p =>
    refine hask ?_
    rw [h.update_eq]
    exact .at_once h rfl
  | iterate =>
    refine hask ?_
    rw [h.iterate_eq]
    exact .at_once h rfl
  | start scheduler =>
    refine hask ?_
    rw [h.start_eq]
    split
    · refine .told .start .started s.lifecycle [.cachingUnused] h.idle rfl fun m hm => ?_
      rw [List.mem_singleton.mp hm]
      exact ⟨rfl, rfl⟩
    · exact .at_once h rfl
  | shutdown =>
    refine hask ?_
    rw [h.shutdown_eq]
    exact .told .shutdown .stopped .stopped [] (fun w hw => by cases hw) rfl
      fun m hm => absurd hm List.not_mem_nil
  | invalidate => exact hask (.cached h ⟨rfl, rfl⟩ fun _ _ => rfl)
  | drop =>
    refine hask ?_
    rw [State.drop_of_not_running h.idle]
    exact .circumstance s.now s.lifecycle true s.cache [] h.idle (fun _ hc => hc)
      fun m hm => absurd hm List.not_mem_nil
  | spawn period => exact absurd rfl (hev period)
  | stop w =>
    rw [State.step, h.stop_eq]
    exact .at_once h rfl
  | write p S => exact .cached h ⟨rfl, rfl⟩ fun hne _ => absurd rfl (hne p S)
  | clear => exact .cached h ⟨rfl, rfl⟩ fun _ _ => rfl
  | cancel c =>
    rw [State.step, State.cancel]
    cases hc : s.callers.get? c with
    | none => exact .same h
    | some w =>
      obtain ⟨id, rfl⟩ := h.callers hc
      exact .leaves c id hc
  | answer id r =>
    rw [State.step, State.answer]
    cases hid : s.calls.get? id with
    | none => exact .same h
    | some call =>
      dsimp only
      split
      · exact .settled h hid _ _
      · exact .same h
  | verdict id r =>
    rw [State.step, State.verdict]
    cases hid : s.calls.get? id with
    | none => exact .same h
    | some call =>
      dsimp only
      split
      · rename_i ho hq
        rw [State.settleDirect_eq]
        exact .ends _ _ hid ho
      · exact .same h
  | expire id =>
    rw [State.step, State.expire]
    cases hid : s.calls.get? id with
    | none => exact .same h
    | some call =>
      dsimp only
      split
      · exact .settled h hid _ _
      · exact .same h
  | elapse millis =>
    exact .circumstance (s.now + millis) s.lifecycle s.dropped s.cache [] h.idle (fun _ hc => hc)
      fun m hm => absurd hm List.not_mem_nil
  | _ =>
    rw [h.step_of_inner rfl]
    exact .same h

/-- A bare engine stays bare. -/
theorem Inert.bare (h : Bare s) (hi : Inert ev s t) : Bare t := by
  have hput : ∀ {c : Id} {w : Waiting} {c' w'}, (∃ id, w = .call id) →
      (s.callers.put c w).get? c' = some w' → ∃ id, w' = .call id := by
    intro c w c' w' hw hc'
    rcases Table.get?_put_eq_some_iff.mp hc' with ⟨-, rfl⟩ | ⟨-, hc'⟩
    · exact hw
    · exact h.callers hc'
  cases hi with
  | circumstance now lifecycle dropped cache new hl =>
    exact ⟨h.inactive, h.fetches, h.passes, h.workers, hl, h.calls, h.callers⟩
  | told r o lifecycle new hl =>
    exact ⟨h.inactive, h.fetches, h.passes, h.workers, hl, h.calls,
      fun hc => h.callers (Table.get?_erase_eq_some_iff.mp hc).2⟩
  | asks e p a ha =>
    refine ⟨h.inactive, h.fetches, h.passes, h.workers, h.idle, fun {id call} hid => ?_,
      hput ⟨_, rfl⟩⟩
    rcases Table.get?_put_eq_some_iff.mp hid with ⟨-, rfl⟩ | ⟨-, hid⟩
    · exact ⟨s.next, e, a, rfl⟩
    · exact h.calls hid
  | ends ending o hid hown =>
    exact ⟨h.inactive, h.fetches, h.passes, h.workers, h.idle,
      fun hid' => h.calls (Table.get?_erase_eq_some_iff.mp hid').2,
      fun hc => h.callers (Table.get?_erase_eq_some_iff.mp hc).2⟩
  | leaves c id hc =>
    have hleft : Bare (s.leave c) := ⟨h.inactive, h.fetches, h.passes, h.workers, h.idle, h.calls,
      fun hc => h.callers (Table.get?_erase_eq_some_iff.mp hc).2⟩
    rw [State.dropCall]
    split
    · exact ⟨hleft.inactive, hleft.fetches, hleft.passes, hleft.workers, hleft.idle,
        fun hid' => hleft.calls (Table.get?_erase_eq_some_iff.mp hid').2, hleft.callers⟩
    · exact hleft

/-- Only what somebody writes into the cache gets there. -/
theorem Inert.cache_eq (hi : Inert ev s t) (hw : ∀ p privileges, ev ≠ .write p privileges)
    (hc : s.cache = .empty) : t.cache = .empty := by
  cases hi with
  | circumstance now lifecycle dropped cache new hl hcache => exact hcache hw hc
  | leaves c id =>
    rw [State.dropCall]
    split <;> exact hc
  | _ => exact hc

theorem Bare.run (h : Bare s) {es : List Event} (hes : ∀ period, .spawn period ∉ es) :
    Bare (s.run es) :=
  run_keeps h fun ev hev _ ht => Inert.bare ht (ht.inert ev fun period he => hes period (he ▸ hev))

theorem Bare.cache_run (h : Bare s) (hc : s.cache = .empty) {es : List Event}
    (hes : ∀ period, .spawn period ∉ es) (hw : ∀ p privileges, .write p privileges ∉ es) :
    (s.run es).cache = .empty := by
  induction es using List.reverseRecOn with
  | nil => exact hc
  | append_singleton es ev ih =>
    have hes' : ∀ period, .spawn period ∉ es := fun period hm =>
      hes period (List.mem_append_left _ hm)
    have hlast : ev ∈ es ++ [ev] := List.mem_append_right _ List.mem_cons_self
    rw [run_append]
    refine ((h.run hes').inert ev fun period he => hes period (he ▸ hlast)).cache_eq
      (fun p S he => hw p S (he ▸ hlast)) (ih hes' fun p S hm => hw p S ?_)
    exact List.mem_append_left _ hm

/-! ## What the journal says

In an engine with a cache a caller can wait for somebody else's call.  Here every call in the
journal is the caller's own and made for a decision, and every decision that is not given away
has one. -/

/-- The note says that a call was begun that the caller makes itself. -/
def Note.beganFor (c : Id) : Note → Bool
  | .began _ _ _ o => o.caller? == some c
  | _ => false

/-- What the journal of an engine without a cache says: calls are begun for decisions, and every
decision that is left to the backend takes one. -/
structure Plain (s : State) : Prop where
  began : ∀ {id p q o}, .began id p q o ∈ s.journal → s.settings.authorization = true
    ∧ ∃ c e a, o = .direct c e a ∧ .called c (.enforce e p a) ∈ s.journal
  once : ∀ {c e p a}, s.settings.authorization = true → .called c (.enforce e p a) ∈ s.journal →
    ∃ id, s.journal.filter (Note.beganFor c)
      = [.began id p (if s.checks then .check e a else .listing) (.direct c e a)]

namespace Plain

theorem initial (settings : Settings) (checks : Bool) : Plain (.initial settings checks) where
  began h := absurd h List.not_mem_nil
  once _ h := absurd h List.not_mem_nil

/-- No call begins, and nobody asks who has to wait for one. -/
theorem tell (h : Plain s) (new : List Note) (hs : t.settings = s.settings)
    (hk : t.checks = s.checks) (hj : t.journal = new ++ s.journal)
    (hbegan : ∀ id p q o, .began id p q o ∉ new)
    (hcalled : ∀ c r, .called c r ∈ new → r.reply? s.settings ≠ none) : Plain t where
  began {id p q o} hb := by
    rw [hj] at hb ⊢
    rw [hs]
    rcases List.mem_append.mp hb with hb | hb
    · exact absurd hb (hbegan id p q o)
    · obtain ⟨ha, c, e, a, ho, hc⟩ := h.began hb
      exact ⟨ha, c, e, a, ho, List.mem_append_right _ hc⟩
  once {c e p a} ha hc := by
    rw [hs] at ha
    rw [hj] at hc ⊢
    rw [hk]
    have hnew : new.filter (Note.beganFor c) = [] := by
      rw [List.filter_eq_nil_iff]
      intro m hm
      cases m with
      | began id p q o => exact absurd hm (hbegan id p q o)
      | _ => exact Bool.false_ne_true
    rw [List.filter_append, hnew]
    rcases List.mem_append.mp hc with hc | hc
    · exact absurd (if_pos ha) (hcalled c _ hc)
    · exact h.once ha hc

/-- Somebody asks for a decision, and one call is begun for it. -/
theorem asks (h : Plain s) (ho : Orderly s) {e : Entity} {p : Principal} {a : Action}
    (ha : s.settings.authorization = true) (hs : t.settings = s.settings)
    (hk : t.checks = s.checks)
    (hj : t.journal = .began (s.next + 1) p (if s.checks then .check e a else .listing)
      (.direct s.next e a) :: .joined s.next (s.next + 1) :: .called s.next (.enforce e p a)
        :: s.journal) : Plain t := by
  -- a caller that has asked before is not the one that asks now
  have hold : ∀ {c r}, .called c r ∈ s.journal → c ≠ s.next := fun hc =>
    Nat.ne_of_lt (ho.notes _ hc _ List.mem_cons_self)
  have hcalled : ∀ {c r}, .called c r ∈ t.journal →
      (c = s.next ∧ r = .enforce e p a) ∨ .called c r ∈ s.journal := by
    intro c r hc
    rw [hj] at hc
    simpa using hc
  refine ⟨fun {id p' q o} hb => ?_, fun {c e' p' a'} hauth hc => ?_⟩
  · rw [hs]
    refine ⟨ha, ?_⟩
    rw [hj] at hb ⊢
    rcases List.mem_cons.mp hb with hb | hb
    · injection hb with _ hp _ hown
      subst hp hown
      exact ⟨s.next, e, a, rfl, List.mem_append_right [_, _] List.mem_cons_self⟩
    · obtain ⟨-, c, e', a', hown, hc⟩ := h.began (by simpa using hb)
      exact ⟨c, e', a', hown, List.mem_append_right [_, _, _] hc⟩
  · rw [hj, hk, List.filter_cons, List.filter_cons_of_neg Bool.false_ne_true,
      List.filter_cons_of_neg Bool.false_ne_true]
    have hself : ∀ id p q, (Note.began id p q (.direct s.next e a)).beganFor c = (s.next == c) :=
      fun _ _ _ => rfl
    rw [hself]
    rcases hcalled hc with ⟨rfl, hreq⟩ | hc
    · injection hreq with he hp hact
      subst he hp hact
      have hnone : s.journal.filter (Note.beganFor s.next) = [] := by
        rw [List.filter_eq_nil_iff]
        intro m hm hb
        cases m with
        | began id p' q' o =>
          obtain ⟨-, c', e', a', rfl, hc'⟩ := h.began hm
          exact hold hc' (Option.some_inj.mp (beq_iff_eq.mp hb))
        | _ => cases hb
      exact ⟨s.next + 1, by rw [if_pos (beq_self_eq_true _), hnone]⟩
    · obtain ⟨id, hid⟩ := h.once ha hc
      refine ⟨id, ?_⟩
      rw [if_neg fun he => hold hc (beq_iff_eq.mp he).symm]
      exact hid

theorem inert (h : Plain s) (ho : Orderly s) (hi : Inert ev s t) : Plain t := by
  have hquiet : ∀ {new : List Note}, (∀ m ∈ new, m.caller? = none ∧ m.call? = none) →
      (∀ id p q o, .began id p q o ∉ new) ∧ ∀ c r, .called c r ∉ new := by
    refine fun hn => ⟨fun id p q o hm => ?_, fun c r hm => ?_⟩
    · cases (hn _ hm).2
    · cases (hn _ hm).1
  cases hi with
  | circumstance now lifecycle dropped cache new hl hc hn =>
    exact h.tell new rfl rfl rfl (hquiet hn).1 fun c r hm => absurd hm ((hquiet hn).2 c r)
  | told r o lifecycle new hl hr hn =>
    refine h.tell (.returned s.next o :: (new ++ [.called s.next r])) rfl rfl (by simp)
      (fun id p q o hm => ?_) fun c r' hm => ?_
    · simp [(hquiet hn).1] at hm
    · obtain ⟨rfl, rfl⟩ : c = s.next ∧ r' = r := by simpa [(hquiet hn).2] using hm
      exact Option.ne_none_iff_exists'.mpr ⟨o, hr⟩
  | asks e p a ha => exact h.asks ho ha rfl rfl rfl
  | @ends id call c e a ending o =>
    exact h.tell [.returned c o, .ended id call.principal ending] rfl rfl rfl (by simp) (by simp)
  | leaves c id =>
    have hleft : Plain (s.leave c) := h.tell [.cancelled c] rfl rfl rfl (by simp) (by simp)
    rw [State.dropCall]
    split
    · rename_i call _
      exact hleft.tell [.dropped id call.owner] rfl rfl rfl (by simp) (by simp)
    · exact hleft

/-- **The journal says this after every run.** -/
theorem run (h : Plain s) (hb : Bare s) (ho : Orderly s) {es : List Event}
    (hes : ∀ period, .spawn period ∉ es) : Plain (s.run es) := by
  have hkept : Plain (s.run es) ∧ Bare (s.run es) ∧ Orderly (s.run es) := by
    refine run_keeps (P := fun t => Plain t ∧ Bare t ∧ Orderly t) ⟨h, hb, ho⟩ ?_
    rintro ev hev t ⟨ht, hbare, horderly⟩
    have hi := hbare.inert ev fun period he => hes period (he ▸ hev)
    exact ⟨ht.inert horderly hi, hi.bare hbare, horderly.step ev⟩
  exact hkept.1

end Plain

/-! ## The engine without its cache

Somebody may still write into the cache by hand, or clear it.  That this makes no difference to
anything else is said by playing the same events on an engine that has no cache at all. -/

/-- The event is about nothing but the cache. -/
def Event.onCache : Event → Bool
  | .write .. | .clear | .invalidate => true
  | _ => false

/-- The engine without its cache, and without what the journal says of it. -/
def State.blank (s : State) : State :=
  { s with cache := .empty, journal := s.journal.filter fun n => !n.stores }

namespace Bare

variable (h : Bare s)

include h

theorem blank : Bare s.blank :=
  ⟨h.inactive, h.fetches, h.passes, h.workers, h.idle, h.calls, h.callers⟩

omit h in
/-- What happens to the cache alone is not seen without it. -/
theorem step_onCache (hev : ev.onCache = true) : (s.step ev).blank = s.blank := by
  cases ev with
  | write p S => rfl
  | clear => rfl
  | invalidate =>
    rw [State.step]
    split <;> rfl
  | _ => cases hev

/-- Nothing else depends on the cache. -/
theorem step_blank (hev : ev.onCache = false) (hspawn : ∀ period, ev ≠ .spawn period) :
    (s.step ev).blank = s.blank.step ev := by
  have hask : ∀ {t u : State}, t.blank = u →
      (if s.dropped then s else t).blank = if s.blank.dropped then s.blank else u := by
    rintro t u rfl
    show (if s.dropped then s else t).blank = if s.dropped then s.blank else t.blank
    split <;> rfl
  cases ev with
  | enforce e p a =>
    refine hask ?_
    rw [h.enforce_eq, h.blank.enforce_eq]
    show _ = if s.settings.authorization then _ else _
    split <;> rfl
  | update p =>
    refine hask ?_
    rw [h.update_eq, h.blank.update_eq]
    rfl
  | iterate =>
    refine hask ?_
    rw [h.iterate_eq, h.blank.iterate_eq]
    rfl
  | start scheduler =>
    refine hask ?_
    rw [h.start_eq, h.blank.start_eq]
    show _ = (if !s.settings.authorization && s.settings.caching then _ else _ : State).finish _ _
    split <;> rfl
  | shutdown =>
    refine hask ?_
    rw [h.shutdown_eq, h.blank.shutdown_eq]
    rfl
  | drop =>
    refine hask ?_
    rw [State.drop_of_not_running h.idle, State.drop_of_not_running h.blank.idle]
    rfl
  | spawn period => exact absurd rfl (hspawn period)
  | stop w =>
    rw [State.step, State.step, h.stop_eq, h.blank.stop_eq]
    rfl
  | write | clear | invalidate => cases hev
  | cancel c =>
    have hblank : s.blank.callers.get? c = s.callers.get? c := rfl
    rw [State.step, State.step, State.cancel, State.cancel, hblank]
    cases hc : s.callers.get? c with
    | none => rfl
    | some w =>
      obtain ⟨id, rfl⟩ := h.callers hc
      show ((s.leave c).dropCall id).blank = (s.blank.leave c).dropCall id
      have hcalls : (s.blank.leave c).calls.get? id = (s.leave c).calls.get? id := rfl
      rw [State.dropCall, State.dropCall, hcalls]
      split <;> rfl
  | answer id r =>
    have hblank : s.blank.calls.get? id = s.calls.get? id := rfl
    rw [State.step, State.step, State.answer, State.answer, hblank]
    cases hid : s.calls.get? id with
    | none => rfl
    | some call =>
      obtain ⟨c, e, a, ho⟩ := h.calls hid
      have hatt : s.blank.attended call = s.attended call := rfl
      dsimp only
      rw [State.settle_direct ho, State.settle_direct ho, hatt]
      split <;> rfl
  | verdict id r =>
    have hblank : s.blank.calls.get? id = s.calls.get? id := rfl
    rw [State.step, State.step, State.verdict, State.verdict, hblank]
    cases hid : s.calls.get? id with
    | none => rfl
    | some call =>
      dsimp only
      split
      · rw [State.settleDirect_eq, State.settleDirect_eq]
        rfl
      · rfl
  | expire id =>
    have hblank : s.blank.calls.get? id = s.calls.get? id := rfl
    rw [State.step, State.step, State.expire, State.expire, hblank]
    cases hid : s.calls.get? id with
    | none => rfl
    | some call =>
      obtain ⟨c, e, a, ho⟩ := h.calls hid
      have hatt : s.blank.attended call = s.attended call := rfl
      dsimp only
      rw [State.settle_direct ho, State.settle_direct ho, hatt]
      show _ = if (s.attended call && decide (call.deadline ≤ s.now)) then _ else _
      split <;> rfl
  | elapse millis => rfl
  | _ => rw [h.step_of_inner rfl, h.blank.step_of_inner rfl]

omit h in
/-- **Whatever is done to the cache, the rest of the engine goes on as it would have.** -/
theorem run_blank (h : Bare s) {es : List Event} (hes : ∀ period, .spawn period ∉ es) :
    (s.run es).blank = s.blank.run (es.filter fun ev => !ev.onCache) := by
  induction es generalizing s with
  | nil => rfl
  | cons ev es ih =>
    have hspawn : ∀ period, ev ≠ .spawn period := fun period he =>
      hes period (he ▸ List.mem_cons_self)
    have hrest := ih ((h.inert ev hspawn).bare h) fun period hm =>
      hes period (List.mem_cons_of_mem _ hm)
    rw [run_cons, hrest]
    cases hev : ev.onCache with
    | true => rw [step_onCache hev, List.filter_cons_of_neg (by simp [hev])]
    | false =>
      rw [h.step_blank hev hspawn, List.filter_cons_of_pos (by simp [hev])]
      rfl

end Bare

end

/-! ## What is promised

What is promised is about whatever is asked next of an engine that has had any run, so it holds at
every place of every run; that something was asked is read off the step in which it is. -/

/-- An engine that is there tells whoever asks it next this at once, and nothing else ever, and does
not call the backend for it. -/
def AtOnce (s : State) (ev : Event) (r : Request) (o : Outcome) : Prop :=
  s.dropped = false → .called s.next r ∈ (s.step ev).journal ∧ (s.step ev).calls = s.calls
    ∧ ∀ es o', .returned s.next o' ∈ (s.run (ev :: es)).journal ↔ o' = o

/-- What is promised of an engine without a cache, after a run that starts with `s`. -/
structure Silenced (s : State) (es : List Event) : Prop where
  /-- Nothing is in the cache but what somebody has written there by hand. -/
  cache : (∀ p privileges, .write p privileges ∉ es) → (s.run es).cache = .empty
  fetches : (s.run es).fetches = .empty
  passes : (s.run es).passes = .empty
  workers : (s.run es).workers = .empty
  updated : ∀ p, AtOnce (s.run es) (.update p) (.update p) .updated
  refreshed : AtOnce (s.run es) .iterate .iterate (.refreshed {})
  /-- Whoever starts the refresh succeeds, in an engine that has been shut down as in any other. -/
  started : ∀ scheduler, AtOnce (s.run es) (.start scheduler) .start .started
  /-- Whatever the backend is asked is in the journal, -/
  noted : ∀ {id call}, (s.run es).calls.get? id = some call →
    .began id call.principal call.question call.owner ∈ (s.run es).journal
  /-- and it is asked for nothing but decisions. -/
  calls : ∀ {id p q o}, .began id p q o ∈ (s.run es).journal →
    ∃ c e a, o = .direct c e a ∧ .called c (.enforce e p a) ∈ (s.run es).journal
  /-- With authorization off everything is allowed, and the backend is not called at all. -/
  allowed : s.settings.authorization = false →
    (∀ e p a, AtOnce (s.run es) (.enforce e p a) (.enforce e p a) .allowed)
    ∧ ∀ id p q o, .began id p q o ∉ (s.run es).journal
  /-- With only caching off every decision takes exactly one call, which begins at once. -/
  direct : s.settings.authorization = true → (s.run es).dropped = false → ∀ e p a, ∃ id call,
    (call.principal = p ∧ call.question = (if s.checks then .check e a else .listing)
      ∧ call.owner = .direct (s.run es).next e a)
    ∧ ((s.run es).step (.enforce e p a)).calls = (s.run es).calls.put id call
    ∧ ∀ es', (∀ period, .spawn period ∉ es') →
      ((s.run es).run (.enforce e p a :: es')).journal.filter (Note.beganFor (s.run es).next)
        = [.began id call.principal call.question call.owner]
  /-- Whatever is written into the cache, everybody is told the same, after the same calls. -/
  independent : ∀ es', (∀ period, .spawn period ∉ es') →
    es'.filter (fun ev => !ev.onCache) = es.filter (fun ev => !ev.onCache) →
      (s.run es').journal.filter (fun n => !n.stores)
        = (s.run es).journal.filter (fun n => !n.stores)

section

variable {s : State} {ev : Event} {r : Request} {o : Outcome}

/-- Whoever is told in the step in which it asks is told nothing else later. -/
theorem AtOnce.of_finish (hb : Books s) (h : s.dropped = false →
    ∃ u : State, s.step ev = u.finish s.next o ∧ .called s.next r ∈ u.journal
      ∧ u.calls = s.calls) :
    AtOnce s ev r o := by
  intro hd
  obtain ⟨u, hu, hcalled, hcalls⟩ := h hd
  refine ⟨hu ▸ List.mem_cons_of_mem _ hcalled, hu ▸ hcalls, fun es o' => ?_⟩
  have htold : .returned s.next o ∈ (s.run (ev :: es)).journal := by
    refine ((hb.run [ev]).suffix_run es).subset ?_
    show _ ∈ (s.step ev).journal
    exact hu ▸ List.mem_cons_self
  refine ⟨fun hr => (hb.run (ev :: es)).callers.returned_unique hr htold, ?_⟩
  rintro rfl
  exact htold

namespace Bare

variable (h : Bare s) (hb : Books s)

include h hb

theorem updated (p : Principal) : AtOnce s (.update p) (.update p) .updated := by
  refine .of_finish hb fun hd => ⟨s.enter (.update p), ?_, List.mem_cons_self, rfl⟩
  simp [State.step, hd, h.update_eq]

theorem refreshed : AtOnce s .iterate .iterate (.refreshed {}) := by
  refine .of_finish hb fun hd => ⟨s.enter .iterate, ?_, List.mem_cons_self, rfl⟩
  rw [step_iterate hd, h.iterate_eq]

theorem started (scheduler : Bool) : AtOnce s (.start scheduler) .start .started := by
  refine .of_finish hb fun hd => ⟨_, (step_start hd scheduler).trans (h.start_eq scheduler), ?_, ?_⟩
  · split
    · exact List.mem_cons_of_mem _ List.mem_cons_self
    · exact List.mem_cons_self
  · split <;> rfl

theorem allowed (ha : s.settings.authorization = false) (e : Entity) (p : Principal) (a : Action) :
    AtOnce s (.enforce e p a) (.enforce e p a) .allowed := by
  refine .of_finish hb fun hd => ⟨s.enter (.enforce e p a), ?_, List.mem_cons_self, rfl⟩
  simp [State.step, hd, h.enforce_eq, ha]

end Bare

/-- The call that a decision takes begins in the step in which the decision is asked for. -/
theorem step_enforce_calls (hd : s.dropped = false) (ha : s.settings.authorization = true)
    (hc : s.settings.caching = false) (e : Entity) (p : Principal) (a : Action) :
    ∃ id call, (call.principal = p ∧ call.question = (if s.checks then .check e a else .listing)
        ∧ call.owner = .direct s.next e a)
      ∧ (s.step (.enforce e p a)).calls = s.calls.put id call
      ∧ .began id call.principal call.question call.owner ∈ (s.step (.enforce e p a)).journal
      ∧ .called s.next (.enforce e p a) ∈ (s.step (.enforce e p a)).journal := by
  rw [step_enforce_direct hd ha hc]
  exact ⟨_, _, ⟨rfl, rfl, rfl⟩, rfl, List.mem_cons_self,
    List.mem_cons_of_mem _ (List.mem_cons_of_mem _ List.mem_cons_self)⟩

end

/-- **What the switches silence.**  In every run of an engine whose authorization or whose caching
is off, and in which nobody starts a worker of his own, there is no fetch, no pass and no worker,
and no cache entry but those that somebody writes by hand; updates, passes and starts succeed
without a call, whenever they are asked for; decisions are given away if authorization is off and
otherwise take one call each; and what is written into the cache by hand makes no difference. -/
theorem switches_silence (settings : Settings) (checks : Bool)
    (hoff : settings.authorization = false ∨ settings.caching = false) (es : List Event)
    (hes : ∀ period, .spawn period ∉ es) : Silenced (.initial settings checks) es := by
  have hinactive : settings.cachingActive = false := by
    rcases hoff with hoff | hoff <;> simp [Settings.cachingActive, hoff]
  have hinit := Bare.initial hinactive checks
  have hb := Books.initial settings checks
  have hs : ∀ es, ((State.initial settings checks).run es).settings = settings :=
    hb.orderly.settings_run
  have hbare := hinit.run hes
  have hbooks := hb.run es
  have hplain : ∀ {es : List Event}, (∀ period, .spawn period ∉ es) →
      Plain ((State.initial settings checks).run es) := fun hes =>
    (Plain.initial settings checks).run hinit hb.orderly hes
  refine ⟨hinit.cache_run rfl hes, hbare.fetches, hbare.passes, hbare.workers, hbare.updated hbooks,
    hbare.refreshed hbooks, hbare.started hbooks, fun hid => hbooks.calls.began_of_get? hid,
    fun h => ((hplain hes).began h).2,
    fun ha => ⟨hbare.allowed hbooks ((congrArg Settings.authorization (hs es)).trans ha),
      fun id p q o h => ?_⟩, fun ha hd e p a => ?_, fun es' hes' he => ?_⟩
  · have hon := ((hplain hes).began h).1
    rw [hs, show settings.authorization = false from ha] at hon
    cases hon
  · have hauth : ((State.initial settings checks).run es).settings.authorization = true := by
      rw [hs]
      exact ha
    have hcaching : ((State.initial settings checks).run es).settings.caching = false := by
      rw [hs]
      exact hoff.resolve_left fun hoff => by cases hoff.symm.trans ha
    obtain ⟨id, call, hcall, hcalls, hbegan, hcalled⟩ :=
      step_enforce_calls hd hauth hcaching e p a
    rw [hb.orderly.checks_run] at hcall
    refine ⟨id, call, hcall, hcalls, fun es' hes' => ?_⟩
    have hall : ∀ period, Event.spawn period ∉ es ++ .enforce e p a :: es' := by
      intro period hm
      rcases List.mem_append.mp hm with hm | hm
      · exact hes period hm
      · exact hes' period ((List.mem_cons.mp hm).resolve_left fun he => by cases he)
    have hsub := ((hbooks.run [.enforce e p a]).suffix_run es').subset
    have hrun : ((State.initial settings checks).run es).run (.enforce e p a :: es')
        = (State.initial settings checks).run (es ++ .enforce e p a :: es') :=
      (run_append _ _ _).symm
    obtain ⟨id', hone⟩ := (hplain hall).once (by rw [hs]; exact ha) (hrun ▸ hsub hcalled)
    rw [← hrun] at hone
    -- the call that has begun is the one that there is
    have hfor : Note.beganFor ((State.initial settings checks).run es).next
        (.began id call.principal call.question call.owner) = true := by
      rw [hcall.2.2]
      exact beq_self_eq_true _
    have hmem := List.mem_filter.mpr ⟨hsub hbegan, hfor⟩
    have hmem : Note.began id call.principal call.question call.owner ∈ [_] := hone ▸ hmem
    rw [hone, List.mem_singleton.mp hmem]
  · exact congrArg State.journal ((hinit.run_blank hes').trans (he ▸ (hinit.run_blank hes).symm))

/-- The engine has been shut down and has an entry that allows nothing, and still everybody is
served: the start succeeds, and the backend allows the action. -/
theorem switches_silence_of_entry :
    let settings : Settings := { authorization := true, caching := false }
    let s := State.initial settings true
    let p : Principal := ⟨.user, "alice"⟩
    let e : Entity := .space "docs"
    let es : List Event := [.shutdown, .start true, .write p (.ofList []), .iterate,
      .enforce e p .read, .verdict 4 (.value true)]
    (settings.authorization = false ∨ settings.caching = false) ∧ (∀ period, .spawn period ∉ es)
      ∧ Silenced s es
      ∧ .returned 1 .started ∈ (s.run es).journal ∧ .returned 3 .allowed ∈ (s.run es).journal := by
  intro settings s p e es
  have hes : ∀ period, Event.spawn period ∉ es := by
    intro period h
    simp [es] at h
  exact ⟨.inr rfl, hes, switches_silence settings true (.inr rfl) es hes, by decide, by decide⟩

end Gatekeeper.Engine

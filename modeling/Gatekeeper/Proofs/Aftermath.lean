import Gatekeeper.Proofs.Abandon

/-!
# When the call of a fetch is over

A fetch is meant to last as long as its call: once the call is over, in one way or the other, the
fetch is gone, everybody who waited has been told, and the next caller that misses makes a new call
that alone decides what it is told.  There are two ways in which this goes wrong.  A call that
crashes leaves its fetch broken for good, and takes down whoever turns to it.  And a call whose
callers have all given up runs out of time unseen: nobody takes its fetch away, and the next caller
fails with the timeout of a call that was over before it asked.

* `Conclusion`, `Concludes` — the ways in which the call of a fetch can be over.
* `Aftermath` — what is meant to be so then, whatever happens afterwards.
* `Poisoned` — what is so instead when the call has crashed.
* `LeftBehind` — what is so instead when its time has run out unseen.
* `Recent` — nothing that is registered for the principal goes back to before.
* `aftermath_iff` — which of the three is so depends on how the call has come to be over.

That the fetch is gone after a call has ended is seen in the step itself.  That it leaves nothing
behind is a statement about all that can follow, and the invariant for it is small: what is
registered for the principal from then on belongs to a call that has begun later (`Recent`).  The
two ways in which things go wrong are shown in the same form, as statements about all that can
follow, so that each of the three is known as definitely as the others.
-/

set_option autoImplicit false

namespace Gatekeeper.Engine

/-- The caller is told that the backend has failed it, or is taken down. -/
def Outcome.mishap : Outcome → Bool
  | .crashed | .failed (.backendUnavailable _) => true
  | _ => false

/-! ## Ways for a call to be over

Somebody looks after the call of a fetch as long as anybody waits for it.  Then the call ends in
a step, with an answer, a crash, or the end of its time.  If nobody waits any more, no step ends
it; but its time can still run out, and by then it ought to be over as well. -/

/-- How the call of a fetch can be over. -/
inductive Conclusion where
  /-- It has ended, and everybody can see how. -/
  | ended (ending : Ending)
  /-- Its time is up, and nobody has looked at the clock. -/
  | unseen

/-- What everybody is to be told who has waited for the call. -/
def Conclusion.ending : Conclusion → Ending
  | ended ending => ending
  | unseen => .timedOut

/-- With the event the call of a fetch for the principal is over: somebody waits for it, and the
event is an answer to it or finds its time up; or its time is up after the event, and all who had
joined it have given up. -/
inductive Concludes (s : State) (ev : Event) (id : Id) (p : Principal) : Conclusion → Prop
  | ended {call : Call} {ending : Ending} {r : Reply PrivilegeSet} {c : Id} {e : Entity}
    {a : Action} (hid : s.calls.get? id = some call) (ho : call.owner = .fetch)
    (hp : call.principal = p) (hw : s.callers.get? c = some (.fetch p e a))
    (he : Ends ev s id call ending r) : Concludes s ev id p (.ended ending)
  | unseen {call : Call} (ha : Abandoned (s.step ev) id p)
    (hid : (s.step ev).calls.get? id = some call) (ht : call.deadline ≤ (s.step ev).now) :
    Concludes s ev id p .unseen

/-! ## What follows

`Aftermath` is what a caller may expect of a call that is over, and it is stated for everything
that can happen later.  The other two say, as definitely, what is so when a call crashes and when
its time runs out unseen. -/

/-- What is meant to be so when the call of a fetch for the principal is over after a step from `s`
to `t`: the fetch is gone, a list that came back is cached and nothing else is, and everybody who
waited has been told, as `Lands` says. -/
structure Aftermath (s t : State) (id : Id) (p : Principal) (ending : Ending) : Prop
    extends Lands s t id p ending where
  /-- Who misses the principal next makes a new call, which alone decides what it is told. -/
  renewed : ∀ es, t.Unmissed es p → (t.run es).Misses p → ∀ e a, ∃ id, OwnCall (t.run es) e p a id
  /-- If the backend fails anybody later, then in a call that has begun later. -/
  blameless : ∀ es e a es' o, (t.run es).dropped = false →
    .returned (t.run es).next o ∈ ((t.run es).run (.enforce e p a :: es')).journal →
      o.mishap = true → ∃ id ending, ¬ t.Begun id
        ∧ .ended id p ending ∈ ((t.run es).run (.enforce e p a :: es')).journal
        ∧ ending.set? = none

/-- The fetch of the principal is broken for good: whoever misses is taken down at once, and the
backend is never asked again. -/
structure Poisoned (t : State) (p : Principal) : Prop where
  broken : ∀ es, (t.run es).fetches.get? p = some .broken
  crashes : ∀ es, (t.run es).Misses p → ∀ e a,
    .returned (t.run es).next .crashed ∈ ((t.run es).step (.enforce e p a)).journal
      ∧ ((t.run es).step (.enforce e p a)).calls = (t.run es).calls

/-- The fetch of the principal is registered with a call whose time is up: whoever misses next joins
that call instead of making one, and fails with its timeout at the moment at which it asks, as soon
as somebody looks at the clock. -/
structure LeftBehind (t : State) (id : Id) (p : Principal) : Prop extends PicksUp t id p where
  registered : t.fetches.get? p = some (.underway id)
  fails : ∀ es, t.Unmissed es p → (t.run es).Misses p → ∀ e a,
    .returned (t.run es).next (.failed (.backendUnavailable
      (.timedOut Owner.fetch.operation t.settings.backendTimeout)))
        ∈ ((t.run es).run [.enforce e p a, .expire id]).journal
      ∧ ((t.run es).run [.enforce e p a, .expire id]).now = (t.run es).now

section

variable {s t u : State} {ev : Event} {id : Id} {p : Principal} {ending : Ending}

/-! ## How the call of a fetch ends

The step is about the fetch alone: whatever else was under way goes on as before. -/

/-- The step in which the call of a fetch ends is about nothing else. -/
theorem Ends.step_fetch {call : Call} {r : Reply PrivilegeSet} {c : Id} {e : Entity} {a : Action}
    (hends : Ends ev s id call ending r) (hid : s.calls.get? id = some call)
    (ho : call.owner = .fetch) (hw : s.callers.get? c = some (.fetch call.principal e a)) :
    s.step ev = (s.endCall id call.principal ending).settleFetch id call.principal r := by
  have hatt : s.attended call = true := by
    rw [State.attended, ho]
    exact State.awaited_iff.mpr ⟨c, e, a, hw⟩
  rw [hends.step_eq hid hatt, State.settle, ho]

/-- What a call has ended with is a crash exactly if that is what its owner gets. -/
theorem Ends.crashed_iff {call : Call} {r : Reply PrivilegeSet} (h : Ends ev s id call ending r) :
    r = .crashed ↔ ending = .listed .crashed := by
  cases h with
  | answer => simp
  | expire => simp

/-! ## Broken for good

A fetch whose call has crashed is never registered anew and never taken away. -/

theorem Move.broken (h : Books s) (m : Move ev s t) (hp : s.fetches.get? p = some .broken) :
    t.fetches.get? p = some .broken := by
  rcases m.flight h with hstill | ⟨c, e, q, a, -, hq, rfl⟩ |
    ⟨id, call, ending, r, hid, ho, -, -, rfl⟩
  · rw [hstill.fetches, hp]
  · refine (Table.get?_put_of_ne ?_).trans hp
    rintro rfl
    rw [hp] at hq
    cases hq
  · rw [State.settleFetch_eq]
    refine (Reply.get?_unregister_of_ne ?_).trans hp
    rintro rfl
    rw [h.calls.registered hid ho] at hp
    cases hp

theorem Poisoned.of_broken (h : Books t) (hp : t.fetches.get? p = some .broken) :
    Poisoned t p := by
  have hbroken : ∀ es, (t.run es).fetches.get? p = some .broken := fun es =>
    h.run_induction (P := fun u => u.fetches.get? p = some .broken) hp fun _ _ _ _ hu hup m =>
      m.broken hu hup
  refine ⟨hbroken, fun es hm e a => ?_⟩
  rw [step_enforce_broken hm (hbroken es)]
  exact ⟨List.mem_cons_self, rfl⟩

/-! ## Left behind

Here the fetch is one that everybody has given up, as described in `Gatekeeper.Proofs.Abandon`,
with nothing to be added but that the time of its call is up. -/

/-- **A call that has run out of time unseen is left behind.** -/
theorem Abandoned.leftBehind (h : Books t) (hclock : Clocked t) (ha : Abandoned t id p)
    {call : Call} (hid : t.calls.get? id = some call) (ht : call.deadline ≤ t.now) :
    LeftBehind t id p := by
  refine ⟨ha.picksUp h hclock, (flight_iff_underway h).mp ha.flight, fun es hm hmiss e a => ?_⟩
  obtain ⟨call', hparked, rfl⟩ := ha.parked h
  rw [hparked.underway, Option.some_inj] at hid
  rw [← h.orderly.settings_run es]
  exact (hparked.run h hm).late (h.run es) hmiss
    (Nat.le_trans (hid ▸ ht) (h.orderly.now_le_run es)) e a

/-! ## Who is to blame

Once nothing is registered for the principal, whatever is registered for it later is a fetch whose
call has begun later.  So it stays in every run, and a caller that the backend fails has been failed
by such a call: it has made the call itself, or has joined it, or was taken down by the fetch that
the crash of the call has left broken. -/

/-- What is registered for the principal in `u` is a fetch whose call has begun after `t`. -/
structure Recent (t u : State) (p : Principal) : Prop where
  journal : t.journal ⊆ u.journal
  underway : ∀ {id}, u.fetches.get? p = some (.underway id) → ¬ t.Begun id
  broken : u.fetches.get? p = some .broken →
    ∃ id, ¬ t.Begun id ∧ .ended id p (.listed .crashed) ∈ u.journal

namespace Recent

theorem initial (hf : t.fetches.get? p = none) : Recent t t p where
  journal := List.Subset.refl _
  underway hp := by
    rw [hf] at hp
    cases hp
  broken hp := by
    rw [hf] at hp
    cases hp

theorem move {v : State} (hu : Books u) (h : Recent t u p) (m : Move ev u v) : Recent t v p := by
  have hsub := (m.touch hu).suffix.subset
  have hkeep : v.fetches.get? p = u.fetches.get? p → Recent t v p := by
    intro hf
    refine ⟨List.Subset.trans h.journal hsub, fun hp => h.underway (hf ▸ hp), fun hp => ?_⟩
    obtain ⟨id, hnew, he⟩ := h.broken (hf ▸ hp)
    exact ⟨id, hnew, hsub he⟩
  rcases m.flight hu with hstill | ⟨c, e, q, a, -, -, rfl⟩ |
    ⟨id, call, ending, r, hid, ho, -, he, rfl⟩
  · exact hkeep (by rw [hstill.fetches])
  · by_cases hq : p = q
    · subst hq
      have hp : (u.startFetch c e p a).fetches.get? p = some (.underway u.next) :=
        Table.get?_put_self
      refine ⟨List.Subset.trans h.journal hsub, fun hid => ?_, fun hb => ?_⟩
      · rw [hp, Option.some_inj] at hid
        injection hid with hid
        exact hid ▸ not_begun hu.orderly h.journal (Nat.le_refl _)
      · rw [hp] at hb
        cases hb
    · exact hkeep (Table.get?_put_of_ne hq)
  · by_cases hq : p = call.principal
    · subst hq
      have hp : ((u.endCall id call.principal ending).settleFetch id call.principal r).fetches.get?
          call.principal = if r = .crashed then some .broken else none := by
        rw [State.settleFetch_eq]
        exact Reply.get?_unregister_self
      refine ⟨List.Subset.trans h.journal hsub, fun hid' => ?_, fun hb => ?_⟩
      · rw [hp] at hid'
        split at hid' <;> cases hid'
      · rw [hp] at hb
        split at hb
        · rename_i hr
          refine ⟨id, h.underway (hu.calls.registered hid ho), ?_⟩
          rw [State.settleFetch_eq, ← he.crashed_iff.mp hr]
          exact List.mem_append_right _ (List.mem_append_right _ List.mem_cons_self)
        · cases hb
    · refine hkeep ?_
      rw [State.settleFetch_eq]
      exact Reply.get?_unregister_of_ne hq

/-- **What is registered for the principal stays recent.** -/
theorem run (ht : Books t) (hf : t.fetches.get? p = none) (es : List Event) :
    Recent t (t.run es) p :=
  ht.run_induction (P := fun u => Recent t u p) (initial hf) fun _ _ _ _ hb h m => h.move hb m

end Recent

/-- A set that was seen is no mishap. -/
theorem mishap_decision (privileges : PrivilegeSet) (e : Entity) (p : Principal) (a : Action) :
    (State.decision privileges e p a).mishap = false := by
  rw [State.decision]
  split <;> rfl

/-- A mishap comes of a call that has brought back no list. -/
theorem set?_of_mishap {e : Entity} {a : Action} {o : Owner} {limit : Span}
    (h : ((Request.enforce e p a).outcome o limit ending).mishap = true) : ending.set? = none := by
  cases hset : ending.set? with
  | none => rfl
  | some S =>
    obtain rfl : ending = .listed (.value S) := by
      rcases ending with (S' | cause | _) | r | _ <;> simp_all [Ending.set?]
    rw [Request.outcome, Request.answer, mishap_decision] at h
    cases h

/-- **Where what is registered is recent, recent calls are to blame for mishaps.** -/
theorem Recent.blame (hu : Books u) (h : Recent t u p) (ha : u.settings.cachingActive = true)
    (hf : u.settings.fetchOnMiss = true) (hd : u.dropped = false) {e : Entity} {a : Action}
    {es : List Event} {o : Outcome}
    (hr : .returned u.next o ∈ (u.run (.enforce e p a :: es)).journal) (ho : o.mishap = true) :
    ∃ id ending, ¬ t.Begun id ∧ .ended id p ending ∈ (u.run (.enforce e p a :: es)).journal
      ∧ ending.set? = none := by
  have hsub := (hu.suffix_run (.enforce e p a :: es)).subset
  obtain ⟨hauth, hcaching⟩ := Bool.and_eq_true_iff.mp ha
  cases hS : u.cache.get? p with
  | some S =>
    obtain ⟨rfl, -⟩ := answered_run hu es (thread_enter hu _)
      (step_enforce_hit hd hauth hcaching hS) hr
    rw [mishap_decision] at ho
    cases ho
  | none =>
    cases hp : u.fetches.get? p with
    | none =>
      have hown := ownCall_of_unfetched hu ⟨hd, ha, hf, hS⟩ hp e a
      obtain ⟨ending, he, rfl⟩ := hown.decided es o hr
      exact ⟨_, ending, not_begun hu.orderly h.journal (Nat.le_succ _), he, set?_of_mishap ho⟩
    | some f =>
      cases f with
      | broken =>
        obtain ⟨id, hnew, he⟩ := h.broken hp
        exact ⟨id, _, hnew, hsub he, rfl⟩
      | underway id =>
        have hstep := step_enforce_join (e := e) (a := a) hu ha hf hd hS
          ((flight_iff_underway hu).mpr hp)
        have hj : .joined u.next id ∈ (u.step (.enforce e p a)).journal := by
          rw [hstep]
          exact List.mem_cons_self
        have hc : .called u.next (.enforce e p a) ∈ (u.step (.enforce e p a)).journal := by
          rw [hstep]
          exact List.mem_cons_of_mem _ (List.mem_cons_of_mem _ List.mem_cons_self)
        have hb := (hu.suffix_run [.enforce e p a]).subset ((flight_iff_underway hu).mpr hp).1
        obtain ⟨ending, he, rfl⟩ := joined_run hu hj hb hc hr
        exact ⟨id, ending, h.underway hp, he, set?_of_mishap ho⟩

/-! ### The three ways to be over

A call that has ended with an answer, a failure or a timeout leaves nothing behind; one that has
crashed leaves a broken fetch; and one that has run out of time unseen is still there. -/

/-- **What a call leaves behind that ends without a crash**, in a step of an engine. -/
theorem Ends.aftermath (h : Books s) {call : Call} {r : Reply PrivilegeSet} {c : Id} {e : Entity}
    {a : Action} (hends : Ends ev s id call ending r) (hid : s.calls.get? id = some call)
    (ho : call.owner = .fetch) (hw : s.callers.get? c = some (.fetch call.principal e a))
    (hcrash : ending ≠ .listed .crashed) :
    Aftermath s (s.step ev) id call.principal ending := by
  have ht : Books (s.step ev) := h.run [ev]
  have hstep := hends.step_fetch hid ho hw
  have hsettings : ∀ es, ((s.step ev).run es).settings = s.settings := fun es =>
    h.orderly.settings_run (ev :: es)
  have henabled : (s.settings.cachingActive && s.settings.fetchOnMiss) = true := by
    have henabled := h.calls.enabled hid
    rwa [ho] at henabled
  obtain ⟨hactive, hfetch⟩ := Bool.and_eq_true_iff.mp henabled
  have hlands : Lands s (s.step ev) id call.principal ending := by
    rw [hstep]
    exact lands_settleFetch ho hends fun hr => hcrash (hends.crashed_iff.mp hr)
  refine ⟨hlands, fun es hm hmiss e a => ?_, fun es e a es' o hd hr hmishap => ?_⟩
  · exact ⟨_, ownCall_of_unfetched (ht.run es) hmiss (unmissed_run ht hm hlands.unregistered) e a⟩
  · exact (Recent.run ht hlands.unregistered es).blame (ht.run es)
      (by rw [hsettings]; exact hactive) (by rw [hsettings]; exact hfetch) hd hr hmishap

/-- What a call leaves behind that crashes. -/
theorem Ends.poisoned (h : Books s) {call : Call} {r : Reply PrivilegeSet} {c : Id} {e : Entity}
    {a : Action} (hends : Ends ev s id call (.listed .crashed) r)
    (hid : s.calls.get? id = some call) (ho : call.owner = .fetch)
    (hw : s.callers.get? c = some (.fetch call.principal e a)) :
    Poisoned (s.step ev) call.principal := by
  refine .of_broken (h.run [ev]) ?_
  rw [hends.step_fetch hid ho hw, State.settleFetch_eq]
  show (r.unregister call.principal s.fetches).get? call.principal = some .broken
  rw [Reply.get?_unregister_self, if_pos (hends.crashed_iff.mpr rfl)]

end

/-- **The call of a fetch leaves nothing behind unless it crashes, or runs out of time unseen.**
After a run of an engine, when the call of a fetch is over after a step: the fetch is gone,
everybody who waited is told, nothing but a list is cached, the next caller that misses makes a call
of its own, and no later caller suffers from the call that is over.  All this is so exactly if the
call has neither crashed nor run out of time when all its callers had given up.  Exactly if it has
crashed the fetch is broken for good, and exactly if it has run out unseen the next caller that
misses fails with its timeout. -/
theorem aftermath_iff (settings : Settings) (checks : Bool) (es : List Event) (ev : Event) (id : Id)
    (p : Principal) (how : Conclusion)
    (h : Concludes ((State.initial settings checks).run es) ev id p how) :
    (Aftermath ((State.initial settings checks).run es)
        (((State.initial settings checks).run es).step ev) id p how.ending
          ↔ how ≠ .ended (.listed .crashed) ∧ how ≠ .unseen)
      ∧ (Poisoned (((State.initial settings checks).run es).step ev) p
          ↔ how = .ended (.listed .crashed))
      ∧ (LeftBehind (((State.initial settings checks).run es).step ev) id p ↔ how = .unseen) := by
  have hinit := Books.initial settings checks
  have hs := hinit.run es
  have hclock : Clocked (((State.initial settings checks).run es).step ev) :=
    ((Clocked.initial settings checks).run hinit.orderly es).run hs.orderly [ev]
  generalize (State.initial settings checks).run es = s at h hs hclock
  have ht : Books (s.step ev) := hs.run [ev]
  -- what is registered afterwards tells the three apart
  have hgone : Aftermath s (s.step ev) id p how.ending → (s.step ev).fetches.get? p = none :=
    fun h => h.unregistered
  have hbroken : Poisoned (s.step ev) p → (s.step ev).fetches.get? p = some .broken :=
    fun h => h.broken []
  have hheld : LeftBehind (s.step ev) id p → (s.step ev).fetches.get? p = some (.underway id) :=
    fun h => h.registered
  cases h with
  | unseen ha hid hlate =>
    have hleft := ha.leftBehind ht hclock hid hlate
    have hregistered := hheld hleft
    refine ⟨iff_of_false (fun h => ?_) (fun h => h.2 rfl), iff_of_false (fun h => ?_) (by simp),
      iff_of_true hleft rfl⟩
    · rw [hgone h] at hregistered
      cases hregistered
    · rw [hbroken h] at hregistered
      cases hregistered
  | @ended call ending r c e a hid ho hp hw he =>
    subst hp
    by_cases hcrash : ending = .listed .crashed
    · subst hcrash
      have hpoisoned := he.poisoned hs hid ho hw
      have hregistered := hbroken hpoisoned
      refine ⟨iff_of_false (fun h => ?_) (fun h => h.1 rfl), iff_of_true hpoisoned rfl,
        iff_of_false (fun h => ?_) (by simp)⟩
      · rw [hgone h] at hregistered
        cases hregistered
      · rw [hheld h] at hregistered
        cases hregistered
    · have hafter := he.aftermath hs hid ho hw hcrash
      have hregistered := hgone hafter
      have hne : Conclusion.ended ending ≠ .ended (.listed .crashed) := fun h => by
        injection h with h
        exact hcrash h
      refine ⟨iff_of_true hafter ⟨hne, by simp⟩, iff_of_false (fun h => ?_) hne,
        iff_of_false (fun h => ?_) (by simp)⟩
      · rw [hbroken h] at hregistered
        cases hregistered
      · rw [hheld h] at hregistered
        cases hregistered

/-- A call that takes too long while somebody waits leaves nothing behind, and the next caller makes
its own. -/
theorem aftermath_iff_of_timeout :
    let s := (State.initial { authorization := true } true).run
      [.enforce (.space "docs") ⟨.user, "alice"⟩ .read, .elapse 10000]
    let p : Principal := ⟨.user, "alice"⟩
    Concludes s (.expire 1) 1 p (.ended .timedOut)
      ∧ Aftermath s (s.step (.expire 1)) 1 p .timedOut
      ∧ .began 3 p .listing .fetch
        ∈ ((s.step (.expire 1)).step (.enforce (.space "docs") p .read)).journal := by
  intro s p
  have hcall : s.calls.get? 1 = some ⟨p, .listing, .fetch, 0, 10000⟩ := by decide
  have hwaits : s.callers.get? 0 = some (.fetch p (.space "docs") .read) := by decide
  have hover : Concludes s (.expire 1) 1 p (.ended .timedOut) :=
    .ended hcall rfl rfl hwaits (.expire rfl (by decide))
  exact ⟨hover, (aftermath_iff { authorization := true } true _ (.expire 1) 1 p _ hover).1.mpr
    ⟨by simp, by simp⟩, by decide⟩

/-- The one caller of a fetch gives up, and the time of the call runs out.  The fetch stays, and the
next caller fails with the old timeout at the moment at which it asks, without a call of its own. -/
theorem overdue_fetch_stays :
    let e : Entity := .space "docs"
    let p : Principal := ⟨.user, "alice"⟩
    let s := (State.initial { authorization := true } true).run [.enforce e p .read, .cancel 0]
    let t := s.step (.elapse 10000)
    Concludes s (.elapse 10000) 1 p .unseen ∧ t.fetches.get? p = some (.underway 1) ∧ t.Misses p
      ∧ (t.step (.enforce e p .read)).calls = t.calls
      ∧ .returned t.next (.failed (.backendUnavailable
          (.timedOut "list_privileges" t.settings.backendTimeout)))
            ∈ (t.run [.enforce e p .read, .expire 1]).journal
      ∧ (t.run [.enforce e p .read, .expire 1]).now = t.now
      ∧ ¬ Aftermath s t 1 p .timedOut := by
  intro e p s t
  have ht : Books t := (Books.initial { authorization := true } true).run
    [.enforce e p .read, .cancel 0, .elapse 10000]
  have hregistered : t.fetches.get? p = some (.underway 1) := by decide
  have habandoned : Abandoned t 1 p := by
    refine ⟨(flight_iff_underway ht).mpr hregistered, fun c hj => ?_⟩
    obtain rfl : c = 0 := by
      have hmem : Note.joined c 1 ∈ [.cancelled 0, .joined 0 1, .began 1 p .listing .fetch,
        .missed 0 p, .called 0 (.enforce e p .read)] := hj
      simpa using hmem
    decide
  have hcall : t.calls.get? 1 = some ⟨p, .listing, .fetch, 0, 10000⟩ := by decide
  have hover : Concludes s (.elapse 10000) 1 p .unseen := .unseen habandoned hcall (by decide)
  refine ⟨hover, hregistered, ⟨rfl, rfl, rfl, by decide⟩, rfl, by decide, by decide, fun h => ?_⟩
  rw [h.unregistered] at hregistered
  cases hregistered

end Gatekeeper.Engine

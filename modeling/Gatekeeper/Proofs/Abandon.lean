import Gatekeeper.Proofs.Deadline
import Gatekeeper.Proofs.Miss

/-!
# A fetch that everybody has given up

Whoever gives up an enforcement is meant to leave no trace.  But a fetch that nobody waits for any
more is still registered: its call stands still, with the time that it began at, until somebody
misses the principal again.  That caller picks the old call up instead of making its own, gets the
list that the backend was asked for before, and may time out without having waited.

* `Independent` — the next caller that misses is served as if nobody had missed before.
* `PicksUp` — the next caller that misses is served by an old call.
* `Parked` — a call of a fetch that nobody waits for, which stays as it is.
* `independent_iff` — the next caller is independent exactly if no fetch is registered; so it never
  is after a fetch has been given up.

The caller that comes next cannot tell that it has joined an old call, since it is told what the
call comes to as everybody else is.  What it can tell is the time: a call whose limit has run out
fails at the moment at which somebody looks at it.  Both are stated, and that the cause is the
registration and nothing else is the equivalence at the end.
-/

set_option autoImplicit false

namespace Gatekeeper.Engine

/-- A fetch has begun the call for the principal, it has not ended, and all who have joined it have
given up. -/
structure Abandoned (s : State) (id : Id) (p : Principal) : Prop where
  flight : Flight s id p
  left : ∀ c, .joined c id ∈ s.journal → .cancelled c ∈ s.journal

/-- Whoever misses the principal next is served as if nobody had missed it before: by a call of its
own, begun no earlier than it asks, which times out no earlier than it has itself waited for the
whole timeout. -/
def Independent (s : State) (p : Principal) : Prop :=
  ∀ es, s.Unmissed es p → (s.run es).Misses p → ∀ e a, ∃ id, OwnCall (s.run es) e p a id
    ∧ ∀ es', .ended id p .timedOut ∈ ((s.run es).run (.enforce e p a :: es')).journal →
      (s.run es).now + s.settings.backendTimeout.ceilMillis
        ≤ ((s.run es).run (.enforce e p a :: es')).now

/-- Whoever misses the principal next joins call `id`, which has begun before, makes no call, and is
told what comes of the old one; if the time of the old call is up by then, that is a timeout at
once. -/
structure PicksUp (s : State) (id : Id) (p : Principal) : Prop where
  begun : s.Begun id
  joins : ∀ es, s.Unmissed es p → (s.run es).Misses p → ∀ e a,
    .joined (s.run es).next id ∈ ((s.run es).step (.enforce e p a)).journal
      ∧ ((s.run es).step (.enforce e p a)).calls = (s.run es).calls
  decided : ∀ es, s.Unmissed es p → (s.run es).Misses p → ∀ e a es' o,
    .returned (s.run es).next o ∈ ((s.run es).run (.enforce e p a :: es')).journal →
      ∃ ending, .ended id p ending ∈ ((s.run es).run (.enforce e p a :: es')).journal
        ∧ o = (Request.enforce e p a).outcome .fetch s.settings.backendTimeout ending
  late : ∃ began ≤ s.now, ∀ es, s.Unmissed es p → (s.run es).Misses p →
    began + s.settings.backendTimeout.ceilMillis ≤ (s.run es).now → ∀ e a,
      .returned (s.run es).next (.failed (.backendUnavailable
        (.timedOut Owner.fetch.operation s.settings.backendTimeout)))
          ∈ ((s.run es).run [.enforce e p a, .expire id]).journal
        ∧ ((s.run es).run [.enforce e p a, .expire id]).now = (s.run es).now

section

variable {s t : State} {ev : Event} {id : Id} {p : Principal}

/-! ## A call that nobody waits for

While nobody waits for a fetch nobody looks at its call, neither for the answer nor at the clock.
So the call stays as it was, however much time goes by, until somebody asks about its principal. -/

/-- Only who asks about a principal comes to wait for its fetch. -/
theorem Move.waiter (m : Move ev s t) {c : Id} {e : Entity} {a : Action}
    (hc : t.callers.get? c = some (.fetch p e a)) :
    s.callers.get? c = some (.fetch p e a) ∨ ∃ e a, ev = .enforce e p a := by
  have herase : ∀ {k : Id}, (s.callers.erase k).get? c = some (.fetch p e a) →
      s.callers.get? c = some (.fetch p e a) := fun hc => (Table.get?_erase_eq_some_iff.mp hc).2
  have hput : ∀ {k : Id} {w : Waiting}, (∀ e a, w = .fetch p e a → ∃ e a, ev = .enforce e p a) →
      (s.callers.put k w).get? c = some (.fetch p e a) →
        s.callers.get? c = some (.fetch p e a) ∨ ∃ e a, ev = .enforce e p a := by
    intro k w hw hc
    rcases Table.get?_put_eq_some_iff.mp hc with ⟨-, hw'⟩ | ⟨-, hc⟩
    · exact Or.inr (hw e a hw')
    · exact Or.inl hc
  cases m with
  | quiet hq => exact Or.inl (hq.callers ▸ hc)
  | reply | release | directEnds | leave => exact Or.inl (herase hc)
  | await ha hw => exact hput (fun e a h => by cases h) hc
  | own => exact hput (fun e a h => by cases h) hc
  | @join c' id e' q a' hev | @fetch c' e' q a' hev =>
    refine hput (fun e a h => ?_) hc
    injection h with hq
    exact ⟨e', a', hq ▸ hev⟩
  | fetchEnds =>
    rw [State.settleFetch_eq] at hc
    exact Or.inl (Table.get?_filter_eq_some_iff.mp hc).1
  | updateEnds =>
    rw [State.settleUpdate_eq] at hc
    exact Or.inl (herase hc)
  | openFor => exact hput (fun e a h => by cases h) hc
  | look =>
    rw [State.digest_eq] at hc
    exact Or.inl hc
  | @close n pass =>
    rw [State.digest_eq] at hc
    cases hd : pass.driver with
    | caller c' =>
      rw [hd] at hc
      exact Or.inl (herase hc)
    | worker w =>
      rw [hd] at hc
      exact Or.inl hc
  | leaveCall =>
    rw [State.dropCall] at hc
    split at hc <;> exact Or.inl (herase hc)
  | leavePass =>
    rw [State.dropPass_eq] at hc
    exact Or.inl (herase hc)
  | abandon =>
    rw [State.dropPass_eq] at hc
    exact Or.inl hc
  | _ => exact Or.inl hc

/-- The call is that of a fetch that nobody waits for. -/
structure Parked (s : State) (id : Id) (call : Call) : Prop where
  underway : s.calls.get? id = some call
  owner : call.owner = .fetch
  unawaited : s.awaited call.principal = false

theorem unawaited_of (hs : s.awaited p = false)
    (hc : ∀ c e a, t.callers.get? c = some (.fetch p e a) →
      s.callers.get? c = some (.fetch p e a)) : t.awaited p = false := by
  rw [← Bool.not_eq_true, State.awaited_iff] at hs ⊢
  rintro ⟨c, e, a, hw⟩
  exact hs ⟨c, e, a, hc c e a hw⟩

theorem Parked.move {call : Call} (hs : Books s) (h : Parked s id call)
    (hev : ∀ e a, ev ≠ .enforce e call.principal a) (m : Move ev s t) : Parked t id call where
  underway := by
    rcases m.flight hs with hstill | ⟨c, e, q, a, -, -, rfl⟩ |
      ⟨id', call', ending, r, hid, ho, hawaited, -, rfl⟩
    · exact (hstill.calls id call h.owner).mpr h.underway
    · exact (Table.get?_put_of_ne (Nat.ne_of_lt (hs.orderly.calls h.underway))).trans h.underway
    · rw [State.settleFetch_eq]
      refine (Table.get?_erase_of_ne ?_).trans h.underway
      rintro rfl
      rw [h.underway, Option.some_inj] at hid
      rw [← hid, h.unawaited] at hawaited
      cases hawaited
  owner := h.owner
  unawaited := by
    refine unawaited_of h.unawaited fun c e a hc => (m.waiter hc).resolve_right ?_
    rintro ⟨e, a, he⟩
    exact hev e a he

/-- **A call that nobody waits for stands still until somebody misses.** -/
theorem Parked.run {call : Call} (hs : Books s) (h : Parked s id call) {es : List Event}
    (hm : s.Unmissed es call.principal) : Parked (s.run es) id call := by
  refine unmissed_induction (P := fun t => Parked t id call) hs h hm ?_ ?_
  · intro ev t u hev ht hparked m
    exact hparked.move ht hev m
  · intro t u _ hparked haside
    exact ⟨haside.calls hparked.owner hparked.underway, hparked.owner,
      unawaited_of hparked.unawaited fun c e a => haside.waiters⟩

theorem Abandoned.parked (h : Books s) (ha : Abandoned s id p) :
    ∃ call, Parked s id call ∧ call.principal = p := by
  obtain ⟨call, hid, ho, rfl⟩ := (flight_iff h).mp ha.flight
  refine ⟨call, ⟨hid, ho, ?_⟩, rfl⟩
  rw [← Bool.not_eq_true, State.awaited_iff]
  rintro ⟨c, e, a, hc⟩
  obtain ⟨id', hp, hj⟩ := h.callers.fetchers hc
  rw [h.calls.registered hid ho, Option.some_inj] at hp
  injection hp with hp
  subst hp
  -- whoever waits has not given up
  obtain ⟨r, -, hthread⟩ := h.callers.thread_of_served hc rfl hj
  have hleft : .cancelled c ∈ thread Note.caller? c s.journal :=
    mem_thread.mpr ⟨ha.left c hj, rfl⟩
  rw [hthread] at hleft
  simp at hleft

/-! ## Who picks it up

Whoever misses the principal joins the parked call, since that is what is registered.  From then on
somebody looks after the call, and if its time is up by then the first look at the clock ends it. -/

namespace Parked

variable {call : Call}

theorem flight (h : Books s) (hp : Parked s id call) : Flight s id call.principal :=
  (flight_iff h).mpr ⟨call, hp.underway, hp.owner, rfl⟩

/-- Whoever misses the principal of a parked call joins it. -/
theorem step_enforce (h : Books s) (hp : Parked s id call) (hm : s.Misses call.principal)
    (e : Entity) (a : Action) : s.step (.enforce e call.principal a)
      = (((s.enter (.enforce e call.principal a)).note (.missed s.next call.principal)).wait s.next
        (.fetch call.principal e a)).note (.joined s.next id) :=
  step_enforce_join h hm.active hm.fetches hm.there hm.absent (hp.flight h)

/-- Whoever picks up a call whose time is up is told so when somebody looks at the clock. -/
theorem late (h : Books s) (hp : Parked s id call) (hm : s.Misses call.principal)
    (hlate : call.deadline ≤ s.now) (e : Entity) (a : Action) :
    .returned s.next (.failed (.backendUnavailable
        (.timedOut Owner.fetch.operation s.settings.backendTimeout)))
          ∈ (s.run [.enforce e call.principal a, .expire id]).journal
      ∧ (s.run [.enforce e call.principal a, .expire id]).now = s.now := by
  have hstep := hp.step_enforce h hm e a
  have hrun : s.run [.enforce e call.principal a, .expire id]
      = (s.step (.enforce e call.principal a)).step (.expire id) := rfl
  rw [hrun]
  obtain ⟨t, ht⟩ : ∃ t, t = s.step (.enforce e call.principal a) := ⟨_, rfl⟩
  rw [← ht] at hstep ⊢
  have hid : t.calls.get? id = some call := by
    rw [hstep]
    exact hp.underway
  have hwaits : t.callers.get? s.next = some (.fetch call.principal e a) := by
    rw [hstep]
    exact Table.get?_put_self
  have hnow : t.now = s.now := by
    rw [hstep]
    rfl
  have hsettings : t.settings = s.settings := by
    rw [hstep]
    rfl
  have hatt : t.attended call = true := by
    rw [State.attended, hp.owner]
    exact State.awaited_iff.mpr ⟨_, e, a, hwaits⟩
  have hends : Ends (.expire id) t id call .timedOut
      (.failed (.timedOut call.owner.operation t.settings.backendTimeout)) :=
    .expire rfl (hnow ▸ hlate)
  have hexpire : t.step (.expire id) = (t.endCall id call.principal .timedOut).settleFetch id
      call.principal (.failed (.timedOut call.owner.operation t.settings.backendTimeout)) := by
    rw [hends.step_eq hid hatt, State.settle, hp.owner]
  have hlands : Lands t (t.step (.expire id)) id call.principal .timedOut := by
    rw [hexpire]
    exact lands_settleFetch hp.owner hends (by simp)
  refine ⟨hsettings ▸ hlands.told _ e a hwaits, ?_⟩
  rw [hexpire, State.settleFetch_eq]
  exact hnow

end Parked

theorem Abandoned.picksUp (h : Books s) (hclock : Clocked s) (ha : Abandoned s id p) :
    PicksUp s id p := by
  obtain ⟨call, hparked, rfl⟩ := ha.parked h
  have hsettings : ∀ es, (s.run es).settings = s.settings := h.orderly.settings_run
  have hstep : ∀ es, s.Unmissed es call.principal → (s.run es).Misses call.principal → ∀ e a, _ :=
    fun es hm hmiss => (hparked.run h hm).step_enforce (h.run es) hmiss
  have hjoins : ∀ es, s.Unmissed es call.principal → (s.run es).Misses call.principal → ∀ e a,
      .joined (s.run es).next id ∈ ((s.run es).step (.enforce e call.principal a)).journal := by
    intro es hm hmiss e a
    rw [hstep es hm hmiss e a]
    exact List.mem_cons_self
  refine ⟨⟨_, _, _, h.calls.began_of_get? hparked.underway⟩,
    fun es hm hmiss e a => ⟨hjoins es hm hmiss e a, ?_⟩,
    fun es hm hmiss e a es' o hr => ?_, ⟨call.begun, hclock.begun hparked.underway,
      fun es hm hmiss hlate e a => ?_⟩⟩
  · rw [hstep es hm hmiss e a]
    rfl
  · have hcalled : .called (s.run es).next (.enforce e call.principal a)
        ∈ ((s.run es).step (.enforce e call.principal a)).journal := by
      rw [hstep es hm hmiss e a]
      exact List.mem_cons_of_mem _ (List.mem_cons_of_mem _ List.mem_cons_self)
    have hbegan := (h.run es).suffix_run [.enforce e call.principal a] |>.subset
      ((hparked.run h hm).flight (h.run es)).1
    obtain ⟨ending, he, ho⟩ := joined_run (h.run es) (hjoins es hm hmiss e a) hbegan hcalled hr
    rw [hsettings] at ho
    exact ⟨ending, he, ho⟩
  · rw [← hclock.deadline hparked.underway] at hlate
    rw [← hsettings es]
    exact (hparked.run h hm).late (h.run es) hmiss hlate e a

/-! ## Who makes its own call

If no fetch is registered, whoever misses registers one, and everything about the call is its
own.  If one is, the caller is served by a call that had begun before it asked, or crashes
without a call. -/

/-- Whoever misses a principal for which nothing is registered is independent. -/
theorem independent_of_unfetched (h : Books s) (hf : s.fetches.get? p = none) :
    Independent s p := by
  intro es hm hmiss e a
  have hu : Books (s.run es) := h.run es
  have hp : (s.run es).fetches.get? p = none := unmissed_run h hm hf
  refine ⟨_, ownCall_of_unfetched hu hmiss hp e a, fun es' he => ?_⟩
  have hstep := step_enforce_start (e := e) (a := a) hmiss.active hmiss.fetches hmiss.there
    hmiss.absent hp
  have hid : ((s.run es).step (.enforce e p a)).calls.get? ((s.run es).next + 1)
      = some ⟨p, .listing, .fetch, (s.run es).now,
        (s.run es).now + (s.run es).settings.backendTimeout.ceilMillis⟩ := by
    rw [hstep]
    exact Table.get?_put_self
  rw [← h.orderly.settings_run es]
  exact now_of_timedOut (hu.run [.enforce e p a]) hid he

/-- Whoever misses a principal with a registered fetch is not: its call has begun before, or it is
taken down without one. -/
theorem not_independent_of_fetch (h : Books s) (hd : s.dropped = false) {f : Fetch}
    (hp : s.fetches.get? p = some f) : ¬ Independent s p := by
  intro hind
  obtain ⟨hactive, hf⟩ := Bool.and_eq_true_iff.mp (h.calls.active hp)
  -- the cache may have to be cleared for somebody to miss
  have hinv : s.run [.invalidate] = s.invalidate := step_invalidate hd
  have hunmissed : s.Unmissed [.invalidate] p := by
    intro c e a hcalled _
    rw [hinv] at hcalled
    exact (List.mem_cons.mp hcalled).resolve_left fun he => by cases he
  have hmiss : s.invalidate.Misses p := ⟨hd, hactive, hf, rfl⟩
  obtain ⟨id, hown, -⟩ := hind [.invalidate] hunmissed (hinv ▸ hmiss) (.space "docs") .read
  rw [hinv] at hown
  have hjoined := hown.joined
  cases f with
  | broken =>
    rw [step_enforce_broken hmiss hp] at hjoined
    refine h.invalidate.orderly.silent_next (n := .joined s.invalidate.next id) rfl ?_
    simpa [State.finish, State.note, State.enter] using hjoined
  | underway id' =>
    have hfl : Flight s.invalidate id' p := (flight_iff_underway h.invalidate).mpr hp
    have hstep := step_enforce_join (e := .space "docs") (a := .read) h.invalidate hactive hf hd rfl
      hfl
    have hjoins : .joined s.invalidate.next id'
        ∈ (s.invalidate.step (.enforce (.space "docs") p .read)).journal := by
      rw [hstep]
      exact List.mem_cons_self
    have hbooks := h.invalidate.run [.enforce (.space "docs") p .read]
    obtain rfl := hbooks.callers.joined_unique hjoined hjoins
    exact hown.fresh ⟨p, _, _, hfl.1⟩

end

/-- **Whoever misses next is served as if nobody had missed before exactly if no fetch is
registered.**  A fetch that all its callers have given up is registered; so whoever misses the
principal next is served by the old call, and is told a timeout without having waited if that call
has had its time. -/
theorem independent_iff (settings : Settings) (checks : Bool) (es : List Event) (p : Principal)
    (hd : ((State.initial settings checks).run es).dropped = false) :
    (Independent ((State.initial settings checks).run es) p
        ↔ ((State.initial settings checks).run es).fetches.get? p = none)
      ∧ ∀ id, Abandoned ((State.initial settings checks).run es) id p →
        ¬ Independent ((State.initial settings checks).run es) p
          ∧ PicksUp ((State.initial settings checks).run es) id p := by
  have hb := Books.initial settings checks
  have h := hb.run es
  have hclock := (Clocked.initial settings checks).run hb.orderly es
  refine ⟨⟨fun hind => ?_, independent_of_unfetched h⟩, fun id ha => ⟨?_, ha.picksUp h hclock⟩⟩
  · rw [Option.eq_none_iff_forall_ne_some]
    exact fun f hp => not_independent_of_fetch h hd hp hind
  · exact not_independent_of_fetch h hd ((flight_iff_underway h).mp ha.flight)

/-- Once a fetch has come back to one of two callers and the cache has been cleared, the next caller
is independent. -/
theorem independent_iff_after_fetch :
    let p : Principal := ⟨.user, "alice"⟩
    let e : Entity := .space "docs"
    let s := (State.initial { authorization := true } true).run [.enforce e p .read,
      .enforce e p .write, .cancel 0, .answer 1 (.value (.ofList [])), .invalidate]
    s.dropped = false ∧ s.Misses p ∧ Independent s p := by
  intro p e s
  have hd : s.dropped = false := by decide
  exact ⟨hd, ⟨hd, by decide, by decide, by decide⟩,
    (independent_iff { authorization := true } true _ p hd).1.mpr (by decide)⟩

/-- The one caller of a fetch gives up, and the next, long after, is told a timeout at the very
moment at which it asks. -/
theorem timeout_without_waiting :
    let p : Principal := ⟨.user, "alice"⟩
    let e : Entity := .space "docs"
    let s := (State.initial { authorization := true } true).run [.enforce e p .read, .cancel 0,
      .elapse 20000]
    let t := s.run [.enforce e p .read, .expire 1]
    Abandoned s 1 p ∧ s.Misses p
      ∧ .returned s.next (.failed (.backendUnavailable
          (.timedOut "list_privileges" s.settings.backendTimeout))) ∈ t.journal
      ∧ t.now = s.now ∧ ¬ Independent s p := by
  intro p e s t
  have hs : Books s := (Books.initial { authorization := true } true).run _
  have hfl : Flight s 1 p := (flight_iff_underway hs).mpr (by decide)
  have hleft : ∀ c, .joined c 1 ∈ s.journal → .cancelled c ∈ s.journal := by
    intro c hj
    obtain rfl : c = 0 := by
      have hmem : Note.joined c 1 ∈ [.cancelled 0, .joined 0 1, .began 1 p .listing .fetch,
        .missed 0 p, .called 0 (.enforce e p .read)] := hj
      simpa using hmem
    decide
  have hd : s.dropped = false := by decide
  exact ⟨⟨hfl, hleft⟩, ⟨hd, by decide, by decide, by decide⟩, by decide, by decide,
    not_independent_of_fetch hs hd ((flight_iff_underway hs).mp hfl)⟩

end Gatekeeper.Engine

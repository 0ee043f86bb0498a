import Gatekeeper.Proofs.Miss
import Gatekeeper.Proofs.Standing

/-!
# Decisions with and without the cache

An engine that misses a principal asks for the same list as one that has no cache and a backend that
can only list, and makes the same of it.  Once the list is in the cache, decisions on the principal
are made from it without the backend, and they are what the backend would say, until what the
principal holds changes or somebody tampers with the entry.

* `Site.Uncached`, `Site.Direct` — a site about to fetch, and one that decides without a cache.
* `Outcome.direct` — what the one names otherwise than the other.
* `Site.Uncached.asks`, `Site.Direct.asks` — both have one list asked for.
* `Site.AtOnce` — a decision that is made without the backend.
* `cached_as_direct` — the two agree.

The two engines need not have anything else in common: they may have been through different runs,
with different settings, as long as the limit for a call is the same and the two backends behave
alike towards the principal.  What is compared is what the next caller is told, when, and after
how many calls.
-/

set_option autoImplicit false

namespace Gatekeeper

open Engine

/-! ## Two ways to decide

Both ways start with a list that is asked for, a fetch on the one side and a call of the caller's
own on the other.  From there `Gatekeeper.Proofs.Turnaround` says what is told, and when. -/

namespace Site

/-- The site has come about in some run, and its engine is about to fetch what the principal holds:
there is no entry for it, and no fetch is registered. -/
structure Uncached (s : Site) (p : Principal) : Prop where
  comes : ∃ settings kind acts, s = (Site.initial settings kind).run acts
  misses : s.engine.Misses p
  unfetched : s.engine.fetches.get? p = none

/-- The site has come about in some run, and its engine has every decision made by the backend,
which cannot check by itself. -/
structure Direct (s : Site) : Prop where
  comes : ∃ settings kind acts, s = (Site.initial settings kind).run acts
  there : s.engine.dropped = false
  enforces : s.engine.settings.authorization = true
  uncached : s.engine.settings.caching = false
  lists : s.backend.checksItself = false

/-- Whoever asks is told at once, and the backend is not asked. -/
structure AtOnce (s : Site) (e : Entity) (p : Principal) (a : Action) (o : Outcome) : Prop where
  journal : (s.asked e p a).journal
    = .returned s.engine.next o :: .called s.engine.next (.enforce e p a) :: s.journal
  backend : (s.asked e p a).backend = s.backend
  calls : (s.asked e p a).engine.calls = s.engine.calls
  now : (s.asked e p a).engine.now = s.engine.now

/-- The principal's entry is about to be fetched, and nothing is under way that could bring in an
older list. -/
structure Alone (s : Site) : Prop where
  updates : ∀ {id call c}, s.engine.calls.get? id = some call → call.owner ≠ .update c
  passes : ∀ n, s.engine.passes.get? n = none

end Site

/-- What is said without a cache, given what is said with one: a call that took too long was a check
and not a list. -/
def Engine.Outcome.direct (limit : Span) (o : Outcome) : Outcome :=
  if o = .failed (.backendUnavailable (.timedOut Owner.fetch.operation limit)) then
    .failed (.backendUnavailable (.timedOut "enforce" limit))
  else o

namespace Site

variable {s : Site} {e : Entity} {p : Principal} {a : Action}

theorem Uncached.inOrder (h : s.Uncached p) : s.InOrder := by
  obtain ⟨settings, kind, acts, rfl⟩ := h.comes
  exact (InOrder.initial settings kind).run acts

theorem Direct.inOrder (h : s.Direct) : s.InOrder := by
  obtain ⟨settings, kind, acts, rfl⟩ := h.comes
  exact (InOrder.initial settings kind).run acts

/-- A step that begins a list and notes `new`. -/
theorem InOrder.asks_of_step (h : s.InOrder) {o : Owner} {u : State} (new : List Note)
    (hstep : ({ s.engine with journal := [] } : State).step (.enforce e p a) = u)
    (hj : u.journal = new)
    (hcalls : u.calls = s.engine.calls.put (s.engine.next + 1) ⟨p, .listing, o, s.engine.now,
      s.engine.now + s.engine.settings.backendTimeout.ceilMillis⟩)
    (hnow : u.now = s.engine.now) (hnext : u.next = s.engine.next + 2)
    (hnew : [.called s.engine.next (.enforce e p a), .joined s.engine.next (s.engine.next + 1),
      .began (s.engine.next + 1) p .listing o] ⊆ new)
    (hwaits : ∀ c, .cancelled c ∉ new)
    (hb : new.foldr (fun n b => inform s.engine.now b n) s.backend
      = s.backend.begin (.call (s.engine.next + 1)) .listing p s.engine.now) :
    s.Asks e p a o := by
  have hasked : s.asked e p a = s.ask (.enforce e p a) := rfl
  rw [Site.ask, hstep] at hasked
  have hmem : ∀ {n}, n ∈ new → n ∈ (s.asked e p a).journal := by
    intro n hn
    rw [hasked, hj]
    exact List.mem_append_left _ hn
  refine ⟨by rw [hasked, hcalls], by rw [hasked, hnow, hj, hb], by rw [hasked, hnow],
    by rw [hasked, hnext], ⟨hmem (hnew (by simp)), hmem (hnew (by simp)), hmem (hnew (by simp))⟩,
    fun hc => ?_⟩
  rw [hasked, hj] at hc
  exact (List.mem_append.mp hc).elim (hwaits _) (h.books.orderly.silent_next rfl)

/-- Whoever misses the principal has its list fetched. -/
theorem Uncached.asks (h : s.Uncached p) (e : Entity) (a : Action) : s.Asks e p a .fetch :=
  h.inOrder.asks_of_step [.joined s.engine.next (s.engine.next + 1),
      .began (s.engine.next + 1) p .listing .fetch, .missed s.engine.next p,
      .called s.engine.next (.enforce e p a)]
    (step_enforce_start (s := { s.engine with journal := [] }) h.misses.active h.misses.fetches
      h.misses.there h.misses.absent h.unfetched)
    rfl rfl rfl rfl (by simp) (by simp) rfl

/-- Whoever asks where there is no cache has the backend list, if it cannot check. -/
theorem Direct.asks (h : s.Direct) (e : Entity) (p : Principal) (a : Action) :
    s.Asks e p a (.direct s.engine.next e a) := by
  have hchecks : s.engine.checks = false := h.inOrder.checks.trans h.lists
  have hstep := step_enforce_direct (s := { s.engine with journal := [] }) (e := e) (p := p)
    (a := a) h.there h.enforces h.uncached
  have hq : (if ({ s.engine with journal := [] } : State).checks then Question.check e a
      else .listing) = .listing := if_neg (by simp [hchecks])
  rw [hq] at hstep
  exact h.inOrder.asks_of_step [.began (s.engine.next + 1) p .listing (.direct s.engine.next e a),
      .joined s.engine.next (s.engine.next + 1), .called s.engine.next (.enforce e p a)]
    hstep rfl rfl rfl rfl (by simp) (by simp) rfl

/-! ## The same answer

Both calls end alike, and what is made of the end is the same but for the name of the operation
that is shown if the call took too long.  After that the entry answers, and it says what the list
said. -/

/-- Without a cache the same is said of a call that ends in the same way. -/
theorem outcome_direct (b : Backend) (limit : Span) (c : Id) (e : Entity) (p : Principal)
    (a : Action) :
    (Request.enforce e p a).outcome (.direct c e a) limit ((b.conduct p).ending limit)
      = ((Request.enforce e p a).outcome .fetch limit ((b.conduct p).ending limit)).direct
        limit := by
  rw [Conduct.ending]
  split
  · have hne : (Request.enforce e p a).answer (b.list p).2
        ≠ .failed (.backendUnavailable (.timedOut Owner.fetch.operation limit)) := by
      cases hr : (b.list p).2 with
      | value S =>
        rw [Request.answer, State.decision]
        split <;> simp
      | failed cause =>
        obtain ⟨text, rfl⟩ := Backend.reported_of_list hr
        simp [Request.answer]
      | crashed => simp [Request.answer]
    exact (if_neg hne).symm
  · exact (if_pos rfl).symm

/-- What a check without a cache says, unless it fails or times out. -/
theorem outcome_of_list (b : Backend) (limit : Span) (o : Owner) (e : Entity) (p : Principal)
    (a : Action) :
    let said := (Request.enforce e p a).outcome o limit ((b.conduct p).ending limit)
    (∃ cause, said = .failed (.backendUnavailable cause)) ∨ said = .crashed
      ∨ said = State.decision (b.store.privileges p) e p a := by
  intro said
  have hsaid : said = (Request.enforce e p a).outcome o limit ((b.conduct p).ending limit) := rfl
  rw [Conduct.ending] at hsaid
  split at hsaid
  · cases hr : (b.list p).2 with
    | value S =>
      refine Or.inr (Or.inr ?_)
      rw [hsaid, ← Backend.value_of_list hr, Request.outcome, Backend.conduct, hr]
      rfl
    | failed cause =>
      refine Or.inl ⟨cause, ?_⟩
      rw [hsaid, Request.outcome, Backend.conduct, hr]
      rfl
    | crashed =>
      refine Or.inr (Or.inl ?_)
      rw [hsaid, Request.outcome, Backend.conduct, hr]
      rfl
  · exact Or.inl ⟨_, hsaid⟩

/-- An entry answers at once. -/
theorem atOnce_of_entry {S : PrivilegeSet} (ha : s.engine.settings.cachingActive = true)
    (hd : s.engine.dropped = false) (hS : s.engine.cache.get? p = some S) (e : Entity)
    (a : Action) : s.AtOnce e p a (State.decision S e p a) := by
  obtain ⟨hauth, hcaching⟩ := Bool.and_eq_true_iff.mp ha
  have hasked : s.asked e p a = s.ask (.enforce e p a) := rfl
  have hstep := step_enforce_hit (s := { s.engine with journal := [] }) (e := e) (a := a) hd hauth
    hcaching hS
  rw [Site.ask, hstep] at hasked
  exact ⟨by rw [hasked]; rfl, by rw [hasked]; rfl, by rw [hasked]; rfl, by rw [hasked]; rfl⟩

/-! ### As long as nothing changes

After the fetch, an enforcement with the cache is decided on the entry.  It agrees with what the
backend would say as long as the principal holds what it held and nobody writes or clears by
hand. -/

/-- Somebody has asked in `s` whether the principal may do this, and by `t` the fetch that this has
begun has come back with `S`; what the principal holds has been the same throughout, and nobody has
tampered with the entry since the fetch came back. -/
structure Fetched (s : Site) (e : Entity) (p : Principal) (a : Action) (S : PrivilegeSet)
    (t : Site) : Prop where
  alone : s.Alone
  run : ∃ before act after, t = (s.asked e p a).run (before ++ act :: after)
    ∧ .ended (s.engine.next + 1) p (.listed (.value S)) ∉ ((s.asked e p a).run before).journal
    ∧ .ended (s.engine.next + 1) p (.listed (.value S))
      ∈ (((s.asked e p a).run before).act act).journal
    ∧ (∀ l, l <+: before ++ act :: after →
      ((s.asked e p a).run l).backend.store.privileges p = s.backend.store.privileges p)
    ∧ ∀ act ∈ after, act.tampers p = false

/-- What a fetch has brought back stays the principal's entry. -/
theorem Fetched.entry {S : PrivilegeSet} {t : Site} (hs : s.Uncached p) (h : s.Fetched e p a S t) :
    t.engine.cache.get? p = some S ∧ S = t.backend.store.privileges p := by
  obtain ⟨before, act, after, rfl, hn, he, hheld, hafter⟩ := h.run
  have hrun : ∀ l l', (s.asked e p a).run (l ++ l') = ((s.asked e p a).run l).run l' :=
    fun l l' => List.foldl_append ..
  obtain ⟨-, hcaching⟩ := Bool.and_eq_true_iff.mp hs.misses.active
  have hcurrent : Current s ((s.asked e p a).run before) p (s.backend.store.privileges p) :=
    ((Current.initial hs.inOrder hcaching hs.unfetched h.alone.updates h.alone.passes).act rfl
      _).run fun l hl => hheld l (hl.trans (List.prefix_append _ _))
  have hthen := hcurrent.act (hheld before (List.prefix_append _ _)) act
  have hbegan := ((hs.asks e a).depends_run hs.inOrder before).began
  have hentry := hcurrent.order.entry_of_fetch hbegan hn he
  have hS : S = s.backend.store.privileges p := hthen.lists (Nat.le_succ _) he
  have hsame : ∀ l, l <+: after →
      ((((s.asked e p a).run before).act act).run l).backend.store.privileges p = S := by
    intro l hl
    have hprefix : before ++ act :: l <+: before ++ act :: after :=
      (List.prefix_append_right_inj before).mpr (List.cons_prefix_cons.mpr ⟨rfl, hl⟩)
    have hl := hheld _ hprefix
    rw [hrun] at hl
    exact hl.trans hS.symm
  rw [hrun]
  exact ⟨(hS ▸ hthen).stands hsame hentry hafter, (hsame after (List.prefix_refl _)).symm⟩

end Site

/-- **Decisions with and without the cache agree.**  Somebody who asks about a principal of which
the engine knows nothing is told the same, and at the same time, as somebody who asks an engine
without a cache, of a backend that treats the principal alike; each has one list asked for.  If the
list comes back, and nothing that might be older was under way when it was asked for, everybody who
asks about the principal from then on is told at once, without the backend, what an engine without a
cache is told if it is told anything, as long as what the principal holds stays the same and nobody
clears the cache or writes the entry by hand. -/
theorem cached_as_direct (s : Site) (p : Principal) (h : s.Uncached p) (e : Entity) (a : Action) :
    (∀ s' : Site, s'.Direct →
      s'.engine.settings.backendTimeout = s.engine.settings.backendTimeout →
      s'.backend.conduct p = s.backend.conduct p →
      ∃ o, s.Tells e p a ((s.backend.conduct p).due s.engine.settings.backendTimeout) o
        ∧ s'.Tells e p a ((s.backend.conduct p).due s.engine.settings.backendTimeout)
          (o.direct s.engine.settings.backendTimeout))
    ∧ ∀ S t, s.Fetched e p a S t → t.engine.dropped = false → ∀ e' a',
      t.AtOnce e' p a' (State.decision S e' p a')
      ∧ ∀ s' : Site, s'.Direct → s'.backend.store.privileges p = t.backend.store.privileges p →
        ∃ o, s'.Tells e' p a' ((s'.backend.conduct p).due s'.engine.settings.backendTimeout) o
          ∧ ((∃ cause, o = .failed (.backendUnavailable cause)) ∨ o = .crashed
            ∨ o = State.decision S e' p a') := by
  refine ⟨fun s' hs' hlimit hconduct => ⟨_, (h.asks e a).tells h.inOrder, ?_⟩,
    fun S t ht hd e' a' => ?_⟩
  · have htells := (hs'.asks e p a).tells hs'.inOrder
    rwa [hlimit, Site.outcome_direct, hconduct] at htells
  · obtain ⟨hentry, hS⟩ := ht.entry h
    obtain ⟨before, act, after, rfl, -⟩ := ht.run
    have hsettings : ((s.asked e p a).run (before ++ act :: after)).engine.settings
        = s.engine.settings :=
      ((h.inOrder.act _).settings_run _).trans (h.inOrder.settings_run [.ask (.enforce e p a)])
    have hactive := (congrArg Settings.cachingActive hsettings).trans h.misses.active
    refine ⟨Site.atOnce_of_entry hactive hd hentry e' a', fun s' hs' hsame => ?_⟩
    have htells := (hs'.asks e' p a').tells hs'.inOrder
    refine ⟨_, htells, ?_⟩
    rw [hS, ← hsame]
    exact Site.outcome_of_list ..

/-- The list is five milliseconds in coming, with and without a cache; after it has come somebody
else is granted something, and a second decision is made at once. -/
theorem cached_as_direct_of_grant :
    let e : Entity := .space "docs"
    let p : Principal := ⟨.user, "alice"⟩
    let given : List Act := [.store (.grant e p [.read]), .script { latency := some 5 }]
    let s := (Site.initial { authorization := true } .listing).run given
    let s' := (Site.initial { authorization := true, caching := false } .listing).run given
    let t := (s.asked e p .read).run
      [.ask (.elapse 5), .poll 1, .store (.grant e ⟨.user, "bob"⟩ [.write])]
    s.Uncached p ∧ s'.Direct ∧ s.Fetched e p .read (.ofList [⟨e, .read⟩]) t
      ∧ (∃ o, s.Tells e p .read 5 o
        ∧ s'.Tells e p .read 5 (o.direct s.engine.settings.backendTimeout))
      ∧ t.AtOnce e p .write (.failed (.permissionDenied p e .write)) := by
  intro e p given s s' t
  have hs : s.Uncached p := ⟨⟨_, _, given, rfl⟩, ⟨rfl, rfl, rfl, rfl⟩, rfl⟩
  have hs' : s'.Direct := ⟨⟨_, _, given, rfl⟩, rfl, rfl, rfl, rfl⟩
  have hheld : ∀ l ∈ ([.ask (.elapse 5), .poll 1, .store (.grant e ⟨.user, "bob"⟩ [.write])] :
      List Act).inits, ((s.asked e p .read).run l).backend.store.privileges p
        = s.backend.store.privileges p := by
    decide
  have ht : s.Fetched e p .read (.ofList [⟨e, .read⟩]) t :=
    ⟨⟨fun hid => (by cases hid), fun n => rfl⟩, [.ask (.elapse 5)], .poll 1, _, rfl, by decide,
      by decide, fun l hl => hheld l ((List.mem_inits _ _).mpr hl), by simp [Act.tampers]⟩
  have hwait : (s.backend.conduct p).due s.engine.settings.backendTimeout = 5 := by decide
  obtain ⟨hfirst, hlater⟩ := cached_as_direct s p hs e .read
  refine ⟨hs, hs', ht, ?_, ?_⟩
  · rw [← hwait]
    exact hfirst s' hs' rfl rfl
  · have hdecision : State.decision (.ofList [⟨e, .read⟩]) e p .write
        = .failed (.permissionDenied p e .write) := by decide
    rw [← hdecision]
    exact (hlater _ t ht rfl e .write).1

/-- An entry that somebody has written by hand overrules what the backend says, though what the
principal holds has not changed since it was fetched, and nobody has cleared the cache. -/
theorem written_entry_overrules :
    let e : Entity := .space "docs"
    let p : Principal := ⟨.user, "alice"⟩
    let given : List Act := [.store (.grant e p [.read])]
    let s := (Site.initial { authorization := true } .listing).run given
    let s' := (Site.initial { authorization := true, caching := false } .listing).run given
    let t := (s.asked e p .read).run [.poll 1, .ask (.write p .empty)]
    s.Uncached p ∧ s.Alone ∧ s'.Direct
      ∧ .ended 1 p (.listed (.value (.ofList [⟨e, .read⟩]))) ∈ t.journal
      ∧ t.backend.store.privileges p = s.backend.store.privileges p
      ∧ .cleared ∉ t.journal ∧ (∀ k, .invalidated k ∉ t.journal)
      ∧ t.AtOnce e p .read (.failed (.permissionDenied p e .read))
      ∧ .returned 0 .allowed ∈ ((s'.asked e p .read).run [.poll 1]).journal := by
  intro e p given s s' t
  have hdecision : State.decision .empty e p .read = .failed (.permissionDenied p e .read) := by
    decide
  refine ⟨⟨⟨_, _, given, rfl⟩, ⟨rfl, rfl, rfl, rfl⟩, rfl⟩,
    ⟨fun hid => (by cases hid), fun n => rfl⟩, ⟨⟨_, _, given, rfl⟩, rfl, rfl, rfl, rfl⟩,
    by decide, by decide, by decide, fun k hk => ?_, ?_, by decide⟩
  · have hj : t.journal = [.stored p .empty .hand, .returned 0 .allowed,
        .stored p (.ofList [⟨e, .read⟩]) (.call 1 .fetch),
        .ended 1 p (.listed (.value (.ofList [⟨e, .read⟩]))), .joined 0 1,
        .began 1 p .listing .fetch, .missed 0 p, .called 0 (.enforce e p .read)] := by
      decide
    simp [hj] at hk
  · rw [← hdecision]
    exact Site.atOnce_of_entry rfl rfl (by decide) e .read

end Gatekeeper

import Gatekeeper.Proofs.Cache

/-!
# Decisions

Access is allowed only where a backend has said so.  The four ways to a decision are a hit in the
cache, a fetch that the caller starts, a fetch that it joins, and a call of its own; whatever
happens in between, the caller is told what the set that it saw, or the backend, says about its
privilege, and is turned away if there is nothing to see.

* `Seen` — the set that an enforcement decides on.
* `Consulted` — what the call comes to that an enforcement makes without a cache.
* `DecidedByCache`, `DecidedByBackend` — what each of the outcomes of an enforcement means.
* `enforce_decides` — every enforcement that comes to an end has the outcome that it must have.

The proof has two halves.  What the outcome *is* comes from the four ways into an enforcement,
each with the state that it leaves behind, and from the books of callers, which know what
somebody is told that has joined a call.  What the outcome *means* is a matter of the decision
alone, and is stated for sets and for endings of calls without any engine.  That the entry of a
cache is a list which a call has brought back is known from the books of the cache, and that
nobody but the backend has a say in how a call ends is `Books.brought`.
-/

set_option autoImplicit false

namespace Gatekeeper.Engine

/-! ## What the outcomes mean

An enforcement is told one of a few outcomes, and each is characterised by what the set says of
the privilege, or by how the call has ended.  Both directions are needed: what follows from an
outcome, and which outcome follows. -/

section Outcomes

variable {e : Entity} {p : Principal} {a : Action} {o : Owner} {limit : Span} {ending : Ending}

theorem decision_eq_allowed_iff {privileges : PrivilegeSet} :
    State.decision privileges e p a = .allowed ↔ ⟨e, a⟩ ∈ privileges := by
  rw [State.decision]
  split <;> simp_all

theorem decision_eq_denied_iff {privileges : PrivilegeSet} {p' : Principal} {e' : Entity}
    {a' : Action} : State.decision privileges e p a = .failed (.permissionDenied p' e' a')
      ↔ (p' = p ∧ e' = e ∧ a' = a) ∧ ⟨e, a⟩ ∉ privileges := by
  rw [State.decision]
  split
  · simp_all
  · simp_all [eq_comm]

theorem decision_ne_unavailable {privileges : PrivilegeSet} {cause : Cause} :
    State.decision privileges e p a ≠ .failed (.backendUnavailable cause) := by
  rw [State.decision]
  split <;> simp

theorem outcome_eq_allowed_iff :
    (Request.enforce e p a).outcome o limit ending = .allowed
      ↔ ending.verdict? e a = some true := by
  rcases ending with (S | cause | _) | (b | cause | _) | _
  · exact decision_eq_allowed_iff.trans (by simp [Ending.verdict?])
  · simp [Request.outcome, Request.answer, Ending.verdict?]
  · simp [Request.outcome, Request.answer, Ending.verdict?]
  · cases b <;> simp [Request.outcome, Request.verdict, Ending.verdict?]
  · simp [Request.outcome, Request.verdict, Ending.verdict?]
  · simp [Request.outcome, Request.verdict, Ending.verdict?]
  · simp [Request.outcome, Ending.verdict?]

theorem outcome_eq_denied_iff {p' : Principal} {e' : Entity} {a' : Action} :
    (Request.enforce e p a).outcome o limit ending = .failed (.permissionDenied p' e' a')
      ↔ (p' = p ∧ e' = e ∧ a' = a) ∧ ending.verdict? e a = some false := by
  rcases ending with (S | cause | _) | (b | cause | _) | _
  · exact decision_eq_denied_iff.trans (by simp [Ending.verdict?])
  · simp [Request.outcome, Request.answer, Ending.verdict?]
  · simp [Request.outcome, Request.answer, Ending.verdict?]
  · cases b <;> simp [Request.outcome, Request.verdict, Ending.verdict?, eq_comm]
  · simp [Request.outcome, Request.verdict, Ending.verdict?]
  · simp [Request.outcome, Request.verdict, Ending.verdict?]
  · simp [Request.outcome, Ending.verdict?]

theorem outcome_eq_unavailable_iff {cause : Cause} :
    (Request.enforce e p a).outcome o limit ending = .failed (.backendUnavailable cause)
      ↔ ending.cause? o.operation limit = some cause := by
  rcases ending with (S | cause' | _) | (b | cause' | _) | _
  · exact iff_of_false decision_ne_unavailable (by simp [Ending.cause?])
  · simp [Request.outcome, Request.answer, Ending.cause?]
  · simp [Request.outcome, Request.answer, Ending.cause?]
  · cases b <;> simp [Request.outcome, Request.verdict, Ending.cause?]
  · simp [Request.outcome, Request.verdict, Ending.cause?]
  · simp [Request.outcome, Request.verdict, Ending.cause?]
  · simp [Request.outcome, Ending.cause?]

end Outcomes

/-! ## What an enforcement decides on

For an engine with a cache that is a set: the entry that was there when the caller asked, or the
list that the fetch it turned to came back with.  For an engine without one it is the end of the
call that the caller has made, and about that call the journal says what was asked. -/

/-- The set that the caller who asks next at `before` decides on: the cache entry of the principal,
or the list that the fetch came back with which the caller turned to. -/
inductive Seen (before after : State) (p : Principal) : PrivilegeSet → Prop
  | cached {privileges : PrivilegeSet} (h : before.cache.get? p = some privileges) :
    Seen before after p privileges
  | fetched {id : Id} {privileges : PrivilegeSet} (hn : before.cache.get? p = none)
    (hf : before.settings.fetchOnMiss = true) (hj : .joined before.next id ∈ after.journal)
    (hb : .began id p .listing .fetch ∈ after.journal)
    (he : .ended id p (.listed (.value privileges)) ∈ after.journal) :
    Seen before after p privileges

/-- What the outcomes of an enforcement mean that goes through the cache. -/
structure DecidedByCache (before after : State) (e : Entity) (p : Principal) (a : Action)
    (o : Outcome) : Prop where
  allowed : o = .allowed ↔ ∃ privileges, Seen before after p privileges ∧ ⟨e, a⟩ ∈ privileges
  denied : ∀ p' e' a', o = .failed (.permissionDenied p' e' a') ↔ (p' = p ∧ e' = e ∧ a' = a)
    ∧ ((∃ privileges, Seen before after p privileges ∧ ⟨e, a⟩ ∉ privileges)
      ∨ (before.cache.get? p = none ∧ before.settings.fetchOnMiss = false))
  unavailable : ∀ cause, o = .failed (.backendUnavailable cause) ↔
    ∃ id ending, .joined before.next id ∈ after.journal
      ∧ .began id p .listing .fetch ∈ after.journal
      ∧ .ended id p ending ∈ after.journal
      ∧ ending.cause? Owner.fetch.operation before.settings.backendTimeout = some cause
  /-- There is only one set to decide on. -/
  unique : ∀ {privileges privileges'}, Seen before after p privileges →
    Seen before after p privileges' → privileges = privileges'
  /-- The set has been listed by the backend for this principal. -/
  listed : ∀ {privileges}, Seen before after p privileges → ∃ id o,
    .began id p .listing o ∈ after.journal
      ∧ .ended id p (.listed (.value privileges)) ∈ after.journal

/-- The call that the caller who asks next at `before` makes for its decision has come to this end.
A backend that has a check of its own is asked whether the principal may do this to the resource,
and any other what the principal may do. -/
def Consulted (before after : State) (e : Entity) (p : Principal) (a : Action) (ending : Ending) :
    Prop :=
  ∃ id, .joined before.next id ∈ after.journal
    ∧ .began id p (if before.checks then .check e a else .listing) (.direct before.next e a)
      ∈ after.journal
    ∧ .ended id p ending ∈ after.journal

/-- What the outcomes of an enforcement mean that goes to the backend itself. -/
structure DecidedByBackend (before after : State) (e : Entity) (p : Principal) (a : Action)
    (o : Outcome) : Prop where
  allowed : o = .allowed ↔ ∃ ending, Consulted before after e p a ending
    ∧ ending.verdict? e a = some true
  denied : ∀ p' e' a', o = .failed (.permissionDenied p' e' a') ↔ (p' = p ∧ e' = e ∧ a' = a)
    ∧ ∃ ending, Consulted before after e p a ending ∧ ending.verdict? e a = some false
  unavailable : ∀ cause, o = .failed (.backendUnavailable cause) ↔
    ∃ ending, Consulted before after e p a ending
      ∧ ending.cause? (Owner.direct before.next e a).operation before.settings.backendTimeout
        = some cause
  /-- There is exactly one end to decide on. -/
  consulted : ∃! ending, Consulted before after e p a ending

/-! ## Every enforcement

Which of the four ways is taken is settled in the first step.  On two of them the caller is told
in that step, and nothing that happens later can change what it was told; on the other two it has
joined a call, and the books of callers say what it is told at the end of it. -/

section Enforcements

variable {s : State} {e : Entity} {p : Principal} {a : Action} {o o' : Outcome}

theorem thread_enter (h : Books s) (r : Request) :
    thread Note.caller? s.next (s.enter r).journal = [.called s.next r] := by
  rw [State.enter, State.note, thread_cons_self rfl, CallerBooks.thread_next h.orderly]

/-- An enforcement that is settled at once keeps its outcome, and joins no call. -/
theorem answered_run (h : Books s) (es : List Event) {u : State}
    (hu : thread Note.caller? s.next u.journal = [.called s.next (.enforce e p a)])
    (ht : s.step (.enforce e p a) = u.finish s.next o)
    (hr : .returned s.next o' ∈ (s.run (.enforce e p a :: es)).journal) :
    o' = o ∧ ∀ id, .joined s.next id ∉ (s.run (.enforce e p a :: es)).journal := by
  have hthr : thread Note.caller? s.next (s.step (.enforce e p a)).journal
      = [.returned s.next o, .called s.next (.enforce e p a)] := by
    rw [ht, State.finish, State.note, thread_cons_self rfl, hu]
  have hsuf := thread_suffix (k := Note.caller?) (i := s.next)
    ((h.run [.enforce e p a]).suffix_run es)
  have hs : [.returned s.next o, .called s.next (.enforce e p a)]
      <:+ thread Note.caller? s.next (s.run (.enforce e p a :: es)).journal := hthr ▸ hsuf
  obtain ⟨hj, ho⟩ := (h.run (.enforce e p a :: es)).callers.of_answered hs
  exact ⟨ho o' hr, hj⟩

/-- An enforcement that turns to a fetch is crashed by it at once, or joins its call. -/
theorem joined_or_crashed (h : Books s)
    (ht : s.step (.enforce e p a) = (s.enter (.enforce e p a)).joinFetch s.next e p a) :
    (s.fetches.get? p = some .broken ∧
        s.step (.enforce e p a)
          = ((s.enter (.enforce e p a)).note (.missed s.next p)).finish s.next .crashed)
      ∨ ∃ id, .joined s.next id ∈ (s.step (.enforce e p a)).journal
        ∧ .began id p .listing .fetch ∈ (s.step (.enforce e p a)).journal := by
  rw [ht, State.joinFetch]
  dsimp only
  have hf : ((s.enter (.enforce e p a)).note (.missed s.next p)).fetches = s.fetches := rfl
  rw [hf]
  cases hp : s.fetches.get? p with
  | none => exact Or.inr ⟨_, List.mem_cons_self, List.mem_cons_of_mem _ List.mem_cons_self⟩
  | some f =>
    cases f with
    | broken => exact Or.inl ⟨rfl, rfl⟩
    | underway id =>
      obtain ⟨call, hid, hown, rfl⟩ := h.calls.underway hp
      have hb := h.calls.began_of_get? hid
      rw [h.calls.listing hid (by rw [hown]; rfl), hown] at hb
      refine Or.inr ⟨id, List.mem_cons_self, ?_⟩
      exact List.mem_cons_of_mem _ (List.mem_cons_of_mem _ (List.mem_cons_of_mem _ hb))

theorem joinFetch_journal {c : Id} {n : Note} (hn : n ∈ s.journal) :
    n ∈ (s.joinFetch c e p a).journal := by
  rw [State.joinFetch]
  dsimp only
  split
  · exact List.mem_cons_of_mem _ (List.mem_cons_of_mem _ hn)
  · exact List.mem_cons_of_mem _ (List.mem_cons_of_mem _ hn)
  · exact List.mem_cons_of_mem _ (List.mem_cons_of_mem _ (List.mem_cons_of_mem _ hn))

/-- What comes of an enforcement that has joined a call. -/
theorem joined_run (h : Books s) {id : Id} {p' : Principal} {q : Question}
    {ow : Owner} {es : List Event}
    (hj : .joined s.next id ∈ (s.step (.enforce e p a)).journal)
    (hb : .began id p' q ow ∈ (s.step (.enforce e p a)).journal)
    (hc : .called s.next (.enforce e p a) ∈ (s.step (.enforce e p a)).journal)
    (hr : .returned s.next o ∈ (s.run (.enforce e p a :: es)).journal) :
    ∃ ending, .ended id p' ending ∈ (s.run (.enforce e p a :: es)).journal
      ∧ o = (Request.enforce e p a).outcome ow s.settings.backendTimeout ending := by
  have hbooks := h.run (.enforce e p a :: es)
  have hsub := ((h.run [.enforce e p a]).suffix_run es).subset
  obtain ⟨r, p₁, q₁, ow₁, ending, hc₁, -, hb₁, he₁, ho⟩ :=
    hbooks.callers.returned_of_joined (hsub hj) hr
  obtain rfl := hbooks.callers.called_unique (hsub hc) hc₁
  obtain ⟨rfl, rfl, rfl⟩ := hbooks.calls.began_unique (hsub hb) hb₁
  refine ⟨ending, he₁, ?_⟩
  rw [ho, h.orderly.settings_run]

/-! ### Outcomes without a look, with one, and with a call

An enforcement that joins no call is told its outcome at once, either because it has seen the
entry or because there was nothing to be seen.  One that joins a call is told what its request
makes of the end of the call, and here that is compared with what the outcome is to mean. -/

/-- Where nothing is seen and no call is joined, the outcome has to be a crash or a denial without a
look. -/
theorem decided_of_unseen {before after : State}
    (hn : before.cache.get? p = none) (hj : ∀ id, .joined before.next id ∉ after.journal)
    (ho : (before.settings.fetchOnMiss = false ∧ o = .failed (.permissionDenied p e a))
      ∨ (before.settings.fetchOnMiss = true ∧ o = .crashed)) :
    DecidedByCache before after e p a o := by
  have hunseen : ∀ S, ¬Seen before after p S := by
    intro S hS
    cases hS with
    | cached h =>
      rw [hn] at h
      cases h
    | fetched _ _ h => exact hj _ h
  refine ⟨?_, fun p' e' a' => ?_, fun cause => ?_, fun h => absurd h (hunseen _),
    fun h => absurd h (hunseen _)⟩
  · refine iff_of_false ?_ fun ⟨S, hS, _⟩ => hunseen S hS
    rcases ho with ⟨-, rfl⟩ | ⟨-, rfl⟩ <;> simp
  · rcases ho with ⟨hf, rfl⟩ | ⟨hf, rfl⟩
    · constructor
      · intro he
        simp only [Outcome.failed.injEq, Error.permissionDenied.injEq] at he
        exact ⟨⟨he.1.symm, he.2.1.symm, he.2.2.symm⟩, Or.inr ⟨hn, hf⟩⟩
      · rintro ⟨⟨rfl, rfl, rfl⟩, -⟩
        rfl
    · refine iff_of_false (by simp) ?_
      rintro ⟨-, ⟨S, hS, -⟩ | ⟨-, hoff⟩⟩
      · exact hunseen S hS
      · rw [hf] at hoff
        cases hoff
  · refine iff_of_false ?_ fun ⟨id, _, h, _⟩ => hj id h
    rcases ho with ⟨-, rfl⟩ | ⟨-, rfl⟩ <;> simp

/-- A hit is decided on what is in the cache. -/
theorem decided_of_hit {before after : State} {S : PrivilegeSet}
    (hS : before.cache.get? p = some S) (hj : ∀ id, .joined before.next id ∉ after.journal)
    (hlisted : ∃ id o, .began id p .listing o ∈ after.journal
      ∧ .ended id p (.listed (.value S)) ∈ after.journal) :
    DecidedByCache before after e p a (State.decision S e p a) := by
  have hseen : ∀ {S'}, Seen before after p S' → S' = S := by
    intro S' h
    cases h with
    | cached h =>
      rw [hS, Option.some_inj] at h
      exact h.symm
    | fetched hn =>
      rw [hS] at hn
      cases hn
  refine ⟨?_, fun p' e' a' => ?_, fun cause => ?_, fun h h' => (hseen h).trans (hseen h').symm,
    fun h => hseen h ▸ hlisted⟩
  · rw [decision_eq_allowed_iff]
    refine ⟨fun hm => ⟨S, .cached hS, hm⟩, ?_⟩
    rintro ⟨S', h, hm⟩
    exact hseen h ▸ hm
  · rw [decision_eq_denied_iff]
    refine and_congr_right fun _ => ⟨fun hm => Or.inl ⟨S, .cached hS, hm⟩, ?_⟩
    rintro (⟨S', h, hm⟩ | ⟨hn, -⟩)
    · exact hseen h ▸ hm
    · rw [hS] at hn
      cases hn
  · exact iff_of_false decision_ne_unavailable fun ⟨id, _, h, _⟩ => hj id h

/-- A miss is decided on what comes back from the fetch. -/
theorem decided_of_joined {before after : State} (h : Books after) {id : Id} {ending : Ending}
    (hn : before.cache.get? p = none) (hf : before.settings.fetchOnMiss = true)
    (hj : .joined before.next id ∈ after.journal) (hb : .began id p .listing .fetch ∈ after.journal)
    (he : .ended id p ending ∈ after.journal)
    (ho : o = (Request.enforce e p a).outcome .fetch before.settings.backendTimeout ending) :
    DecidedByCache before after e p a o := by
  have hend : ∀ {id' ending'}, .joined before.next id' ∈ after.journal →
      .ended id' p ending' ∈ after.journal → ending' = ending := by
    intro id' ending' hj' he'
    obtain rfl := h.callers.joined_unique hj hj'
    exact ((h.calls.of_ended he).2.2 p ending' he').2
  have hseen : ∀ {S}, Seen before after p S ↔ ending = .listed (.value S) := by
    intro S
    constructor
    · intro hS
      cases hS with
      | cached hc =>
        rw [hn] at hc
        cases hc
      | fetched _ _ hj' _ he' => exact (hend hj' he').symm
    · rintro rfl
      exact .fetched hn hf hj hb he
  have hverdict : ∀ {b}, ending.verdict? e a = some b →
      ∃ S, ending = .listed (.value S) ∧ decide (⟨e, a⟩ ∈ S) = b := by
    intro b hv
    rcases ending with (S | _ | _) | r | _
    · exact ⟨S, rfl, Option.some_inj.mp hv⟩
    · cases hv
    · cases hv
    · exact absurd he (h.calls.not_checked hb)
    · cases hv
  subst ho
  refine ⟨?_, fun p' e' a' => ?_, fun cause => ?_, fun hS hS' => ?_, fun hS => ⟨id, .fetch, hb, ?_⟩⟩
  · rw [outcome_eq_allowed_iff]
    constructor
    · intro hv
      obtain ⟨S, hS, hm⟩ := hverdict hv
      exact ⟨S, hseen.mpr hS, of_decide_eq_true hm⟩
    · rintro ⟨S, hS, hm⟩
      rw [hseen.mp hS, Ending.verdict?, decide_eq_true hm]
  · rw [outcome_eq_denied_iff]
    refine and_congr_right fun _ => ⟨fun hv => ?_, ?_⟩
    · obtain ⟨S, hS, hm⟩ := hverdict hv
      exact Or.inl ⟨S, hseen.mpr hS, of_decide_eq_false hm⟩
    · rintro (⟨S, hS, hm⟩ | ⟨-, hoff⟩)
      · rw [hseen.mp hS, Ending.verdict?, decide_eq_false hm]
      · rw [hf] at hoff
        cases hoff
  · rw [outcome_eq_unavailable_iff]
    constructor
    · exact fun hcause => ⟨id, ending, hj, hb, he, hcause⟩
    · rintro ⟨id', ending', hj', -, he', hcause⟩
      rwa [hend hj' he'] at hcause
  · have hl := (hseen.mp hS).symm.trans (hseen.mp hS')
    injection hl with hl
    injection hl
  · rw [← hseen.mp hS]
    exact he

theorem decided_by_cache (h : Books s) (hcache : CacheBooks s)
    (hw : ∀ q S, .stored q S .hand ∉ s.journal) (hd : s.dropped = false)
    (ha : s.settings.authorization = true) (hc : s.settings.caching = true) {es : List Event}
    (hr : .returned s.next o ∈ (s.run (.enforce e p a :: es)).journal) :
    DecidedByCache s (s.run (.enforce e p a :: es)) e p a o := by
  have hsub := (h.suffix_run (.enforce e p a :: es)).subset
  cases hS : s.cache.get? p with
  | some S =>
    obtain ⟨rfl, hj⟩ := answered_run h es (thread_enter h _) (step_enforce_hit hd ha hc hS) hr
    refine decided_of_hit hS hj ?_
    obtain ⟨⟨S', o⟩, hsource, rfl⟩ := Option.map_eq_some_iff.mp ((hcache.source p).symm.trans hS)
    have hstored := stored_of_source hsource
    cases o with
    | hand => exact absurd hstored (hw p S')
    | call id o =>
      obtain ⟨hb, he⟩ := hcache.listed hstored
      exact ⟨id, o, hsub hb, hsub he⟩
  | none =>
    by_cases hf : s.settings.fetchOnMiss = true
    · have ht := step_enforce_miss (e := e) (a := a) hd ha hc hf hS
      rcases joined_or_crashed h ht with ⟨-, hcrash⟩ | ⟨id, hj, hb⟩
      · obtain ⟨rfl, hj⟩ := answered_run (o := .crashed) h es
          ((thread_cons_of_none rfl).trans (thread_enter h _)) hcrash hr
        exact decided_of_unseen hS hj (Or.inr ⟨hf, rfl⟩)
      · have hcalled : .called s.next (.enforce e p a) ∈ (s.step (.enforce e p a)).journal := by
          rw [ht]
          exact joinFetch_journal List.mem_cons_self
        obtain ⟨ending, he, ho⟩ := joined_run h hj hb hcalled hr
        have hgrow := ((h.run [.enforce e p a]).suffix_run es).subset
        exact decided_of_joined (h.run _) hS hf (hgrow hj) (hgrow hb) he ho
    · rw [Bool.not_eq_true] at hf
      obtain ⟨rfl, hj⟩ := answered_run h es (thread_enter h _)
        (step_enforce_unfetched hd ha hc hf hS) hr
      exact decided_of_unseen hS hj (Or.inl ⟨hf, rfl⟩)

theorem decided_by_backend (h : Books s) (hd : s.dropped = false)
    (ha : s.settings.authorization = true) (hc : s.settings.caching = false) {es : List Event}
    (hr : .returned s.next o ∈ (s.run (.enforce e p a :: es)).journal) :
    DecidedByBackend s (s.run (.enforce e p a :: es)) e p a o := by
  have hbooks := h.run (.enforce e p a :: es)
  have ht := step_enforce_direct (e := e) (p := p) (a := a) hd ha hc
  have hgrow := ((h.run [.enforce e p a]).suffix_run es).subset
  obtain ⟨id, hj, hb, hcalled⟩ : ∃ id, .joined s.next id ∈ (s.step (.enforce e p a)).journal
      ∧ .began id p (if s.checks then .check e a else .listing) (.direct s.next e a)
        ∈ (s.step (.enforce e p a)).journal
      ∧ .called s.next (.enforce e p a) ∈ (s.step (.enforce e p a)).journal := by
    rw [ht]
    exact ⟨_, List.mem_cons_of_mem _ List.mem_cons_self, List.mem_cons_self,
      List.mem_cons_of_mem _ (List.mem_cons_of_mem _ List.mem_cons_self)⟩
  obtain ⟨ending, he, rfl⟩ := joined_run h hj hb hcalled hr
  have hconsulted : Consulted s (s.run (.enforce e p a :: es)) e p a ending :=
    ⟨id, hgrow hj, hgrow hb, he⟩
  have hend : ∀ {ending'}, Consulted s (s.run (.enforce e p a :: es)) e p a ending' →
      ending' = ending := by
    rintro ending' ⟨id', hj', -, he'⟩
    obtain rfl := hbooks.callers.joined_unique (hgrow hj) hj'
    exact ((hbooks.calls.of_ended he).2.2 p ending' he').2
  refine ⟨?_, fun p' e' a' => ?_, fun cause => ?_, ending, hconsulted, fun ending' h => hend h⟩
  · rw [outcome_eq_allowed_iff]
    refine ⟨fun hv => ⟨ending, hconsulted, hv⟩, ?_⟩
    rintro ⟨ending', h', hv⟩
    rwa [hend h'] at hv
  · rw [outcome_eq_denied_iff]
    refine and_congr_right fun _ => ⟨fun hv => ⟨ending, hconsulted, hv⟩, ?_⟩
    rintro ⟨ending', h', hv⟩
    rwa [hend h'] at hv
  · rw [outcome_eq_unavailable_iff]
    refine ⟨fun hv => ⟨ending, hconsulted, hv⟩, ?_⟩
    rintro ⟨ending', h', hv⟩
    rwa [hend h'] at hv

end Enforcements

/-- **An enforcement is decided on what was seen, and on nothing else.**  In every run of an engine
that enforces anything, and in whose cache nobody has written by hand, an enforcement that comes to
an end is allowed exactly if the set that it saw, or the backend itself, has the privilege; it is
denied exactly if the privilege is missing there, or there was nothing to look at; and it fails
exactly if the call that it waited for failed.  What is said here of the end of a call is what an
event of the run has reported, of a call that has asked the backend this question. -/
theorem enforce_decides (settings : Settings) (checks : Bool) (ha : settings.authorization = true)
    (es es' : List Event) (hw : ∀ q S, .write q S ∉ es) (e : Entity) (p : Principal) (a : Action)
    (o : Outcome) (hd : ((State.initial settings checks).run es).dropped = false)
    (hr : .returned ((State.initial settings checks).run es).next o
      ∈ ((State.initial settings checks).run (es ++ .enforce e p a :: es')).journal) :
    (settings.caching = true → DecidedByCache ((State.initial settings checks).run es)
        ((State.initial settings checks).run (es ++ .enforce e p a :: es')) e p a o)
      ∧ (settings.caching = false → DecidedByBackend ((State.initial settings checks).run es)
        ((State.initial settings checks).run (es ++ .enforce e p a :: es')) e p a o)
      ∧ ∀ id p' q o' ending,
        .began id p' q o'
            ∈ ((State.initial settings checks).run (es ++ .enforce e p a :: es')).journal →
          .ended id p' ending
            ∈ ((State.initial settings checks).run (es ++ .enforce e p a :: es')).journal →
          Brought (.initial settings checks) (es ++ .enforce e p a :: es') id p' q ending := by
  have hbooks := Books.initial settings checks
  have hs : ((State.initial settings checks).run es).settings = settings :=
    hbooks.orderly.settings_run es
  have hbrought : ∀ id p' q o' ending, _ → _ →
      Brought (.initial settings checks) (es ++ .enforce e p a :: es') id p' q ending :=
    fun id p' q o' ending => hbooks.brought (o := o') List.not_mem_nil
  rw [run_append] at hr hbrought ⊢
  refine ⟨fun hc => ?_, fun hc => ?_, hbrought⟩
  · refine decided_by_cache (hbooks.run es) ((CacheBooks.initial settings checks).run hbooks es)
      (fun q S => ?_) hd (by rw [hs]; exact ha) (by rw [hs]; exact hc) hr
    exact hbooks.hand_run es List.not_mem_nil (hw q S)
  · exact decided_by_backend (hbooks.run es) hd (by rw [hs]; exact ha) (by rw [hs]; exact hc) hr

/-- A caller joins the fetch that another has started, and is allowed what the fetch comes back
with. -/
theorem enforce_decides_on_joined_fetch :
    let s := State.initial { authorization := true } true
    let p : Principal := ⟨.user, "alice"⟩
    let e : Entity := .space "docs"
    let es : List Event := [.enforce e p .write]
    let es' : List Event := [.answer 1 (.value (.ofList [⟨e, .read⟩]))]
    (∀ q S, .write q S ∉ es) ∧ (s.run es).dropped = false
      ∧ .returned (s.run es).next .allowed ∈ (s.run (es ++ .enforce e p .read :: es')).journal
      ∧ DecidedByCache (s.run es) (s.run (es ++ .enforce e p .read :: es')) e p .read .allowed := by
  intro s p e es es'
  have hw : ∀ q S, Event.write q S ∉ es := by
    intro q S h
    cases List.mem_singleton.mp h
  have hr : .returned (s.run es).next .allowed
      ∈ (s.run (es ++ .enforce e p .read :: es')).journal := by decide
  exact ⟨hw, rfl, hr,
    (enforce_decides { authorization := true } true rfl es es' hw e p .read .allowed rfl hr).1 rfl⟩

end Gatekeeper.Engine

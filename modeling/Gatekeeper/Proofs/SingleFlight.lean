import Gatekeeper.Proofs.Fair

/-!
# One fetch for everybody

Callers that miss the same principal share one call to the backend.  The fetch of a principal is
registered exactly as long as the call is under way, and a caller that finds it registered makes no
call of its own; when the call ends, everybody who waits for it is told the same.

* `Flight` — a call that a fetch has begun and that has not ended.
* `Still` — a change in which fetches have no part; `step_flight` says what the other changes are.
* `SingleFlight` — what is promised about fetches, of one state and of what can follow it.
* `single_flight` — the promise is kept in every run in which no backend call crashes.

The proof splits a step by what it does to fetches (`step_flight`): it leaves them alone, starts
one, or ends one.  The three cases differ in which of the promises they have anything to do with,
and most of them are a matter of counting: a fetch that starts is one registration and one call,
and whatever else happens is neither.  What callers are told is not proved here at all; the books
of callers know what somebody who has joined a call was told, and the books of calls know that it
was one call.

That everybody is told something *in the end* is a statement about endless runs.  It needs the
clock: a call of a fetch that nobody answers is ended by whoever looks at the clock when its time
is up.
-/

set_option autoImplicit false

namespace Gatekeeper.Engine

/-- A fetch has begun this call for the principal, and it has not been driven to its end. -/
def Flight (s : State) (id : Id) (p : Principal) : Prop :=
  .began id p .listing .fetch ∈ s.journal ∧ ∀ q ending, .ended id q ending ∉ s.journal

/-- The note says that a fetch has begun a call for the principal. -/
def Note.fetches (p : Principal) : Note → Bool
  | .began _ q _ .fetch => q == p
  | _ => false

/-- How many calls fetches have begun for the principal. -/
def State.fetchCalls (s : State) (p : Principal) : Nat := s.journal.countP (Note.fetches p)

/-- The state after a caller has started a fetch. -/
def State.started (s : State) (e : Entity) (p : Principal) (a : Action) : State :=
  ((s.enter (.enforce e p a)).note (.missed s.next p)).startFetch s.next e p a

section

variable {s t u : State} {ev : Event}

theorem flight_iff (h : Books s) {id : Id} {p : Principal} :
    Flight s id p ↔
      ∃ call, s.calls.get? id = some call ∧ call.owner = .fetch ∧ call.principal = p := by
  constructor
  · rintro ⟨hb, hn⟩
    rcases h.calls.get?_or_of_began hb with ⟨call, hid, hp, -, ho⟩ | ⟨-, ⟨ending, he⟩ | ⟨-, ho⟩⟩
    · exact ⟨call, hid, ho, hp⟩
    · exact absurd he (hn p ending)
    · exact absurd rfl ho
  · rintro ⟨call, hid, ho, rfl⟩
    have hb := h.calls.began_of_get? hid
    rw [h.calls.listing hid (by rw [ho]; rfl), ho] at hb
    exact ⟨hb, fun q ending => h.calls.not_ended hid⟩

theorem flight_iff_underway (h : Books s) {id : Id} {p : Principal} :
    Flight s id p ↔ s.fetches.get? p = some (.underway id) := by
  rw [flight_iff h]
  constructor
  · rintro ⟨call, hid, ho, rfl⟩
    exact h.calls.registered hid ho
  · exact h.calls.underway

/-- A caller that misses while a call is under way joins that call. -/
theorem step_enforce_join (h : Books s) (ha : s.settings.cachingActive = true)
    (hf : s.settings.fetchOnMiss = true) {e : Entity} {p : Principal} {a : Action} {id : Id}
    (hd : s.dropped = false) (hc : s.cache.get? p = none) (hfl : Flight s id p) :
    s.step (.enforce e p a) = (((s.enter (.enforce e p a)).note (.missed s.next p)).wait s.next
      (.fetch p e a)).note (.joined s.next id) := by
  rw [Settings.cachingActive, Bool.and_eq_true] at ha
  have hp : ((s.enter (.enforce e p a)).note (.missed s.next p)).fetches.get? p
    = some (.underway id) := (flight_iff_underway h).mp hfl
  rw [step_enforce_miss hd ha.1 ha.2 hf hc, State.joinFetch]
  simp only [hp]

/-- A caller that misses where no fetch is registered starts one. -/
theorem step_enforce_start (ha : s.settings.cachingActive = true)
    (hf : s.settings.fetchOnMiss = true) {e : Entity} {p : Principal} {a : Action}
    (hd : s.dropped = false) (hc : s.cache.get? p = none) (hp : s.fetches.get? p = none) :
    s.step (.enforce e p a) = s.started e p a := by
  rw [Settings.cachingActive, Bool.and_eq_true] at ha
  have hp' : ((s.enter (.enforce e p a)).note (.missed s.next p)).fetches.get? p = none := hp
  rw [step_enforce_miss hd ha.1 ha.2 hf hc, State.joinFetch]
  simp only [hp']
  rfl

/-! ## What a step does to the fetches

Most moves do not touch fetches at all, which `Still` says in one word.  A fetch begins in a step
in which a caller misses, and ends in a step in which its call does; `step_flight` is the case
distinction that everything below starts from.  A call that crashes would leave a fetch behind
that is broken, so such runs are kept out by `Unbroken`. -/

/-- A change in which fetches have no part. -/
structure Still (s t : State) : Prop where
  fetches : t.fetches = s.fetches
  calls : ∀ id call, call.owner = .fetch →
    (t.calls.get? id = some call ↔ s.calls.get? id = some call)
  fetchCalls : ∀ p, t.fetchCalls p = s.fetchCalls p

theorem Still.refl (s : State) : Still s s where
  fetches := rfl
  calls _ _ _ := Iff.rfl
  fetchCalls _ := rfl

theorem Still.trans (h : Still s t) (h' : Still t u) : Still s u where
  fetches := h'.fetches.trans h.fetches
  calls id call ho := (h'.calls id call ho).trans (h.calls id call ho)
  fetchCalls p := (h'.fetchCalls p).trans (h.fetchCalls p)

/-- A change in which no fetch and no call of one is touched. -/
theorem Still.of_silent (new : List Note) (hf : t.fetches = s.fetches)
    (hc : ∀ id call, call.owner = .fetch →
      (t.calls.get? id = some call ↔ s.calls.get? id = some call))
    (hj : t.journal = new ++ s.journal) (hn : ∀ n ∈ new, ∀ p, n.fetches p = false) : Still s t where
  fetches := hf
  calls := hc
  fetchCalls p := by
    have hzero : new.countP (Note.fetches p) = 0 := by
      rw [List.countP_eq_zero]
      intro n hm
      rw [hn n hm p]
      simp
    rw [State.fetchCalls, hj, List.countP_append, hzero, Nat.zero_add]
    rfl

/-! ### Changes that leave fetches alone

For every part of a move that is not about a fetch, it is noted here that it begins no call of
one, and that it leaves those that are under way where they are. -/

theorem Note.fetches_of_remark {n : Note} (h : n.remark = true) (p : Principal) :
    n.fetches p = false := by
  cases n <;> simp_all [Note.remark, Note.fetches]

theorem Landing.fetches_notes {l : Landing} {n : Id} {m : Note} (h : m ∈ l.notes n)
    (p : Principal) : m.fetches p = false := by
  obtain ⟨q, id, r⟩ := l
  cases r <;> rw [List.mem_singleton.mp h] <;> rfl

/-- A call that is not made by a fetch begins. -/
theorem fetch_begun (ho : Orderly s) {call : Call} (hown : call.owner ≠ .fetch) (id : Id)
    (call' : Call) (hown' : call'.owner = .fetch) :
    (s.calls.put s.next call).get? id = some call' ↔ s.calls.get? id = some call' := by
  refine Table.get?_put_eq_some_iff.trans ⟨?_, fun hid => Or.inr ⟨Nat.ne_of_lt (ho.calls hid), hid⟩⟩
  rintro (⟨-, rfl⟩ | ⟨-, hid⟩)
  · exact absurd hown' hown
  · exact hid

/-- A call that is not made by a fetch is over. -/
theorem fetch_over {id : Id} {call : Call} (hid : s.calls.get? id = some call)
    (hown : call.owner ≠ .fetch) (id' : Id) (call' : Call) (hown' : call'.owner = .fetch) :
    (s.calls.erase id).get? id' = some call' ↔ s.calls.get? id' = some call' := by
  refine Table.get?_erase_eq_some_iff.trans ⟨And.right, fun hid' => ⟨?_, hid'⟩⟩
  rintro rfl
  rw [hid, Option.some_inj] at hid'
  exact hown (hid' ▸ hown')

theorem Still.dropPass (callers : Table Id Waiting) (new : List Note)
    (hn : ∀ n ∈ new, ∀ p, n.fetches p = false) (n : Id) :
    Still s ({ s with callers := callers, journal := new ++ s.journal }.dropPass n) := by
  rw [State.dropPass_eq]
  refine .of_silent _ rfl (fun id call ho => ?_) (List.append_assoc ..).symm fun m hm p => ?_
  · rw [Table.get?_filter_eq_some_iff, decide_eq_true_iff]
    refine ⟨And.left, fun hid => ⟨hid, ?_⟩⟩
    rw [ho]
    simp
  · rcases List.mem_append.mp hm with hm | hm
    · obtain ⟨id, -, rfl⟩ := List.mem_map.mp (List.mem_reverse.mp hm)
      rfl
    · exact hn m hm p

/-- The moves that have a part in a fetch are its beginning and its end. -/
theorem Move.flight (h : Books s) (m : Move ev s t) :
    Still s t
      ∨ (∃ c e p a, ev = .enforce e p a ∧ s.fetches.get? p = none ∧ t = s.startFetch c e p a)
      ∨ ∃ id call ending r, s.calls.get? id = some call ∧ call.owner = .fetch
        ∧ s.awaited call.principal = true ∧ Ends ev s id call ending r
        ∧ t = (s.endCall id call.principal ending).settleFetch id call.principal r := by
  have hsame : ∀ (id : Id) (call : Call), call.owner = .fetch →
      (s.calls.get? id = some call ↔ s.calls.get? id = some call) := fun _ _ _ => Iff.rfl
  have hone : ∀ {m : Note}, (∀ p, m.fetches p = false) → ∀ n ∈ [m], ∀ p, n.fetches p = false :=
    fun hm _ hn => List.mem_singleton.mp hn ▸ hm
  have hnil : ∀ n ∈ ([] : List Note), ∀ p, n.fetches p = false :=
    fun n hn => absurd hn List.not_mem_nil
  have hcons : ∀ {m : Note} {l : List Note}, (∀ p, m.fetches p = false) →
      (∀ n ∈ l, ∀ p, n.fetches p = false) → ∀ n ∈ m :: l, ∀ p, n.fetches p = false :=
    fun hm hl _ hn => (List.mem_cons.mp hn).elim (fun e => e ▸ hm) (hl _)
  cases m with
  | fetch hev ha hf he => exact Or.inr (Or.inl ⟨_, _, _, _, hev, hf, rfl⟩)
  | fetchEnds hc ho ha he => exact Or.inr (Or.inr ⟨_, _, _, _, hc, ho, ha, he, rfl⟩)
  | quiet hq =>
    obtain ⟨new, hj, hnew⟩ := hq.journal
    refine Or.inl (.of_silent new hq.fetches (fun id call _ => by rw [hq.calls]) hj
      fun n hn p => ?_)
    exact Note.fetches_of_remark (hnew n hn).1 p
  | enter r =>
    exact Or.inl (.of_silent [.called s.next r] rfl hsame rfl (hone fun p => rfl))
  | @reply c r o ha hf =>
    exact Or.inl (.of_silent [.returned c o] rfl hsame rfl (hone fun p => rfl))
  | @release c w hc =>
    exact Or.inl (.of_silent [.returned c .stopped] rfl hsame rfl (hone fun p => rfl))
  | await ha hw => exact Or.inl (.of_silent [] rfl hsame rfl hnil)
  | @own c r p q o ha hm ho he =>
    refine Or.inl (.of_silent [.began s.next p q o, .joined c s.next] rfl
      (fetch_begun h.orderly ho) rfl (hcons (fun p' => ?_) (hone fun p => rfl)))
    cases o with
    | fetch => exact absurd rfl ho
    | _ => rfl
  | @join c id e p a hev ha hf =>
    exact Or.inl (.of_silent [.joined c id] rfl hsame rfl (hone fun p => rfl))
  | @updateEnds id c call ending r hc ho he =>
    rw [State.settleUpdate_eq]
    refine Or.inl (.of_silent (.returned c ((Request.update call.principal).answer r)
      :: (r.notes call.principal (.call id (.update c)) ++ [.ended id call.principal ending])) rfl
      (fetch_over hc (by simp [ho])) (by simp [State.endCall, State.note])
      (hcons (fun p => rfl) fun n hn p => ?_))
    rcases List.mem_append.mp hn with hn | hn
    · obtain ⟨S, -, rfl⟩ := Reply.mem_notes_iff.mp hn
      rfl
    · rw [List.mem_singleton.mp hn]
      rfl
  | @directEnds id c call e a ending hc ho he =>
    exact Or.inl (.of_silent [.returned c ((Request.enforce e call.principal a).outcome
      call.owner s.settings.backendTimeout ending), .ended id call.principal ending] rfl
      (fetch_over hc (by simp [ho])) rfl (hcons (fun p => rfl) (hone fun p => rfl)))
  | @landing id n call ending r hc ho he =>
    exact Or.inl (.of_silent [.ended id call.principal ending] rfl
      (fetch_over hc (by simp [ho])) rfl (hone fun p => rfl))
  | openFor ha hs hk =>
    exact Or.inl (.of_silent [.passStarted s.next s.cache.size] rfl hsame rfl
      (hone fun p => rfl))
  | openBy hw hs hk =>
    exact Or.inl (.of_silent [.passStarted s.next s.cache.size] rfl hsame rfl
      (hone fun p => rfl))
  | @launch n p pass hev hp hq hf =>
    exact Or.inl (.of_silent [.began s.next p .listing (.pass n)] rfl
      (fetch_begun h.orderly (by simp)) rfl (hone fun p => rfl))
  | @look n pass l hev hp hh hl hc =>
    rw [State.digest_eq]
    exact Or.inl (.of_silent (l.notes n) rfl hsame rfl fun m => Landing.fetches_notes)
  | @close n pass l hev hp hh hl hc =>
    rw [State.digest_eq]
    have hnotes : ∀ m ∈ l.notes n, ∀ p, m.fetches p = false := fun m => Landing.fetches_notes
    cases hd : pass.driver with
    | caller c =>
      exact Or.inl (.of_silent (.returned c (.refreshed (pass.look l).report)
        :: .passFinished n (pass.look l).report :: l.notes n) rfl hsame rfl
        (hcons (fun p => rfl) (hcons (fun p => rfl) hnotes)))
    | worker w =>
      exact Or.inl (.of_silent (.passFinished n (pass.look l).report :: l.notes n) rfl hsame
        rfl (hcons (fun p => rfl) hnotes))
  | @leave c w hev hc hw =>
    exact Or.inl (.of_silent [.cancelled c] rfl hsame rfl (hone fun p => rfl))
  | @leaveCall c id hev hc =>
    obtain ⟨-, call, hid, hown⟩ := h.callers.waiters hc
    have hne : call.owner ≠ .fetch := by
      intro ho
      rw [ho] at hown
      cases hown
    rw [State.dropCall_eq (s := s.leave c) hid]
    exact Or.inl (.of_silent [.dropped id call.owner, .cancelled c] rfl (fetch_over hid hne)
      rfl (hcons (fun p => rfl) (hone fun p => rfl)))
  | @leavePass c n hev hc =>
    exact Or.inl (Still.dropPass (s.callers.erase c) [.cancelled c]
      (hone fun p => rfl) n)
  | @abandon n hd => exact Or.inl (Still.dropPass s.callers [] hnil n)
  | @write p S hev =>
    exact Or.inl (.of_silent [.stored p S .hand] rfl hsame rfl (hone fun p => rfl))
  | @clear n hev hn =>
    refine Or.inl (.of_silent [n] rfl hsame rfl (hone fun p => ?_))
    rcases hn with rfl | ⟨k, rfl⟩ <;> rfl

/-! ### Where no fetch is broken

Only a crash breaks a fetch.  Without one, a registered fetch always stands for a call that is
under way, and a caller that finds it registered can join that call. -/

/-- No fetch is broken. -/
def Unbroken (s : State) : Prop := ∀ p, s.fetches.get? p ≠ some .broken

/-- Only the crash of its call breaks a fetch. -/
theorem Ends.not_crashed {id : Id} {call : Call} {ending : Ending} {r : Reply PrivilegeSet}
    (h : Ends ev s id call ending r) (hev : ∀ id, ev ≠ .answer id .crashed) : r ≠ .crashed := by
  rintro rfl
  cases h with
  | answer hans => exact hev id hans

theorem Move.unbroken (h : Books s) (hu : Unbroken s) (hev : ∀ id, ev ≠ .answer id .crashed)
    (m : Move ev s t) : Unbroken t := by
  intro p
  rcases m.flight h with hs | ⟨c, e, q, a, -, -, rfl⟩ | ⟨id, call, ending, r, -, -, -, he, rfl⟩
  · rw [hs.fetches]
    exact hu p
  · show (s.fetches.put q (.underway s.next)).get? p ≠ some .broken
    rw [Table.get?_put]
    split
    · simp
    · exact hu p
  · rw [State.settleFetch_eq]
    show (r.unregister call.principal s.fetches).get? p ≠ some .broken
    by_cases hp : p = call.principal
    · rw [hp, Reply.get?_unregister_self, if_neg (he.not_crashed hev)]
      simp
    · rw [Reply.get?_unregister_of_ne hp]
      exact hu p

theorem Unbroken.run (h : Books s) (hu : Unbroken s) {es : List Event}
    (hes : ∀ id, .answer id .crashed ∉ es) : Unbroken (s.run es) :=
  h.run_induction hu fun _ hev _ _ hb hunbroken m =>
    m.unbroken hb hunbroken fun id he => hes id (he ▸ hev)

theorem Moves.still (h : Books s) (henforce : ∀ e p a, ev ≠ .enforce e p a)
    (hanswer : ∀ id r, ev ≠ .answer id r) (hexpire : ∀ id, ev ≠ .expire id) (m : Moves ev s t) :
    Still s t := by
  refine m.keeps_of_books h (.refl s) ?_
  intro t u hb ht m
  rcases m.flight hb with hs | ⟨c, e, p, a, rfl, -⟩ | ⟨id, call, ending, r, -, -, -, he, -⟩
  · exact ht.trans hs
  · exact absurd rfl (henforce e p a)
  · cases he with
    | answer hev => exact absurd hev (hanswer _ _)
    | expire hev => exact absurd hev (hexpire _)

/-- **A step leaves the fetches alone, starts one for a caller that missed, or ends one.** -/
theorem step_flight (h : Books s) (ha : s.settings.cachingActive = true)
    (hf : s.settings.fetchOnMiss = true) (hu : Unbroken s) (ev : Event) :
    Still s (s.step ev)
      ∨ (∃ e p a, ev = .enforce e p a ∧ s.dropped = false ∧ s.cache.get? p = none
        ∧ s.fetches.get? p = none ∧ s.step ev = s.started e p a)
      ∨ ∃ id call ending r, s.calls.get? id = some call ∧ call.owner = .fetch
        ∧ Ends ev s id call ending r
        ∧ s.step ev = (s.endCall id call.principal ending).settleFetch id call.principal r := by
  have hone : ∀ (hm : s.step ev = s ∨ Move ev s (s.step ev)), (∀ e p a, ev ≠ .enforce e p a) →
      Still s (s.step ev) ∨ ∃ id call ending r, s.calls.get? id = some call ∧ call.owner = .fetch
        ∧ Ends ev s id call ending r
        ∧ s.step ev = (s.endCall id call.principal ending).settleFetch id call.principal r := by
    intro hm hne
    rcases hm with hm | hm
    · rw [hm]
      exact Or.inl (.refl s)
    · rcases hm.flight h with hs | ⟨c, e, p, a, hev, -⟩ |
        ⟨id, call, ending, r, hid, ho, -, he, ht⟩
      · exact Or.inl hs
      · exact absurd hev (hne e p a)
      · exact Or.inr ⟨id, call, ending, r, hid, ho, he, ht⟩
  cases ev with
  | enforce e p a =>
    by_cases hd : s.dropped = true
    · rw [step_of_dropped hd rfl]
      exact Or.inl (.refl s)
    · rw [Bool.not_eq_true] at hd
      cases hc : s.cache.get? p with
      | some S =>
        have hactive := ha
        rw [Settings.cachingActive, Bool.and_eq_true] at hactive
        rw [step_enforce_hit hd hactive.1 hactive.2 hc]
        refine Or.inl (.of_silent [.returned s.next (State.decision S e p a),
          .called s.next (.enforce e p a)] rfl (fun _ _ _ => Iff.rfl) rfl fun n hn q => ?_)
        rcases List.mem_cons.mp hn with rfl | hn
        · rfl
        · rw [List.mem_singleton.mp hn]
          rfl
      | none =>
        cases hp : s.fetches.get? p with
        | none => exact Or.inr (Or.inl ⟨e, p, a, rfl, hd, hc, hp,
          step_enforce_start ha hf hd hc hp⟩)
        | some f =>
          cases f with
          | broken => exact absurd hp (hu p)
          | underway id =>
            rw [step_enforce_join h ha hf hd hc ((flight_iff_underway h).mpr hp)]
            refine Or.inl (.of_silent [.joined s.next id, .missed s.next p,
              .called s.next (.enforce e p a)] rfl (fun _ _ _ => Iff.rfl) rfl fun n hn q => ?_)
            rcases List.mem_cons.mp hn with rfl | hn
            · rfl
            · rcases List.mem_cons.mp hn with rfl | hn
              · rfl
              · rw [List.mem_singleton.mp hn]
                rfl
  | answer id r =>
    exact (hone (State.answer_move s id r) fun e p a h => by cases h).imp_right Or.inr
  | expire id =>
    exact (hone (State.expire_move s id) fun e p a h => by cases h).imp_right Or.inr
  | _ =>
    exact Or.inl (Moves.still h (fun e p a h => by cases h) (fun id r h => by cases h)
      (fun id h => by cases h) (step_moves h.orderly _))

end

/-! ## What is promised

The promise has two parts.  `SingleStep` is about one step: how the registration changes, how
many calls are begun, who joins, and that a call that ends lands.  `SingleFlight` is about a
state and all that can follow it: a registration stands for one call, and everybody who has
joined that call gets the same out of it. -/

/-- What a caller who has joined the call is told, unless it gives up. -/
def Shared (s : State) (id : Id) (p : Principal) (f : Entity → Action → Outcome) : Prop :=
  ∀ c, .joined c id ∈ s.journal → .cancelled c ∈ s.journal
    ∨ ∃ e a, .called c (.enforce e p a) ∈ s.journal ∧ .returned c (f e a) ∈ s.journal

/-- The call ends in a step from `s` to `t`: the fetch goes, a list that came back is cached and
nothing else is, and everybody who waited is told. -/
structure Lands (s t : State) (id : Id) (p : Principal) (ending : Ending) : Prop where
  ended : .ended id p ending ∈ t.journal
  unregistered : t.fetches.get? p = none
  cached : t.cache = match ending.set? with
    | some privileges => s.cache.put p privileges
    | none => s.cache
  told : ∀ c e a, s.callers.get? c = some (.fetch p e a) →
    .returned c ((Request.enforce e p a).outcome .fetch s.settings.backendTimeout ending)
      ∈ t.journal

/-- What is promised of fetches when `ev` leads from `s` to `t`. -/
structure SingleStep (s : State) (ev : Event) (t : State) : Prop where
  /-- Every registration begins one call, and nothing else begins any. -/
  issues : ∀ p, t.fetchCalls p = s.fetchCalls p
    + if s.fetches.get? p = none ∧ t.fetches.get? p ≠ none then 1 else 0
  starts : ∀ e p a, ev = .enforce e p a → s.dropped = false → s.cache.get? p = none →
    s.fetches.get? p = none → ∃ id, Flight t id p ∧ .joined s.next id ∈ t.journal
  /-- Whoever misses while a call is under way makes no call of its own. -/
  joins : ∀ e p a, ev = .enforce e p a → s.dropped = false → s.cache.get? p = none →
    ∀ id, Flight s id p → t.calls = s.calls ∧ t.fetches = s.fetches ∧ .joined s.next id ∈ t.journal
  lands : ∀ id p, Flight s id p → Flight t id p ∨ ∃ ending, Lands s t id p ending
  /-- Nobody who gives up ends or repeats a call. -/
  cancels : ∀ c, ev = .cancel c → t.fetches = s.fetches ∧ ∀ id p, Flight t id p ↔ Flight s id p

/-- What is promised of fetches, as long as no call to the backend crashes. -/
structure SingleFlight (s : State) : Prop where
  registered : ∀ p, (∃ f, s.fetches.get? p = some f) ↔ ∃ id, Flight s id p
  single : ∀ {p id id'}, Flight s id p → Flight s id' p → id = id'
  kept : ∀ id, .dropped id .fetch ∉ s.journal
  /-- All decide on the same set, or all are turned away for the same cause. -/
  shared : ∀ {id p ending}, .began id p .listing .fetch ∈ s.journal →
    .ended id p ending ∈ s.journal →
      (∃ privileges, ending.set? = some privileges
        ∧ Shared s id p fun e a => State.decision privileges e p a)
      ∨ ∃ cause, ending.cause? Owner.fetch.operation s.settings.backendTimeout = some cause
        ∧ Shared s id p fun _ _ => .failed (.backendUnavailable cause)
  steps : ∀ ev, (∀ id, ev ≠ .answer id .crashed) → SingleStep s ev (s.step ev)
  /-- Everybody who has joined a call comes to an end. -/
  completes : ∀ events, Fair s events → (∀ n id, events n ≠ .answer id .crashed) →
    ∀ c id p, .joined c id ∈ s.journal → .began id p .listing .fetch ∈ s.journal →
      ∃ n, .cancelled c ∈ (s.trace events n).journal
        ∨ ∃ o, .returned c o ∈ (s.trace events n).journal

section

variable {s t : State} {ev : Event}

theorem Still.flight_iff (hs : Books s) (ht : Books t) (h : Still s t) {id : Id} {p : Principal} :
    Flight t id p ↔ Flight s id p := by
  rw [flight_iff_underway ht, flight_iff_underway hs, h.fetches]

/-! ### Counting calls

Every step adds to the number of calls that fetches have begun for a principal exactly what it
adds to the registrations. -/

/-- The call of a fetch that ends is over, with everything that follows. -/
theorem lands_settleFetch {id : Id} {call : Call} {ending : Ending}
    {r : Reply PrivilegeSet} (ho : call.owner = .fetch)
    (he : Ends ev s id call ending r) (hr : r ≠ .crashed) :
    Lands s ((s.endCall id call.principal ending).settleFetch id call.principal r) id call.principal
      ending := by
  rw [State.settleFetch_eq]
  refine ⟨?_, ?_, ?_, fun c e a hc => ?_⟩
  · exact List.mem_append_right _ (List.mem_append_right _ List.mem_cons_self)
  · show (r.unregister call.principal s.fetches).get? call.principal = none
    rw [Reply.get?_unregister_self, if_neg hr]
  · cases he with
    | answer => cases r <;> rfl
    | expire => rfl
  · refine List.mem_append_left _ (List.mem_reverse.mpr (List.mem_map.mpr ⟨(c, e, a), ?_, ?_⟩))
    · exact State.mem_fetchWaiters_iff.mpr hc
    · rw [he.outcome, ho]

theorem fetchCalls_settleFetch (s : State) (id : Id) (call : Call) (ending : Ending)
    (r : Reply PrivilegeSet) (p : Principal) :
    ((s.endCall id call.principal ending).settleFetch id call.principal r).fetchCalls p
      = s.fetchCalls p := by
  rw [State.settleFetch_eq, State.fetchCalls]
  show List.countP _ (_ ++ (_ ++ .ended id call.principal ending :: s.journal)) = _
  have hreturned : List.countP (Note.fetches p)
      (((s.endCall id call.principal ending).fetchWaiters call.principal).map fun x =>
        Note.returned x.1 ((Request.enforce x.2.1 call.principal x.2.2).answer r)).reverse = 0 := by
    rw [List.countP_eq_zero]
    intro n hn
    obtain ⟨x, -, rfl⟩ := List.mem_map.mp (List.mem_reverse.mp hn)
    exact Bool.false_ne_true
  have hstored : List.countP (Note.fetches p) (r.notes call.principal (.call id .fetch)) = 0 := by
    rw [List.countP_eq_zero]
    intro n hn
    obtain ⟨S, -, rfl⟩ := Reply.mem_notes_iff.mp hn
    exact Bool.false_ne_true
  rw [List.countP_append, hreturned, List.countP_append, hstored,
    List.countP_cons_of_neg Bool.false_ne_true]
  rw [Nat.zero_add, Nat.zero_add]
  rfl

theorem fetchCalls_started (s : State) (e : Entity) (p : Principal) (a : Action) (q : Principal) :
    (s.started e p a).fetchCalls q = s.fetchCalls q + if p = q then 1 else 0 := by
  show List.countP (Note.fetches q) (.joined s.next (s.next + 1)
    :: .began (s.next + 1) p .listing .fetch :: .missed s.next p
    :: .called s.next (.enforce e p a) :: s.journal) = _
  rw [List.countP_cons_of_neg Bool.false_ne_true, List.countP_cons,
    List.countP_cons_of_neg Bool.false_ne_true,
    List.countP_cons_of_neg Bool.false_ne_true]
  by_cases hq : p = q
  · rw [if_pos hq, if_pos (by rw [hq]; exact beq_self_eq_true q)]
    rfl
  · rw [if_neg hq, if_neg (by show ¬(p == q) = true; rwa [beq_iff_eq])]
    rfl

section

variable (h : Books s) (ha : s.settings.cachingActive = true) (hf : s.settings.fetchOnMiss = true)
  (hu : Unbroken s)

include h ha hf hu

/-- Every registration begins one call, and nothing else begins any. -/
theorem step_fetchCalls (ev : Event) (q : Principal) :
    (s.step ev).fetchCalls q = s.fetchCalls q
      + if s.fetches.get? q = none ∧ (s.step ev).fetches.get? q ≠ none then 1 else 0 := by
  rcases step_flight h ha hf hu ev with hs | ⟨e, p, a, -, -, -, hp, hstep⟩ |
    ⟨id, call, ending, r, hid, ho, he, hstep⟩
  · rw [hs.fetchCalls, hs.fetches, if_neg fun ⟨hn, hne⟩ => hne hn]
    rfl
  · have hq : (s.step ev).fetches.get? q = (s.fetches.put p (.underway (s.next + 1))).get? q := by
      rw [hstep]
      rfl
    rw [hq, hstep, fetchCalls_started]
    by_cases he : p = q
    · subst he
      rw [if_pos rfl, if_pos ⟨hp, by simp⟩]
    · rw [if_neg he, Table.get?_put_of_ne (Ne.symm he), if_neg fun ⟨hn, hne⟩ => hne hn]
  · rw [hstep, fetchCalls_settleFetch, State.settleFetch_eq]
    rw [if_neg]
    · rfl
    · rintro ⟨hn, hne⟩
      by_cases hq : q = call.principal
      · rw [hq, h.calls.registered hid ho] at hn
        cases hn
      · exact hne ((Reply.get?_unregister_of_ne hq).trans hn)

/-- The call of a fetch goes on, or lands. -/
theorem step_lands (hev : ∀ id, ev ≠ .answer id .crashed) {id : Id} {p : Principal}
    (hfl : Flight s id p) :
    Flight (s.step ev) id p ∨ ∃ ending, Lands s (s.step ev) id p ending := by
  have ht : Books (s.step ev) := h.run [ev]
  rcases step_flight h ha hf hu ev with hs | ⟨e, q, a, -, -, -, hq, hstep⟩ |
    ⟨id', call, ending, r, hid, ho, he, hstep⟩
  · exact Or.inl ((hs.flight_iff h ht).mpr hfl)
  · refine Or.inl ((flight_iff_underway ht).mpr ?_)
    rw [flight_iff_underway h] at hfl
    rw [hstep]
    refine (Table.get?_put_of_ne ?_).trans hfl
    rintro rfl
    rw [hfl] at hq
    cases hq
  · rw [flight_iff_underway h] at hfl
    by_cases hp : p = call.principal
    · subst hp
      obtain rfl : id = id' := by
        rw [h.calls.registered hid ho, Option.some_inj] at hfl
        injection hfl with hfl
        exact hfl.symm
      exact Or.inr ⟨ending, hstep ▸ lands_settleFetch ho he (he.not_crashed hev)⟩
    · refine Or.inl ((flight_iff_underway ht).mpr ?_)
      rw [hstep, State.settleFetch_eq]
      exact (Reply.get?_unregister_of_ne hp).trans hfl

theorem singleStep (hev : ∀ id, ev ≠ .answer id .crashed) : SingleStep s ev (s.step ev) := by
  have ht : Books (s.step ev) := h.run [ev]
  refine ⟨step_fetchCalls h ha hf hu ev, fun e p a he hd hc hp => ?_,
    fun e p a he hd hc id hfl => ?_, fun id p => step_lands h ha hf hu hev, fun c hcancel => ?_⟩
  · subst he
    rw [step_enforce_start ha hf hd hc hp] at ht ⊢
    exact ⟨s.next + 1, (flight_iff_underway ht).mpr Table.get?_put_self, List.mem_cons_self⟩
  · subst he
    rw [step_enforce_join h ha hf hd hc hfl]
    exact ⟨rfl, rfl, List.mem_cons_self⟩
  · rcases step_flight h ha hf hu ev with hs | ⟨e, p, a, he, -⟩ | ⟨id, call, ending, r, -, -, he, -⟩
    · exact ⟨hs.fetches, fun id p => hs.flight_iff h ht⟩
    · rw [hcancel] at he
      cases he
    · rw [hcancel] at he
      cases he with
      | answer he => cases he
      | expire he => cases he

end

/-! ### The same for everybody

What comes of a call is noted once.  So all who have joined it are told what that one note says
of what each of them has asked for. -/

/-- Whoever has joined the call of a fetch that is over has been told what came of it. -/
theorem shared_of_ended (h : Books s) {id : Id} {p : Principal} {ending : Ending}
    (hb : .began id p .listing .fetch ∈ s.journal) (he : .ended id p ending ∈ s.journal) :
    Shared s id p fun e a =>
      (Request.enforce e p a).outcome .fetch s.settings.backendTimeout ending := by
  intro c hj
  by_cases hc : .cancelled c ∈ s.journal
  · exact Or.inl hc
  · obtain ⟨r, hcalled, hm, hr⟩ := h.callers.told_of_ended h.calls hj hb he hc
    cases hm with
    | fetch e p a => exact Or.inr ⟨e, a, hcalled, hr⟩

/-- No call has crashed. -/
def Uncrashed (s : State) : Prop := ∀ id p, .ended id p (.listed .crashed) ∉ s.journal

theorem Uncrashed.run (h : Books s) (hu : Uncrashed s) {es : List Event}
    (hes : ∀ id, .answer id .crashed ∉ es) : Uncrashed (s.run es) := by
  refine h.run_induction hu ?_
  intro ev hev t u hb huncrashed m id p he
  rcases (m.touch hb).ended he with he | ⟨call, -, -, hk⟩
  · exact huncrashed id p he
  · cases hk with
    | list hends =>
      cases hends with
      | answer hans => exact hes id (hans ▸ hev)

/-- All who have joined the call of a fetch decide on the same set, or fail for the same cause. -/
theorem agreement (h : Books s) (hu : Uncrashed s) {id : Id} {p : Principal} {ending : Ending}
    (hb : .began id p .listing .fetch ∈ s.journal) (he : .ended id p ending ∈ s.journal) :
    (∃ privileges, ending.set? = some privileges
        ∧ Shared s id p fun e a => State.decision privileges e p a)
      ∨ ∃ cause, ending.cause? Owner.fetch.operation s.settings.backendTimeout = some cause
        ∧ Shared s id p fun _ _ => .failed (.backendUnavailable cause) := by
  have hs := shared_of_ended h hb he
  rcases ending with (S | cause | _) | r | _
  · exact Or.inl ⟨S, rfl, hs⟩
  · exact Or.inr ⟨cause, rfl, hs⟩
  · exact absurd he (hu id p)
  · exact absurd he (h.calls.not_checked hb)
  · exact Or.inr ⟨_, rfl, hs⟩

/-! ### Everybody is told

As long as somebody waits for the call of a fetch, the call is looked after.  In a fair run its
time is looked at once it is up, if it has not ended before. -/

/-- The call of a fetch stays as it is until it ends. -/
theorem step_keeps_call (ev : Event) (h : Books s) (ha : s.settings.cachingActive = true)
    (hf : s.settings.fetchOnMiss = true) (hu : Unbroken s) {id : Id} {call : Call}
    (hid : s.calls.get? id = some call) (ho : call.owner = .fetch) :
    (s.step ev).calls.get? id = some call
      ∨ ∃ ending, .ended id call.principal ending ∈ (s.step ev).journal := by
  rcases step_flight h ha hf hu ev with hs | ⟨e, p, a, -, -, -, -, hstep⟩
      | ⟨id', call', ending, r, hid', -, he, hstep⟩
  · exact Or.inl ((hs.calls id call ho).mpr hid)
  · rw [hstep]
    exact Or.inl ((Table.get?_put_of_ne
      (Nat.ne_of_lt (Nat.lt_succ_of_lt (h.orderly.calls hid)))).trans hid)
  · rw [hstep, State.settleFetch_eq]
    by_cases hne : id = id'
    · subst hne
      rw [hid, Option.some_inj] at hid'
      subst hid'
      exact Or.inr ⟨ending, List.mem_append_right _ (List.mem_append_right _ List.mem_cons_self)⟩
    · exact Or.inl ((Table.get?_erase_of_ne hne).trans hid)

/-- A call of a fetch whose time is up ends when somebody looks at the clock. -/
theorem step_expire_ends {id : Id} {call : Call} (hid : s.calls.get? id = some call)
    (ho : call.owner = .fetch) (hover : s.Overdue id) :
    .ended id call.principal .timedOut ∈ (s.step (.expire id)).journal := by
  obtain ⟨call', hid', hatt, hdl⟩ := hover
  rw [hid, Option.some_inj] at hid'
  subst hid'
  rw [State.step, State.expire_eq hid hatt hdl, State.settle, ho]
  dsimp only
  rw [State.settleFetch_eq]
  exact List.mem_append_right _ (List.mem_append_right _ List.mem_cons_self)

/-- As long as somebody waits for a fetch its call is under way and looked after. -/
theorem underway_of_joined (h : Books s) {c id : Id} {p : Principal} (hj : .joined c id ∈ s.journal)
    (hb : .began id p .listing .fetch ∈ s.journal) (hc : .cancelled c ∉ s.journal)
    (hr : ∀ o, .returned c o ∉ s.journal) :
    ∃ call, s.calls.get? id = some call ∧ call.owner = .fetch ∧ s.attended call = true := by
  rcases h.callers.joined_cases hj with ⟨w, hw, hserved⟩ | hcancel | ⟨o, ho⟩
  · obtain ⟨call, hid, howner⟩ := h.callers.call_of_served h.calls hw hserved hj
    obtain ⟨-, -, ho⟩ := h.calls.began_unique hb (h.calls.began_of_get? hid)
    rcases howner with ⟨e, a, rfl, -⟩ | hown
    · refine ⟨call, hid, ho.symm, ?_⟩
      rw [State.attended, ← ho]
      exact State.awaited_iff.mpr ⟨c, e, a, hw⟩
    · rw [← ho] at hown
      cases hown
  · exact absurd hcancel hc
  · exact absurd ho (hr o)

/-- **Everybody who has joined the call of a fetch is told something, or gives up.** -/
theorem joined_completes (h : Books s) (ha : s.settings.cachingActive = true)
    (hf : s.settings.fetchOnMiss = true) (hu : Unbroken s) {events : Nat → Event}
    (hfair : Fair s events) (hev : ∀ n id, events n ≠ .answer id .crashed) {c id : Id}
    {p : Principal} (hj : .joined c id ∈ s.journal) (hb : .began id p .listing .fetch ∈ s.journal) :
    ∃ n, .cancelled c ∈ (s.trace events n).journal
      ∨ ∃ o, .returned c o ∈ (s.trace events n).journal := by
  by_contra hnever
  have hwaits : ∀ n, ∃ call, (s.trace events n).calls.get? id = some call ∧ call.owner = .fetch
      ∧ (s.trace events n).attended call = true := by
    intro n
    have hsub := (suffix_trace h events (Nat.zero_le n)).subset
    exact underway_of_joined (h.trace events n) (hsub hj) (hsub hb)
      (fun hcancel => hnever ⟨n, Or.inl hcancel⟩) fun o hr => hnever ⟨n, Or.inr ⟨o, hr⟩⟩
  obtain ⟨call, hid, ho, -⟩ := hwaits 0
  have hsame : ∀ n, (s.trace events n).calls.get? id = some call := by
    intro n
    induction n with
    | zero => exact hid
    | succ n ih =>
      have hn := h.trace events n
      have hactive : (s.trace events n).settings.cachingActive = true := by
        rw [settings_trace h]
        exact ha
      have hfetch : (s.trace events n).settings.fetchOnMiss = true := by
        rw [settings_trace h]
        exact hf
      have hunbroken : Unbroken (s.trace events n) := by
        rw [s.trace_eq_run]
        refine hu.run h fun id' hmem => ?_
        obtain ⟨k, -, hk⟩ := List.mem_map.mp hmem
        exact hev k id' hk
      rcases step_keeps_call (events n) hn hactive hfetch hunbroken ih ho with hkept | ⟨ending, he⟩
      · exact hkept
      · obtain ⟨call', hid', -⟩ := hwaits (n + 1)
        exact absurd he ((h.trace events (n + 1)).calls.not_ended hid')
  obtain ⟨n, hn⟩ := hfair.clock call.deadline
  obtain ⟨m, hnm, hm⟩ := hfair.expires id n
  have hover : (s.trace events m).Overdue id := by
    obtain ⟨call', hid', -, hatt⟩ := hwaits m
    rw [hsame m, Option.some_inj] at hid'
    subst hid'
    exact ⟨call, hsame m, hatt, Nat.le_trans hn (now_le_trace h events hnm)⟩
  have hended : .ended id call.principal .timedOut ∈ (s.trace events (m + 1)).journal := by
    rw [State.trace, hm hover]
    exact step_expire_ends (hsame m) ho hover
  exact (h.trace events (m + 1)).calls.not_ended (hsame (m + 1)) hended

end

/-- **Callers that miss the same principal share one call.**  In every run of an engine that caches
and fetches, and whose backend does not crash, the fetch of a principal is registered exactly while
one call of a fetch for it is under way; callers join that call instead of making their own, are all
told what comes of it, and come to an end in every fair continuation; and nobody who gives up takes
the call away from the others. -/
theorem single_flight (settings : Settings) (checks : Bool) (ha : settings.cachingActive = true)
    (hf : settings.fetchOnMiss = true) (es : List Event) (hes : ∀ id, .answer id .crashed ∉ es) :
    SingleFlight ((State.initial settings checks).run es) := by
  have hb := Books.initial settings checks
  have h := hb.run es
  have hs : ((State.initial settings checks).run es).settings = settings :=
    hb.orderly.settings_run es
  have hu : Unbroken ((State.initial settings checks).run es) :=
    Unbroken.run hb (fun p => by simp [State.initial]) hes
  have hc : Uncrashed ((State.initial settings checks).run es) :=
    Uncrashed.run hb (fun id p => List.not_mem_nil) hes
  rw [← hs] at ha hf
  refine ⟨fun p => ⟨?_, ?_⟩, fun h₁ h₂ => ?_, h.calls.not_dropped, agreement h hc,
    fun ev hev => singleStep h ha hf hu hev,
    fun events hfair hev c id p => joined_completes h ha hf hu hfair hev⟩
  · rintro ⟨f, hp⟩
    cases f with
    | underway id => exact ⟨id, (flight_iff_underway h).mpr hp⟩
    | broken => exact absurd hp (hu p)
  · rintro ⟨id, hid⟩
    exact ⟨_, (flight_iff_underway h).mp hid⟩
  · have hp := (flight_iff_underway h).mp h₁
    rw [(flight_iff_underway h).mp h₂, Option.some_inj] at hp
    injection hp with hp
    exact hp.symm

/-- The caller that started the fetch gives up, and the other is still told what came of it. -/
theorem single_flight_of_two :
    let s := State.initial { authorization := true } true
    let p : Principal := ⟨.user, "alice"⟩
    let e : Entity := .space "docs"
    let es : List Event := [.enforce e p .read, .enforce e p .write, .cancel 0,
      .answer 1 (.value (.ofList [⟨e, .write⟩]))]
    (∀ id, .answer id .crashed ∉ es) ∧ SingleFlight (s.run es)
      ∧ .returned 2 .allowed ∈ (s.run es).journal := by
  intro s p e es
  have hes : ∀ id, Event.answer id .crashed ∉ es := by
    intro id h
    simp [es] at h
  exact ⟨hes, single_flight { authorization := true } true rfl rfl es hes, by decide⟩

end Gatekeeper.Engine

import Gatekeeper.Proofs.Passes

/-!
# What the cache holds

A move does one of few things to the cache: it leaves the cache alone, puts a list into it that a
call has come back with, writes into it by hand, or clears it.  So every entry can be traced back,
through the journal, to where it came from.

* `Received` — the calls whose lists can be put into the cache at once.
* `Touch` — what a move does to the cache, and what it adds to the journal.
* `CacheBooks` — the cache is what the journal says it is, and what came from a call is what that
  call was answered with.
* `Brought` — a call has ended as an event of the run has reported.

A list can only be put into the cache in the move in which it is received, and there are two such
moves.  That is why an entry cannot be a mixture of lists or outlive a clear that came after it,
and it is the reason for looking at moves and not at steps: a step may contain many of them, a
move only one.
-/

set_option autoImplicit false

namespace Gatekeeper.Engine

/-- The call `id` for the principal `p` is under way and makes no part of a pass, or it has landed
in a pass that is free to look at it. -/
inductive Received (s : State) (id : Id) (p : Principal) : Owner → Prop
  | call {call : Call} (hc : s.calls.get? id = some call) (hp : call.principal = p)
    (ho : ∀ n, call.owner ≠ .pass n) (hd : ∀ c e a, call.owner ≠ .direct c e a) :
    Received s id p call.owner
  | landing {n : Id} {pass : Pass} {l : Landing} {privileges : PrivilegeSet}
    (hp : s.passes.get? n = some pass) (hh : s.halted pass = false) (hl : l ∈ pass.landed)
    (hid : l.call = id) (he : l.principal = p) (hr : l.reply = .value privileges) :
    Received s id p (.pass n)

/-- What may be noted besides changes of the cache.  The end of a call is noted only of a call that
is under way, and a caller comes to wait only for a call that begins or for the call of a fetch. -/
inductive Fresh (ev : Event) (s : State) : Note → Prop
  | plain {n : Note} (h : n.plain = true) : Fresh ev s n
  | ended {id : Id} {call : Call} {ending : Ending} (hc : s.calls.get? id = some call)
    (h : Checks ev s id call ending) : Fresh ev s (.ended id call.principal ending)
  | joined {c id : Id} (h : id = s.next ∨ ∃ p, s.fetches.get? p = some (.underway id)) :
    Fresh ev s (.joined c id)

theorem Fresh.stores {ev : Event} {s : State} {n : Note} (h : Fresh ev s n) : n.stores = false := by
  cases h with
  | plain h => exact Note.stores_of_plain h
  | _ => rfl

/-- What a move does to the cache, and what it adds to the journal. -/
inductive Touch (ev : Event) (s t : State) : Prop
  | nothing (new : List Note) (hc : t.cache = s.cache) (hj : t.journal = new ++ s.journal)
    (hn : ∀ n ∈ new, Fresh ev s n)
  | list {id : Id} {p : Principal} {o : Owner} {privileges : PrivilegeSet}
    {before after : List Note}
    (hr : Received s id p o) (hb : .began id p .listing o ∈ s.journal)
    (he : .ended id p (.listed (.value privileges)) ∈ before ++ s.journal)
    (hc : t.cache = s.cache.put p privileges)
    (hj : t.journal = after ++ .stored p privileges (.call id o) :: (before ++ s.journal))
    (hbefore : ∀ n ∈ before, Fresh ev s n) (hafter : ∀ n ∈ after, Fresh ev s n)
  | hand {p : Principal} {privileges : PrivilegeSet} (hev : ev = .write p privileges)
    (hc : t.cache = s.cache.put p privileges)
    (hj : t.journal = .stored p privileges .hand :: s.journal)
  | clear {n : Note} (hev : ev = .clear ∨ ev = .invalidate) (hc : t.cache = .empty)
    (hj : t.journal = n :: s.journal) (hn : n = .cleared ∨ ∃ k, n = .invalidated k)

/-! ## What every move does to the cache

`Touch` sorts the moves by what they do to the cache.  A list is taken into the cache when a call
that is part of no pass ends, or when a pass looks at what has landed; all other moves leave the
cache alone, except for writes by hand and clears.  What else a move notes is kept along in
`Fresh`, since it bounds what can happen beside. -/

section Touching

variable {ev : Event} {s t : State}

/-- What a list that came back does to the cache. -/
theorem Touch.receive (before after : List Note) {id : Id} {p : Principal} {o : Owner}
    {r : Reply PrivilegeSet} (hb : .began id p .listing o ∈ s.journal)
    (hr : ∀ privileges, r = .value privileges → Received s id p o)
    (he : ∀ privileges, r = .value privileges →
      .ended id p (.listed (.value privileges)) ∈ before ++ s.journal)
    (hc : t.cache = r.put p s.cache)
    (hj : t.journal = after ++ (r.notes p (.call id o) ++ (before ++ s.journal)))
    (hbefore : ∀ n ∈ before, Fresh ev s n) (hafter : ∀ n ∈ after, Fresh ev s n) :
    Touch ev s t := by
  cases r with
  | value privileges => exact .list (hr _ rfl) hb (he _ rfl) hc hj hbefore hafter
  | failed cause | crashed =>
    refine .nothing (after ++ before) hc ?_ fun n hn => ?_
    · rw [hj, List.append_assoc]
      rfl
    · exact (List.mem_append.mp hn).elim (hafter n) (hbefore n)

theorem Fresh.singleton {m : Note} (hm : m.plain = true) : ∀ n ∈ [m], Fresh ev s n :=
  fun _ hn => .plain (List.mem_singleton.mp hn ▸ hm)

/-- What a call that is part of no pass and checks nothing brings back does to the cache. -/
theorem Touch.ends (h : CallBooks s) {id : Id} {call : Call} {ending : Ending}
    {r : Reply PrivilegeSet} (hid : s.calls.get? id = some call) (hq : call.question = .listing)
    (ho : ∀ n, call.owner ≠ .pass n) (hd : ∀ c e a, call.owner ≠ .direct c e a)
    (he : Ends ev s id call ending r) (after : List Note)
    (hc : t.cache = r.put call.principal s.cache)
    (hj : t.journal = after ++ (r.notes call.principal (.call id call.owner)
      ++ .ended id call.principal ending :: s.journal))
    (hafter : ∀ n ∈ after, Fresh ev s n) : Touch ev s t := by
  have hb : .began id call.principal .listing call.owner ∈ s.journal := hq ▸ h.began_of_get? hid
  refine .receive [.ended id call.principal ending] after hb (fun _ _ => .call hid rfl ho hd)
    (fun S hS => ?_) hc hj (fun n hn => List.mem_singleton.mp hn ▸ .ended hid (.list he)) hafter
  rw [he.listed hS]
  exact List.mem_cons_self

/-- What a pass notes about a result, taken apart. -/
theorem Landing.notes_eq (l : Landing) (n : Id) : ∃ remarks : List Note,
    l.notes n = remarks ++ l.reply.notes l.principal (.call l.call (.pass n))
      ∧ ∀ m ∈ remarks, m.plain = true := by
  obtain ⟨p, id, r⟩ := l
  cases r with
  | value privileges => exact ⟨[], rfl, fun m hm => absurd hm List.not_mem_nil⟩
  | failed cause =>
    exact ⟨[.refreshFailed p cause], rfl, fun m hm => List.mem_singleton.mp hm ▸ rfl⟩
  | crashed => exact ⟨[.refreshCrashed p], rfl, fun m hm => List.mem_singleton.mp hm ▸ rfl⟩

/-- What a pass that looks at a result does to the cache. -/
theorem Touch.digest (hpass : PassBooks s) (after : List Note) {n : Id} {pass : Pass} {l : Landing}
    (hp : s.passes.get? n = some pass) (hh : s.halted pass = false) (hl : l ∈ pass.landed)
    (hc : t.cache = l.reply.put l.principal s.cache)
    (hj : t.journal = after ++ (l.notes n ++ s.journal)) (hafter : ∀ m ∈ after, Fresh ev s m) :
    Touch ev s t := by
  obtain ⟨hb, he⟩ := hpass.landed hp l hl
  obtain ⟨remarks, hnotes, hremarks⟩ := l.notes_eq n
  refine Touch.receive [] (after ++ remarks) hb (fun S hS => .landing hp hh hl rfl rfl hS) he hc ?_
    (fun m hm => absurd hm List.not_mem_nil) fun m hm => ?_
  · rw [hj, hnotes, List.append_assoc, List.append_assoc]
    rfl
  · exact (List.mem_append.mp hm).elim (hafter m) fun hm => .plain (hremarks m hm)

/-- The notes of a pass that is dropped. -/
theorem Touch.dropPass (callers : Table Id Waiting) (new : List Note)
    (hn : ∀ n ∈ new, Fresh ev s n) (n : Id) :
    Touch ev s ({ s with callers := callers, journal := new ++ s.journal }.dropPass n) := by
  rw [State.dropPass_eq]
  refine .nothing _ rfl (List.append_assoc ..).symm fun m hm => ?_
  rcases List.mem_append.mp hm with hm | hm
  · obtain ⟨id, -, rfl⟩ := List.mem_map.mp (List.mem_reverse.mp hm)
    exact .plain rfl
  · exact hn m hm

/-! ### Every move

The moves are gone through once.  Those that have no part in the cache add notes that store
nothing, and for these it is only said what they may be. -/

/-- **Every move touches the cache in one of few ways.** -/
theorem Move.touch (h : Books s) (m : Move ev s t) : Touch ev s t := by
  have hone : ∀ {m : Note}, m.plain = true → ∀ n ∈ [m], Fresh ev s n := Fresh.singleton
  have hnil : ∀ n ∈ ([] : List Note), Fresh ev s n := fun n hn => absurd hn List.not_mem_nil
  have hend : ∀ {id : Id} {call : Call} {ending : Ending}, s.calls.get? id = some call →
      Checks ev s id call ending → ∀ n ∈ [Note.ended id call.principal ending], Fresh ev s n :=
    fun hc he n hn => List.mem_singleton.mp hn ▸ .ended hc he
  have hjoin : ∀ {c id : Id}, (id = s.next ∨ ∃ p, s.fetches.get? p = some (.underway id)) →
      ∀ n ∈ [Note.joined c id], Fresh ev s n :=
    fun hid n hn => List.mem_singleton.mp hn ▸ .joined hid
  cases m with
  | quiet hq =>
    obtain ⟨new, hj, hnew⟩ := hq.journal
    exact .nothing new hq.cache hj fun n hn => .plain (Note.plain_of_remark (hnew n hn).1)
  | enter r => exact .nothing [.called s.next r] rfl rfl (hone rfl)
  | @reply c r o ha ho => exact .nothing [.returned c o] rfl rfl (hone rfl)
  | @release c w hc => exact .nothing [.returned c .stopped] rfl rfl (hone rfl)
  | await ha hw => exact .nothing [] rfl rfl hnil
  | @own c r p q o ha hm ho he =>
    refine .nothing [.began s.next p q o, .joined c s.next] rfl rfl fun n hn => ?_
    rcases List.mem_cons.mp hn with rfl | hn
    · exact .plain rfl
    · exact hjoin (Or.inl rfl) n hn
  | @join c id e p a hev ha hf =>
    exact .nothing [.joined c id] rfl rfl (hjoin (Or.inr ⟨p, hf⟩))
  | @fetch c e p a hev ha hf he =>
    refine .nothing [.joined c s.next, .began s.next p .listing .fetch] rfl rfl fun n hn => ?_
    rcases List.mem_cons.mp hn with rfl | hn
    · exact .joined (Or.inl rfl)
    · exact hone rfl n hn
  | @fetchEnds id call ending r hc hown ha he =>
    rw [State.settleFetch_eq, ← hown]
    refine .ends h.calls hc (h.calls.listing hc (by rw [hown]; rfl)) (by simp [hown])
      (by simp [hown]) he _ rfl rfl fun n hn => ?_
    obtain ⟨x, -, rfl⟩ := List.mem_map.mp (List.mem_reverse.mp hn)
    exact .plain rfl
  | @updateEnds id c call ending r hc hown he =>
    have hq := h.callers.listing_of_update hc hown
    rw [State.settleUpdate_eq, ← hown]
    exact .ends h.calls hc hq (by simp [hown]) (by simp [hown]) he
      [.returned c ((Request.update call.principal).answer r)] rfl rfl (hone rfl)
  | @directEnds id c call e a ending hc hown he =>
    refine .nothing [.returned c ((Request.enforce e call.principal a).outcome call.owner
      s.settings.backendTimeout ending), .ended id call.principal ending] rfl rfl fun n hn => ?_
    rcases List.mem_cons.mp hn with rfl | hn
    · exact .plain rfl
    · exact hend hc he n hn
  | @landing id n call ending r hc hown he =>
    exact .nothing [.ended id call.principal ending] rfl rfl (hend hc (.list he))
  | openFor ha hs hk => exact .nothing [.passStarted s.next s.cache.size] rfl rfl (hone rfl)
  | openBy hw hs hk => exact .nothing [.passStarted s.next s.cache.size] rfl rfl (hone rfl)
  | @launch n p pass hev hp hq hf =>
    exact .nothing [.began s.next p .listing (.pass n)] rfl rfl (hone rfl)
  | @look n pass l hev hp hh hl hc =>
    rw [State.digest_eq]
    exact .digest h.passes [] hp hh hl rfl rfl hnil
  | @close n pass l hev hp hh hl hc =>
    rw [State.digest_eq]
    cases hd : pass.driver with
    | caller c =>
      refine .digest h.passes [.returned c (.refreshed (pass.look l).report),
        .passFinished n (pass.look l).report] hp hh hl rfl rfl fun m hm => ?_
      rcases List.mem_cons.mp hm with rfl | hm
      · exact .plain rfl
      · exact hone rfl m hm
    | worker w =>
      exact .digest h.passes [.passFinished n (pass.look l).report] hp hh hl rfl rfl
        (hone rfl)
  | @leave c w hev hc hw => exact .nothing [.cancelled c] rfl rfl (hone rfl)
  | @leaveCall c id hev hc =>
    obtain ⟨-, call, hid, hown⟩ := h.callers.waiters hc
    rw [State.dropCall_eq (s := s.leave c) hid]
    refine .nothing [.dropped id call.owner, .cancelled c] rfl rfl fun n hn => ?_
    rcases List.mem_cons.mp hn with rfl | hn
    · exact .plain rfl
    · exact hone rfl n hn
  | @leavePass c n hev hc =>
    exact Touch.dropPass (s.callers.erase c) [.cancelled c] (hone rfl) n
  | @abandon n hd => exact Touch.dropPass s.callers [] hnil n
  | write hev => exact .hand hev rfl rfl
  | clear hev hn => exact .clear hev rfl rfl hn

end Touching

/-! ## The books of the cache

The journal knows of every change of the cache, so the two can be compared: an entry is there
exactly if the journal says that it was stored last, and with the set that the journal says.  If
the note names a call, that call has ended with this very set. -/

/-- The cache is what the journal says, and what came from a call is what it was answered with. -/
structure CacheBooks (s : State) : Prop where
  source : ∀ p, s.cache.get? p = (source p s.journal).map Prod.fst
  listed : ∀ {p privileges id o}, .stored p privileges (.call id o) ∈ s.journal →
    .began id p .listing o ∈ s.journal ∧ .ended id p (.listed (.value privileges)) ∈ s.journal

namespace CacheBooks

variable {s t : State}

theorem initial (settings : Settings) (checks : Bool) : CacheBooks (.initial settings checks) where
  source _ := rfl
  listed h := absurd h List.not_mem_nil

/-- A set is stored. -/
theorem store (h : CacheBooks s) {p : Principal} {privileges : PrivilegeSet} {o : Origin}
    (before after : List Note) (hc : t.cache = s.cache.put p privileges)
    (hj : t.journal = after ++ .stored p privileges o :: (before ++ s.journal))
    (hbefore : ∀ n ∈ before, n.stores = false) (hafter : ∀ n ∈ after, n.stores = false)
    (ho : ∀ id ow, o = .call id ow → .began id p .listing ow ∈ before ++ s.journal
      ∧ .ended id p (.listed (.value privileges)) ∈ before ++ s.journal) : CacheBooks t where
  source q := by
    rw [hc, hj, source_append hafter, Engine.source]
    by_cases hq : q = p
    · subst hq
      rw [Table.get?_put_self, if_pos rfl]
      rfl
    · rw [Table.get?_put_of_ne hq, if_neg (Ne.symm hq), source_append hbefore]
      exact h.source q
  listed {q S id ow} hm := by
    have hsub : ∀ n ∈ before ++ s.journal, n ∈ t.journal := by
      intro n hn
      rw [hj]
      exact List.mem_append_right _ (List.mem_cons_of_mem _ hn)
    rw [hj] at hm
    rcases List.mem_append.mp hm with hm | hm
    · cases hafter _ hm
    · rcases List.mem_cons.mp hm with hm | hm
      · injection hm with hq hS ho'
        subst hq hS
        obtain ⟨hb, he⟩ := ho id ow ho'.symm
        exact ⟨hsub _ hb, hsub _ he⟩
      · rcases List.mem_append.mp hm with hm | hm
        · cases hbefore _ hm
        · obtain ⟨hb, he⟩ := h.listed hm
          exact ⟨hsub _ (List.mem_append_right _ hb), hsub _ (List.mem_append_right _ he)⟩

theorem touch (h : CacheBooks s) {ev : Event} (m : Touch ev s t) : CacheBooks t := by
  cases m with
  | nothing new hc hj hn =>
    refine ⟨fun p => ?_, fun {p S id o} hm => ?_⟩
    · rw [hc, hj, source_append fun n hm => (hn n hm).stores]
      exact h.source p
    · rw [hj] at hm ⊢
      rcases List.mem_append.mp hm with hm | hm
      · cases (hn _ hm).stores
      · obtain ⟨hb, he⟩ := h.listed hm
        exact ⟨List.mem_append_right _ hb, List.mem_append_right _ he⟩
  | list hr hb he hc hj hbefore hafter =>
    refine h.store _ _ hc hj (fun n hn => (hbefore n hn).stores) (fun n hn => (hafter n hn).stores)
      fun id' ow ho => ?_
    injection ho with hid how
    subst hid how
    exact ⟨List.mem_append_right _ hb, he⟩
  | hand hev hc hj =>
    exact h.store [] [] hc hj (fun n hn => absurd hn List.not_mem_nil)
      (fun n hn => absurd hn List.not_mem_nil) fun id ow ho => by cases ho
  | @clear n hev hc hj hn =>
    refine ⟨fun p => ?_, fun {p S id o} hm => ?_⟩
    · rw [hc, hj]
      rcases hn with rfl | ⟨k, rfl⟩ <;> rfl
    · rw [hj] at hm ⊢
      rcases List.mem_cons.mp hm with hm | hm
      · rcases hn with rfl | ⟨k, rfl⟩ <;> cases hm
      · obtain ⟨hb, he⟩ := h.listed hm
        exact ⟨List.mem_cons_of_mem _ hb, List.mem_cons_of_mem _ he⟩

end CacheBooks

/-- **The books of the cache are in order after every run.** -/
theorem CacheBooks.run {s : State} (hb : Books s) (h : CacheBooks s) (es : List Event) :
    CacheBooks (s.run es) :=
  hb.run_induction h fun _ _ _ _ hb h m => h.touch (m.touch hb)

/-! ### What is read off

A touch says what is new in the journal, so it also says which ends and which callers can be new. -/

/-- The journal only grows. -/
theorem Touch.suffix {ev : Event} {s t : State} (m : Touch ev s t) : s.journal <:+ t.journal := by
  cases m with
  | nothing new hc hj hn => exact ⟨new, hj.symm⟩
  | @list id p o S before after hr hb he hc hj =>
    refine ⟨after ++ .stored p S (.call id o) :: before, ?_⟩
    rw [hj, List.append_assoc]
    rfl
  | @hand p S hev hc hj => exact ⟨[.stored p S .hand], hj.symm⟩
  | @clear n hev hc hj hn => exact ⟨[n], hj.symm⟩

/-- A note that tells of no change of the cache is as old as the cache, or fresh. -/
theorem Touch.fresh {ev : Event} {s t : State} (m : Touch ev s t) {n : Note} (hs : n.stores = false)
    (hn : n ∈ t.journal) : n ∈ s.journal ∨ Fresh ev s n := by
  cases m with
  | nothing new hc hj hnew =>
    rw [hj] at hn
    exact (List.mem_append.mp hn).elim (fun hn => Or.inr (hnew n hn)) Or.inl
  | list hr hb he hc hj hbefore hafter =>
    rw [hj] at hn
    rcases List.mem_append.mp hn with hn | hn
    · exact Or.inr (hafter n hn)
    · rcases List.mem_cons.mp hn with rfl | hn
      · cases hs
      · exact (List.mem_append.mp hn).elim (fun hn => Or.inr (hbefore n hn)) Or.inl
  | hand hev hc hj =>
    rw [hj] at hn
    rcases List.mem_cons.mp hn with rfl | hn
    · cases hs
    · exact Or.inl hn
  | clear hev hc hj hm =>
    rw [hj] at hn
    rcases List.mem_cons.mp hn with rfl | hn
    · rcases hm with rfl | ⟨k, rfl⟩ <;> cases hs
    · exact Or.inl hn

/-- Only calls that are under way end. -/
theorem Touch.ended {ev : Event} {s t : State} (m : Touch ev s t) {id : Id} {p : Principal}
    {ending : Ending} (he : .ended id p ending ∈ t.journal) : .ended id p ending ∈ s.journal
      ∨ ∃ call, s.calls.get? id = some call ∧ call.principal = p ∧ Checks ev s id call ending := by
  refine (m.fresh rfl he).imp_right fun h => ?_
  cases h with
  | plain h => cases h
  | ended hc hk => exact ⟨_, hc, rfl, hk⟩

theorem Moves.ended {ev : Event} {s t : State} (h : Books s) (ha : ∀ id r, ev ≠ .answer id r)
    (hv : ∀ id r, ev ≠ .verdict id r) (hx : ∀ id, ev ≠ .expire id) (m : Moves ev s t) {id : Id}
    {p : Principal} {ending : Ending} (he : .ended id p ending ∈ t.journal) :
    .ended id p ending ∈ s.journal := by
  refine m.keeps_of_books (P := fun t => .ended id p ending ∈ t.journal →
    .ended id p ending ∈ s.journal) h (fun he => he) ?_ he
  intro t u hb hold m he
  rcases (m.touch hb).ended he with he | ⟨call, -, -, hcheck⟩
  · exact hold he
  · cases hcheck with
    | list hends =>
      cases hends with
      | answer hev => exact absurd hev (ha _ _)
      | expire hev => exact absurd hev (hx _)
    | verdict hev => exact absurd hev (hv _ _)

/-- What a call for a list ends with goes to its owner, if there is somebody who looks after it. -/
theorem Ends.step_eq {ev : Event} {s : State} {id : Id} {call : Call} {ending : Ending}
    {r : Reply PrivilegeSet} (he : Ends ev s id call ending r) (hid : s.calls.get? id = some call)
    (hatt : s.attended call = true) :
    s.step ev = (s.endCall id call.principal ending).settle id call r := by
  cases he with
  | answer hev hq =>
    subst hev
    exact State.answer_eq hid hatt hq _
  | expire hev ht =>
    subst hev
    exact State.expire_eq hid hatt ht

/-- An event that finds nobody who looks after the call does nothing. -/
theorem Ends.attended {ev : Event} {s : State} {id : Id} {call : Call} {ending : Ending}
    {r : Reply PrivilegeSet} (he : Ends ev s id call ending r) (hid : s.calls.get? id = some call)
    (hs : s.step ev ≠ s) : s.attended call = true := by
  by_contra hatt
  rw [Bool.not_eq_true] at hatt
  refine hs ?_
  cases he with
  | answer hev hq => simp [hev, State.step, State.answer, hid, hatt]
  | expire hev ht => simp [hev, State.step, State.expire, hid, hatt]

/-- **What ends in a step is a call that was under way.** -/
theorem step_ended {ev : Event} {s : State} (h : Books s) {id : Id} {p : Principal}
    {ending : Ending} (hn : .ended id p ending ∉ s.journal)
    (he : .ended id p ending ∈ (s.step ev).journal) :
    ∃ call, s.calls.get? id = some call ∧ call.principal = p ∧ Checks ev s id call ending := by
  have hone : s.step ev = s ∨ Move ev s (s.step ev) →
      ∃ call, s.calls.get? id = some call ∧ call.principal = p ∧ Checks ev s id call ending := by
    rintro (hs | m)
    · rw [hs] at he
      exact absurd he hn
    · exact ((m.touch h).ended he).resolve_left hn
  cases ev with
  | answer id' r => exact hone (State.answer_move s id' r)
  | verdict id' r => exact hone (State.verdict_move s id' r)
  | expire id' => exact hone (State.expire_move s id')
  | _ =>
    refine absurd (Moves.ended h ?_ ?_ ?_ (step_moves h.orderly _) he) hn
    · exact fun _ _ hev => by cases hev
    · exact fun _ _ hev => by cases hev
    · exact fun _ hev => by cases hev

/-- Callers come to wait only for a call that begins, or for that of a fetch. -/
theorem Touch.joined {ev : Event} {s t : State} (m : Touch ev s t) {c id : Id}
    (hj : .joined c id ∈ t.journal) :
    .joined c id ∈ s.journal ∨ id = s.next ∨ ∃ p, s.fetches.get? p = some (.underway id) := by
  refine (m.fresh rfl hj).imp_right fun h => ?_
  cases h with
  | plain h => cases h
  | joined h => exact h

theorem Books.suffix_run {s : State} (h : Books s) (es : List Event) :
    s.journal <:+ (s.run es).journal :=
  h.run_induction (P := fun t => s.journal <:+ t.journal) (List.suffix_refl _)
    fun _ _ _ _ hb hsub m => hsub.trans (m.touch hb).suffix

/-- In the run an event has ended the call so.  Until then the call was one for the principal, with
this question. -/
def Brought (s : State) (es : List Event) (id : Id) (p : Principal) (q : Question)
    (ending : Ending) : Prop :=
  ∃ before ev after call, es = before ++ ev :: after ∧ (s.run before).calls.get? id = some call
    ∧ call.principal = p ∧ call.question = q ∧ Checks ev (s.run before) id call ending

/-- **Whatever is noted of the end of a call has been reported.** -/
theorem Books.brought {s : State} (h : Books s) {es : List Event} {id : Id} {p : Principal}
    {q : Question} {o : Owner} {ending : Ending} (hn : .ended id p ending ∉ s.journal)
    (hb : .began id p q o ∈ (s.run es).journal) (he : .ended id p ending ∈ (s.run es).journal) :
    Brought s es id p q ending := by
  induction es generalizing s with
  | nil => exact absurd he hn
  | cons ev es ih =>
    have ht : Books (s.step ev) := h.run [ev]
    by_cases hm : .ended id p ending ∈ (s.step ev).journal
    · obtain ⟨call, hid, hp, hcheck⟩ := step_ended h hn hm
      have hbegan := (h.suffix_run (ev :: es)).subset (h.calls.began_of_get? hid)
      obtain ⟨-, rfl, -⟩ := (h.run (ev :: es)).calls.began_unique hbegan hb
      exact ⟨[], ev, es, call, rfl, hid, hp, rfl, hcheck⟩
    · obtain ⟨before, ev', after, call, rfl, hrest⟩ := ih ht hm hb he
      exact ⟨ev :: before, ev', after, call, rfl, hrest⟩

/-- What has been stored by hand was written by an event. -/
theorem Books.hand_run {s : State} (h : Books s) (es : List Event) {p : Principal}
    {privileges : PrivilegeSet} (hs : .stored p privileges .hand ∉ s.journal)
    (hw : .write p privileges ∉ es) : .stored p privileges .hand ∉ (s.run es).journal := by
  refine h.run_induction (P := fun t => .stored p privileges .hand ∉ t.journal) hs ?_
  intro ev hev t u hb hnot m hm
  cases m.touch hb with
  | nothing new hc hj hn =>
    rw [hj] at hm
    rcases List.mem_append.mp hm with hm | hm
    · cases (hn _ hm).stores
    · exact hnot hm
  | list hr hb he hc hj hbefore hafter =>
    rw [hj] at hm
    rcases List.mem_append.mp hm with hm | hm
    · cases (hafter _ hm).stores
    · rcases List.mem_cons.mp hm with hm | hm
      · cases hm
      · rcases List.mem_append.mp hm with hm | hm
        · cases (hbefore _ hm).stores
        · exact hnot hm
  | hand hev' hc hj =>
    rw [hj] at hm
    rcases List.mem_cons.mp hm with hm | hm
    · injection hm with hp hS
      subst hp hS
      exact hw (hev' ▸ hev)
    · exact hnot hm
  | clear hev' hc hj hn =>
    rw [hj] at hm
    rcases List.mem_cons.mp hm with hm | hm
    · rcases hn with rfl | ⟨k, rfl⟩ <;> cases hm
    · exact hnot hm

end Gatekeeper.Engine

import Gatekeeper.Proofs.Progress

/-!
# Where the cache entries come from

The cache has three writers: a fetch that comes back, an update, and a pass that looks at its
results.  They get in between each other in any order, calls fail, hang, crash or are given up, and
the cache may be cleared at any moment.  Still an entry is never a mixture: it is, whole, the list
that one call has brought back, and the journal says which.

* `storedSince` — the principals for whom something was stored since the cache was last cleared.
* `Documented` — every list in the journal that was stored stands after the call that brought it.
* `Rewrites` — what one step can do to the cache: nothing, a clear, or one entry.
* `Event.barren` — the events that tell of a call of which nothing comes.
* `Provenance`, `cache_provenance` — what is so of the cache after every run in which nobody writes
  into it by hand.

There is nothing to be said of the interleaving as such.  A step rewrites one entry at most, with
a list that is known as a whole at that moment; this holds wherever the step stands in a run, and
so entries stay whole however the steps are interleaved.  What can be read in the journal
afterwards is which call it was and that nothing was stored from a call that failed, crashed or
was given up.
-/

set_option autoImplicit false

namespace Gatekeeper.Engine

/-! ## Reading the journal for what was stored

The entries of the cache are those for whom something was stored since the last clear, and the
set is what was stored last.  Both are read off the journal, from its newest note backwards. -/

namespace Note

/-- The note says that the cache was cleared. -/
def clears : Note → Bool
  | .invalidated _ | .cleared => true
  | _ => false

/-- The principal for whom something was stored. -/
def stored? : Note → Option Principal
  | .stored p _ _ => some p
  | _ => none

/-- After the note the cache entry of the principal is not what it was, or may be another one. -/
def overwrites (p : Principal) : Note → Bool
  | .stored q _ _ => q == p
  | .invalidated _ | .cleared => true
  | _ => false

end Note

/-- The principals for whom something was stored since the cache was last cleared, once for every
time that it was. -/
def storedSince (l : List Note) : List Principal :=
  (l.takeWhile fun n => !n.clears).filterMap Note.stored?

section Reading

variable {p : Principal} {privileges : PrivilegeSet} {o : Origin} {l : List Note}

/-- What the journal says of an entry is what was stored last for the principal. -/
theorem source_eq_some_iff : source p l = some (privileges, o) ↔
    ∃ newer older, l = newer ++ .stored p privileges o :: older
      ∧ ∀ n ∈ newer, n.overwrites p = false := by
  constructor
  · intro h
    induction l with
    | nil => cases h
    | cons n l ih =>
      have hnext : ∀ {n : Note}, n.overwrites p = false → source p l = some (privileges, o) →
          ∃ newer older, n :: l = newer ++ .stored p privileges o :: older
            ∧ ∀ n ∈ newer, n.overwrites p = false := by
        intro n hn hl
        obtain ⟨newer, older, rfl, hnewer⟩ := ih hl
        exact ⟨n :: newer, older, rfl, List.forall_mem_cons.mpr ⟨hn, hnewer⟩⟩
      cases n with
      | stored q S o' =>
        rw [source] at h
        split at h
        · rename_i hq
          obtain ⟨rfl, rfl⟩ := Prod.mk.inj (Option.some_inj.mp h)
          exact ⟨[], l, by rw [hq]; rfl, fun n hn => absurd hn List.not_mem_nil⟩
        · rename_i hq
          exact hnext (beq_eq_false_iff_ne.mpr hq) h
      | invalidated _ | cleared => cases h
      | _ => exact hnext rfl h
  · rintro ⟨newer, older, rfl, hnewer⟩
    induction newer with
    | nil => exact if_pos rfl
    | cons n newer ih =>
      obtain ⟨hn, hnewer⟩ := List.forall_mem_cons.mp hnewer
      rw [List.cons_append, ← ih hnewer]
      cases n with
      | stored q S o' => exact if_neg (beq_eq_false_iff_ne.mp hn)
      | invalidated _ | cleared => cases hn
      | _ => rfl

/-- There is an entry for whom something was stored since the last clear. -/
theorem source_ne_none_iff : source p l ≠ none ↔ p ∈ storedSince l := by
  induction l with
  | nil => simp [source, storedSince]
  | cons n l ih =>
    cases n with
    | stored q S o =>
      have hcons : storedSince (.stored q S o :: l) = q :: storedSince l := rfl
      rw [hcons, List.mem_cons, ← ih, source]
      by_cases hq : q = p
      · simp [hq]
      · simp [hq, Ne.symm hq]
    | invalidated _ | cleared => exact iff_of_false (fun h => h rfl) List.not_mem_nil
    | _ => exact ih

/-- A note that is not among the new ones is where it was. -/
theorem suffix_of_suffix_append {n : Note} {older new : List Note} (hn : n ∉ new)
    (h : n :: older <:+ new ++ l) : n :: older <:+ l := by
  induction new with
  | nil => exact h
  | cons m new ih =>
    rw [List.mem_cons, not_or] at hn
    rcases List.suffix_cons_iff.mp h with h | h
    · injection h with h
      exact absurd h hn.1
    · exact ih hn.2 h

end Reading

/-! ## Every list is documented

A note that a list was stored refers to a call.  That call has begun and has ended with this
list, and both notes are older: no list is stored before it came back. -/

/-- Every list that was stored stands in the journal after the beginning and the end of the call
that brought it. -/
def Documented (l : List Note) : Prop :=
  ∀ {p privileges id o older}, .stored p privileges (.call id o) :: older <:+ l →
    .began id p .listing o ∈ older ∧ .ended id p (.listed (.value privileges)) ∈ older

section Writers

variable {s t : State} {ev : Event}

theorem Documented.append {l new : List Note} (h : Documented l)
    (hnew : ∀ n ∈ new, n.stores = false) : Documented (new ++ l) := by
  intro p S id o older hs
  refine h (suffix_of_suffix_append (fun hm => ?_) hs)
  cases hnew _ hm

theorem Documented.cons {l : List Note} {n : Note} (h : Documented l)
    (hn : ∀ p privileges id o, n ≠ .stored p privileges (.call id o)) : Documented (n :: l) := by
  intro p S id o older hs
  rcases List.suffix_cons_iff.mp hs with hs | hs
  · injection hs with hs
    exact absurd hs.symm (hn p S id o)
  · exact h hs

theorem Documented.touch (h : Documented s.journal) (m : Touch ev s t) : Documented t.journal := by
  cases m with
  | nothing new hc hj hn =>
    rw [hj]
    exact h.append fun n hm => (hn n hm).stores
  | @list id p o S before after hr hb he hc hj hbefore hafter =>
    rw [hj]
    refine Documented.append ?_ fun n hm => (hafter n hm).stores
    have hold : Documented (before ++ s.journal) := h.append fun n hm => (hbefore n hm).stores
    intro p' S' id' o' older hs
    rcases List.suffix_cons_iff.mp hs with hs | hs
    · injection hs with hs hl
      injection hs with hp hS ho
      injection ho with hid ho
      subst hp hS hid ho hl
      exact ⟨List.mem_append_right _ hb, he⟩
    · exact hold hs
  | hand hev hc hj =>
    rw [hj]
    exact h.cons fun p S id o hn => by cases hn
  | clear hev hc hj hn =>
    rw [hj]
    refine h.cons fun p S id o he => ?_
    rcases hn with rfl | ⟨k, rfl⟩ <;> cases he

/-- **In every run the lists that are stored are documented.** -/
theorem Documented.run (hb : Books s) (h : Documented s.journal) (es : List Event) :
    Documented (s.run es).journal :=
  hb.run_induction (P := fun t => Documented t.journal) h fun _ _ _ _ hb h m => h.touch (m.touch hb)

/-- The end of a call with a list is an answer that the backend gave in the run. -/
theorem Brought.answer {es : List Event} {id : Id} {p : Principal} {q : Question}
    {r : Reply PrivilegeSet} (h : Brought s es id p q (.listed r)) : .answer id r ∈ es := by
  obtain ⟨before, ev, after, call, rfl, -, -, -, hcheck⟩ := h
  cases hcheck with
  | list hends =>
    cases hends with
    | answer hev => exact List.mem_append_right _ (hev ▸ List.mem_cons_self)

/-! ## What a step does to the cache

Moves have been sorted by what they do to the cache; here steps are, since it is events that one
wants to speak about.  An event that may change the cache at all is one move, so there is not
more than one change to account for. -/

/-- The cache is written by hand. -/
def Event.byHand : Event → Bool
  | .write .. | .clear => true
  | _ => false

/-- The event may change the cache. -/
def Event.rewrites : Event → Bool
  | .answer .. | .expire _ | .collect .. | .write .. | .clear | .invalidate => true
  | _ => false

/-- The event tells that a call has failed, crashed, run out of time or got a verdict, or that its
caller has given up. -/
def Event.barren : Event → Bool
  | .answer _ (.failed _) | .answer _ .crashed | .verdict .. | .expire _ | .cancel _ => true
  | _ => false

/-- Most moves leave the cache alone. -/
theorem Move.cache_eq (m : Move ev s t) (hev : ev.rewrites = false) : t.cache = s.cache := by
  have hends : ∀ {id call ending r}, ¬ Ends ev s id call ending r := by
    intro id call ending r he
    cases he with
    | answer h => rw [h] at hev; cases hev
    | expire h => rw [h] at hev; cases hev
  cases m with
  | quiet hq => exact hq.cache
  | fetchEnds hc ho ha he | updateEnds hc ho he => exact absurd he hends
  | look h | close h | write h =>
    rw [h] at hev
    cases hev
  | clear h =>
    rcases h with rfl | rfl <;> cases hev
  | leaveCall =>
    rw [State.dropCall]
    split <;> rfl
  | leavePass =>
    rw [State.dropPass_eq]
    rfl
  | abandon => rw [State.dropPass_eq]
  | _ => rfl

/-- An event that may change the cache is one move, or nothing at all. -/
theorem step_move (s : State) (hev : ev.rewrites = true) :
    s.step ev = s ∨ Move ev s (s.step ev) := by
  cases ev with
  | answer id r => exact State.answer_move s id r
  | expire id => exact State.expire_move s id
  | collect n p => exact State.collect_move s n p
  | write p S => exact Or.inr (.write rfl)
  | clear => exact Or.inr (.clear (Or.inl rfl) (Or.inl rfl))
  | invalidate =>
    rw [State.step]
    split
    · exact Or.inl rfl
    · exact Or.inr (.clear (Or.inr rfl) (Or.inr ⟨_, rfl⟩))
  | _ => cases hev

/-- Most steps leave the cache alone. -/
theorem step_cache_eq (h : Orderly s) (hev : ev.rewrites = false) : (s.step ev).cache = s.cache :=
  (step_moves h ev).keeps (P := fun t => t.cache = s.cache) h rfl fun _ ht m =>
    (m.cache_eq hev).trans ht

/-- **A step leaves the cache as it was, or touches it in one of few ways.** -/
theorem step_touch (h : Books s) (ev : Event) :
    (s.step ev).cache = s.cache ∨ Touch ev s (s.step ev) := by
  cases hev : ev.rewrites with
  | false => exact Or.inl (step_cache_eq h.orderly hev)
  | true =>
    rcases step_move s hev with hs | m
    · exact Or.inl (by rw [hs])
    · exact Or.inr (m.touch h)

/-- A call that ends without a list leaves the cache as it was. -/
theorem settle_cache {id : Id} {call : Call} {r : Reply PrivilegeSet}
    (hr : ∀ privileges, r ≠ .value privileges) : (s.settle id call r).cache = s.cache := by
  have hput : ∀ p t, r.put p t = t := by
    intro p t
    cases r with
    | value S => exact absurd rfl (hr S)
    | _ => rfl
  rw [State.settle]
  split
  · rw [State.settleFetch_eq]
    exact hput _ _
  · rw [State.settleUpdate_eq]
    exact hput _ _
  · rw [State.settleDirect_eq]
    rfl
  · rfl

/-- A list that comes back to a fetch or to an update becomes the entry. -/
theorem settle_cache_value {id : Id} {call : Call}
    (ho : call.owner = .fetch ∨ ∃ c, call.owner = .update c) (privileges : PrivilegeSet) :
    (s.settle id call (.value privileges)).cache = s.cache.put call.principal privileges := by
  rcases ho with ho | ⟨c, ho⟩
  · rw [State.settle, ho]
    dsimp only
    rw [State.settleFetch_eq]
    rfl
  · rw [State.settle, ho]
    dsimp only
    rw [State.settleUpdate_eq]
    rfl

/-- A step in which a call fails, times out, crashes or gets a verdict leaves the cache as it was,
and so does one in which a caller gives up. -/
theorem step_cache_of_barren (hev : ev.barren = true) : (s.step ev).cache = s.cache := by
  cases ev with
  | answer id r =>
    have hr : ∀ S, r ≠ .value S := by
      rintro S rfl
      cases hev
    rw [State.step, State.answer]
    split
    · split
      · exact settle_cache hr
      · rfl
    · rfl
  | verdict id r =>
    rw [State.step, State.verdict]
    split
    · split
      · rw [State.settleDirect_eq]
        rfl
      · rfl
    · rfl
  | expire id =>
    rw [State.step, State.expire]
    split
    · split
      · exact settle_cache fun S hS => by cases hS
      · rfl
    · rfl
  | cancel c =>
    rcases State.cancel_move s c with hc | m
    · exact congrArg State.cache hc
    · exact m.cache_eq rfl
  | _ => cases hev

theorem step_cache_of_ended {id : Id} {call : Call} {ending : Ending}
    (h : Checks ev s id call ending) (hset : ending.set? = none) :
    (s.step ev).cache = s.cache := by
  refine step_cache_of_barren ?_
  cases h with
  | @list _ r h =>
    cases h with
    | answer hev =>
      cases r with
      | value S => cases hset
      | _ => rw [hev, Event.barren]
    | expire hev => rw [hev, Event.barren]
  | verdict hev => rw [hev, Event.barren]

/-- A list that somebody waits for becomes the entry in the step in which it comes back. -/
theorem step_answer_value (h : Books s) {id : Id} {call : Call}
    (hid : s.calls.get? id = some call) (hatt : s.attended call = true)
    (ho : call.owner = .fetch ∨ ∃ c, call.owner = .update c) (privileges : PrivilegeSet) :
    (s.step (.answer id (.value privileges))).cache
      = s.cache.put call.principal privileges := by
  have hq : call.question = .listing := by
    rcases ho with ho | ⟨c, ho⟩
    · exact h.calls.listing hid (by rw [ho]; rfl)
    · exact h.callers.listing_of_update hid ho
  rw [(Ends.answer rfl hq).step_eq hid hatt]
  exact settle_cache_value ho privileges

/-- The same as it is seen in the journal: the list has come back if the call has ended with it. -/
theorem step_cache_of_listed (h : Books s) {id : Id} {p : Principal} {o : Owner}
    {privileges : PrivilegeSet} (hb : .began id p .listing o ∈ s.journal)
    (ho : o = .fetch ∨ ∃ c, o = .update c)
    (hn : .ended id p (.listed (.value privileges)) ∉ s.journal)
    (he : .ended id p (.listed (.value privileges)) ∈ (s.step ev).journal) :
    (s.step ev).cache = s.cache.put p privileges := by
  have hstep : s.step ev ≠ s := fun hs => hn (hs ▸ he)
  obtain ⟨call, hid, rfl, hcheck⟩ := step_ended h hn he
  obtain ⟨-, -, rfl⟩ := h.calls.began_unique hb (h.calls.began_of_get? hid)
  cases hcheck with
  | list hends =>
    have hatt := hends.attended hid hstep
    cases hends with
    | answer hev =>
      rw [hev]
      exact step_answer_value h hid hatt ho privileges

end Writers

/-! ## What is so of the cache

`Rewrites` says of one step what it may do, and `Provenance` says of a run where its entries are
from, how many there are, what the clearing event does, and of which calls nothing will come. -/

/-- What a step from `s` may do to the cache: nothing, clear it, or give one principal the list that
one call for it has brought back. -/
inductive Rewrites (s : State) (ev : Event) (t : State) : Prop
  | nothing (h : ∀ q, t.cache.get? q = s.cache.get? q)
  | clear (hev : ev = .invalidate) (h : ∀ q, t.cache.get? q = none)
  | entry {p : Principal} {privileges : PrivilegeSet} {id : Id} {o : Owner}
    (hb : .began id p .listing o ∈ t.journal)
    (he : .ended id p (.listed (.value privileges)) ∈ t.journal)
    (hs : source p t.journal = some (privileges, .call id o))
    (hp : t.cache.get? p = some privileges) (hq : ∀ q, q ≠ p → t.cache.get? q = s.cache.get? q)

/-- Nothing will come of the call: it has been given up, or has ended without a list. -/
def State.Fruitless (s : State) (id : Id) : Prop :=
  (∃ o, .dropped id o ∈ s.journal) ∨ ∃ p ending, .ended id p ending ∈ s.journal ∧ ending.set? = none

/-- What is so of the cache in `s` after the events have happened. -/
structure Provenance (es : List Event) (s : State) : Prop where
  /-- An entry is what was stored last for the principal, if the cache was not cleared since. -/
  entry : ∀ p privileges, s.cache.get? p = some privileges ↔
    ∃ newer older id o, s.journal = newer ++ .stored p privileges (.call id o) :: older
      ∧ ∀ n ∈ newer, n.overwrites p = false
  /-- What was stored is, whole, what the backend answered one call for the principal with. -/
  listed : ∀ {newer older p privileges id o},
    s.journal = newer ++ .stored p privileges (.call id o) :: older →
      .began id p .listing o ∈ older ∧ .ended id p (.listed (.value privileges)) ∈ older
        ∧ .answer id (.value privileges) ∈ es
  /-- What comes back to an update, or to a fetch that somebody waits for, is stored at once, -/
  kept : ∀ {id call}, s.calls.get? id = some call → s.attended call = true →
    (call.owner = .fetch ∨ ∃ c, call.owner = .update c) → ∀ privileges,
      (s.step (.answer id (.value privileges))).cache.get? call.principal = some privileges
  /-- and what has come back to a pass when the pass looks at it. -/
  looked : ∀ {n pass l}, s.passes.get? n = some pass → s.halted pass = false → l ∈ pass.landed →
    ∀ privileges, l.reply = .value privileges →
      (s.step (.collect n l.principal)).cache.get? l.principal = some privileges
  /-- Whoever has the cache of an engine cleared that is there leaves nothing in it, and the journal
  says that it was. -/
  cleared : s.dropped = false → (s.step .invalidate).cache = .empty
    ∧ (s.step .invalidate).journal = .invalidated s.cache.size :: s.journal
  /-- There is an entry, which may be empty, exactly if something was stored since. -/
  present : ∀ p, s.cache.get? p ≠ none ↔ p ∈ storedSince s.journal
  size : s.cache.size = (storedSince s.journal).dedup.length
  /-- A step changes one entry at most, unless it clears the cache. -/
  steps : ∀ ev, ev.byHand = false → Rewrites s ev (s.step ev)
  /-- A call that fails, times out, crashes or is given up changes no entry, -/
  barren : ∀ ev, ev.barren = true → (s.step ev).cache = s.cache
  /-- and nothing of it is stored later either. -/
  fruitless : ∀ {id}, s.Fruitless id → ∀ es p privileges o,
    .stored p privileges (.call id o) ∉ (s.run es).journal

section

variable {s : State}

theorem CacheBooks.present (h : CacheBooks s) (p : Principal) :
    s.cache.get? p ≠ none ↔ p ∈ storedSince s.journal := by
  rw [h.source, ← source_ne_none_iff, Ne, Option.map_eq_none_iff]

/-- The cache has as many entries as there are principals for whom something was stored. -/
theorem CacheBooks.size (h : CacheBooks s) :
    s.cache.size = (storedSince s.journal).dedup.length := by
  rw [← Table.length_keys]
  refine List.Perm.length_eq ((List.perm_ext_iff_of_nodup s.cache.keys_nodup
    (List.nodup_dedup _)).mpr fun p => ?_)
  rw [List.mem_dedup, ← h.present, Ne, Table.get?_eq_none_iff, not_not]

/-- A step that nobody makes by hand rewrites one entry at most, or clears the cache. -/
theorem CacheBooks.rewrites (hb : Books s) (h : CacheBooks s) {ev : Event}
    (hev : ev.byHand = false) : Rewrites s ev (s.step ev) := by
  rcases step_touch hb ev with hc | m
  · exact .nothing fun q => by rw [hc]
  have hcache := h.touch m
  cases m with
  | nothing new hc => exact .nothing fun q => by rw [hc]
  | @list id p o S before after hr hbegan hended hc hj hbefore hafter =>
    have hsub : ∀ n ∈ before ++ s.journal, n ∈ (s.step ev).journal := by
      intro n hn
      rw [hj]
      exact List.mem_append_right _ (List.mem_cons_of_mem _ hn)
    refine .entry (hsub _ (List.mem_append_right _ hbegan)) (hsub _ hended) ?_ ?_ fun q hq => ?_
    · rw [hj, source_append fun n hn => (hafter n hn).stores]
      exact if_pos rfl
    · rw [hc, Table.get?_put_self]
    · rw [hc, Table.get?_put_of_ne hq]
  | hand hw =>
    rw [hw] at hev
    cases hev
  | clear hw hc =>
    rcases hw with rfl | rfl
    · cases hev
    · exact .clear rfl fun q => by rw [hc, Table.get?_empty]

/-- A call of which nothing will come is never stored. -/
theorem not_stored_of_fruitless (hb : Books s) (h : CacheBooks s) {id : Id} (hf : s.Fruitless id)
    (es : List Event) (p : Principal) (privileges : PrivilegeSet) (o : Owner) :
    .stored p privileges (.call id o) ∉ (s.run es).journal := by
  intro hstored
  have hrun := hb.run es
  have hsub := (hb.suffix_run es).subset
  have he := ((h.run hb es).listed hstored).2
  rcases hf with ⟨o', hd⟩ | ⟨q, ending, he', hset⟩
  · exact hrun.calls.not_ended_of_dropped (hsub hd) _ _ he
  · obtain ⟨-, rfl⟩ := (hrun.calls.of_ended he).2.2 q ending (hsub he')
    cases hset

end

/-- **Every cache entry is the list that one call has brought back.**  After every run of an engine
in which nobody writes into its cache by hand, an entry is, whole, what the backend answered the
call with that was stored last for the principal; there is an entry for exactly those for whom
something was stored since the cache was last cleared; and nothing but a list that came back, or a
clear, changes any of this. -/
theorem cache_provenance (settings : Settings) (checks : Bool) (es : List Event)
    (hes : ∀ ev ∈ es, ev.byHand = false) :
    Provenance es ((State.initial settings checks).run es) := by
  have hinit := Books.initial settings checks
  have h := hinit.run es
  have hcache := (CacheBooks.initial settings checks).run hinit es
  have hdoc : Documented ((State.initial settings checks).run es).journal :=
    Documented.run hinit (fun h => absurd (List.suffix_nil.mp h) (List.cons_ne_nil _ _)) es
  have hhand : ∀ p S, .stored p S .hand ∉ ((State.initial settings checks).run es).journal := by
    intro p S
    refine hinit.hand_run es List.not_mem_nil fun hw => ?_
    cases hes _ hw
  refine ⟨fun p S => ?_, fun {newer older p S id o} hj => ?_, fun hid hatt ho S => ?_,
    fun {n pass l} hp hh hl S hr => ?_, fun hd => ?_, hcache.present, hcache.size,
    fun ev hev => hcache.rewrites h hev, fun ev hev => step_cache_of_barren hev,
    fun hf es' p S o => not_stored_of_fruitless h hcache hf es' p S o⟩
  · rw [hcache.source, Option.map_eq_some_iff]
    constructor
    · rintro ⟨⟨S, o⟩, hsource, rfl⟩
      cases o with
      | hand => exact absurd (stored_of_source hsource) (hhand p S)
      | call id o =>
        obtain ⟨newer, older, hj, hnewer⟩ := source_eq_some_iff.mp hsource
        exact ⟨newer, older, id, o, hj, hnewer⟩
    · rintro ⟨newer, older, id, o, hj, hnewer⟩
      exact ⟨(S, .call id o), source_eq_some_iff.mpr ⟨newer, older, hj, hnewer⟩, rfl⟩
  · obtain ⟨hb, he⟩ := hdoc ⟨newer, hj.symm⟩
    have hsub : ∀ n ∈ older, n ∈ ((State.initial settings checks).run es).journal := by
      intro n hn
      rw [hj]
      exact List.mem_append_right _ (List.mem_cons_of_mem _ hn)
    exact ⟨hb, he, (hinit.brought List.not_mem_nil (hsub _ hb) (hsub _ he)).answer⟩
  · rw [step_answer_value h hid hatt ho S, Table.get?_put_self]
  · have hsource : source l.principal (((State.initial settings checks).run es).step
        (.collect n l.principal)).journal = some (S, .call l.call (.pass n)) :=
      State.source_collect hp hh (h.passes.nodup hp) hl hr
    have hafter := (hcache.run h [.collect n l.principal]).source l.principal
    exact hafter.trans (congrArg (Option.map Prod.fst) hsource)
  · rw [step_invalidate hd]
    exact ⟨rfl, rfl⟩

/-- A fetch and an update overlap, the list that comes back last is empty, and another fetch
crashes: the empty list is the one entry. -/
theorem cache_provenance_of_overlap :
    let p : Principal := ⟨.user, "alice"⟩
    let q : Principal := ⟨.user, "bob"⟩
    let e : Entity := .space "docs"
    let es : List Event := [.enforce e p .read, .update p, .enforce e q .read,
      .answer 3 (.value (.ofList [⟨e, .read⟩])), .answer 1 (.value (.ofList [])),
      .answer 5 .crashed]
    let s := (State.initial { authorization := true } true).run es
    (∀ ev ∈ es, ev.byHand = false) ∧ Provenance es s
      ∧ s.cache.get? p = some (.ofList []) ∧ s.cache.get? q = none ∧ s.cache.size = 1 := by
  intro p q e es s
  have hes : ∀ ev ∈ es, ev.byHand = false := by decide
  exact ⟨hes, cache_provenance { authorization := true } true es hes, by decide, by decide,
    by decide⟩

end Gatekeeper.Engine

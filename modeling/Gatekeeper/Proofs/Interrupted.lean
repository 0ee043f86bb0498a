import Gatekeeper.Proofs.Halt
import Gatekeeper.Proofs.RoundTrip

/-!
# Passes that are given up

A pass can be given up at any moment: its caller no longer waits, its worker is let go of, or its
worker is asked to stop and does so when it next runs.  By then some principals of the pass have
been refreshed, for others calls are under way or results have landed that nobody has looked at, and
the rest have not been asked about.  Whatever it was, every entry is one that some list has come
back with whole, and what has not been looked at is never looked at any more.

* `WritesAlone`, `Intact` — as long as nobody but the pass writes, there are entries for those who
  had one before, and each is the old one or what a call of the pass has brought back.
* `OverForGood` — nothing is left of a pass, and nothing comes of it any more.
* `LetsGo`, `WindsDown` — how a pass is given up at once, and what becomes of that of a worker that
  has been asked to stop.
* `given_up_pass` — in whatever state it is given up, a pass leaves the cache intact and comes to
  nothing.

No state is singled out in which a pass could be given up.  Whatever is so after every event of a
run is so at the moment of giving up, so the first part of the promise is about all moments and
the second about what follows one event.
-/

set_option autoImplicit false

namespace Gatekeeper.Engine

/-- Nobody but the pass has written into the cache between one state and the other. -/
def WritesAlone (n : Id) (s t : State) : Prop :=
  ∀ m ∈ s.notesTo t, m.stores = true → m.writes n = true

instance (n : Id) (s t : State) : Decidable (WritesAlone n s t) :=
  inferInstanceAs (Decidable (∀ m ∈ s.notesTo t, m.stores = true → m.writes n = true))

/-- There are entries in `t` for those who have one in `s`; each is the same as there, or the list
that a call of the pass for the principal has come back with. -/
structure Intact (n : Id) (s t : State) : Prop where
  keys : ∀ p, p ∈ t.cache.keys ↔ p ∈ s.cache.keys
  entries : ∀ {p privileges}, t.cache.get? p = some privileges → s.cache.get? p = some privileges
    ∨ ∃ id, .began id p .listing (.pass n) ∈ t.journal
      ∧ .ended id p (.listed (.value privileges)) ∈ t.journal

/-- The pass is over, no call of it is under way, and it will never begin another one or store
anything. -/
structure OverForGood (n : Id) (s : State) : Prop where
  gone : s.passes.get? n = none
  calls : ∀ {id call}, s.calls.get? id = some call → call.owner ≠ .pass n
  doesNothing : ∀ es, DoesNothing n s (s.run es)

/-- The pass has been begun, and is run for `d` as long as it is there. -/
def State.RunFor (s : State) (n : Id) (d : Driver) : Prop :=
  n < s.next ∧ ∀ pass, s.passes.get? n = some pass → pass.driver = d

/-- The event is that whoever runs the pass lets go of it. -/
inductive LetsGo (s : State) (n : Id) : Event → Prop
  | caller {c : Id} (hc : s.callers.get? c = some (.pass n)) : LetsGo s n (.cancel c)
  | worker {w : Id} {ev : Event} (hw : s.Driven w n) (hr : Releases s w ev) : LetsGo s n ev

section

variable {s t u : State} {ev : Event} {n w : Id} {k : Worker} {p : Principal} {d : Driver}

/-! ## What is in the cache

As long as nobody else writes, every entry is read off the journal as what was there before or as
what the pass has stored. -/

/-- If only the pass has written anew, what is in the cache was there before, or the pass has stored
it. -/
theorem source_of_writes {new : List Note}
    (h : ∀ m ∈ new, m.stores = true → m.writes n = true) (p : Principal) (l : List Note) :
    source p (new ++ l) = source p l ∨ ∃ privileges id,
      source p (new ++ l) = some (privileges, .call id (.pass n))
        ∧ .stored p privileges (.call id (.pass n)) ∈ new := by
  induction new with
  | nil => exact Or.inl rfl
  | cons m new ih =>
    obtain ⟨hm, hnew⟩ := List.forall_mem_cons.mp h
    have hnext : source p (m :: (new ++ l)) = source p (new ++ l) →
        source p (m :: new ++ l) = source p l ∨ ∃ privileges id,
          source p (m :: new ++ l) = some (privileges, .call id (.pass n))
            ∧ .stored p privileges (.call id (.pass n)) ∈ m :: new := by
      intro hsame
      rw [List.cons_append, hsame]
      exact (ih hnew).imp_right fun ⟨S, id, hs, hmem⟩ => ⟨S, id, hs, List.mem_cons_of_mem _ hmem⟩
    cases hstores : m.stores with
    | false => exact hnext (source_cons hstores p _)
    | true =>
      have hwrites := hm hstores
      unfold Note.writes at hwrites
      split at hwrites
      · rename_i q S id k
        obtain rfl : k = n := beq_iff_eq.mp hwrites
        by_cases hq : q = p
        · exact Or.inr ⟨S, id, if_pos hq, hq ▸ List.mem_cons_self⟩
        · exact hnext (if_neg hq)
      · cases hwrites

/-- **A pass that nobody else writes beside leaves the cache intact.** -/
theorem WritesAlone.intact (h : WritesAlone n s t) (hsub : s.journal <:+ t.journal)
    (hs : CacheBooks s) (ht : CacheBooks t) (he : Entries n s.cache.keys t) : Intact n s t := by
  have hj := (State.notesTo_append hsub).symm
  have hentry : ∀ p, t.cache.get? p = s.cache.get? p ∨ ∃ privileges id,
      t.cache.get? p = some privileges
        ∧ .stored p privileges (.call id (.pass n)) ∈ t.journal := by
    intro p
    rw [ht.source, hs.source, hj]
    rcases source_of_writes h p s.journal with hold | ⟨S, id, hsource, hmem⟩
    · exact Or.inl (by rw [hold])
    · exact Or.inr ⟨S, id, by rw [hsource]; rfl, List.mem_append_left _ hmem⟩
  refine ⟨fun p => ?_, fun {p S} hp => ?_⟩
  · rcases hentry p with hsame | ⟨S, id, hp, hstored⟩
    · rw [← not_iff_not, ← Table.get?_eq_none_iff, ← Table.get?_eq_none_iff, hsame]
    · refine iff_of_true ?_ ?_
      · rw [← not_not (a := p ∈ _), ← Table.get?_eq_none_iff, hp]
        simp
      · refine List.count_pos_iff.mp (Nat.lt_of_lt_of_le ?_ (he.written p))
        exact List.countP_pos_iff.mpr ⟨_, hstored, by simp [Note.writesFor]⟩
  · rcases hentry p with hsame | ⟨S', id, hp', hstored⟩
    · exact Or.inl (hsame ▸ hp)
    · rw [hp, Option.some_inj] at hp'
      subst hp'
      exact Or.inr ⟨id, ht.listed hstored⟩

/-! ## When nothing is left of a pass

Nothing comes of a pass that is not there any more: its number is not drawn again, and its calls
have gone with it. -/

/-- Nothing is left of a pass that is over. -/
theorem OverForGood.of_none (hb : Books s) (hlt : n < s.next) (hp : s.passes.get? n = none) :
    OverForGood n s where
  gone := hp
  calls hid ho := by
    obtain ⟨pass, hp', -⟩ := hb.passes.flights hid ho
    rw [hp] at hp'
    cases hp'
  doesNothing := hb.doesNothing_run hlt hp

/-- A pass is run for the same as long as it is there. -/
theorem Books.runFor_run (hb : Books s) (h : s.RunFor n d) (es : List Event) :
    (s.run es).RunFor n d := by
  refine hb.run_induction (P := fun t => t.RunFor n d) h ?_
  intro ev _ t u hb ⟨hlt, hd⟩ m
  refine ⟨Nat.lt_of_lt_of_le hlt m.next_le, fun pass hp => ?_⟩
  rcases m.known hp with ⟨pass₀, hp₀⟩ | ⟨rfl, -⟩
  · rw [(m.goes hb hp₀).driver hp]
    exact hd pass₀ hp₀
  · exact absurd hlt (Nat.lt_irrefl _)

theorem Books.runFor (hb : Books s) (h : s.Driven w n) : s.RunFor n (.worker w) := by
  obtain ⟨pass, hp, hd⟩ := h
  refine ⟨hb.orderly.passes hp, fun pass' hp' => ?_⟩
  rw [hp, Option.some_inj] at hp'
  exact hp' ▸ hd

/-- Nothing is left of the pass of a worker that is at its end. -/
theorem WorkerBooks.overForGood (h : WorkerBooks s) (hw : Dead s w)
    (hn : s.RunFor n (.worker w)) : OverForGood n s := by
  refine .of_none h.books hn.1 (Option.eq_none_iff_forall_ne_some.mpr fun pass hp => ?_)
  exact h.not_driven hw n ⟨pass, hp, hn.2 pass hp⟩

/-! ## Letting go of a pass

A caller that gives up, a worker that is released and an engine that goes all end the pass in the
step in which this happens. -/

/-- **Nothing is left of a pass that whoever runs it has let go of.** -/
theorem LetsGo.overForGood (h : LetsGo s n ev) (hm : WorkerBooks s) :
    OverForGood n (s.step ev) := by
  have hstep := hm.step ev
  cases h with
  | @caller c hc =>
    obtain ⟨pass, hp, -⟩ := hm.books.passes.waiters hc
    refine .of_none hstep.books ?_ ?_
    · exact Nat.lt_of_lt_of_le (hm.books.orderly.passes hp) (hm.books.orderly.next_le_step _)
    · rw [State.step, State.cancel, hc]
      exact State.get?_dropPass _ n
  | worker hw hr =>
    obtain ⟨k, hk, -⟩ := hm.refreshing hw
    exact hstep.overForGood (dead_of_releases hk hr) (hm.books.runFor_run (hm.books.runFor hw) [ev])

/-! ## The pass of a worker that has been asked to stop

Here the end comes later, when the worker next runs.  Until then the pass goes on with its calls
but looks at nothing, so nothing is stored; and whoever waits for the worker is told when it is
over. -/

/-- What becomes of the pass of a worker that somebody, with the number `c`, has asked to stop. -/
structure WindsDown (n w c : Id) (s t : State) : Prop where
  /-- Nothing that has not been stored when the worker is asked ever is. -/
  storesNothing : StoresNothing n s t
  /-- When the worker next runs, it drops the pass. -/
  wake : OverForGood n (t.step (.wake w))
  /-- Whoever has asked is told when nothing is left of the pass. -/
  told : ∀ o, .returned c o ∈ t.journal → OverForGood n t

theorem Stops.windsDown (hs : Stops s w ev) (hm : WorkerBooks s) (hw : s.Driven w n)
    (es : List Event) :
    WindsDown n w s.next (s.step ev) ((s.step ev).run es) := by
  obtain ⟨k, hk, -⟩ := hm.refreshing hw
  have hstep := hm.step ev
  have hfor : (s.step ev).RunFor n (.worker w) := hm.books.runFor_run (hm.books.runFor hw) [ev]
  have hask : Halting (s.step ev) w := halting_of_stop hk hs
  refine ⟨?_, ?_, fun o ho => ?_⟩
  · exact hstep.books.storesNothing_run hfor.1
      (fun pass hp => hstep.halted hask hp (hfor.2 pass hp)) es
  · have hend : Dead (((s.step ev).run es).step (.wake w)) w := (hstep.halting_run hask es).wake
    have hlater := (hstep.run es).books.runFor_run (hstep.books.runFor_run hfor es) [.wake w]
    exact ((hstep.run es).step (.wake w)).overForGood hend hlater
  · exact (hstep.run es).overForGood (hm.stop_run hk hs es ho) (hstep.books.runFor_run hfor es)

/-- **A pass that is given up does no harm**, whatever has come of it by then.  As long as nobody
else writes, the cache is intact at every moment; nothing is left of the pass when whoever runs it
lets go of it, or when its worker has been asked to stop and runs once more; and whoever has asked
is not told before. -/
theorem given_up_pass (settings : Settings) (checks : Bool) (es : List Event) (ev : Event)
    {n : Id} {k : Nat}
    (hnew : .passStarted n k ∉ ((State.initial settings checks).run es).journal)
    (hs : .passStarted n k ∈ (((State.initial settings checks).run es).step ev).journal)
    (es' : List Event) :
    let s := (State.initial settings checks).run es
    let t := (s.step ev).run es'
    (WritesAlone n s t → Intact n s t)
      ∧ (∀ ev', LetsGo t n ev' → OverForGood n (t.step ev'))
      ∧ ∀ w ev', t.Driven w n → Stops t w ev' → ∀ es'',
        WindsDown n w t.next (t.step ev') ((t.step ev').run es'') := by
  intro s t
  have hinit := Books.initial settings checks
  have hb : Books s := hinit.run es
  have hnum : Numbered s := (Numbered.initial settings checks).run hinit es
  have hcache : CacheBooks s := (CacheBooks.initial settings checks).run hinit es
  have hm : WorkerBooks t := ((WorkerBooks.initial settings checks).run es).run (ev :: es')
  obtain ⟨d, u, ho, ha, rfl, rfl⟩ := started_cases hb.orderly hnew hs
  have hledger := (ho.ledger hb hnum ha).run (hb.run [ev]) es'
  refine ⟨fun h => ?_, fun ev' h => h.overForGood hm, fun w ev' hw h es'' => h.windsDown hm hw es''⟩
  exact h.intact (hb.suffix_run (ev :: es')) hcache (hcache.run hb (ev :: es')) hledger.toEntries

end

/-- When the worker is asked to stop one principal of its pass is refreshed, one has a result that
nobody has looked at, and one waits; and so it is when the caller of such a pass no longer waits.
Nothing but the one entry has changed, and nothing changes any more. -/
theorem given_up_pass_of_three :
    let p : Principal := ⟨.user, "alice"⟩
    let q : Principal := ⟨.user, "bob"⟩
    let r : Principal := ⟨.user, "carol"⟩
    let old : PrivilegeSet := .ofList []
    let new : PrivilegeSet := .ofList [⟨.space "docs", .read⟩]
    let settings : Settings := { authorization := true, refreshParallelism := 1 }
    let cached : List Event := [.update p, .answer 1 (.value old), .update q,
      .answer 3 (.value old), .update r, .answer 5 (.value old)]
    let turns (n : Id) : List Event := [.launch n p, .answer (n + 1) (.value new), .collect n p,
      .launch n q, .answer (n + 2) (.value new)]
    let s := (State.initial settings true).run (cached ++ [.start true])
    let t := (s.step (.wake 7)).run (turns 8)
    let u := (t.step (.stop 7)).run [.collect 8 q, .wake 7, .launch 8 r]
    let s' := (State.initial settings true).run cached
    let t' := (s'.step .iterate).run (turns 7)
    Intact 8 s u ∧ OverForGood 8 u ∧ u.cache.get? p = some new ∧ u.cache.get? q = some old
      ∧ Intact 7 s' t' ∧ OverForGood 7 (t'.step (.cancel 6)) ∧ t'.cache.get? p = some new
      ∧ t'.cache.get? q = some old := by
  intro p q r old new settings cached turns s t u s' t'
  have hworker := given_up_pass settings true (cached ++ [.start true]) (.wake 7)
    (n := 8) (k := 3) (by decide) (by decide)
  have hcaller := given_up_pass settings true cached .iterate (n := 7) (k := 3) (by decide)
    (by decide) (turns 7)
  have hu : u = (s.step (.wake 7)).run
      (turns 8 ++ [.stop 7, .collect 8 q, .wake 7, .launch 8 r]) := by
    rw [run_append, run_cons]
  have halone : WritesAlone 8 s u := by decide
  have halone' : WritesAlone 7 s' t' := by decide
  have hdriver : (t.passes.get? 8).map Pass.driver = some (.worker 7) := by decide
  have hdriven : t.Driven 7 8 := Option.map_eq_some_iff.mp hdriver
  have hstop : WindsDown 8 7 t.next (t.step (.stop 7)) u :=
    (hworker (turns 8)).2.2 7 (.stop 7) hdriven (Or.inl rfl) [.collect 8 q, .wake 7, .launch 8 r]
  have htold : .returned t.next .stopped ∈ u.journal := by decide
  have hover : OverForGood 8 u := hstop.told .stopped htold
  have hintact : Intact 8 s u := by
    rw [hu] at halone ⊢
    exact (hworker _).1 halone
  have hwaits : t'.callers.get? 6 = some (.pass 7) := by decide
  have hover' : OverForGood 7 (t'.step (.cancel 6)) := hcaller.2.1 (.cancel 6) (.caller hwaits)
  have hintact' : Intact 7 s' t' := hcaller.1 halone'
  exact ⟨hintact, hover, by decide, by decide, hintact', hover', by decide, by decide⟩

end Gatekeeper.Engine

import Gatekeeper.Proofs.Barrier
import Gatekeeper.Proofs.Decision

/-!
# The next miss

A caller that misses a principal in the cache turns to the fetch that is registered for it.  As long
as nobody misses the principal, nothing is registered that was not registered before; and where
nothing is registered, the next caller that misses has a call begun for itself.

* `State.Misses`, `State.Unmissed` — an enforcement would miss the principal; nobody has missed it.
* `unmissed_run` — no fetch comes to be registered while nobody misses the principal.
* `OwnCall` — a caller that depends on one call, begun for it, and on nothing else.
* `ownCall_of_unfetched` — whoever misses where nothing is registered has such a call.

A miss is the only thing by which a caller comes to depend on somebody else.  This file says when
it does not, and is used wherever something is said of the next caller.
-/

set_option autoImplicit false

namespace Gatekeeper.Engine

namespace State

/-- An enforcement about the principal would turn to a fetch. -/
structure Misses (s : State) (p : Principal) : Prop where
  there : s.dropped = false
  active : s.settings.cachingActive = true
  fetches : s.settings.fetchOnMiss = true
  absent : s.cache.get? p = none

/-- Of those who ask about the principal in the events after `s`, nobody misses it. -/
def Unmissed (s : State) (es : List Event) (p : Principal) : Prop :=
  ∀ c e a, .called c (.enforce e p a) ∈ (s.run es).journal → .missed c p ∈ (s.run es).journal →
    .called c (.enforce e p a) ∈ s.journal

end State

/-- Whoever asks next in `s` whether the principal may do this has call `id` begun for itself, and
what it is told depends on that call alone. -/
structure OwnCall (s : State) (e : Entity) (p : Principal) (a : Action) (id : Id) : Prop where
  fresh : ¬ s.Begun id
  began : .began id p .listing .fetch ∈ (s.step (.enforce e p a)).journal
  joined : .joined s.next id ∈ (s.step (.enforce e p a)).journal
  decided : ∀ es o, .returned s.next o ∈ (s.run (.enforce e p a :: es)).journal →
    ∃ ending, .ended id p ending ∈ (s.run (.enforce e p a :: es)).journal
      ∧ o = (Request.enforce e p a).outcome .fetch s.settings.backendTimeout ending
  told : ∀ es ending, .ended id p ending ∈ (s.run (.enforce e p a :: es)).journal →
    .cancelled s.next ∈ (s.run (.enforce e p a :: es)).journal
      ∨ .returned s.next ((Request.enforce e p a).outcome .fetch s.settings.backendTimeout ending)
        ∈ (s.run (.enforce e p a :: es)).journal

/-- A change in which fetches and those who wait for them have no part, but that some may give up
waiting. -/
structure Aside (s t : State) : Prop where
  fetches : t.fetches = s.fetches
  calls : ∀ {id call}, call.owner = .fetch → s.calls.get? id = some call →
    t.calls.get? id = some call
  waiters : ∀ {c p e a}, t.callers.get? c = some (.fetch p e a) →
    s.callers.get? c = some (.fetch p e a)

section

variable {s t : State} {ev : Event} {p : Principal}

/-! ## Where nobody misses

A fetch comes to be registered only by a miss, so in a run without a miss of the principal
whatever is registered for it was so before. -/

/-- An enforcement turns to a fetch, or is settled without one. -/
theorem step_enforce_cases (h : Orderly s) (e : Entity) (p : Principal) (a : Action) :
    s.step (.enforce e p a) = (s.enter (.enforce e p a)).joinFetch s.next e p a
      ∨ Aside s (s.step (.enforce e p a)) := by
  have hfinish : ∀ o, Aside s ((s.enter (.enforce e p a)).finish s.next o) := fun o =>
    ⟨rfl, fun _ hid => hid, fun hc => (Table.get?_erase_eq_some_iff.mp hc).2⟩
  rw [State.step]
  split
  · exact Or.inr ⟨rfl, fun _ hid => hid, id⟩
  · rw [State.enforce]
    split
    · exact Or.inr (hfinish _)
    · split
      · refine Or.inr ⟨rfl, fun _ hid => ?_, fun hc => ?_⟩
        · exact (Table.get?_put_of_ne (Nat.ne_of_lt (Nat.lt_succ_of_lt (h.calls hid)))).trans hid
        · rcases Table.get?_put_eq_some_iff.mp hc with ⟨-, hw⟩ | ⟨-, hc⟩
          · cases hw
          · exact hc
      · split
        · exact Or.inr (hfinish _)
        · split
          · exact Or.inl rfl
          · exact Or.inr (hfinish _)

/-- Whoever turns to a fetch is noted to have missed. -/
theorem missed_joinFetch (s : State) (c : Id) (e : Entity) (p : Principal) (a : Action) :
    .missed c p ∈ (s.joinFetch c e p a).journal := by
  rw [State.joinFetch]
  dsimp only
  split
  · exact List.mem_cons_of_mem _ List.mem_cons_self
  · exact List.mem_cons_of_mem _ List.mem_cons_self
  · exact List.mem_cons_of_mem _ (List.mem_cons_of_mem _ List.mem_cons_self)

/-- Nobody misses in a step unless somebody who asks in it does. -/
theorem State.Unmissed.not_joinFetch (h : Books s) {es : List Event} {e : Entity} {a : Action}
    (hm : s.Unmissed (.enforce e p a :: es) p) :
    s.step (.enforce e p a) ≠ (s.enter (.enforce e p a)).joinFetch s.next e p a := by
  intro hstep
  have hsub := ((h.run [.enforce e p a]).suffix_run es).subset
  have hjoin : ∀ {n : Note}, n ∈ ((s.enter (.enforce e p a)).joinFetch s.next e p a).journal →
      n ∈ (s.run (.enforce e p a :: es)).journal := by
    intro n hn
    exact hsub (show n ∈ (s.step (.enforce e p a)).journal from hstep ▸ hn)
  have hcalled := hm s.next e a (hjoin (joinFetch_journal List.mem_cons_self))
    (hjoin (missed_joinFetch ..))
  exact h.orderly.silent_next rfl hcalled

/-- Nobody misses in what follows if nobody misses at all. -/
theorem State.Unmissed.tail (h : Books s) {es : List Event} (hm : s.Unmissed (ev :: es) p) :
    (s.step ev).Unmissed es p :=
  fun c e a hcalled hmissed => (h.suffix_run [ev]).subset (hm c e a hcalled hmissed)

/-- **What only a miss changes stays as long as nobody misses.**  A property that is kept by every
move in which nobody asks about the principal, and by every enforcement that is settled without a
fetch, is kept until somebody misses the principal. -/
theorem unmissed_induction {P : State → Prop} {es : List Event} (h : Books s) (hs : P s)
    (hm : s.Unmissed es p)
    (move : ∀ {ev t u}, (∀ e a, ev ≠ .enforce e p a) → Books t → P t → Move ev t u → P u)
    (settled : ∀ {t u}, Books t → P t → Aside t u → P u) : P (s.run es) := by
  induction es generalizing s with
  | nil => exact hs
  | cons ev es ih =>
    refine ih (h.run [ev]) ?_ (hm.tail h)
    by_cases hev : ∃ e a, ev = .enforce e p a
    · obtain ⟨e, a, rfl⟩ := hev
      exact settled h hs ((step_enforce_cases h.orderly e p a).resolve_left (hm.not_joinFetch h))
    · have hev' : ∀ e a, ev ≠ .enforce e p a := fun e a he => hev ⟨e, a, he⟩
      exact (step_moves h.orderly ev).keeps_of_books h hs (move hev')

/-- **No fetch comes to be registered while nobody misses the principal.** -/
theorem unmissed_run (h : Books s) {es : List Event} (hm : s.Unmissed es p)
    (hf : s.fetches.get? p = none) : (s.run es).fetches.get? p = none := by
  refine unmissed_induction (P := fun t => t.fetches.get? p = none) h hf hm ?_ ?_
  · intro ev t u hev ht hnone m
    rcases m.flight ht with hstill | ⟨c, e, q, a, hev', -, rfl⟩ |
      ⟨id, call, ending, r, hid, ho, -, -, rfl⟩
    · rw [hstill.fetches, hnone]
    · refine (Table.get?_put_of_ne ?_).trans hnone
      rintro rfl
      exact hev e a hev'
    · rw [State.settleFetch_eq]
      refine (Reply.get?_unregister_of_ne ?_).trans hnone
      rintro rfl
      rw [ht.calls.registered hid ho] at hnone
      cases hnone
  · intro t u _ hnone haside
    rw [haside.fetches, hnone]

/-! ## Where nothing is registered

Whoever misses then has a call begun for itself, and what it is told depends on that call alone. -/

/-- What a caller is told that has joined the call of a fetch. -/
theorem told_of_joined (h : Books s) {e : Entity} {a : Action} {id : Id} {es : List Event}
    {ending : Ending} (hj : .joined s.next id ∈ (s.step (.enforce e p a)).journal)
    (hb : .began id p .listing .fetch ∈ (s.step (.enforce e p a)).journal)
    (hc : .called s.next (.enforce e p a) ∈ (s.step (.enforce e p a)).journal)
    (he : .ended id p ending ∈ (s.run (.enforce e p a :: es)).journal) :
    .cancelled s.next ∈ (s.run (.enforce e p a :: es)).journal
      ∨ .returned s.next ((Request.enforce e p a).outcome .fetch s.settings.backendTimeout ending)
        ∈ (s.run (.enforce e p a :: es)).journal := by
  have hrun := h.run (.enforce e p a :: es)
  have hsub := ((h.run [.enforce e p a]).suffix_run es).subset
  refine (shared_of_ended hrun (hsub hb) he s.next (hsub hj)).imp_right ?_
  rintro ⟨e', a', hcalled, hr⟩
  have hreq := hrun.callers.called_unique (hsub hc) hcalled
  injection hreq with he hp ha
  subst he ha
  rwa [h.orderly.settings_run] at hr

/-- Whoever misses a principal whose fetch is broken is taken down at once. -/
theorem step_enforce_broken (hm : s.Misses p) (hp : s.fetches.get? p = some .broken) (e : Entity)
    (a : Action) : s.step (.enforce e p a)
      = ((s.enter (.enforce e p a)).note (.missed s.next p)).finish s.next .crashed := by
  obtain ⟨hauth, hcaching⟩ := Bool.and_eq_true_iff.mp hm.active
  have hp' : ((s.enter (.enforce e p a)).note (.missed s.next p)).fetches.get? p
    = some .broken := hp
  rw [step_enforce_miss hm.there hauth hcaching hm.fetches hm.absent, State.joinFetch]
  simp only [hp']

/-- **Whoever misses a principal for which nothing is registered has a call begun for itself.** -/
theorem ownCall_of_unfetched (h : Books s) (hm : s.Misses p) (hf : s.fetches.get? p = none)
    (e : Entity) (a : Action) : OwnCall s e p a (s.next + 1) := by
  have hstep := step_enforce_start (e := e) (a := a) hm.active hm.fetches hm.there hm.absent hf
  have hb : .began (s.next + 1) p .listing .fetch ∈ (s.step (.enforce e p a)).journal := by
    rw [hstep]
    exact List.mem_cons_of_mem _ List.mem_cons_self
  have hj : .joined s.next (s.next + 1) ∈ (s.step (.enforce e p a)).journal := by
    rw [hstep]
    exact List.mem_cons_self
  have hc : .called s.next (.enforce e p a) ∈ (s.step (.enforce e p a)).journal := by
    rw [hstep]
    exact List.mem_cons_of_mem _
      (List.mem_cons_of_mem _ (List.mem_cons_of_mem _ List.mem_cons_self))
  exact ⟨not_begun h.orderly (List.Subset.refl _) (Nat.le_succ _), hb, hj,
    fun es o hr => joined_run h hj hb hc hr, fun es ending he => told_of_joined h hj hb hc he⟩

end

end Gatekeeper.Engine

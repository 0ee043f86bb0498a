import Gatekeeper.Proofs.Decision
import Gatekeeper.Proofs.SingleFlight

/-!
# Where nothing crashes

Whoever asks to enforce something is taken down by the crash of the call that decides on it, or by a
fetch that a crash has broken before.  Where no call crashes, nobody who asks is taken down.

* `Event.crashes`, `Unharmed` — a call crashes; no call has crashed so far.
* `settled_or_joined` — an enforcement is settled at once, or joins the call that decides on it.
* `outcome_of_enforce` — what an enforcement can come to.
* `enforce_spared` — where nothing has crashed an enforcement does not either.

The outcomes that are possible at all are listed first, and a crash is among them.  That it needs
the crash of a call is then an invariant of runs.
-/

set_option autoImplicit false

namespace Gatekeeper.Engine

/-- A call crashes. -/
def Event.crashes : Event → Bool
  | .answer _ .crashed | .verdict _ .crashed => true
  | _ => false

/-- No call has crashed, and so no fetch is broken. -/
structure Unharmed (s : State) : Prop where
  unbroken : Unbroken s
  listed : Uncrashed s
  checked : ∀ id p, .ended id p (.checked .crashed) ∉ s.journal

section

variable {s t : State} {e : Entity} {p : Principal} {a : Action} {es : List Event}

theorem Unharmed.initial (settings : Settings) (checks : Bool) :
    Unharmed (.initial settings checks) where
  unbroken p := by simp [State.initial]
  listed _ _ := List.not_mem_nil
  checked _ _ := List.not_mem_nil

theorem Unharmed.run (h : Books s) (hi : Unharmed s) (hes : ∀ ev ∈ es, ev.crashes = false) :
    Unharmed (s.run es) where
  unbroken := hi.unbroken.run h fun id hev => by simpa [Event.crashes] using hes _ hev
  listed := hi.listed.run h fun id hev => by simpa [Event.crashes] using hes _ hev
  checked := by
    refine h.run_induction (P := fun t => ∀ id p, .ended id p (.checked .crashed) ∉ t.journal)
      hi.checked ?_
    intro ev hev t u hb hchecked m id p he
    rcases (m.touch hb).ended he with he | ⟨call, -, -, hk⟩
    · exact hchecked id p he
    · cases hk with
      | list hends => exact hends.not_checked _ rfl
      | verdict hverdict =>
        have hcrash := hes ev hev
        rw [hverdict] at hcrash
        cases hcrash

/-! ## Enforcements

An enforcement that is not settled at once depends on one call, and is taken down only if that
call is. -/

/-- An enforcement is settled at once, and crashes only if a crash has broken the fetch that it
turns to; or it joins a call. -/
theorem settled_or_joined (h : Books s) (hd : s.dropped = false) (e : Entity) (p : Principal)
    (a : Action) :
    (∃ (u : State) (o : Outcome),
        thread Note.caller? s.next u.journal = [.called s.next (.enforce e p a)]
        ∧ s.step (.enforce e p a) = u.finish s.next o
        ∧ (o = .crashed → s.fetches.get? p = some .broken))
      ∨ ∃ id q ow, .called s.next (.enforce e p a) ∈ (s.step (.enforce e p a)).journal
        ∧ .joined s.next id ∈ (s.step (.enforce e p a)).journal
        ∧ .began id p q ow ∈ (s.step (.enforce e p a)).journal := by
  have hthread := thread_enter h (.enforce e p a)
  by_cases ha : s.settings.authorization = true
  case neg =>
    refine Or.inl ⟨s.enter (.enforce e p a), .allowed, hthread, ?_, fun ho => by cases ho⟩
    have hs : (s.enter (.enforce e p a)).settings = s.settings := rfl
    simp [State.step, State.enforce, hd, hs, ha]
  by_cases hc : s.settings.caching = true
  case neg =>
    have ht := step_enforce_direct (e := e) (p := p) (a := a) hd ha (Bool.not_eq_true _ ▸ hc)
    rw [ht]
    exact Or.inr ⟨_, _, _, List.mem_cons_of_mem _ (List.mem_cons_of_mem _ List.mem_cons_self),
      List.mem_cons_of_mem _ List.mem_cons_self, List.mem_cons_self⟩
  cases hp : s.cache.get? p with
  | some S =>
    refine Or.inl ⟨_, _, hthread, step_enforce_hit hd ha hc hp, fun ho => ?_⟩
    rw [State.decision] at ho
    split at ho <;> cases ho
  | none =>
    by_cases hf : s.settings.fetchOnMiss = true
    case neg =>
      rw [Bool.not_eq_true] at hf
      exact Or.inl ⟨_, _, hthread, step_enforce_unfetched hd ha hc hf hp, fun ho => by cases ho⟩
    have ht := step_enforce_miss (e := e) (a := a) hd ha hc hf hp
    rcases joined_or_crashed h ht with ⟨hbroken, hcrash⟩ | ⟨id, hj, hb⟩
    · exact Or.inl ⟨_, _, (thread_cons_of_none rfl).trans hthread, hcrash, fun _ => hbroken⟩
    · refine Or.inr ⟨id, _, _, ?_, hj, hb⟩
      rw [ht]
      exact joinFetch_journal List.mem_cons_self

/-- Whoever asks next asks in its own name. -/
theorem called_enforce (h : Books s) (hd : s.dropped = false) (e : Entity) (p : Principal)
    (a : Action) : .called s.next (.enforce e p a) ∈ (s.step (.enforce e p a)).journal := by
  rcases settled_or_joined h hd e p a with ⟨u, o, hu, ht, -⟩ | ⟨_, _, _, hc, -⟩
  · rw [ht]
    refine List.mem_cons_of_mem _ (mem_thread (k := Note.caller?) (i := s.next).mp ?_).1
    rw [hu]
    exact List.mem_cons_self
  · exact hc

/-- Whoever asks to enforce something is told that it is allowed, that it is denied or that the
backend is unavailable, or is taken down by a crash. -/
theorem outcome_of_enforce (h : Books s) {c : Id} {o : Outcome}
    (hc : .called c (.enforce e p a) ∈ s.journal) (ho : .returned c o ∈ s.journal) :
    o = .allowed ∨ o = .failed (.permissionDenied p e a)
      ∨ (∃ cause, o = .failed (.backendUnavailable cause)) ∨ o = .crashed := by
  have hf := h.callers.fits hc ho
  cases o with
  | allowed => exact Or.inl rfl
  | failed error =>
    rcases hf with rfl | ⟨cause, rfl⟩
    · exact Or.inr (Or.inl rfl)
    · exact Or.inr (Or.inr (Or.inl ⟨cause, rfl⟩))
  | crashed => exact Or.inr (Or.inr (Or.inr rfl))
  | _ => cases hf

/-- Only a call that crashes takes those down who have joined it. -/
theorem ending_of_crashed {o : Owner} {limit : Span} {ending : Ending}
    (h : (Request.enforce e p a).outcome o limit ending = .crashed) :
    ending = .listed .crashed ∨ ending = .checked .crashed := by
  rcases ending with (S | cause | _) | (b | cause | _) | _
  · rw [Request.outcome, Request.answer, State.decision] at h
    split at h <;> cases h
  · cases h
  · exact Or.inl rfl
  · cases b <;> cases h
  · cases h
  · exact Or.inr rfl
  · cases h

/-- **Where no call crashes, no enforcement does.** -/
theorem enforce_spared (h : Books s) (hi : Unharmed s) (hd : s.dropped = false)
    (hes : ∀ ev ∈ es, ev.crashes = false) :
    .returned s.next .crashed ∉ (s.run (.enforce e p a :: es)).journal := by
  intro hr
  rcases settled_or_joined h hd e p a with ⟨u, o, hu, ht, hcrash⟩ | ⟨id, q, ow, hc, hj, hb⟩
  · obtain ⟨rfl, -⟩ := answered_run h es hu ht hr
    exact hi.unbroken p (hcrash rfl)
  · obtain ⟨ending, he, ho⟩ := joined_run h hj hb hc hr
    have hafter : Unharmed (s.run (.enforce e p a :: es)) :=
      hi.run h (List.forall_mem_cons.mpr ⟨rfl, hes⟩)
    rcases ending_of_crashed ho.symm with rfl | rfl
    · exact hafter.listed id p he
    · exact hafter.checked id p he

end

end Gatekeeper.Engine

import Gatekeeper.Proofs.Clock
import Gatekeeper.Proofs.Miss
import Gatekeeper.Proofs.Provenance
import Gatekeeper.Proofs.Turnaround

/-!
# What a call comes to, and when

Whoever has a call made, a caller, a fetch or a pass, waits for it in the same way: until the
backend answers, or until the time is up, and an answer that comes at the last moment still counts.
So a call whose latency is not longer than the limit comes to what the backend says, and any other
comes to a timeout, exactly when the limit has run out; and of a timeout nothing comes but that it
is reported as such.

* `Site.said` — what the backend says to a call.
* `Site.awaits` — runs in which nobody interrupts a call and no moment passes at which its owner has
  something to see.
* `Site.Sits` — a call that is under way, and how long it will be; the acts of such runs keep it.
* `Site.ComesTo`, `Site.Fruitless` — what the end of a call, and what a timeout, means to everybody.
* `Site.Bounded`, `timeout_law` — the law, for every call that begins in a run.

The invariant is `Site.Sits`.  It says of one call how long it will sit in the backend, how long
it may, and that the clock is not past the moment at which the shorter of the two is over.  Acts
that are not about the call keep it since they alter neither the call nor what the backend knows
of it; the act in which the owner looks ends the call at that moment and at no other; and time
goes on to that moment at the most, because a run in which it went further would have kept the
owner waiting.

Ties are part of the law.  If the latency and the limit are the same, then at that moment the
answer is there and the time is up, and the owner looks for the answer first.
-/

set_option autoImplicit false

namespace Gatekeeper

open Engine

theorem Span.ceilMillis_of_millis {s : Span} {n : Nat} (h : s.nanos = n * nanosPerMilli) :
    s.ceilMillis = n := by
  rw [Span.ceilMillis, h, nanosPerMilli]
  omega

/-! ## A call begins

A call is begun in some step, by an engine that then tells its backend of it.  From that moment
the backend knows how long it will take, and the call knows its deadline. -/

theorem Backend.Same.latency {b b' : Backend} (h : b.Same b') (p : Principal) :
    b'.latency p = b.latency p := by
  rw [Backend.latency, Backend.latency, h.kind, h.script]

namespace Engine

variable {s : State} {ev : Event} {id : Id} {call : Call}

/-- A call that is new after a step has begun in it, at the one moment of the step. -/
theorem step_begun (h : Orderly s) (hnew : s.next ≤ id)
    (hid : (s.step ev).calls.get? id = some call) : Begins ev call.principal call.owner
      ∧ call.begun = s.now ∧ call.deadline = s.now + s.settings.backendTimeout.ceilMillis := by
  have hkept : s.now ≤ (s.step ev).now ∧ (s.step ev).settings = s.settings
      ∧ ((s.step ev).calls.get? id = some call → Begins ev call.principal call.owner
        ∧ s.now ≤ call.begun ∧ call.begun ≤ (s.step ev).now
        ∧ call.deadline = call.begun + s.settings.backendTimeout.ceilMillis) := by
    refine (step_moves h ev).keeps (P := fun t => s.now ≤ t.now ∧ t.settings = s.settings
      ∧ (t.calls.get? id = some call → Begins ev call.principal call.owner
        ∧ s.now ≤ call.begun ∧ call.begun ≤ t.now
        ∧ call.deadline = call.begun + s.settings.backendTimeout.ceilMillis)) h
      ⟨Nat.le_refl _, rfl, fun hid => absurd (h.calls hid) (Nat.not_lt_of_le hnew)⟩ ?_
    rintro t u - ⟨hnow, hsettings, hcall⟩ m
    refine ⟨Nat.le_trans hnow m.now_le, m.settings.trans hsettings, fun hid => ?_⟩
    rcases m.begun hid with hid | ⟨-, hev, htimed⟩
    · obtain ⟨hev, hle, hle', hdeadline⟩ := hcall hid
      exact ⟨hev, hle, Nat.le_trans hle' m.now_le, hdeadline⟩
    · refine ⟨hev, htimed.begun ▸ hnow, htimed.begun ▸ m.now_le, ?_⟩
      rw [htimed.deadline, htimed.begun, hsettings]
  obtain ⟨hev, hle, hle', hdeadline⟩ := hkept.2.2 hid
  have hnow : (s.step ev).now = s.now := by
    refine step_now s fun millis he => ?_
    rw [he] at hev
    cases hev
  have hbegun : call.begun = s.now := Nat.le_antisymm (hnow ▸ hle') hle
  exact ⟨hev, hbegun, hbegun ▸ hdeadline⟩

/-- A call that is new after a step is looked after. -/
theorem attended_of_begun (h : Books s) (hnew : s.next ≤ id)
    (hid : (s.step ev).calls.get? id = some call) : (s.step ev).attended call = true := by
  cases ho : call.owner with
  | fetch =>
    obtain ⟨hev, -⟩ := step_begun h.orderly hnew hid
    rw [ho] at hev
    obtain ⟨e, p, a, rfl, hp⟩ : ∃ e p a, ev = .enforce e p a ∧ call.principal = p := by
      generalize call.principal = p at hev
      cases hev with
      | fetch e p a => exact ⟨e, p, a, rfl, rfl⟩
    have hold : s.fetches.get? p ≠ some (.underway id) := fun hunderway => by
      obtain ⟨call', hid', -⟩ := h.calls.underway hunderway
      exact absurd (h.orderly.calls hid') (Nat.not_lt_of_le hnew)
    have hregistered : (s.step (.enforce e p a)).fetches.get? p = some (.underway id) :=
      hp ▸ (h.run [.enforce e p a]).calls.registered hid ho
    rw [State.attended, ho, hp]
    dsimp only
    rw [State.awaited_iff]
    rcases step_enforce_cases h.orderly e p a with hstep | haside
    · -- a fetch is registered only for somebody who waits for it
      rw [hstep, State.joinFetch] at hregistered ⊢
      dsimp only at hregistered ⊢
      split at hregistered
      · exact absurd hregistered hold
      · exact absurd hregistered hold
      · exact ⟨s.next, e, a, Table.get?_put_self⟩
    · rw [haside.fetches] at hregistered
      exact absurd hregistered hold
  | update c | direct c e a | pass n => rw [State.attended, ho]

/-- A verdict ends the call of a check. -/
theorem ended_verdict (h : Books s) (hid : s.calls.get? id = some call) {e : Entity} {a : Action}
    (hq : call.question = .check e a) (r : Reply Bool) :
    .ended id call.principal (.checked r) ∈ (s.step (.verdict id r)).journal := by
  have hcaller : call.owner.caller? ≠ none := by
    intro hnone
    rw [h.calls.listing hid hnone] at hq
    cases hq
  cases ho : call.owner with
  | fetch | pass n => simp [ho, Owner.caller?] at hcaller
  | update c =>
    obtain ⟨-, r, -, hmakes⟩ := h.callers.owners (c := c) hid (by rw [ho]; rfl)
    rw [ho] at hmakes
    rw [hmakes.listing_of_update] at hq
    cases hq
  | direct c e' a' =>
    rw [State.step, State.verdict, hid]
    simp only [ho, hq]
    rw [State.settleDirect_eq]
    exact List.mem_cons_of_mem _ List.mem_cons_self

end Engine

namespace Site

variable {s t : Site} {id : Id} {p : Principal} {call : Call} {latency limit : Nat}

/-- A call of which nothing is said but that it begins sits through its latency from then on. -/
theorem readyAt?_inform_began {now : Nat} {b : Backend} {l : List Note} {q : Question} {o : Owner}
    (hb : b.readyAt? (.call id) = none) (hl : thread Note.call? id l = [.began id p q o]) :
    (l.foldr (fun n b => inform now b n) b).readyAt? (.call id)
      = if b.latency p = 0 then none else some (now + b.latency p) := by
  induction l with
  | nil => cases hl
  | cons n l ih =>
    by_cases hn : n.call? = some id
    · rw [thread_cons_self hn, List.cons.injEq] at hl
      obtain ⟨rfl, hrest⟩ := hl
      have hsilent : ∀ m ∈ l, m.call? ≠ some id := fun m hm hc =>
        List.not_mem_nil (hrest ▸ mem_thread.mpr ⟨hm, hc⟩)
      rw [List.foldr_cons, inform, Backend.readyAt?_begin, (inform_same now b l).latency]
      rw [readyAt?_inform now b hsilent, hb]
    · rw [thread_cons_of_ne hn] at hl
      refine Eq.trans ?_ (ih hl)
      have hsilent : ∀ m ∈ [n], m.call? ≠ some id := by simpa using hn
      exact readyAt?_inform now _ hsilent

/-- A call that begins in an event sits through its latency from then on. -/
theorem readyAt?_ask {ev : Event} {q : Question} {o : Owner}
    (hb : s.backend.readyAt? (.call id) = none) (hold : thread Note.call? id s.journal = [])
    (hl : thread Note.call? id (s.ask ev).journal = [.began id p q o]) :
    (s.ask ev).backend.readyAt? (.call id) = if s.backend.latency p = 0 then none
      else some ((s.ask ev).engine.now + s.backend.latency p) := by
  rw [Site.ask, thread_append, hold, List.append_nil] at hl
  exact readyAt?_inform_began hb hl

/-! ## Acts

An act on an engine and its backend comes down to an event for the engine.  When the owner of a
call looks, that event is the answer if the backend is ready, and otherwise the end of the time
if it has come; nothing else ends a call that is awaited. -/

theorem run_append (s : Site) (l l' : List Act) : s.run (l ++ l') = (s.run l).run l' :=
  List.foldl_append ..

/-- What the backend says to the call at this moment. -/
def said (s : Site) (call : Call) : Ending :=
  match call.question with
  | .listing => .listed (s.backend.list call.principal).2
  | .check e a => .checked (s.backend.verdict e call.principal a).2

/-- The event that it is for the engine when the owner of the call looks. -/
inductive Looks (s : Site) (id : Id) (call : Call) : Event → Prop
  | listed (hq : call.question = .listing)
    (hready : s.backend.ready (.call id) s.engine.now = true) :
    Looks s id call (.answer id (s.backend.list call.principal).2)
  | checked {e : Entity} {a : Action} (hq : call.question = .check e a)
    (hready : s.backend.ready (.call id) s.engine.now = true) :
    Looks s id call (.verdict id (s.backend.verdict e call.principal a).2)
  | late (hready : s.backend.ready (.call id) s.engine.now = false) : Looks s id call (.expire id)

/-! ### The owner looks

Whoever waits for a call looks for the answer, and only if there is none at the clock. -/

/-- The owner of a call looks, if it looks after the call at all. -/
theorem whole_poll (hid : s.engine.calls.get? id = some call) :
    s.engine.attended call = false ∧ s.poll id = s
      ∨ s.engine.attended call = true
        ∧ ∃ ev, Looks s id call ev ∧ (s.poll id).whole = s.whole.step ev := by
  rw [poll, hid]
  dsimp only
  cases s.engine.attended call with
  | false => exact Or.inl ⟨rfl, rfl⟩
  | true =>
    refine Or.inr ⟨rfl, ?_⟩
    cases hready : s.backend.ready (.call id) s.engine.now with
    | false => exact ⟨_, .late hready, whole_ask s _⟩
    | true =>
      cases hq : call.question with
      | listing => exact ⟨_, .listed hq hready, whole_ask { s with backend := _ } _⟩
      | check e a => exact ⟨_, .checked hq hready, whole_ask { s with backend := _ } _⟩

/-- To look takes no time. -/
theorem now_poll (s : Site) (id : Id) : (s.poll id).engine.now = s.engine.now := by
  cases hid : s.engine.calls.get? id with
  | none => rw [poll, hid]
  | some call =>
    rcases whole_poll hid with ⟨-, hs⟩ | ⟨-, ev, hev, hs⟩
    · rw [hs]
    · have hnow : (s.poll id).whole.now = s.whole.now := by
        rw [hs]
        exact step_now s.whole fun millis he => by subst he; cases hev
      exact hnow

/-- Calls end when their owners look, and no other way. -/
theorem InOrder.poll_of_ended (h : s.InOrder) {act : Act} {ending : Ending}
    (hn : .ended id p ending ∉ s.journal) (he : .ended id p ending ∈ (s.act act).journal) :
    act = .poll id := by
  rcases s.whole_act act with ⟨hi, -⟩ | ⟨ev, hev, hs⟩
  · exact absurd (hi.journal ▸ he) hn
  · have he' : .ended id p ending ∈ (s.whole.step ev).journal := hs ▸ he
    obtain ⟨call, -, -, hcheck⟩ := step_ended h.books hn he'
    have hevent : (∃ r, ev = .answer id r) ∨ ev = .expire id ∨ ∃ r, ev = .verdict id r := by
      cases hcheck with
      | list hends =>
        cases hends with
        | answer hev => exact Or.inl ⟨_, hev⟩
        | expire hev => exact Or.inr (Or.inl hev)
      | verdict hev => exact Or.inr (Or.inr ⟨_, hev⟩)
    rcases hevent with ⟨r, rfl⟩ | rfl | ⟨r, rfl⟩ <;> cases hev with
    | ask hends => cases hends
    | _ => rfl

/-- How a call has ended when its owner has looked. -/
inductive Closes (s : Site) (id : Id) (call : Call) : Ending → Prop
  | answered (hready : s.backend.ready (.call id) s.engine.now = true) :
    Closes s id call (s.said call)
  | late (hready : s.backend.ready (.call id) s.engine.now = false)
    (hlate : call.deadline ≤ s.engine.now) : Closes s id call .timedOut

/-- What the owner sees is how the call ends, if it ends. -/
theorem Looks.closes {ev : Event} {ending : Ending} (h : Looks s id call ev)
    (hcheck : Checks ev s.whole id call ending) : Closes s id call ending := by
  cases h with
  | listed hq hready =>
    have hsaid : s.said call = .listed (s.backend.list call.principal).2 := by rw [said, hq]
    cases hcheck with
    | list hends =>
      cases hends with
      | answer heq _ =>
        cases heq
        exact hsaid ▸ .answered hready
      | expire heq _ => cases heq
    | verdict heq _ => cases heq
  | @checked e a hq hready =>
    have hsaid : s.said call = .checked (s.backend.verdict e call.principal a).2 := by rw [said, hq]
    cases hcheck with
    | list hends => cases hends with
      | answer heq _ => cases heq
      | expire heq _ => cases heq
    | verdict heq _ =>
      cases heq
      exact hsaid ▸ .answered hready
  | late hready =>
    cases hcheck with
    | list hends => cases hends with
      | answer heq _ => cases heq
      | expire _ hlate => exact .late hready hlate
    | verdict heq _ => cases heq

/-- **What ends, ends with what the backend says**, if it is ready to answer, and otherwise because
the time is up. -/
theorem InOrder.closes (h : s.InOrder) {act : Act} {ending : Ending}
    (hn : .ended id p ending ∉ s.journal) (he : .ended id p ending ∈ (s.act act).journal) :
    ∃ call ev, s.engine.calls.get? id = some call ∧ call.principal = p
      ∧ s.engine.attended call = true ∧ (s.act act).whole = s.whole.step ev
      ∧ Checks ev s.whole id call ending ∧ Closes s id call ending := by
  obtain rfl := h.poll_of_ended hn he
  have hsome : s.engine.calls.get? id ≠ none := by
    intro hnone
    rw [Site.act, poll, hnone] at he
    exact hn he
  obtain ⟨call, hid⟩ := Option.ne_none_iff_exists'.mp hsome
  rcases whole_poll hid with ⟨-, hs⟩ | ⟨hatt, ev, hev, hs⟩
  · rw [Site.act, hs] at he
    exact absurd he hn
  · have he' : .ended id p ending ∈ (s.whole.step ev).journal := hs ▸ he
    obtain ⟨call', hid', hp, hcheck⟩ := step_ended h.books hn he'
    obtain rfl : call = call' := Option.some_inj.mp (hid.symm.trans hid')
    exact ⟨call, ev, hid, hp, hatt, hs, hcheck, hev.closes hcheck⟩

/-! ## Calls that are awaited

`Site.awaits` is a condition on runs that can be computed: nobody gives up on the call, and time
never goes past a moment at which there is something to see.  As long as it holds, `Sits` is kept
by every act, and the moment at which the call must end can be read off it. -/

/-- The call is looked after, if it is under way. -/
def tends (s : Site) (id : Id) : Bool := (s.engine.calls.get? id).all s.engine.attended

/-- Nobody interrupts the call, and at no moment at which its owner has something to see does time
go on. -/
def awaits (s : Site) (id : Id) : List Act → Bool
  | [] => s.tends id
  | act :: acts => s.tends id && s.rests id (s.act act).engine.now && (s.act act).awaits id acts

theorem awaits_cons {act : Act} {acts : List Act} : s.awaits id (act :: acts) = true ↔
    s.tends id = true ∧ s.rests id (s.act act).engine.now = true
      ∧ (s.act act).awaits id acts = true := by
  rw [awaits, Bool.and_eq_true_iff, Bool.and_eq_true_iff, and_assoc]

theorem tends_of_awaits {acts : List Act} (h : s.awaits id acts = true) : s.tends id = true := by
  cases acts with
  | nil => exact h
  | cons act acts => exact (awaits_cons.mp h).1

theorem attended_of_tends (h : s.tends id = true) (hid : s.engine.calls.get? id = some call) :
    s.engine.attended call = true := by
  rwa [tends, hid] at h

theorem awaits_append {l l' : List Act} : s.awaits id (l ++ l') = true ↔
    s.awaits id l = true ∧ (s.run l).awaits id l' = true := by
  induction l generalizing s with
  | nil => exact ⟨fun h => ⟨tends_of_awaits h, h⟩, And.right⟩
  | cons act l ih =>
    rw [List.cons_append, awaits_cons, awaits_cons, ih, and_assoc, and_assoc]
    rfl

/-- Call `id` may take `limit` milliseconds and will sit in the backend for `latency`.  As long as
it is under way, time has not run past the moment at which its owner has something to see. -/
structure Sits (s : Site) (id : Id) (call : Call) (latency limit : Nat) : Prop where
  known : id < s.engine.next
  began : .began id call.principal call.question call.owner ∈ s.journal
  deadline : call.deadline = call.begun + limit
  since : call.begun ≤ s.engine.now
  same : ∀ {call'}, s.engine.calls.get? id = some call' → call' = call
  sits : s.engine.calls.get? id ≠ none → s.backend.readyAt? (.call id)
    = if latency = 0 then none else some (call.begun + latency)
  before : s.engine.calls.get? id ≠ none → s.engine.now ≤ call.begun + min latency limit

namespace Sits

theorem ready_iff (h : s.Sits id call latency limit) (hid : s.engine.calls.get? id ≠ none) :
    s.backend.ready (.call id) s.engine.now = true ↔ call.begun + latency ≤ s.engine.now := by
  rw [Backend.ready, h.sits hid]
  split
  · rename_i hzero
    simpa [hzero] using h.since
  · simp

/-- Time cannot run past the moment at which there is something to see. -/
theorem rest (h : s.Sits id call latency limit) (hid : s.engine.calls.get? id = some call)
    (htends : s.tends id = true) {till : Nat} (hrest : s.rests id till = true) :
    till ≤ call.begun + min latency limit := by
  have hsome : s.engine.calls.get? id ≠ none := by simp [hid]
  rw [rests, Bool.or_eq_true_iff, beq_iff_eq, Bool.and_eq_true_iff, Bool.not_eq_true'] at hrest
  rcases hrest with hnow | ⟨hdue, hall⟩
  · exact hnow ▸ h.before hsome
  · have hnot : ¬ s.backend.ready (.call id) s.engine.now = true := by
      simp only [Site.due, hid, attended_of_tends htends hid, Bool.true_and,
        Bool.or_eq_false_iff] at hdue
      simp [hdue.1]
    have hzero : latency ≠ 0 := by
      rintro rfl
      exact hnot ((h.ready_iff hsome).mpr h.since)
    simp only [dueAt?, hid, Option.map_some, h.sits hsome, if_neg hzero, Option.all_some,
      decide_eq_true_iff, h.deadline] at hall
    omega

/-- Time can run up to that moment. -/
theorem rests_till (h : s.Sits id call latency limit) (hid : s.engine.calls.get? id = some call) :
    s.rests id (call.begun + min latency limit) = true := by
  have hsome : s.engine.calls.get? id ≠ none := by simp [hid]
  rw [rests, Bool.or_eq_true_iff, beq_iff_eq]
  rcases Nat.eq_or_lt_of_le (h.before hsome) with hnow | hnow
  · exact Or.inl hnow
  · have hnot : ¬ s.backend.ready (.call id) s.engine.now = true := by
      rw [h.ready_iff hsome]
      omega
    have hearly : ¬ call.deadline ≤ s.engine.now := by
      rw [h.deadline]
      omega
    have hsince := h.since
    have hdeadline := h.deadline
    have hzero : latency ≠ 0 := by omega
    refine Or.inr (Bool.and_eq_true_iff.mpr ⟨?_, ?_⟩)
    · simp [Site.due, hid, hnot, hearly]
    · simp only [dueAt?, hid, Option.map_some, h.sits hsome, if_neg hzero, Option.all_some,
        decide_eq_true_iff]
      omega

/-- **An act keeps the call as it is**, if it does not keep its owner waiting. -/
theorem act (hs : s.InOrder) (h : s.Sits id call latency limit) (htends : s.tends id = true)
    {act : Act} (hrest : s.rests id (s.act act).engine.now = true) :
    (s.act act).Sits id call latency limit := by
  have hkept : (s.act act).engine.calls.get? id ≠ none → s.engine.calls.get? id = some call
      ∧ (s.act act).engine.calls.get? id = some call := by
    intro hsome
    obtain ⟨call', hid'⟩ := Option.ne_none_iff_exists'.mp hsome
    have hid := hs.call_of_act h.known hid'
    obtain rfl := h.same hid
    exact ⟨hid, hid'⟩
  refine ⟨Nat.lt_of_lt_of_le h.known (hs.next_le_act act), (hs.suffix_act act).subset h.began,
    h.deadline, Nat.le_trans h.since (hs.now_le_act act),
    fun hid => h.same (hs.call_of_act h.known hid), fun hsome => ?_, fun hsome => ?_⟩
  · obtain ⟨hid, hid'⟩ := hkept hsome
    rw [hs.sits_act hid' hid]
    exact h.sits (by simp [hid])
  · exact h.rest (hkept hsome).1 htends hrest

/-- **The call stays as it is** as long as it is awaited. -/
theorem run (hs : s.InOrder) (h : s.Sits id call latency limit) {acts : List Act}
    (hacts : s.awaits id acts = true) : (s.run acts).Sits id call latency limit := by
  induction acts generalizing s with
  | nil => exact h
  | cons act acts ih =>
    obtain ⟨htends, hrest, hacts⟩ := awaits_cons.mp hacts
    exact ih (hs.act act) (h.act hs htends hrest) hacts

/-- A call that ends before time has run past that moment ends at that moment, with the answer
unless that takes longer than it may. -/
theorem closes (h : s.Sits id call latency limit) (hid : s.engine.calls.get? id ≠ none)
    {ending : Ending} (he : Closes s id call ending) :
    s.engine.now = call.begun + min latency limit
      ∧ ending = if latency ≤ limit then s.said call else .timedOut := by
  have hbefore := h.before hid
  cases he with
  | answered hready =>
    have hnow := (h.ready_iff hid).mp hready
    have hle : latency ≤ limit := by omega
    exact ⟨by omega, (if_pos hle).symm⟩
  | late hready hlate =>
    have hnow : ¬ call.begun + latency ≤ s.engine.now := by
      rw [← h.ready_iff hid, hready]
      exact Bool.false_ne_true
    have hdeadline := h.deadline
    have hlt : ¬ latency ≤ limit := by omega
    exact ⟨by omega, (if_neg hlt).symm⟩

end Sits

/-- A call that begins in an act is looked after, and sits from then on for as long as the backend
takes. -/
theorem InOrder.sits (hs : s.InOrder) {act : Act} (hnew : s.engine.next ≤ id)
    (hid : (s.act act).engine.calls.get? id = some call) :
    (s.act act).Sits id call (s.backend.latency call.principal)
      s.engine.settings.backendTimeout.ceilMillis
    ∧ (s.act act).tends id = true ∧ call.begun = s.engine.now
    ∧ (s.act act).engine.now = s.engine.now := by
  have hbooks : Books (s.act act).whole := (hs.act act).books
  have hthread := hbooks.calls.thread_of_get? hid
  have hknown : id < (s.act act).engine.next := hbooks.orderly.calls hid
  have hbegan : .began id call.principal call.question call.owner ∈ (s.act act).journal :=
    hbooks.calls.began_of_get? hid
  rcases s.act_cases act with hi | ⟨ev, n, -, hact⟩
  · rw [hi.engine] at hknown
    exact absurd hknown (Nat.not_lt_of_le hnew)
  · have hwhole : (s.act act).whole = s.whole.step ev := hact ▸ whole_ask _ ev
    have hid' : (s.whole.step ev).calls.get? id = some call := hwhole ▸ hid
    obtain ⟨hev, hbegun, hdeadline⟩ := step_begun hs.books.orderly hnew hid'
    have hnow : (s.act act).engine.now = s.engine.now := by
      have hstep : (s.act act).whole.now = s.whole.now := by
        rw [hwhole]
        refine step_now s.whole fun millis he => ?_
        rw [he] at hev
        cases hev
      exact hstep
    have htends : (s.act act).tends id = true := by
      have hatt : (s.act act).whole.attended call = true :=
        hwhole ▸ attended_of_begun hs.books hnew hid'
      rw [tends, hid]
      exact hatt
    refine ⟨⟨hknown, hbegan, hbegun ▸ hdeadline, Nat.le_of_eq (hbegun.trans hnow.symm),
      fun hid'' => (Option.some_inj.mp (hid.symm.trans hid'')).symm, fun _ => ?_, fun _ => ?_⟩,
      htends, hbegun, hnow⟩
    · have hold : thread Note.call? id s.journal = [] := by
        refine thread_eq_nil fun m hm hc => ?_
        exact absurd (hs.books.orderly.notes m hm id (Note.mem_ids_of_call? hc))
          (Nat.not_lt_of_le hnew)
      obtain ⟨u, hu, hj, hb, hl⟩ : ∃ u : Site, s.act act = u.ask ev ∧ u.journal = s.journal
          ∧ u.backend.readyAt? (.call id) = none
          ∧ u.backend.latency call.principal = s.backend.latency call.principal :=
        ⟨_, hact, rfl, hs.fresh id hnew, rfl⟩
      have hsits := readyAt?_ask hb (hj ▸ hold) (hu ▸ hthread)
      rwa [← hu, hnow, hl, ← show call.begun = s.engine.now from hbegun] at hsits
    · rw [hnow, hbegun]
      exact Nat.le_add_right _ _

/-! ## What the end of a call means

The end of a call matters to different people: to callers who wait, to the cache, to the pass
that made it.  A pass does not look at a result in the step in which it lands, so what is said of
passes reaches beyond that step, up to the one in which the pass looks. -/

/-- The pass has come to this report: it has ended with it, or goes on from there. -/
def Counts (s : Site) (n : Id) (report : Report) : Prop :=
  .passFinished n report ∈ s.journal
    ∨ ∃ pass, s.engine.passes.get? n = some pass ∧ pass.report = report

/-- Call `id` ends between `s` and `t`, and everybody who has an interest in it gets to know it. -/
structure ComesTo (s t : Site) (id : Id) (call : Call) (ending : Ending) : Prop where
  ended : .ended id call.principal ending ∈ t.journal
  /-- Whoever waits for the call, and there may be any number of them, is told what comes of it, and
  has been told nothing before. -/
  told : ∀ {c}, .joined c id ∈ s.journal → .cancelled c ∉ t.journal →
    (∀ o, .returned c o ∉ s.journal) ∧ ∃ r, .called c r ∈ s.journal
      ∧ .returned c (r.outcome call.owner s.engine.settings.backendTimeout ending) ∈ t.journal
  /-- A pass finds it among what has landed. -/
  landed : ∀ {n}, call.owner = .pass n → ∃ pass r, t.engine.passes.get? n = some pass
    ∧ ⟨call.principal, id, r⟩ ∈ pass.landed ∧ (ending = .listed r ∨ ending = .timedOut
      ∧ r = .failed (.timedOut "list_privileges" s.engine.settings.backendTimeout))
  /-- What a fetch or an update has listed is the entry. -/
  entry : ∀ {S}, ending = .listed (.value S) → (call.owner = .fetch ∨ ∃ c, call.owner = .update c) →
    t.engine.cache.get? call.principal = some S
  /-- A pass that looks at a list makes it the entry and counts a success. -/
  refreshed : ∀ {n S}, call.owner = .pass n → ending = .listed (.value S) → ∀ acts pass,
    let u := t.run acts
    let v := u.act (.ask (.collect n call.principal))
    u.engine.passes.get? n = some pass → u.engine.halted pass = false →
    ⟨call.principal, id, .value S⟩ ∈ pass.landed →
      v.engine.cache.get? call.principal = some S
      ∧ .stored call.principal S (.call id (.pass n)) ∈ v.journal
      ∧ v.Counts n { pass.report with refreshed := pass.report.refreshed + 1 }

/-- Call `id` has timed out between `s` and `t`, and nothing comes of it. -/
structure Fruitless (s t : Site) (id : Id) (call : Call) : Prop where
  /-- Whoever waits for the call is told that the backend has not answered in time: not that there
  are no privileges, and not that the action is denied. -/
  told : ∀ {c}, .joined c id ∈ s.journal → .cancelled c ∉ t.journal →
    .returned c (.failed (.backendUnavailable
      (.timedOut call.owner.operation s.engine.settings.backendTimeout))) ∈ t.journal
  cache : t.engine.cache = s.engine.cache
  /-- Nothing is ever stored for it, an empty set or another. -/
  unread : ∀ acts p S o, .stored p S (.call id o) ∉ (t.run acts).journal
  /-- A pass that looks at it counts a failure, reports it and leaves the cache as it is. -/
  counted : ∀ {n}, call.owner = .pass n → ∀ acts pass,
    let u := t.run acts
    let v := u.act (.ask (.collect n call.principal))
    let cause : Cause := .timedOut "list_privileges" s.engine.settings.backendTimeout
    u.engine.passes.get? n = some pass → u.engine.halted pass = false →
    ⟨call.principal, id, .failed cause⟩ ∈ pass.landed →
      v.engine.cache = u.engine.cache ∧ .refreshFailed call.principal cause ∈ v.journal
      ∧ v.Counts n { pass.report with failed := pass.report.failed + 1 }

/-- A pass that looks at what has landed stores a list, notes what it has seen, and counts it. -/
theorem InOrder.collect_landed (hs : s.InOrder) {n : Id} {pass : Pass} {r : Reply PrivilegeSet}
    (hp : s.engine.passes.get? n = some pass) (hh : s.engine.halted pass = false)
    (hl : ⟨p, id, r⟩ ∈ pass.landed) :
    (s.act (.ask (.collect n p))).engine.cache = r.put p s.engine.cache
      ∧ (∀ m ∈ Landing.notes ⟨p, id, r⟩ n, m ∈ (s.act (.ask (.collect n p))).journal)
      ∧ (s.act (.ask (.collect n p))).Counts n (pass.report.count r) := by
  have hwhole : (s.act (.ask (.collect n p))).whole = s.whole.collect n p := whole_ask s _
  have hfind := Pass.find?_landed (hs.books.passes.nodup hp) hl
  have heq := State.collect_eq (s := s.whole) hp hh hfind
  rw [← hwhole, State.digest_eq] at heq
  generalize s.act (.ask (.collect n p)) = t at heq
  show t.whole.cache = r.put p s.whole.cache
    ∧ (∀ m ∈ Landing.notes ⟨p, id, r⟩ n, m ∈ t.whole.journal)
    ∧ (_ ∈ t.whole.journal ∨ ∃ pass', t.whole.passes.get? n = some pass' ∧ _)
  have hnotes : ∀ {m} (l : List Note), m ∈ Landing.notes ⟨p, id, r⟩ n →
      m ∈ l ++ (Landing.notes ⟨p, id, r⟩ n ++ s.whole.journal) := fun l hm =>
    List.mem_append_right l (List.mem_append_left _ hm)
  rw [heq]
  split
  · cases pass.driver with
    | caller c =>
      exact ⟨rfl, fun m hm => hnotes [_, _] hm, Or.inl (List.mem_cons_of_mem _ List.mem_cons_self)⟩
    | worker w => exact ⟨rfl, fun m hm => hnotes [_] hm, Or.inl List.mem_cons_self⟩
  · exact ⟨rfl, fun m hm => hnotes [] hm, Or.inr ⟨_, Table.get?_put_self, rfl⟩⟩

/-- **The end of a call reaches everybody who waits for it.** -/
theorem InOrder.comesTo (hs : s.InOrder) {act : Act} {ending : Ending}
    (hid : s.engine.calls.get? id = some call)
    (he : .ended id call.principal ending ∈ (s.act act).journal) :
    ComesTo s (s.act act) id call ending := by
  have hb : Books s.whole := hs.books
  have ht : Books (s.act act).whole := (hs.act act).books
  have hsub := (hs.suffix_act act).subset
  have hlimit : (s.act act).whole.settings = s.engine.settings := hs.settings_run [act]
  have hbegan : .began id call.principal call.question call.owner ∈ s.journal :=
    hb.calls.began_of_get? hid
  have hn : ∀ {q ending'}, .ended id q ending' ∉ s.journal := hb.calls.not_ended hid
  obtain ⟨call', ev, hid', -, hatt, hwhole, hcheck, -⟩ := hs.closes hn he
  obtain rfl : call = call' := Option.some_inj.mp (hid.symm.trans hid')
  have hstep : ∀ {r}, Ends ev s.whole id call ending r →
      (s.act act).whole = (s.whole.endCall id call.principal ending).settle id call r :=
    fun hends => hwhole.trans (hends.step_eq hid hatt)
  refine ⟨he, fun {c} hj hc => ⟨fun o hr => ?_, ?_⟩, fun {n} ho => ?_, fun {S} hS ho => ?_,
    fun {n S} _ _ acts pass hp hh hl => ?_⟩
  · obtain ⟨r, q, q', ow, ending', -, -, -, hended, -⟩ := hb.callers.returned_of_joined hj hr
    exact hn hended
  · obtain ⟨r, hcalled⟩ := hb.callers.called_of_joined hj
    obtain ⟨r', hcalled', -, hr⟩ :=
      ht.callers.told_of_ended ht.calls (hsub hj) (hsub hbegan) he hc
    obtain rfl := ht.callers.called_unique (hsub hcalled) hcalled'
    exact ⟨r, hcalled, hlimit ▸ hr⟩
  · have hq : call.question = .listing := hb.calls.listing hid (by rw [ho]; rfl)
    obtain ⟨pass, hp, -⟩ := hb.passes.flights hid ho
    cases hcheck with
    | @list _ r hends =>
      have hpasses : (s.act act).whole.passes.get? n
          = some (pass.land ⟨call.principal, id, r⟩) := by
        have hp' : (s.whole.endCall id call.principal ending).passes.get? n = some pass := hp
        rw [hstep hends, State.settle, ho]
        dsimp only
        rw [State.land_eq hp', Table.get?_put_self]
      refine ⟨_, r, hpasses, List.mem_append_right _ List.mem_cons_self, ?_⟩
      cases hends with
      | answer => exact Or.inl rfl
      | expire => exact Or.inr ⟨rfl, by rw [ho]; rfl⟩
    | verdict _ hq' =>
      rw [hq] at hq'
      cases hq'
  · subst hS
    show (s.act act).whole.cache.get? call.principal = some S
    cases hcheck with
    | list hends =>
      have hsettle := hstep hends
      cases hends
      rw [hsettle, settle_cache_value ho S]
      exact Table.get?_put_self
  · obtain ⟨hcache, hnotes, hcounts⟩ := ((hs.act act).run acts).collect_landed hp hh hl
    exact ⟨by rw [hcache, Reply.put, Table.get?_put_self], hnotes _ List.mem_cons_self, hcounts⟩

/-- What is taken for the answer of a call has been its answer. -/
theorem InOrder.not_stored_of_timedOut (hs : s.InOrder)
    (he : .ended id p .timedOut ∈ s.journal) (acts : List Act) (q : Principal) (S : PrivilegeSet)
    (o : Owner) : .stored q S (.call id o) ∉ (s.run acts).journal := by
  intro hstored
  have ht := hs.run acts
  have hended := (ht.cache.listed hstored).2
  have he' : .ended id p .timedOut ∈ (s.run acts).whole.journal := (hs.suffix_run acts).subset he
  cases ((ht.books.calls.of_ended he').2.2 _ _ hended).2

/-- **Of a timeout nothing comes.** -/
theorem InOrder.fruitless (hs : s.InOrder) {act : Act} (hid : s.engine.calls.get? id = some call)
    (he : .ended id call.principal .timedOut ∈ (s.act act).journal) :
    Fruitless s (s.act act) id call := by
  have hn : .ended id call.principal .timedOut ∉ s.journal := hs.books.calls.not_ended hid
  refine ⟨fun {c} hj hc => ?_, ?_, (hs.act act).not_stored_of_timedOut he,
    fun {n} _ acts pass hp hh hl => ?_⟩
  · obtain ⟨-, r, -, hr⟩ := (hs.comesTo hid he).told hj hc
    exact hr
  · obtain ⟨call', ev, hid', -, -, hwhole, hcheck, -⟩ := hs.closes hn he
    have hcache : (s.act act).whole.cache = s.whole.cache := by
      rw [hwhole]
      exact step_cache_of_ended hcheck rfl
    exact hcache
  · obtain ⟨hcache, hnotes, hcounts⟩ := ((hs.act act).run acts).collect_landed hp hh hl
    exact ⟨hcache, hnotes _ List.mem_cons_self, hcounts⟩

/-! ## The law

The parts are put together: the call ends, at the shorter of the two times, in the way that the
comparison of the two says, and with the meaning that such an end has. -/

/-- A call that is due ends when its owner looks. -/
theorem InOrder.ended_poll (hs : s.InOrder) (hid : s.engine.calls.get? id = some call)
    (hatt : s.engine.attended call = true) (hdue : s.due id = true) :
    ∃ ending, .ended id call.principal ending ∈ (s.poll id).journal := by
  rcases whole_poll hid with ⟨hunseen, -⟩ | ⟨-, ev, hev, hwhole⟩
  · rw [hatt] at hunseen
    cases hunseen
  have hb : Books s.whole := hs.books
  have hj : (s.poll id).journal = (s.whole.step ev).journal := congrArg State.journal hwhole
  rw [hj]
  have hended : ∀ {ending r}, Ends ev s.whole id call ending r →
      .ended id call.principal ending ∈ (s.whole.step ev).journal := by
    intro ending r hends
    obtain ⟨new, hnew, -⟩ := settle_notes (s.whole.endCall id call.principal ending) id call r
    rw [hends.step_eq (s := s.whole) hid hatt, hnew]
    exact List.mem_append_right _ List.mem_cons_self
  cases hev with
  | listed hq => exact ⟨_, hended (.answer rfl hq)⟩
  | late hready =>
    have hlate : call.deadline ≤ s.engine.now := by
      simpa [Site.due, hid, hatt, hready] using hdue
    exact ⟨_, hended (.expire rfl hlate)⟩
  | checked hq => exact ⟨_, ended_verdict hb hid hq _⟩

/-! ### The end is reached

A law that only spoke of calls that have ended would be kept by a backend that keeps everybody
waiting.  So it is also shown that time can go on up to the moment, that the owner can look then,
and that the call has ended when it has. -/

/-- A call can end at the moment at which its owner has something to see. -/
theorem Sits.exists_end (hs : s.InOrder) (h : s.Sits id call latency limit)
    (htends : s.tends id = true) (hid : s.engine.calls.get? id = some call) :
    ∃ acts, s.awaits id acts = true ∧ (s.run acts).engine.now = call.begun + min latency limit
      ∧ ∃ ending, .ended id call.principal ending ∈ (s.run acts).journal := by
  -- time runs up to that moment, and then the owner of the call looks
  let wait := call.begun + min latency limit - s.engine.now
  let u := s.act (.ask (.elapse wait))
  have hsome : s.engine.calls.get? id ≠ none := by simp [hid]
  have hbefore := h.before hsome
  have hnow : u.engine.now = call.begun + min latency limit := by
    show s.engine.now + wait = _
    omega
  have hrest : s.rests id u.engine.now = true := hnow ▸ h.rests_till hid
  have hu : u.Sits id call latency limit := h.act hs htends hrest
  have hid' : u.engine.calls.get? id = some call := hid
  have htends' : u.tends id = true := htends
  have hatt : u.engine.attended call = true := attended_of_tends htends' hid'
  have hdue : u.due id = true := by
    have hready := hu.ready_iff (by simp [hid'])
    have hdeadline := hu.deadline
    simp only [Site.due, hid', hatt, Bool.true_and, Bool.or_eq_true_iff, decide_eq_true_iff, hready]
    omega
  have hended := (hs.act _).ended_poll hid' hatt hdue
  refine ⟨[.ask (.elapse wait), .poll id], ?_, (u.now_poll id).trans hnow, hended⟩
  have hrest' : u.rests id (u.poll id).engine.now = true := by
    rw [rests, Bool.or_eq_true_iff, beq_iff_eq]
    exact Or.inl (u.now_poll id).symm
  have htends'' : (u.poll id).tends id = true := by
    obtain ⟨ending, he⟩ := hended
    have hb : Books (u.poll id).whole := ((hs.act (.ask (.elapse wait))).act (.poll id)).books
    have hnone : (u.poll id).engine.calls.get? id = none := (hb.calls.of_ended he).1
    rw [tends, hnone]
    rfl
  exact awaits_cons.mpr ⟨htends, hrest, awaits_cons.mpr ⟨htends', hrest', htends''⟩⟩

/-- What is so of a call from the state on in which it has begun, if the backend takes `latency`
milliseconds to answer it and it may take `limit`.  Its moment comes when the shorter of the two is
over. -/
structure Bounded (s : Site) (id : Id) (call : Call) (latency limit : Nat) : Prop where
  /-- If the call is awaited until it ends, it ends at its moment: with what the backend then says
  if that does not take longer than it may, and otherwise with a timeout. -/
  ends : ∀ acts act, s.awaits id acts = true → (s.run acts).engine.calls.get? id ≠ none →
    (∃ p ending, .ended id p ending ∈ ((s.run acts).act act).journal) →
      ((s.run acts).act act).engine.now = call.begun + min latency limit
      ∧ (latency ≤ limit →
        ComesTo (s.run acts) ((s.run acts).act act) id call ((s.run acts).said call))
      ∧ (limit < latency → ComesTo (s.run acts) ((s.run acts).act act) id call .timedOut
        ∧ Fruitless (s.run acts) ((s.run acts).act act) id call)
  /-- It does end by then, unless it is dropped. -/
  overdue : ∀ acts, s.awaits id acts = true → (∀ o, .dropped id o ∉ (s.run acts).journal) →
    call.begun + min latency limit < (s.run acts).engine.now →
      ∃ ending, .ended id call.principal ending ∈ (s.run acts).journal
  /-- And it always can. -/
  possible : ∀ acts, s.awaits id acts = true → (s.run acts).engine.calls.get? id ≠ none →
    ∃ acts', s.awaits id (acts ++ acts') = true
      ∧ (s.run (acts ++ acts')).engine.now = call.begun + min latency limit
      ∧ ∃ ending, .ended id call.principal ending ∈ (s.run (acts ++ acts')).journal

theorem Sits.bounded (hs : s.InOrder) (h : s.Sits id call latency limit) :
    s.Bounded id call latency limit where
  ends acts act hacts hsome hended := by
    obtain ⟨p, ending, he⟩ := hended
    have hu := hs.run acts
    have hsits := h.run hs hacts
    generalize s.run acts = u at hsome he hu hsits
    obtain ⟨call', hid⟩ := Option.ne_none_iff_exists'.mp hsome
    obtain rfl := hsits.same hid
    have hn : .ended id p ending ∉ u.journal := hu.books.calls.not_ended hid
    obtain ⟨call', -, hid', rfl, -, -, -, hcloses⟩ := hu.closes hn he
    obtain rfl := hsits.same hid'
    obtain ⟨hnow, hending⟩ := hsits.closes hsome hcloses
    have hstill : (u.act act).engine.now = u.engine.now := by
      rw [hu.poll_of_ended hn he]
      exact u.now_poll id
    refine ⟨hstill.trans hnow, fun hle => ?_, fun hlt => ?_⟩
    · rw [if_pos hle] at hending
      exact hending ▸ hu.comesTo hid he
    · rw [if_neg (Nat.not_le_of_lt hlt)] at hending
      subst hending
      exact ⟨hu.comesTo hid he, hu.fruitless hid he⟩
  overdue acts hacts hdropped hlt := by
    have hb : Books (s.run acts).whole := (hs.run acts).books
    have hsits := h.run hs hacts
    rcases hb.calls.get?_or_of_began hsits.began with ⟨call', hid, -⟩ | ⟨-, hended | ⟨hdrop, -⟩⟩
    · have hid : (s.run acts).engine.calls.get? id = some call' := hid
      exact absurd (hsits.before (by simp [hid])) (Nat.not_le_of_lt hlt)
    · exact hended
    · exact absurd hdrop (hdropped _)
  possible acts hacts hsome := by
    obtain ⟨call', hid⟩ := Option.ne_none_iff_exists'.mp hsome
    have hsits := h.run hs hacts
    obtain rfl := hsits.same hid
    have htends : (s.run acts).tends id = true :=
      tends_of_awaits (awaits_append.mp ((List.append_nil acts).symm ▸ hacts)).2
    obtain ⟨acts', hacts', hnow, hended⟩ := hsits.exists_end (hs.run acts) htends hid
    rw [← run_append] at hnow hended
    exact ⟨acts', awaits_append.mpr ⟨hacts, hacts'⟩, hnow, hended⟩

end Site

/-- **There is one law of timeouts.**  In every run of an engine with its backend, whoever has a
call made, a caller that misses, an update, a pass or a decision without a cache: if the call is
awaited, it ends when the backend's latency or the limit is over, whichever is first.  It comes to
what the backend says if that takes no longer than the limit, no latency and no limit at all
included, and else to a timeout, of which nothing comes but that it is reported. -/
theorem timeout_law (settings : Settings) (kind : BackendKind) (acts : List Act) (act : Act)
    (id : Id) (call : Call) (limit : Nat)
    (hlimit : settings.backendTimeout.nanos = limit * nanosPerMilli)
    (hnew : ((Site.initial settings kind).run acts).engine.next ≤ id)
    (hid : (((Site.initial settings kind).run acts).act act).engine.calls.get? id = some call) :
    let s := (Site.initial settings kind).run acts
    call.begun = s.engine.now ∧ (s.act act).engine.now = s.engine.now
      ∧ (s.act act).awaits id [] = true
      ∧ (s.act act).Bounded id call (s.backend.latency call.principal) limit := by
  intro s
  have hinit := Site.InOrder.initial settings kind
  have hs : s.InOrder := hinit.run acts
  have hsettings : s.engine.settings = settings := hinit.settings_run acts
  obtain ⟨hsits, htends, hbegun, hnow⟩ := hs.sits hnew hid
  rw [hsettings, Span.ceilMillis_of_millis hlimit] at hsits
  exact ⟨hbegun, hnow, htends, hsits.bounded (hs.act act)⟩

/-- The backend takes longer than it may, and both who wait for the fetch are told so when the time
is up; and where neither takes any time, the answer counts. -/
theorem timeout_law_of_slow_and_instant :
    let p : Principal := ⟨.user, "alice"⟩
    let e : Entity := .space "docs"
    let S : PrivilegeSet := .ofList []
    let limit : Span := ⟨20 * nanosPerMilli, by decide⟩
    let settings : Settings := { authorization := true, backendTimeout := limit }
    let s := (Site.initial settings .listing).run [.script { latency := some 30 }]
    let slow := s.act (.ask (.enforce e p .read))
    let u := slow.run [.ask (.enforce e p .write), .ask (.elapse 20)]
    let s' := (Site.initial { settings with backendTimeout := .zero } .listing).run
      [.ask (.write p S), .ask .iterate]
    let instant := s'.act (.ask (.launch 1 p))
    let call : Call := ⟨p, .listing, .fetch, 0, 20⟩
    let call' : Call := ⟨p, .listing, .pass 1, 0, 0⟩
    limit.nanos = 20 * nanosPerMilli ∧ s.engine.next ≤ 1
      ∧ slow.engine.calls.get? 1 = some call ∧ slow.Bounded 1 call 30 20
      ∧ Site.Fruitless u (u.act (.poll 1)) 1 call
      ∧ (∀ c ∈ [0, 2], .returned c (.failed (.backendUnavailable
          (.timedOut "list_privileges" limit))) ∈ (u.act (.poll 1)).journal)
      ∧ s'.engine.next ≤ 2 ∧ instant.engine.calls.get? 2 = some call'
      ∧ instant.Bounded 2 call' 0 0
      ∧ Site.ComesTo instant (instant.act (.poll 2)) 2 call' (instant.said call') := by
  intro p e S limit settings s slow u s' instant call call'
  have hslow : slow.Bounded 1 call 30 20 :=
    (timeout_law settings .listing [.script { latency := some 30 }] (.ask (.enforce e p .read)) 1
      call 20 (by decide) (by decide) (by decide)).2.2.2
  have hinstant : instant.Bounded 2 call' 0 0 :=
    (timeout_law { settings with backendTimeout := .zero } .listing
      [.ask (.write p S), .ask .iterate] (.ask (.launch 1 p)) 2 call' 0
      (by decide) (by decide) (by decide)).2.2.2
  obtain ⟨-, -, hlate⟩ := hslow.ends [.ask (.enforce e p .write), .ask (.elapse 20)] (.poll 1)
    (by decide) (by decide) ⟨p, .timedOut, by decide⟩
  obtain ⟨-, htie, -⟩ := hinstant.ends [] (.poll 2) (by decide) (by decide)
    ⟨p, .listed (.value S), by decide⟩
  exact ⟨by decide, by decide, by decide, hslow, (hlate (by decide)).2, by decide +kernel,
    by decide, by decide, hinstant, htie (Nat.le_refl 0)⟩

end Gatekeeper

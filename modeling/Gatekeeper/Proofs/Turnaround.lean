import Gatekeeper.Proofs.Deadline
import Gatekeeper.Proofs.Decision
import Gatekeeper.Proofs.Loop
import Gatekeeper.Proofs.Whole

/-!
# How long a decision takes

Somebody whose decision depends on one list is told when the list has come, or when the time for it
is up, whichever is first, and what the owner of the call finds then is settled by what the backend
does with a list about the principal.  What else happens at the site in the meantime is of no
account, as long as time does not run past that moment and the backend's answer stays what it is.

* `Backend.conduct`, `Conduct.ending` — what the backend does with a list, and how the call ends.
* `Depends` — a caller whose decision depends on one call.
* `Site.rests`, `Site.prompt`, `Site.Calm` — runs in which nobody who is due is kept waiting.
* `Site.OnTime`, `Site.OnTime.act` — the call goes as the conduct has it, and an act keeps it so.
* `Site.Tells` — what somebody who asks next is told, when, and after how many calls.

The time that a decision takes depends on four parties: the backend, the engine, whoever looks
after the call, and the clock.  The conduct of the backend is fixed when the call begins.  The
engine does its part in the step in which the call ends.  What is left is when somebody looks and
how the clock runs, and these are hypotheses on the run (`Site.Calm`); without them nothing could
be said of any moment.  That they can be met is part of what is proved (`OnTime.exists_calm`).
-/

set_option autoImplicit false

namespace Gatekeeper

open Engine

/-! ## What comes of a list

What the backend does with a list about a principal is settled when the list is asked for, and so
is how the call ends for an owner who looks in time: with the answer, if there is one at the
moment when the call is due, or else with the end of the time. -/

namespace Backend

/-- How long a list about the principal sits that is asked for now. -/
def latency (b : Backend) (p : Principal) : Nat :=
  if b.kind = .store then 0 else b.script.latencyOf p

/-- What the backend does with a list about the principal that is asked for now. -/
def conduct (b : Backend) (p : Principal) : Conduct := ⟨some (b.latency p), (b.list p).2⟩

variable {b : Backend} {t : Ticket} {p : Principal}

/-- A call that begins sits through its latency, if it has any. -/
theorem readyAt?_begin (ht : b.readyAt? t = none) (q : Question) (begun : Nat) :
    (b.begin t q p begun).readyAt? t
      = if b.latency p = 0 then none else some (begun + b.latency p) := by
  rw [readyAt?] at ht
  by_cases hk : b.kind = .store
  · simp [Backend.begin, latency, hk, readyAt?, ht]
  · by_cases hl : b.script.latencyOf p = 0
    · cases q <;> simp [Backend.begin, latency, hk, readyAt?, ht, hl]
    · cases q <;> simp [Backend.begin, latency, hk, readyAt?, hl]

/-- It can be answered once it has done so. -/
theorem ready_begin (ht : b.readyAt? t = none) (q : Question) {begun now : Nat}
    (hle : begun ≤ now) :
    (b.begin t q p begun).ready t now = (b.conduct p).ready begun now := by
  rw [ready, readyAt?_begin ht, conduct, Conduct.ready, Option.any_some]
  split
  · rename_i hl
    simp [hl, hle]
  · rfl

/-- A backend that has a script counts a list when it is asked for. -/
theorem calls_begin (b : Backend) (t : Ticket) (p : Principal) (now : Nat) :
    (b.begin t .listing p now).calls = b.calls + if b.kind = .store then 0 else 1 := by
  by_cases hk : b.kind = .store
  · rw [Backend.begin, if_pos hk, if_pos hk]
    rfl
  · have hcalls : ∀ b' : Backend, b'.kind = b.kind → b'.calls = b'.listings := by
      intro b' hk'
      rw [calls, hk']
      cases h : b.kind <;> simp_all
    rw [if_neg hk, hcalls b rfl, hcalls _ (b.begin_same ..).kind, Backend.begin, if_neg hk]
    dsimp only
    split <;> rfl

/-- The store itself counts a list when it answers. -/
theorem calls_list (h : b.kind = .store → b.script = {}) (p : Principal) :
    (b.list p).1.calls = b.calls + if b.kind = .store then 1 else 0 := by
  by_cases hk : b.kind = .store
  · have hnone : b.script.ending? (α := PrivilegeSet) p = none := by
      rw [h hk]
      rfl
    rw [list, hnone, if_pos hk, calls, calls, hk]
    rfl
  · obtain ⟨n, hn⟩ := b.list_eq p
    rw [hn, if_neg hk, calls, calls]
    cases hk' : b.kind <;> simp_all

end Backend

namespace Engine.Conduct

variable {c : Conduct} {limit : Span} {begun now : Nat}

/-- How a call ends that is made alone, for an owner who looks as soon as there is something to be
seen. -/
def ending (c : Conduct) (limit : Span) : Ending :=
  if c.ready 0 limit.ceilMillis then .listed c.reply else .timedOut

/-- There is no answer before the call is due. -/
theorem due_le_of_ready (h : c.ready begun now = true) : begun + c.due limit ≤ now := by
  obtain ⟨l, hl, hnow⟩ := ready_iff.mp h
  have hdue : c.due limit ≤ l := due_le_iff.mpr (Or.inr (ready_iff.mpr ⟨l, hl, by omega⟩))
  omega

/-- Who finds an answer has not come too late for it. -/
theorem ending_of_ready (hle : now ≤ begun + c.due limit) (h : c.ready begun now = true) :
    c.ending limit = .listed c.reply := by
  obtain ⟨l, hl, hnow⟩ := ready_iff.mp h
  have hdue : c.due limit ≤ limit.ceilMillis := due_le_iff.mpr (Or.inl (Nat.le_refl _))
  exact if_pos (ready_iff.mpr ⟨l, hl, by omega⟩)

/-- Who finds no answer at the end of the time will get none. -/
theorem ending_of_late (hle : now ≤ begun + c.due limit) (h : c.ready begun now = false)
    (hlate : begun + limit.ceilMillis ≤ now) :
    c.ending limit = .timedOut ∧ begun + c.due limit ≤ now := by
  have hdue : c.due limit ≤ limit.ceilMillis := due_le_iff.mpr (Or.inl (Nat.le_refl _))
  have hnot : ¬ c.ready 0 limit.ceilMillis = true := by
    intro hready
    obtain ⟨l, hl, hlimit⟩ := ready_iff.mp hready
    have hnow : c.ready begun now = true := ready_iff.mpr ⟨l, hl, by omega⟩
    rw [h] at hnow
    cases hnow
  exact ⟨if_neg hnot, by omega⟩

/-- At the moment when the call is due there is an answer, or the time is up. -/
theorem due_cases (c : Conduct) (limit : Span) (begun : Nat) :
    c.ready begun (begun + c.due limit) = true
      ∨ begun + limit.ceilMillis ≤ begun + c.due limit := by
  rcases due_le_iff.mp (Nat.le_refl (c.due limit)) with hlimit | hready
  · exact Or.inr (Nat.add_le_add_left hlimit _)
  · obtain ⟨l, hl, hnow⟩ := ready_iff.mp hready
    exact Or.inl (ready_iff.mpr ⟨l, hl, by omega⟩)

end Engine.Conduct

/-! ## A caller who depends on one call

The caller waits for the end of one call, its own or that of the fetch it has joined.  Which of
the two it is makes no difference to what follows. -/

namespace Engine

/-- Caller `c` asks whether the principal may do this, and waits for call `id`, a list, to decide.
-/
structure Depends (s : State) (c id : Id) (e : Entity) (p : Principal) (a : Action) (o : Owner) :
    Prop where
  called : .called c (.enforce e p a) ∈ s.journal
  joined : .joined c id ∈ s.journal
  began : .began id p .listing o ∈ s.journal

namespace Depends

variable {s t : State} {c id : Id} {e : Entity} {p : Principal} {a : Action} {o : Owner}
  {call : Call}

theorem mono (h : Depends s c id e p a o) (hsub : s.journal ⊆ t.journal) :
    Depends t c id e p a o :=
  ⟨hsub h.called, hsub h.joined, hsub h.began⟩

/-- What the caller is told is what came of the call. -/
theorem of_returned (hb : Books s) (h : Depends s c id e p a o) {o' : Outcome}
    (hr : .returned c o' ∈ s.journal) : ∃ ending, .ended id p ending ∈ s.journal
      ∧ o' = (Request.enforce e p a).outcome o s.settings.backendTimeout ending := by
  obtain ⟨r, p', q, o₁, ending, hcalled, -, hbegan, he, rfl⟩ :=
    hb.callers.returned_of_joined h.joined hr
  obtain rfl := hb.callers.called_unique h.called hcalled
  obtain ⟨rfl, rfl, rfl⟩ := hb.calls.began_unique h.began hbegan
  exact ⟨ending, he, rfl⟩

/-- The call is under way and somebody looks after it, or it has ended and the caller has been told;
unless the caller gives up. -/
theorem cases (hb : Books s) (h : Depends s c id e p a o) (hc : .cancelled c ∉ s.journal) :
    (∃ call, s.calls.get? id = some call ∧ s.attended call = true)
      ∨ ∃ ending, .ended id p ending ∈ s.journal ∧
        .returned c ((Request.enforce e p a).outcome o s.settings.backendTimeout ending)
          ∈ s.journal := by
  rcases hb.callers.joined_cases h.joined with ⟨w, hw, hserved⟩ | hcancel | ⟨o', hr⟩
  · obtain ⟨call, hid, howner⟩ := hb.callers.call_of_served hb.calls hw hserved h.joined
    refine Or.inl ⟨call, hid, ?_⟩
    rw [State.attended]
    rcases howner with ⟨e', a', rfl, hown⟩ | hown
    · rw [hown]
      exact State.awaited_iff.mpr ⟨c, e', a', hw⟩
    · cases ho : call.owner with
      | fetch =>
        rw [ho] at hown
        cases hown
      | _ => rfl
  · exact absurd hcancel hc
  · obtain ⟨ending, he, rfl⟩ := h.of_returned hb hr
    exact Or.inr ⟨ending, he, hr⟩

theorem attended (hb : Books s) (h : Depends s c id e p a o) (hc : .cancelled c ∉ s.journal)
    (hid : s.calls.get? id = some call) : s.attended call = true := by
  rcases h.cases hb hc with ⟨call', hid', hatt⟩ | ⟨ending, he, -⟩
  · obtain rfl := Option.some_inj.mp (hid.symm.trans hid')
    exact hatt
  · exact absurd he (hb.calls.not_ended hid)

end Depends

/-- A call that was known before a step and is under way after it was so before. -/
theorem Orderly.call_of_step {s : State} (h : Orderly s) {ev : Event} {id : Id} {call : Call}
    (hlt : id < s.next) (hid : (s.step ev).calls.get? id = some call) :
    s.calls.get? id = some call := by
  have hkept : s.next ≤ (s.step ev).next
      ∧ ((s.step ev).calls.get? id = some call → s.calls.get? id = some call) := by
    refine (step_moves h ev).keeps (P := fun t => s.next ≤ t.next
      ∧ (t.calls.get? id = some call → s.calls.get? id = some call)) h
      ⟨Nat.le_refl _, fun hid => hid⟩ ?_
    rintro t u - ⟨hle, hold⟩ m
    refine ⟨Nat.le_trans hle m.next_le, fun hid => ?_⟩
    rcases m.begun hid with hid | ⟨rfl, -⟩
    · exact hold hid
    · exact absurd hlt (Nat.not_lt_of_le hle)
  exact hkept.2 hid

/-- What is noted when a call is handed to its owner is what is stored, and what callers are told.
-/
theorem settle_notes (s : State) (id : Id) (call : Call) (r : Reply PrivilegeSet) :
    ∃ new, (s.settle id call r).journal = new ++ s.journal
      ∧ (s.settle id call r).calls = s.calls ∧ (s.settle id call r).now = s.now
      ∧ ∀ n ∈ new, (∃ c o, n = .returned c o) ∨ ∃ p S o, n = .stored p S o := by
  have hnotes : ∀ {p o} {n : Note}, n ∈ r.notes p o →
      (∃ c o, n = .returned c o) ∨ ∃ p S o, n = .stored p S o := by
    intro p o n hn
    obtain ⟨S, -, rfl⟩ := Reply.mem_notes_iff.mp hn
    exact Or.inr ⟨p, S, o, rfl⟩
  rw [State.settle]
  split
  · rw [State.settleFetch_eq]
    refine ⟨_, (List.append_assoc ..).symm, rfl, rfl, fun n hn => ?_⟩
    rcases List.mem_append.mp hn with hn | hn
    · obtain ⟨x, -, rfl⟩ := List.mem_map.mp (List.mem_reverse.mp hn)
      exact Or.inl ⟨_, _, rfl⟩
    · exact hnotes hn
  · rw [State.settleUpdate_eq]
    refine ⟨_ :: _, rfl, rfl, rfl, List.forall_mem_cons.mpr ⟨Or.inl ⟨_, _, rfl⟩, fun n hn => ?_⟩⟩
    exact hnotes hn
  · rw [State.settleDirect_eq]
    exact ⟨[_], rfl, rfl, rfl, fun n hn => Or.inl ⟨_, _, List.mem_singleton.mp hn⟩⟩
  · exact ⟨[], rfl, rfl, rfl, fun n hn => absurd hn List.not_mem_nil⟩

end Engine

/-! ## Acts

An act comes down to events of the engine, so what is so of steps is so of acts. -/

namespace Site.InOrder

variable {s : Site}

/-- A call that was known before an act and is under way after it was so before. -/
theorem call_of_act (h : s.InOrder) {act : Act} {id : Id} {call : Call} (hlt : id < s.engine.next)
    (hid : (s.act act).engine.calls.get? id = some call) : s.engine.calls.get? id = some call := by
  rcases s.whole_act act with ⟨hidle, -⟩ | ⟨ev, -, hwhole⟩
  · exact hidle.engine ▸ hid
  · have hid' : (s.act act).whole.calls.get? id = some call := hid
    rw [hwhole] at hid'
    exact h.books.orderly.call_of_step hlt hid'

theorem now_le_act (h : s.InOrder) (act : Act) : s.engine.now ≤ (s.act act).engine.now := by
  rcases s.whole_act act with ⟨hidle, -⟩ | ⟨ev, -, hwhole⟩
  · exact Nat.le_of_eq (by rw [hidle.engine])
  · have hle : s.whole.now ≤ (s.act act).whole.now := hwhole ▸ h.books.orderly.now_le_step ev
    exact hle

theorem next_le_act (h : s.InOrder) (act : Act) : s.engine.next ≤ (s.act act).engine.next := by
  rcases s.whole_act act with ⟨hidle, -⟩ | ⟨ev, -, hwhole⟩
  · exact Nat.le_of_eq (by rw [hidle.engine])
  · have hle : s.whole.next ≤ (s.act act).whole.next := hwhole ▸ h.books.orderly.next_le_step ev
    exact hle

end Site.InOrder

/-! ## Time does not run past a call that is due

A run says when somebody looks and when time goes on.  For a statement about *when* a caller is
told, time must not go on while there is something for the owner to see; `Site.prompt` is that
condition, and it can be computed. -/

namespace Site

/-- It can become `till` before the owner of the call looks at it. -/
def rests (s : Site) (id : Id) (till : Nat) : Bool :=
  s.engine.now == till || (!s.due id && (s.dueAt? id).all fun t => decide (till ≤ t))

/-- At no moment at which the call is due does time go on. -/
def prompt (s : Site) (id : Id) : List Act → Bool
  | [] => true
  | act :: acts => s.rests id (s.act act).engine.now && (s.act act).prompt id acts

/-- Caller `c` waits for call `id`, a list about the principal, in a run in which it is not kept
waiting, does not give up, and the backend's answer stays what it is. -/
structure Calm (s : Site) (c id : Id) (p : Principal) (acts : List Act) : Prop where
  prompt : s.prompt id acts = true
  steady : ∀ l, l <+: acts → ((s.run l).backend.list p).2 = (s.backend.list p).2
  waits : .cancelled c ∉ (s.run acts).journal

variable {s : Site} {c id : Id} {p : Principal} {acts : List Act}

theorem Calm.tail {act : Act} (h : s.Calm c id p (act :: acts)) : (s.act act).Calm c id p acts where
  prompt := (Bool.and_eq_true_iff.mp h.prompt).2
  steady l hl := (h.steady (act :: l) (List.cons_prefix_cons.mpr ⟨rfl, hl⟩)).trans
    (h.steady [act] (List.prefix_append [act] acts)).symm
  waits := h.waits

/-- Nobody alters what the backend answers from, and so its answers stay what they are. -/
theorem list_run (s : Site) (p : Principal) (h : ∀ act ∈ acts, act.alters = false) :
    ((s.run acts).backend.list p).2 = (s.backend.list p).2 := by
  have hsame : s.backend.Same (s.run acts).backend := by
    induction acts generalizing s with
    | nil => exact .refl _
    | cons act acts ih =>
      exact (s.act_same (h act List.mem_cons_self)).trans
        (ih (s.act act) fun a ha => h a (List.mem_cons_of_mem _ ha))
  exact hsame.list p

/-! ## A call on time

`OnTime` is the invariant: until its owner has looked the call is as the conduct has it and the
clock is not past the moment when it is due, and once it has ended, it has ended at that moment. -/

/-- Call `id`, a list about the principal that began at `begun`, goes as the conduct has it: it can
be answered when that says so, time has not run past the moment when it is due, and it ends at that
moment in the way that is due then. -/
structure OnTime (s : Site) (id : Id) (p : Principal) (begun : Nat) (b : Conduct) (limit : Span) :
    Prop where
  known : id < s.engine.next
  since : begun ≤ s.engine.now
  call : ∀ {call}, s.engine.calls.get? id = some call → call.principal = p
    ∧ call.question = .listing ∧ call.deadline = begun + limit.ceilMillis
  ready : s.engine.calls.get? id ≠ none → ∀ now, begun ≤ now →
    s.backend.ready (.call id) now = b.ready begun now
  before : s.engine.calls.get? id ≠ none → s.engine.now ≤ begun + b.due limit
  ended : ∀ {q ending}, .ended id q ending ∈ s.journal →
    ending = b.ending limit ∧ begun + b.due limit ≤ s.engine.now

namespace OnTime

variable {begun : Nat} {b : Conduct} {limit : Span} {call : Call}

/-- As long as the owner has not looked, time cannot run past the moment when the call is due. -/
theorem rest (h : s.OnTime id p begun b limit) (hid : s.engine.calls.get? id = some call)
    (hatt : s.engine.attended call = true) {till : Nat} (hrest : s.rests id till = true) :
    till ≤ begun + b.due limit := by
  have hsome : s.engine.calls.get? id ≠ none := by simp [hid]
  rw [rests, Bool.or_eq_true_iff, beq_iff_eq, Bool.and_eq_true_iff, Bool.not_eq_true'] at hrest
  rcases hrest with hnow | ⟨hdue, hall⟩
  · exact hnow ▸ h.before hsome
  · obtain ⟨-, -, hdl⟩ := h.call hid
    have hnot : s.backend.ready (.call id) s.engine.now = false := by
      simp only [Site.due, hid, hatt, Bool.true_and, Bool.or_eq_false_iff] at hdue
      exact hdue.1
    have hready := h.ready hsome
    rw [Backend.ready] at hnot
    cases ht : s.backend.readyAt? (.call id) with
    | none =>
      rw [ht] at hnot
      cases hnot
    | some t =>
      simp only [dueAt?, hid, Option.map_some, ht, Option.all_some, decide_eq_true_iff] at hall
      rcases b.due_cases limit begun with hthen | hlimit
      · have hle : t ≤ begun + b.due limit := by
          rw [← hready _ (Nat.le_add_right _ _), Backend.ready, ht] at hthen
          simpa using hthen
        omega
      · omega

/-- Time can run up to that moment. -/
theorem rests_due (h : s.OnTime id p begun b limit) (hid : s.engine.calls.get? id = some call) :
    s.rests id (begun + b.due limit) = true := by
  have hsome : s.engine.calls.get? id ≠ none := by simp [hid]
  have hready := h.ready hsome
  obtain ⟨-, -, hdl⟩ := h.call hid
  have hlimit : b.due limit ≤ limit.ceilMillis := Conduct.due_le_iff.mpr (Or.inl (Nat.le_refl _))
  rw [rests, Bool.or_eq_true_iff, beq_iff_eq]
  rcases Nat.eq_or_lt_of_le (h.before hsome) with hnow | hnow
  · exact Or.inl hnow
  · have hnot : s.backend.ready (.call id) s.engine.now = false := by
      rw [hready _ h.since, ← Bool.not_eq_true]
      exact fun hthen => absurd (Conduct.due_le_of_ready hthen) (Nat.not_le_of_lt hnow)
    have hearly : decide (call.deadline ≤ s.engine.now) = false :=
      decide_eq_false (by omega)
    refine Or.inr (Bool.and_eq_true_iff.mpr ⟨?_, ?_⟩)
    · simp [Site.due, hid, hnot, hearly]
    · have hat := hnot
      rw [Backend.ready] at hat
      cases ht : s.backend.readyAt? (.call id) with
      | none =>
        rw [ht] at hat
        cases hat
      | some t =>
        have hlt : s.engine.now < t := by simpa [ht] using hat
        have hthen : b.ready begun t = true := by
          rw [← hready t (by have := h.since; omega), Backend.ready, ht]
          simp
        have hle : begun + b.due limit ≤ t := Conduct.due_le_of_ready hthen
        simp only [dueAt?, hid, ht, Option.map_some, Option.all_some, decide_eq_true_iff]
        omega

/-- And at that moment the call is due. -/
theorem due (h : s.OnTime id p begun b limit) (hid : s.engine.calls.get? id = some call)
    (hatt : s.engine.attended call = true) (hnow : s.engine.now = begun + b.due limit) :
    s.due id = true := by
  have hready := h.ready (by simp [hid]) _ h.since
  obtain ⟨-, -, hdl⟩ := h.call hid
  simp only [Site.due, hid, hatt, Bool.true_and, Bool.or_eq_true_iff, decide_eq_true_iff]
  rw [hready, hdl, hnow]
  exact b.due_cases limit begun

/-- What ends in an act ends as it is due, at the moment when it is due. -/
theorem ending (hs : s.InOrder) (h : s.OnTime id p begun b limit)
    (hreply : (s.backend.list p).2 = b.reply) {act : Act} {q : Principal} {ending : Ending}
    (hn : .ended id q ending ∉ s.journal) (he : .ended id q ending ∈ (s.act act).journal) :
    ending = b.ending limit ∧ begun + b.due limit ≤ s.engine.now := by
  obtain ⟨call, hid, -, hfound⟩ := hs.found hn he
  have hsome : s.engine.calls.get? id ≠ none := by simp [hid]
  obtain ⟨rfl, hq, hdl⟩ := h.call hid
  have hbefore := h.before hsome
  have hready := h.ready hsome _ h.since
  cases hfound with
  | listed _ hthen =>
    rw [hready] at hthen
    rw [hreply, Conduct.ending_of_ready hbefore hthen]
    exact ⟨rfl, Conduct.due_le_of_ready hthen⟩
  | checked hcheck =>
    rw [hq] at hcheck
    cases hcheck
  | late hthen hlate =>
    obtain ⟨hend, hnow⟩ := Conduct.ending_of_late hbefore (hready ▸ hthen) (hdl ▸ hlate)
    exact ⟨hend.symm, hnow⟩

/-- **An act keeps a call on time**, if it does not have the owner of the call wait. -/
theorem act (hs : s.InOrder) (h : s.OnTime id p begun b limit)
    (hatt : ∀ {call}, s.engine.calls.get? id = some call → s.engine.attended call = true)
    (hreply : (s.backend.list p).2 = b.reply) {act : Act}
    (hrest : s.rests id (s.act act).engine.now = true) : (s.act act).OnTime id p begun b limit := by
  have hkept : ∀ {call}, (s.act act).engine.calls.get? id = some call →
      s.engine.calls.get? id = some call := hs.call_of_act h.known
  have hnow := hs.now_le_act act
  refine ⟨Nat.lt_of_lt_of_le h.known (hs.next_le_act act), Nat.le_trans h.since hnow,
    fun hid => h.call (hkept hid),
    fun hsome now hle => ?_, fun hsome => ?_, fun {q ending} he => ?_⟩
  · obtain ⟨call, hid⟩ := Option.ne_none_iff_exists'.mp hsome
    have hsits := hs.sits_act hid (hkept hid)
    rw [Backend.ready, hsits, ← Backend.ready]
    exact h.ready (by simp [hkept hid]) now hle
  · obtain ⟨call, hid⟩ := Option.ne_none_iff_exists'.mp hsome
    exact h.rest (hkept hid) (hatt (hkept hid)) hrest
  · by_cases hn : .ended id q ending ∈ s.journal
    · obtain ⟨hend, hle⟩ := h.ended hn
      exact ⟨hend, Nat.le_trans hle hnow⟩
    · obtain ⟨hend, hle⟩ := h.ending hs hreply hn he
      exact ⟨hend, Nat.le_trans hle hnow⟩

/-- **The call stays on time** as long as the run is calm. -/
theorem run {e : Entity} {a : Action} {o : Owner} (hs : s.InOrder)
    (hd : Depends s.whole c id e p a o) (h : s.OnTime id p begun b limit)
    (hreply : (s.backend.list p).2 = b.reply) (hcalm : s.Calm c id p acts) :
    (s.run acts).OnTime id p begun b limit := by
  induction acts generalizing s with
  | nil => exact h
  | cons act acts ih =>
    have hwaits : .cancelled c ∉ s.whole.journal := fun hc =>
      hcalm.waits ((hs.suffix_run (act :: acts)).subset hc)
    have hrest := (Bool.and_eq_true_iff.mp hcalm.prompt).1
    have hatt : ∀ {call}, s.engine.calls.get? id = some call → s.engine.attended call = true :=
      fun {call} hid => hd.attended (s := s.whole) hs.books hwaits hid
    exact ih (hs.act act) (hd.mono (hs.suffix_act act).subset) (h.act hs hatt hreply hrest)
      ((hcalm.steady [act] (List.prefix_append [act] acts)).trans hreply) hcalm.tail

end OnTime

/-! ## The owner of a call looks

The one act that can end the call is that its owner looks.  What is noted then is the end of the
call, what is stored, and what callers are told, and the backend has counted the list or not. -/

section Looks

variable {id : Id} {call : Call}

/-- The call ends, and leaves `b` of the backend: this is noted, and besides only what is stored and
what callers are told. -/
structure Ended (s t : Site) (id : Id) (b : Backend) : Prop where
  underway : s.engine.calls.get? id ≠ none
  calls : t.engine.calls = s.engine.calls.erase id
  now : t.engine.now = s.engine.now
  backend : t.backend = b.leave (.call id)
  notes : ∀ n ∈ t.journal, n ∈ s.journal ∨ n.call? = some id ∨ (∃ c o, n = .returned c o)
    ∨ ∃ p S o, n = .stored p S o

theorem ended_of_settle (hid : s.engine.calls.get? id ≠ none) {b : Backend} {ev : Event}
    {p : Principal} {ending : Ending} {r : Reply PrivilegeSet}
    (hstep : ({ s.engine with journal := [] } : State).step ev
      = (({ s.engine with journal := [] } : State).endCall id p ending).settle id call r) :
    Ended s ({ s with backend := b }.ask ev) id b := by
  obtain ⟨new, hj, hcalls, hnow, hnew⟩ :=
    settle_notes (({ s.engine with journal := [] } : State).endCall id p ending) id call r
  rw [← hstep] at hj hcalls hnow
  refine ⟨hid, hcalls, hnow, ?_, fun n hn => ?_⟩
  · have hquiet : ∀ now, new.foldr (fun n b => inform now b n) (b.leave (.call id))
        = b.leave (.call id) := by
      intro now
      clear hj
      induction new with
      | nil => rfl
      | cons n new ih =>
        rw [List.foldr_cons, ih fun m hm => hnew m (List.mem_cons_of_mem _ hm)]
        rcases hnew n List.mem_cons_self with ⟨c, o, rfl⟩ | ⟨q, S, o, rfl⟩ <;> rfl
    rw [Site.ask]
    dsimp only
    rw [hj, List.foldr_append]
    exact hquiet _
  · rw [Site.ask] at hn
    dsimp only at hn
    rw [hj, List.append_assoc] at hn
    rcases List.mem_append.mp hn with hn | hn
    · exact Or.inr (Or.inr (hnew n hn))
    · rcases List.mem_cons.mp hn with rfl | hn
      · exact Or.inr (Or.inl rfl)
      · exact Or.inl hn

/-- The owner of a list looks: if the call is due it ends, and else nothing happens. -/
theorem poll_cases (hlist : ∀ call, s.engine.calls.get? id = some call → call.question = .listing) :
    s.due id = false ∧ (s.poll id).engine.calls = s.engine.calls ∧ (s.poll id).backend = s.backend
    ∨ ∃ b, Ended s (s.poll id) id b ∧ ((∃ p, b = (s.backend.list p).1)
      ∨ s.backend.ready (.call id) s.engine.now = false ∧ b = s.backend) := by
  rw [poll, due]
  cases hid : s.engine.calls.get? id with
  | none => exact Or.inl ⟨rfl, rfl, rfl⟩
  | some call =>
    dsimp only
    cases hatt : s.engine.attended call with
    | false => exact Or.inl ⟨rfl, rfl, rfl⟩
    | true =>
      have hq := hlist call hid
      have hsome : s.engine.calls.get? id ≠ none := by simp [hid]
      have hatt' : ({ s.engine with journal := [] } : State).attended call = true := hatt
      have hid' : ({ s.engine with journal := [] } : State).calls.get? id = some call := hid
      cases hready : s.backend.ready (.call id) s.engine.now with
      | true =>
        refine Or.inr ⟨_, ?_, Or.inl ⟨call.principal, rfl⟩⟩
        simp only [hq, Bool.not_true, Bool.false_eq_true, if_false, if_true]
        exact ended_of_settle hsome (State.answer_eq hid' hatt' hq _)
      | false =>
        by_cases hlate : call.deadline ≤ s.engine.now
        · refine Or.inr ⟨s.backend, ?_, Or.inr ⟨rfl, rfl⟩⟩
          exact ended_of_settle hsome (State.expire_eq hid' hatt' hlate)
        · have hstep : ({ s.engine with journal := [] } : State).step (.expire id)
              = { s.engine with journal := [] } := by
            simp only [State.step, State.expire, hid, hatt', hlate, decide_false, Bool.and_false,
              Bool.false_eq_true, if_false]
          refine Or.inl ⟨by simp [hlate], ?_, ?_⟩
          · show (s.ask (.expire id)).engine.calls = s.engine.calls
            rw [Site.ask, hstep]
          · show (s.ask (.expire id)).backend = s.backend
            rw [Site.ask, hstep]
            rfl

end Looks

/-- A call that is on time can end in a calm run, at the moment when it is due. -/
theorem OnTime.exists_calm {begun : Nat} {b : Conduct} {limit : Span} {call : Call} {e : Entity}
    {a : Action} {o : Owner} (hs : s.InOrder) (h : s.OnTime id p begun b limit)
    (hd : Depends s.whole c id e p a o) (hw : .cancelled c ∉ s.journal)
    (hreply : (s.backend.list p).2 = b.reply) (hid : s.engine.calls.get? id = some call) :
    ∃ acts, s.Calm c id p acts ∧ (s.run acts).engine.calls.get? id = none
      ∧ (s.run acts).engine.now = begun + b.due limit := by
  -- time runs up to that moment, and then the owner of the call looks
  let wait := begun + b.due limit - s.engine.now
  let u := s.act (.ask (.elapse wait))
  have hbefore : s.engine.now ≤ begun + b.due limit := h.before (by simp [hid])
  have hnow : u.engine.now = begun + b.due limit := by
    show s.engine.now + wait = begun + b.due limit
    omega
  have hatt : ∀ {call}, s.engine.calls.get? id = some call → s.engine.attended call = true :=
    fun {call} hid => hd.attended (s := s.whole) hs.books hw hid
  have hrest : s.rests id u.engine.now = true := hnow ▸ h.rests_due hid
  have hthen : u.OnTime id p begun b limit := h.act hs hatt hreply hrest
  have hdue : u.due id = true := hthen.due hid (hatt hid) hnow
  obtain ⟨left, hended, -⟩ := (u.poll_cases fun call hid => (hthen.call hid).2.1).resolve_left
    fun hnot => by simp [hdue] at hnot
  refine ⟨[.ask (.elapse wait), .poll id], ⟨?_, fun l hl => ?_, fun hc => ?_⟩, ?_, ?_⟩
  · have hstill : u.rests id (u.poll id).engine.now = true := by simp [rests, hended.now]
    simp only [prompt, Bool.and_true, Bool.and_eq_true_iff]
    exact ⟨hrest, hstill⟩
  · have hsteady : ∀ act ∈ [Act.ask (.elapse wait), .poll id], act.alters = false := by
      simp [Act.alters]
    exact list_run _ p fun act hact => hsteady act (hl.subset hact)
  · rcases hended.notes _ hc with hc | hc | ⟨c, o', hc⟩ | ⟨q, S, o', hc⟩
    · exact hw hc
    · cases hc
    · cases hc
    · cases hc
  · show (u.poll id).engine.calls.get? id = none
    rw [hended.calls, Table.get?_erase_self]
  · show (u.poll id).engine.now = begun + b.due limit
    rw [hended.now, hnow]

/-! ## Somebody asks

Two kinds of callers ask for a list: one that misses where no fetch is registered, and one whose
engine has no cache.  `Asks` is what they have in common, and from it all of `Tells` follows. -/

/-- The site after somebody has asked whether the principal may do this. -/
def asked (s : Site) (e : Entity) (p : Principal) (a : Action) : Site :=
  s.act (.ask (.enforce e p a))

/-- Whoever asks whether the principal may do this has a list about the principal asked for. -/
structure Asks (s : Site) (e : Entity) (p : Principal) (a : Action) (o : Owner) : Prop where
  calls : (s.asked e p a).engine.calls = s.engine.calls.put (s.engine.next + 1)
    ⟨p, .listing, o, s.engine.now,
      s.engine.now + s.engine.settings.backendTimeout.ceilMillis⟩
  backend : (s.asked e p a).backend
    = s.backend.begin (.call (s.engine.next + 1)) .listing p s.engine.now
  now : (s.asked e p a).engine.now = s.engine.now
  next : (s.asked e p a).engine.next = s.engine.next + 2
  depends : Depends (s.asked e p a).whole s.engine.next (s.engine.next + 1) e p a o
  waits : .cancelled s.engine.next ∉ (s.asked e p a).journal

/-- Whoever asks next whether the principal may do this is told `o`, `wait` milliseconds later and
not before, and for this the backend is asked for one list. -/
structure Tells (s : Site) (e : Entity) (p : Principal) (a : Action) (wait : Nat) (o : Outcome) :
    Prop where
  /-- One list is asked for, and it is all that is waited for. -/
  began : ∃ owner, .began (s.engine.next + 1) p .listing owner ∈ (s.asked e p a).journal
  joined : ∀ acts id, .joined s.engine.next id ∈ ((s.asked e p a).run acts).journal
    ↔ id = s.engine.next + 1
  /-- As long as nobody else asks for anything, the backend has counted one list more. -/
  counted : ∀ acts, (∀ act ∈ acts, act = .poll (s.engine.next + 1) ∨ ∃ k, act = .ask (.elapse k)) →
    .returned s.engine.next o ∈ ((s.asked e p a).run acts).journal →
    ((s.asked e p a).run acts).backend.calls = s.backend.calls + 1
  early : ∀ acts, (s.asked e p a).Calm s.engine.next (s.engine.next + 1) p acts → ∀ o',
    .returned s.engine.next o' ∈ ((s.asked e p a).run acts).journal →
    o' = o ∧ s.engine.now + wait ≤ ((s.asked e p a).run acts).engine.now
  late : ∀ acts, (s.asked e p a).Calm s.engine.next (s.engine.next + 1) p acts →
    s.engine.now + wait < ((s.asked e p a).run acts).engine.now →
    .returned s.engine.next o ∈ ((s.asked e p a).run acts).journal
  /-- It can be told at that moment. -/
  possible : ∃ acts, (s.asked e p a).Calm s.engine.next (s.engine.next + 1) p acts
    ∧ .returned s.engine.next o ∈ ((s.asked e p a).run acts).journal
    ∧ ((s.asked e p a).run acts).engine.now = s.engine.now + wait

namespace Asks

variable {e : Entity} {a : Action} {o : Owner}

theorem get? (h : s.Asks e p a o) : (s.asked e p a).engine.calls.get? (s.engine.next + 1)
    = some ⟨p, .listing, o, s.engine.now,
      s.engine.now + s.engine.settings.backendTimeout.ceilMillis⟩ := by
  rw [h.calls, Table.get?_put_self]

theorem list (h : s.Asks e p a o) :
    ((s.asked e p a).backend.list p).2 = (s.backend.conduct p).reply := by
  rw [h.backend]
  exact (s.backend.begin_same ..).list p

theorem onTime (hs : s.InOrder) (h : s.Asks e p a o) :
    (s.asked e p a).OnTime (s.engine.next + 1) p s.engine.now (s.backend.conduct p)
      s.engine.settings.backendTimeout where
  known := by
    rw [h.next]
    exact Nat.lt_succ_self _
  since := Nat.le_of_eq h.now.symm
  call hid := by
    rw [h.get?, Option.some_inj] at hid
    subst hid
    exact ⟨rfl, rfl, rfl⟩
  ready _ now hle := by
    rw [h.backend]
    exact Backend.ready_begin (hs.fresh _ (Nat.le_succ _)) .listing hle
  before _ := by
    rw [h.now]
    exact Nat.le_add_right _ _
  ended he := by
    have hbooks : Books (s.asked e p a).whole := (hs.act _).books
    exact absurd he (hbooks.calls.not_ended h.get?)

theorem depends_run (hs : s.InOrder) (h : s.Asks e p a o) (acts : List Act) :
    Depends ((s.asked e p a).run acts).whole s.engine.next (s.engine.next + 1) e p a o :=
  h.depends.mono ((hs.act (.ask (.enforce e p a))).suffix_run acts).subset

/-- In a calm run the caller is told when the call is due, and no other time. -/
theorem told (hs : s.InOrder) (h : s.Asks e p a o)
    (hcalm : (s.asked e p a).Calm s.engine.next (s.engine.next + 1) p acts) :
    (∀ o', .returned s.engine.next o' ∈ ((s.asked e p a).run acts).journal →
      o' = (Request.enforce e p a).outcome o s.engine.settings.backendTimeout
          ((s.backend.conduct p).ending s.engine.settings.backendTimeout)
        ∧ s.engine.now + (s.backend.conduct p).due s.engine.settings.backendTimeout
          ≤ ((s.asked e p a).run acts).engine.now)
    ∧ (((s.asked e p a).run acts).engine.calls.get? (s.engine.next + 1) = none →
      .returned s.engine.next ((Request.enforce e p a).outcome o s.engine.settings.backendTimeout
          ((s.backend.conduct p).ending s.engine.settings.backendTimeout))
        ∈ ((s.asked e p a).run acts).journal) := by
  have hasked : (s.asked e p a).InOrder := hs.act _
  have hbooks := (hasked.run acts).books
  have htime := (h.onTime hs).run hasked h.depends h.list hcalm
  have hdepends := h.depends_run hs acts
  have hlimit : ((s.asked e p a).run acts).whole.settings = s.engine.settings :=
    (hasked.settings_run acts).trans (hs.settings_run [.ask (.enforce e p a)])
  refine ⟨fun o' hr => ?_, fun hnone => ?_⟩
  · obtain ⟨ending, he, rfl⟩ := hdepends.of_returned hbooks hr
    obtain ⟨rfl, hle⟩ := htime.ended he
    rw [hlimit]
    exact ⟨rfl, hle⟩
  · rcases hdepends.cases hbooks hcalm.waits with ⟨call, hid, -⟩ | ⟨ending, he, hr⟩
    · have hid : ((s.asked e p a).run acts).engine.calls.get? (s.engine.next + 1) = some call := hid
      rw [hnone] at hid
      cases hid
    · obtain ⟨rfl, -⟩ := htime.ended he
      rwa [hlimit] at hr

/-- The caller can be told at the moment when the call is due. -/
theorem exists_calm (hs : s.InOrder) (h : s.Asks e p a o) :
    ∃ acts, (s.asked e p a).Calm s.engine.next (s.engine.next + 1) p acts
      ∧ ((s.asked e p a).run acts).engine.calls.get? (s.engine.next + 1) = none
      ∧ ((s.asked e p a).run acts).engine.now
        = s.engine.now + (s.backend.conduct p).due s.engine.settings.backendTimeout :=
  (h.onTime hs).exists_calm (hs.act _) h.depends h.waits h.list h.get?

/-! ### How many calls the backend has counted

A backend with a script counts a list when it is asked for, the store when it answers.  In both
cases it has counted one more list when the caller is told. -/

/-- The backend of `t` has counted one list more than that of `s`, or will have when it answers the
call that is under way. -/
structure Counts (s t : Site) (id : Id) : Prop where
  listing : ∀ call, t.engine.calls.get? id = some call → call.question = .listing
  unscripted : t.backend.kind = .store →
    t.backend.script = {} ∧ t.backend.readyAt? (.call id) = none
  counted : t.backend.calls
    + (if t.backend.kind = .store ∧ t.engine.calls.get? id ≠ none then 1 else 0)
      = s.backend.calls + 1

theorem Counts.poll {t : Site} {id : Id} (h : Counts s t id) : Counts s (t.poll id) id := by
  rcases t.poll_cases h.listing with ⟨-, hcalls, hbackend⟩ | ⟨b, hended, hb⟩
  · exact ⟨by rw [hcalls]; exact h.listing, by rw [hbackend]; exact h.unscripted,
      by rw [hcalls, hbackend]; exact h.counted⟩
  · have hnone : (t.poll id).engine.calls.get? id = none := by
      rw [hended.calls, Table.get?_erase_self]
    have hcounted := h.counted
    have hsame : t.backend.Same b ∧ b.calls
        = t.backend.calls + if t.backend.kind = .store then 1 else 0 := by
      rcases hb with ⟨p, rfl⟩ | ⟨hready, rfl⟩
      · exact ⟨t.backend.list_same p, Backend.calls_list (fun hk => (h.unscripted hk).1) p⟩
      · have hk : t.backend.kind ≠ .store := by
          intro hk
          rw [Backend.ready, (h.unscripted hk).2] at hready
          cases hready
        exact ⟨.refl _, by rw [if_neg hk, Nat.add_zero]⟩
    refine ⟨fun call hid => ?_, fun hk => ?_, ?_⟩
    · rw [hnone] at hid
      cases hid
    · rw [hended.backend] at hk ⊢
      have hk : t.backend.kind = .store := hsame.1.kind.symm.trans hk
      exact ⟨hsame.1.script.trans (h.unscripted hk).1, Table.get?_erase_self⟩
    · have hleave : (t.poll id).backend.calls = b.calls := by rw [hended.backend]; rfl
      rw [hnone, hleave, hsame.2]
      simpa [hended.underway] using hcounted

theorem counts (hs : s.InOrder) (h : s.Asks e p a o) :
    Counts s (s.asked e p a) (s.engine.next + 1) where
  listing call hid := by
    rw [h.get?, Option.some_inj] at hid
    rw [← hid]
  unscripted hk := by
    rw [h.backend] at hk ⊢
    have hsame := s.backend.begin_same (.call (s.engine.next + 1)) .listing p s.engine.now
    have hk : s.backend.kind = .store := hsame.kind.symm.trans hk
    refine ⟨hsame.script.trans (hs.plain hk), ?_⟩
    rw [Backend.begin, if_pos hk]
    exact hs.fresh _ (Nat.le_succ _)
  counted := by
    have hsame := s.backend.begin_same (.call (s.engine.next + 1)) .listing p s.engine.now
    rw [h.get?, h.backend, hsame.kind, Backend.calls_begin]
    by_cases hk : s.backend.kind = .store <;> simp [hk]

theorem counts_run (hs : s.InOrder) (h : s.Asks e p a o) {acts : List Act}
    (hacts : ∀ act ∈ acts, act = .poll (s.engine.next + 1) ∨ ∃ k, act = .ask (.elapse k)) :
    Counts s ((s.asked e p a).run acts) (s.engine.next + 1) := by
  have hstart := h.counts hs
  generalize s.asked e p a = t at hstart
  induction acts generalizing t with
  | nil => exact hstart
  | cons act acts ih =>
    refine ih (fun act hact => hacts act (List.mem_cons_of_mem _ hact)) (t.act act) ?_
    rcases hacts act List.mem_cons_self with rfl | ⟨k, rfl⟩
    · exact hstart.poll
    · exact ⟨hstart.listing, hstart.unscripted, hstart.counted⟩

/-- **Whoever has a list asked for is told what comes of it, exactly when it is due.** -/
theorem tells (hs : s.InOrder) (h : s.Asks e p a o) :
    s.Tells e p a ((s.backend.conduct p).due s.engine.settings.backendTimeout)
      ((Request.enforce e p a).outcome o s.engine.settings.backendTimeout
        ((s.backend.conduct p).ending s.engine.settings.backendTimeout)) := by
  have hasked : (s.asked e p a).InOrder := hs.act _
  refine ⟨⟨o, h.depends.began⟩, fun acts id => ⟨fun hj => ?_, ?_⟩, fun acts hacts hr => ?_,
    fun acts hcalm o' hr => (h.told hs hcalm).1 o' hr, fun acts hcalm hlt => ?_, ?_⟩
  · have hrun : Books ((s.asked e p a).run acts).whole := (hasked.run acts).books
    exact (hrun.callers.joined_unique ((hasked.suffix_run acts).subset h.depends.joined) hj).symm
  · rintro rfl
    exact (hasked.suffix_run acts).subset h.depends.joined
  · have hcounts := h.counts_run hs hacts
    have hnone : ((s.asked e p a).run acts).engine.calls.get? (s.engine.next + 1) = none := by
      have hrun : Books ((s.asked e p a).run acts).whole := (hasked.run acts).books
      obtain ⟨ending, he, -⟩ := (h.depends_run hs acts).of_returned hrun hr
      exact (hrun.calls.of_ended he).1
    have hcounted := hcounts.counted
    rw [hnone] at hcounted
    simpa using hcounted
  · refine (h.told hs hcalm).2 ?_
    by_contra hsome
    have htime := (h.onTime hs).run hasked h.depends h.list hcalm
    exact absurd (htime.before hsome) (Nat.not_le_of_lt hlt)
  · obtain ⟨acts, hcalm, hnone, hnow⟩ := h.exists_calm hs
    exact ⟨acts, hcalm, (h.told hs hcalm).2 hnone, hnow⟩

end Asks

end Site

end Gatekeeper

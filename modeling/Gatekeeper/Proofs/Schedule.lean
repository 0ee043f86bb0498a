import Gatekeeper.Proofs.Completion
import Gatekeeper.Proofs.Deadline
import Gatekeeper.Proofs.Loop

/-!
# Schedules of a pass

While nobody asks anything of an engine that runs a pass, what happens to the pass is up to two: the
backend, which behaves towards each principal in its own way, and the scheduler, which decides when
the pass starts a call, when the owner of a call looks at it, when the pass looks at a result, and
how much time goes by in between.

* `Turn` — what the scheduler can have happen, given how the backend behaves; `Paced` are the turns
  in which no owner is kept waiting.
* `Follows` — every event of a sequence is an allowed one.
* `Steady` — the endless schedules that put nothing off for ever, and `exists_steady`, which says
  that there is one from every state.
* `Proceeds` — what a turn makes of the engine, and `Turn.proceeds`, which says that this is all.

Turns are a subset of events, so everything that is known of runs holds of schedules.  They are
singled out because a statement about what a pass *comes to* needs to exclude that somebody else
writes into the cache or takes the pass away.
-/

set_option autoImplicit false

namespace Gatekeeper.Engine

/-! ## Turns

Turns are events, and which of them are allowed depends on the state and on how the backend
behaves.  A call is answered when its reply has come, and otherwise its owner looks at the clock. -/

/-- What happens when the owner of a call looks at it: the reply is there, or else the owner looks
at the clock. -/
def State.attend (s : State) (b : Principal → Conduct) (id : Id) (call : Call) : Event :=
  if (b call.principal).ready call.begun s.now then .answer id (b call.principal).reply
  else .expire id

/-- What can happen to a pass while nothing is asked of the engine, if `b` is how the backend
behaves. -/
inductive Turn (b : Principal → Conduct) (n : Id) (s : State) : Event → Prop
  | launch (p : Principal) : Turn b n s (.launch n p)
  | attend {id : Id} {call : Call} (hid : s.calls.get? id = some call) (ho : call.owner = .pass n) :
    Turn b n s (s.attend b id call)
  | collect (p : Principal) : Turn b n s (.collect n p)
  | elapse (millis : Nat) : Turn b n s (.elapse millis)

/-- Turns in which no owner of a call is kept waiting for longer than `d` says for the principal. -/
structure Paced (b : Principal → Conduct) (n : Id) (d : Principal → Nat) (s : State) (ev : Event) :
    Prop where
  turn : Turn b n s ev
  patience : ∀ {millis id call}, ev = .elapse millis → s.calls.get? id = some call →
    call.owner = .pass n → s.now + millis ≤ call.begun + d call.principal

/-- Every event of the sequence is one that `R` allows in the state in which it happens. -/
def Follows (R : State → Event → Prop) : State → List Event → Prop
  | _, [] => True
  | s, ev :: es => R s ev ∧ Follows R (s.step ev) es

namespace Follows

variable {R R' : State → Event → Prop} {s : State} {es es' : List Event}

theorem append (h : Follows R s es) (h' : Follows R (s.run es) es') : Follows R s (es ++ es') := by
  induction es generalizing s with
  | nil => exact h'
  | cons ev es ih => exact ⟨h.1, ih h.2 h'⟩

theorem mono (hR : ∀ s ev, R s ev → R' s ev) (h : Follows R s es) : Follows R' s es := by
  induction es generalizing s with
  | nil => trivial
  | cons ev es ih => exact ⟨hR _ _ h.1, ih h.2⟩

/-- **What the allowed events keep, a sequence of them keeps.** -/
theorem induction {P : State → Prop} (h : Follows R s es) (hs : P s)
    (hstep : ∀ es' ev, P (s.run es') → R (s.run es') ev → P ((s.run es').step ev)) :
    P (s.run es) := by
  induction es generalizing s with
  | nil => exact hs
  | cons ev es ih =>
    exact ih h.2 (hstep [] ev hs h.1) fun es' => hstep (ev :: es')

end Follows

/-! ## What a turn makes of an engine

Since nobody else is there, a turn does what it says to the pass or nothing at all. -/

/-- What a turn makes of an engine that runs a pass. -/
inductive Proceeds (b : Principal → Conduct) (n : Id) (ev : Event) (s : State) : State → Prop
  | waits {millis : Nat} (hev : millis = 0 ∨ ev = .elapse millis) :
    Proceeds b n ev s { s with now := s.now + millis }
  | launches {pass : Pass} {p : Principal} (hp : s.passes.get? n = some pass)
    (hq : p ∈ pass.queue) :
    Proceeds b n ev s
      ({ s with passes := s.passes.put n (pass.fly p) }.startCall p .listing (.pass n))
  | lands {id : Id} {call : Call} {ending : Ending} {r : Reply PrivilegeSet}
    (hid : s.calls.get? id = some call) (ho : call.owner = .pass n)
    (hr : (b call.principal).seen s.settings.backendTimeout call.begun s.now = some r) :
    Proceeds b n ev s ((s.endCall id call.principal ending).land n ⟨call.principal, id, r⟩)
  | looks {pass : Pass} {l : Landing} (hp : s.passes.get? n = some pass) (hl : l ∈ pass.landed)
    (hc : (pass.look l).complete = false) :
    Proceeds b n ev s { s.digest n l with passes := (s.digest n l).passes.put n (pass.look l) }
  | closes {pass : Pass} {l : Landing} (hp : s.passes.get? n = some pass) (hl : l ∈ pass.landed)
    (hc : (pass.look l).complete = true) :
    Proceeds b n ev s
      (({ s.digest n l with passes := (s.digest n l).passes.erase n }.note
        (.passFinished n (pass.look l).report)).reportPass pass.driver (pass.look l).report)

section

variable {b : Principal → Conduct} {d : Principal → Nat} {n id : Id} {call : Call} {s t : State}
  {ev : Event}

/-- Whoever finds something at a call of a pass has it land. -/
theorem step_attend_of_seen (h : Books s) (hclock : Clocked s)
    (hid : s.calls.get? id = some call) (ho : call.owner = .pass n) {r : Reply PrivilegeSet}
    (hr : (b call.principal).seen s.settings.backendTimeout call.begun s.now = some r) :
    ∃ ending, s.step (s.attend b id call)
      = (s.endCall id call.principal ending).land n ⟨call.principal, id, r⟩ := by
  have hatt : s.attended call = true := by rw [State.attended, ho]
  have hlist : call.question = .listing := h.calls.listing hid (by rw [ho]; rfl)
  rw [Conduct.seen] at hr
  rw [State.attend]
  split at hr
  · rename_i hready
    obtain rfl := Option.some_inj.mp hr
    rw [if_pos hready, State.step, State.answer_eq hid hatt hlist, State.settle, ho]
    exact ⟨_, rfl⟩
  · rename_i hready
    split at hr
    · rename_i hlate
      obtain rfl := Option.some_inj.mp hr
      rw [← hclock.deadline hid] at hlate
      rw [if_neg hready, State.step, State.expire_eq hid hatt hlate, State.settle, ho]
      exact ⟨_, rfl⟩
    · cases hr

/-- Whoever finds nothing at a call goes on waiting. -/
theorem step_attend_of_unseen (hclock : Clocked s) (hid : s.calls.get? id = some call)
    (hr : (b call.principal).seen s.settings.backendTimeout call.begun s.now = none) :
    s.step (s.attend b id call) = s := by
  rw [Conduct.seen] at hr
  split at hr
  · cases hr
  · rename_i hready
    split at hr
    · cases hr
    · rename_i hlate
      rw [← hclock.deadline hid] at hlate
      rw [State.attend, if_neg hready, State.step, State.expire, hid]
      exact if_neg (by simp [hlate])

/-- **A turn has the pass start a call, have one end, look at a result, or do nothing.** -/
theorem Turn.proceeds (h : Books s) (hclock : Clocked s) (ht : Turn b n s ev) :
    Proceeds b n ev s (s.step ev) := by
  have hsame : ∀ {u}, u = s → Proceeds b n ev s u := by
    rintro u rfl
    exact .waits (Or.inl rfl)
  cases ht with
  | launch p =>
    rw [State.step, State.launch]
    cases hp : s.passes.get? n with
    | none => exact hsame rfl
    | some pass =>
      dsimp only
      split
      · rename_i hq
        exact .launches hp hq.1
      · exact hsame rfl
  | @attend id call hid ho =>
    cases hr : (b call.principal).seen s.settings.backendTimeout call.begun s.now with
    | none => exact hsame (step_attend_of_unseen hclock hid hr)
    | some r =>
      obtain ⟨ending, hstep⟩ := step_attend_of_seen h hclock hid ho hr
      rw [hstep]
      exact .lands hid ho hr
  | collect p =>
    rw [State.step]
    rcases State.collect_cases s n p with hs | ⟨pass, l, hp, hh, hf⟩
    · exact hsame hs
    · have hl := List.mem_of_find?_eq_some hf
      rw [State.collect_eq hp hh hf]
      split
      · rename_i hc
        exact .closes hp hl hc
      · rename_i hc
        exact .looks hp hl (Bool.eq_false_iff.mpr hc)
  | elapse millis => exact .waits (Or.inr rfl)

/-- No owner of a call has been kept waiting for longer than `d` says. -/
def Prompt (n : Id) (d : Principal → Nat) (s : State) : Prop :=
  ∀ {id call}, s.calls.get? id = some call → call.owner = .pass n →
    s.now ≤ call.begun + d call.principal

theorem Prompt.step (h : Books s) (hclock : Clocked s) (hs : Prompt n d s)
    (hp : Paced b n d s ev) : Prompt n d (s.step ev) := by
  have hproc := hp.turn.proceeds h hclock
  generalize s.step ev = t at hproc
  intro id call hid ho
  cases hproc with
  | waits hev =>
    rcases hev with rfl | hev
    · exact hs hid ho
    · exact hp.patience hev hid ho
  | launches =>
    rcases Table.get?_put_eq_some_iff.mp hid with ⟨-, rfl⟩ | ⟨-, hid⟩
    · exact Nat.le_add_right ..
    · exact hs hid ho
  | lands => exact hs (Table.get?_erase_eq_some_iff.mp hid).2 ho
  | looks =>
    rw [State.digest_eq] at hid ⊢
    exact hs hid ho
  | @closes pass l =>
    rw [State.digest_eq] at hid ⊢
    revert hid
    cases pass.driver <;> exact fun hid => hs hid ho

/-! ## Steady schedules

A schedule is steady if time goes on and everything that can be done for the pass is done at some
time.  As with fair runs, such schedules are shown to exist from every state. -/

/-- Endless schedules in which time goes on and nothing that concerns the pass is put off for ever.
-/
structure Steady (b : Principal → Conduct) (n : Id) (s : State) (events : Nat → Event) :
    Prop where
  turns : ∀ k, Turn b n (s.trace events k) (events k)
  clock : ∀ t, ∃ k, t ≤ (s.trace events k).now
  launches : ∀ k, ∃ m, k ≤ m
    ∧ ((s.trace events m).Launchable n → (s.trace events m).Launches n (events m))
  attends : ∀ id k, ∃ m, k ≤ m ∧ ∀ call, (s.trace events m).calls.get? id = some call →
    call.owner = .pass n →
    (b call.principal).seen (s.trace events m).settings.backendTimeout call.begun
      (s.trace events m).now ≠ none →
    events m = (s.trace events m).attend b id call
  collects : ∀ k, ∃ m, k ≤ m
    ∧ ((s.trace events m).Collectable n → (s.trace events m).Collects n (events m))

theorem Steady.follows {events : Nat → Event} (hs : Steady b n s events) (k : Nat) :
    Follows (Turn b n) s ((List.range k).map events) := by
  induction k with
  | zero => trivial
  | succ k ih =>
    rw [List.range_succ, List.map_append]
    exact ih.append ⟨s.trace_eq_run events k ▸ hs.turns k, trivial⟩

/-- In a steady schedule the caller that runs the pass is told its report, or gives up. -/
theorem Steady.told (h : Books s) (hclock : Clocked s) {events : Nat → Event}
    (hs : Steady b n s events) {pass : Pass} {c : Id} (hp : s.passes.get? n = some pass)
    (hd : pass.driver = .caller c) : ∃ m, Told (s.trace events m) c := by
  refine told_of_over h (k := 0)
    (over_of_turns h hs.launches hs.collects (fun {k id call} _ ho => ?_) 0) hp hd
  obtain ⟨a, ha⟩ := hs.clock call.deadline
  obtain ⟨m, hm, hattend⟩ := hs.attends id (max k a)
  refine ⟨m, Nat.le_trans (Nat.le_max_left ..) hm, fun pass hp hid => ?_⟩
  have hbooks := h.trace events m
  have hclocked : Clocked (s.trace events m) := s.trace_eq_run events m ▸ hclock.run h.orderly _
  have hdeadline : call.deadline ≤ (s.trace events m).now :=
    Nat.le_trans ha (now_le_trace h events (Nat.le_trans (Nat.le_max_right ..) hm))
  obtain ⟨r, hr⟩ : ∃ r, (b call.principal).seen (s.trace events m).settings.backendTimeout
      call.begun (s.trace events m).now = some r := by
    rw [hclocked.deadline hid] at hdeadline
    rw [Conduct.seen]
    split <;> exact ⟨_, rfl⟩
  obtain ⟨ending, hstep⟩ := step_attend_of_seen hbooks hclocked hid ho hr
  have hf := hbooks.passes.flying_of_owner hp hid ho
  have hp' : ((s.trace events m).endCall id call.principal ending).passes.get? n = some pass := hp
  rw [State.trace, hattend call hid ho (by simp [hr]), hstep, State.land_eq hp']
  exact .of_get? Table.get?_put_self (pass.load_land hf)

/-- What a scheduler can do for a pass, numbered: time passes, the owner of a call looks at it, the
pass starts a call, or looks at a result. -/
def State.passTurn (b : Principal → Conduct) (n : Id) (s : State) (i : Nat) : Event :=
  match i % 4 with
  | 0 => .elapse 1
  | 1 => match s.calls.get? (i / 4) with
    | some call => if call.owner = .pass n then s.attend b (i / 4) call else .elapse 0
    | none => .elapse 0
  | 2 => s.firstLaunch n
  | _ => s.firstCollect n

theorem turn_passTurn (b : Principal → Conduct) (n : Id) (s : State) (i : Nat) :
    Turn b n s (s.passTurn b n i) := by
  rw [State.passTurn]
  split
  · exact .elapse 1
  · split
    · rename_i call hid
      split
      · rename_i ho
        exact .attend hid ho
      · exact .elapse 0
    · exact .elapse 0
  · rw [State.firstLaunch]
    split
    · exact .launch _
    · exact .elapse 0
  · rw [State.firstCollect]
    split
    · exact .collect _
    · exact .elapse 0

/-- **From every state there is a steady schedule.** -/
theorem exists_steady (h : Books s) (b : Principal → Conduct) (n : Id) :
    ∃ events, Steady b n s events := by
  obtain ⟨events, hevents, hturn⟩ := exists_schedule s (State.passTurn b n)
  refine ⟨events, fun k => ?_, clock_of_ticks h fun k => hturn 0 k, fun k => ?_, fun id k => ?_,
    fun k => ?_⟩
  · obtain ⟨i, hi⟩ := hevents k
    rw [hi]
    exact turn_passTurn b n _ i
  · obtain ⟨m, hkm, hm⟩ := hturn 2 k
    refine ⟨m, hkm, fun hl => ?_⟩
    rw [hm]
    exact State.launches_firstLaunch hl
  · obtain ⟨m, hkm, hm⟩ := hturn (4 * id + 1) k
    refine ⟨m, hkm, fun call hid ho _ => ?_⟩
    have hsort : ∀ i : Nat, (4 * i + 1) % 4 = 1 := by omega
    have habout : ∀ i : Nat, (4 * i + 1) / 4 = i := by omega
    rw [hm, State.passTurn, hsort, habout]
    rw [hid]
    exact if_pos ho
  · obtain ⟨m, hkm, hm⟩ := hturn 3 k
    refine ⟨m, hkm, fun hl => ?_⟩
    rw [hm]
    exact State.collects_firstCollect hl

end

end Gatekeeper.Engine

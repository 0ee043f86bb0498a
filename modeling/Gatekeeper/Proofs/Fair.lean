import Gatekeeper.Proofs.Cache

/-!
# Fair runs

An endless run is fair if time goes on and nothing that could happen by itself is put off for ever:
a call that is overdue is ended or goes, a pass starts the calls that it may start, and it looks at
what has landed.  What callers and the backend do is left open.

* `State.trace` — the states of an endless run.
* `Fair` — the condition on the order in which things happen.
* `exists_schedule` — there are runs in which everything of a sort gets its turn again and again.
* `exists_fair` — from every state there is a fair run.

Fairness is asked for each thing by itself, and only as long as it could happen.  It does not say
that a backend answers; what it has instead is that time goes on, and that somebody looks at the
clock.
-/

set_option autoImplicit false

namespace Gatekeeper.Engine

namespace State

/-- The state after the first `n` events. -/
def trace (s : State) (events : Nat → Event) : Nat → State
  | 0 => s
  | n + 1 => (s.trace events n).step (events n)

theorem trace_eq_run (s : State) (events : Nat → Event) (n : Nat) :
    s.trace events n = s.run ((List.range n).map events) := by
  induction n with
  | zero => rfl
  | succ n ih =>
    rw [List.range_succ, List.map_append, run_append, ← ih]
    rfl

/-- Somebody looks after the call, whose time is up. -/
def Overdue (s : State) (id : Id) : Prop :=
  ∃ call, s.calls.get? id = some call ∧ s.attended call = true ∧ call.deadline ≤ s.now

/-- The event starts one of the calls that the pass has not started. -/
def Launches (s : State) (n : Id) (ev : Event) : Prop :=
  ∃ pass p, s.passes.get? n = some pass ∧ p ∈ pass.queue ∧ ev = .launch n p

/-- The event has the pass look at one of its results. -/
def Collects (s : State) (n : Id) (ev : Event) : Prop :=
  ∃ pass l, s.passes.get? n = some pass ∧ l ∈ pass.landed ∧ ev = .collect n l.principal

/-- The pass may start a call. -/
def Launchable (s : State) (n : Id) : Prop :=
  ∃ pass, s.passes.get? n = some pass ∧ pass.queue ≠ [] ∧ pass.flying.length < s.parallelism

/-- The pass has a result to look at, and is free to do so. -/
def Collectable (s : State) (n : Id) : Prop :=
  ∃ pass, s.passes.get? n = some pass ∧ s.halted pass = false ∧ pass.landed ≠ []

end State

/-- Time goes on, and nothing that could happen by itself is put off for ever. -/
structure Fair (s : State) (events : Nat → Event) : Prop where
  clock : ∀ t, ∃ n, t ≤ (s.trace events n).now
  expires : ∀ id n, ∃ m, n ≤ m ∧ ((s.trace events m).Overdue id → events m = .expire id)
  launches : ∀ k n, ∃ m, n ≤ m ∧
    ((s.trace events m).Launchable k → (s.trace events m).Launches k (events m))
  collects : ∀ k n, ∃ m, n ≤ m ∧
    ((s.trace events m).Collectable k → (s.trace events m).Collects k (events m))

theorem Books.trace {s : State} (h : Books s) (events : Nat → Event) (n : Nat) :
    Books (s.trace events n) := by
  rw [s.trace_eq_run]
  exact h.run _

theorem now_le_trace {s : State} (h : Books s) (events : Nat → Event) {n m : Nat} (hnm : n ≤ m) :
    (s.trace events n).now ≤ (s.trace events m).now := by
  induction hnm with
  | refl => exact Nat.le_refl _
  | step _ ih => exact Nat.le_trans ih ((h.trace events _).orderly.now_le_step _)

theorem next_le_trace {s : State} (h : Books s) (events : Nat → Event) {n m : Nat} (hnm : n ≤ m) :
    (s.trace events n).next ≤ (s.trace events m).next := by
  induction hnm with
  | refl => exact Nat.le_refl _
  | step _ ih => exact Nat.le_trans ih ((h.trace events _).orderly.next_le_step _)

theorem suffix_trace {s : State} (h : Books s) (events : Nat → Event) {n m : Nat} (hnm : n ≤ m) :
    (s.trace events n).journal <:+ (s.trace events m).journal := by
  induction hnm with
  | refl => exact List.suffix_refl _
  | @step m _ ih => exact ih.trans ((h.trace events m).suffix_run [events m])

theorem settings_trace {s : State} (h : Books s) (events : Nat → Event) (n : Nat) :
    (s.trace events n).settings = s.settings := by
  rw [s.trace_eq_run]
  exact h.orderly.settings_run _

/-! ## A fair run

That fair runs exist is shown by giving each call and each pass its turn again and again, in the
order in which pairs of numbers are counted.  So no statement about fair runs is empty. -/

namespace State

/-- The event that starts the first call in the queue of a pass. -/
def firstLaunch (s : State) (n : Id) : Event :=
  match (s.passes.get? n).map Pass.queue with
  | some (p :: _) => .launch n p
  | _ => .elapse 0

/-- The event that has a pass look at its first result. -/
def firstCollect (s : State) (n : Id) : Event :=
  match (s.passes.get? n).map Pass.landed with
  | some (l :: _) => .collect n l.principal
  | _ => .elapse 0

theorem launches_firstLaunch {s : State} {n : Id} (h : s.Launchable n) :
    s.Launches n (s.firstLaunch n) := by
  obtain ⟨pass, hp, hq, -⟩ := h
  obtain ⟨p, ps, hps⟩ := List.exists_cons_of_ne_nil hq
  rw [firstLaunch, hp, Option.map_some, hps]
  exact ⟨pass, p, hp, hps ▸ List.mem_cons_self, rfl⟩

theorem collects_firstCollect {s : State} {n : Id} (h : s.Collectable n) :
    s.Collects n (s.firstCollect n) := by
  obtain ⟨pass, hp, -, hl⟩ := h
  obtain ⟨l, ls, hls⟩ := List.exists_cons_of_ne_nil hl
  rw [firstCollect, hp, Option.map_some, hls]
  exact ⟨pass, l, hp, hls ▸ List.mem_cons_self, rfl⟩

/-- What can happen by itself, numbered: time passes, a call's time is looked at, a pass starts a
call, or a pass looks at a result. -/
def turn (s : State) (i : Nat) : Event :=
  match i % 4 with
  | 0 => .elapse 1
  | 1 => .expire (i / 4)
  | 2 => s.firstLaunch (i / 4)
  | _ => s.firstCollect (i / 4)

/-- The states of the run in which `choose` gets its turns in the order of `Nat.unpair`. -/
def turns (s : State) (choose : State → Nat → Event) : Nat → State
  | 0 => s
  | k + 1 => (turns s choose k).step (choose (turns s choose k) k.unpair.1)

end State

/-- **There is a run in which each of countably many things gets its turn again and again.** -/
theorem exists_schedule (s : State) (choose : State → Nat → Event) : ∃ events : Nat → Event,
    (∀ k, ∃ i, events k = choose (s.trace events k) i)
      ∧ ∀ i k, ∃ m, k ≤ m ∧ events m = choose (s.trace events m) i := by
  have htrace : ∀ k, s.trace (fun k => choose (s.turns choose k) k.unpair.1) k
      = s.turns choose k := by
    intro k
    induction k with
    | zero => rfl
    | succ k ih => rw [State.trace, ih, State.turns]
  refine ⟨fun k => choose (s.turns choose k) k.unpair.1, fun k => ⟨k.unpair.1, ?_⟩, fun i k => ?_⟩
  · rw [htrace]
  · refine ⟨Nat.pair i k, Nat.right_le_pair i k, ?_⟩
    rw [htrace]
    dsimp only
    rw [Nat.unpair_pair]

/-- If a moment passes again and again, time goes on. -/
theorem clock_of_ticks {s : State} (h : Books s) {events : Nat → Event}
    (ht : ∀ k, ∃ m, k ≤ m ∧ events m = .elapse 1) (t : Nat) :
    ∃ k, t ≤ (s.trace events k).now := by
  induction t with
  | zero => exact ⟨0, Nat.zero_le _⟩
  | succ t ih =>
    obtain ⟨k, hk⟩ := ih
    obtain ⟨m, hkm, hm⟩ := ht k
    refine ⟨m + 1, ?_⟩
    rw [State.trace, hm]
    exact Nat.succ_le_succ (Nat.le_trans hk (now_le_trace h events hkm))

/-- **From every state there is a fair run.** -/
theorem exists_fair {s : State} (h : Books s) : ∃ events, Fair s events := by
  obtain ⟨events, -, hturn⟩ := exists_schedule s State.turn
  have hsort : ∀ {i r : Nat}, r < 4 → (4 * i + r) % 4 = r := by omega
  have habout : ∀ {i r : Nat}, r < 4 → (4 * i + r) / 4 = i := by omega
  refine ⟨events, clock_of_ticks h fun k => hturn 0 k, fun id k => ?_, fun n k => ?_,
    fun n k => ?_⟩
  · obtain ⟨m, hkm, hm⟩ := hturn (4 * id + 1) k
    refine ⟨m, hkm, fun _ => ?_⟩
    rw [hm, State.turn, hsort (by omega), habout (by omega)]
    rfl
  · obtain ⟨m, hkm, hm⟩ := hturn (4 * n + 2) k
    refine ⟨m, hkm, fun hl => ?_⟩
    rw [hm, State.turn, hsort (by omega), habout (by omega)]
    exact State.launches_firstLaunch hl
  · obtain ⟨m, hkm, hm⟩ := hturn (4 * n + 3) k
    refine ⟨m, hkm, fun hl => ?_⟩
    rw [hm, State.turn, hsort (by omega), habout (by omega)]
    exact State.collects_firstCollect hl

end Gatekeeper.Engine

import Gatekeeper.Proofs.Fair
import Gatekeeper.Proofs.Marks

/-!
# Engines at rest

Passes and workers run by themselves.  An engine is at rest when all that could run has run: another
turn of any of them changes nothing, and it is for somebody else to do something, or for time to
pass.

* `State.AtRest` — the engine is at rest.
* `State.settled` — the same as something that can be computed: no pass may start a call or has a
  result to look at, and no worker has a tick to take or a stop to make; `atRest_iff` says that it
  is the same.

To be at rest is defined by what happens, and not by what is in the tables, so that the
definition does not depend on how passes and workers go about it.  The equivalence makes it
something that can be evaluated.
-/

set_option autoImplicit false

namespace Gatekeeper.Engine

/-- The event lets a pass or a worker run. -/
def Event.runs : Event → Bool
  | .launch .. | .collect .. | .wake _ => true
  | _ => false

/-- Everything that can run by itself has run. -/
def State.AtRest (s : State) : Prop := ∀ ev, ev.runs = true → s.step ev = s

/-- The worker has nothing to do before another tick is due. -/
def Worker.dormant (k : Worker) (now : Nat) : Bool :=
  match k.phase with
  | .fresh => false
  | .idle => !k.stopping && decide (now < k.due)
  | .refreshing _ => !k.stopping
  | .ended | .crashed => true

namespace State

/-- The pass has nothing to do before one of its calls ends. -/
def patient (s : State) (pass : Pass) : Bool :=
  (pass.queue.isEmpty || decide (s.parallelism ≤ pass.flying.length))
    && (s.halted pass || pass.landed.isEmpty)

/-- No pass and no worker has anything to do. -/
def settled (s : State) : Bool :=
  s.passes.values.all s.patient && s.workers.values.all fun k => k.dormant s.nowNanos

variable {s : State} {n w : Id} {pass : Pass} {k : Worker}

theorem settled_iff : s.settled = true ↔
    (∀ n pass, s.passes.get? n = some pass → s.patient pass = true)
      ∧ ∀ w k, s.workers.get? w = some k → k.dormant s.nowNanos = true := by
  rw [settled, Bool.and_eq_true, List.all_eq_true, List.all_eq_true]
  exact and_congr
    ⟨fun h n pass hp => h pass (Table.mem_values_iff.mpr ⟨n, hp⟩), fun h pass hp =>
      (Table.mem_values_iff.mp hp).elim fun n hp => h n pass hp⟩
    ⟨fun h w k hw => h k (Table.mem_values_iff.mpr ⟨w, hw⟩), fun h k hw =>
      (Table.mem_values_iff.mp hw).elim fun w hw => h w k hw⟩

/-! ## What is left to do

For each thing that could run there is a lemma that the engine is not at rest as long as it can;
the other direction looks at every event that lets something run and finds that it changes
nothing. -/

/-- A pass that may start a call is not at rest. -/
theorem AtRest.launch (h : s.AtRest) (hp : s.passes.get? n = some pass) :
    pass.queue = [] ∨ s.parallelism ≤ pass.flying.length := by
  by_contra hnot
  rw [not_or, Nat.not_le] at hnot
  obtain ⟨p, ps, hq⟩ := List.exists_cons_of_ne_nil hnot.1
  have hstep := h (.launch n p) rfl
  rw [step, launch_eq hp (hq ▸ List.mem_cons_self) hnot.2] at hstep
  exact Nat.succ_ne_self _ (congrArg State.next hstep)

/-- Nor is one that has a result to look at. -/
theorem AtRest.collect (h : s.AtRest) (hp : s.passes.get? n = some pass)
    (hh : s.halted pass = false) : pass.landed = [] := by
  by_contra hne
  obtain ⟨l, ls, hl⟩ := List.exists_cons_of_ne_nil hne
  have hfind : pass.landed.find? (·.principal == l.principal) = some l := by
    rw [hl]
    exact List.find?_cons_of_pos (beq_self_eq_true _)
  have hstep := h (.collect n l.principal) rfl
  have hmem : l ∈ pass.landed := hl ▸ List.mem_cons_self
  rw [step, collect_eq hp hh hfind] at hstep
  have hgone : s.passes.get? n ≠ some pass := by
    rw [← hstep]
    split
    · rw [digest_eq]
      cases pass.driver <;> simp [reportPass, note, finish, setPhase]
    · rw [digest_eq, Table.get?_put_self]
      intro he
      have hlength : (pass.landed.erase l).length = pass.landed.length :=
        congrArg (fun p => p.landed.length) (Option.some_inj.mp he)
      have hpos := List.length_pos_of_mem hmem
      rw [List.length_erase_of_mem hmem] at hlength
      omega
  exact hgone hp

theorem next_takeTick (ha : s.settings.cachingActive = true) (w : Id) (k : Worker) (due : Nat) :
    s.next < (s.takeTick w k due).next := by
  rw [takeTick]
  exact next_beginPass (s := { s with workers := s.workers.put w _ }) ha (.worker w)

/-- Nor is one with a worker that has a tick to take, or that has been asked to stop. -/
theorem AtRest.wake (ha : s.settings.cachingActive = true) (h : s.AtRest)
    (hw : s.workers.get? w = some k) : k.dormant s.nowNanos = true := by
  have hstep : s.wake w = s := h (.wake w) rfl
  have htick : ∀ due, s.takeTick w k due ≠ s := fun due he =>
    Nat.ne_of_gt (next_takeTick ha w k due) (congrArg State.next he)
  have hend : ∀ t : State, s.journal.length < t.journal.length → t.endWorker w ≠ s := by
    intro t hlt he
    have hlength := congrArg (fun s => s.journal.length) he
    rw [endWorker, finishAll_eq] at hlength
    simp only [List.length_append] at hlength
    have hsame : (t.setPhase w .ended).journal.length = t.journal.length := rfl
    omega
  rw [State.wake, hw] at hstep
  rw [Worker.dormant]
  cases hp : k.phase with
  | fresh =>
    simp only [hp] at hstep
    split at hstep
    · exact absurd hstep (hend _ (Nat.lt_succ_self _))
    · exact absurd hstep (htick _)
  | idle =>
    simp only [hp] at hstep
    split at hstep
    · exact absurd hstep (hend _ (Nat.lt_succ_self _))
    · rename_i hs
      split at hstep
      · exact absurd hstep (htick _)
      · rename_i hdue
        rw [Bool.not_eq_true] at hs
        simpa [hs] using hdue
  | refreshing n =>
    simp only [hp] at hstep
    split at hstep
    · refine absurd hstep (hend _ ?_)
      rw [dropPass_eq]
      simp only [note, List.length_cons, List.length_append]
      omega
    · rename_i hs
      simpa using hs
  | ended | crashed => rfl

/-- **An engine is at rest exactly when there is nothing left to do.** -/
theorem atRest_iff (ha : s.settings.cachingActive = true) : s.AtRest ↔ s.settled = true := by
  rw [settled_iff]
  constructor
  · refine fun h => ⟨fun n pass hp => ?_, fun w k hw => h.wake ha hw⟩
    rw [patient, Bool.and_eq_true, Bool.or_eq_true, Bool.or_eq_true, List.isEmpty_iff,
      List.isEmpty_iff, decide_eq_true_iff]
    refine ⟨h.launch hp, ?_⟩
    cases hh : s.halted pass with
    | true => exact .inl rfl
    | false => exact .inr (h.collect hp hh)
  · rintro ⟨hpasses, hworkers⟩ ev hev
    cases ev with
    | launch n p =>
      rw [step, State.launch]
      cases hp : s.passes.get? n with
      | none => rfl
      | some pass =>
        have hpatient := hpasses n pass hp
        rw [patient, Bool.and_eq_true, Bool.or_eq_true, List.isEmpty_iff,
          decide_eq_true_iff] at hpatient
        refine if_neg fun hlaunch => ?_
        rcases hpatient.1 with hq | hf
        · rw [hq] at hlaunch
          exact absurd hlaunch.1 List.not_mem_nil
        · exact absurd hlaunch.2 (Nat.not_lt_of_le hf)
    | collect n p =>
      rw [step]
      rcases collect_cases s n p with hs | ⟨pass, l, hp, hh, hl⟩
      · exact hs
      · have hpatient := hpasses n pass hp
        rw [patient, hh, Bool.false_or, Bool.and_eq_true, List.isEmpty_iff] at hpatient
        rw [hpatient.2] at hl
        cases hl
    | wake w =>
      rw [step, State.wake]
      cases hw : s.workers.get? w with
      | none => rfl
      | some k =>
        have hdormant := hworkers w k hw
        rw [Worker.dormant] at hdormant
        cases hp : k.phase with
        | fresh => simp [hp] at hdormant
        | idle =>
          simp only [hp, Bool.and_eq_true, Bool.not_eq_true', decide_eq_true_iff] at hdormant
          simp [hp, hdormant.1, Nat.not_le_of_lt hdormant.2]
        | refreshing n =>
          simp only [hp, Bool.not_eq_true'] at hdormant
          simp [hp, hdormant]
        | ended | crashed => simp [hp]
    | _ => cases hev

end State

end Gatekeeper.Engine

import Gatekeeper.Proofs.Marks

/-!
# The clock of an engine

Whatever happens to an engine happens at a moment: nothing but the passing of time moves the clock.

* `State.now_beginPass`, `State.now_settle` — the parts of steps that are not plain to see.
* `step_now` — no step moves the clock unless time passes.
-/

set_option autoImplicit false

namespace Gatekeeper.Engine

namespace State

variable (s : State)

/-! ## Parts of steps

Most parts of a step are updates of single tables, and there the clock is the same by definition.
These are the parts that go through a list or distinguish cases. -/

theorem now_endWorker (w : Id) : (s.endWorker w).now = s.now := by
  rw [endWorker, finishAll_eq]
  rfl

theorem now_dropPass (n : Id) : (s.dropPass n).now = s.now := by
  rw [dropPass_eq]

theorem now_dropCall (id : Id) : (s.dropCall id).now = s.now := by
  rw [dropCall]
  split <;> rfl

theorem now_reportPass (d : Driver) (r : Report) : (s.reportPass d r).now = s.now := by
  cases d <;> rfl

theorem now_beginPass (d : Driver) : (s.beginPass d).now = s.now := by
  cases ha : s.settings.cachingActive with
  | false =>
    have hactive : (!s.settings.cachingActive) = true := by
      rw [ha]
      rfl
    rw [beginPass, if_pos hactive, now_reportPass]
  | true =>
    rcases beginPass_cases ha d with ⟨-, hs⟩ | ⟨-, hs⟩ | ⟨-, hs⟩
    · rw [hs]
      cases d with
      | caller c => rfl
      | worker w =>
        rw [takeDown, crashWorker_eq]
        rfl
    · rw [hs, now_reportPass]
      rfl
    · rw [hs]
      cases d <;> rfl

theorem now_settle (id : Id) (call : Call) (r : Reply PrivilegeSet) :
    (s.settle id call r).now = s.now := by
  rw [settle]
  split
  · rw [settleFetch_eq]
  · rw [settleUpdate_eq]
  · rw [settleDirect_eq]
    rfl
  · rfl

theorem now_joinFetch (c : Id) (e : Entity) (p : Principal) (a : Action) :
    (s.joinFetch c e p a).now = s.now := by
  rw [joinFetch]
  dsimp only
  split <;> rfl

theorem now_enforce (e : Entity) (p : Principal) (a : Action) :
    (s.enforce e p a).now = s.now := by
  rw [enforce]
  split
  · rfl
  · split
    · rfl
    · split
      · rfl
      · split
        · exact now_joinFetch ..
        · rfl

theorem now_update (p : Principal) : (s.update p).now = s.now := by
  rw [update]
  split <;> rfl

theorem now_start (scheduler : Bool) : (s.start scheduler).now = s.now := by
  have hfor : ∀ (t : State) (c : Id), (t.startFor c scheduler).now = t.now := by
    intro t c
    rw [startFor]
    split
    · rfl
    · split
      · rfl
      · rfl
      · split
        · rfl
        · dsimp only
          split <;> rfl
  rw [start_eq, hfor]
  split <;> rfl

theorem now_stopWorker (c w : Id) : (s.stopWorker c w).now = s.now := by
  rw [stopWorker]
  split
  · rfl
  · split <;> rfl

theorem now_abortWorker (w : Id) : (s.abortWorker w).now = s.now := by
  rw [abortWorker]
  split
  · rfl
  · split
    · rfl
    · rfl
    · rw [now_endWorker, now_dropPass]
    · rw [now_endWorker]

theorem now_shutdown : s.shutdown.now = s.now := by
  rw [shutdown]
  split
  · exact now_stopWorker ..
  · rfl

theorem now_spawn (period : Span) : (s.spawn period).now = s.now := by
  rw [spawn]
  split <;> rfl

theorem now_cancel (c : Id) : (s.cancel c).now = s.now := by
  rw [cancel]
  split
  · rfl
  · dsimp only
    split
    · exact now_dropCall ..
    · exact now_dropPass ..
    · rfl
    · rfl

theorem now_drop : s.drop.now = s.now := by
  rw [drop]
  split
  · exact now_abortWorker ..
  · rfl

theorem now_answer (id : Id) (r : Reply PrivilegeSet) : (s.answer id r).now = s.now := by
  rw [answer]
  split
  · split
    · exact now_settle ..
    · rfl
  · rfl

theorem now_verdict (id : Id) (r : Reply Bool) : (s.verdict id r).now = s.now := by
  rw [verdict]
  split
  · split
    · rw [settleDirect_eq]
      rfl
    · rfl
  · rfl

theorem now_expire (id : Id) : (s.expire id).now = s.now := by
  rw [expire]
  split
  · split
    · exact now_settle ..
    · rfl
  · rfl

theorem now_launch (n : Id) (p : Principal) : (s.launch n p).now = s.now := by
  rw [launch]
  split
  · split <;> rfl
  · rfl

theorem now_collect (n : Id) (p : Principal) : (s.collect n p).now = s.now := by
  rcases collect_cases s n p with hs | ⟨pass, l, hp, hh, hl⟩
  · rw [hs]
  · rw [collect_eq hp hh hl, digest_eq]
    split
    · rw [now_reportPass]
      rfl
    · rfl

theorem now_wake (w : Id) : (s.wake w).now = s.now := by
  rcases s.wake_cases w with hs | ⟨k, due, -, -, -, hs⟩ | ⟨k, -, -, ⟨-, hs⟩ | ⟨n, -, hs⟩⟩
  · rw [hs]
  · rw [hs, takeTick, now_beginPass]
  · rw [hs, now_endWorker]
    rfl
  · rw [hs, now_endWorker]
    exact now_dropPass ..

end State

/-! ## Steps

Only the passing of time moves the clock, and by as much as has passed. -/

/-- **No step moves the clock unless time passes.** -/
theorem step_now (s : State) {ev : Event} (hev : ∀ millis, ev ≠ .elapse millis) :
    (s.step ev).now = s.now := by
  have hif : ∀ {t : State}, t.now = s.now → (if s.dropped then s else t).now = s.now := by
    intro t ht
    split
    · rfl
    · exact ht
  cases ev with
  | enforce e p a => exact hif (s.now_enforce e p a)
  | update p => exact hif (s.now_update p)
  | iterate => exact hif (State.now_beginPass ..)
  | start scheduler => exact hif (s.now_start scheduler)
  | shutdown => exact hif s.now_shutdown
  | invalidate => exact hif rfl
  | drop => exact hif s.now_drop
  | spawn period => exact s.now_spawn period
  | stop w => exact State.now_stopWorker ..
  | release w => exact s.now_abortWorker w
  | write p S => rfl
  | clear => rfl
  | cancel c => exact s.now_cancel c
  | answer id r => exact s.now_answer id r
  | verdict id r => exact s.now_verdict id r
  | expire id => exact s.now_expire id
  | launch n p => exact s.now_launch n p
  | collect n p => exact s.now_collect n p
  | wake w => exact s.now_wake w
  | elapse millis => exact absurd rfl (hev millis)

end Gatekeeper.Engine

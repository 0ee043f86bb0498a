import Gatekeeper.Proofs.Progress

/-!
# How long a call may take

A call that is under way was begun in the past and may take as long as the settings say, counted
from its beginning (`Clocked`); and it is not cut short before that (`now_of_timedOut`).

A call that has timed out has therefore had as much time as it may take.
-/

set_option autoImplicit false

namespace Gatekeeper.Engine

/-- Every call under way has begun, and its time is counted from there. -/
structure Clocked (s : State) : Prop where
  begun : ∀ {id call}, s.calls.get? id = some call → call.begun ≤ s.now
  deadline : ∀ {id call}, s.calls.get? id = some call →
    call.deadline = call.begun + s.settings.backendTimeout.ceilMillis

section

variable {s t : State} {ev : Event}

theorem Clocked.initial (settings : Settings) (checks : Bool) :
    Clocked (.initial settings checks) where
  begun hid := by cases hid
  deadline hid := by cases hid

theorem Clocked.move (h : Clocked s) (m : Move ev s t) : Clocked t where
  begun hid := by
    rcases m.begun hid with hid | ⟨-, -, htimed⟩
    · exact Nat.le_trans (h.begun hid) m.now_le
    · exact Nat.le_trans (Nat.le_of_eq htimed.begun) m.now_le
  deadline hid := by
    rw [m.settings]
    rcases m.begun hid with hid | ⟨-, -, htimed⟩
    · exact h.deadline hid
    · rw [htimed.deadline, htimed.begun]

/-- **The time of every call is counted from its beginning.** -/
theorem Clocked.run (ho : Orderly s) (h : Clocked s) (es : List Event) : Clocked (s.run es) :=
  run_induction ho h fun _ _ _ _ _ h m => h.move m

/-- A call that is under way keeps its deadline, and is not cut short before. -/
structure Patient (s : State) (id : Id) (deadline : Nat) : Prop where
  known : id < s.next
  kept : ∀ {call}, s.calls.get? id = some call → call.deadline = deadline
  ended : ∀ {p}, .ended id p .timedOut ∈ s.journal → deadline ≤ s.now

theorem Patient.of_get? (h : Books s) {id : Id} {call : Call} (hid : s.calls.get? id = some call) :
    Patient s id call.deadline where
  known := h.orderly.calls hid
  kept hid' := by
    rw [hid, Option.some_inj] at hid'
    rw [hid']
  ended he := absurd he (h.calls.not_ended hid)

theorem Patient.move (hs : Books s) {id : Id} {deadline : Nat} (h : Patient s id deadline)
    (m : Move ev s t) : Patient t id deadline where
  known := Nat.lt_of_lt_of_le h.known m.next_le
  kept hid := by
    rcases m.begun hid with hid | ⟨hnew, -⟩
    · exact h.kept hid
    · exact absurd h.known (hnew ▸ Nat.lt_irrefl _)
  ended he := by
    rcases (m.touch hs).ended he with he | ⟨call, hid, -, hcheck⟩
    · exact Nat.le_trans (h.ended he) m.now_le
    · cases hcheck with
      | list hends =>
        cases hends with
        | expire hev ht => exact Nat.le_trans (h.kept hid ▸ ht) m.now_le

/-- **A call that times out has had its time.** -/
theorem now_of_timedOut (h : Books s) {id : Id} {call : Call} (hid : s.calls.get? id = some call)
    {es : List Event} {p : Principal} (he : .ended id p .timedOut ∈ (s.run es).journal) :
    call.deadline ≤ (s.run es).now := by
  have hpatient : Patient (s.run es) id call.deadline :=
    h.run_induction (P := fun t => Patient t id call.deadline) (.of_get? h hid)
      fun _ _ _ _ hb h m => h.move hb m
  exact hpatient.ended he

end

end Gatekeeper.Engine

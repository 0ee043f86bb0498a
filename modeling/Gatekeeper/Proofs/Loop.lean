import Gatekeeper.Proofs.Move

/-!
# The loop that a pass stands for

A pass has many calls under way at once and looks at what they come to in any order.  The plain way
to do the same is a loop: visit one principal after the other, make its call alone, and put what was
listed into the cache.  This file says what can come of a call that is made alone, given how the
backend behaves, and what comes of the loop.

* `Conduct` — how the backend behaves towards a principal, and `Conduct.seen`, what the owner of a
  call finds when it looks.
* `Conduct.Comes` — what can come of a call; `Conduct.alone` is what comes of it for an owner who
  looks in time.
* `visits`, `loop` — the loop over some principals, and over all that are in the cache.
* `visits_eq_of_perm` — the order of the visits makes no difference.

The loop is a fold over the principals, with no engine, no clock and no calls in it: what comes
of a call is given by a function.  All that concerns time has been moved into the question which
such functions are possible (`Conduct.Comes`).
-/

set_option autoImplicit false

namespace Gatekeeper.Engine

/-! ## A call made alone

A call that nothing interferes with is decided by when the reply comes and by when its owner
looks. -/

/-- How a backend behaves whenever a principal is asked about: it replies after so many
milliseconds, or never. -/
structure Conduct where
  latency : Option Nat
  reply : Reply PrivilegeSet

namespace Conduct

/-- The reply to a call has come. -/
def ready (c : Conduct) (begun now : Nat) : Bool := c.latency.any fun l => decide (begun + l ≤ now)

/-- What the owner of a call finds when it looks: the reply if it has come, else a timeout if the
time is up. -/
def seen (c : Conduct) (limit : Span) (begun now : Nat) : Option (Reply PrivilegeSet) :=
  if c.ready begun now then some c.reply
  else if begun + limit.ceilMillis ≤ now then some (.failed (.timedOut "list_privileges" limit))
  else none

/-- What can come of a call made alone.  An owner who does not look in time may find a reply that
was longer in coming than the limit. -/
def Comes (c : Conduct) (limit : Span) (r : Reply PrivilegeSet) : Prop :=
  ∃ wait, c.seen limit 0 wait = some r

/-- How long it takes until there is something to be seen at a call. -/
def due (c : Conduct) (limit : Span) : Nat :=
  c.latency.elim limit.ceilMillis (min limit.ceilMillis)

/-- What comes of a call made alone, for an owner who looks as soon as there is something to be
seen. -/
def alone (c : Conduct) (limit : Span) : Reply PrivilegeSet :=
  if c.ready 0 limit.ceilMillis then c.reply else .failed (.timedOut "list_privileges" limit)

variable {c : Conduct} {limit : Span} {begun now wait : Nat} {r : Reply PrivilegeSet}

theorem ready_iff : c.ready begun now = true ↔ ∃ l, c.latency = some l ∧ begun + l ≤ now := by
  rw [ready, Option.any_eq_true]
  simp only [decide_eq_true_iff]

/-- Only the time since its beginning matters to a call. -/
theorem seen_add : c.seen limit begun (begun + wait) = c.seen limit 0 wait := by
  have hready : c.ready begun (begun + wait) = c.ready 0 wait := by
    rw [Bool.eq_iff_iff, ready_iff, ready_iff]
    simp only [Nat.zero_add, Nat.add_le_add_iff_left]
  rw [seen, seen, hready]
  simp only [Nat.zero_add, Nat.add_le_add_iff_left]

theorem comes_of_seen (hle : begun ≤ now) (h : c.seen limit begun now = some r) :
    c.Comes limit r := by
  obtain ⟨wait, rfl⟩ := Nat.exists_eq_add_of_le hle
  exact ⟨wait, seen_add ▸ h⟩

theorem due_le_iff : c.due limit ≤ wait ↔ limit.ceilMillis ≤ wait ∨ c.ready 0 wait = true := by
  rw [ready_iff, due]
  cases c.latency with
  | none =>
    have hnever : ¬ ∃ l, (none : Option Nat) = some l ∧ 0 + l ≤ wait := by
      rintro ⟨l, hl, -⟩
      cases hl
    rw [Option.elim_none, or_iff_left hnever]
  | some l =>
    rw [Option.elim_some, min_le_iff]
    simp only [Option.some_inj, exists_eq_left', Nat.zero_add]

/-- There is something to be seen from the time on that it takes, and not before. -/
theorem seen_eq_none_iff : c.seen limit 0 wait = none ↔ wait < c.due limit := by
  rw [← Nat.not_le, due_le_iff, not_or, seen, Nat.zero_add]
  split
  · simp_all
  · split <;> simp_all

theorem seen_due : c.seen limit 0 (c.due limit) = some (c.alone limit) := by
  have hsome : c.seen limit 0 (c.due limit) ≠ none :=
    fun h => Nat.lt_irrefl _ (seen_eq_none_iff.mp h)
  have hready : c.ready 0 (c.due limit) = c.ready 0 limit.ceilMillis := by
    rw [Bool.eq_iff_iff, ready_iff, ready_iff, due]
    refine exists_congr fun l => and_congr_right fun hl => ?_
    rw [hl, Option.elim_some, Nat.zero_add, le_min_iff, and_iff_left (Nat.le_refl l)]
  rw [seen, hready] at hsome ⊢
  rw [alone]
  split
  · rfl
  · simp_all

theorem comes_alone : c.Comes limit (c.alone limit) := ⟨_, seen_due⟩

/-- What an owner finds who has not let the time pass at which there was something to be seen. -/
theorem eq_alone_of_seen (hle : begun ≤ now) (hnow : now ≤ begun + c.due limit)
    (h : c.seen limit begun now = some r) : r = c.alone limit := by
  obtain ⟨wait, rfl⟩ := Nat.exists_eq_add_of_le hle
  rw [seen_add] at h
  have hwait : wait = c.due limit := by
    refine Nat.le_antisymm (Nat.le_of_add_le_add_left hnow) (Nat.le_of_not_lt fun hlt => ?_)
    rw [seen_eq_none_iff.mpr hlt] at h
    cases h
  rw [hwait, seen_due, Option.some_inj] at h
  exact h.symm

/-- A reply that does not come too late is all that can come of a call, and without a reply that is
the timeout. -/
theorem comes_iff (h : ∀ l, c.latency = some l → l ≤ limit.ceilMillis) :
    c.Comes limit r ↔ r = c.alone limit := by
  refine ⟨?_, fun hr => hr ▸ comes_alone⟩
  rintro ⟨wait, hwait⟩
  have hlate : c.ready 0 wait = true → c.ready 0 limit.ceilMillis = true := by
    rw [ready_iff, ready_iff]
    rintro ⟨l, hl, -⟩
    exact ⟨l, hl, Nat.le_trans (Nat.zero_add l).le (h l hl)⟩
  have hlong : limit.ceilMillis ≤ wait → c.ready 0 limit.ceilMillis = true →
      c.ready 0 wait = true := by
    rw [ready_iff, ready_iff]
    rintro hle ⟨l, hl, hl'⟩
    exact ⟨l, hl, Nat.le_trans hl' hle⟩
  rw [seen] at hwait
  rw [alone]
  split at hwait
  · rename_i hready
    rw [if_pos (hlate hready)]
    exact (Option.some_inj.mp hwait).symm
  · rename_i hready
    split at hwait
    · rename_i hle
      rw [Nat.zero_add] at hle
      rw [if_neg fun hr => hready (hlong hle hr)]
      exact (Option.some_inj.mp hwait).symm
    · cases hwait

end Conduct

/-! ## The loop

Visits to different principals do not interfere: each touches its own entry and adds one to the
report.  So the order can be changed by exchanging neighbours. -/

/-- A visit to a principal: what was listed replaces the entry, and anything else leaves it as it
is. -/
def visit (r : Principal → Reply PrivilegeSet) (x : Table Principal PrivilegeSet × Report)
    (p : Principal) : Table Principal PrivilegeSet × Report :=
  ((r p).put p x.1, x.2.count (r p))

/-- What comes of visits to some principals, if `r` is what comes of their calls. -/
def visits (r : Principal → Reply PrivilegeSet) (ps : List Principal)
    (t : Table Principal PrivilegeSet) : Table Principal PrivilegeSet × Report :=
  ps.foldl (visit r) (t, {})

/-- What comes of visits to everybody who is in the cache. -/
def loop (r : Principal → Reply PrivilegeSet) (t : Table Principal PrivilegeSet) :
    Table Principal PrivilegeSet × Report :=
  visits r t.keys t

/-- The order in which results are counted makes no difference. -/
theorem Report.count_comm (x : Report) (r r' : Reply PrivilegeSet) :
    (x.count r).count r' = (x.count r').count r := by
  cases r <;> cases r' <;> rfl

theorem Report.total_count (x : Report) (r : Reply PrivilegeSet) :
    (x.count r).refreshed + (x.count r).failed = x.refreshed + x.failed + 1 := by
  cases r with
  | value privileges => exact Nat.add_right_comm ..
  | failed cause => rfl
  | crashed => rfl

namespace Reply

variable {r : Reply PrivilegeSet} {p : Principal} {t u : Table Principal PrivilegeSet}

theorem keys_put (h : p ∈ t.keys) : (r.put p t).keys = t.keys := by
  cases r with
  | value privileges => exact Table.keys_put_of_mem h
  | _ => rfl

/-- What becomes of an entry depends on nothing but the entry. -/
theorem get?_put_congr (h : t.get? p = u.get? p) : (r.put p t).get? p = (r.put p u).get? p := by
  cases r with
  | value privileges => exact Table.get?_put_self.trans Table.get?_put_self.symm
  | _ => exact h

end Reply

section

variable {r r' : Principal → Reply PrivilegeSet} {ps qs : List Principal} {p : Principal}
  {t : Table Principal PrivilegeSet}

theorem visits_append_singleton : visits r (ps ++ [p]) t = visit r (visits r ps t) p :=
  List.foldl_append ..

theorem visits_congr (h : ∀ p ∈ ps, r p = r' p) : visits r ps t = visits r' ps t :=
  List.foldl_ext _ _ _ fun x p hp => by rw [visit, visit, h p hp]

/-- No key appears or disappears. -/
theorem keys_visits (h : ps ⊆ t.keys) : (visits r ps t).1.keys = t.keys := by
  induction ps using List.reverseRecOn with
  | nil => rfl
  | append_singleton ps p ih =>
    have hkeys := ih fun q hq => h (List.mem_append_left _ hq)
    have hp : p ∈ (visits r ps t).1.keys :=
      hkeys ▸ h (List.mem_append_right _ (List.mem_singleton.mpr rfl))
    rw [visits_append_singleton]
    exact (Reply.keys_put hp).trans hkeys

theorem get?_visits_of_not_mem (h : p ∉ ps) : (visits r ps t).1.get? p = t.get? p := by
  induction ps using List.reverseRecOn with
  | nil => rfl
  | append_singleton ps q ih =>
    rw [List.mem_append, not_or, List.mem_singleton] at h
    rw [visits_append_singleton]
    exact (Reply.get?_put_of_ne h.2).trans (ih h.1)

/-- **What becomes of a visited entry depends on what came of its own call alone.** -/
theorem get?_visits_of_mem (hn : ps.Nodup) (h : p ∈ ps) :
    (visits r ps t).1.get? p = ((r p).put p t).get? p := by
  induction ps using List.reverseRecOn with
  | nil => exact absurd h List.not_mem_nil
  | append_singleton ps q ih =>
    rw [← List.concat_eq_append, List.nodup_concat] at hn
    rw [visits_append_singleton]
    rcases List.mem_append.mp h with h | h
    · have hne : p ≠ q := fun he => hn.1 (he ▸ h)
      exact (Reply.get?_put_of_ne hne).trans (ih hn.2 h)
    · obtain rfl := List.mem_singleton.mp h
      exact Reply.get?_put_congr (get?_visits_of_not_mem hn.1)

/-- Every visit is counted. -/
theorem total_visits :
    (visits r ps t).2.refreshed + (visits r ps t).2.failed = ps.length := by
  induction ps using List.reverseRecOn with
  | nil => rfl
  | append_singleton ps p ih =>
    rw [visits_append_singleton, visit, Report.total_count, ih, List.length_append]
    rfl

theorem report_visits : (visits r ps t).2 = ps.foldl (fun x p => x.count (r p)) {} := by
  induction ps using List.reverseRecOn with
  | nil => rfl
  | append_singleton ps p ih =>
    rw [visits_append_singleton, visit, ih, List.foldl_append]
    rfl

/-- **The order of the visits makes no difference.** -/
theorem visits_eq_of_perm (h : ps.Perm qs) (hn : qs.Nodup) (hsub : qs ⊆ t.keys) :
    visits r ps t = visits r qs t := by
  have hreport : (visits r ps t).2 = (visits r qs t).2 := by
    rw [report_visits, report_visits]
    exact h.foldl_eq' (fun p _ q _ (x : Report) => x.count_comm (r p) (r q)) _
  refine Prod.ext (Table.ext_get? ?_ fun p => ?_) hreport
  · rw [keys_visits (List.Subset.trans h.subset hsub), keys_visits hsub]
  · by_cases hp : p ∈ qs
    · rw [get?_visits_of_mem hn hp, get?_visits_of_mem (h.nodup_iff.mpr hn) (h.mem_iff.mpr hp)]
    · rw [get?_visits_of_not_mem hp, get?_visits_of_not_mem (mt h.mem_iff.mp hp)]

end

end Gatekeeper.Engine

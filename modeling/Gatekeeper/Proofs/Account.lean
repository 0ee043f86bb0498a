import Gatekeeper.Proofs.Marks
import Gatekeeper.Proofs.Progress

/-!
# The account of a pass

A pass is begun over the principals that are in the cache at that moment.  From then on the journal
is its account: every principal of this snapshot is first in the queue, then asked for once, then
written at most once, and in the end counted once.  Whatever else happens in the engine adds nothing
to the account and takes nothing from it.

* `State.asked`, `State.written`, `State.writes` — what the journal says a pass has done.
* `Serves`, `Move.serves` — what one move says of a pass.
* `Account` — how the queue, the calls, the writes and the report of a pass add up to its snapshot.
* `Ledger`, `Ledger.run` — the account is in order after every run.
* `Opens.ledger` — and a pass is begun with its account in order.

The account is kept with counts and not with lists, because nothing is promised of the order in
which a pass asks or writes.  A count of notes for one principal only changes with notes about
this principal, and the multiset of principals in a pass only changes by the three turns that a
pass takes; so every equation in `Account` is preserved by moving one unit from one side of it to
the other.
-/

set_option autoImplicit false

namespace Gatekeeper.Engine

/-! ## The account of a pass

Two kinds of entries of the journal belong to a pass: that it has begun a call for a principal,
and that it has written into the cache.  The account counts them. -/

namespace Note

/-- The pass that has made the call or the write of which the note tells. -/
def pass? : Note → Option Id
  | .began _ _ _ (.pass n) | .stored _ _ (.call _ (.pass n)) => some n
  | _ => none

/-- The pass has begun a call for the principal. -/
def asks (n : Id) (p : Principal) : Note → Bool
  | .began _ q _ (.pass m) => m == n && q == p
  | _ => false

/-- The pass has written into the cache. -/
def writes (n : Id) : Note → Bool
  | .stored _ _ (.call _ (.pass m)) => m == n
  | _ => false

/-- The pass has written the cache entry of the principal. -/
def writesFor (n : Id) (p : Principal) : Note → Bool
  | .stored q _ (.call _ (.pass m)) => m == n && q == p
  | _ => false

end Note

namespace State

/-- How many calls the pass has begun for the principal. -/
def asked (s : State) (n : Id) (p : Principal) : Nat := s.journal.countP (Note.asks n p)

/-- How many writes the pass has made. -/
def writes (s : State) (n : Id) : Nat := s.journal.countP (Note.writes n)

/-- How many writes the pass has made for the principal. -/
def written (s : State) (n : Id) (p : Principal) : Nat := s.journal.countP (Note.writesFor n p)

end State

section

variable {ev : Event} {s t u : State} {n : Id} {p : Principal}

theorem countP_append_of_silent {f : Note → Bool} {l new : List Note}
    (h : ∀ m ∈ new, f m = false) : (new ++ l).countP f = l.countP f := by
  have hzero : new.countP f = 0 := List.countP_eq_zero.mpr fun m hm => by simp [h m hm]
  rw [List.countP_append, hzero, Nat.zero_add]

namespace Note

variable {m : Note}

theorem asks_of_silent (h : m.pass? ≠ some n) (p : Principal) : m.asks n p = false := by
  unfold asks
  split
  · rename_i k
    have hne : k ≠ n := fun e => h (e ▸ rfl)
    simp [hne]
  · rfl

theorem writes_of_silent (h : m.pass? ≠ some n) : m.writes n = false := by
  unfold writes
  split
  · rename_i k
    have hne : k ≠ n := fun e => h (e ▸ rfl)
    simp [hne]
  · rfl

theorem writesFor_of_silent (h : m.pass? ≠ some n) (p : Principal) : m.writesFor n p = false := by
  unfold writesFor
  split
  · rename_i k
    have hne : k ≠ n := fun e => h (e ▸ rfl)
    simp [hne]
  · rfl

end Note

/-- The pass asks for nothing and stores nothing: nothing is added to its account. -/
structure DoesNothing (n : Id) (s t : State) : Prop where
  asked : ∀ p, t.asked n p = s.asked n p
  writes : t.writes n = s.writes n
  written : ∀ p, t.written n p = s.written n p

theorem DoesNothing.refl (n : Id) (s : State) : DoesNothing n s s where
  asked _ := rfl
  writes := rfl
  written _ := rfl

theorem DoesNothing.trans (h : DoesNothing n s t) (h' : DoesNothing n t u) : DoesNothing n s u where
  asked p := (h'.asked p).trans (h.asked p)
  writes := h'.writes.trans h.writes
  written p := (h'.written p).trans (h.written p)

theorem DoesNothing.of_silent (new : List Note) (hj : t.journal = new ++ s.journal)
    (hn : ∀ m ∈ new, m.pass? ≠ some n) : DoesNothing n s t where
  asked p := by
    rw [State.asked, hj]
    exact countP_append_of_silent fun m hm => Note.asks_of_silent (hn m hm) p
  writes := by
    rw [State.writes, hj]
    exact countP_append_of_silent fun m hm => Note.writes_of_silent (hn m hm)
  written p := by
    rw [State.written, hj]
    exact countP_append_of_silent fun m hm => Note.writesFor_of_silent (hn m hm) p

/-! ## What a move says of a pass

A move either adds nothing to the account of a given pass, or it launches, lands, looks at a
result or closes that very pass, and then it is known what it adds.  `Serves` is this case
distinction, made once for all moves. -/

/-- What a move says of the pass with the number `n`. -/
inductive Serves (s t : State) (n : Id) : Prop
  | aside (new : List Note) (hj : t.journal = new ++ s.journal) (hn : ∀ m ∈ new, m.pass? ≠ some n)
    (hp : t.passes.get? n = s.passes.get? n)
  | opens (new : List Note) (hj : t.journal = new ++ s.journal) (hn : ∀ m ∈ new, m.pass? ≠ some n)
    (he : n = s.next)
  | drop (new : List Note) (hj : t.journal = new ++ s.journal) (hn : ∀ m ∈ new, m.pass? ≠ some n)
    (ht : t.passes.get? n = none)
    (hd : ∀ pass c, s.passes.get? n = some pass → pass.driver = .caller c →
      .cancelled c ∈ t.journal)
  | launch {p : Principal} {pass : Pass} (hp : s.passes.get? n = some pass) (hq : p ∈ pass.queue)
    (ht : t.passes.get? n = some (pass.fly p))
    (hj : t.journal = .began s.next p .listing (.pass n) :: s.journal)
  | land {pass : Pass} {l : Landing} (new : List Note) (hj : t.journal = new ++ s.journal)
    (hn : ∀ m ∈ new, m.pass? ≠ some n) (hp : s.passes.get? n = some pass)
    (hf : l.principal ∈ pass.flying) (ht : t.passes.get? n = some (pass.land l))
  | look {pass : Pass} {l : Landing} (hp : s.passes.get? n = some pass) (hl : l ∈ pass.landed)
    (ht : t.passes.get? n = some (pass.look l)) (hj : t.journal = l.notes n ++ s.journal)
  | close {pass : Pass} {l : Landing} (after : List Note) (hp : s.passes.get? n = some pass)
    (hl : l ∈ pass.landed) (ht : t.passes.get? n = none)
    (hj : t.journal = after ++ (l.notes n ++ s.journal)) (hn : ∀ m ∈ after, m.pass? ≠ some n)
    (hf : .passFinished n (pass.look l).report ∈ after)
    (hd : ∀ c, pass.driver = .caller c → .returned c (.refreshed (pass.look l).report) ∈ after)

theorem Note.pass?_of_remark {m : Note} (h : m.remark = true) : m.pass? = none := by
  cases m <;> simp_all [Note.remark, Note.pass?]

/-- What one pass notes about a result says nothing of another. -/
theorem Landing.pass?_notes {l : Landing} {k : Id} (hne : n ≠ k) :
    ∀ m ∈ l.notes k, m.pass? ≠ some n := by
  obtain ⟨p, id, r⟩ := l
  intro m hm
  cases r <;> rw [List.mem_singleton.mp hm] <;> simp [Note.pass?, Ne.symm hne]

/-- What is noted when a call that is part of no pass comes back says nothing of a pass. -/
theorem Note.silent_of_received {id : Id} {p : Principal} {o : Owner} {r : Reply PrivilegeSet}
    {ending : Ending} (ho : ∀ k, o ≠ .pass k) :
    ∀ m ∈ r.notes p (.call id o) ++ [.ended id p ending], m.pass? ≠ some n := by
  intro m hm
  rcases List.mem_append.mp hm with hm | hm
  · obtain ⟨S, -, rfl⟩ := Reply.mem_notes_iff.mp hm
    cases o with
    | pass k => exact absurd rfl (ho k)
    | _ => simp [Note.pass?]
  · rw [List.mem_singleton.mp hm]
    simp [Note.pass?]

theorem Serves.dropPass (callers : Table Id Waiting) (new : List Note) {k : Id}
    (hn : ∀ m ∈ new, m.pass? ≠ some n)
    (hd : ∀ pass c, s.passes.get? k = some pass → pass.driver = .caller c → .cancelled c ∈ new) :
    Serves s ({ s with callers := callers, journal := new ++ s.journal }.dropPass k) n := by
  rw [State.dropPass_eq]
  have hsilent : ∀ m ∈ (({ s with callers := callers, journal := new ++ s.journal }.passCalls k).map
      fun id => Note.dropped id (.pass k)).reverse ++ new, m.pass? ≠ some n := by
    intro m hm
    rcases List.mem_append.mp hm with hm | hm
    · obtain ⟨id, -, rfl⟩ := List.mem_map.mp (List.mem_reverse.mp hm)
      simp [Note.pass?]
    · exact hn m hm
  by_cases hne : n = k
  · subst hne
    refine .drop _ (List.append_assoc ..).symm hsilent Table.get?_erase_self fun pass c hp hdr => ?_
    exact List.mem_append_right _ (List.mem_append_left _ (hd pass c hp hdr))
  · exact .aside _ (List.append_assoc ..).symm hsilent (Table.get?_erase_of_ne hne)

/-- What is noted when a pass looks at the last of its results. -/
theorem State.journal_close (s : State) (n k : Id) (pass : Pass) (l : Landing) :
    ∃ after : List Note, (({ s.digest k l with passes := (s.digest k l).passes.erase k }.note
        (.passFinished k (pass.look l).report)).reportPass pass.driver
          (pass.look l).report).journal = after ++ (l.notes k ++ s.journal)
      ∧ (∀ m ∈ after, m.pass? ≠ some n) ∧ .passFinished k (pass.look l).report ∈ after
      ∧ ∀ c, pass.driver = .caller c → .returned c (.refreshed (pass.look l).report) ∈ after := by
  rw [State.digest_eq]
  cases pass.driver with
  | caller c =>
    refine ⟨[.returned c (.refreshed (pass.look l).report),
      .passFinished k (pass.look l).report], rfl, by simp [Note.pass?], by simp, ?_⟩
    rintro c' ⟨⟩
    exact List.mem_cons_self
  | worker w =>
    exact ⟨[.passFinished k (pass.look l).report], rfl, by simp [Note.pass?], by simp,
      fun c hc => by cases hc⟩

/-- **A move leaves a pass aside, or brings it closer to its end and says so.** -/
theorem Move.serves (h : Books s) (m : Move ev s t) (n : Id) : Serves s t n := by
  have hopen : ∀ {pass}, t.passes = s.passes.put s.next pass →
      t.journal = [.passStarted s.next s.cache.size] ++ s.journal → Serves s t n := by
    intro pass hp hj
    by_cases hne : n = s.next
    · exact .opens _ hj (by simp [Note.pass?]) hne
    · exact .aside _ hj (by simp [Note.pass?]) (by rw [hp, Table.get?_put_of_ne hne])
  cases m with
  | quiet hq =>
    obtain ⟨new, hj, hnew⟩ := hq.journal
    refine .aside new hj (fun m hm => ?_) (by rw [hq.passes])
    rw [Note.pass?_of_remark (hnew m hm).1]
    simp
  | enter r => exact .aside [.called s.next r] rfl (by simp [Note.pass?]) rfl
  | @reply c r o ha ho => exact .aside [.returned c o] rfl (by simp [Note.pass?]) rfl
  | @release c w hc => exact .aside [.returned c .stopped] rfl (by simp [Note.pass?]) rfl
  | await ha hw => exact .aside [] rfl (by simp) rfl
  | @own c r p q o ha hm ho he =>
    refine .aside [.began s.next p q o, .joined c s.next] rfl ?_ rfl
    cases hm <;> simp [Note.pass?]
  | @join c id => exact .aside [.joined c id] rfl (by simp [Note.pass?]) rfl
  | @fetch c e p a =>
    exact .aside [.joined c s.next, .began s.next p .listing .fetch] rfl (by simp [Note.pass?]) rfl
  | @fetchEnds id call ending r hc ho ha he =>
    rw [State.settleFetch_eq]
    refine .aside ((((s.endCall id call.principal ending).fetchWaiters call.principal).map fun x =>
        Note.returned x.1 ((Request.enforce x.2.1 call.principal x.2.2).answer r)).reverse
      ++ (r.notes call.principal (.call id .fetch) ++ [.ended id call.principal ending]))
      (by simp [State.endCall, State.note]) (fun m hm => ?_) rfl
    rcases List.mem_append.mp hm with hm | hm
    · obtain ⟨x, -, rfl⟩ := List.mem_map.mp (List.mem_reverse.mp hm)
      simp [Note.pass?]
    · exact Note.silent_of_received (by simp) m hm
  | @updateEnds id c call ending r hc ho he =>
    rw [State.settleUpdate_eq]
    refine .aside (.returned c ((Request.update call.principal).answer r)
      :: (r.notes call.principal (.call id (.update c)) ++ [.ended id call.principal ending]))
      (by simp [State.endCall, State.note]) (fun m hm => ?_) rfl
    rcases List.mem_cons.mp hm with rfl | hm
    · simp [Note.pass?]
    · exact Note.silent_of_received (by simp) m hm
  | @directEnds id c call e a ending hc ho he =>
    exact .aside [.returned c ((Request.enforce e call.principal a).outcome call.owner
      s.settings.backendTimeout ending), .ended id call.principal ending] rfl
      (by simp [Note.pass?]) rfl
  | @landing id k call ending r hc ho he =>
    obtain ⟨pass, hk, hf⟩ := h.passes.flights hc ho
    have hland : ((s.endCall id call.principal ending).land k ⟨call.principal, id, r⟩).passes
        = s.passes.put k (pass.land ⟨call.principal, id, r⟩) := by
      rw [State.land_eq (s := s.endCall id call.principal ending) hk]
      rfl
    by_cases hne : n = k
    · subst hne
      exact .land [.ended id call.principal ending] rfl (by simp [Note.pass?]) hk hf
        (by rw [hland, Table.get?_put_self])
    · exact .aside [.ended id call.principal ending] rfl (by simp [Note.pass?])
        (by rw [hland, Table.get?_put_of_ne hne])
  | openFor => exact hopen rfl rfl
  | openBy => exact hopen rfl rfl
  | @launch k p pass hev hp hq hf =>
    by_cases hne : n = k
    · subst hne
      exact .launch hp hq Table.get?_put_self rfl
    · exact .aside [.began s.next p .listing (.pass k)] rfl (by simp [Note.pass?, Ne.symm hne])
        (Table.get?_put_of_ne hne)
  | @look k pass l hev hp hh hl hc =>
    rw [State.digest_eq]
    by_cases hne : n = k
    · subst hne
      exact .look hp hl Table.get?_put_self rfl
    · exact .aside (l.notes k) rfl (Landing.pass?_notes hne) (Table.get?_put_of_ne hne)
  | @close k pass l hev hp hh hl hc =>
    rw [State.digest_eq]
    obtain ⟨after, hafter, hsilent, hfinished, htold⟩ := s.journal_close n k pass l
    rw [State.digest_eq] at hafter
    by_cases hne : n = k
    · subst hne
      refine .close after hp hl ?_ hafter hsilent hfinished htold
      rw [State.passes_reportPass]
      exact Table.get?_erase_self
    · refine .aside (after ++ l.notes k) (by rw [hafter, List.append_assoc]) (fun m hm => ?_) ?_
      · exact (List.mem_append.mp hm).elim (hsilent m) (Landing.pass?_notes hne m)
      · rw [State.passes_reportPass]
        exact Table.get?_erase_of_ne hne
  | @leave c w hev hc hw => exact .aside [.cancelled c] rfl (by simp [Note.pass?]) rfl
  | @leaveCall c id hev hc =>
    obtain ⟨-, call, hid, -⟩ := h.callers.waiters hc
    rw [State.dropCall_eq (s := s.leave c) hid]
    exact .aside [.dropped id call.owner, .cancelled c] rfl (by simp [Note.pass?]) rfl
  | @leavePass c k hev hc =>
    refine Serves.dropPass (s.callers.erase c) [.cancelled c] (by simp [Note.pass?]) ?_
    intro pass c' hp hdr
    have hd := h.passes.driver_of_waiter hp hc
    rw [hdr] at hd
    injection hd with hd
    rw [hd]
    exact List.mem_cons_self
  | @abandon k hd =>
    refine Serves.dropPass s.callers [] (by simp) fun pass c hp hdr => ?_
    obtain ⟨w, hw⟩ := hd pass hp
    rw [hdr] at hw
    cases hw
  | @write p S hev => exact .aside [.stored p S .hand] rfl (by simp [Note.pass?]) rfl
  | @clear m hev hm =>
    refine .aside [m] rfl ?_ rfl
    rcases hm with rfl | ⟨k, rfl⟩ <;> simp [Note.pass?]

/-! ## The account is in order

As long as a pass is there, the snapshot it was opened for is made up of its queue and of those
it has asked for, and of the latter some are flying, some have landed and the rest is counted.
Every change that a pass goes through shifts a principal from one place to the next, and so the
sum stays.  At the end all places but the last are empty. -/

/-- The account of a pass that is there: `old` is its snapshot. -/
structure Account (n : Id) (old : List Principal) (pass : Pass) (s : State) : Prop where
  /-- Who is not in the queue any more has been asked for. -/
  queued : ∀ p, s.asked n p + pass.queue.count p = old.count p
  /-- Who is still with the pass has not been written for. -/
  unwritten : ∀ p, s.written n p + pass.principals.count p ≤ old.count p
  refreshed : pass.report.refreshed = s.writes n
  total : pass.report.refreshed + pass.report.failed + pass.principals.length = old.length

/-- The account of a pass that has come to its end with this report. -/
structure Settled (n : Id) (old : List Principal) (r : Report) (s : State) : Prop where
  asked : ∀ p, s.asked n p = old.count p
  refreshed : r.refreshed = s.writes n
  total : r.refreshed + r.failed = old.length

namespace Account

variable {old : List Principal} {pass : Pass} {l : Landing}

theorem of_doesNothing (h : Account n old pass s) (hu : DoesNothing n s t) :
    Account n old pass t where
  queued p := by rw [hu.asked, h.queued]
  unwritten p := by
    rw [hu.written]
    exact h.unwritten p
  refreshed := by rw [hu.writes, h.refreshed]
  total := h.total

theorem launch (h : Account n old pass s) {id : Id} (hq : p ∈ pass.queue)
    (hj : t.journal = .began id p .listing (.pass n) :: s.journal) :
    Account n old (pass.fly p) t where
  queued q := by
    have hold := h.queued q
    have hasked : t.asked n q = s.asked n q + if p = q then 1 else 0 := by
      simp [State.asked, hj, List.countP_cons, Note.asks]
    by_cases hpq : p = q
    · subst hpq
      have hpos : 0 < pass.queue.count p := List.count_pos_iff.mpr hq
      have hqueue : (pass.fly p).queue.count p = pass.queue.count p - 1 := List.count_erase_self
      rw [if_pos rfl] at hasked
      omega
    · have hqueue : (pass.fly p).queue.count q = pass.queue.count q :=
        List.count_erase_of_ne (Ne.symm hpq)
      rw [if_neg hpq] at hasked
      omega
  unwritten q := by
    have hwritten : t.written n q = s.written n q := by
      simp [State.written, hj, Note.writesFor]
    rw [hwritten, (pass.principals_fly hq).count_eq]
    exact h.unwritten q
  refreshed := by
    have hwrites : t.writes n = s.writes n := by simp [State.writes, hj, Note.writes]
    rw [hwrites, ← h.refreshed]
    rfl
  total := by
    rw [(pass.principals_fly hq).length_eq]
    exact h.total

theorem land (h : Account n old pass s) (hf : l.principal ∈ pass.flying) (hu : DoesNothing n s t) :
    Account n old (pass.land l) t where
  queued q := (h.of_doesNothing hu).queued q
  unwritten q := by
    rw [(pass.principals_land hf).count_eq]
    exact (h.of_doesNothing hu).unwritten q
  refreshed := (h.of_doesNothing hu).refreshed
  total := by
    rw [(pass.principals_land hf).length_eq]
    exact h.total

/-- A result that is looked at is written or counted as failed. -/
theorem look (h : Account n old pass s) (hl : l ∈ pass.landed)
    (hj : t.journal = l.notes n ++ s.journal) : Account n old (pass.look l) t := by
  have hperm := pass.principals_look_perm hl
  have hlength := hperm.length_eq
  have htotal := h.total
  obtain ⟨p, id, r⟩ := l
  have hcount : ∀ q, pass.principals.count q
      = (pass.look ⟨p, id, r⟩).principals.count q + if p = q then 1 else 0 := by
    intro q
    rw [← hperm.count_eq, List.count_cons]
    simp
  cases r with
  | value S =>
    refine ⟨fun q => ?_, fun q => ?_, ?_, ?_⟩
    · rw [← h.queued q]
      simp [State.asked, hj, Landing.notes, Note.asks, Pass.look]
    · have hold := h.unwritten q
      rw [hcount q] at hold
      have hwritten : t.written n q = s.written n q + if p = q then 1 else 0 := by
        simp [State.written, hj, Landing.notes, List.countP_cons, Note.writesFor]
      omega
    · have hwrites : t.writes n = s.writes n + 1 := by
        simp [State.writes, hj, Landing.notes, Note.writes]
      rw [hwrites, ← h.refreshed]
      rfl
    · simp only [Pass.look, Report.count, List.length_cons] at hlength ⊢
      omega
  | failed cause | crashed =>
    have hu : DoesNothing n s t :=
      .of_silent _ hj fun m hm => by rw [List.mem_singleton.mp hm]; simp [Note.pass?]
    refine ⟨fun q => (h.of_doesNothing hu).queued q, fun q => ?_,
      (h.of_doesNothing hu).refreshed, ?_⟩
    · have hold := h.unwritten q
      rw [hcount q] at hold
      rw [hu.written]
      omega
    · simp only [Pass.look, Report.count, List.length_cons] at hlength ⊢
      omega

/-- The last result is looked at. -/
theorem close (h : Account n old pass s) (hl : l ∈ pass.landed) {after : List Note}
    (hj : t.journal = after ++ (l.notes n ++ s.journal)) (hn : ∀ m ∈ after, m.pass? ≠ some n) :
    Account n old (pass.look l) t :=
  (h.look (t := { s with journal := l.notes n ++ s.journal }) hl rfl).of_doesNothing
    (.of_silent _ hj hn)

theorem asked_le (h : Account n old pass s) (p : Principal) : s.asked n p ≤ old.count p := by
  have := h.queued p
  omega

theorem written_le (h : Account n old pass s) (p : Principal) : s.written n p ≤ old.count p := by
  have := h.unwritten p
  omega

/-- A pass that is complete has asked for everybody and counted everybody. -/
theorem settled (h : Account n old pass s) (hc : pass.complete = true) :
    Settled n old pass.report s := by
  simp only [Pass.complete, Bool.and_eq_true, List.isEmpty_iff] at hc
  obtain ⟨⟨hq, hf⟩, hl⟩ := hc
  refine ⟨fun p => ?_, h.refreshed, ?_⟩
  · simpa [hq] using h.queued p
  · simpa [Pass.principals, hq, hf, hl] using h.total

end Account

theorem Settled.of_doesNothing {old : List Principal} {r : Report} (h : Settled n old r s)
    (hu : DoesNothing n s t) : Settled n old r t where
  asked p := by rw [hu.asked, h.asked]
  refreshed := by rw [hu.writes, h.refreshed]
  total := h.total

/-! ### From moves to steps

A step is several moves, and a pass may be complete in the middle of it. -/

/-- What is in the account of a pass at any moment. -/
structure Entries (n : Id) (old : List Principal) (s : State) : Prop where
  drawn : n < s.next
  asked : ∀ p, s.asked n p ≤ old.count p
  written : ∀ p, s.written n p ≤ old.count p
  account : ∀ {pass}, s.passes.get? n = some pass → Account n old pass s

/-- **A move keeps the account of a pass.** -/
theorem Entries.move {old : List Principal} (h : Entries n old s) (hb : Books s) (m : Move ev s t) :
    Entries n old t := by
  have hdrawn := Nat.lt_of_lt_of_le h.drawn m.next_le
  have hgone : DoesNothing n s t → t.passes.get? n = none → Entries n old t := fun hu ht =>
    ⟨hdrawn, fun p => by rw [hu.asked]; exact h.asked p,
      fun p => by rw [hu.written]; exact h.written p, fun hp => by rw [ht] at hp; cases hp⟩
  have hthere : ∀ {pass}, t.passes.get? n = some pass → Account n old pass t → Entries n old t := by
    intro pass ht ha
    refine ⟨hdrawn, ha.asked_le, ha.written_le, fun hp => ?_⟩
    rw [ht, Option.some_inj] at hp
    exact hp ▸ ha
  cases m.serves hb n with
  | aside new hj hn hp =>
    have hu : DoesNothing n s t := .of_silent new hj hn
    cases hs : s.passes.get? n with
    | none => exact hgone hu (hp.trans hs)
    | some pass => exact hthere (hp.trans hs) ((h.account hs).of_doesNothing hu)
  | opens new hj hn he => exact absurd h.drawn (he ▸ Nat.lt_irrefl _)
  | drop new hj hn ht => exact hgone (.of_silent new hj hn) ht
  | launch hp hq ht hj => exact hthere ht ((h.account hp).launch hq hj)
  | land new hj hn hp hf ht => exact hthere ht ((h.account hp).land hf (.of_silent new hj hn))
  | look hp hl ht hj => exact hthere ht ((h.account hp).look hl hj)
  | close after hp hl ht hj hn =>
    have ha := (h.account hp).close hl hj hn
    refine ⟨hdrawn, ha.asked_le, ha.written_le, fun hp => ?_⟩
    rw [ht] at hp
    cases hp

/-- Nothing is added to the account of a pass that is over. -/
theorem Moves.doesNothing (hb : Books s) (hlt : n < s.next) (hp : s.passes.get? n = none)
    (m : Moves ev s t) : t.passes.get? n = none ∧ DoesNothing n s t := by
  have hkept : n < t.next ∧ t.passes.get? n = none ∧ DoesNothing n s t := by
    refine m.keeps_of_books
      (P := fun t => n < t.next ∧ t.passes.get? n = none ∧ DoesNothing n s t) hb
      ⟨hlt, hp, .refl n s⟩ ?_
    rintro t u hb ⟨hlt, hp, hu⟩ m
    refine ⟨Nat.lt_of_lt_of_le hlt m.next_le, ?_⟩
    cases m.serves hb n with
    | aside new hj hn hp' => exact ⟨hp'.trans hp, hu.trans (.of_silent new hj hn)⟩
    | opens new hj hn he => exact absurd hlt (he ▸ Nat.lt_irrefl _)
    | drop new hj hn ht => exact ⟨ht, hu.trans (.of_silent new hj hn)⟩
    | launch hp' | land _ _ _ hp' | look hp' | close _ hp' =>
      rw [hp] at hp'
      cases hp'
  exact hkept.2

/-! ## Before the beginning

The account has to start from nothing.  Nothing can have been said of a pass whose number has not
been drawn, and to begin a pass says nothing yet of what it asks for or writes. -/

/-- What the journal says of a pass, it says of one whose number has been drawn; and all that a pass
asks for are lists. -/
structure Numbered (s : State) : Prop where
  served : ∀ m ∈ s.journal, ∀ n, m.pass? = some n → n < s.next
  lists : ∀ {id p q n}, .began id p q (.pass n) ∈ s.journal → q = .listing
  finished : ∀ {n r}, .passFinished n r ∈ s.journal → n < s.next

theorem Numbered.initial (settings : Settings) (checks : Bool) :
    Numbered (.initial settings checks) where
  served _ hm := absurd hm List.not_mem_nil
  lists hm := absurd hm List.not_mem_nil
  finished hm := absurd hm List.not_mem_nil

/-- What is new in the journal about a pass is its call, or what it makes of a result. -/
theorem Serves.mem (h : Serves s t n) {m : Note} (hm : m ∈ t.journal) (hn : m.pass? = some n) :
    m ∈ s.journal ∨ (∃ pass, s.passes.get? n = some pass)
      ∧ ((∃ p, m = .began s.next p .listing (.pass n)) ∨ ∃ l : Landing, m ∈ l.notes n) := by
  have hsilent : ∀ {new old : List Note}, (∀ m ∈ new, m.pass? ≠ some n) → m ∈ new ++ old →
      m ∈ old := fun hnew hm => (List.mem_append.mp hm).resolve_left fun h => hnew m h hn
  cases h with
  | aside new hj hnew | opens new hj hnew | drop new hj hnew | land new hj hnew =>
    rw [hj] at hm
    exact Or.inl (hsilent hnew hm)
  | launch hp hq ht hj =>
    rw [hj] at hm
    rcases List.mem_cons.mp hm with hm | hm
    · exact Or.inr ⟨⟨_, hp⟩, Or.inl ⟨_, hm⟩⟩
    · exact Or.inl hm
  | @look pass l hp hl ht hj =>
    rw [hj] at hm
    rcases List.mem_append.mp hm with hm | hm
    · exact Or.inr ⟨⟨_, hp⟩, Or.inr ⟨l, hm⟩⟩
    · exact Or.inl hm
  | @close pass l after hp hl ht hj hnew =>
    rw [hj] at hm
    rcases List.mem_append.mp (hsilent hnew hm) with hm | hm
    · exact Or.inr ⟨⟨_, hp⟩, Or.inr ⟨l, hm⟩⟩
    · exact Or.inl hm

/-- **Nothing is said of a pass before its number has been drawn.** -/
theorem Numbered.step (h : Numbered s) (hb : Books s) (ev : Event) : Numbered (s.step ev) := by
  have hkept : (∀ m ∈ (s.step ev).journal, ∀ n, m.pass? = some n → n < (s.step ev).next)
      ∧ ∀ {id p q n}, .began id p q (.pass n) ∈ (s.step ev).journal → q = .listing := by
    refine (step_moves hb.orderly ev).keeps_of_books (P := fun t =>
      (∀ m ∈ t.journal, ∀ n, m.pass? = some n → n < t.next)
        ∧ ∀ {id p q n}, .began id p q (.pass n) ∈ t.journal → q = .listing) hb
      ⟨h.served, h.lists⟩ ?_
    rintro t u hb ⟨hserved, hlists⟩ m
    refine ⟨fun k hk n hn => ?_, fun {id p q n} hk => ?_⟩
    · refine Nat.lt_of_lt_of_le ?_ m.next_le
      rcases (m.serves hb n).mem hk hn with hk | ⟨⟨pass, hp⟩, -⟩
      · exact hserved k hk n hn
      · exact hb.orderly.passes hp
    · rcases (m.serves hb n).mem hk rfl with hk | ⟨-, ⟨p', he⟩ | ⟨⟨p', id', r⟩, hl⟩⟩
      · exact hlists hk
      · injection he
      · cases r <;> cases List.mem_singleton.mp hl
  obtain ⟨hserved, hlists⟩ := hkept
  have hle := hb.orderly.next_le_step ev
  refine ⟨hserved, hlists, fun {n r} hf => ?_⟩
  by_cases hold : .passFinished n r ∈ s.journal
  · exact Nat.lt_of_lt_of_le (h.finished hold) hle
  · rcases finished_cases hb.orderly hold hf with ⟨pass, l, hc, -⟩ | ⟨d, u, ho, ha, rfl, -, hk⟩
    · exact Nat.lt_of_lt_of_le (hb.orderly.passes hc.present) hle
    · rw [ho.begins]
      exact State.next_beginPass (ho.move.settings ▸ ha) d

/-- To begin a pass is to ask for nothing and to write nothing yet. -/
theorem State.doesNothing_beginPass (ha : s.settings.cachingActive = true) (d : Driver) :
    DoesNothing n s (s.beginPass d) := by
  rcases beginPass_cases ha d with ⟨-, hs⟩ | ⟨-, hs⟩ | ⟨-, hs⟩
  · rw [hs]
    cases d with
    | caller c =>
      exact .of_silent ([.returned c .crashed, .passStarted s.next s.cache.size]) rfl
        (by simp [Note.pass?])
    | worker w =>
      obtain ⟨new, hj, hnew⟩ := s.draw.journal_crashWorker w
      refine .of_silent (new ++ [.passStarted s.next s.cache.size])
        (by rw [List.append_assoc]; exact hj) fun m hm => ?_
      rcases List.mem_append.mp hm with hm | hm
      · rcases hnew m hm with ⟨c, rfl⟩ | rfl <;> simp [Note.pass?]
      · rw [List.mem_singleton.mp hm]
        simp [Note.pass?]
  · rw [hs]
    cases d with
    | caller c =>
      exact .of_silent ([.returned c (.refreshed {}), .passFinished s.next {},
        .passStarted s.next s.cache.size]) rfl (by simp [Note.pass?])
    | worker w =>
      exact .of_silent ([.passFinished s.next {}, .passStarted s.next s.cache.size]) rfl
        (by simp [Note.pass?])
  · rw [hs]
    cases d <;>
      exact .of_silent ([.passStarted s.next s.cache.size]) rfl (by simp [Note.pass?])

/-- Nothing is said yet of the pass that an event begins. -/
theorem Opens.counts_zero {d : Driver} (ho : Opens s ev d u) (hb : Books s) (hnum : Numbered s)
    (ha : s.settings.cachingActive = true) : (∀ p, (s.step ev).asked u.next p = 0)
      ∧ (s.step ev).writes u.next = 0 ∧ ∀ p, (s.step ev).written u.next p = 0 := by
  have hle : s.next ≤ u.next := ho.move.next_le
  have hsilent : ∀ m ∈ u.journal, m.pass? ≠ some u.next := by
    intro m hm hn
    rcases (ho.move.serves hb u.next).mem hm hn with hm | ⟨⟨pass, hp⟩, -⟩
    · exact absurd (hnum.served m hm u.next hn) (Nat.not_lt_of_le hle)
    · exact absurd (hb.orderly.passes hp) (Nat.not_lt_of_le hle)
  have hu : DoesNothing u.next u (s.step ev) := by
    rw [ho.begins]
    exact State.doesNothing_beginPass (ho.move.settings ▸ ha) d
  refine ⟨fun p => ?_, ?_, fun p => ?_⟩
  · rw [hu.asked, State.asked, List.countP_eq_zero]
    intro m hm
    simp [Note.asks_of_silent (hsilent m hm)]
  · rw [hu.writes, State.writes, List.countP_eq_zero]
    intro m hm
    simp [Note.writes_of_silent (hsilent m hm)]
  · rw [hu.written, State.written, List.countP_eq_zero]
    intro m hm
    simp [Note.writesFor_of_silent (hsilent m hm)]

/-- A pass that an event begins has everybody who is cached in its queue, and is over if that is
nobody. -/
theorem Opens.get? {d : Driver} (ho : Opens s ev d u) (hb : Books s)
    (ha : s.settings.cachingActive = true) : (s.step ev).passes.get? u.next = none
      ∨ s.cache.keys ≠ []
        ∧ (s.step ev).passes.get? u.next = some ⟨d, s.cache.keys, [], [], {}⟩ := by
  rw [ho.begins, ← ho.cache]
  rcases State.passes_beginPass (ho.move.settings ▸ ha) d with hs | ⟨hk, hs⟩
  · refine Or.inl ?_
    rw [hs, ho.passes, Option.eq_none_iff_forall_ne_some]
    intro pass hp
    exact absurd (hb.orderly.passes hp) (Nat.not_lt_of_le ho.move.next_le)
  · exact Or.inr ⟨hk, by rw [hs, Table.get?_put_self]⟩

/-! ## Every run

`Ledger` follows a pass from its beginning to its end and beyond, since nothing is ever added to
the account of a pass that is over. -/

/-- The account of a pass, up to its end if it has come to it. -/
structure Ledger (n : Id) (old : List Principal) (s : State) : Prop extends Entries n old s where
  settled : ∀ {r}, .passFinished n r ∈ s.journal → s.passes.get? n = none ∧ Settled n old r s

theorem Ledger.step {old : List Principal} (h : Ledger n old s) (hb : Books s) (ev : Event) :
    Ledger n old (s.step ev) := by
  have hmoves := step_moves hb.orderly ev
  have hentries : Entries n old (s.step ev) :=
    hmoves.keeps_of_books hb h.toEntries fun hb he m => he.move hb m
  refine ⟨hentries, fun {r} hr => ?_⟩
  by_cases hold : .passFinished n r ∈ s.journal
  · obtain ⟨hp, hs⟩ := h.settled hold
    obtain ⟨hp', hu⟩ := Moves.doesNothing hb h.drawn hp hmoves
    exact ⟨hp', hs.of_doesNothing hu⟩
  · rcases finished_cases hb.orderly hold hr with ⟨pass, l, hc, rfl⟩ | ⟨d, u, ho, -, rfl, -⟩
    · obtain ⟨after, hj, hsilent, -⟩ := s.journal_close n n pass l
      rw [← hc.step] at hj
      refine ⟨?_, ((h.account hc.present).close hc.landed hj hsilent).settled hc.complete⟩
      rw [hc.step, State.passes_reportPass]
      exact Table.get?_erase_self
    · exact absurd h.drawn (Nat.not_lt_of_le ho.move.next_le)

/-- **The account of a pass is in order after every run.** -/
theorem Ledger.run {old : List Principal} (h : Ledger n old s) (hb : Books s) (es : List Event) :
    Ledger n old (s.run es) := by
  induction es generalizing s with
  | nil => exact h
  | cons ev es ih => exact ih (h.step hb ev) (hb.run [ev])

theorem Numbered.run (h : Numbered s) (hb : Books s) (es : List Event) : Numbered (s.run es) := by
  induction es generalizing s with
  | nil => exact h
  | cons ev es ih => exact ih (h.step hb ev) (hb.run [ev])

/-- **A pass is begun with its account in order.** -/
theorem Opens.ledger {d : Driver} (ho : Opens s ev d u) (hb : Books s) (hnum : Numbered s)
    (ha : s.settings.cachingActive = true) : Ledger u.next s.cache.keys (s.step ev) := by
  obtain ⟨hasked, hwrites, hwritten⟩ := ho.counts_zero hb hnum ha
  have hget := ho.get? hb ha
  refine ⟨⟨?_, fun p => by simp [hasked], fun p => by simp [hwritten], fun {pass} hp => ?_⟩,
    fun {r} hr => ?_⟩
  · rw [ho.begins]
    exact State.next_beginPass (ho.move.settings ▸ ha) d
  · obtain rfl : pass = ⟨d, s.cache.keys, [], [], {}⟩ := by
      rcases hget with hs | ⟨-, hs⟩ <;> simp_all
    exact ⟨fun p => by simp [hasked], fun p => by simp [hwritten, Pass.principals],
      by simp [hwrites], by simp [Pass.principals]⟩
  · have hold : .passFinished u.next r ∉ s.journal := fun hm =>
      absurd (hnum.finished hm) (Nat.not_lt_of_le ho.move.next_le)
    rcases finished_cases hb.orderly hold hr with ⟨pass, l, hc, -⟩ | ⟨-, -, -, -, -, rfl, hk⟩
    · exact absurd (hb.orderly.passes hc.present) (Nat.not_lt_of_le ho.move.next_le)
    · rw [hk]
      exact ⟨hget.resolve_right fun h => h.1 hk, by simp [hasked], by simp [hwrites], rfl⟩

/-- Nothing is ever added to the account of a pass that is over. -/
theorem Books.doesNothing_run (h : Books s) (hlt : n < s.next) (hp : s.passes.get? n = none)
    (es : List Event) : DoesNothing n s (s.run es) := by
  induction es generalizing s with
  | nil => exact .refl n s
  | cons ev es ih =>
    have hmoves := step_moves h.orderly ev
    obtain ⟨hp', hu⟩ := Moves.doesNothing h hlt hp hmoves
    exact hu.trans (ih (h.run [ev]) (Nat.lt_of_lt_of_le hlt (h.orderly.next_le_step ev)) hp')

end

end Gatekeeper.Engine

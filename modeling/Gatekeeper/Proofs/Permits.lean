import Gatekeeper.Proofs.Completion
import Gatekeeper.Proofs.Fates
import Gatekeeper.Proofs.Rest
import Gatekeeper.Proofs.Snapshot

/-!
# The calls of a pass at once

A pass may have so many calls under way at once and no more.  Each call that it begins takes one of
as many permits, and gives it back when it has ended, whether with a list, a failure or a crash, or
because time has run out.  So there are never too many calls, and never fewer than there could be
once everything that can run has run.

* `State.Open` — a call of a pass that has begun and has not ended.
* `Ration` — what every move keeps: the calls under way are no more than the permits, and those
  that have been dropped belong to a pass that is gone.
* `Rationed` — what is promised of the calls of a pass up to any moment.
* `refresh_is_rationed` — the promise is kept in every run, and in a fair run the pass comes to its
  end unless whoever runs it gives it up.

The permits are not there in the state, and they need not be.  A pass launches only as long as
fewer calls than permits are flying, and that a flying principal is a call under way is in the
books of passes.  What remains is to speak of calls by the journal, where it can be seen from
outside how many have begun and have not ended.
-/

set_option autoImplicit false

namespace Gatekeeper.Engine

/-- The pass has begun the call, which has not ended. -/
def State.Open (s : State) (n id : Id) : Prop :=
  (∃ p q, .began id p q (.pass n) ∈ s.journal) ∧ ∀ p ending, .ended id p ending ∉ s.journal

/-- What is promised of the calls of a pass over `count` principals that may have `permits` calls
under way at once, up to any moment. -/
structure Rationed (permits n count : Nat) (s : State) : Prop where
  /-- Never have more of its calls begun and not ended than there are permits. -/
  bounded : ∀ ids : List Id, ids.Nodup → (∀ id ∈ ids, s.Open n id) → ids.length ≤ permits
  /-- As long as the pass is there, these are its calls under way. -/
  calls : ∀ {pass id}, s.passes.get? n = some pass → (id ∈ s.passCalls n ↔ s.Open n id)
  /-- When everything that can run has run, every principal that has not been counted yet has its
  call under way, or else every permit is taken. -/
  busy : ∀ {pass}, s.passes.get? n = some pass → s.AtRest →
    ∃ left, pass.report.refreshed + pass.report.failed + left = count
      ∧ (s.passCalls n).length = min permits left
  /-- When the pass has come to its end, every principal has been counted. -/
  ended : ∀ {r}, .passFinished n r ∈ s.journal → r.refreshed + r.failed = count

/-- Whoever has the pass begun, when `ev` happens in `s`, has given it up by the time of `t`: the
caller waits no longer, or the worker has been asked to stop or has come to its end. -/
def GivenUp (s : State) (ev : Event) (t : State) : Prop :=
  (ev = .iterate ∧ .cancelled s.next ∈ t.journal) ∨ ∃ w, ev = .wake w ∧ ¬ t.Working w

section

variable {ev : Event} {s t u : State} {n id : Id} {pass : Pass} {k count : Nat}

/-! ## The calls of a pass

A principal that is flying stands for a call that is under way, one for one, so it does not
matter which of the two are counted. -/

/-- The principals that the pass has a call under way for. -/
def State.callees (s : State) (n : Id) : List Principal :=
  s.calls.entries.filterMap fun (_, call) =>
    if call.owner = .pass n then some call.principal else none

theorem State.length_callees (s : State) (n : Id) :
    (s.callees n).length = (s.passCalls n).length := by
  rw [callees, passCalls, List.length_filterMap_eq_countP, List.length_filterMap_eq_countP]
  refine List.countP_congr fun x _ => ?_
  by_cases ho : x.2.owner = .pass n <;> simp [ho]

theorem State.mem_callees_iff {p : Principal} : p ∈ s.callees n
    ↔ ∃ id call, s.calls.get? id = some call ∧ call.owner = .pass n ∧ call.principal = p := by
  rw [callees, List.mem_filterMap]
  constructor
  · rintro ⟨⟨id, call⟩, hm, h⟩
    simp only [Option.ite_none_right_eq_some, Option.some_inj] at h
    exact ⟨id, call, Table.mem_entries_iff.mp hm, h⟩
  · rintro ⟨id, call, hid, ho, hp⟩
    exact ⟨(id, call), Table.mem_entries_iff.mpr hid, by simp [ho, hp]⟩

/-- A pass calls for nobody twice at once. -/
theorem PassBooks.callees_nodup (h : PassBooks s) (n : Id) : (s.callees n).Nodup := by
  have hkeys := s.calls.nodup
  rw [List.Nodup, List.pairwise_map] at hkeys
  rw [State.callees, List.Nodup, List.pairwise_filterMap]
  refine hkeys.imp_of_mem fun {x y} hx hy hne p hp q hq => ?_
  simp only [Option.ite_none_right_eq_some, Option.some_inj] at hp hq
  rintro rfl
  exact hne (h.apart (Table.mem_entries_iff.mp hx) (Table.mem_entries_iff.mp hy) hp.1 hq.1
    (hp.2.trans hq.2.symm))

/-- **Every principal that is flying stands for one call.** -/
theorem PassBooks.length_passCalls (h : PassBooks s) (hp : s.passes.get? n = some pass) :
    (s.passCalls n).length = pass.flying.length := by
  have hflying : pass.flying.Nodup :=
    (List.nodup_append.mp (List.nodup_append.mp (h.nodup hp)).1).2.1
  have hperm : (s.callees n).Perm pass.flying := by
    refine (List.perm_ext_iff_of_nodup (h.callees_nodup n) hflying).mpr fun p => ?_
    rw [State.mem_callees_iff]
    refine ⟨?_, h.flying hp p⟩
    rintro ⟨id, call, hid, ho, rfl⟩
    exact h.flying_of_owner hp hid ho
  rw [← State.length_callees, hperm.length_eq]

/-- If the pass has dropped none of its calls, those under way are those that have not ended. -/
theorem CallBooks.mem_passCalls_iff (h : CallBooks s)
    (hkept : ∀ id, .dropped id (.pass n) ∉ s.journal) : id ∈ s.passCalls n ↔ s.Open n id := by
  rw [State.mem_passCalls_iff]
  constructor
  · rintro ⟨call, hid, ho⟩
    exact ⟨⟨_, _, ho ▸ h.began_of_get? hid⟩, fun p ending => h.not_ended hid⟩
  · rintro ⟨⟨p, q, hb⟩, hnot⟩
    rcases h.get?_or_of_began hb with ⟨call, hid, -, -, ho⟩ | ⟨-, ⟨ending, he⟩ | ⟨hd, -⟩⟩
    · exact ⟨call, hid, ho⟩
    · exact absurd he (hnot p ending)
    · exact absurd hd (hkept id)

/-! ## What moves make of the calls of a pass

There is no count of permits in the state; a pass launches only as long as fewer principals are
flying than there are permits.  `Ration` says what this comes to for the calls in the journal. -/

/-- **A pass drops its calls only when it goes.** -/
theorem Move.dropped (h : Books s) (m : Move ev s t) (hd : .dropped id (.pass n) ∈ t.journal) :
    .dropped id (.pass n) ∈ s.journal ∨ t.passes.get? n = none := by
  have hold : ∀ new : List Note, t.journal = new ++ s.journal →
      (∀ m ∈ new, ∀ id o, m ≠ .dropped id o) →
      .dropped id (.pass n) ∈ s.journal ∨ t.passes.get? n = none := by
    intro new hj hnew
    rw [hj] at hd
    exact Or.inl ((List.mem_append.mp hd).resolve_left fun hm => hnew _ hm id _ rfl)
  have hdrop : ∀ (callers : Table Id Waiting) (new : List Note) (k : Id),
      t = ({ s with callers := callers, journal := new ++ s.journal } : State).dropPass k →
      (∀ m ∈ new, ∀ id o, m ≠ .dropped id o) →
      .dropped id (.pass n) ∈ s.journal ∨ t.passes.get? n = none := by
    rintro callers new k rfl hnew
    rw [State.dropPass_eq] at hd ⊢
    rcases List.mem_append.mp hd with hd | hd
    · obtain ⟨id', -, he⟩ := List.mem_map.mp (List.mem_reverse.mp hd)
      injection he with _ he
      injection he with he
      exact Or.inr (he ▸ Table.get?_erase_self)
    · exact Or.inl ((List.mem_append.mp hd).resolve_left fun hm => hnew _ hm id _ rfl)
  have hnotes : ∀ {l : Landing} {k : Id}, .dropped id (.pass n) ∉ l.notes k := by
    rintro ⟨p, id', r⟩ k hm
    cases r <;> cases List.mem_singleton.mp hm
  cases m with
  | quiet hq =>
    obtain ⟨new, hj, hnew⟩ := hq.journal
    refine hold new hj fun m hm id o he => ?_
    have hremark := (hnew m hm).1
    rw [he] at hremark
    cases hremark
  | leaveCall hev hc =>
    obtain ⟨-, call, hid, ho⟩ := h.callers.waiters hc
    rw [State.dropCall_eq (s := s.leave _) hid] at hd
    rcases List.mem_cons.mp hd with he | hd
    · injection he with _ he
      rw [← he] at ho
      cases ho
    · exact Or.inl ((List.mem_cons.mp hd).resolve_left fun he => by cases he)
  | @leavePass c k hev hc => exact hdrop (s.callers.erase c) [.cancelled c] k rfl (by simp)
  | @abandon k => exact hdrop s.callers [] k rfl (by simp)
  | fetchEnds =>
    rw [State.settleFetch_eq] at hd
    exact Or.inl (by simpa [Reply.mem_notes_iff, State.endCall, State.note] using hd)
  | updateEnds =>
    rw [State.settleUpdate_eq] at hd
    exact Or.inl (by simpa [Reply.mem_notes_iff, State.endCall, State.note] using hd)
  | @look k pass l =>
    rw [State.digest_eq] at hd
    exact Or.inl ((List.mem_append.mp hd).resolve_left hnotes)
  | @close k pass l =>
    rw [State.digest_eq] at hd
    have hd' : .dropped id (.pass n) ∈ l.notes k ++ s.journal := by
      cases hdr : pass.driver <;>
        simpa [hdr, State.reportPass, State.finish, State.setPhase, State.note] using hd
    exact Or.inl ((List.mem_append.mp hd').resolve_left hnotes)
  | clear hev hn => rcases hn with rfl | ⟨k, rfl⟩ <;> exact hold [_] rfl (by simp)
  | _ => exact Or.inl (by simpa [State.enter, State.finish, State.wait, State.startOwnCall,
      State.startFetch, State.startCall, State.openPass, State.setPhase, State.endCall, State.land,
      State.leave, State.store, State.note] using hd)

/-- If the pass begins a call, it is there. -/
theorem Serves.began (h : Serves s t n) {p : Principal} {q : Question}
    (hb : .began id p q (.pass n) ∈ t.journal) :
    .began id p q (.pass n) ∈ s.journal ∨ ∃ pass, t.passes.get? n = some pass := by
  have hold : ∀ {new old : List Note}, (∀ m ∈ new, m.pass? ≠ some n) →
      .began id p q (.pass n) ∈ new ++ old → .began id p q (.pass n) ∈ old :=
    fun hn hm => (List.mem_append.mp hm).resolve_left fun hm => hn _ hm rfl
  cases h with
  | aside new hj hn | opens new hj hn | drop new hj hn => exact Or.inl (hold hn (hj ▸ hb))
  | launch _ _ ht | land _ _ _ _ _ ht | look _ _ ht => exact Or.inr ⟨_, ht⟩
  | @close pass l after _ _ _ hj hn =>
    refine Or.inl ((List.mem_append.mp (hold hn (hj ▸ hb))).resolve_left fun hm => ?_)
    have hnone := l.call?_notes hm
    cases hnone

/-- What every move keeps of the calls of a pass. -/
structure Ration (permits n : Nat) (s : State) : Prop where
  limit : s.parallelism = permits
  drawn : n < s.next
  kept : ∀ {pass}, s.passes.get? n = some pass → ∀ id, .dropped id (.pass n) ∉ s.journal
  flying : ∀ {pass}, s.passes.get? n = some pass → pass.flying.length ≤ permits
  bounded : ∀ ids : List Id, ids.Nodup → (∀ id ∈ ids, s.Open n id) → ids.length ≤ permits

/-- The permits are enough for the calls that are under way. -/
theorem Books.bounded (h : Books s) (hp : s.passes.get? n = some pass)
    (hkept : ∀ id, .dropped id (.pass n) ∉ s.journal) (hf : pass.flying.length ≤ k)
    {ids : List Id} (hids : ids.Nodup) (hopen : ∀ id ∈ ids, s.Open n id) : ids.length ≤ k := by
  have hsub : ids ⊆ s.passCalls n := fun id hid =>
    (h.calls.mem_passCalls_iff hkept).mpr (hopen id hid)
  calc ids.length ≤ (s.passCalls n).length := (hids.subperm hsub).length_le
    _ = pass.flying.length := h.passes.length_passCalls hp
    _ ≤ k := hf

/-- **Every move keeps to the permits.** -/
theorem Ration.move (h : Ration k n s) (hb : Books s) (m : Move ev s t) : Ration k n t := by
  have hthere : ∀ {pass}, t.passes.get? n = some pass → ∃ pass', s.passes.get? n = some pass' := by
    intro pass hp
    rcases m.known hp with hp' | ⟨rfl, -⟩
    · exact hp'
    · exact absurd h.drawn (Nat.lt_irrefl _)
  have hkept : ∀ {pass}, t.passes.get? n = some pass →
      ∀ id, .dropped id (.pass n) ∉ t.journal := by
    intro pass hp id hd
    obtain ⟨pass', hp'⟩ := hthere hp
    rcases m.dropped hb hd with hd | hnone
    · exact h.kept hp' id hd
    · rw [hp] at hnone
      cases hnone
  have hflying : ∀ {pass}, t.passes.get? n = some pass → pass.flying.length ≤ k := by
    intro pass hp
    obtain ⟨pass', hp'⟩ := hthere hp
    have hle := h.flying hp'
    cases m.goes hb hp' with
    | stays ht =>
      rw [hp, Option.some_inj] at ht
      exact ht ▸ hle
    | launches _ _ ht hf =>
      rw [hp, Option.some_inj] at ht
      rw [h.limit] at hf
      rw [ht, Pass.fly, List.length_append]
      exact hf
    | lands _ _ _ _ ht =>
      rw [hp, Option.some_inj] at ht
      rw [ht]
      exact (List.length_erase_le ..).trans hle
    | looks _ _ ht =>
      rw [hp, Option.some_inj] at ht
      exact ht ▸ hle
    | closes _ _ ht | cancelled _ ht | abandoned _ ht =>
      rw [hp] at ht
      cases ht
  refine ⟨?_, Nat.lt_of_lt_of_le h.drawn m.next_le, hkept, hflying, fun ids hids hopen => ?_⟩
  · rw [State.parallelism, m.settings]
    exact h.limit
  · cases hp : t.passes.get? n with
    | some pass => exact (m.books hb).bounded hp (hkept hp) (hflying hp) hids hopen
    | none =>
      -- What has not ended now had not ended before, and a pass that is gone has begun nothing.
      refine h.bounded ids hids fun id hid => ?_
      obtain ⟨⟨p, q, hbegan⟩, hnot⟩ := hopen id hid
      refine ⟨⟨p, q, ?_⟩, fun p ending he => hnot p ending ((m.touch hb).suffix.subset he)⟩
      refine ((m.serves hb n).began hbegan).resolve_right ?_
      rintro ⟨pass, hp'⟩
      rw [hp] at hp'
      cases hp'

theorem Ration.run (h : Ration k n s) (hb : Books s) (es : List Event) : Ration k n (s.run es) :=
  hb.run_induction h fun _ _ _ _ hb h m => h.move hb m

/-- A pass is begun with all its permits. -/
theorem Opens.ration {d : Driver} (ho : Opens s ev d u) (hb : Books s) (hnum : Numbered s)
    (ha : s.settings.cachingActive = true) : Ration s.parallelism u.next (s.step ev) := by
  have hb' : Books (s.step ev) := hb.run [ev]
  obtain ⟨hasked, -, -⟩ := ho.counts_zero hb hnum ha
  have hbegan : ∀ id p q, .began id p q (.pass u.next) ∉ (s.step ev).journal := by
    intro id p q hm
    have hnot := List.countP_eq_zero.mp (hasked p) _ hm
    simp [Note.asks] at hnot
  refine ⟨?_, (ho.ledger hb hnum ha).drawn, fun _ id hd => ?_, fun {pass} hp => ?_,
    fun ids hids hopen => ?_⟩
  · have hsame : (s.step ev).settings = s.settings := hb.orderly.settings_run [ev]
    rw [State.parallelism, hsame, State.parallelism]
  · obtain ⟨p, q, hm⟩ := hb'.calls.began_of_dropped hd
    exact hbegan id p q hm
  · have hempty : pass.flying = [] := by
      rcases ho.get? hb ha with hs | ⟨-, hs⟩
      · rw [hp] at hs
        cases hs
      · rw [hp, Option.some_inj] at hs
        rw [hs]
    rw [hempty]
    exact Nat.zero_le _
  · cases ids with
    | nil => exact Nat.zero_le _
    | cons id ids =>
      obtain ⟨⟨p, q, hm⟩, -⟩ := hopen id List.mem_cons_self
      exact absurd hm (hbegan id p q)

/-! ## The promise

At rest nothing can be launched and nothing waits to be looked at, so as many calls are under way
as there are permits or principals left.  That a pass comes to its end in a fair run is taken
from `Gatekeeper.Proofs.Completion`; for a pass that a worker runs, what the worker is doing
meanwhile comes from `Gatekeeper.Proofs.Fates`. -/

/-- At rest a pass has looked at all its results. -/
theorem Staffed.landed (h : Staffed s) (ha : s.settings.cachingActive = true) (hrest : s.AtRest)
    (hp : s.passes.get? n = some pass) : pass.landed = [] := by
  refine hrest.collect hp ?_
  cases hd : pass.driver with
  | caller c => rw [State.halted, hd]
  | worker w =>
    -- A worker that has been asked to stop does so in its next turn.
    obtain ⟨k, hw, hk⟩ := (h w n).mp ⟨pass, hp, hd⟩
    have hdormant := hrest.wake ha hw
    rw [Worker.dormant, hk] at hdormant
    rw [State.halted, hd]
    simpa [hw] using hdormant

/-- **A pass whose calls and whose account are in order keeps what is promised of its calls.** -/
theorem Ration.rationed {old : List Principal} (h : Ration k n s) (hb : Books s)
    (hl : Ledger n old s) (hs : Staffed s) : Rationed k n old.length s where
  bounded := h.bounded
  calls hp := hb.calls.mem_passCalls_iff (h.kept hp)
  busy {pass} hp hrest := by
    have htotal := (hl.account hp).total
    have hflying := h.flying hp
    have hlanded := hs.landed (hb.passes.active hp) hrest hp
    have hlaunch := hrest.launch hp
    rw [h.limit] at hlaunch
    rw [Pass.principals, hlanded, List.map_nil, List.append_nil, List.length_append] at htotal
    refine ⟨pass.queue.length + pass.flying.length, htotal, ?_⟩
    rw [hb.passes.length_passCalls hp]
    rcases hlaunch with hq | hle
    · rw [hq, List.length_nil, Nat.zero_add, Nat.min_eq_right hflying]
    · rw [Nat.min_eq_left (Nat.le_trans hle (Nat.le_add_left ..))]
      exact Nat.le_antisymm hflying hle
  ended hr := (hl.settled hr).2.total

/-! ### Passes of workers come to an end

In a fair run a pass of a caller ends, as does one of a worker, unless the worker is stopped or
let go of; a worker never gives a pass up of its own accord. -/

/-- In an endless run a worker looks after its pass until the pass has come to its end, or the
worker is at work no more. -/
theorem driven_trace (h : WorkerBooks s) {w : Id} (hd : s.Driven w n) (events : Nat → Event)
    (m : Nat) :
    (s.trace events m).Driven w n ∨ ∃ i, (∃ r, .passFinished n r ∈ (s.trace events i).journal)
      ∨ ¬ (s.trace events i).Working w := by
  induction m with
  | zero => exact Or.inl hd
  | succ m ih =>
    rcases ih with hm | hover
    · have hbooks : WorkerBooks (s.trace events m) := by
        rw [s.trace_eq_run]
        exact h.run _
      rcases hbooks.driven_step hm (events m) with hm | hover
      · exact Or.inl hm
      · exact Or.inr ⟨m + 1, hover⟩
    · exact Or.inr hover

/-- In a fair run a pass that a worker runs comes to its end, or the worker is at work no more. -/
theorem finished_of_fair (h : WorkerBooks s) {w : Id} (hd : s.Driven w n)
    {events : Nat → Event} (hfair : Fair s events) :
    ∃ m, (∃ r, .passFinished n r ∈ (s.trace events m).journal)
      ∨ ¬ (s.trace events m).Working w := by
  obtain ⟨m, -, hover⟩ := over_of_fair h.books hfair n 0
  rcases driven_trace h hd events m with ⟨pass, hp, hd⟩ | hdone
  · refine ⟨m, Or.inr ?_⟩
    rintro ⟨k, hw, hstopping, -⟩
    have hhalted := hover pass hp
    rw [State.halted, hd] at hhalted
    simp [hw, hstopping] at hhalted
  · exact hdone

/-- **A pass that can be run comes to its end in a fair run**, unless whoever runs it gives it up.
-/
theorem Opens.finishes {d : Driver} (ho : Opens s ev d u) (h : WorkerBooks s)
    (ha : s.settings.cachingActive = true) (hle : s.parallelism ≤ State.maxParallelism)
    {events : Nat → Event} (hfair : Fair (s.step ev) events) :
    ∃ m, (∃ r, .passFinished u.next r ∈ ((s.step ev).trace events m).journal)
      ∨ GivenUp s ev ((s.step ev).trace events m) := by
  have hb := h.books
  have hb' : Books (s.step ev) := hb.run [ev]
  rcases ho.driver with ⟨rfl, -, rfl⟩ | ⟨w, k, rfl, rfl, -⟩
  · obtain ⟨m, -, hover⟩ := over_of_fair hb' hfair u.next 0
    refine ⟨m, ?_⟩
    have hlimit : ((s.step .iterate).trace events m).parallelism = s.parallelism := by
      have hsame : (s.step .iterate).settings = s.settings := hb.orderly.settings_run [.iterate]
      rw [State.parallelism, settings_trace hb', hsame, State.parallelism]
    have hreported : Reported u.next s.next ((s.step .iterate).trace events m) := by
      rw [State.trace_eq_run]
      exact (Reported.opens ho ha).run hb' _
    cases hreported with
    | runs hp hd =>
      have hhalted := hover _ hp
      rw [State.halted, hd] at hhalted
      cases hhalted
    | told hf => exact Or.inl ⟨_, hf⟩
    | left hc => exact Or.inr (Or.inl ⟨rfl, hc⟩)
    | crashed hlt => exact absurd hlt (by rw [hlimit]; exact Nat.not_lt_of_le hle)
  · have hlimit : u.parallelism = s.parallelism := by
      rw [State.parallelism, ho.move.settings]
      rfl
    have hopened : (s.step (.wake w)).Driven w u.next
        ∨ ∃ r, .passFinished u.next r ∈ (s.step (.wake w)).journal := by
      rw [ho.begins]
      rcases State.beginPass_cases (ho.move.settings ▸ ha) (.worker w) with
        ⟨hlt, -⟩ | ⟨-, hs⟩ | ⟨-, hs⟩
      · exact absurd hlt (by rw [hlimit]; exact Nat.not_lt_of_le hle)
      · rw [hs]
        exact Or.inr ⟨_, List.mem_cons_self⟩
      · rw [hs]
        exact Or.inl ⟨_, Table.get?_put_self, rfl⟩
    rcases hopened with hdriven | hfinished
    · obtain ⟨m, hdone⟩ := finished_of_fair (h.step (.wake w)) hdriven hfair
      exact ⟨m, hdone.imp_right fun hw => Or.inr ⟨w, rfl, hw⟩⟩
    · exact ⟨0, Or.inl hfinished⟩

/-- **The calls of a pass are rationed.**  Whatever happens after it has been begun, and however its
calls end, a pass never has more calls begun and not ended than there are permits; none is lost, so
that once everything that can run has run there are as many calls under way as permits, or as
principals left; and if the pass can be run at all then in a fair run it comes to its end with
everybody counted, unless whoever runs it gives it up. -/
theorem refresh_is_rationed (settings : Settings) (checks : Bool) (es : List Event) (ev : Event)
    {n count : Nat}
    (hnew : .passStarted n count ∉ ((State.initial settings checks).run es).journal)
    (hs : .passStarted n count ∈ (((State.initial settings checks).run es).step ev).journal) :
    let s := (State.initial settings checks).run es
    let permits := max 1 settings.refreshParallelism
    count = s.cache.size ∧ (∀ es', Rationed permits n count ((s.step ev).run es'))
      ∧ (permits ≤ State.maxParallelism → ∀ events, Fair (s.step ev) events →
        ∃ m, (∃ r, .passFinished n r ∈ ((s.step ev).trace events m).journal
            ∧ r.refreshed + r.failed = count)
          ∨ GivenUp s ev ((s.step ev).trace events m)) := by
  intro s permits
  have hinit := Books.initial settings checks
  have hb : Books s := hinit.run es
  have hnum : Numbered s := (Numbered.initial settings checks).run hinit es
  have hsame : s.settings = settings := hinit.orderly.settings_run es
  have hlimit : s.parallelism = permits := by rw [State.parallelism, hsame]
  obtain ⟨d, u, ho, ha, rfl, rfl⟩ := started_cases hb.orderly hnew hs
  have hworkers : WorkerBooks s := (WorkerBooks.initial settings checks).run es
  have hb' : Books (s.step ev) := hb.run [ev]
  have hrationed : ∀ es', Rationed permits u.next s.cache.size ((s.step ev).run es') := by
    intro es'
    rw [← Table.length_keys]
    exact (hlimit ▸ (ho.ration hb hnum ha).run hb' es').rationed (hb'.run es')
      ((ho.ledger hb hnum ha).run hb' es') (hworkers.run (ev :: es')).staffed
  refine ⟨rfl, hrationed, fun hle events hfair => ?_⟩
  obtain ⟨m, ⟨r, hr⟩ | hgiven⟩ := ho.finishes hworkers ha (hlimit ▸ hle) hfair
  · refine ⟨m, Or.inl ⟨r, hr, ?_⟩⟩
    rw [State.trace_eq_run] at hr
    exact (hrationed _).ended hr
  · exact ⟨m, Or.inr hgiven⟩

end

/-- Of three principals two are asked for at once.  One call crashes and the pass takes notice; then
the third principal is asked for, and again two calls are under way. -/
theorem refresh_is_rationed_after_crash :
    let settings : Settings := { authorization := true, refreshParallelism := 2 }
    let p : Principal := ⟨.user, "alice"⟩
    let q : Principal := ⟨.user, "bob"⟩
    let r : Principal := ⟨.user, "carol"⟩
    let es : List Event := [.write p (.ofList []), .write q (.ofList []), .write r (.ofList [])]
    let es' : List Event := [.launch 1 p, .launch 1 q, .answer 2 .crashed, .collect 1 p,
      .launch 1 r]
    let s := (State.initial settings true).run es
    let t := (s.step .iterate).run es'
    Rationed 2 1 3 t ∧ t.AtRest ∧ t.passCalls 1 = [3, 4]
      ∧ ∃ events m, Fair (s.step .iterate) events
        ∧ ((∃ r, .passFinished 1 r ∈ ((s.step .iterate).trace events m).journal
            ∧ r.refreshed + r.failed = 3)
          ∨ GivenUp s .iterate ((s.step .iterate).trace events m)) := by
  intro settings p q r es es' s t
  have hrationed := @refresh_is_rationed settings true es .iterate 1 3 (by decide) (by decide)
  have hrest : t.AtRest := (State.atRest_iff (by decide)).mpr (by decide)
  have hbooks : Books (s.step .iterate) := ((Books.initial settings true).run es).run [.iterate]
  obtain ⟨events, hfair⟩ := exists_fair hbooks
  obtain ⟨m, hm⟩ := hrationed.2.2 (by decide) events hfair
  exact ⟨hrationed.2.1 es', hrest, by decide, events, m, hfair, hm⟩

end Gatekeeper.Engine

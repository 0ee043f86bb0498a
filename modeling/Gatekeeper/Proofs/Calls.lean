import Gatekeeper.Proofs.Step

/-!
# The story of a call

A call begins, and later it may end or be dropped, once and for all.  Which of this has happened can
be read in the journal, and the calls that are under way are those that have only begun.  A fetch is
registered as long as its call is under way.

* `CallStory` — all that the journal can say of one call.
* `CallBooks` — what the tables of calls and fetches have to do with the journal and each other.
* `Move.callBooks` — the moves keep the books.

A call is told about in few notes, and `thread` picks them out of the journal.  To say which
notes there can be, and in what order, is enough to know that a call ends once, that it is not
dropped after its end, and that what it was answered fits what it asked for.  The books tie this
to the table: what the table says of a call is the last that the journal says of it.
-/

set_option autoImplicit false

namespace Gatekeeper.Engine

/-- What the journal says of a call, newest first, given what is known of it while it is under way.
A call ends with a verdict only if it asked for one, and a call that a fetch makes is never dropped.
-/
inductive CallStory (id : Id) : Option Call → List Note → Prop
  | unknown : CallStory id none []
  | underway (call : Call) :
    CallStory id (some call) [.began id call.principal call.question call.owner]
  | ended (p : Principal) {q : Question} (o : Owner) {ending : Ending}
    (h : ∀ r, ending = .checked r → ∃ e a, q = .check e a) :
    CallStory id none [.ended id p ending, .began id p q o]
  | dropped (p : Principal) (q : Question) {o : Owner} (h : o ≠ .fetch) :
    CallStory id none [.dropped id o, .began id p q o]

/-- What the tables of calls and fetches have to do with the journal and with each other. -/
structure CallBooks (s : State) : Prop where
  story : ∀ id, CallStory id (s.calls.get? id) (thread Note.call? id s.journal)
  underway : ∀ {p id}, s.fetches.get? p = some (.underway id) →
    ∃ call, s.calls.get? id = some call ∧ call.owner = .fetch ∧ call.principal = p
  registered : ∀ {id call}, s.calls.get? id = some call → call.owner = .fetch →
    s.fetches.get? call.principal = some (.underway id)
  enabled : ∀ {id call}, s.calls.get? id = some call → call.owner.enabled s.settings = true
  listing : ∀ {id call}, s.calls.get? id = some call → call.owner.caller? = none →
    call.question = .listing
  active : ∀ {p f}, s.fetches.get? p = some f → Owner.fetch.enabled s.settings = true

namespace CallBooks

variable {s t : State}

theorem initial (settings : Settings) (checks : Bool) : CallBooks (.initial settings checks) where
  story _ := .unknown
  underway h := by cases h
  registered h := by cases h
  enabled h := by cases h
  listing h := by cases h
  active h := by cases h

/-! ## Reading the books

The story of a call has three chapters at most, and in which of them a call is can be told from
the table or from the journal.  Most lemmas here turn the one into the other. -/

/-- The notes in the journal about a call are those of its story. -/
theorem read (h : CallBooks s) (id : Id) : ∃ g l, s.calls.get? id = g ∧ CallStory id g l
    ∧ ∀ n, n.call? = some id → (n ∈ s.journal ↔ n ∈ l) :=
  ⟨_, _, rfl, h.story id, fun _ hn => (mem_thread.trans (and_iff_left hn)).symm⟩

theorem began_of_get? (h : CallBooks s) {id : Id} {call : Call}
    (hc : s.calls.get? id = some call) :
    .began id call.principal call.question call.owner ∈ s.journal := by
  obtain ⟨g, l, hg, hs, hl⟩ := h.read id
  rw [hc] at hg
  subst hg
  cases hs with
  | underway => exact (hl _ rfl).mpr List.mem_cons_self

/-- All that has been said of a call that is under way is that it has begun. -/
theorem thread_of_get? (h : CallBooks s) {id : Id} {call : Call}
    (hc : s.calls.get? id = some call) : thread Note.call? id s.journal
      = [.began id call.principal call.question call.owner] := by
  have hs := h.story id
  rw [hc] at hs
  generalize thread Note.call? id s.journal = l at hs
  cases hs with
  | underway => rfl

/-- What has begun is still under way, or has ended, or has been dropped. -/
theorem get?_or_of_began (h : CallBooks s) {id : Id} {p : Principal} {q : Question} {o : Owner}
    (hb : .began id p q o ∈ s.journal) :
    (∃ call, s.calls.get? id = some call ∧ call.principal = p ∧ call.question = q ∧ call.owner = o)
      ∨ (s.calls.get? id = none ∧ ((∃ ending, .ended id p ending ∈ s.journal)
        ∨ (.dropped id o ∈ s.journal ∧ o ≠ .fetch))) := by
  obtain ⟨g, l, hg, hs, hl⟩ := h.read id
  have hm := (hl _ rfl).mp hb
  cases hs with
  | unknown => exact absurd hm List.not_mem_nil
  | underway call =>
    injection List.mem_singleton.mp hm with _ hp hq ho
    exact Or.inl ⟨call, hg, hp.symm, hq.symm, ho.symm⟩
  | @ended p' q' o' ending =>
    rcases List.mem_cons.mp hm with hm | hm
    · cases hm
    · injection List.mem_singleton.mp hm with _ hp
      exact Or.inr ⟨hg, Or.inl ⟨ending, hp ▸ (hl _ rfl).mpr List.mem_cons_self⟩⟩
  | @dropped p' q' o' ho =>
    rcases List.mem_cons.mp hm with hm | hm
    · cases hm
    · injection List.mem_singleton.mp hm with _ _ _ he
      subst he
      exact Or.inr ⟨hg, Or.inr ⟨(hl _ rfl).mpr List.mem_cons_self, ho⟩⟩

/-- A call begins once. -/
theorem began_unique (h : CallBooks s) {id : Id} {p p' : Principal} {q q' : Question} {o o' : Owner}
    (hb : .began id p q o ∈ s.journal) (hb' : .began id p' q' o' ∈ s.journal) :
    p = p' ∧ q = q' ∧ o = o' := by
  obtain ⟨g, l, -, hs, hl⟩ := h.read id
  have hm := (hl _ rfl).mp hb
  have hm' := (hl _ rfl).mp hb'
  clear hl
  cases hs <;> simp_all

/-- What has ended has begun, is no longer under way, and has ended in one way. -/
theorem of_ended (h : CallBooks s) {id : Id} {p : Principal} {ending : Ending}
    (he : .ended id p ending ∈ s.journal) :
    s.calls.get? id = none ∧ (∃ q o, .began id p q o ∈ s.journal)
      ∧ ∀ p' ending', .ended id p' ending' ∈ s.journal → p' = p ∧ ending' = ending := by
  obtain ⟨g, l, hg, hs, hl⟩ := h.read id
  have hm := (hl _ rfl).mp he
  cases hs with
  | unknown => exact absurd hm List.not_mem_nil
  | underway call => simp at hm
  | dropped p' q' ho => simp at hm
  | @ended p₀ q o ending₀ =>
    obtain ⟨rfl, rfl⟩ : p = p₀ ∧ ending = ending₀ := by simpa using hm
    have hb : .began id p q o ∈ s.journal :=
      (hl _ rfl).mpr (List.mem_cons_of_mem _ List.mem_cons_self)
    refine ⟨hg, ⟨q, o, hb⟩, fun p' ending' he' => ?_⟩
    simpa using (hl _ rfl).mp he'

/-- What is under way has not ended. -/
theorem not_ended (h : CallBooks s) {id : Id} {call : Call} (hid : s.calls.get? id = some call)
    {p : Principal} {ending : Ending} : .ended id p ending ∉ s.journal := by
  intro he
  rw [(h.of_ended he).1] at hid
  cases hid

/-- What has been dropped is no longer under way. -/
theorem of_dropped (h : CallBooks s) {id : Id} {o : Owner} (hd : .dropped id o ∈ s.journal) :
    s.calls.get? id = none := by
  obtain ⟨g, l, hg, hs, hl⟩ := h.read id
  have hm := (hl _ rfl).mp hd
  cases hs with
  | underway call => simp at hm
  | _ => exact hg

/-- What has been dropped has begun. -/
theorem began_of_dropped (h : CallBooks s) {id : Id} {o : Owner} (hd : .dropped id o ∈ s.journal) :
    ∃ p q, .began id p q o ∈ s.journal := by
  obtain ⟨g, l, -, hs, hl⟩ := h.read id
  have hm := (hl _ rfl).mp hd
  cases hs with
  | unknown => exact absurd hm List.not_mem_nil
  | underway call => simp at hm
  | ended p o' hq => simp at hm
  | @dropped p q o' ho =>
    obtain rfl : o = o' := by simpa using hm
    exact ⟨p, q, (hl _ rfl).mpr (List.mem_cons_of_mem _ List.mem_cons_self)⟩

/-- What has been dropped does not end. -/
theorem not_ended_of_dropped (h : CallBooks s) {id : Id} {o : Owner}
    (hd : .dropped id o ∈ s.journal) (p : Principal) (ending : Ending) :
    .ended id p ending ∉ s.journal := by
  intro he
  obtain ⟨g, l, -, hs, hl⟩ := h.read id
  have hm := (hl _ rfl).mp hd
  have hm' := (hl _ rfl).mp he
  cases hs with
  | dropped p' q ho => simp at hm'
  | _ => simp at hm

/-- The call of a fetch is never dropped. -/
theorem not_dropped (h : CallBooks s) (id : Id) : .dropped id .fetch ∉ s.journal := by
  intro hd
  obtain ⟨g, l, -, hs, hl⟩ := h.read id
  have hm := (hl _ rfl).mp hd
  cases hs with
  | @dropped p q o ho =>
    obtain rfl : Owner.fetch = o := by simpa using hm
    exact ho rfl
  | _ => simp at hm

/-- Whoever asked for a list gets no verdict. -/
theorem not_checked (h : CallBooks s) {id : Id} {p p' : Principal} {o : Owner} {r : Reply Bool}
    (hb : .began id p .listing o ∈ s.journal) : .ended id p' (.checked r) ∉ s.journal := by
  intro he
  obtain ⟨g, l, -, hs, hl⟩ := h.read id
  have hm := (hl _ rfl).mp hb
  have hm' := (hl _ rfl).mp he
  cases hs with
  | @ended p₀ q o ending hq =>
    obtain ⟨e, a, rfl⟩ := hq r (by simp_all)
    simp at hm
  | _ => simp at hm hm'

/-! ## Keeping the books

Calls are begun, and they are over: they end, or are dropped.  For the call of a fetch the
registration changes along with it, which is why `register` and `unregister` stand beside `begin`
and `finished`. -/

/-- A change in which calls and fetches have no part. -/
theorem keep (h : CallBooks s) (hs : t.settings = s.settings) (hc : t.calls = s.calls)
    (hf : t.fetches = s.fetches)
    (hj : ∀ id, thread Note.call? id t.journal = thread Note.call? id s.journal) : CallBooks t where
  story id := by
    rw [hc, hj]
    exact h.story id
  underway hp := by
    rw [hc]
    exact h.underway (hf ▸ hp)
  registered hid ho := by
    rw [hf]
    exact h.registered (hc ▸ hid) ho
  enabled hid := by
    rw [hs]
    exact h.enabled (hc ▸ hid)
  listing hid := h.listing (hc ▸ hid)
  active hp := by
    rw [hs]
    exact h.active (hf ▸ hp)

/-- Notes are added that are about no call. -/
theorem tell (h : CallBooks s) (new : List Note) (hs : t.settings = s.settings)
    (hc : t.calls = s.calls) (hf : t.fetches = s.fetches) (hj : t.journal = new ++ s.journal)
    (hn : ∀ n ∈ new, n.call? = none) : CallBooks t := by
  refine h.keep hs hc hf fun id => ?_
  rw [hj]
  exact thread_append_of_none hn

/-- Nothing is known of the call that begins next. -/
theorem thread_next (ho : Orderly s) : thread Note.call? s.next s.journal = [] :=
  thread_eq_nil fun n hn hc =>
    absurd (ho.notes n hn _ (Note.mem_ids_of_call? hc)) (Nat.lt_irrefl _)

/-- A call is begun. -/
theorem story_begun (h : CallBooks s) (ho : Orderly s) {call : Call}
    (hj : ∀ id, thread Note.call? id t.journal = thread Note.call? id
      (.began s.next call.principal call.question call.owner :: s.journal)) (id : Id) :
    CallStory id ((s.calls.put s.next call).get? id) (thread Note.call? id t.journal) := by
  rw [hj]
  by_cases hid : id = s.next
  · rw [hid, Table.get?_put_self, thread_cons_self rfl, thread_next ho]
    exact .underway call
  · rw [Table.get?_put_of_ne hid, thread_cons_of_ne fun e => hid (Option.some_inj.mp e).symm]
    exact h.story id

/-- A call is begun that is not the call of a fetch. -/
theorem begin (h : CallBooks s) (ho : Orderly s) {call : Call} (hs : t.settings = s.settings)
    (hc : t.calls = s.calls.put s.next call) (hf : t.fetches = s.fetches)
    (hj : ∀ id, thread Note.call? id t.journal = thread Note.call? id
      (.began s.next call.principal call.question call.owner :: s.journal))
    (hcall : call.owner ≠ .fetch) (he : call.owner.enabled s.settings = true)
    (hq : call.owner.caller? = none → call.question = .listing) : CallBooks t where
  story id := by
    rw [hc]
    exact h.story_begun ho hj id
  underway {p id} hp := by
    obtain ⟨call', hid, hrest⟩ := h.underway (hf ▸ hp)
    refine ⟨call', ?_, hrest⟩
    rw [hc, Table.get?_put_of_ne (Nat.ne_of_lt (ho.calls hid))]
    exact hid
  registered hid hfetch := by
    rw [hc] at hid
    rw [hf]
    rcases Table.get?_put_eq_some_iff.mp hid with ⟨-, rfl⟩ | ⟨-, hid⟩
    · exact absurd hfetch hcall
    · exact h.registered hid hfetch
  enabled hid := by
    rw [hc] at hid
    rw [hs]
    rcases Table.get?_put_eq_some_iff.mp hid with ⟨-, rfl⟩ | ⟨-, hid⟩
    · exact he
    · exact h.enabled hid
  listing hid hn := by
    rw [hc] at hid
    rcases Table.get?_put_eq_some_iff.mp hid with ⟨-, rfl⟩ | ⟨-, hid⟩
    · exact hq hn
    · exact h.listing hid hn
  active hp := by
    rw [hs]
    exact h.active (hf ▸ hp)

/-! ### Fetches

A fetch is registered in the very move in which its call begins, and goes in the one in which the
call ends.  So neither is ever there without the other, unless the call has crashed. -/

/-- A fetch is registered together with its call. -/
theorem register (h : CallBooks s) (ho : Orderly s) {c : Id} {e : Entity} {p : Principal}
    {a : Action} (hp : s.fetches.get? p = none) (he : Owner.fetch.enabled s.settings = true) :
    CallBooks (s.startFetch c e p a) where
  story := by
    refine h.story_begun ho fun id => ?_
    exact thread_cons_of_none rfl
  underway {q id} hq := by
    rcases Table.get?_put_eq_some_iff.mp hq with ⟨rfl, hid⟩ | ⟨-, hq⟩
    · injection hid with hid
      subst hid
      exact ⟨_, Table.get?_put_self, rfl, rfl⟩
    · obtain ⟨call, hid, hrest⟩ := h.underway hq
      exact ⟨call, (Table.get?_put_of_ne (Nat.ne_of_lt (ho.calls hid))).trans hid, hrest⟩
  registered {id call} hid hfetch := by
    rcases Table.get?_put_eq_some_iff.mp hid with ⟨rfl, rfl⟩ | ⟨-, hid⟩
    · exact Table.get?_put_self
    · have hreg := h.registered hid hfetch
      have hne : call.principal ≠ p := by
        intro e
        rw [e, hp] at hreg
        cases hreg
      exact (Table.get?_put_of_ne hne).trans hreg
  enabled hid := by
    rcases Table.get?_put_eq_some_iff.mp hid with ⟨-, rfl⟩ | ⟨-, hid⟩
    · exact he
    · exact h.enabled hid
  listing hid hn := by
    rcases Table.get?_put_eq_some_iff.mp hid with ⟨-, rfl⟩ | ⟨-, hid⟩
    · rfl
    · exact h.listing hid hn
  active hq := by
    rcases Table.get?_put_eq_some_iff.mp hq with ⟨rfl, -⟩ | ⟨-, hq⟩
    · exact he
    · exact h.active hq

/-- A call is over. -/
theorem story_over (h : CallBooks s) {id : Id} {call : Call} {n : Note}
    (hid : s.calls.get? id = some call) (hn : n.call? = some id)
    (hover : CallStory id none [n, .began id call.principal call.question call.owner]) (id' : Id) :
    CallStory id' ((s.calls.erase id).get? id') (thread Note.call? id' (n :: s.journal)) := by
  by_cases he : id' = id
  · subst he
    have hs := h.story id'
    rw [hid] at hs
    rw [Table.get?_erase_self, thread_cons_self hn]
    generalize thread Note.call? id' s.journal = l at hs
    cases hs with
    | underway => exact hover
  · rw [Table.get?_erase_of_ne he, thread_cons_of_ne fun e => he (by simp_all)]
    exact h.story id'

/-- A call is over that is not the call of a fetch. -/
theorem finished (h : CallBooks s) {id : Id} {call : Call} {n : Note}
    (hid : s.calls.get? id = some call) (ho : call.owner ≠ .fetch) (hn : n.call? = some id)
    (hover : CallStory id none [n, .began id call.principal call.question call.owner]) :
    CallBooks ({ s with calls := s.calls.erase id }.note n) where
  story := h.story_over hid hn hover
  underway {p id'} hp := by
    obtain ⟨call', hid', hfetch, hrest⟩ := h.underway hp
    have hne : id' ≠ id := by
      rintro rfl
      rw [hid, Option.some_inj] at hid'
      exact ho (hid' ▸ hfetch)
    exact ⟨call', (Table.get?_erase_of_ne hne).trans hid', hfetch, hrest⟩
  registered hid' := h.registered (Table.get?_erase_eq_some_iff.mp hid').2
  enabled hid' := h.enabled (Table.get?_erase_eq_some_iff.mp hid').2
  listing hid' := h.listing (Table.get?_erase_eq_some_iff.mp hid').2
  active := h.active

theorem endCall (h : CallBooks s) {id : Id} {call : Call} {ending : Ending}
    (hid : s.calls.get? id = some call) (ho : call.owner ≠ .fetch)
    (hq : ∀ r, ending = .checked r → ∃ e a, call.question = .check e a) :
    CallBooks (s.endCall id call.principal ending) :=
  h.finished hid ho rfl (.ended _ _ hq)

theorem dropCall (h : CallBooks s) {id : Id}
    (ho : ∀ call, s.calls.get? id = some call → call.owner ≠ .fetch) :
    CallBooks (s.dropCall id) := by
  rw [State.dropCall]
  split
  · rename_i call hid
    exact h.finished hid (ho call hid) rfl (.dropped _ _ (ho call hid))
  · exact h

theorem dropPass (h : CallBooks s) (n : Id) : CallBooks (s.dropPass n) := by
  have hkeep : CallBooks { s with passes := s.passes.erase n } :=
    h.keep rfl rfl rfl fun _ => rfl
  have hl : ∀ id ∈ s.passCalls n, ∀ call, s.calls.get? id = some call → call.owner ≠ .fetch := by
    intro id hid call hc ho
    obtain ⟨call', hc', ho'⟩ := State.mem_passCalls_iff.mp hid
    rw [hc, Option.some_inj] at hc'
    rw [hc', ho'] at ho
    cases ho
  rw [State.dropPass]
  generalize s.passCalls n = l at hl
  clear h
  revert hkeep hl
  generalize hu : { s with passes := s.passes.erase n } = u
  have hcalls : u.calls = s.calls := by rw [← hu]
  rw [← hcalls]
  clear hu hcalls
  induction l generalizing u with
  | nil => exact fun hkeep _ => hkeep
  | cons id l ih =>
    intro hkeep hl
    refine ih _ (hkeep.dropCall (hl id List.mem_cons_self)) fun id' hid' call hc => ?_
    refine hl id' (List.mem_cons_of_mem _ hid') call ?_
    rw [State.dropCall] at hc
    split at hc
    · exact (Table.get?_erase_eq_some_iff.mp hc).2
    · exact hc

/-- The call of a fetch ends, and the fetch with it. -/
theorem unregister (h : CallBooks s) {id : Id} {call : Call} {ending : Ending}
    (hid : s.calls.get? id = some call) (ho : call.owner = .fetch)
    (hq : ∀ r, ending = .checked r → ∃ e a, call.question = .check e a) (r : Reply PrivilegeSet) :
    CallBooks ((s.endCall id call.principal ending).settleFetch id call.principal r) := by
  have hreg := h.registered hid ho
  rw [State.settleFetch_eq]
  have hnew : ∀ n ∈ ((s.endCall id call.principal ending).fetchWaiters call.principal).map
      (fun x => Note.returned x.1 ((Request.enforce x.2.1 call.principal x.2.2).answer r)),
      n.call? = none := by
    intro n hn
    obtain ⟨x, -, rfl⟩ := List.mem_map.mp hn
    rfl
  exact {
    story := fun id' => by
      rw [thread_append_of_none, thread_append_of_none]
      · exact h.story_over hid rfl (.ended _ _ hq) id'
      · intro n hn
        obtain ⟨S, -, rfl⟩ := Reply.mem_notes_iff.mp hn
        rfl
      · exact fun n hn => hnew n (List.mem_reverse.mp hn)
    underway := fun {p id'} hp => by
      have hne : p ≠ call.principal := by
        rintro rfl
        rw [Reply.get?_unregister_self] at hp
        split at hp <;> cases hp
      rw [Reply.get?_unregister_of_ne hne] at hp
      obtain ⟨call', hid', hfetch, rfl⟩ := h.underway hp
      have hne' : id' ≠ id := by
        rintro rfl
        rw [hid, Option.some_inj] at hid'
        exact hne (by rw [hid'])
      exact ⟨call', (Table.get?_erase_of_ne hne').trans hid', hfetch, rfl⟩
    registered := fun {id' call'} hid' hfetch => by
      obtain ⟨hne, hid'⟩ := Table.get?_erase_eq_some_iff.mp hid'
      have hreg' := h.registered hid' hfetch
      have hp : call'.principal ≠ call.principal := by
        intro e
        rw [e, hreg, Option.some_inj] at hreg'
        injection hreg' with hreg'
        exact hne hreg'.symm
      rw [Reply.get?_unregister_of_ne hp]
      exact hreg'
    enabled := fun hid' => h.enabled (Table.get?_erase_eq_some_iff.mp hid').2
    listing := fun hid' => h.listing (Table.get?_erase_eq_some_iff.mp hid').2
    active := fun _ => h.active hreg }

end CallBooks

/-! ## Moves

Few moves have a part in calls at all.  A pass that is dropped takes many at once, and for every
other move the change is one of those above. -/

/-- **The moves keep the books of calls and fetches**, if nobody drops the call of a fetch as its
own and passes are run only where there is a cache. -/
theorem Move.callBooks {ev : Event} {s t : State} (ho : Orderly s) (h : CallBooks s)
    (hl : ∀ {c id call}, s.callers.get? c = some (.call id) → s.calls.get? id = some call →
      call.owner ≠ .fetch)
    (hpass : ∀ {n pass}, s.passes.get? n = some pass → s.settings.cachingActive = true)
    (m : Move ev s t) : CallBooks t := by
  cases m with
  | quiet hq =>
    obtain ⟨new, hj, hnew⟩ := hq.journal
    refine h.tell new hq.settings hq.calls hq.fetches hj fun n hn => ?_
    exact Note.call?_of_remark (hnew n hn).1
  | await => exact h.keep rfl rfl rfl fun id => rfl
  | enter | reply | release | join | openFor | openBy | leave | write =>
    exact h.keep rfl rfl rfl fun id => thread_cons_of_none rfl
  | own ha hm hf he =>
    refine h.begin ho rfl rfl rfl (fun id => ?_) hf he fun hn => ?_
    · rfl
    · cases hm with
      | fetch => rfl
      | _ => cases hn
  | fetch hev ha hf he => exact h.register ho hf he
  | fetchEnds hc hfetch ha he =>
    exact h.unregister hc hfetch (fun r hr => absurd hr (he.not_checked r)) _
  | updateEnds hc hown he =>
    have h' := h.endCall hc (by simp [hown]) fun r hr => absurd hr (he.not_checked r)
    rw [State.settleUpdate_eq]
    refine h'.tell _ rfl rfl rfl (List.cons_append ..).symm fun n hn => ?_
    rcases List.mem_cons.mp hn with rfl | hn
    · rfl
    · obtain ⟨S, -, rfl⟩ := Reply.mem_notes_iff.mp hn
      rfl
  | directEnds hc hown he =>
    have h' := h.endCall hc (by simp [hown]) fun r => he.check
    exact h'.keep rfl rfl rfl fun id => thread_cons_of_none rfl
  | landing hc hown he =>
    have h' := h.endCall hc (by simp [hown]) fun r hr => absurd hr (he.not_checked r)
    exact h'.keep rfl rfl rfl fun id => rfl
  | launch hev hp hq hf =>
    exact h.begin ho rfl rfl rfl (fun id => rfl) (by simp) (hpass hp) fun _ => rfl
  | @look n pass l hev hp hh hl hc =>
    rw [State.digest_eq]
    exact h.tell _ rfl rfl rfl rfl fun n hn => Landing.call?_notes hn
  | @close n pass l hev hp hh hl hc =>
    rw [State.digest_eq]
    have hd := h.tell (.passFinished n (pass.look l).report :: l.notes n) (t := { s with
      cache := l.reply.put l.principal s.cache
      passes := s.passes.erase n
      journal := .passFinished n (pass.look l).report :: (l.notes n ++ s.journal) })
        rfl rfl rfl rfl fun m hm => by
        rcases List.mem_cons.mp hm with rfl | hm
        · rfl
        · exact Landing.call?_notes hm
    cases pass.driver with
    | caller c => exact hd.keep rfl rfl rfl fun id => thread_cons_of_none rfl
    | worker w => exact hd.keep rfl rfl rfl fun id => rfl
  | @leaveCall c id hev hc =>
    have hleave : CallBooks (s.leave c) :=
      h.keep rfl rfl rfl fun id => thread_cons_of_none rfl
    exact hleave.dropCall fun call hid => hl hc hid
  | @leavePass c n hev hc =>
    have hleave : CallBooks (s.leave c) :=
      h.keep rfl rfl rfl fun id => thread_cons_of_none rfl
    exact hleave.dropPass _
  | abandon hd => exact h.dropPass _
  | clear hev hn =>
    refine h.keep rfl rfl rfl fun id => thread_cons_of_none ?_
    rcases hn with rfl | ⟨k, rfl⟩ <;> rfl

end Gatekeeper.Engine

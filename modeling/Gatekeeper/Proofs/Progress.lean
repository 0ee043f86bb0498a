import Gatekeeper.Proofs.Cache

/-!
# How a pass goes on

A pass comes closer to its end with every move that is about it: a call is started, a call ends, a
result is looked at.  A move that is not about it leaves it as it is, with its calls.

* `Goes` — what a move makes of a pass, and `Move.goes`, which says that this is all.
* `Goes.shrinks` — a pass takes on nothing new.
* `Move.known` — a pass that is there was there before, or has been opened over what was cached.
* `Move.begun` — a call that is under way was so before, or an event has had it begun.
* `Move.halted` — a pass that has been stopped stays so.
* `State.launch_eq`, `State.answer_eq` and `State.collect_eq` — what a pass does when it is its
  turn.

One case distinction over the moves is made here, for one pass with its calls.  What it leaves
out is what is *said* of the pass, which is in `Gatekeeper.Proofs.Account`; the two are used
together.
-/

set_option autoImplicit false

namespace Gatekeeper.Engine

/-- What a move makes of a pass. -/
inductive Goes (ev : Event) (s t : State) (n : Id) (pass : Pass) : Prop
  | stays (hp : t.passes.get? n = some pass)
    (hc : ∀ {id call}, s.calls.get? id = some call → call.owner = .pass n →
      t.calls.get? id = some call)
  | launches {p : Principal} (hev : ev = .launch n p) (hq : p ∈ pass.queue)
    (hp : t.passes.get? n = some (pass.fly p)) (hf : pass.flying.length < s.parallelism)
  | lands {id : Id} {call : Call} {ending : Ending} {r : Reply PrivilegeSet}
    (hc : s.calls.get? id = some call) (ho : call.owner = .pass n) (he : Ends ev s id call ending r)
    (hf : call.principal ∈ pass.flying)
    (hp : t.passes.get? n = some (pass.land ⟨call.principal, id, r⟩))
  | looks {l : Landing} (hh : s.halted pass = false) (hl : l ∈ pass.landed)
    (hp : t.passes.get? n = some (pass.look l)) (hev : ev = .collect n l.principal)
  | closes {l : Landing} (hh : s.halted pass = false) (hl : l ∈ pass.landed)
    (hp : t.passes.get? n = none)
    (hd : ∀ c, pass.driver = .caller c →
      .returned c (.refreshed (pass.look l).report) ∈ t.journal)
    (hev : ev = .collect n l.principal) (hf : .passFinished n (pass.look l).report ∈ t.journal)
  | cancelled {c : Id} (hd : pass.driver = .caller c) (hp : t.passes.get? n = none)
    (hj : .cancelled c ∈ t.journal)
  | abandoned {w : Id} (hd : pass.driver = .worker w) (hp : t.passes.get? n = none)
    (hev : ev.abandons = true)

section

variable {ev : Event} {s t : State}

@[simp]
theorem State.passes_reportPass (s : State) (d : Driver) (r : Report) :
    (s.reportPass d r).passes = s.passes := by
  cases d <;> rfl

@[simp]
theorem State.calls_reportPass (s : State) (d : Driver) (r : Report) :
    (s.reportPass d r).calls = s.calls := by
  cases d <;> rfl

/-! ## What moves make of a pass

`Goes` follows one pass and its calls through a move.  From it come the bounds that are asked for
later: that a pass takes on nothing new, that a pass or a call that is there now was there before
or has just begun. -/

/-- A call that begins takes no other's place. -/
theorem Orderly.get?_begun (h : Orderly s) {id : Id} {call : Call}
    (hid : s.calls.get? id = some call) (call' : Call) :
    (s.calls.put s.next call').get? id = some call :=
  (Table.get?_put_of_ne (Nat.ne_of_lt (h.calls hid))).trans hid

/-- What the end of another call leaves of a pass. -/
theorem Goes.finished {n id : Id} {pass : Pass} {call : Call} (hid : s.calls.get? id = some call)
    (ho : call.owner ≠ .pass n) (hp : t.passes.get? n = some pass)
    (hc : t.calls = s.calls.erase id) : Goes ev s t n pass := by
  refine .stays hp fun {id' call'} hid' ho' => ?_
  rw [hc, Table.get?_erase_of_ne, hid']
  rintro rfl
  rw [hid, Option.some_inj] at hid'
  exact ho (hid' ▸ ho')

/-- What is left of a pass when one is dropped. -/
theorem Goes.drop (callers : Table Id Waiting) (new : List Note) {n m : Id} {pass : Pass}
    (hp : s.passes.get? n = some pass)
    (hgone : n = m → (∃ c, pass.driver = .caller c ∧ .cancelled c ∈ new)
      ∨ ev.abandons = true ∧ ∃ w, pass.driver = .worker w) :
    Goes ev s ({ s with callers := callers, journal := new ++ s.journal }.dropPass m) n pass := by
  rw [State.dropPass_eq]
  by_cases hne : n = m
  · have hnone : (s.passes.erase m).get? n = none := by
      rw [hne, Table.get?_erase_self]
    rcases hgone hne with ⟨c, hd, hc⟩ | ⟨hev, w, hd⟩
    · exact .cancelled hd hnone (List.mem_append_right _ (List.mem_append_left _ hc))
    · exact .abandoned hd hnone hev
  · refine .stays ((Table.get?_erase_of_ne hne).trans hp) fun hid ho => ?_
    refine Table.get?_filter_eq_some_iff.mpr ⟨hid, decide_eq_true ?_⟩
    rw [ho]
    rintro ⟨⟩
    exact hne rfl

/-- **A move leaves a pass as it is, or brings it closer to its end.** -/
theorem Move.goes (h : Books s) (m : Move ev s t) {n : Id} {pass : Pass}
    (hp : s.passes.get? n = some pass) : Goes ev s t n pass := by
  have hopen : ∀ pass', (s.passes.put s.next pass').get? n = some pass :=
    fun _ => (Table.get?_put_of_ne (Nat.ne_of_lt (h.orderly.passes hp))).trans hp
  have hsame : ∀ {id call}, s.calls.get? id = some call → call.owner = .pass n →
      s.calls.get? id = some call := fun hid _ => hid
  cases m with
  | quiet hq => exact .stays (hq.passes ▸ hp) fun hid _ => hq.calls ▸ hid
  | own ha hm ho he hev => exact .stays hp fun hid _ => h.orderly.get?_begun hid _
  | fetch hev ha hf he => exact .stays hp fun hid _ => h.orderly.get?_begun hid _
  | fetchEnds hc ho ha he =>
    rw [State.settleFetch_eq]
    exact .finished hc (by simp [ho]) hp rfl
  | updateEnds hc ho he =>
    rw [State.settleUpdate_eq]
    exact .finished hc (by simp [ho]) hp rfl
  | directEnds hc ho he => exact .finished hc (by simp [ho]) hp rfl
  | @landing id m call ending r hc ho he =>
    obtain ⟨pass', hm, hf⟩ := h.passes.flights hc ho
    have hland : ((s.endCall id call.principal ending).land m ⟨call.principal, id, r⟩).passes
        = s.passes.put m (pass'.land ⟨call.principal, id, r⟩) := by
      rw [State.land_eq (s := s.endCall id call.principal ending) hm]
      rfl
    by_cases hne : n = m
    · subst hne
      rw [hp, Option.some_inj] at hm
      subst hm
      exact .lands hc ho he hf (by rw [hland, Table.get?_put_self])
    · refine .finished hc (fun e => hne ?_) (by rw [hland, Table.get?_put_of_ne hne, hp]) rfl
      rw [ho] at e
      injection e with e
      exact e.symm
  | openFor ha hs hk => exact .stays (hopen _) hsame
  | openBy hw hs hk => exact .stays (hopen _) hsame
  | @launch m p pass' hev hm hq hf =>
    by_cases hne : n = m
    · subst hne
      rw [hp, Option.some_inj] at hm
      subst hm
      exact .launches hev hq Table.get?_put_self hf
    · exact .stays ((Table.get?_put_of_ne hne).trans hp) fun hid _ => h.orderly.get?_begun hid _
  | @look m pass' l hev hm hh hl hc =>
    rw [State.digest_eq]
    by_cases hne : n = m
    · subst hne
      rw [hp, Option.some_inj] at hm
      subst hm
      exact .looks hh hl Table.get?_put_self hev
    · exact .stays ((Table.get?_put_of_ne hne).trans hp) hsame
  | @close m pass' l hev hm hh hl hc =>
    rw [State.digest_eq]
    by_cases hne : n = m
    · subst hne
      rw [hp, Option.some_inj] at hm
      subst hm
      refine .closes hh hl ?_ (fun c hd => ?_) hev ?_
      · rw [State.passes_reportPass]
        exact Table.get?_erase_self
      · rw [hd]
        exact List.mem_cons_self
      · cases pass.driver with
        | caller c => exact List.mem_cons_of_mem _ List.mem_cons_self
        | worker w => exact List.mem_cons_self
    · refine .stays ?_ fun hid _ => ?_
      · rw [State.passes_reportPass]
        exact (Table.get?_erase_of_ne hne).trans hp
      · rw [State.calls_reportPass]
        exact hid
  | leaveCall hev hc =>
    obtain ⟨-, call, hid, ho⟩ := h.callers.waiters hc
    rw [State.dropCall_eq (s := s.leave _) hid]
    refine .finished hid (fun e => ?_) hp rfl
    rw [e] at ho
    cases ho
  | @leavePass c m hev hc =>
    refine Goes.drop (s.callers.erase c) [.cancelled c] hp fun hne => ?_
    subst hne
    exact Or.inl ⟨c, h.passes.driver_of_waiter hp hc, List.mem_singleton.mpr rfl⟩
  | @abandon m hd hev =>
    exact Goes.drop s.callers [] hp fun hne => Or.inr ⟨hev, hd pass (hne ▸ hp)⟩
  | _ => exact .stays hp hsame

/-- A pass is run for the same as before. -/
theorem Goes.driver {n : Id} {pass pass' : Pass} (h : Goes ev s t n pass)
    (hp' : t.passes.get? n = some pass') : pass'.driver = pass.driver := by
  cases h with
  | stays hp =>
    rw [hp', Option.some_inj] at hp
    rw [hp]
  | launches hev hq hp | lands hc ho he hf hp | looks hh hl hp =>
    rw [hp', Option.some_inj] at hp
    rw [hp]
    rfl
  | closes hh hl hp | cancelled hd hp | abandoned hd hp =>
    rw [hp'] at hp
    cases hp

/-- How much is left of a pass: what waits has waited before, and what has landed had been flying.
-/
structure Pass.Shrinks (s : State) (n : Id) (pass pass' : Pass) : Prop where
  waits : pass'.queue ++ pass'.flying ⊆ pass.queue ++ pass.flying
  landed : ∀ l ∈ pass'.landed, l ∈ pass.landed ∨ l.principal ∈ pass.flying
    ∧ ∃ call, s.calls.get? l.call = some call ∧ call.owner = .pass n

/-- A pass takes on nothing new. -/
theorem Goes.shrinks {n : Id} {pass pass' : Pass} (h : Goes ev s t n pass)
    (hp' : t.passes.get? n = some pass') : pass.Shrinks s n pass' := by
  cases h with
  | stays hp =>
    rw [hp', Option.some_inj] at hp
    rw [hp]
    exact ⟨List.Subset.refl _, fun l => Or.inl⟩
  | @launches p hev hq hp =>
    rw [hp', Option.some_inj] at hp
    rw [hp]
    refine ⟨fun q hq' => ?_, fun l => Or.inl⟩
    rcases List.mem_append.mp hq' with hq' | hq'
    · exact List.mem_append_left _ (List.mem_of_mem_erase hq')
    · rcases List.mem_append.mp hq' with hq' | hq'
      · exact List.mem_append_right _ hq'
      · rw [List.mem_singleton.mp hq']
        exact List.mem_append_left _ hq
  | lands hc ho he hf hp =>
    rw [hp', Option.some_inj] at hp
    rw [hp]
    refine ⟨fun q hq => ?_, fun l hl => ?_⟩
    · rcases List.mem_append.mp hq with hq | hq
      · exact List.mem_append_left _ hq
      · exact List.mem_append_right _ (List.mem_of_mem_erase hq)
    rcases List.mem_append.mp hl with hl | hl
    · exact Or.inl hl
    · rw [List.mem_singleton.mp hl]
      exact Or.inr ⟨hf, _, hc, ho⟩
  | looks hh hl hp =>
    rw [hp', Option.some_inj] at hp
    rw [hp]
    exact ⟨List.Subset.refl _, fun l' hl' => Or.inl (List.mem_of_mem_erase hl')⟩
  | closes hh hl hp | cancelled hd hp | abandoned hd hp =>
    rw [hp'] at hp
    cases hp

/-! ### Where passes and calls come from

A pass that is there is the one that was there, or a new one with the number that was drawn last;
and likewise with calls.  So whatever has a number from before was there before. -/

/-- **A pass that is there was there before, or has been opened over what was cached.** -/
theorem Move.known (m : Move ev s t) {n : Id} {pass : Pass} (hp : t.passes.get? n = some pass) :
    (∃ pass', s.passes.get? n = some pass')
      ∨ n = s.next ∧ ∃ d, pass = ⟨d, s.cache.keys, [], [], {}⟩ := by
  have hput : ∀ {k : Id} {pass' : Pass}, (s.passes.put k pass').get? n = some pass →
      (∃ pass', s.passes.get? k = some pass') → ∃ pass', s.passes.get? n = some pass' := by
    intro k pass' hn hk
    rcases Table.get?_put_eq_some_iff.mp hn with ⟨rfl, -⟩ | ⟨-, hn⟩
    · exact hk
    · exact ⟨pass, hn⟩
  have hopen : ∀ {d : Driver},
      (s.passes.put s.next ⟨d, s.cache.keys, [], [], {}⟩).get? n = some pass →
      (∃ pass', s.passes.get? n = some pass')
        ∨ n = s.next ∧ ∃ d, pass = ⟨d, s.cache.keys, [], [], {}⟩ := by
    intro d hn
    rcases Table.get?_put_eq_some_iff.mp hn with ⟨he, rfl⟩ | ⟨-, hn⟩
    · exact Or.inr ⟨he, d, rfl⟩
    · exact Or.inl ⟨pass, hn⟩
  have herase : ∀ {k : Id}, (s.passes.erase k).get? n = some pass →
      ∃ pass', s.passes.get? n = some pass' :=
    fun hn => ⟨pass, (Table.get?_erase_eq_some_iff.mp hn).2⟩
  cases m with
  | quiet hq => exact Or.inl ⟨pass, hq.passes ▸ hp⟩
  | fetchEnds =>
    rw [State.settleFetch_eq] at hp
    exact Or.inl ⟨pass, hp⟩
  | updateEnds =>
    rw [State.settleUpdate_eq] at hp
    exact Or.inl ⟨pass, hp⟩
  | @landing id k call ending r hc ho he =>
    rw [State.land] at hp
    rcases hk : s.passes.get? k with _ | pass'
    · have hk' : (s.endCall id call.principal ending).passes.get? k = none := hk
      simp only [Table.update, hk'] at hp
      exact Or.inl ⟨pass, hp⟩
    · have hk' : (s.endCall id call.principal ending).passes.get? k = some pass' := hk
      simp only [Table.update, hk'] at hp
      exact Or.inl (hput hp ⟨pass', hk⟩)
  | openFor => exact hopen hp
  | openBy => exact hopen hp
  | launch hev hk => exact Or.inl (hput hp ⟨_, hk⟩)
  | look hev hk =>
    rw [State.digest_eq] at hp
    exact Or.inl (hput hp ⟨_, hk⟩)
  | close =>
    rw [State.digest_eq, State.passes_reportPass] at hp
    exact Or.inl (herase hp)
  | @leaveCall c id =>
    rw [State.dropCall] at hp
    split at hp <;> exact Or.inl ⟨pass, hp⟩
  | leavePass =>
    rw [State.dropPass_eq] at hp
    exact Or.inl (herase hp)
  | abandon =>
    rw [State.dropPass_eq] at hp
    exact Or.inl (herase hp)
  | _ => exact Or.inl ⟨pass, hp⟩

/-- The call begins now, and may take as long as the settings say. -/
structure Timed (s : State) (call : Call) : Prop where
  begun : call.begun = s.now
  deadline : call.deadline = s.now + s.settings.backendTimeout.ceilMillis

/-- **A call that is under way was so before, or the event has had it begun.** -/
theorem Move.begun (m : Move ev s t) {id : Id} {call : Call} (hid : t.calls.get? id = some call) :
    s.calls.get? id = some call
      ∨ id = s.next ∧ Begins ev call.principal call.owner ∧ Timed s call := by
  have hput : ∀ {p : Principal} {q : Question} {o : Owner}, Begins ev p o →
      (s.calls.put s.next
        ⟨p, q, o, s.now, s.now + s.settings.backendTimeout.ceilMillis⟩).get? id = some call →
        s.calls.get? id = some call
          ∨ id = s.next ∧ Begins ev call.principal call.owner ∧ Timed s call := by
    intro p q o hb hid
    rcases Table.get?_put_eq_some_iff.mp hid with ⟨he, rfl⟩ | ⟨-, hid⟩
    · exact Or.inr ⟨he, hb, rfl, rfl⟩
    · exact Or.inl hid
  have herase : ∀ {k : Id}, (s.calls.erase k).get? id = some call → s.calls.get? id = some call :=
    fun hid => (Table.get?_erase_eq_some_iff.mp hid).2
  cases m with
  | quiet hq => exact Or.inl (hq.calls ▸ hid)
  | own ha hm ho he hev => exact hput hev hid
  | @fetch c e p a hev =>
    subst hev
    exact hput (.fetch e p a) hid
  | fetchEnds =>
    rw [State.settleFetch_eq] at hid
    exact Or.inl (herase hid)
  | updateEnds =>
    rw [State.settleUpdate_eq] at hid
    exact Or.inl (herase hid)
  | directEnds => exact Or.inl (herase hid)
  | landing => exact Or.inl (herase hid)
  | @launch n p pass hev =>
    subst hev
    exact hput (.launch n p) hid
  | look =>
    rw [State.digest_eq] at hid
    exact Or.inl hid
  | close =>
    rw [State.digest_eq, State.calls_reportPass] at hid
    exact Or.inl hid
  | leaveCall =>
    rw [State.dropCall] at hid
    split at hid
    · exact Or.inl (herase hid)
    · exact Or.inl hid
  | leavePass =>
    rw [State.dropPass_eq] at hid
    exact Or.inl (Table.get?_filter_eq_some_iff.mp hid).1
  | abandon =>
    rw [State.dropPass_eq] at hid
    exact Or.inl (Table.get?_filter_eq_some_iff.mp hid).1
  | _ => exact Or.inl hid

/-! ## What moves make of a worker

Two things are for good: a worker is never removed, and a request to stop is never taken back.
So a pass whose worker has been asked to stop stays halted. -/

/-- A worker stays, and stays asked to stop. -/
theorem Move.worker (m : Move ev s t) {w : Id} {k : Worker} (hw : s.workers.get? w = some k) :
    ∃ k', t.workers.get? w = some k' ∧ (k.stopping = true → k'.stopping = true) := by
  have hphase : ∀ {v : Id} {phase : Phase}, ∃ k',
      (s.workers.update v fun k => { k with phase }).get? w = some k'
        ∧ (k.stopping = true → k'.stopping = true) := by
    intro v phase
    rw [Table.update]
    split
    · rename_i j hj
      rw [Table.get?_put]
      split
      · rename_i he
        rw [he, hj, Option.some_inj] at hw
        exact ⟨_, rfl, hw ▸ id⟩
      · exact ⟨k, hw, id⟩
    · exact ⟨k, hw, id⟩
  cases m with
  | quiet hq => exact hq.workers.kept hw
  | fetchEnds =>
    rw [State.settleFetch_eq]
    exact ⟨k, hw, id⟩
  | updateEnds =>
    rw [State.settleUpdate_eq]
    exact ⟨k, hw, id⟩
  | openBy => exact hphase
  | look =>
    rw [State.digest_eq]
    exact ⟨k, hw, id⟩
  | @close n pass l =>
    rw [State.digest_eq]
    cases pass.driver with
    | caller c => exact ⟨k, hw, id⟩
    | worker v => exact hphase
  | leaveCall =>
    rw [State.dropCall]
    split <;> exact ⟨k, hw, id⟩
  | leavePass =>
    rw [State.dropPass_eq]
    exact ⟨k, hw, id⟩
  | abandon =>
    rw [State.dropPass_eq]
    exact ⟨k, hw, id⟩
  | _ => exact ⟨k, hw, id⟩

/-- A pass that has been stopped stays so. -/
theorem Move.halted (m : Move ev s t) {pass pass' : Pass} (hd : pass'.driver = pass.driver)
    (hh : s.halted pass = true) : t.halted pass' = true := by
  rw [State.halted] at hh ⊢
  rw [hd]
  cases hdr : pass.driver with
  | caller c => simp [hdr] at hh
  | worker w =>
    rw [hdr] at hh
    obtain ⟨k, hw, hk⟩ := (Option.any_eq_true ..).mp hh
    obtain ⟨k', hw', hk'⟩ := m.worker hw
    simp [hw', hk' hk]

end

/-! ## Turns of a pass

When it is the turn of a pass, it is known what the step does, and that is given as an equation. -/

/-- Of the results of a pass no two are about the same principal. -/
theorem Pass.find?_landed {pass : Pass} (h : pass.principals.Nodup) {l : Landing}
    (hl : l ∈ pass.landed) : pass.landed.find? (·.principal == l.principal) = some l := by
  have hn : (pass.landed.map Landing.principal).Nodup := (List.nodup_append.mp h).2.1
  have hsome : (pass.landed.find? (·.principal == l.principal)).isSome :=
    List.find?_isSome.mpr ⟨l, hl, beq_self_eq_true l.principal⟩
  obtain ⟨l', hl'⟩ := Option.isSome_iff_exists.mp hsome
  have hp : l'.principal = l.principal := by simpa using List.find?_some hl'
  rw [hl', List.inj_on_of_nodup_map hn (List.mem_of_find?_eq_some hl') hl hp]

namespace State

variable {s : State} {n : Id} {pass : Pass} {l : Landing}

/-- A list that a pass looks at is in the cache afterwards. -/
theorem source_collect (hp : s.passes.get? n = some pass) (hh : s.halted pass = false)
    (hn : pass.principals.Nodup) (hl : l ∈ pass.landed) {privileges : PrivilegeSet}
    (hr : l.reply = .value privileges) :
    source l.principal (s.collect n l.principal).journal
      = some (privileges, .call l.call (.pass n)) := by
  have hs : source l.principal (s.digest n l).journal
      = some (privileges, .call l.call (.pass n)) := by
    rw [digest, hr]
    exact if_pos rfl
  rw [collect_eq hp hh (Pass.find?_landed hn hl)]
  split
  · cases pass.driver <;> exact hs
  · exact hs

end State

end Gatekeeper.Engine

import Gatekeeper.Proofs.Move

/-!
# Numbers

Callers, calls, passes and workers are numbered from one supply, which never gives a number twice.
`Orderly` says that every number in use, and every number in the journal, has been drawn; so whoever
draws the next number is new to the whole history (`Orderly.asking_enter`).  It also says that a
worker in the middle of a pass drives that pass, which is what makes it safe for a worker to drop
it.

Freshness is what all books rely on.  A new caller, call or pass cannot be confused with an old
one, and no note of the journal is about it.  Here this is one invariant about five tables and
the journal, kept by each part of a move.
-/

set_option autoImplicit false

namespace Gatekeeper.Engine

/-- A new engine. -/
def State.initial (settings : Settings) (checks : Bool) : State := { settings, checks }

/-- Every number in use has been drawn, and the pass of a worker is its own. -/
structure Orderly (s : State) : Prop where
  callers : ∀ {c w}, s.callers.get? c = some w → c < s.next
  calls : ∀ {id call}, s.calls.get? id = some call → id < s.next
  owners : ∀ {id call c}, s.calls.get? id = some call → call.owner.caller? = some c → c < s.next
  passes : ∀ {n pass}, s.passes.get? n = some pass → n < s.next
  drivers : ∀ {n pass c}, s.passes.get? n = some pass → pass.driver = .caller c → c < s.next
  landed : ∀ {n pass}, s.passes.get? n = some pass → ∀ l ∈ pass.landed, l.call < s.next
  workers : ∀ {w k}, s.workers.get? w = some k → w < s.next
  notes : ∀ n ∈ s.journal, ∀ i ∈ n.ids, i < s.next
  phases : ∀ {w k n}, s.workers.get? w = some k → k.phase = .refreshing n →
    n < s.next ∧ ∀ pass, s.passes.get? n = some pass → pass.driver = .worker w

namespace Orderly

variable {s t : State}

/-- What has to be looked at after a change: only what is new, and what has become of the passes of
workers. -/
theorem grow (h : Orderly s) (hn : s.next ≤ t.next)
    (callers : ∀ {c w}, t.callers.get? c = some w → s.callers.get? c = some w ∨ c < t.next)
    (calls : ∀ {id call}, t.calls.get? id = some call → s.calls.get? id = some call
      ∨ (id < t.next ∧ ∀ c, call.owner.caller? = some c → c < t.next))
    (passes : ∀ {n pass}, t.passes.get? n = some pass →
      (∃ pass', s.passes.get? n = some pass' ∧ pass.driver = pass'.driver
        ∧ ∀ l ∈ pass.landed, l ∈ pass'.landed ∨ l.call < t.next)
      ∨ (s.next ≤ n ∧ n < t.next ∧ pass.landed = [] ∧ ∀ c, pass.driver = .caller c → c < t.next))
    (workers : ∀ {w k}, t.workers.get? w = some k → w < t.next)
    (notes : ∀ n ∈ t.journal, n ∈ s.journal ∨ ∀ i ∈ n.ids, i < t.next)
    (phases : ∀ {w k n}, t.workers.get? w = some k → k.phase = .refreshing n →
      (∃ k', s.workers.get? w = some k' ∧ k'.phase = .refreshing n)
        ∨ (n < t.next ∧ ∀ pass, t.passes.get? n = some pass → pass.driver = .worker w)) :
    Orderly t where
  callers hc := (callers hc).elim (fun h' => Nat.lt_of_lt_of_le (h.callers h') hn) id
  calls hc := (calls hc).elim (fun h' => Nat.lt_of_lt_of_le (h.calls h') hn) And.left
  owners hc ho :=
    (calls hc).elim (fun h' => Nat.lt_of_lt_of_le (h.owners h' ho) hn) fun h' => h'.2 _ ho
  passes hp :=
    (passes hp).elim (fun ⟨_, h', _⟩ => Nat.lt_of_lt_of_le (h.passes h') hn) fun h' => h'.2.1
  drivers hp hd := by
    rcases passes hp with ⟨pass', hp', he, -⟩ | ⟨-, -, -, hc⟩
    · exact Nat.lt_of_lt_of_le (h.drivers hp' (he ▸ hd)) hn
    · exact hc _ hd
  landed hp l hl := by
    rcases passes hp with ⟨pass', hp', -, hk⟩ | ⟨-, -, he, -⟩
    · exact (hk l hl).elim (fun hl' => Nat.lt_of_lt_of_le (h.landed hp' l hl') hn) id
    · rw [he] at hl
      exact absurd hl List.not_mem_nil
  workers := workers
  notes n hm := (notes n hm).elim (fun h' i hi => Nat.lt_of_lt_of_le (h.notes n h' i hi) hn) id
  phases {w k n} hw hk := by
    rcases phases hw hk with ⟨k', hw', hk'⟩ | hnew
    · obtain ⟨hlt, hd⟩ := h.phases hw' hk'
      refine ⟨Nat.lt_of_lt_of_le hlt hn, fun pass hp => ?_⟩
      rcases passes hp with ⟨pass', hp', he, -⟩ | ⟨hle, -⟩
      · rw [he]
        exact hd pass' hp'
      · exact absurd hlt (Nat.not_lt.mpr hle)
    · exact hnew

/-- A change that leaves passes and workers alone. -/
theorem grow' (h : Orderly s) (hn : s.next ≤ t.next)
    (callers : ∀ {c w}, t.callers.get? c = some w → s.callers.get? c = some w ∨ c < t.next)
    (calls : ∀ {id call}, t.calls.get? id = some call → s.calls.get? id = some call
      ∨ (id < t.next ∧ ∀ c, call.owner.caller? = some c → c < t.next))
    (passes : t.passes = s.passes) (workers : t.workers = s.workers)
    (notes : ∀ n ∈ t.journal, n ∈ s.journal ∨ ∀ i ∈ n.ids, i < t.next) : Orderly t :=
  h.grow hn callers calls (fun hp => Or.inl ⟨_, passes ▸ hp, rfl, fun _ => Or.inl⟩)
    (fun hw => Nat.lt_of_lt_of_le (h.workers (workers ▸ hw)) hn) notes
    fun hw hk => Or.inl ⟨_, workers ▸ hw, hk⟩

theorem initial (settings : Settings) (checks : Bool) : Orderly (.initial settings checks) where
  callers h := by cases h
  calls h := by cases h
  owners h := by cases h
  passes h := by cases h
  drivers h := by cases h
  landed h := by cases h
  workers h := by cases h
  notes n h := absurd h List.not_mem_nil
  phases h := by cases h

/-! ## New callers

Whoever asks gets the next number, of which neither the tables nor the journal say anything yet. -/

/-- Nothing is known yet of the number that is drawn next. -/
theorem get?_callers_next (h : Orderly s) : s.callers.get? s.next = none := by
  rw [Option.eq_none_iff_forall_ne_some]
  intro w hw
  exact Nat.lt_irrefl _ (h.callers hw)

/-- Nothing has happened yet to the caller that asks next. -/
theorem silent_next (h : Orderly s) {n : Note} (hc : n.caller? = some s.next) : n ∉ s.journal :=
  fun hn => Nat.lt_irrefl _ (h.notes n hn _ (Note.mem_ids_of_caller? hc))

theorem asking_enter (h : Orderly s) (r : Request) : Asking (s.enter r) s.next r where
  called := List.mem_cons_self
  idle := h.get?_callers_next
  silent n hn hc := by
    rcases List.mem_cons.mp hn with rfl | hn
    · rfl
    · exact absurd hn (h.silent_next hc)

theorem lt_of_asking (h : Orderly s) {c : Id} {r : Request} (ha : Asking s c r) : c < s.next :=
  h.notes _ ha.called c List.mem_cons_self

/-! ## The parts of moves

A change has to be looked at in two respects: whether all numbers that it brings in have been
drawn, and whether a worker in the middle of a pass still drives it.  The tables are therefore
treated one by one, and what a part does to several tables is put together from that. -/

theorem note (h : Orderly s) {n : Note} (hi : ∀ i ∈ n.ids, i < s.next) : Orderly (s.note n) :=
  h.grow' (Nat.le_refl _) Or.inl Or.inl rfl rfl fun _ hm =>
    (List.mem_cons.mp hm).elim (fun e => Or.inr (e ▸ hi)) Or.inl

/-- A change of the cache alone. -/
theorem recache (h : Orderly s) (t : Table Principal PrivilegeSet) :
    Orderly { s with cache := t } :=
  h.grow' (Nat.le_refl _) Or.inl Or.inl rfl rfl fun _ hm => Or.inl hm

/-- A change of the fetches alone. -/
theorem refetch (h : Orderly s) (t : Table Principal Fetch) : Orderly { s with fetches := t } :=
  h.grow' (Nat.le_refl _) Or.inl Or.inl rfl rfl fun _ hm => Or.inl hm

theorem enter (h : Orderly s) (r : Request) : Orderly (s.enter r) := by
  refine h.grow' (Nat.le_succ _) Or.inl Or.inl rfl rfl fun m hm => ?_
  rcases List.mem_cons.mp hm with rfl | hm
  · refine Or.inr fun i hi => ?_
    rw [List.mem_singleton.mp hi]
    exact Nat.lt_succ_self _
  · exact Or.inl hm

theorem wait (h : Orderly s) {c : Id} (hc : c < s.next) (w : Waiting) : Orderly (s.wait c w) := by
  refine h.grow' (Nat.le_refl _) (fun h' => ?_) Or.inl rfl rfl fun _ => Or.inl
  rcases Table.get?_put_eq_some_iff.mp h' with ⟨rfl, -⟩ | ⟨-, h'⟩
  · exact Or.inr hc
  · exact Or.inl h'

/-- A caller goes. -/
theorem excuse (h : Orderly s) (c : Id) : Orderly { s with callers := s.callers.erase c } :=
  h.grow' (Nat.le_refl _) (fun h' => Or.inl (Table.get?_erase_eq_some_iff.mp h').2) Or.inl rfl rfl
    fun _ => Or.inl

theorem leave (h : Orderly s) {c : Id} (hc : c < s.next) : Orderly (s.leave c) :=
  (h.excuse c).note fun i hi => by rwa [List.mem_singleton.mp hi]

theorem finish (h : Orderly s) {c : Id} (hc : c < s.next) (o : Outcome) : Orderly (s.finish c o) :=
  (h.excuse c).note fun i hi => by rwa [List.mem_singleton.mp hi]

theorem startCall (h : Orderly s) (p : Principal) (q : Question) {o : Owner}
    (ho : ∀ c, o.caller? = some c → c < s.next) : Orderly (s.startCall p q o) := by
  refine h.grow' (Nat.le_succ _) Or.inl (fun h' => ?_) rfl rfl fun m hm => ?_
  · rcases Table.get?_put_eq_some_iff.mp h' with ⟨rfl, rfl⟩ | ⟨-, h'⟩
    · exact Or.inr ⟨Nat.lt_succ_self _, fun c hc => Nat.lt_succ_of_lt (ho c hc)⟩
    · exact Or.inl h'
  · rcases List.mem_cons.mp hm with rfl | hm
    · refine Or.inr fun i hi => ?_
      rw [List.mem_singleton.mp hi]
      exact Nat.lt_succ_self _
    · exact Or.inl hm

/-- Calls go. -/
theorem hangUp (h : Orderly s) (f : Id → Call → Bool) :
    Orderly { s with calls := s.calls.filter f } :=
  h.grow' (Nat.le_refl _) Or.inl (fun h' => Or.inl (Table.get?_filter_eq_some_iff.mp h').1) rfl rfl
    fun _ => Or.inl

theorem endCall (h : Orderly s) {id : Id} (hid : id < s.next) (p : Principal) (ending : Ending) :
    Orderly (s.endCall id p ending) :=
  (h.hangUp _).note fun i hi => by rwa [List.mem_singleton.mp hi]

theorem store (h : Orderly s) (p : Principal) (privileges : PrivilegeSet) {o : Origin}
    (ho : ∀ id owner, o = .call id owner → id < s.next) : Orderly (s.store p privileges o) := by
  refine (h.recache _).note fun i hi => ?_
  cases o with
  | call id owner =>
    rw [List.mem_singleton.mp hi]
    exact ho id owner rfl
  | hand => simp [Note.ids] at hi

/-- A pass goes. -/
theorem forget (h : Orderly s) (n : Id) : Orderly { s with passes := s.passes.erase n } :=
  h.grow (Nat.le_refl _) Or.inl Or.inl
    (fun h' => Or.inl ⟨_, (Table.get?_erase_eq_some_iff.mp h').2, rfl, fun _ => Or.inl⟩) h.workers
    (fun _ => Or.inl) fun hw hk => Or.inl ⟨_, hw, hk⟩

/-- A pass goes on. -/
theorem proceed (h : Orderly s) (pass' : Pass) {n : Id} {pass : Pass}
    (hp : s.passes.get? n = some pass) (hd : pass'.driver = pass.driver)
    (hl : ∀ l ∈ pass'.landed, l ∈ pass.landed ∨ l.call < s.next) :
    Orderly { s with passes := s.passes.put n pass' } := by
  refine h.grow (Nat.le_refl _) Or.inl Or.inl (fun h' => Or.inl ?_) h.workers (fun _ => Or.inl)
    fun hw hk => Or.inl ⟨_, hw, hk⟩
  rcases Table.get?_put_eq_some_iff.mp h' with ⟨rfl, rfl⟩ | ⟨-, h'⟩
  · exact ⟨pass, hp, hd, hl⟩
  · exact ⟨_, h', rfl, fun _ => Or.inl⟩

theorem openPass (h : Orderly s) {d : Driver} (hd : ∀ c, d = .caller c → c < s.next) :
    Orderly (s.openPass d) := by
  refine h.grow (Nat.le_succ _) Or.inl Or.inl (fun h' => ?_)
    (fun hw => Nat.lt_succ_of_lt (h.workers hw)) (fun m hm => ?_) fun hw hk => Or.inl ⟨_, hw, hk⟩
  · rcases Table.get?_put_eq_some_iff.mp h' with ⟨rfl, rfl⟩ | ⟨-, h'⟩
    · exact Or.inr ⟨Nat.le_refl _, Nat.lt_succ_self _, rfl, fun c hc => Nat.lt_succ_of_lt (hd c hc)⟩
    · exact Or.inl ⟨_, h', rfl, fun _ => Or.inl⟩
  · rcases List.mem_cons.mp hm with rfl | hm
    · refine Or.inr fun i hi => ?_
      rw [List.mem_singleton.mp hi]
      exact Nat.lt_succ_self _
    · exact Or.inl hm

theorem setPhase (h : Orderly s) (w : Id) {phase : Phase}
    (hp : ∀ n, phase = .refreshing n →
      n < s.next ∧ ∀ pass, s.passes.get? n = some pass → pass.driver = .worker w) :
    Orderly (s.setPhase w phase) := by
  have hget : ∀ {v k}, (s.setPhase w phase).workers.get? v = some k →
      (v = w ∧ (∃ k', s.workers.get? v = some k') ∧ k.phase = phase)
        ∨ (v ≠ w ∧ s.workers.get? v = some k) := by
    intro v k hk
    rw [State.setPhase, Table.get?_update] at hk
    split at hk
    · rename_i hv
      obtain ⟨k', hk', rfl⟩ := Option.map_eq_some_iff.mp hk
      exact Or.inl ⟨hv, ⟨k', hv ▸ hk'⟩, rfl⟩
    · rename_i hv
      exact Or.inr ⟨hv, hk⟩
  refine h.grow (Nat.le_refl _) Or.inl Or.inl (fun h' => Or.inl ⟨_, h', rfl, fun _ => Or.inl⟩)
    (fun hw => ?_)
    (fun _ => Or.inl) fun hw hk => ?_
  · rcases hget hw with ⟨-, ⟨k', hk'⟩, -⟩ | ⟨-, hk'⟩
    · exact h.workers hk'
    · exact h.workers hk'
  · rcases hget hw with ⟨rfl, -, he⟩ | ⟨-, hw'⟩
    · exact Or.inr (hp _ (he ▸ hk))
    · exact Or.inl ⟨_, hw', hk⟩

theorem quiet (h : Orderly s) (hq : Quiet s t) : Orderly t := by
  refine h.grow hq.next (fun hc => Or.inl (hq.callers ▸ hc)) (fun hc => Or.inl (hq.calls ▸ hc))
    (fun hp => Or.inl ⟨_, hq.passes ▸ hp, rfl, fun _ => Or.inl⟩) hq.workers.known (fun n hn => ?_)
    fun hw hk => Or.inl (hq.workers.refreshing hw hk)
  obtain ⟨new, he, hnew⟩ := hq.journal
  rw [he] at hn
  exact (List.mem_append.mp hn).elim (fun hn => Or.inr (hnew n hn).2) Or.inl

theorem settleFetch (h : Orderly s) {id : Id} (hid : id < s.next) (p : Principal)
    (r : Reply PrivilegeSet) : Orderly (s.settleFetch id p r) := by
  rw [State.settleFetch_eq]
  refine h.grow' (Nat.le_refl _) (fun h' => Or.inl (Table.get?_filter_eq_some_iff.mp h').1) Or.inl
    rfl rfl fun n hn => ?_
  rcases List.mem_append.mp hn with hn | hn
  · obtain ⟨⟨c, e, a⟩, hx, rfl⟩ := List.mem_map.mp (List.mem_reverse.mp hn)
    refine Or.inr fun i hi => ?_
    rw [List.mem_singleton.mp hi]
    exact h.callers (State.mem_fetchWaiters_iff.mp hx)
  · rcases List.mem_append.mp hn with hn | hn
    · obtain ⟨privileges, -, rfl⟩ := Reply.mem_notes_iff.mp hn
      exact Or.inr fun i hi => by rwa [List.mem_singleton.mp hi]
    · exact Or.inl hn

theorem settleUpdate (h : Orderly s) {id c : Id} (hid : id < s.next) (hc : c < s.next)
    (p : Principal) (r : Reply PrivilegeSet) : Orderly (s.settleUpdate id c p r) := by
  cases r with
  | value privileges =>
    exact (h.store p privileges fun i _ e => by injection e with e; exact e ▸ hid).finish hc _
  | failed cause => exact h.finish hc _
  | crashed => exact h.finish hc _

theorem land (h : Orderly s) (n : Id) {l : Landing} (hl : l.call < s.next) :
    Orderly (s.land n l) := by
  rw [State.land, Table.update]
  cases hp : s.passes.get? n with
  | some pass =>
    refine h.proceed _ hp rfl fun l' hl' => ?_
    rcases List.mem_append.mp hl' with hl' | hl'
    · exact Or.inl hl'
    · rw [List.mem_singleton.mp hl']
      exact Or.inr hl
  | none => exact h

theorem digest (h : Orderly s) (n : Id) {l : Landing} (hl : l.call < s.next) :
    Orderly (s.digest n l) := by
  rw [State.digest]
  split
  · exact h.store _ _ fun i _ e => by injection e with e; exact e ▸ hl
  · exact h.note fun i hi => absurd hi List.not_mem_nil
  · exact h.note fun i hi => absurd hi List.not_mem_nil

theorem dropPass (h : Orderly s) (n : Id) : Orderly (s.dropPass n) := by
  rw [State.dropPass_eq]
  refine (h.forget n).grow' (Nat.le_refl _) Or.inl
    (fun h' => Or.inl (Table.get?_filter_eq_some_iff.mp h').1) rfl rfl fun m hm => ?_
  rcases List.mem_append.mp hm with hm | hm
  · obtain ⟨id, hid, rfl⟩ := List.mem_map.mp (List.mem_reverse.mp hm)
    obtain ⟨call, hc, -⟩ := State.mem_passCalls_iff.mp hid
    refine Or.inr fun i hi => ?_
    rw [List.mem_singleton.mp hi]
    exact h.calls hc
  · exact Or.inl hm

theorem dropCall (h : Orderly s) (id : Id) : Orderly (s.dropCall id) := by
  rw [State.dropCall]
  split
  · rename_i call hc
    exact (h.hangUp _).note fun i hi => by rw [List.mem_singleton.mp hi]; exact h.calls hc
  · exact h

theorem reportPass (h : Orderly s) {d : Driver} (hd : ∀ c, d = .caller c → c < s.next)
    (r : Report) : Orderly (s.reportPass d r) := by
  cases d with
  | caller c => exact h.finish (hd c rfl) _
  | worker w => exact h.setPhase w fun n e => absurd e (by simp)

end Orderly

/-! ## Moves

Every move is made up of these parts. -/

/-- **Every move draws its numbers from the supply.** -/
theorem Move.orderly {ev : Event} {s t : State} (h : Orderly s) (m : Move ev s t) : Orderly t := by
  cases m with
  | quiet hq => exact h.quiet hq
  | enter r => exact h.enter r
  | reply ha ho => exact h.finish (h.lt_of_asking ha) _
  | release hc => exact h.finish (h.callers hc) _
  | await ha hw => exact h.wait (h.lt_of_asking ha) _
  | own ha hm ho he =>
    have hc := h.lt_of_asking ha
    refine ((h.wait hc _).note fun i hi => ?_).startCall _ _ fun c hco => ?_
    · rwa [List.mem_singleton.mp hi]
    · cases hm with
      | fetch => exact absurd rfl ho
      | list | check | update => exact Option.some_inj.mp hco ▸ hc
  | join hev ha hf =>
    have hc := h.lt_of_asking ha
    exact (h.wait hc _).note fun i hi => by rwa [List.mem_singleton.mp hi]
  | @fetch c e p a hev ha hf he =>
    have hc := h.lt_of_asking ha
    have ht := (h.wait hc (.fetch p e a)).startCall p .listing (o := .fetch) fun c hc => by cases hc
    refine (ht.refetch _).note fun i hi => ?_
    rw [List.mem_singleton.mp hi]
    exact Nat.lt_succ_of_lt hc
  | fetchEnds hc ho ha he => exact (h.endCall (h.calls hc) _ _).settleFetch (h.calls hc) _ _
  | updateEnds hc ho he =>
    have hu := h.owners hc (by rw [ho]; rfl)
    exact (h.endCall (h.calls hc) _ _).settleUpdate (h.calls hc) hu _ _
  | directEnds hc ho he =>
    have hu := h.owners hc (by rw [ho]; rfl)
    exact (h.endCall (h.calls hc) _ _).finish hu _
  | landing hc ho he => exact (h.endCall (h.calls hc) _ _).land _ (h.calls hc)
  | openFor ha hs hk =>
    have hc := h.lt_of_asking ha
    refine (h.openPass fun c' hc' => ?_).wait (Nat.lt_succ_of_lt hc) _
    injection hc' with hc'
    exact hc' ▸ hc
  | @openBy w k hw hs hk =>
    refine (h.openPass fun c' hc' => by cases hc').setPhase w fun n hn => ?_
    injection hn with hn
    subst hn
    refine ⟨Nat.lt_succ_self _, fun pass hp => ?_⟩
    rw [State.openPass, Table.get?_put_self, Option.some_inj] at hp
    rw [← hp]
  | launch hev hp hq hf =>
    exact (h.proceed (Pass.fly _ _) hp rfl fun _ => Or.inl).startCall _ _ fun c hc => by cases hc
  | @look n pass l hev hp hh hl hc =>
    have hd := h.digest n (h.landed hp l hl)
    have hp' : (s.digest n l).passes.get? n = some pass := by rwa [State.digest_eq]
    exact hd.proceed (pass.look l) hp' rfl fun l' hl' => Or.inl (List.mem_of_mem_erase hl')
  | @close n pass l hev hp hh hl hc =>
    have hd := (h.digest n (h.landed hp l hl)).forget n
    refine (hd.note fun i hi => absurd hi List.not_mem_nil).reportPass (fun c hc => ?_) _
    have hc := h.drivers hp hc
    rwa [State.digest_eq]
  | leave hev hc hw => exact h.leave (h.callers hc)
  | leaveCall hev hc => exact (h.leave (h.callers hc)).dropCall _
  | leavePass hev hc => exact (h.leave (h.callers hc)).dropPass _
  | abandon hd => exact h.dropPass _
  | write hev => exact h.store _ _ fun i o e => absurd e (by simp)
  | clear hev hn =>
    refine (h.recache _).note fun i hi => ?_
    rcases hn with rfl | ⟨k, rfl⟩
    · exact absurd hi List.not_mem_nil
    · exact absurd hi List.not_mem_nil

end Gatekeeper.Engine

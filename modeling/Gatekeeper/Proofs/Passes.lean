import Gatekeeper.Proofs.Callers

/-!
# The books of a pass

A pass takes every principal from its queue, through a call, to its report.  While the call is under
way the principal is counted as flying, and each call of a pass stands for one flying principal.

* `PassBooks` — what passes have to do with their calls, and with the callers that run them.
* `Move.passBooks` — the moves keep the books.
* `Books` — all the books of an engine, which `Books.run` says are in order after every run.

Principals of a pass are counted as a list without repetition: those in the queue, those that are
flying and those that have landed.  Each of the changes permutes this list or takes one principal
out of it (`Pass.principals_fly` and the lemmas beside it), so that most of what the books say is
preserved for that reason alone.  The books also tie passes to the other tables, and there the
argument is about owners and drivers: a call knows its pass, a pass knows its driver, and a
caller knows what it waits for.
-/

set_option autoImplicit false

namespace Gatekeeper.Engine

/-- Every principal that the pass still has to do with. -/
def Pass.principals (pass : Pass) : List Principal :=
  pass.queue ++ pass.flying ++ pass.landed.map Landing.principal

namespace Pass

theorem principals_fly (pass : Pass) {p : Principal} (hq : p ∈ pass.queue) :
    (pass.fly p).principals.Perm pass.principals := by
  refine List.Perm.append_right _ ?_
  show (pass.queue.erase p ++ (pass.flying ++ [p])).Perm (pass.queue ++ pass.flying)
  rw [← List.append_assoc]
  refine (List.perm_append_singleton _ _).trans ?_
  exact (List.perm_cons_erase hq).symm.append_right pass.flying

theorem principals_land (pass : Pass) {l : Landing} (hf : l.principal ∈ pass.flying) :
    (pass.land l).principals.Perm pass.principals := by
  have hlanded : ((pass.landed ++ [l]).map Landing.principal).Perm
      (l.principal :: pass.landed.map Landing.principal) := by
    rw [List.map_append]
    exact List.perm_append_singleton _ _
  have hflying :
      (pass.flying.erase l.principal ++ l.principal :: pass.landed.map Landing.principal).Perm
      (pass.flying ++ pass.landed.map Landing.principal) :=
    List.perm_middle.trans ((List.perm_cons_erase hf).symm.append_right _)
  rw [principals, principals, List.append_assoc, List.append_assoc]
  exact ((hlanded.append_left _).trans hflying).append_left pass.queue

theorem principals_look_perm (pass : Pass) {l : Landing} (hl : l ∈ pass.landed) :
    (l.principal :: (pass.look l).principals).Perm pass.principals := by
  have hlanded : (l.principal :: (pass.landed.erase l).map Landing.principal).Perm
      (pass.landed.map Landing.principal) :=
    ((List.perm_cons_erase hl).map Landing.principal).symm
  exact List.perm_middle.symm.trans (hlanded.append_left (pass.queue ++ pass.flying))

theorem principals_look (pass : Pass) (l : Landing) :
    (pass.look l).principals.Sublist pass.principals :=
  (List.erase_sublist.map Landing.principal).append_left (pass.queue ++ pass.flying)

end Pass

/-- What passes have to do with their calls and with the callers that run them. -/
structure PassBooks (s : State) : Prop where
  driven : ∀ {n pass c}, s.passes.get? n = some pass → pass.driver = .caller c →
    s.callers.get? c = some (.pass n)
  waiters : ∀ {c n}, s.callers.get? c = some (.pass n) →
    ∃ pass, s.passes.get? n = some pass ∧ pass.driver = .caller c
  active : ∀ {n pass}, s.passes.get? n = some pass → s.settings.cachingActive = true
  unfinished : ∀ {n pass}, s.passes.get? n = some pass → pass.complete = false
  started : ∀ {n pass}, s.passes.get? n = some pass → ∃ k, .passStarted n k ∈ s.journal
  nodup : ∀ {n pass}, s.passes.get? n = some pass → pass.principals.Nodup
  landed : ∀ {n pass}, s.passes.get? n = some pass → ∀ l ∈ pass.landed,
    .began l.call l.principal .listing (.pass n) ∈ s.journal
      ∧ ∀ privileges, l.reply = .value privileges →
        .ended l.call l.principal (.listed (.value privileges)) ∈ s.journal
  flying : ∀ {n pass}, s.passes.get? n = some pass → ∀ p ∈ pass.flying,
    ∃ id call, s.calls.get? id = some call ∧ call.owner = .pass n ∧ call.principal = p
  flights : ∀ {id call n}, s.calls.get? id = some call → call.owner = .pass n →
    ∃ pass, s.passes.get? n = some pass ∧ call.principal ∈ pass.flying
  apart : ∀ {id id' call call' n}, s.calls.get? id = some call → s.calls.get? id' = some call' →
    call.owner = .pass n → call'.owner = .pass n → call.principal = call'.principal → id = id'

namespace PassBooks

variable {s t : State}

theorem initial (settings : Settings) (checks : Bool) : PassBooks (.initial settings checks) where
  driven h := by cases h
  waiters h := by cases h
  active h := by cases h
  unfinished h := by cases h
  started h := by cases h
  nodup h := by cases h
  landed h := by cases h
  flying h := by cases h
  flights h := by cases h
  apart h := by cases h

/-! ## Reading the books

The books say that a pass and those who run it know of each other, and that a principal is flying
exactly if a call is under way for it. -/

/-- Whoever waits for a pass is the one who runs it. -/
theorem driver_of_waiter (h : PassBooks s) {n c : Id} {pass : Pass}
    (hp : s.passes.get? n = some pass) (hw : s.callers.get? c = some (.pass n)) :
    pass.driver = .caller c := by
  obtain ⟨pass', hp', hd⟩ := h.waiters hw
  rw [hp, Option.some_inj] at hp'
  rw [hp', hd]

/-- The principals that a pass makes calls for are flying. -/
theorem flying_of_owner (h : PassBooks s) {n id : Id} {pass : Pass} {call : Call}
    (hp : s.passes.get? n = some pass) (hid : s.calls.get? id = some call)
    (hown : call.owner = .pass n) : call.principal ∈ pass.flying := by
  obtain ⟨pass', hp', hf⟩ := h.flights hid hown
  rw [hp, Option.some_inj] at hp'
  rw [hp']
  exact hf

/-! ## Keeping the books

A pass can be opened, go on, or be forgotten, and while it goes on its principals move from the
queue into the air, then to what has landed, and out of the pass when they are looked at.  None
of these changes brings a principal in twice or loses one, since what the pass has to do with
before and after is the same up to order. -/

/-- A change in which passes, their calls and the callers that run them have no part. -/
theorem keep (h : PassBooks s) (hs : t.settings = s.settings) (hp : t.passes = s.passes)
    (hw : ∀ c n, t.callers.get? c = some (.pass n) ↔ s.callers.get? c = some (.pass n))
    (hc : ∀ id call n, call.owner = .pass n →
      (t.calls.get? id = some call ↔ s.calls.get? id = some call))
    (hsub : ∀ n ∈ s.journal, n ∈ t.journal) : PassBooks t where
  driven hn hd := (hw _ _).mpr (h.driven (hp ▸ hn) hd)
  waiters hn := by
    rw [hp]
    exact h.waiters ((hw _ _).mp hn)
  active hn := by
    rw [hs]
    exact h.active (hp ▸ hn)
  unfinished hn := h.unfinished (hp ▸ hn)
  started hn := by
    obtain ⟨k, hk⟩ := h.started (hp ▸ hn)
    exact ⟨k, hsub _ hk⟩
  nodup hn := h.nodup (hp ▸ hn)
  landed hn l hl := by
    obtain ⟨hb, he⟩ := h.landed (hp ▸ hn) l hl
    exact ⟨hsub _ hb, fun S hS => hsub _ (he S hS)⟩
  flying hn p hpf := by
    obtain ⟨id, call, hid, ho, he⟩ := h.flying (hp ▸ hn) p hpf
    exact ⟨id, call, (hc _ _ _ ho).mpr hid, ho, he⟩
  flights hid ho := by
    rw [hp]
    exact h.flights ((hc _ _ _ ho).mp hid) ho
  apart hid hid' ho ho' := h.apart ((hc _ _ _ ho).mp hid) ((hc _ _ _ ho').mp hid') ho ho'

/-! ### Passes begin, go on and end

A pass that goes on keeps its number and its driver, and its principals are a part of those it
had.  The calls that it has are those of its flying principals before and after. -/

/-- One pass goes on. -/
theorem proceed (h : PassBooks s) (pass' : Pass) {n : Id} {pass : Pass}
    (hn : s.passes.get? n = some pass) (hd : pass'.driver = pass.driver)
    (hs : t.settings = s.settings)
    (hp : t.passes = s.passes.put n pass') (hw : t.callers = s.callers)
    (hc : ∀ id call m, m ≠ n → call.owner = .pass m →
      (t.calls.get? id = some call ↔ s.calls.get? id = some call))
    (hsub : ∀ m ∈ s.journal, m ∈ t.journal) (unfinished : pass'.complete = false)
    (nodup : pass'.principals.Nodup)
    (landed : ∀ l ∈ pass'.landed, .began l.call l.principal .listing (.pass n) ∈ t.journal
      ∧ ∀ privileges, l.reply = .value privileges →
        .ended l.call l.principal (.listed (.value privileges)) ∈ t.journal)
    (flying : ∀ p ∈ pass'.flying,
      ∃ id call, t.calls.get? id = some call ∧ call.owner = .pass n ∧ call.principal = p)
    (flights : ∀ {id call}, t.calls.get? id = some call → call.owner = .pass n →
      call.principal ∈ pass'.flying)
    (apart : ∀ {id id' call call'}, t.calls.get? id = some call → t.calls.get? id' = some call' →
      call.owner = .pass n → call'.owner = .pass n → call.principal = call'.principal → id = id') :
    PassBooks t where
  driven {m pass₁ c} hm hdr := by
    rw [hp] at hm
    rw [hw]
    rcases Table.get?_put_eq_some_iff.mp hm with ⟨rfl, rfl⟩ | ⟨-, hm⟩
    · exact h.driven hn (hd ▸ hdr)
    · exact h.driven hm hdr
  waiters {c m} hc' := by
    rw [hw] at hc'
    obtain ⟨pass₁, hm, hdr⟩ := h.waiters hc'
    by_cases he : m = n
    · subst he
      rw [hn, Option.some_inj] at hm
      refine ⟨pass', ?_, ?_⟩
      · rw [hp, Table.get?_put_self]
      · rw [hd, hm, hdr]
    · refine ⟨pass₁, ?_, hdr⟩
      rw [hp, Table.get?_put_of_ne he, hm]
  active _ := by
    rw [hs]
    exact h.active hn
  unfinished {m pass₁} hm := by
    rw [hp] at hm
    rcases Table.get?_put_eq_some_iff.mp hm with ⟨-, rfl⟩ | ⟨-, hm⟩
    · exact unfinished
    · exact h.unfinished hm
  started {m pass₁} hm := by
    rw [hp] at hm
    rcases Table.get?_put_eq_some_iff.mp hm with ⟨rfl, -⟩ | ⟨-, hm⟩
    · obtain ⟨k, hk⟩ := h.started hn
      exact ⟨k, hsub _ hk⟩
    · obtain ⟨k, hk⟩ := h.started hm
      exact ⟨k, hsub _ hk⟩
  nodup {m pass₁} hm := by
    rw [hp] at hm
    rcases Table.get?_put_eq_some_iff.mp hm with ⟨-, rfl⟩ | ⟨-, hm⟩
    · exact nodup
    · exact h.nodup hm
  landed {m pass₁} hm l hl := by
    rw [hp] at hm
    rcases Table.get?_put_eq_some_iff.mp hm with ⟨rfl, rfl⟩ | ⟨-, hm⟩
    · exact landed l hl
    · obtain ⟨hb, he⟩ := h.landed hm l hl
      exact ⟨hsub _ hb, fun S hS => hsub _ (he S hS)⟩
  flying {m pass₁} hm p hpf := by
    rw [hp] at hm
    rcases Table.get?_put_eq_some_iff.mp hm with ⟨rfl, rfl⟩ | ⟨hne, hm⟩
    · exact flying p hpf
    · obtain ⟨id, call, hid, ho, he⟩ := h.flying hm p hpf
      exact ⟨id, call, (hc _ _ _ hne ho).mpr hid, ho, he⟩
  flights {id call m} hid ho := by
    rw [hp]
    by_cases he : m = n
    · subst he
      exact ⟨pass', Table.get?_put_self, flights hid ho⟩
    · rw [Table.get?_put_of_ne he]
      exact h.flights ((hc _ _ _ he ho).mp hid) ho
  apart {id id' call call' m} hid hid' ho ho' := by
    by_cases he : m = n
    · subst he
      exact apart hid hid' ho ho'
    · exact h.apart ((hc _ _ _ he ho).mp hid) ((hc _ _ _ he ho').mp hid') ho ho'

/-- A pass is opened; `d` is the caller that comes to wait for it, or a worker. -/
theorem openPass (h : PassBooks s) (ho : Orderly s) {d : Driver} {n : Note}
    (ha : s.settings.cachingActive = true) (hk : s.cache.keys ≠ []) (hs : t.settings = s.settings)
    (hp : t.passes = s.passes.put s.next ⟨d, s.cache.keys, [], [], {}⟩) (hc : t.calls = s.calls)
    (hw : ∀ c m, t.callers.get? c = some (.pass m) ↔
      (s.callers.get? c = some (.pass m) ∨ (d = .caller c ∧ m = s.next)))
    (hn : ∃ k, n = .passStarted s.next k) (hj : t.journal = n :: s.journal) : PassBooks t := by
  have hsub : ∀ m ∈ s.journal, m ∈ t.journal := fun m hm => hj ▸ List.mem_cons_of_mem _ hm
  have hold : ∀ {m pass}, t.passes.get? m = some pass →
      (m = s.next ∧ pass = ⟨d, s.cache.keys, [], [], {}⟩) ∨ s.passes.get? m = some pass := by
    intro m pass hm
    rw [hp] at hm
    rcases Table.get?_put_eq_some_iff.mp hm with ⟨rfl, rfl⟩ | ⟨-, hm⟩
    · exact Or.inl ⟨rfl, rfl⟩
    · exact Or.inr hm
  have hnew : ∀ {m pass}, s.passes.get? m = some pass → t.passes.get? m = some pass := by
    intro m pass hm
    rw [hp, Table.get?_put_of_ne (Nat.ne_of_lt (ho.passes hm)), hm]
  exact {
    driven := fun hm hd => by
      rcases hold hm with ⟨rfl, rfl⟩ | hm
      · exact (hw _ _).mpr (Or.inr ⟨hd, rfl⟩)
      · exact (hw _ _).mpr (Or.inl (h.driven hm hd))
    waiters := fun hc' => by
      rcases (hw _ _).mp hc' with hc' | ⟨rfl, rfl⟩
      · obtain ⟨pass, hm, hd⟩ := h.waiters hc'
        exact ⟨pass, hnew hm, hd⟩
      · exact ⟨_, by rw [hp, Table.get?_put_self], rfl⟩
    active := fun _ => by
      rw [hs]
      exact ha
    unfinished := fun hm => by
      rcases hold hm with ⟨rfl, rfl⟩ | hm
      · have he : s.cache.keys.isEmpty = false := by simpa using hk
        rw [Pass.complete, he]
        rfl
      · exact h.unfinished hm
    started := fun hm => by
      rcases hold hm with ⟨rfl, rfl⟩ | hm
      · obtain ⟨k, rfl⟩ := hn
        exact ⟨k, hj ▸ List.mem_cons_self⟩
      · obtain ⟨k, hk⟩ := h.started hm
        exact ⟨k, hsub _ hk⟩
    nodup := fun hm => by
      rcases hold hm with ⟨rfl, rfl⟩ | hm
      · rw [Pass.principals, List.append_nil, List.map_nil, List.append_nil]
        exact s.cache.keys_nodup
      · exact h.nodup hm
    landed := fun hm l hl => by
      rcases hold hm with ⟨rfl, rfl⟩ | hm
      · exact absurd hl List.not_mem_nil
      · obtain ⟨hb, he⟩ := h.landed hm l hl
        exact ⟨hsub _ hb, fun S hS => hsub _ (he S hS)⟩
    flying := fun hm p hpf => by
      rw [hc]
      rcases hold hm with ⟨rfl, rfl⟩ | hm
      · exact absurd hpf List.not_mem_nil
      · exact h.flying hm p hpf
    flights := fun hid hown => by
      obtain ⟨pass, hm, hf⟩ := h.flights (hc ▸ hid) hown
      exact ⟨pass, hnew hm, hf⟩
    apart := fun hid hid' => h.apart (hc ▸ hid) (hc ▸ hid') }

/-- A pass is over: nothing is left of it, nor is anybody waiting for it. -/
theorem forget (h : PassBooks s) {n : Id} (hs : t.settings = s.settings)
    (hp : t.passes = s.passes.erase n)
    (hc : ∀ id call m, m ≠ n → call.owner = .pass m →
      (t.calls.get? id = some call ↔ s.calls.get? id = some call))
    (hnone : ∀ id call, t.calls.get? id = some call → call.owner ≠ .pass n)
    (hw : ∀ c m, t.callers.get? c = some (.pass m) ↔
      (m ≠ n ∧ s.callers.get? c = some (.pass m)))
    (hsub : ∀ m ∈ s.journal, m ∈ t.journal) : PassBooks t := by
  have hold : ∀ {m pass}, t.passes.get? m = some pass → m ≠ n ∧ s.passes.get? m = some pass := by
    intro m pass hm
    rw [hp] at hm
    exact Table.get?_erase_eq_some_iff.mp hm
  have hother : ∀ {id call m}, t.calls.get? id = some call → call.owner = .pass m → m ≠ n := by
    rintro id call m hid ho rfl
    exact hnone id call hid ho
  exact {
    driven := fun hm hd => (hw _ _).mpr ⟨(hold hm).1, h.driven (hold hm).2 hd⟩
    waiters := fun hc' => by
      obtain ⟨hne, hc'⟩ := (hw _ _).mp hc'
      obtain ⟨pass, hm, hd⟩ := h.waiters hc'
      exact ⟨pass, by rw [hp, Table.get?_erase_of_ne hne, hm], hd⟩
    active := fun hm => by
      rw [hs]
      exact h.active (hold hm).2
    unfinished := fun hm => h.unfinished (hold hm).2
    started := fun hm => by
      obtain ⟨k, hk⟩ := h.started (hold hm).2
      exact ⟨k, hsub _ hk⟩
    nodup := fun hm => h.nodup (hold hm).2
    landed := fun hm l hl => by
      obtain ⟨hb, he⟩ := h.landed (hold hm).2 l hl
      exact ⟨hsub _ hb, fun S hS => hsub _ (he S hS)⟩
    flying := fun hm p hpf => by
      obtain ⟨id, call, hid, ho, he⟩ := h.flying (hold hm).2 p hpf
      exact ⟨id, call, (hc _ _ _ (hold hm).1 ho).mpr hid, ho, he⟩
    flights := fun hid ho => by
      have hne := hother hid ho
      obtain ⟨pass, hm, hf⟩ := h.flights ((hc _ _ _ hne ho).mp hid) ho
      exact ⟨pass, by rw [hp, Table.get?_erase_of_ne hne, hm], hf⟩
    apart := fun hid hid' ho ho' =>
      h.apart ((hc _ _ _ (hother hid ho) ho).mp hid) ((hc _ _ _ (hother hid' ho') ho').mp hid') ho
        ho' }

theorem launch (h : PassBooks s) (ho : Orderly s) {n : Id} {p : Principal} {pass : Pass}
    (hp : s.passes.get? n = some pass) (hq : p ∈ pass.queue) :
    PassBooks ({ s with passes := s.passes.put n (pass.fly p) }.startCall p .listing
      (.pass n)) := by
  have hold : ∀ {id call}, s.calls.get? id = some call → ∀ call',
      (s.calls.put s.next call').get? id = some call :=
    fun hid call' => (Table.get?_put_of_ne (Nat.ne_of_lt (ho.calls hid))).trans hid
  have hpass : ∀ {id call}, s.calls.get? id = some call → call.owner = .pass n →
      call.principal ∈ pass.flying := fun hid hown => h.flying_of_owner hp hid hown
  have hne : ∀ {q}, q ∈ pass.flying → q ≠ p := by
    rintro q hqf rfl
    exact (List.nodup_append.mp (List.nodup_append.mp (h.nodup hp)).1).2.2 q hq q hqf rfl
  refine h.proceed (pass.fly p) hp rfl rfl rfl rfl (fun id call m hm hown => ?_)
    (fun m => List.mem_cons_of_mem _) ?_ ((pass.principals_fly hq).nodup_iff.mpr (h.nodup hp))
    (fun l hl => ?_)
    (fun q hqf => ?_) (fun {id call} hid hown => ?_)
    fun {id id' call call'} hid hid' hown hown' he => ?_
  · refine Table.get?_put_eq_some_iff.trans ⟨?_, fun hid => Or.inr ⟨?_, hid⟩⟩
    · rintro (⟨-, rfl⟩ | ⟨-, hid⟩)
      · injection hown with hown
        exact absurd hown.symm hm
      · exact hid
    · exact Nat.ne_of_lt (ho.calls hid)
  · simp [Pass.complete, Pass.fly]
  · obtain ⟨hb, he⟩ := h.landed hp l hl
    exact ⟨List.mem_cons_of_mem _ hb, fun S hS => List.mem_cons_of_mem _ (he S hS)⟩
  · rcases List.mem_append.mp hqf with hqf | hqf
    · obtain ⟨id, call, hid, hrest⟩ := h.flying hp q hqf
      exact ⟨id, call, hold hid _, hrest⟩
    · rw [List.mem_singleton.mp hqf]
      exact ⟨s.next, _, Table.get?_put_self, rfl, rfl⟩
  · rcases Table.get?_put_eq_some_iff.mp hid with ⟨-, rfl⟩ | ⟨-, hid⟩
    · exact List.mem_append_right _ (List.mem_singleton.mpr rfl)
    · exact List.mem_append_left _ (hpass hid hown)
  · rcases Table.get?_put_eq_some_iff.mp hid with ⟨rfl, rfl⟩ | ⟨-, hid⟩
    · rcases Table.get?_put_eq_some_iff.mp hid' with ⟨rfl, -⟩ | ⟨-, hid'⟩
      · rfl
      · exact absurd he.symm (hne (hpass hid' hown'))
    · rcases Table.get?_put_eq_some_iff.mp hid' with ⟨rfl, rfl⟩ | ⟨-, hid'⟩
      · exact absurd he (hne (hpass hid hown))
      · exact h.apart hid hid' hown hown' he

theorem landing (h : PassBooks s) (hb : CallBooks s) {id n : Id} {call : Call} {ending : Ending}
    {r : Reply PrivilegeSet} (hid : s.calls.get? id = some call) (hown : call.owner = .pass n)
    (hr : ∀ privileges, r = .value privileges → ending = .listed (.value privileges)) :
    PassBooks ((s.endCall id call.principal ending).land n ⟨call.principal, id, r⟩) := by
  obtain ⟨pass, hp, hf⟩ := h.flights hid hown
  have hother : ∀ {id' call'}, (s.calls.erase id).get? id' = some call' → call'.owner = .pass n →
      call'.principal ≠ call.principal := by
    intro id' call' hid' hown' he
    obtain ⟨hne, hid'⟩ := Table.get?_erase_eq_some_iff.mp hid'
    exact hne (h.apart hid' hid hown' hown he)
  have hflying : pass.flying.Nodup :=
    (List.nodup_append.mp (List.nodup_append.mp (h.nodup hp)).1).2.1
  refine h.proceed (pass.land ⟨call.principal, id, r⟩) hp rfl rfl ?_ rfl
    (fun id' call' m hm hown' => ?_) (fun m => List.mem_cons_of_mem _) ?_ ?_ (fun l hl => ?_)
    (fun q hq => ?_) (fun {id' call'} hid' hown' => ?_)
    fun {id₁ id₂ call₁ call₂} h₁ h₂ hown₁ hown₂ he => ?_
  · rw [State.land_eq (s := s.endCall id call.principal ending) hp]
    rfl
  · refine Table.get?_erase_eq_some_iff.trans ⟨And.right, fun hid' => ⟨?_, hid'⟩⟩
    rintro rfl
    rw [hid, Option.some_inj] at hid'
    rw [← hid', hown] at hown'
    injection hown' with hown'
    exact hm hown'.symm
  · simp [Pass.complete, Pass.land]
  · exact (pass.principals_land hf).nodup_iff.mpr (h.nodup hp)
  · rcases List.mem_append.mp hl with hl | hl
    · obtain ⟨hbegan, he⟩ := h.landed hp l hl
      exact ⟨List.mem_cons_of_mem _ hbegan, fun S hS => List.mem_cons_of_mem _ (he S hS)⟩
    · rw [List.mem_singleton.mp hl]
      have hbegan := hb.began_of_get? hid
      rw [hb.listing hid (by rw [hown]; rfl), hown] at hbegan
      refine ⟨List.mem_cons_of_mem _ hbegan, fun S hS => ?_⟩
      rw [hr S hS]
      exact List.mem_cons_self
  · obtain ⟨hne, hq⟩ := hflying.mem_erase_iff.mp hq
    obtain ⟨id', call', hid', hown', rfl⟩ := h.flying hp q hq
    refine ⟨id', call', (Table.get?_erase_of_ne ?_).trans hid', hown', rfl⟩
    rintro rfl
    rw [hid, Option.some_inj] at hid'
    exact hne (by rw [hid'])
  · have hf' := h.flying_of_owner hp (Table.get?_erase_eq_some_iff.mp hid').2 hown'
    exact (List.mem_erase_of_ne (hother hid' hown')).mpr hf'
  · exact h.apart (Table.get?_erase_eq_some_iff.mp h₁).2 (Table.get?_erase_eq_some_iff.mp h₂).2
      hown₁
      hown₂ he

/-! ### Who waits for a pass

Most changes to callers and calls are not about passes.  They are recognised by who waits and who
owns: somebody who waits for a pass is its driver, and the owner of a call says whether it is one
of a pass. -/

/-- A caller who runs no pass comes to wait for none, or is gone. -/
theorem erased {c : Id} (hc : ∀ n, s.callers.get? c ≠ some (.pass n)) (c' n : Id) :
    (s.callers.erase c).get? c' = some (.pass n) ↔ s.callers.get? c' = some (.pass n) := by
  refine Table.get?_erase_eq_some_iff.trans ⟨And.right, fun h => ⟨?_, h⟩⟩
  rintro rfl
  exact hc n h

theorem waiting {c : Id} {w : Waiting} (hc : ∀ n, s.callers.get? c ≠ some (.pass n))
    (hw : ∀ n, w ≠ .pass n) (c' n : Id) :
    (s.callers.put c w).get? c' = some (.pass n) ↔ s.callers.get? c' = some (.pass n) := by
  refine Table.get?_put_eq_some_iff.trans ⟨?_, fun h => Or.inr ⟨?_, h⟩⟩
  · rintro (⟨-, he⟩ | ⟨-, h⟩)
    · exact absurd he (hw n)
    · exact h
  · rintro rfl
    exact hc n h

/-- A call that is not made by a pass begins. -/
theorem begun (ho : Orderly s) {call : Call} (hown : ∀ n, call.owner ≠ .pass n) (id : Id)
    (call' : Call) (n : Id) (hown' : call'.owner = .pass n) :
    (s.calls.put s.next call).get? id = some call' ↔ s.calls.get? id = some call' := by
  refine Table.get?_put_eq_some_iff.trans ⟨?_, fun hid => Or.inr ⟨Nat.ne_of_lt (ho.calls hid), hid⟩⟩
  rintro (⟨-, rfl⟩ | ⟨-, hid⟩)
  · exact absurd hown' (hown n)
  · exact hid

/-- A call that is not made by a pass is over. -/
theorem finished {id : Id} {call : Call} (hid : s.calls.get? id = some call)
    (hown : ∀ n, call.owner ≠ .pass n) (id' : Id) (call' : Call) (n : Id)
    (hown' : call'.owner = .pass n) :
    (s.calls.erase id).get? id' = some call' ↔ s.calls.get? id' = some call' := by
  refine Table.get?_erase_eq_some_iff.trans ⟨And.right, fun hid' => ⟨?_, hid'⟩⟩
  rintro rfl
  rw [hid, Option.some_inj] at hid'
  exact hown n (hid' ▸ hown')

/-- A pass is dropped that nobody waits for. -/
theorem dropPass (h : PassBooks s) (callers : Table Id Waiting) (new : List Note) {n : Id}
    (hw : ∀ c m, callers.get? c = some (.pass m) ↔ (m ≠ n ∧ s.callers.get? c = some (.pass m))) :
    PassBooks ({ s with callers := callers, journal := new ++ s.journal }.dropPass n) := by
  rw [State.dropPass_eq]
  refine h.forget rfl rfl (fun id call m hm hown => ?_) (fun id call hid => ?_) hw fun m hm =>
    List.mem_append_right _ (List.mem_append_right _ hm)
  · rw [Table.get?_filter_eq_some_iff, decide_eq_true_iff]
    refine ⟨And.left, fun hid => ⟨hid, ?_⟩⟩
    rw [hown]
    rintro ⟨⟩
    exact hm rfl
  · exact of_decide_eq_true (Table.get?_filter_eq_some_iff.mp hid).2

/-! ### The end of a pass

When a pass has looked at the last of its results it is taken away, together with the waiting of
the caller that runs it. -/

/-- When the caller that runs a pass no longer waits, those are left that wait for other passes. -/
theorem released (h : PassBooks s) {n c : Id} {pass : Pass} (hp : s.passes.get? n = some pass)
    (hd : pass.driver = .caller c) (c' m : Id) :
    (s.callers.erase c).get? c' = some (.pass m)
      ↔ m ≠ n ∧ s.callers.get? c' = some (.pass m) := by
  refine Table.get?_erase_eq_some_iff.trans (and_congr_left fun hw => ?_)
  constructor
  · rintro hne rfl
    have hd' := h.driver_of_waiter hp hw
    rw [hd] at hd'
    injection hd' with hd'
    exact hne hd'.symm
  · rintro hne rfl
    have hdriven := hw.symm.trans (h.driven hp hd)
    rw [Option.some_inj] at hdriven
    injection hdriven with hdriven
    exact hne hdriven

/-- Nobody waits for a pass that a worker runs. -/
theorem undriven (h : PassBooks s) {n : Id}
    (hd : ∀ pass, s.passes.get? n = some pass → ∃ w, pass.driver = .worker w) (c m : Id) :
    s.callers.get? c = some (.pass m) ↔ m ≠ n ∧ s.callers.get? c = some (.pass m) := by
  refine ⟨fun hw => ⟨?_, hw⟩, And.right⟩
  rintro rfl
  obtain ⟨pass, hp, hdriver⟩ := h.waiters hw
  obtain ⟨w, hdw⟩ := hd pass hp
  rw [hdriver] at hdw
  cases hdw

/-- A pass has looked at one of its results. -/
theorem look (h : PassBooks s) {n : Id} {pass : Pass} {l : Landing}
    (hp : s.passes.get? n = some pass) (hc : (pass.look l).complete = false) :
    PassBooks { s.digest n l with passes := (s.digest n l).passes.put n (pass.look l) } := by
  rw [State.digest_eq]
  have hnodup := (h.nodup hp).sublist (pass.principals_look l)
  have hflying := h.flying hp
  refine h.proceed (pass.look l) hp rfl rfl rfl rfl (fun _ _ _ _ _ => Iff.rfl)
    (fun m => List.mem_append_right _) hc hnodup (fun l' hl' => ?_) hflying
    (fun hid hown => (h.flying_of_owner hp hid hown : _ ∈ pass.flying)) h.apart
  obtain ⟨hb, he⟩ := h.landed hp l' (List.mem_of_mem_erase hl')
  exact ⟨List.mem_append_right _ hb, fun S hS => List.mem_append_right _ (he S hS)⟩

/-- A pass has looked at the last of its results. -/
theorem close (h : PassBooks s) {n : Id} {pass : Pass} {l : Landing}
    (hp : s.passes.get? n = some pass) (hc : (pass.look l).complete = true) :
    PassBooks (({ s.digest n l with passes := (s.digest n l).passes.erase n }.note
      (.passFinished n (pass.look l).report)).reportPass pass.driver (pass.look l).report) := by
  rw [State.digest_eq]
  have hempty : pass.flying = [] := by
    simp only [Pass.complete, Pass.look, Bool.and_eq_true, List.isEmpty_iff] at hc
    exact hc.1.2
  have hnone : ∀ id call, s.calls.get? id = some call → call.owner ≠ .pass n := by
    intro id call hid hown
    have hf := h.flying_of_owner hp hid hown
    rw [hempty] at hf
    exact absurd hf List.not_mem_nil
  have hmem : ∀ m ∈ s.journal,
      m ∈ .passFinished n (pass.look l).report :: (l.notes n ++ s.journal) :=
    fun m hm => List.mem_cons_of_mem _ (List.mem_append_right _ hm)
  cases hd : pass.driver with
  | caller c =>
    exact h.forget rfl rfl (fun _ _ _ _ _ => Iff.rfl) hnone (h.released hp hd) fun m hm =>
      List.mem_cons_of_mem _ (hmem m hm)
  | worker w =>
    refine h.forget rfl rfl (fun _ _ _ _ _ => Iff.rfl) hnone (h.undriven fun pass' hp' => ?_) hmem
    rw [hp, Option.some_inj] at hp'
    exact ⟨w, hp' ▸ hd⟩

end PassBooks

/-! ## Moves

The calls and callers in a move are often not those of a pass.  That a caller who is still asking
waits for no pass, and neither does one that has made a call of its own, is what excludes them. -/

theorem Asking.not_pass {s : State} {c : Id} {r : Request} (h : Asking s c r) (n : Id) :
    s.callers.get? c ≠ some (.pass n) := by
  rw [h.idle]
  simp

theorem CallerBooks.not_pass {s : State} (h : CallerBooks s) {id : Id} {call : Call} {c : Id}
    (hid : s.calls.get? id = some call) (ho : call.owner.caller? = some c) (n : Id) :
    s.callers.get? c ≠ some (.pass n) := by
  rw [(h.owners hid ho).1]
  simp

/-- What a call of a pass was answered with is what it ended with. -/
theorem Ends.listed {ev : Event} {s : State} {id : Id} {call : Call} {ending : Ending}
    {r : Reply PrivilegeSet} (h : Ends ev s id call ending r) {privileges : PrivilegeSet}
    (hr : r = .value privileges) : ending = .listed (.value privileges) := by
  cases h with
  | answer => rw [hr]
  | expire => cases hr

/-- **The moves keep the books of passes.** -/
theorem Move.passBooks {ev : Event} {s t : State} (ho : Orderly s) (hcalls : CallBooks s)
    (hcallers : CallerBooks s) (h : PassBooks s) (m : Move ev s t) : PassBooks t := by
  have hsame : ∀ (id : Id) (call : Call) (n : Id), call.owner = .pass n →
      (s.calls.get? id = some call ↔ s.calls.get? id = some call) := fun _ _ _ _ => Iff.rfl
  have hsub : ∀ n, ∀ m ∈ s.journal, m ∈ n :: s.journal := fun n m => List.mem_cons_of_mem _
  cases m with
  | quiet hq =>
    obtain ⟨new, hj, -⟩ := hq.journal
    refine h.keep hq.settings hq.passes (fun c n => by rw [hq.callers])
      (fun _ _ _ _ => by rw [hq.calls])
      fun n hn => ?_
    rw [hj]
    exact List.mem_append_right _ hn
  | enter r => exact h.keep rfl rfl (fun _ _ => Iff.rfl) hsame (hsub _)
  | reply ha hf => exact h.keep rfl rfl (PassBooks.erased ha.not_pass) hsame (hsub _)
  | release hc =>
    refine h.keep rfl rfl (PassBooks.erased fun n => ?_) hsame (hsub _)
    rw [hc]
    simp
  | await ha hw =>
    exact h.keep rfl rfl (PassBooks.waiting ha.not_pass fun n e => by cases e) hsame fun _ => id
  | own ha hm hf he =>
    refine h.keep rfl rfl (PassBooks.waiting ha.not_pass fun n e => by cases e)
      (PassBooks.begun ho fun n hn => ?_)
      fun n hn => List.mem_cons_of_mem _ (List.mem_cons_of_mem _ hn)
    cases hm <;> cases hn
  | join hev ha hf =>
    exact h.keep rfl rfl (PassBooks.waiting ha.not_pass fun n e => by cases e) hsame (hsub _)
  | fetch hev ha hf he =>
    exact h.keep rfl rfl (PassBooks.waiting ha.not_pass fun n e => by cases e)
      (PassBooks.begun ho fun n hn => by cases hn)
      fun n hn => List.mem_cons_of_mem _ (List.mem_cons_of_mem _ hn)
  | @fetchEnds id call ending r hc hfetch ha he =>
    rw [State.settleFetch_eq]
    refine h.keep rfl rfl (fun c n => ?_) (PassBooks.finished hc fun n hn => ?_) fun n hn => ?_
    · refine Table.get?_filter_eq_some_iff.trans ⟨And.left, fun hw => ⟨hw, rfl⟩⟩
    · rw [hfetch] at hn
      cases hn
    · exact List.mem_append_right _ (List.mem_append_right _ (List.mem_cons_of_mem _ hn))
  | updateEnds hc hown he =>
    rw [State.settleUpdate_eq]
    refine h.keep rfl rfl (PassBooks.erased ?_) (PassBooks.finished hc fun n hn => ?_)
      fun n hn => ?_
    · exact hcallers.not_pass hc (by rw [hown]; rfl)
    · rw [hown] at hn
      cases hn
    · exact List.mem_cons_of_mem _ (List.mem_append_right _ (List.mem_cons_of_mem _ hn))
  | directEnds hc hown he =>
    refine h.keep rfl rfl (PassBooks.erased ?_) (PassBooks.finished hc fun n hn => ?_)
      fun n hn => ?_
    · exact hcallers.not_pass hc (by rw [hown]; rfl)
    · rw [hown] at hn
      cases hn
    · exact List.mem_cons_of_mem _ (List.mem_cons_of_mem _ hn)
  | landing hc hown he => exact h.landing hcalls hc hown fun S => he.listed
  | @openFor c ha hs hk =>
    refine h.openPass ho hs hk rfl rfl rfl (fun c' m => ?_) ⟨_, rfl⟩ rfl
    refine Table.get?_put_eq_some_iff.trans ⟨?_, ?_⟩
    · rintro (⟨rfl, he⟩ | ⟨-, hw⟩)
      · injection he with he
        exact Or.inr ⟨rfl, he.symm⟩
      · exact Or.inl hw
    · rintro (hw | ⟨he, rfl⟩)
      · refine Or.inr ⟨?_, hw⟩
        rintro rfl
        exact ha.not_pass m hw
      · injection he with he
        exact Or.inl ⟨he.symm, rfl⟩
  | @openBy w k hw hs hk =>
    refine h.openPass ho hs hk rfl rfl rfl (fun c' m => ?_) ⟨_, rfl⟩ rfl
    refine ⟨Or.inl, ?_⟩
    rintro (hw | ⟨he, -⟩)
    · exact hw
    · cases he
  | launch hev hp hq hf => exact h.launch ho hp hq
  | look hev hp hh hl hc => exact h.look hp hc
  | close hev hp hh hl hc => exact h.close hp hc
  | leave hev hc hw =>
    refine h.keep rfl rfl (PassBooks.erased fun n hn => ?_) hsame (hsub _)
    rw [hc, Option.some_inj] at hn
    rcases hw with ⟨p, e, a, rfl⟩ | ⟨w', rfl⟩ <;> cases hn
  | @leaveCall c id hev hc =>
    obtain ⟨-, call, hid, hown⟩ := hcallers.waiters hc
    rw [State.dropCall_eq (s := s.leave c) hid]
    refine h.keep rfl rfl (PassBooks.erased (hcallers.not_pass hid hown))
      (PassBooks.finished hid fun n hn => ?_)
      fun n hn => List.mem_cons_of_mem _ (List.mem_cons_of_mem _ hn)
    rw [hn] at hown
    cases hown
  | @leavePass c n hev hc =>
    obtain ⟨pass, hp, hd⟩ := h.waiters hc
    exact h.dropPass (s.callers.erase c) [.cancelled c] (h.released hp hd)
  | abandon hd => exact h.dropPass s.callers [] (h.undriven hd)
  | write hev => exact h.keep rfl rfl (fun _ _ => Iff.rfl) hsame (hsub _)
  | clear hev hn => exact h.keep rfl rfl (fun _ _ => Iff.rfl) hsame (hsub _)

/-! ## All the books

The books of callers, calls and passes lean on each other: what a move does to one table is
allowed only by what another one says.  So they are kept together, and properties proved from
here on may take all of them for granted. -/

/-- All the books of an engine are in order. -/
structure Books (s : State) : Prop where
  orderly : Orderly s
  calls : CallBooks s
  callers : CallerBooks s
  passes : PassBooks s

theorem Books.initial (settings : Settings) (checks : Bool) : Books (.initial settings checks) where
  orderly := .initial settings checks
  calls := .initial settings checks
  callers := .initial settings checks
  passes := .initial settings checks

theorem Move.books {ev : Event} {s t : State} (h : Books s) (m : Move ev s t) : Books t where
  orderly := m.orderly h.orderly
  calls := by
    refine m.callBooks h.orderly h.calls (fun {c id call} hc hid ho => ?_) h.passes.active
    obtain ⟨-, call', hid', hown⟩ := h.callers.waiters hc
    rw [hid, Option.some_inj] at hid'
    rw [← hid', ho] at hown
    cases hown
  callers := m.callerBooks h.orderly h.calls h.callers h.passes.driven
  passes := m.passBooks h.orderly h.calls h.callers h.passes

/-- **What every move keeps while the books are in order, the moves of a step keep.** -/
theorem Moves.keeps_of_books {P : State → Prop} {ev : Event} {s t : State} (m : Moves ev s t)
    (h : Books s) (hs : P s) (move : ∀ {t u : State}, Books t → P t → Move ev t u → P u) : P t := by
  have hkept : Books t ∧ P t :=
    m.keeps (P := fun t => Books t ∧ P t) h.orderly ⟨h, hs⟩ fun _ ⟨hb, ht⟩ m =>
      ⟨m.books hb, move hb ht m⟩
  exact hkept.2

/-- **The books are in order after every run.** -/
theorem Books.run {s : State} (h : Books s) (es : List Event) : Books (s.run es) :=
  run_induction h.orderly h fun _ _ _ _ _ h m => m.books h

/-- **A property that every move keeps while the books are in order is kept by every run.** -/
theorem Books.run_induction {P : State → Prop} {s : State} {es : List Event} (h : Books s)
    (hs : P s)
    (move : ∀ ev ∈ es, ∀ {t u : State}, Books t → P t → Move ev t u → P u) : P (s.run es) := by
  have hkept : Books (s.run es) ∧ P (s.run es) :=
    run_keeps (P := fun t => Books t ∧ P t) ⟨h, hs⟩ fun ev hev _ ⟨hb, ht⟩ =>
      ⟨hb.run [ev], (step_moves hb.orderly ev).keeps_of_books hb ht (move ev hev)⟩
  exact hkept.2

end Gatekeeper.Engine

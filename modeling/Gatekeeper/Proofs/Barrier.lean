import Gatekeeper.Proofs.Progress
import Gatekeeper.Proofs.SingleFlight

/-!
# Clearing the cache

Clearing the cache is meant as a barrier: whatever the backend was asked before has no part in what
is decided afterwards.  But the cache is all that is cleared.  A call that is under way still hands
over its list when it ends, a pass still puts into the cache what it was opened for, and a caller
may still join a fetch.

* `Barrier` — what a clear of the cache is meant to achieve, in everything that can follow it.
* `Pending` — what can be under way at a clear and gets past it.
* `barrier_iff` — a clear is a barrier exactly if nothing of the kind is under way.

That a clear is no barrier as long as something is pending is shown by exhibiting what happens
next, for each kind of thing that can be pending.  So the condition is exact, and whoever wants a
barrier has to wait until nothing of the kind is under way.  The other direction follows an
invariant from the clear onwards (`Clean`), whose main part is that a list of an old call can
reach neither the cache nor anybody who has asked since.
-/

set_option autoImplicit false

namespace Gatekeeper.Engine

/-! ## What a clear is meant to achieve

After a clear, whoever decides is to decide on something that the backend was asked for after it.
`Barrier` says so of every continuation, together with the consequence that the first to ask
about a principal has a call begun.  `Pending` lists what can be under way at the clear and
breaks this. -/

namespace State

/-- The call has begun. -/
def Begun (s : State) (id : Id) : Prop := ∃ p q o, .began id p q o ∈ s.journal

/-- The cache entry of the principal is the list that the call of this owner has come back with. -/
def Holds (s : State) (p : Principal) (id : Id) (o : Owner) : Prop :=
  ∃ privileges, s.cache.get? p = some privileges
    ∧ source p s.journal = some (privileges, .call id o)

/-- The state after the cache is cleared in `s` and the events have happened. -/
def cleared (s : State) (es : List Event) : State := (s.step .invalidate).run es

end State

/-- The event asks for a decision about the principal, or puts something into its cache entry. -/
def Event.concerns (p : Principal) : Event → Bool
  | .enforce _ q _ | .update q | .write q _ => q == p
  | _ => false

/-- What clearing the cache in `s` is meant to achieve, whatever happens afterwards. -/
structure Barrier (s : State) : Prop where
  /-- No entry ever holds the list of a call that had begun. -/
  holds : ∀ es p id o, (s.cleared es).Holds p id o → ¬ s.Begun id
  /-- Nobody who asks for a decision afterwards waits for a call that had begun. -/
  decides : ∀ es c e p a id, .called c (.enforce e p a) ∉ s.journal →
    .called c (.enforce e p a) ∈ (s.cleared es).journal → .joined c id ∈ (s.cleared es).journal →
      ¬ s.Begun id
  /-- The first who asks about a principal, whose entry nobody has asked for or written in between,
  has a call begun. -/
  first : ∀ es e p a, (∀ ev ∈ es, ev.concerns p = false) → (s.cleared es).dropped = false →
    s.settings.authorization = true → (s.settings.caching = true → s.settings.fetchOnMiss = true) →
      ∃ id q o, .joined (s.cleared es).next id ∈ ((s.cleared es).step (.enforce e p a)).journal
        ∧ .began id p q o ∈ ((s.cleared es).step (.enforce e p a)).journal
        ∧ ¬ (s.cleared es).Begun id
  /-- A pass that had been opened does not bring an entry back that was cleared. -/
  restores : ∀ es ev p id n k, .passStarted n k ∈ s.journal → s.cache.get? p ≠ none →
    (s.cleared es).cache.get? p = none → ¬ ((s.cleared es).step ev).Holds p id (.pass n)

/-- What is under way in `s` and gets past a clear of the cache. -/
inductive Pending (s : State) : Prop
  /-- A fetch is registered, which others join. -/
  | fetch {p : Principal} {f : Fetch} (hp : s.fetches.get? p = some f)
  /-- Somebody updates an entry. -/
  | update {id c : Id} {call : Call} (hid : s.calls.get? id = some call)
    (ho : call.owner = .update c)
  /-- A pass waits for a call. -/
  | flying {n : Id} {pass : Pass} {p : Principal} (hn : s.passes.get? n = some pass)
    (hh : s.halted pass = false) (hf : p ∈ pass.flying)
  /-- A pass has a list to look at. -/
  | landed {n : Id} {pass : Pass} {l : Landing} {privileges : PrivilegeSet}
    (hn : s.passes.get? n = some pass) (hh : s.halted pass = false) (hl : l ∈ pass.landed)
    (hr : l.reply = .value privileges)
  /-- A pass is to ask for an entry that is cleared or that would be fetched. -/
  | queued {n : Id} {pass : Pass} {p : Principal} (hn : s.passes.get? n = some pass)
    (hh : s.halted pass = false) (hq : p ∈ pass.queue)
    (hm : s.cache.get? p ≠ none ∨ s.settings.fetchOnMiss = true)

section

variable {s t u : State} {ev : Event}

/-! ## Calls that had begun

A call that had begun before the clear can be told from a later one by its number, since numbers
are drawn in order. -/

theorem move_invalidate (s : State) : Move .invalidate s s.invalidate :=
  .clear (Or.inr rfl) (Or.inr ⟨s.cache.size, rfl⟩)

theorem Books.invalidate (h : Books s) : Books s.invalidate :=
  (move_invalidate s).books h

/-- What has not been drawn yet is no call that had begun. -/
theorem not_begun (h : Orderly t) (hsub : s.journal ⊆ t.journal) {id : Id} (hid : t.next ≤ id) :
    ¬ s.Begun id := by
  rintro ⟨p, q, o, hb⟩
  exact Nat.not_lt_of_le hid (h.notes _ (hsub hb) id List.mem_cons_self)

/-- A call that had begun and is under way was under way then. -/
theorem State.Begun.underway (hs : Books s) (ht : Books t) (hsub : s.journal ⊆ t.journal) {id : Id}
    {call : Call} (hb : s.Begun id) (hid : t.calls.get? id = some call) :
    ∃ call', s.calls.get? id = some call' ∧ call'.principal = call.principal
      ∧ call'.owner = call.owner := by
  obtain ⟨p, q, o, hb⟩ := hb
  obtain ⟨rfl, -, rfl⟩ := ht.calls.began_unique (hsub hb) (ht.calls.began_of_get? hid)
  rcases hs.calls.get?_or_of_began hb with ⟨call', hid', hp, -, ho⟩ | ⟨-, ⟨ending, he⟩ | ⟨hd, -⟩⟩
  · exact ⟨call', hid', hp, ho⟩
  · exact absurd (hsub he) (ht.calls.not_ended hid)
  · rw [ht.calls.of_dropped (hsub hd)] at hid
    cases hid

/-! ## What a clear achieves

If nothing is pending, every call that was begun before the clear is one whose list nobody will
put into the cache.  `Clean` says what this comes to in a later state: no entry stems from such a
call, nobody waits for one, and passes that were open at the clear have nothing to do that would
show. -/

/-- Pass `n` may put what it gets for the principal into the cache: it is opened after the clear in
`s`, or nobody would notice. -/
def State.Spares (s : State) (n : Id) (p : Principal) : Prop :=
  n < s.next → s.cache.get? p = none ∧ s.settings.fetchOnMiss = false

/-- Nothing that the pass still has to do would get past the clear in `s`. -/
structure Harmless (s t : State) (n : Id) (pass : Pass) : Prop where
  waits : ∀ p ∈ pass.queue ++ pass.flying, s.Spares n p
  calls : ∀ {id call}, t.calls.get? id = some call → call.owner = .pass n → ¬ s.Begun id
  landed : ∀ l ∈ pass.landed, ∀ privileges, l.reply = .value privileges →
    s.Spares n l.principal ∧ ¬ s.Begun l.call

/-- What holds in `t` after the cache was cleared in `s` with nothing pending. -/
structure Clean (s t : State) : Prop where
  journal : s.journal ⊆ t.journal
  next : s.next ≤ t.next
  passes : ∀ {n pass}, t.passes.get? n = some pass → t.halted pass = true ∨ Harmless s t n pass
  entries : ∀ {p privileges id o}, source p t.journal = some (privileges, .call id o) →
    ¬ s.Begun id ∧ ∀ n, o = .pass n → s.Spares n p
  joins : ∀ {c e p a id}, .called c (.enforce e p a) ∉ s.journal →
    .called c (.enforce e p a) ∈ t.journal → .joined c id ∈ t.journal → ¬ s.Begun id

namespace Clean

theorem initial (hs : Books s) (hpending : ¬ Pending s) : Clean s s.invalidate where
  journal := fun _ => List.mem_cons_of_mem _
  next := Nat.le_refl _
  passes {n pass} hn := by
    have hn : s.passes.get? n = some pass := hn
    cases hh : s.halted pass with
    | true => exact Or.inl hh
    | false =>
      refine Or.inr ⟨fun p hp _ => ?_, fun {id call} hid ho => ?_, fun l hl S hr => ?_⟩
      · rcases List.mem_append.mp hp with hq | hf
        · by_contra hnot
          refine hpending (.queued hn hh hq ?_)
          rwa [not_and_or, Bool.not_eq_false] at hnot
        · exact absurd (.flying hn hh hf) hpending
      · exact absurd (.flying hn hh (hs.passes.flying_of_owner hn hid ho)) hpending
      · exact absurd (.landed hn hh hl hr) hpending
  entries h := by cases h
  joins {c e p a id} hnot hcalled _ := by
    rcases List.mem_cons.mp hcalled with hcalled | hcalled
    · cases hcalled
    · exact absurd hcalled hnot

/-- A move leaves a pass harmless. -/
theorem harmless (ht : Books t) (hsub : s.journal ⊆ t.journal) (m : Move ev t u) {n : Id}
    {pass pass' : Pass} (hp : t.passes.get? n = some pass) (hp' : u.passes.get? n = some pass')
    (h : Harmless s t n pass) : Harmless s u n pass' := by
  have hshrinks := (m.goes ht hp).shrinks hp'
  refine ⟨fun p hw => h.waits p (hshrinks.waits hw), fun {id call} hid ho => ?_,
    fun l hl S hr => ?_⟩
  · rcases m.begun hid with hid | ⟨rfl, -⟩
    · exact h.calls hid ho
    · exact not_begun ht.orderly hsub (Nat.le_refl _)
  · rcases hshrinks.landed l hl with hl | ⟨hf, call, hid, ho⟩
    · exact h.landed l hl S hr
    · exact ⟨h.waits _ (List.mem_append_right _ hf), h.calls hid ho⟩

/-- A list that is put into the cache is not that of a call that had begun. -/
theorem received (hs : Books s) (ht : Books t) (hpending : ¬ Pending s) (h : Clean s t) {id : Id}
    {p : Principal} {o : Owner} (hr : Received t id p o) :
    ¬ s.Begun id ∧ ∀ n, o = .pass n → s.Spares n p := by
  cases hr with
  | @call call hid hp hpass hdirect =>
    refine ⟨fun hb => hpending ?_, fun n hn => absurd hn (hpass n)⟩
    obtain ⟨call', hid', -, ho⟩ := hb.underway hs ht h.journal hid
    rw [← ho] at hpass hdirect
    rcases hown : call'.owner with _ | c | ⟨c, e, a⟩ | n
    · exact .fetch (hs.calls.registered hid' hown)
    · exact .update hid' hown
    · exact absurd hown (hdirect c e a)
    · exact absurd hown (hpass n)
  | @landing n pass l S hn hh hl hid hp hr =>
    rcases h.passes hn with hhalted | hharmless
    · rw [hh] at hhalted
      cases hhalted
    · obtain ⟨hspares, hbegun⟩ := hharmless.landed l hl S hr
      refine ⟨hid ▸ hbegun, fun n' hn' => ?_⟩
      injection hn' with hn'
      exact hn' ▸ hp ▸ hspares

/-- **A clear of the cache with nothing pending stays clean.** -/
theorem move (hs : Books s) (hpending : ¬ Pending s) (ht : Books t) (h : Clean s t)
    (m : Move ev t u) : Clean s u where
  journal := List.Subset.trans h.journal (m.touch ht).suffix.subset
  next := Nat.le_trans h.next m.next_le
  passes {n pass'} hn' := by
    rcases m.known hn' with ⟨pass, hn⟩ | ⟨rfl, d, rfl⟩
    · rcases h.passes hn with hh | hh
      · exact Or.inl (m.halted ((m.goes ht hn).driver hn') hh)
      · exact Or.inr (harmless ht h.journal m hn hn' hh)
    · refine Or.inr ⟨fun p _ hlt => absurd h.next (Nat.not_le_of_lt hlt),
        fun {id call} hid ho => ?_,
        fun l hl => absurd hl List.not_mem_nil⟩
      exact absurd ((m.books ht).passes.flying_of_owner hn' hid ho) List.not_mem_nil
  entries {p S id o} hsource := by
    cases m.touch ht with
    | nothing new hc hj hnew =>
      rw [hj, source_append fun n hn => (hnew n hn).stores] at hsource
      exact h.entries hsource
    | @list id' q o' S' before after hr hb he hc hj hbefore hafter =>
      rw [hj, source_append fun n hn => (hafter n hn).stores, source] at hsource
      split at hsource
      · rename_i hq
        subst hq
        obtain ⟨-, ho⟩ := Prod.mk.inj (Option.some_inj.mp hsource)
        injection ho with hid ho
        subst hid ho
        exact received hs ht hpending h hr
      · rw [source_append fun n hn => (hbefore n hn).stores] at hsource
        exact h.entries hsource
    | @hand q S' hev hc hj =>
      rw [hj, source] at hsource
      split at hsource
      · cases hsource
      · exact h.entries hsource
    | clear hev hc hj hn =>
      rw [hj] at hsource
      rcases hn with rfl | ⟨k, rfl⟩ <;> cases hsource
  joins {c e p a id} hnot hcalled hjoined hb := by
    rcases (m.touch ht).joined hjoined with hold | rfl | ⟨q, hq⟩
    · obtain ⟨r, hr⟩ := ht.callers.called_of_joined hold
      obtain rfl := (m.books ht).callers.called_unique hcalled ((m.touch ht).suffix.subset hr)
      exact h.joins hnot hr hold hb
    · exact not_begun ht.orderly h.journal (Nat.le_refl _) hb
    · obtain ⟨call, hid, ho, -⟩ := ht.calls.underway hq
      obtain ⟨call', hid', -, ho'⟩ := hb.underway hs ht h.journal hid
      exact hpending (.fetch (hs.calls.registered hid' (ho'.trans ho)))

theorem run (hs : Books s) (hpending : ¬ Pending s) (es : List Event) :
    Clean s (s.invalidate.run es) :=
  hs.invalidate.run_induction (initial hs hpending) fun _ _ _ _ hb h m => h.move hs hpending hb m

end Clean

/-! ## The first to ask

For the second part of the barrier, a principal is followed about whom nothing is known, up to
the first event that is concerned with it. -/

/-- Nothing that the pass still has to do is about the principal's entry. -/
structure Pass.Spares (pass : Pass) (p : Principal) : Prop where
  waits : p ∉ pass.queue ++ pass.flying
  landed : ∀ l ∈ pass.landed, l.principal = p → ∀ privileges, l.reply ≠ .value privileges

/-- Nothing is known of the principal, and nothing is under way that would change that. -/
structure Absent (s : State) (p : Principal) : Prop where
  cache : s.cache.get? p = none
  fetches : s.fetches.get? p = none
  updates : ∀ {id call c}, s.calls.get? id = some call → call.owner = .update c → call.principal ≠ p
  passes : ∀ {n pass}, s.passes.get? n = some pass → s.halted pass = true ∨ pass.Spares p

namespace Absent

theorem initial (hpending : ¬ Pending s) (hf : s.settings.fetchOnMiss = true) (p : Principal) :
    Absent s.invalidate p where
  cache := rfl
  fetches := by
    cases hp : s.fetches.get? p with
    | none => exact hp
    | some f => exact absurd (.fetch hp) hpending
  updates hid ho := absurd (.update hid ho) hpending
  passes {n pass} hn := by
    have hn : s.passes.get? n = some pass := hn
    cases hh : s.halted pass with
    | true => exact Or.inl hh
    | false => exact Or.inr {
        waits := fun hw => (List.mem_append.mp hw).elim
          (fun hq => hpending (.queued hn hh hq (Or.inr hf)))
            fun hfly => hpending (.flying hn hh hfly)
        landed := fun l hl _ S hr => hpending (.landed hn hh hl hr) }

/-- A pass that has nothing to do with an entry keeps away from it. -/
theorem spares (ht : Books t) (m : Move ev t u) {p : Principal} {n : Id} {pass pass' : Pass}
    (hp : t.passes.get? n = some pass) (hp' : u.passes.get? n = some pass') (h : pass.Spares p) :
    pass'.Spares p := by
  have hshrinks := (m.goes ht hp).shrinks hp'
  refine ⟨fun hw => h.waits (hshrinks.waits hw), fun l hl hlp => ?_⟩
  rcases hshrinks.landed l hl with hl | ⟨hf, -⟩
  · exact h.landed l hl hlp
  · exact absurd (List.mem_append_right _ (hlp ▸ hf)) h.waits

/-- **Nothing becomes known of a principal that no event is concerned with.** -/
theorem move (ht : Books t) {p : Principal} (h : Absent t p) (hev : ev.concerns p = false)
    (m : Move ev t u) : Absent u p where
  cache := by
    cases m.touch ht with
    | nothing new hc => rw [hc, h.cache]
    | @list id q o S before after hr hb he hc =>
      rw [hc, Table.get?_put_of_ne, h.cache]
      rintro rfl
      cases hr with
      | @call call hid hp hpass hdirect =>
        rcases hown : call.owner with _ | c | ⟨c, e, a⟩ | n
        · have hreg := ht.calls.registered hid hown
          rw [hp, h.fetches] at hreg
          cases hreg
        · exact h.updates hid hown hp
        · exact hdirect c e a hown
        · exact hpass n hown
      | landing hn hh hl hid hp hr =>
        rcases h.passes hn with hhalted | hspares
        · rw [hh] at hhalted
          cases hhalted
        · exact hspares.landed _ hl hp _ hr
    | @hand q S hev' hc =>
      rw [hc, Table.get?_put_of_ne, h.cache]
      rintro rfl
      rw [hev', Event.concerns, beq_self_eq_true] at hev
      cases hev
    | clear hev' hc => rw [hc, Table.get?_empty]
  fetches := by
    rcases m.flight ht with hstill | ⟨c, e, q, a, hev', -, rfl⟩ |
      ⟨id, call, ending, r, hid, ho, -, -, rfl⟩
    · rw [hstill.fetches, h.fetches]
    · refine (Table.get?_put_of_ne ?_).trans h.fetches
      rintro rfl
      rw [hev', Event.concerns, beq_self_eq_true] at hev
      cases hev
    · rw [State.settleFetch_eq]
      refine (Reply.get?_unregister_of_ne ?_).trans h.fetches
      rintro rfl
      have hreg := ht.calls.registered hid ho
      rw [h.fetches] at hreg
      cases hreg
  updates {id call c} hid ho hp := by
    rcases m.begun hid with hid | ⟨-, hbegins, -⟩
    · exact h.updates hid ho hp
    · rw [ho, hp] at hbegins
      cases hbegins
      rw [Event.concerns, beq_self_eq_true] at hev
      cases hev
  passes {n pass'} hn' := by
    rcases m.known hn' with ⟨pass, hn⟩ | ⟨rfl, d, rfl⟩
    · rcases h.passes hn with hh | hh
      · exact Or.inl (m.halted ((m.goes ht hn).driver hn') hh)
      · exact Or.inr (spares ht m hn hn' hh)
    · refine Or.inr ⟨fun hw => ?_, fun l hl => absurd hl List.not_mem_nil⟩
      have hq : p ∈ t.cache.keys := (List.mem_append.mp hw).resolve_right List.not_mem_nil
      obtain ⟨S, hS⟩ := Table.mem_keys_iff.mp hq
      rw [h.cache] at hS
      cases hS

theorem run (ht : Books t) {p : Principal} (h : Absent t p) {es : List Event}
    (hes : ∀ ev ∈ es, ev.concerns p = false) : Absent (t.run es) p :=
  ht.run_induction (P := fun t => Absent t p) h fun ev hev _ _ hb h m => h.move hb (hes ev hev) m

end Absent

/-! ## Nothing pending

With nothing pending the clear is a barrier, which is what `Clean` and `Absent` were made for. -/

theorem cleared_eq (hd : s.dropped = false) (es : List Event) :
    s.cleared es = s.invalidate.run es := by
  rw [State.cleared, step_invalidate hd]

/-- Who asks about a principal of which nothing is known has a call begun. -/
theorem step_enforce_begins (h : Books t) {e : Entity} {p : Principal} {a : Action}
    (hd : t.dropped = false) (ha : t.settings.authorization = true)
    (hmiss : t.settings.caching = true → t.settings.fetchOnMiss = true ∧ Absent t p) :
    ∃ id q o, .joined t.next id ∈ (t.step (.enforce e p a)).journal
      ∧ .began id p q o ∈ (t.step (.enforce e p a)).journal ∧ ¬ t.Begun id := by
  have hnew : ¬ t.Begun (t.next + 1) :=
    not_begun h.orderly (List.Subset.refl _) (Nat.le_succ _)
  cases hc : t.settings.caching with
  | false =>
    rw [step_enforce_direct hd ha hc]
    exact ⟨t.next + 1, _, _, List.mem_cons_of_mem _ List.mem_cons_self, List.mem_cons_self, hnew⟩
  | true =>
    obtain ⟨hf, habsent⟩ := hmiss hc
    have hactive : t.settings.cachingActive = true := by
      rw [Settings.cachingActive, ha, hc]
      rfl
    rw [step_enforce_start hactive hf hd habsent.cache habsent.fetches]
    exact ⟨t.next + 1, _, _, List.mem_cons_self, List.mem_cons_of_mem _ List.mem_cons_self, hnew⟩

/-- Nothing is pending when nothing is under way. -/
theorem not_pending_of_idle (hf : s.fetches = .empty) (hc : s.calls = .empty)
    (hp : s.passes = .empty) : ¬ Pending s := by
  intro h
  cases h with
  | fetch h => cases hf ▸ h
  | update h => cases hc ▸ h
  | flying h | landed h | queued h => cases hp ▸ h

/-- **A clear with nothing pending is a barrier.** -/
theorem barrier_of_not_pending (h : Books s) (hd : s.dropped = false) (hpending : ¬ Pending s) :
    Barrier s := by
  have hclean : ∀ es, Clean s (s.cleared es) := by
    intro es
    rw [cleared_eq hd]
    exact .run h hpending es
  have hbooks : ∀ es, Books (s.cleared es) := by
    intro es
    rw [cleared_eq hd]
    exact h.invalidate.run es
  refine ⟨fun es p id o ⟨_, _, hs⟩ => ((hclean es).entries hs).1,
    fun es c e p a id hnot hcalled hjoined => (hclean es).joins hnot hcalled hjoined,
    fun es e p a hes hdropped ha hf => ?_, fun es ev p id n k hstarted hcached _ ⟨_, _, hs⟩ => ?_⟩
  · have hsettings : (s.cleared es).settings = s.settings := by
      rw [cleared_eq hd]
      exact h.invalidate.orderly.settings_run es
    rw [← hsettings] at ha
    refine step_enforce_begins (hbooks es) hdropped ha fun hc => ?_
    rw [hsettings] at hc ⊢
    refine ⟨hf hc, ?_⟩
    rw [cleared_eq hd]
    exact (Absent.initial hpending (hf hc) p).run h.invalidate hes
  · have hstep : (s.cleared es).step ev = s.cleared (es ++ [ev]) := by
      rw [State.cleared, State.cleared, run_append]
      rfl
    rw [hstep] at hs
    have hlt : n < s.next := h.orderly.notes _ hstarted n List.mem_cons_self
    exact hcached (((hclean _).entries hs).2 n rfl hlt).1

/-! ## Something pending

Conversely, for everything that can be pending there is a continuation that gets past the clear.
It is given explicitly each time: the call ends with a list, the pass launches what is in its
queue, or somebody asks and joins the fetch.  Then the list is in the cache, or the caller had no
call begun. -/

/-- The call of a pass ends with a list, and the pass looks at it. -/
theorem land_collect (h : Books t) (hcache : CacheBooks t) {id n : Id} {call : Call} {pass : Pass}
    (hid : t.calls.get? id = some call) (ho : call.owner = .pass n)
    (hn : t.passes.get? n = some pass) (hh : t.halted pass = false) (privileges : PrivilegeSet) :
    (t.step (.answer id (.value privileges))).cache = t.cache
      ∧ (t.run [.answer id (.value privileges), .collect n call.principal]).Holds call.principal id
        (.pass n)
      ∧ (t.run [.answer id (.value privileges), .collect n call.principal]).dropped
        = t.dropped := by
  have hq : call.question = .listing := h.calls.listing hid (by rw [ho]; rfl)
  have hatt : t.attended call = true := by rw [State.attended, ho]
  obtain ⟨l, hl⟩ : ∃ l : Landing, l = ⟨call.principal, id, .value privileges⟩ := ⟨_, rfl⟩
  have hn' : (t.endCall id call.principal (.listed (.value privileges))).passes.get? n
      = some pass := hn
  have hanswer : t.step (.answer id (.value privileges))
      = { t.endCall id call.principal (.listed (.value privileges)) with
        passes := t.passes.put n (pass.land l) } := by
    rw [State.step, State.answer_eq hid hatt hq, State.settle, ho, hl]
    exact State.land_eq hn' _
  have hu : Books (t.step (.answer id (.value privileges))) :=
    h.run [.answer id (.value privileges)]
  have hpass : (t.step (.answer id (.value privileges))).passes.get? n = some (pass.land l) := by
    rw [hanswer]
    exact Table.get?_put_self
  have hhalted : (t.step (.answer id (.value privileges))).halted (pass.land l) = false := by
    rw [hanswer]
    exact hh
  have hlanded : l ∈ (pass.land l).landed := List.mem_append_right _ (List.mem_singleton.mpr rfl)
  have hsource := State.source_collect hpass hhalted (hu.passes.nodup hpass) hlanded
    (show l.reply = .value privileges by rw [hl])
  have hp : l.principal = call.principal := by rw [hl]
  have hcall : l.call = id := by rw [hl]
  rw [hp, hcall] at hsource
  refine ⟨by rw [hanswer]; rfl, ⟨privileges, ?_, hsource⟩, ?_⟩
  · have hw := (hcache.run h [.answer id (.value privileges), .collect n call.principal]).source
      call.principal
    rw [hw]
    exact congrArg (Option.map Prod.fst) hsource
  · show ((t.step (.answer id (.value privileges))).collect n call.principal).dropped = t.dropped
    rw [State.collect_eq hpass hhalted (hp ▸ Pass.find?_landed (hu.passes.nodup hpass) hlanded),
      State.digest_eq]
    split
    · cases (pass.land l).driver <;> rw [hanswer] <;> rfl
    · rw [hanswer]
      rfl

/-- A pass that waits for nobody asks for the next one, and looks at the list that comes back. -/
theorem launch_land_collect (h : Books t) (hcache : CacheBooks t) {n : Id} {pass : Pass}
    {p : Principal} (hn : t.passes.get? n = some pass) (hh : t.halted pass = false)
    (hq : p ∈ pass.queue) (hflying : pass.flying = []) (privileges : PrivilegeSet) :
    (t.run [.launch n p, .answer t.next (.value privileges)]).cache = t.cache
      ∧ (t.run [.launch n p, .answer t.next (.value privileges), .collect n p]).Holds p t.next
        (.pass n)
      ∧ (t.run [.launch n p, .answer t.next (.value privileges), .collect n p]).dropped
        = t.dropped := by
  have hpar : pass.flying.length < t.parallelism := by
    rw [hflying]
    exact Nat.le_max_left ..
  have hlaunch : t.run [.launch n p]
      = { t with passes := t.passes.put n (pass.fly p) }.startCall p .listing (.pass n) :=
    State.launch_eq hn hq hpar
  have hid : (t.run [.launch n p]).calls.get? t.next = some ⟨p, .listing, .pass n, t.now,
      t.now + t.settings.backendTimeout.ceilMillis⟩ := by
    rw [hlaunch]
    exact Table.get?_put_self
  have hpass : (t.run [.launch n p]).passes.get? n = some (pass.fly p) := by
    rw [hlaunch]
    exact Table.get?_put_self
  have hhalted : (t.run [.launch n p]).halted (pass.fly p) = false := by
    rw [hlaunch]
    exact hh
  obtain ⟨hkept, hholds, hdropped⟩ := land_collect (h.run [.launch n p])
    (hcache.run h [.launch n p]) hid rfl hpass hhalted privileges
  refine ⟨hkept.trans ?_, hholds, hdropped.trans ?_⟩ <;>
  · rw [hlaunch]
    rfl

theorem CacheBooks.invalidate (h : Books s) (hcache : CacheBooks s) : CacheBooks s.invalidate :=
  hcache.touch ((move_invalidate s).touch h)

/-- What the journal says of an entry is so. -/
theorem CacheBooks.holds (h : CacheBooks s) {p : Principal} {privileges : PrivilegeSet} {id : Id}
    {o : Owner} (hs : Engine.source p s.journal = some (privileges, .call id o)) :
    s.Holds p id o := by
  refine ⟨privileges, ?_, hs⟩
  rw [h.source, hs]
  rfl

/-! ### One way past a clear for each

The five cases of `Pending` are gone through, each with the events that lead past the clear. -/

/-- A fetch that is registered gets past a clear: who comes next joins its call, or its crash. -/
theorem not_barrier_of_fetch (h : Books s) (hd : s.dropped = false) {p : Principal} {f : Fetch}
    (hp : s.fetches.get? p = some f) : ¬ Barrier s := by
  intro hb
  have henabled : (s.settings.cachingActive && s.settings.fetchOnMiss) = true := h.calls.active hp
  obtain ⟨hactive, hf⟩ := Bool.and_eq_true_iff.mp henabled
  obtain ⟨ha, hc⟩ := Bool.and_eq_true_iff.mp hactive
  have hnone : s.invalidate.cache.get? p = none := rfl
  cases f with
  | underway id =>
    have hfl : Flight s.invalidate id p := (flight_iff_underway h.invalidate).mpr hp
    have hstep := step_enforce_join (e := .space "docs") (a := .read)
      h.invalidate hactive hf hd hnone
      hfl
    have hjournal : (s.cleared [.enforce (.space "docs") p .read]).journal
        = .joined s.next id :: .missed s.next p :: .called s.next (.enforce (.space "docs") p .read)
          :: s.invalidate.journal := by
      rw [cleared_eq hd, run_cons, hstep]
      rfl
    refine hb.decides [.enforce (.space "docs") p .read] s.next (.space "docs") p .read id
      (fun hcalled => ?_) ?_ ?_ ?_
    · exact Nat.lt_irrefl _ (h.orderly.notes _ hcalled s.next List.mem_cons_self)
    · rw [hjournal]
      exact List.mem_cons_of_mem _ (List.mem_cons_of_mem _ List.mem_cons_self)
    · rw [hjournal]
      exact List.mem_cons_self
    · exact ⟨p, _, _, ((flight_iff_underway h).mpr hp).1⟩
  | broken =>
    obtain ⟨id, q, o, hj, -⟩ := hb.first [] (.space "docs") p .read
      (fun ev hev => absurd hev List.not_mem_nil) (by rw [cleared_eq hd]; exact hd) ha fun _ => hf
    rw [cleared_eq hd] at hj
    have hstep := step_enforce_miss (e := .space "docs") (a := .read)
      (s := s.invalidate) hd ha hc hf
      hnone
    have hp' : ((s.invalidate.enter (.enforce (.space "docs") p .read)).note
        (.missed s.invalidate.next p)).fetches.get? p = some .broken := hp
    rw [State.run, List.foldl_nil, hstep, State.joinFetch] at hj
    simp only [hp'] at hj
    rcases List.mem_cons.mp hj with hj | hj
    · cases hj
    · rcases List.mem_cons.mp hj with hj | hj
      · cases hj
      · rcases List.mem_cons.mp hj with hj | hj
        · cases hj
        · exact h.invalidate.orderly.silent_next rfl hj

/-- An update that is under way gets past a clear. -/
theorem not_barrier_of_update (h : Books s) (hcache : CacheBooks s) (hd : s.dropped = false)
    {id c : Id} {call : Call} (hid : s.calls.get? id = some call) (ho : call.owner = .update c) :
    ¬ Barrier s := by
  intro hb
  obtain ⟨-, r, -, hm⟩ := h.callers.owners hid (by rw [ho]; rfl)
  rw [ho] at hm
  have hatt : s.invalidate.attended call = true := by rw [State.attended, ho]
  have hanswer := State.answer_eq (s := s.invalidate) hid hatt hm.listing_of_update
    (.value (.ofList []))
  have hrun : s.cleared [.answer id (.value (.ofList []))]
      = s.invalidate.answer id (.value (.ofList [])) := cleared_eq hd _
  have hsource : source call.principal (s.cleared [.answer id (.value (.ofList []))]).journal
      = some (.ofList [], .call id (.update c)) := by
    rw [hrun, hanswer, State.settle, ho]
    exact if_pos rfl
  have hbooks : CacheBooks (s.cleared [.answer id (.value (.ofList []))]) := by
    rw [cleared_eq hd]
    exact (hcache.invalidate h).run h.invalidate _
  exact hb.holds _ _ _ _ (hbooks.holds hsource) ⟨_, _, _, h.calls.began_of_get? hid⟩

/-- A call of a pass that is under way gets past a clear. -/
theorem not_barrier_of_flying (h : Books s) (hcache : CacheBooks s) (hd : s.dropped = false)
    {n : Id} {pass : Pass} {p : Principal} (hn : s.passes.get? n = some pass)
    (hh : s.halted pass = false) (hf : p ∈ pass.flying) : ¬ Barrier s := by
  intro hb
  obtain ⟨id, call, hid, ho, rfl⟩ := h.passes.flying hn p hf
  obtain ⟨-, hholds, -⟩ := land_collect (t := s.invalidate) h.invalidate
    (hcache.invalidate h) hid ho
    hn hh (.ofList [])
  rw [← cleared_eq hd] at hholds
  exact hb.holds _ _ _ _ hholds ⟨_, _, _, h.calls.began_of_get? hid⟩

/-- A list that a pass is still to look at gets past a clear. -/
theorem not_barrier_of_landed (h : Books s) (hcache : CacheBooks s) (hd : s.dropped = false)
    {n : Id} {pass : Pass} {l : Landing} {privileges : PrivilegeSet}
    (hn : s.passes.get? n = some pass) (hh : s.halted pass = false) (hl : l ∈ pass.landed)
    (hr : l.reply = .value privileges) : ¬ Barrier s := by
  intro hb
  have hsource := State.source_collect (s := s.invalidate) hn hh (h.passes.nodup hn) hl hr
  have hrun : s.cleared [.collect n l.principal] = s.invalidate.collect n l.principal :=
    cleared_eq hd _
  have hbooks : CacheBooks (s.cleared [.collect n l.principal]) := by
    rw [cleared_eq hd]
    exact (hcache.invalidate h).run h.invalidate _
  rw [← hrun] at hsource
  exact hb.holds _ _ _ _ (hbooks.holds hsource) ⟨_, _, _, (h.passes.landed hn l hl).1⟩

/-- What a pass is still to ask for gets past a clear: it brings back an entry that was cleared, or
answers who would have asked the backend. -/
theorem not_barrier_of_queued (h : Books s) (hcache : CacheBooks s) (hd : s.dropped = false)
    {n : Id} {pass : Pass} {p : Principal} (hn : s.passes.get? n = some pass)
    (hh : s.halted pass = false) (hq : p ∈ pass.queue)
    (hm : s.cache.get? p ≠ none ∨ s.settings.fetchOnMiss = true) : ¬ Barrier s := by
  by_cases hflying : pass.flying = []
  case neg =>
    obtain ⟨q, qs, hqs⟩ := List.exists_cons_of_ne_nil hflying
    exact not_barrier_of_flying h hcache hd hn hh (hqs ▸ List.mem_cons_self)
  intro hb
  obtain ⟨hkept, hholds, hdropped⟩ := launch_land_collect (t := s.invalidate) h.invalidate
    (hcache.invalidate h) hn hh hq hflying (.ofList [])
  have hnext : s.invalidate.next = s.next := rfl
  rw [← cleared_eq hd, hnext] at hkept hholds hdropped
  rcases hm with hcached | hf
  · obtain ⟨k, hk⟩ := h.passes.started hn
    refine hb.restores [.launch n p, .answer s.next (.value (.ofList []))] (.collect n p)
      p s.next n k hk hcached ?_ hholds
    exact congrArg (fun t => t.get? p) hkept
  · -- The entry is there again, so that the next who asks is answered and has no call begun.
    obtain ⟨ha, hc⟩ := Bool.and_eq_true_iff.mp (h.passes.active hn)
    obtain ⟨u, hu⟩ : ∃ u, u = s.cleared [.launch n p, .answer s.next (.value (.ofList [])),
      .collect n p] := ⟨_, rfl⟩
    obtain ⟨id, q, o, hj, -⟩ := hb.first
      [.launch n p, .answer s.next (.value (.ofList [])), .collect n p] (.space "docs") p .read
      (by simp [Event.concerns]) (hdropped.trans hd) ha fun _ => hf
    have hbooks : Books u := by
      rw [hu, cleared_eq hd]
      exact h.invalidate.run _
    have hsettings : u.settings = s.settings := by
      rw [hu, cleared_eq hd]
      exact h.invalidate.orderly.settings_run _
    obtain ⟨S, hS, -⟩ := hholds
    rw [step_enforce_hit (hdropped.trans hd) (hu ▸ hsettings ▸ ha) (hu ▸ hsettings ▸ hc) hS,
      ← hu] at hj
    rcases List.mem_cons.mp hj with hj | hj
    · cases hj
    · rcases List.mem_cons.mp hj with hj | hj
      · cases hj
      · exact hbooks.orderly.silent_next rfl hj

/-! ### The exact condition

Both directions are put together for states that a run leads to. -/

/-- **A clear with something pending is no barrier.** -/
theorem not_barrier_of_pending (h : Books s) (hcache : CacheBooks s) (hd : s.dropped = false)
    (hpending : Pending s) : ¬ Barrier s := by
  cases hpending with
  | fetch hp => exact not_barrier_of_fetch h hd hp
  | update hid ho => exact not_barrier_of_update h hcache hd hid ho
  | flying hn hh hf => exact not_barrier_of_flying h hcache hd hn hh hf
  | landed hn hh hl hr => exact not_barrier_of_landed h hcache hd hn hh hl hr
  | queued hn hh hq hm => exact not_barrier_of_queued h hcache hd hn hh hq hm

end

/-- **A clear is a barrier exactly if nothing is under way that gets past it.**  After a run of an
engine, clearing the cache keeps out whatever the backend was asked before, in everything that can
follow, exactly if no fetch is registered, no update is under way, and no pass that goes on has a
call or a list left or an entry to renew. -/
theorem barrier_iff (settings : Settings) (checks : Bool) (es : List Event)
    (hd : ((State.initial settings checks).run es).dropped = false) :
    Barrier ((State.initial settings checks).run es)
      ↔ ¬ Pending ((State.initial settings checks).run es) := by
  have hb := Books.initial settings checks
  have h := hb.run es
  have hcache := (CacheBooks.initial settings checks).run hb es
  refine ⟨fun hbarrier hpending => ?_, barrier_of_not_pending h hd⟩
  exact not_barrier_of_pending h hcache hd hpending hbarrier

/-- After an update has ended and a pass has been worked off, a clear is a barrier. -/
theorem barrier_iff_after_pass :
    let p : Principal := ⟨.user, "alice"⟩
    let S : PrivilegeSet := .ofList [⟨.space "docs", .read⟩]
    let s := (State.initial { authorization := true } true).run [.update p, .answer 1 (.value S),
      .iterate, .launch 3 p, .answer 4 (.value S), .collect 3 p]
    s.dropped = false ∧ s.cache.get? p = some S ∧ Barrier s := by
  intro p S s
  have hidle : ¬ Pending s := not_pending_of_idle (Table.ext_entries (by decide))
    (Table.ext_entries (by decide)) (Table.ext_entries (by decide))
  exact ⟨by decide, by decide, (barrier_iff { authorization := true } true _ (by decide)).mpr hidle⟩

/-- A pass that is under way when the cache is cleared puts a list into it that was asked for
before. -/
theorem stale_list_after_invalidate :
    let p : Principal := ⟨.user, "alice"⟩
    let e : Entity := .space "docs"
    let S : PrivilegeSet := .ofList [⟨e, .read⟩]
    let s := (State.initial { authorization := true } true).run [.update p, .answer 1 (.value S),
      .iterate, .launch 3 p]
    let t := s.cleared [.answer 4 (.value S), .collect 3 p]
    s.Begun 4 ∧ (s.cleared []).cache.get? p = none ∧ t.Holds p 4 (.pass 3)
      ∧ .returned t.next .allowed ∈ (t.step (.enforce e p .read)).journal ∧ ¬ Barrier s := by
  intro p e S s t
  have hbegun : s.Begun 4 := ⟨p, .listing, .pass 3, by decide⟩
  have hholds : t.Holds p 4 (.pass 3) := ⟨S, by decide, by decide⟩
  exact ⟨hbegun, by decide, hholds, by decide, fun hb => hb.holds _ _ _ _ hholds hbegun⟩

end Gatekeeper.Engine

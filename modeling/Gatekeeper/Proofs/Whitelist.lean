import Gatekeeper.Proofs.Renewal

/-!
# An engine that does not fetch

An engine may be told not to fetch what it does not find in its cache.  Then a decision is a look at
the cache and nothing else, and the cache is a list of those who may be let in at all: nobody gets
onto it but by an update.  A pass only renews what it was opened over, even when the cache has been
cleared in the meantime, and so it puts nobody on the list who was not on it before.

* `State.Renewed` — somebody has had the entry of the principal renewed, and was told that it is.
* `Vouched`, `Move.vouched` — whatever is written, or will be written by a pass, is about somebody
  whose entry has been renewed; the moves keep it so.
* `State.reading` — what the cache says of an action.
* `Whitelisted` and `whitelist` — what is so after every run.

Not to fetch turns the cache into a list that nothing but an update extends.  For this to be
of use it must hold against everything else that writes into the cache, and the one thing that
does so without being asked about a principal is a pass.  It was opened over those in the cache,
and so its principals have been vouched for before.
-/

set_option autoImplicit false

namespace Gatekeeper.Engine

/-- Somebody has had the entry of the principal renewed, and was told that it is. -/
def State.Renewed (s : State) (p : Principal) : Prop :=
  ∃ c, .called c (.update p) ∈ s.journal ∧ .returned c .updated ∈ s.journal

/-- Whatever has been written, or will be written by a pass, is about somebody whose entry has been
renewed. -/
structure Vouched (s : State) : Prop where
  written : ∀ {p privileges o}, .stored p privileges o ∈ s.journal → s.Renewed p
  passes : ∀ {n pass}, s.passes.get? n = some pass → ∀ p ∈ pass.principals, s.Renewed p

/-- What the cache says about an action of the principal. -/
def State.reading (s : State) (e : Entity) (p : Principal) (a : Action) : Outcome :=
  match s.cache.get? p with
  | some privileges => decision privileges e p a
  | none => .failed (.permissionDenied p e a)

section

variable {ev : Event} {s t : State} {p : Principal}

theorem State.Renewed.mono (h : s.Renewed p) (hsub : s.journal ⊆ t.journal) : t.Renewed p := by
  obtain ⟨c, hc, hr⟩ := h
  exact ⟨c, hsub hc, hsub hr⟩

/-- What an update has written was written for a caller that has been told so. -/
theorem UpdateBooks.renewed (h : UpdateBooks s) (hc : CacheBooks s) {c id : Id}
    {privileges : PrivilegeSet} (hs : .stored p privileges (.call id (.update c)) ∈ s.journal) :
    s.Renewed p := by
  obtain ⟨hcalled, -, hstory⟩ := h.begun (hc.listed hs).1
  have hthread : .stored p privileges (.call id (.update c)) ∈ thread Note.update? c s.journal :=
    mem_thread.mpr ⟨hs, rfl⟩
  cases hstory with
  | renewed _ hr => exact ⟨c, hcalled, hr⟩
  | underway _ _ ht | failed _ _ _ _ ht | left _ _ ht =>
    rw [ht] at hthread
    simp at hthread

theorem Vouched.initial (settings : Settings) (checks : Bool) :
    Vouched (.initial settings checks) where
  written h := absurd h List.not_mem_nil
  passes h := by cases h

/-- Whoever has an entry has had it renewed. -/
theorem Vouched.cached (h : Vouched s) (hc : CacheBooks s) (hp : p ∈ s.cache.keys) :
    s.Renewed p := by
  obtain ⟨S, hS⟩ := Table.mem_keys_iff.mp hp
  rw [hc.source, Option.map_eq_some_iff] at hS
  obtain ⟨x, hx, -⟩ := hS
  exact h.written (stored_of_source hx)

/-- **The moves put nobody into the cache for whom no update can vouch**, if there is no fetching
and nobody writes by hand. -/
theorem Move.vouched (hb : Books s) (hc : CacheBooks s) (hu : UpdateBooks t)
    (hf : Owner.fetch.enabled s.settings = false) (hev : ∀ p privileges, ev ≠ .write p privileges)
    (h : Vouched s) (m : Move ev s t) : Vouched t := by
  have htouch := m.touch hb
  have hsub := htouch.suffix.subset
  have hct := hc.touch htouch
  refine ⟨fun {p S o} hstored => ?_, fun {n pass} hn p hp => ?_⟩
  · cases htouch with
    | nothing new _ hj hnew =>
      rw [hj] at hstored
      rcases List.mem_append.mp hstored with hn | hs
      · cases (hnew _ hn).stores
      · exact (h.written hs).mono hsub
    | @list id q ow S' before after hr _ _ _ hj hbefore hafter =>
      rw [hj] at hstored
      rcases List.mem_append.mp hstored with hn | hs
      · cases (hafter _ hn).stores
      rcases List.mem_cons.mp hs with hnew | hs
      · injection hnew with hp hS ho
        subst hp hS ho
        have hwritten : .stored p S (.call id ow) ∈ t.journal := by
          rw [hj]
          exact List.mem_append_right _ List.mem_cons_self
        -- the list comes from an update, which vouches for it, or from a pass, which is vouched for
        cases hr with
        | @call call hid _ hpass hdirect =>
          cases ho : call.owner with
          | fetch =>
            have he := hb.calls.enabled hid
            rw [ho, hf] at he
            cases he
          | update c => exact hu.renewed hct (ho ▸ hwritten)
          | direct c e a => exact absurd ho (hdirect c e a)
          | pass n => exact absurd ho (hpass n)
        | landing hn _ hl _ hq =>
          refine (h.passes hn p ?_).mono hsub
          exact List.mem_append_right _ (List.mem_map.mpr ⟨_, hl, hq⟩)
      · rcases List.mem_append.mp hs with hn | hs
        · cases (hbefore _ hn).stores
        · exact (h.written hs).mono hsub
    | hand hw => exact absurd hw (hev _ _)
    | clear _ _ hj hn =>
      rw [hj] at hstored
      rcases List.mem_cons.mp hstored with rfl | hs
      · rcases hn with hn | ⟨k, hn⟩ <;> cases hn
      · exact (h.written hs).mono hsub
  · rcases m.known hn with ⟨pass', hn'⟩ | ⟨-, d, rfl⟩
    · have hshrinks := (m.goes hb hn').shrinks hn
      refine (h.passes hn' p ?_).mono hsub
      rcases List.mem_append.mp hp with hp | hp
      · exact List.mem_append_left _ (hshrinks.waits hp)
      · obtain ⟨l, hl, rfl⟩ := List.mem_map.mp hp
        rcases hshrinks.landed l hl with hl | ⟨hl, -⟩
        · exact List.mem_append_right _ (List.mem_map_of_mem hl)
        · exact List.mem_append_left _ (List.mem_append_right _ hl)
    · have hkeys : p ∈ s.cache.keys := by simpa [Pass.principals] using hp
      exact (h.cached hc hkeys).mono hsub

theorem Vouched.run (h : Vouched s) (hb : Books s) (hc : CacheBooks s) (hu : UpdateBooks s)
    (hf : Owner.fetch.enabled s.settings = false) {es : List Event}
    (hes : ∀ p privileges, .write p privileges ∉ es) : Vouched (s.run es) := by
  refine (hb.run_induction (P := fun t => t.settings = s.settings ∧ CacheBooks t ∧ UpdateBooks t
    ∧ Vouched t) ⟨rfl, hc, hu, h⟩ ?_).2.2.2
  intro ev hev t u hb ⟨hs, hc, hu, h⟩ m
  have hu' := hu.move hb hc m
  exact ⟨m.settings.trans hs, hc.touch (m.touch hb), hu',
    m.vouched hb hc hu' (hs ▸ hf) (fun p S he => hes p S (he ▸ hev)) h⟩

/-! ## A look at the cache

The whole state after an enforcement is given, so that nothing can have happened beside it. -/

/-- Whoever is told at once leaves no more behind than question and answer. -/
theorem finish_enter (h : Orderly s) (r : Request) (o : Outcome) : (s.enter r).finish s.next o
    = { s with
      next := s.next + 1
      journal := .returned s.next o :: .called s.next r :: s.journal } := by
  have hidle : (s.enter r).callers.erase s.next = s.callers :=
    Table.erase_eq_self h.get?_callers_next
  rw [State.finish, State.note, hidle]
  rfl

/-- An engine that keeps a cache and does not fetch decides in one step. -/
theorem step_enforce_read (h : Orderly s) (ha : s.settings.cachingActive = true)
    (hf : s.settings.fetchOnMiss = false) (hd : s.dropped = false) (e : Entity) (p : Principal)
    (a : Action) : s.step (.enforce e p a) = { s with
      next := s.next + 1
      journal := .returned s.next (s.reading e p a) :: .called s.next (.enforce e p a)
        :: s.journal } := by
  obtain ⟨hauth, hcaching⟩ := Bool.and_eq_true_iff.mp ha
  cases hp : s.cache.get? p with
  | none =>
    rw [step_enforce_unfetched hd hauth hcaching hf hp, finish_enter h, State.reading, hp]
  | some privileges =>
    rw [step_enforce_hit hd hauth hcaching hp, finish_enter h, State.reading, hp]

end

/-! ## What is promised

What an enforcement does, what it reads, and who can have an entry. -/

/-- What is so of an engine that keeps a cache and does not fetch. -/
structure Whitelisted (s : State) : Prop where
  unfetched : s.fetches = .empty
  /-- The backend is called for updates and for passes alone. -/
  calls : ∀ {id call}, s.calls.get? id = some call →
    (∃ c, call.owner = .update c) ∨ ∃ n, call.owner = .pass n
  /-- A decision is over in the step in which it was asked for, and leaves no more behind than
  question and answer: no call, no fetch, no caller that waits, and the cache as it was. -/
  reads : s.dropped = false → ∀ e p a, s.step (.enforce e p a) = { s with
    next := s.next + 1
    journal := .returned s.next (s.reading e p a) :: .called s.next (.enforce e p a) :: s.journal }
  /-- Only those have an entry who have had it renewed. -/
  listed : ∀ p ∈ s.cache.keys, s.Renewed p
  /-- Everybody else is denied everything. -/
  denied : ∀ {p}, ¬ s.Renewed p → ∀ e a, s.reading e p a = .failed (.permissionDenied p e a)

/-- **An engine that does not fetch reads a list of those who may be let in**, and nobody gets onto
the list but by an update that has succeeded.  That is so after every run in which nobody writes
into the cache by hand, whatever backends answer, and however passes, clears and updates overlap. -/
theorem whitelist (settings : Settings) (checks : Bool) (ha : settings.cachingActive = true)
    (hf : settings.fetchOnMiss = false) (es : List Event)
    (hes : ∀ p privileges, .write p privileges ∉ es) :
    Whitelisted ((State.initial settings checks).run es) := by
  have hinit := Books.initial settings checks
  have hcinit := CacheBooks.initial settings checks
  have hoff : Owner.fetch.enabled settings = false := by simp [Owner.enabled, hf]
  have hb := hinit.run es
  have hc := hcinit.run hinit es
  have hs := hinit.orderly.settings_run es
  have hvouched : Vouched ((State.initial settings checks).run es) :=
    (Vouched.initial settings checks).run hinit hcinit (UpdateBooks.initial settings checks)
      hoff hes
  generalize (State.initial settings checks).run es = s at hb hc hs hvouched
  have hs : s.settings = settings := hs
  refine ⟨?_, fun {id call} hid => ?_, step_enforce_read hb.orderly (hs ▸ ha) (hs ▸ hf),
    fun p hp => hvouched.cached hc hp, fun {p} hp e a => ?_⟩
  · have hnone : ∀ p, s.fetches.get? p = none := by
      refine fun p => Option.eq_none_iff_forall_ne_some.mpr fun f hp => ?_
      have hon := hb.calls.active hp
      rw [hs, hoff] at hon
      cases hon
    refine Table.ext_get? (List.eq_nil_iff_forall_not_mem.mpr fun p => ?_) hnone
    exact Table.get?_eq_none_iff.mp (hnone p)
  · have hon := hb.calls.enabled hid
    rw [hs] at hon
    cases ho : call.owner with
    | update c => exact .inl ⟨c, rfl⟩
    | pass n => exact .inr ⟨n, rfl⟩
    | fetch =>
      rw [ho, hoff] at hon
      cases hon
    | direct c e a =>
      have hcaching := (Bool.and_eq_true_iff.mp ha).2
      simp [ho, Owner.enabled, hcaching] at hon
  · have hp : s.cache.get? p = none := Table.get?_eq_none_iff.mpr (mt (hvouched.cached hc) hp)
    rw [State.reading, hp]

/-- Alice has had her entry renewed, and a pass is opened over it.  The cache is cleared before the
list of the pass comes back and is put into it.  Alice is allowed what the list says, and Bob, about
whom everybody has asked and nobody has done anything, is denied it. -/
theorem whitelist_of_late_pass :
    let settings : Settings := { authorization := true, fetchOnMiss := false }
    let alice : Principal := ⟨.user, "alice"⟩
    let bob : Principal := ⟨.user, "bob"⟩
    let e : Entity := .space "docs"
    let S : PrivilegeSet := .ofList [⟨e, .read⟩]
    let es : List Event := [.update alice, .answer 1 (.value S), .enforce e bob .read, .iterate,
      .launch 4 alice, .invalidate, .answer 5 (.value S), .collect 4 alice]
    let s := (State.initial settings true).run es
    settings.cachingActive = true ∧ settings.fetchOnMiss = false
      ∧ (∀ p privileges, .write p privileges ∉ es) ∧ Whitelisted s ∧ s.Renewed alice
      ∧ s.reading e alice .read = .allowed
      ∧ s.reading e bob .read = .failed (.permissionDenied bob e .read) := by
  intro settings alice bob e S es s
  have hes : ∀ p privileges, Event.write p privileges ∉ es := by
    intro p privileges h
    simp [es] at h
  have hs : Whitelisted s := whitelist settings true rfl rfl es hes
  refine ⟨rfl, rfl, hes, hs, hs.listed alice (by decide), by decide, hs.denied ?_ e .read⟩
  rintro ⟨c, hc, -⟩
  have hnone : ∀ n ∈ s.journal, ∀ c ∈ n.caller?, n ≠ .called c (.update bob) := by decide
  exact hnone _ hc c rfl rfl

end Gatekeeper.Engine

import Gatekeeper.Proofs.Provenance
import Gatekeeper.Proofs.SingleFlight

/-!
# One round trip for each principal

An enforcement about a principal that has a cache entry is decided on the spot.  Any other has the
list fetched, and the fetch that brings a list back leaves an entry behind; entries only ever go
when the cache is cleared.  So between two clears a principal costs one successful round trip at
most, however many enforcements, updates and passes there are: every further fetch for it follows
upon one that failed or took too long.

* `State.issues`, `State.registers` — what an enforcement asks the backend in a step, and the
  principals for whom a fetch comes to be registered in it.
* `State.landings` — how the fetches for a principal have ended.
* `step_landings`, `Stretch` — what one step adds to these endings, and what a run without a clear
  comes to.
* `OneRoundTrip`, `one_round_trip` — what is promised of every run.

What is counted is read off the journal, and what is bounded are ends of fetches and not
beginnings: a fetch that is begun has ended or is still registered, and only one can be
registered for a principal at a time.  So the number of fetches that a stretch of a run begins
for a principal is bounded by what is known of their ends.
-/

set_option autoImplicit false

namespace Gatekeeper.Engine

/-! ## What is counted

A round trip is a call for a list that an enforcement has begun.  Such calls, the registrations
of fetches, and the ends of fetches can all be counted from the journal, step by step. -/

/-- What the backend is asked in a call that begins, and about whom. -/
def Note.asked? : Note → Option (Principal × Question)
  | .began _ p q _ => some (p, q)
  | _ => none

/-- What is noted on the way from `s` to a later state. -/
def State.notesTo (s t : State) : List Note := t.journal.take (t.journal.length - s.journal.length)

/-- What the backend is asked because of an enforcement when the event happens. -/
def State.issues (s : State) : Event → List (Principal × Question)
  | .enforce e p a => (s.notesTo (s.step (.enforce e p a))).filterMap Note.asked?
  | _ => []

/-- The principals for whom a fetch comes to be registered when the event happens. -/
def State.registers (s : State) (ev : Event) : List Principal :=
  (s.step ev).fetches.keys.filter fun p => decide (p ∉ s.fetches.keys)

/-- What the steps of a run come to, one after the other. -/
def State.along {α : Type} (f : State → Event → List α) : State → List Event → List α
  | _, [] => []
  | s, ev :: es => f s ev ++ along f (s.step ev) es

/-- The call came back with a list. -/
def Ending.succeeds : Ending → Bool
  | .listed (.value _) => true
  | _ => false

/-- The call failed, or nobody waited for it any longer. -/
def Ending.fails : Ending → Bool
  | .listed (.failed _) | .timedOut => true
  | _ => false

/-- How a note of the end of a call for the principal reads, if a fetch has begun the call. -/
def State.landing? (s : State) (p : Principal) : Note → Option Ending
  | .ended id _ ending => if .began id p .listing .fetch ∈ s.journal then some ending else none
  | _ => none

/-- How the fetches for the principal have ended, newest first. -/
def State.landings (s : State) (p : Principal) : List Ending := s.journal.filterMap (s.landing? p)

section

variable {s t : State} {ev : Event} {p : Principal} {new : List Note}

theorem State.notesTo_eq (new : List Note) (h : t.journal = new ++ s.journal) :
    s.notesTo t = new := by
  rw [notesTo, h, List.length_append, Nat.add_sub_cancel]
  exact List.take_left

theorem State.notesTo_append (h : s.journal <:+ t.journal) :
    s.notesTo t ++ s.journal = t.journal := by
  obtain ⟨new, hj⟩ := h
  rw [notesTo_eq new hj.symm, hj]

theorem State.registers_of_eq (h : (s.step ev).fetches = s.fetches) : s.registers ev = [] := by
  rw [registers, h, List.filter_eq_nil_iff]
  intro q hq
  rw [decide_eq_true_iff, not_not]
  exact hq

/-! ## What a step issues

An enforcement that misses registers a fetch and begins its call in one step, or joins a fetch
that is there and begins none.  So the two counts agree, step by step and along a run. -/

/-- The end of a fetch registers none. -/
theorem registers_of_unregister {r : Reply PrivilegeSet} (hr : r ≠ .crashed)
    (h : (s.step ev).fetches = r.unregister p s.fetches) : s.registers ev = [] := by
  rw [State.registers, h, List.filter_eq_nil_iff]
  intro q hq
  rw [decide_eq_true_iff, not_not]
  obtain ⟨f, hf⟩ := Table.mem_keys_iff.mp hq
  refine Table.mem_keys_iff.mpr ⟨f, ?_⟩
  by_cases he : q = p
  · subst he
    rw [Reply.get?_unregister_self, if_neg hr] at hf
    cases hf
  · rwa [Reply.get?_unregister_of_ne he] at hf

/-- **An enforcement asks for a list exactly when it registers a fetch**, and nothing else
registers one. -/
theorem issues_eq (h : Books s) (ha : s.settings.cachingActive = true)
    (hf : s.settings.fetchOnMiss = true) (hu : Unbroken s) (hev : ∀ id, ev ≠ .answer id .crashed) :
    s.issues ev = (s.registers ev).map (·, .listing) := by
  have hrest : (∀ e p a, ev ≠ .enforce e p a) → s.registers ev = [] := by
    intro hne
    rcases step_flight h ha hf hu ev with hs | ⟨e, p, a, he, -⟩ |
      ⟨id, call, ending, r, -, -, he, hstep⟩
    · exact State.registers_of_eq hs.fetches
    · exact absurd he (hne e p a)
    · refine registers_of_unregister (he.not_crashed hev) (p := call.principal) ?_
      rw [hstep, State.settleFetch_eq]
      rfl
  cases ev with
  | enforce e p a =>
    by_cases hd : s.dropped = true
    · have hstep : s.step (.enforce e p a) = s := step_of_dropped hd rfl
      rw [State.issues, State.notesTo_eq [] (by rw [hstep]; rfl),
        State.registers_of_eq (by rw [hstep])]
      rfl
    rw [Bool.not_eq_true] at hd
    cases hc : s.cache.get? p with
    | some S =>
      have hactive := ha
      rw [Settings.cachingActive, Bool.and_eq_true] at hactive
      have hstep := step_enforce_hit (e := e) (a := a) hd hactive.1 hactive.2 hc
      rw [State.issues, State.notesTo_eq [.returned s.next (State.decision S e p a),
        .called s.next (.enforce e p a)] (by rw [hstep]; rfl),
        State.registers_of_eq (by rw [hstep]; rfl)]
      rfl
    | none =>
      cases hp : s.fetches.get? p with
      | none =>
        have hstep := step_enforce_start (e := e) (a := a) ha hf hd hc hp
        have hkeys : (s.step (.enforce e p a)).fetches.keys = s.fetches.keys ++ [p] := by
          rw [hstep]
          exact (Entries.keys_put _ _ _).trans (if_neg (Table.get?_eq_none_iff.mp hp))
        have hnone : s.fetches.keys.filter (fun q => decide (q ∉ s.fetches.keys)) = [] :=
          List.filter_eq_nil_iff.mpr fun q hq => by simpa using hq
        rw [State.issues, State.notesTo_eq [.joined s.next (s.next + 1),
          .began (s.next + 1) p .listing .fetch, .missed s.next p, .called s.next (.enforce e p a)]
          (by rw [hstep]; rfl), State.registers, hkeys, List.filter_append, hnone,
          List.filter_cons_of_pos (by simpa using Table.get?_eq_none_iff.mp hp)]
        rfl
      | some f =>
        cases f with
        | broken => exact absurd hp (hu p)
        | underway id =>
          have hstep := step_enforce_join (e := e) (a := a) h ha hf hd hc
            ((flight_iff_underway h).mpr hp)
          rw [State.issues, State.notesTo_eq [.joined s.next id, .missed s.next p,
            .called s.next (.enforce e p a)] (by rw [hstep]; rfl),
            State.registers_of_eq (by rw [hstep]; rfl)]
          rfl
  | _ =>
    rw [hrest fun e p a he => by cases he]
    rfl

theorem along_issues_eq (h : Books s) (ha : s.settings.cachingActive = true)
    (hf : s.settings.fetchOnMiss = true) (hu : Unbroken s) {es : List Event}
    (hes : ∀ id, .answer id .crashed ∉ es) :
    s.along State.issues es = (s.along State.registers es).map (·, .listing) := by
  induction es generalizing s with
  | nil => rfl
  | cons ev es ih =>
    have hev : ∀ id, ev ≠ .answer id .crashed := fun id he => hes id (he ▸ List.mem_cons_self)
    have hs : (s.step ev).settings = s.settings := h.orderly.settings_run [ev]
    have hunbroken : Unbroken (s.run [ev]) :=
      hu.run h fun id hm => hev id (List.mem_singleton.mp hm).symm
    rw [State.along, State.along, List.map_append, issues_eq h ha hf hu hev]
    exact congrArg _ (ih (h.run [ev]) (hs ▸ ha) (hs ▸ hf) hunbroken fun id hm =>
      hes id (List.mem_cons_of_mem _ hm))

/-! ## How fetches end

The end of a fetch is noted once, and in the step in which the fetch goes.  If it came back with
a list, there is an entry from then on, until the cache is cleared. -/

/-- What has ended does not end again. -/
theorem CallBooks.ended_once (h : CallBooks t) (hj : t.journal = new ++ s.journal) {id : Id}
    {q : Principal} {ending : Ending} (he : .ended id q ending ∈ new) :
    .ended id q ending ∉ s.journal := by
  intro hs
  have hstory := h.story id
  rw [hj, thread_append] at hstory
  have hnew : Note.ended id q ending ∈ thread Note.call? id new := mem_thread.mpr ⟨he, rfl⟩
  have hold : Note.ended id q ending ∈ thread Note.call? id s.journal := mem_thread.mpr ⟨hs, rfl⟩
  have htwice : 2 ≤ (thread Note.call? id new ++ thread Note.call? id s.journal).count
      (.ended id q ending) := by
    rw [List.count_append]
    exact Nat.add_le_add (List.count_pos_iff.mpr hnew) (List.count_pos_iff.mpr hold)
  generalize thread Note.call? id new ++ thread Note.call? id s.journal = l at hstory htwice
  generalize t.calls.get? id = g at hstory
  cases hstory with
  | unknown => simp at htwice
  | underway call => simp at htwice
  | ended q' o' hq =>
    rw [List.count_cons, List.count_cons_of_ne (by simp), List.count_nil] at htwice
    split at htwice <;> omega
  | dropped => simp at htwice

/-- The end of a call reads the same ever after. -/
theorem landing?_later (hs : CallBooks s) (ht : CallBooks t) (hj : t.journal = new ++ s.journal)
    {n : Note} (hn : n ∈ s.journal) : t.landing? p n = s.landing? p n := by
  cases n with
  | ended id q ending =>
    obtain ⟨-, ⟨question, o, hb⟩, -⟩ := hs.of_ended hn
    have hiff : .began id p .listing .fetch ∈ t.journal
        ↔ .began id p .listing .fetch ∈ s.journal := by
      rw [hj]
      refine ⟨fun hb' => ?_, List.mem_append_right _⟩
      rw [← hj] at hb'
      obtain ⟨rfl, rfl, rfl⟩ := ht.began_unique hb' (hj ▸ List.mem_append_right _ hb)
      exact hb
    exact if_congr hiff rfl rfl
  | _ => rfl

theorem landings_append (hs : CallBooks s) (ht : CallBooks t) (hj : t.journal = new ++ s.journal) :
    t.landings p = new.filterMap (t.landing? p) ++ s.landings p := by
  rw [State.landings, hj, List.filterMap_append]
  exact congrArg _ (List.filterMap_congr fun n hn => landing?_later hs ht hj hn)

/-- Where fetches have no part none ends. -/
theorem landings_of_still (h : Books s) (hs : Still s (s.step ev)) :
    (s.step ev).landings p = s.landings p := by
  obtain ⟨new, hj⟩ := h.suffix_run [ev]
  have hj : (s.step ev).journal = new ++ s.journal := hj.symm
  have ht : Books (s.step ev) := h.run [ev]
  rw [landings_append h.calls ht.calls hj, List.filterMap_eq_nil_iff.mpr fun n hn => ?_]
  · rfl
  cases n with
  | ended id q ending =>
    refine if_neg fun hb => ?_
    have hmem : .ended id q ending ∈ (s.step ev).journal := hj ▸ List.mem_append_left _ hn
    obtain ⟨call, hid, -, -⟩ := step_ended h (ht.calls.ended_once hj hn) hmem
    have hbegan : .began id call.principal call.question call.owner ∈ (s.step ev).journal :=
      hj ▸ List.mem_append_right _ (h.calls.began_of_get? hid)
    obtain ⟨-, -, ho⟩ := ht.calls.began_unique hb hbegan
    exact ht.calls.not_ended ((hs.calls id call ho.symm).mpr hid) hmem
  | _ => rfl

/-- The end of a fetch is one of the endings for its principal, and of no other. -/
theorem landings_of_ends (h : Books s) {id : Id} {call : Call} {ending : Ending}
    {r : Reply PrivilegeSet} (hid : s.calls.get? id = some call) (ho : call.owner = .fetch)
    (hstep : s.step ev = (s.endCall id call.principal ending).settleFetch id call.principal r) :
    (s.step ev).landings p = (if call.principal = p then [ending] else []) ++ s.landings p := by
  have ht : Books (s.step ev) := h.run [ev]
  obtain ⟨notes, hnotes, hnone⟩ : ∃ notes : List Note,
      (s.step ev).journal = (notes ++ [.ended id call.principal ending]) ++ s.journal
        ∧ ∀ n ∈ notes, (s.step ev).landing? p n = none := by
    rw [hstep, State.settleFetch_eq]
    refine ⟨(((s.endCall id call.principal ending).fetchWaiters call.principal).map fun x =>
        Note.returned x.1 ((Request.enforce x.2.1 call.principal x.2.2).answer r)).reverse
      ++ r.notes call.principal (.call id .fetch), ?_, fun n hn => ?_⟩
    · simp [State.endCall, State.note]
    · rcases List.mem_append.mp hn with hn | hn
      · obtain ⟨x, -, rfl⟩ := List.mem_map.mp (List.mem_reverse.mp hn)
        rfl
      · obtain ⟨S, -, rfl⟩ := Reply.mem_notes_iff.mp hn
        rfl
  have hbegan := h.calls.began_of_get? hid
  rw [h.calls.listing hid (by rw [ho]; rfl), ho] at hbegan
  have hlater : .began id call.principal .listing .fetch ∈ (s.step ev).journal :=
    hnotes ▸ List.mem_append_right _ hbegan
  rw [landings_append h.calls ht.calls hnotes, List.filterMap_append,
    List.filterMap_eq_nil_iff.mpr hnone, List.nil_append]
  congr 1
  by_cases hp : call.principal = p
  · subst hp
    rw [if_pos rfl]
    exact List.filterMap_cons_some (if_pos hlater)
  · rw [if_neg hp]
    refine List.filterMap_cons_none (if_neg fun hb => hp ?_)
    exact (ht.calls.began_unique hlater hb).1

/-- What one step adds to the endings of the fetches for a principal: nothing, or the end of the
fetch that was registered, which is registered no longer and has filled the cache if it succeeded.
-/
inductive LandsOnce (s : State) (p : Principal) (t : State) : Prop
  | nothing (h : t.landings p = s.landings p)
    (hkept : s.cache.get? p ≠ none → s.fetches.get? p = none → t.fetches.get? p = none)
  | success {ending : Ending} (h : t.landings p = ending :: s.landings p)
    (hs : ending.succeeds = true) (hf : ending.fails = false) (hreg : s.fetches.get? p ≠ none)
    (hcached : t.cache.get? p ≠ none) (hgone : t.fetches.get? p = none)
  | failure {ending : Ending} (h : t.landings p = ending :: s.landings p)
    (hs : ending.succeeds = false) (hf : ending.fails = true) (hreg : s.fetches.get? p ≠ none)

theorem step_landings (h : Books s) (ha : s.settings.cachingActive = true)
    (hf : s.settings.fetchOnMiss = true) (hu : Unbroken s) (hev : ∀ id, ev ≠ .answer id .crashed)
    (p : Principal) : LandsOnce s p (s.step ev) := by
  rcases step_flight h ha hf hu ev with hs | ⟨e, q, a, -, -, hc, hq, hstep⟩ |
    ⟨id, call, ending, r, hid, ho, he, hstep⟩
  · exact .nothing (landings_of_still h hs) fun _ hp => by rw [hs.fetches]; exact hp
  · refine .nothing ?_ fun hcached hp => ?_
    · have hj : (s.step ev).journal = [.joined s.next (s.next + 1),
          .began (s.next + 1) q .listing .fetch, .missed s.next q,
          .called s.next (.enforce e q a)] ++ s.journal := by
        rw [hstep]
        rfl
      have ht : Books (s.step ev) := h.run [ev]
      rw [landings_append h.calls ht.calls hj]
      rfl
    · have hne : p ≠ q := fun he => hcached (he ▸ hc)
      rw [hstep]
      exact (Table.get?_put_of_ne hne).trans hp
  · have hcrash := he.not_crashed hev
    have hlands := landings_of_ends (p := p) h hid ho hstep
    have hfetches : (s.step ev).fetches = r.unregister call.principal s.fetches := by
      rw [hstep, State.settleFetch_eq]
      rfl
    by_cases hp : call.principal = p
    · subst hp
      rw [if_pos rfl] at hlands
      have hreg : s.fetches.get? call.principal ≠ none := by
        rw [h.calls.registered hid ho]
        simp
      have hgone : (s.step ev).fetches.get? call.principal = none := by
        rw [hfetches, Reply.get?_unregister_self, if_neg hcrash]
      cases he with
      | @answer r hev hq =>
        cases r with
        | value S =>
          refine .success hlands rfl rfl hreg ?_ hgone
          rw [hstep, State.settleFetch_eq]
          show (s.cache.put call.principal S).get? call.principal ≠ none
          rw [Table.get?_put_self]
          simp
        | failed cause => exact .failure hlands rfl rfl hreg
        | crashed => exact absurd rfl hcrash
      | expire hev ht => exact .failure hlands rfl rfl hreg
    · rw [if_neg hp] at hlands
      refine .nothing hlands fun _ hnone => ?_
      rw [hfetches, Reply.get?_unregister_of_ne (Ne.symm hp)]
      exact hnone

/-- **An entry stays until the cache is cleared.** -/
theorem step_cached (h : Books s) (hc : CacheBooks s) (hand : ev.byHand = false)
    (hev : ev ≠ .invalidate) (hp : s.cache.get? p ≠ none) : (s.step ev).cache.get? p ≠ none := by
  cases hc.rewrites h hand with
  | nothing hsame => rwa [hsame]
  | clear he => exact absurd he hev
  | @entry q S id o hb he hs hq hrest =>
    by_cases hpq : p = q
    · rw [hpq, hq]
      simp
    · rwa [hrest p hpq]

/-! ## A run without a clear

As long as the cache is not cleared, the first success leaves an entry that no enforcement
misses, so no fetch is begun after it: all ends but the last are failures. -/

/-- How the fetches for a principal have ended on the way from `s` to `t`, the cache not having been
cleared: either all of them have failed, or one has succeeded, and the principal is in the cache
with no fetch registered for it. -/
structure Stretch (s : State) (p : Principal) (t : State) (endings : List Ending) : Prop where
  landings : t.landings p = endings ++ s.landings p
  all : ∀ ending ∈ endings, ending.succeeds = !ending.fails
  none_or_one : endings.countP Ending.succeeds = 0 ∨ (endings.countP Ending.succeeds = 1
    ∧ t.cache.get? p ≠ none ∧ t.fetches.get? p = none)

theorem Stretch.refl (s : State) (p : Principal) : Stretch s p s [] where
  landings := rfl
  all _ h := absurd h List.not_mem_nil
  none_or_one := .inl rfl

theorem Stretch.step {u : State} {endings : List Ending} (h : Stretch s p t endings)
    (hl : LandsOnce t p u) (hc : t.cache.get? p ≠ none → u.cache.get? p ≠ none) :
    ∃ endings, Stretch s p u endings := by
  have hcons : ∀ {ending : Ending}, ending.succeeds = !ending.fails →
      ∀ x ∈ ending :: endings, x.succeeds = !x.fails := fun he x hx =>
    (List.mem_cons.mp hx).elim (fun e => e ▸ he) (h.all x)
  cases hl with
  | nothing hsame hkept =>
    refine ⟨endings, hsame.trans h.landings, h.all, h.none_or_one.imp_right ?_⟩
    exact fun ⟨hone, hcached, hgone⟩ => ⟨hone, hc hcached, hkept hcached hgone⟩
  | @success ending hadd hs hf hreg hcached hgone =>
    refine ⟨ending :: endings, by rw [hadd, h.landings]; rfl, hcons (by rw [hs, hf]; rfl), ?_⟩
    rcases h.none_or_one with hzero | ⟨-, -, hnone⟩
    · refine .inr ⟨?_, hcached, hgone⟩
      rw [List.countP_cons_of_pos hs, hzero]
    · exact absurd hnone hreg
  | @failure ending hadd hs hf hreg =>
    refine ⟨ending :: endings, by rw [hadd, h.landings]; rfl, hcons (by rw [hs, hf]; rfl), ?_⟩
    rcases h.none_or_one with hzero | ⟨-, -, hnone⟩
    · exact .inl (by rw [List.countP_cons_of_neg (by rw [hs]; exact Bool.false_ne_true), hzero])
    · exact absurd hnone hreg

theorem Stretch.run (h : Books s) (hcache : CacheBooks s) (ha : s.settings.cachingActive = true)
    (hf : s.settings.fetchOnMiss = true) (hu : Unbroken s) {es : List Event}
    (hes : ∀ id, .answer id .crashed ∉ es) (hand : ∀ ev ∈ es, ev.byHand = false)
    (hinv : .invalidate ∉ es) (p : Principal) : ∃ endings, Stretch s p (s.run es) endings := by
  induction es using List.reverseRecOn with
  | nil => exact ⟨[], .refl s p⟩
  | append_singleton es ev ih =>
    have hes' : ∀ id, .answer id .crashed ∉ es := fun id hm => hes id (List.mem_append_left _ hm)
    obtain ⟨endings, hstretch⟩ := ih hes'
      (fun ev hm => hand ev (List.mem_append_left _ hm)) fun hm => hinv (List.mem_append_left _ hm)
    have hlast : ev ∈ es ++ [ev] := List.mem_append_right _ List.mem_cons_self
    have hs := h.orderly.settings_run es
    rw [run_append]
    refine hstretch.step (step_landings (h.run es) (hs ▸ ha) (hs ▸ hf) (hu.run h hes') ?_ p) ?_
    · exact fun id he => hes id (he ▸ hlast)
    · exact step_cached (h.run es) (hcache.run h es) (hand ev hlast) fun he => hinv (he ▸ hlast)

/-- The endings of a stretch number one more than the failures among them, at most. -/
theorem Stretch.length_le {endings : List Ending} (h : Stretch s p t endings) :
    endings.countP Ending.succeeds ≤ 1 ∧ endings.length ≤ 1 + endings.countP Ending.fails := by
  have hone : endings.countP Ending.succeeds ≤ 1 := by
    rcases h.none_or_one with h | ⟨h, -⟩ <;> omega
  have hall : endings.countP (fun e => !e.succeeds) = endings.countP Ending.fails :=
    List.countP_congr fun e he => by rw [h.all e he, Bool.not_not]
  have hlength := List.length_eq_countP_add_countP Ending.succeeds (l := endings)
  simp only [Bool.not_eq_true, Bool.decide_eq_false] at hlength
  exact ⟨hone, by omega⟩

end

/-! ## What is promised

The three statements together: what a hit issues, what a miss issues, and what a stretch without
a clear comes to. -/

/-- What is promised of a run that starts with `s`. -/
structure OneRoundTrip (s : State) (es : List Event) : Prop where
  /-- Whoever asks about a principal that has an entry is told in the same step, and the backend is
  not called. -/
  hit : ∀ e p a privileges, (s.run es).dropped = false → (s.run es).cache.get? p = some privileges →
    let t := s.run es
    (t.step (.enforce e p a)).journal = .returned t.next (State.decision privileges e p a)
        :: .called t.next (.enforce e p a) :: t.journal
      ∧ (t.step (.enforce e p a)).calls = t.calls ∧ (t.step (.enforce e p a)).fetches = t.fetches
  /-- Enforcements ask for one list whenever a fetch is registered, and for nothing else. -/
  issues : s.along State.issues es = (s.along State.registers es).map (·, .listing)
  /-- Where the cache is not cleared one fetch for a principal succeeds at most. -/
  stretch : ∀ before between after, es = before ++ between ++ after → .invalidate ∉ between →
    ∀ p, ∃ endings, ((s.run before).run between).landings p = endings ++ (s.run before).landings p
      ∧ endings.countP Ending.succeeds ≤ 1 ∧ endings.length ≤ 1 + endings.countP Ending.fails

/-- **A principal that is not in the cache costs one round trip.**  In every run of an engine that
caches and fetches, whose backend does not crash and into whose cache nobody writes by hand, whoever
asks about a principal with an entry is told at once and without a call; enforcements make one call
for each fetch that comes to be registered; and where the cache is not cleared, one fetch for each
principal succeeds at most, so that those that end number one more than those that fail or take too
long, at most. -/
theorem one_round_trip (settings : Settings) (checks : Bool) (ha : settings.cachingActive = true)
    (hf : settings.fetchOnMiss = true) (es : List Event) (hes : ∀ id, .answer id .crashed ∉ es)
    (hand : ∀ ev ∈ es, ev.byHand = false) : OneRoundTrip (.initial settings checks) es := by
  have hb := Books.initial settings checks
  have hu : Unbroken (State.initial settings checks) := fun p => by simp [State.initial]
  refine ⟨fun e p a S hd hp => ?_, along_issues_eq hb ha hf hu hes,
    fun before between after he hinv p => ?_⟩
  · have hs : ((State.initial settings checks).run es).settings = settings :=
      hb.orderly.settings_run es
    obtain ⟨hauth, hcaching⟩ := Bool.and_eq_true_iff.mp ha
    intro t
    have hstep := step_enforce_hit (s := t) (e := e) (a := a) hd (hs ▸ hauth) (hs ▸ hcaching) hp
    rw [hstep]
    exact ⟨rfl, rfl, rfl⟩
  · have hsub : ∀ ev ∈ before ++ between, ev ∈ es := by
      intro ev hev
      rw [he]
      exact List.mem_append_left _ hev
    have hbefore : ∀ ev ∈ before, ev ∈ es := fun ev hev => hsub ev (List.mem_append_left _ hev)
    have hbetween : ∀ ev ∈ between, ev ∈ es := fun ev hev => hsub ev (List.mem_append_right _ hev)
    have hs := hb.orderly.settings_run before
    obtain ⟨endings, hstretch⟩ := Stretch.run (hb.run before)
      ((CacheBooks.initial settings checks).run hb before) (hs ▸ ha) (hs ▸ hf)
      (hu.run hb fun id hm => hes id (hbefore _ hm)) (fun id hm => hes id (hbetween _ hm))
      (fun ev hev => hand ev (hbetween ev hev)) hinv p
    exact ⟨endings, hstretch.landings, hstretch.length_le⟩

/-- The first fetch fails, an update and the second fetch come back one after the other, and only a
clear makes room for a third. -/
theorem one_round_trip_of_update :
    let s := State.initial { authorization := true } true
    let p : Principal := ⟨.user, "alice"⟩
    let e : Entity := .space "docs"
    let down : Reply PrivilegeSet := .failed (.reported "down" [])
    let es : List Event := [.enforce e p .read, .answer 1 down, .update p, .enforce e p .read,
      .answer 3 (.value (.ofList [])), .answer 5 (.value (.ofList [])), .enforce e p .read,
      .invalidate, .enforce e p .read]
    (∀ id, .answer id .crashed ∉ es) ∧ (∀ ev ∈ es, ev.byHand = false) ∧ OneRoundTrip s es
      ∧ (s.run es).landings p = [.listed (.value (.ofList [])), .listed down]
      ∧ s.along State.registers es = [p, p, p] := by
  intro s p e down es
  have hes : ∀ id, Event.answer id .crashed ∉ es := by
    intro id h
    simp [es, down] at h
  have hand : ∀ ev ∈ es, ev.byHand = false := by decide
  exact ⟨hes, hand, one_round_trip { authorization := true } true rfl rfl es hes hand, by decide,
    by decide⟩

end Gatekeeper.Engine

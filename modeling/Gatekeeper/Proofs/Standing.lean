import Gatekeeper.Proofs.Aftermath
import Gatekeeper.Proofs.Provenance
import Gatekeeper.Proofs.Turnaround

/-!
# Entries that stand

A list that a fetch has brought in stays in the cache until it is replaced, and what replaces it is
a later list of the same principal, unless somebody writes or clears by hand.  So where nothing else
was under way when the fetch began that could bring in an older list, the entry says what the
backend says, for as long as that does not change.

* `Since` — whatever may still get into the cache has begun since a certain state.
* `Since.cached` — what an entry can be replaced with.
* `Site.Current` — every list that has come back since says what the principal holds.
* `Site.Current.stands` — the entry stands.

An older list can only get into the cache from a call that was under way before.  So it is enough
to ask that none was when the fetch began, and to follow that whatever is under way later has
begun since.
-/

set_option autoImplicit false

namespace Gatekeeper

open Engine

namespace Engine

/-- The event wipes or writes the entry of the principal. -/
def Event.tampers (p : Principal) : Event → Bool
  | .clear | .invalidate => true
  | .write q _ => q == p
  | _ => false

/-- All that may in `t` still get into the cache for the principal has begun since `s`. -/
structure Since (s t : State) (p : Principal) : Prop where
  next : s.next ≤ t.next
  calls : ∀ {id call}, t.calls.get? id = some call →
    call.owner = .fetch ∧ call.principal ≠ p ∨ s.next ≤ id
  landed : ∀ {n pass}, t.passes.get? n = some pass → ∀ l ∈ pass.landed, s.next ≤ l.call

namespace Since

variable {s t u : State} {p : Principal} {ev : Event}

/-- No fetch is registered for the principal, and no update and no pass is under way. -/
theorem initial (h : Books s) (hc : s.settings.caching = true) (hf : s.fetches.get? p = none)
    (hu : ∀ {id call c}, s.calls.get? id = some call → call.owner ≠ .update c)
    (hp : ∀ n, s.passes.get? n = none) : Since s s p where
  next := Nat.le_refl _
  calls {id call} hid := by
    refine Or.inl ?_
    cases ho : call.owner with
    | fetch =>
      refine ⟨rfl, ?_⟩
      rintro rfl
      rw [h.calls.registered hid ho] at hf
      cases hf
    | update c => exact absurd ho (hu hid)
    | direct c e a =>
      have hon := h.calls.enabled hid
      simp [ho, Owner.enabled, hc] at hon
    | pass n =>
      obtain ⟨pass, hn, -⟩ := h.passes.flights hid ho
      rw [hp n] at hn
      cases hn
  landed {n pass} hn := by
    rw [hp n] at hn
    cases hn

theorem move (ht : Books t) (h : Since s t p) (m : Move ev t u) : Since s u p where
  next := Nat.le_trans h.next m.next_le
  calls hid := by
    rcases m.begun hid with hid | ⟨rfl, -⟩
    · exact h.calls hid
    · exact Or.inr h.next
  landed {n pass'} hn' l hl := by
    rcases m.known hn' with ⟨pass, hn⟩ | ⟨-, d, rfl⟩
    · rcases ((m.goes ht hn).shrinks hn').landed l hl with hl | ⟨-, call, hid, ho⟩
      · exact h.landed hn l hl
      · refine (h.calls hid).resolve_left fun hfetch => ?_
        rw [ho] at hfetch
        cases hfetch.1
    · exact absurd hl List.not_mem_nil

theorem step (ht : Books t) (h : Since s t p) (ev : Event) : Since s (t.step ev) p :=
  (step_moves ht.orderly ev).keeps_of_books (P := fun u => Since s u p) ht h fun hb h m =>
    h.move hb m

/-- A list that is put into the cache for the principal is that of a call that has begun since. -/
theorem received (h : Since s t p) {id : Id} {o : Owner} (hr : Received t id p o) :
    s.next ≤ id := by
  cases hr with
  | call hid hp => exact (h.calls hid).resolve_left fun hfetch => hfetch.2 hp
  | landing hn _ hl hid => exact hid ▸ h.landed hn _ hl

/-- **An entry is replaced with a list that a call has brought back since**, or it stays. -/
theorem cached (ht : Books t) (h : Since s t p)
    (hev : ev.tampers p = false) {S : PrivilegeSet} (hS : t.cache.get? p = some S) :
    (t.step ev).cache.get? p = some S ∨ ∃ id S', s.next ≤ id
      ∧ .ended id p (.listed (.value S')) ∈ (t.step ev).journal
      ∧ (t.step ev).cache.get? p = some S' := by
  rcases step_touch ht ev with hsame | htouch
  · exact Or.inl (by rw [hsame, hS])
  · cases htouch with
    | nothing new hc hj hn => exact Or.inl (by rw [hc, hS])
    | @list id q o S' before after hr hb he hc hj hbefore hafter =>
      by_cases hq : p = q
      · subst hq
        refine Or.inr ⟨id, S', h.received hr, ?_, by rw [hc, Table.get?_put_self]⟩
        rw [hj]
        exact List.mem_append_right _ (List.mem_cons_of_mem _ he)
      · exact Or.inl (by rw [hc, Table.get?_put_of_ne hq, hS])
    | @hand q S' heq hc hj =>
      subst heq
      have hq : p ≠ q := fun hpq => by simp [Event.tampers, hpq] at hev
      exact Or.inl (by rw [hc, Table.get?_put_of_ne hq, hS])
    | clear heq hc hj hn =>
      rcases heq with rfl | rfl <;> cases hev

end Since

end Engine

/-! ## At a site

A site adds the backend: what comes back of a call that has begun since is what the principal
holds, as long as that stays the same.  So whatever replaces an entry says the same as the entry. -/

namespace Backend

variable {b : Backend} {p : Principal}

/-- A list says what the principal holds, if it says anything. -/
theorem value_of_list {S : PrivilegeSet} (h : (b.list p).2 = .value S) :
    S = b.store.privileges p := by
  rw [list] at h
  split at h
  · rename_i r hr
    rw [Script.ending?] at hr
    split at hr
    · obtain rfl := Option.some_inj.mp hr
      cases h
    · obtain ⟨text, -, rfl⟩ := Option.map_eq_some_iff.mp hr
      cases h
  · simp only [Store.list] at h
    split at h
    · exact (Reply.value.inj h).symm
    · cases h

/-- A list that fails says why in a text of its own. -/
theorem reported_of_list {cause : Cause} (h : (b.list p).2 = .failed cause) :
    ∃ text, cause = .reported text [] := by
  rw [list] at h
  split at h
  · rename_i r hr
    rw [Script.ending?] at hr
    split at hr
    · obtain rfl := Option.some_inj.mp hr
      cases h
    · obtain ⟨text, -, rfl⟩ := Option.map_eq_some_iff.mp hr
      exact ⟨text, (Reply.failed.inj h).symm⟩
  · simp only [Store.list] at h
    split at h
    · cases h
    · exact ⟨_, (Reply.failed.inj h).symm⟩

end Backend

/-- The act wipes or writes the entry of the principal. -/
def Act.tampers (p : Principal) : Act → Bool
  | .ask ev => ev.tampers p
  | _ => false

namespace Site

/-- In `t` all that may still get into the cache for the principal has begun since `s`, and all that
has come back since says that the principal holds `S`. -/
structure Current (s t : Site) (p : Principal) (S : PrivilegeSet) : Prop where
  order : t.InOrder
  since : Since s.whole t.whole p
  lists : ∀ {id S'}, s.engine.next ≤ id → .ended id p (.listed (.value S')) ∈ t.journal → S' = S

namespace Current

variable {s t : Site} {p : Principal} {S : PrivilegeSet} {acts : List Act}

/-- At the beginning nothing has come back. -/
theorem initial (h : s.InOrder) (hc : s.engine.settings.caching = true)
    (hf : s.engine.fetches.get? p = none)
    (hu : ∀ {id call c}, s.engine.calls.get? id = some call → call.owner ≠ .update c)
    (hp : ∀ n, s.engine.passes.get? n = none) : Current s s p S where
  order := h
  since := .initial (s := s.whole) h.books hc hf hu hp
  lists {id S'} hid he := by
    have hlt : id < s.engine.next := h.books.orderly.notes _ he id (Note.mem_ids_of_call? rfl)
    exact absurd hlt (Nat.not_lt_of_le hid)

theorem act (h : Current s t p S) (hS : t.backend.store.privileges p = S) (act : Act) :
    Current s (t.act act) p S where
  order := h.order.act act
  since := by
    rcases t.whole_act act with ⟨-, hwhole⟩ | ⟨ev, -, hwhole⟩
    · rw [hwhole]
      exact h.since
    · rw [hwhole]
      exact h.since.step h.order.books ev
  lists {id S'} hid he := by
    by_cases hn : .ended id p (.listed (.value S')) ∈ t.journal
    · exact h.lists hid hn
    · obtain ⟨call, -, hp, hfound⟩ := h.order.found hn he
      generalize hr : Ending.listed (.value S') = ending at hfound
      cases hfound with
      | listed =>
        injection hr with hr
        rw [← hS, ← hp]
        exact Backend.value_of_list (hp ▸ hr.symm)
      | _ => cases hr

theorem run (h : Current s t p S)
    (hS : ∀ l, l <+: acts → (t.run l).backend.store.privileges p = S) :
    Current s (t.run acts) p S := by
  induction acts generalizing t with
  | nil => exact h
  | cons act acts ih =>
    exact ih (h.act (hS [] List.nil_prefix) act)
      fun l hl => hS (act :: l) (List.cons_prefix_cons.mpr ⟨rfl, hl⟩)

/-- An entry that is current stays so. -/
theorem keeps (h : Current s t p S) (hS : t.backend.store.privileges p = S)
    (hentry : t.engine.cache.get? p = some S) {act : Act} (hact : act.tampers p = false) :
    (t.act act).engine.cache.get? p = some S := by
  rcases t.whole_act act with ⟨hidle, -⟩ | ⟨ev, hev, hwhole⟩
  · rw [hidle.engine, hentry]
  · have hcache : (t.act act).engine.cache = (t.whole.step ev).cache := by rw [← hwhole]; rfl
    have htampers : ev.tampers p = false := by
      cases hev with
      | ask => exact hact
      | _ => rfl
    rcases h.since.cached h.order.books htampers hentry with
      hsame | ⟨id, S', hid, he, hput⟩
    · rw [hcache, hsame]
    · have he' : .ended id p (.listed (.value S')) ∈ (t.act act).whole.journal := hwhole ▸ he
      rw [hcache, hput, (h.act hS act).lists hid he']

/-- **An entry stands** as long as the principal holds what it says, if nobody tampers with it. -/
theorem stands (h : Current s t p S)
    (hS : ∀ l, l <+: acts → (t.run l).backend.store.privileges p = S)
    (hentry : t.engine.cache.get? p = some S) (hacts : ∀ act ∈ acts, act.tampers p = false) :
    (t.run acts).engine.cache.get? p = some S := by
  induction acts generalizing t with
  | nil => exact hentry
  | cons act acts ih =>
    have hnow : t.backend.store.privileges p = S := hS [] List.nil_prefix
    exact ih (h.act hnow act) (fun l hl => hS (act :: l) (List.cons_prefix_cons.mpr ⟨rfl, hl⟩))
      (h.keeps hnow hentry (hacts act List.mem_cons_self))
      fun a ha => hacts a (List.mem_cons_of_mem _ ha)

end Current

/-- A fetch that brings back a list makes an entry of it. -/
theorem InOrder.entry_of_fetch {s : Site} (h : s.InOrder) {act : Act} {id : Id} {p : Principal}
    {S : PrivilegeSet} (hb : .began id p .listing .fetch ∈ s.journal)
    (hn : .ended id p (.listed (.value S)) ∉ s.journal)
    (he : .ended id p (.listed (.value S)) ∈ (s.act act).journal) :
    (s.act act).engine.cache.get? p = some S := by
  rcases s.whole_act act with ⟨hidle, -⟩ | ⟨ev, -, hwhole⟩
  · exact absurd (hidle.journal ▸ he) hn
  · have he' : .ended id p (.listed (.value S)) ∈ (s.whole.step ev).journal := hwhole ▸ he
    have hcache : (s.act act).engine.cache = (s.whole.step ev).cache := by rw [← hwhole]; rfl
    rw [hcache, step_cache_of_listed h.books hb (.inl rfl) hn he', Table.get?_put_self]

end Site

end Gatekeeper

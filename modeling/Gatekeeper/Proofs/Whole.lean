import Gatekeeper.Proofs.Alike
import Gatekeeper.Proofs.Cache
import Gatekeeper.Site.Act

/-!
# The engine of a site

A site keeps the journal of its engine apart, and hands the engine an empty one at every event.
Since an engine does not read its journal, the engine with all of the journal given back runs as any
engine does, and what is so of all runs of engines is so of it.

* `Site.whole` — the engine with its journal.
* `Act.Brings`, `Site.act_cases` — the event that an act brings to the engine, if it brings any.
* `Backend.Same` — what a backend keeps while it answers calls; all that bears on its answers.
* `Site.InOrder` — what is so of a site after every run.

A site hands its engine an empty journal because the backend is to learn from what is new in it.
This file is the place where the two views are reconciled; after it a site is an engine for all
purposes of proof, with a backend beside it.
-/

set_option autoImplicit false

namespace Gatekeeper

open Engine

/-! ## What a backend keeps

A backend changes with everything that is asked of it: calls begin to sit and leave, lists are
counted.  What its answers depend on is not among this, and `Backend.Same` says so. -/

/-- Nothing has changed in the backend that bears on how it answers. -/
structure Backend.Same (b b' : Backend) : Prop where
  kind : b'.kind = b.kind
  script : b'.script = b.script
  granted : b'.store.granted = b.store.granted
  available : b'.store.available = b.store.available

namespace Backend

variable {b b' b'' : Backend}

theorem Same.refl (b : Backend) : Same b b := ⟨rfl, rfl, rfl, rfl⟩

theorem Same.trans (h : Same b b') (h' : Same b' b'') : Same b b'' where
  kind := h'.kind.trans h.kind
  script := h'.script.trans h.script
  granted := h'.granted.trans h.granted
  available := h'.available.trans h.available

/-- A backend in which nothing has changed answers as it did. -/
theorem Same.list (h : Same b b') (p : Principal) : (b'.list p).2 = (b.list p).2 := by
  rw [Backend.list, Backend.list, h.script]
  split
  · rfl
  · simp only [Store.list, h.available, Store.privileges, h.granted]

theorem begin_same (b : Backend) (t : Ticket) (q : Question) (p : Principal) (now : Nat) :
    Same b (b.begin t q p now) := by
  cases q <;> simp only [Backend.begin] <;> split <;> (try exact .refl b) <;> split <;>
    exact ⟨rfl, rfl, rfl, rfl⟩

theorem readyAt?_begin_of_ne {t t' : Ticket} (ht : t' ≠ t) (b : Backend) (q : Question)
    (p : Principal) (now : Nat) : (b.begin t q p now).readyAt? t' = b.readyAt? t' := by
  cases q <;> simp only [Backend.begin] <;> split <;> (try rfl) <;> split <;> (try rfl) <;>
    exact Table.get?_put_of_ne ht

/-- An answer leaves behind no more than a count in the store. -/
theorem list_eq (b : Backend) (p : Principal) :
    ∃ n, (b.list p).1 = { b with store := { b.store with listings := n } } := by
  rw [Backend.list]
  split
  · exact ⟨_, rfl⟩
  · exact ⟨_, rfl⟩

theorem verdict_eq (b : Backend) (e : Entity) (p : Principal) (a : Action) :
    ∃ n, (b.verdict e p a).1 = { b with store := { b.store with listings := n } } := by
  rw [Backend.verdict]
  split
  · exact ⟨_, rfl⟩
  · split
    · exact ⟨_, rfl⟩
    · exact ⟨_, rfl⟩

theorem list_same (b : Backend) (p : Principal) : Same b (b.list p).1 := by
  obtain ⟨n, h⟩ := b.list_eq p
  rw [h]
  exact ⟨rfl, rfl, rfl, rfl⟩

theorem check_eq (b : Backend) (e : Entity) (p : Principal) (a : Action) :
    ∃ n, (b.check e p a).1 = { b with store := { b.store with listings := n } } := by
  rw [Backend.check]
  split
  · exact b.verdict_eq e p a
  · exact b.list_eq p

theorem conclude_eq (b : Backend) (t : Ticket) (op : Store.Op) :
    ∃ n, b.conclude t op = { b.leave t with store := { b.store with listings := n } } := by
  cases op with
  | list p => exact (b.leave t).list_eq p
  | check e p a => exact (b.leave t).check_eq e p a
  | _ => exact ⟨_, rfl⟩

end Backend

/-! ## Acts and events

Acts are what can be done at a site; events are what can happen to an engine.  An act that does
anything to the engine brings it one event, and the event says how the call ended, if one did. -/

/-- The act changes what the backend answers from. -/
def Act.alters : Act → Bool
  | .store _ | .script _ => true
  | _ => false

/-- The event that an act brings to the engine of a site. -/
inductive Act.Brings (s : Site) : Act → Event → Prop
  | ask {ev : Event} (h : ev.ends = false) : Act.Brings s (.ask ev) ev
  /-- The owner of a call looks for its answer, and there is one. -/
  | listed {id : Id} {call : Call} (hid : s.engine.calls.get? id = some call)
    (hq : call.question = .listing) (hready : s.backend.ready (.call id) s.engine.now = true) :
    Act.Brings s (.poll id) (.answer id (s.backend.list call.principal).2)
  | checked {id : Id} {call : Call} {e : Entity} {a : Action}
    (hid : s.engine.calls.get? id = some call) (hq : call.question = .check e a) :
    Act.Brings s (.poll id) (.verdict id (s.backend.verdict e call.principal a).2)
  /-- There is no answer, and the owner looks at the clock. -/
  | clock {id : Id} (hready : s.backend.ready (.call id) s.engine.now = false) :
    Act.Brings s (.poll id) (.expire id)

namespace Site

variable {s : Site}

/-- The engine with all that has happened in it. -/
def whole (s : Site) : State := { s.engine with journal := s.journal }

/-- What an act does that brings nothing to the engine. -/
structure Idle (act : Act) (s t : Site) : Prop where
  engine : t.engine = s.engine
  journal : t.journal = s.journal
  same : act.alters = false → s.backend.Same t.backend
  kind : t.backend.kind = s.backend.kind
  script : s.backend.kind = .store → t.backend.script = s.backend.script
  /-- A call that is under way sits as long as it did. -/
  sits : ∀ id, t.backend.readyAt? (.call id) = s.backend.readyAt? (.call id)
    ∨ s.engine.calls.get? id = none ∧ t.backend.readyAt? (.call id) = none

theorem Idle.refl (act : Act) (s : Site) : Idle act s s :=
  ⟨rfl, rfl, fun _ => .refl _, rfl, fun _ => rfl, fun _ => Or.inl rfl⟩

/-- **An act is an event that happens to the engine, or leaves the engine alone.** -/
theorem act_cases (s : Site) (act : Act) : Idle act s (s.act act) ∨ ∃ ev n, act.Brings s ev
    ∧ s.act act
      = { s with backend := { s.backend with store := { s.backend.store with listings := n } } }.ask
          ev := by
  cases act with
  | ask ev =>
    rw [Site.act]
    split
    · exact Or.inl (.refl _ s)
    · rename_i h
      exact Or.inr ⟨ev, _, .ask (Bool.not_eq_true _ ▸ h), rfl⟩
  | poll id =>
    rw [Site.act, poll]
    split
    · exact Or.inl (.refl _ s)
    · rename_i call hid
      split
      · exact Or.inl (.refl _ s)
      · split
        · rename_i hready
          split
          · rename_i hq
            obtain ⟨n, hn⟩ := s.backend.list_eq call.principal
            refine Or.inr ⟨_, n, .listed hid hq hready, ?_⟩
            dsimp only
            rw [hn]
          · rename_i e a hq
            obtain ⟨n, hn⟩ := s.backend.verdict_eq e call.principal a
            refine Or.inr ⟨_, n, .checked hid hq, ?_⟩
            dsimp only
            rw [hn]
        · rename_i hready
          exact Or.inr ⟨_, _, .clock (Bool.not_eq_true _ ▸ hready), rfl⟩
  | forget id =>
    rw [Site.act]
    split
    · exact Or.inl (.refl _ s)
    · rename_i hid
      refine Or.inl ⟨rfl, rfl, fun _ => ⟨rfl, rfl, rfl, rfl⟩, rfl, fun _ => rfl, fun id' => ?_⟩
      by_cases he : id' = id
      · subst he
        exact Or.inr ⟨by simpa using hid, Table.get?_erase_self⟩
      · exact Or.inl (Table.get?_erase_of_ne fun h => he (by injection h))
  | store op =>
    exact Or.inl ⟨rfl, rfl, fun h => (by cases h), rfl, fun _ => rfl, fun _ => Or.inl rfl⟩
  | script change =>
    rw [Site.act]
    split
    · rename_i h
      refine Or.inl ⟨rfl, rfl, fun h => (by cases h), rfl, fun hk => ?_, fun _ => Or.inl rfl⟩
      simp [Backend.scripted, hk] at h
    · exact Or.inl (.refl _ s)
  | probe n q p =>
    have hsame := s.backend.begin_same (.probe n) q p s.engine.now
    refine Or.inl ⟨rfl, rfl, fun _ => hsame, hsame.kind, fun _ => hsame.script,
      fun id => Or.inl ?_⟩
    exact Backend.readyAt?_begin_of_ne (fun h => by cases h) ..
  | conclude n op =>
    obtain ⟨k, hk⟩ := s.backend.conclude_eq (.probe n) op
    rw [Site.act, hk]
    exact Or.inl ⟨rfl, rfl, fun _ => ⟨rfl, rfl, rfl, rfl⟩, rfl, fun _ => rfl,
      fun id => Or.inl (Table.get?_erase_of_ne fun h => by cases h)⟩
  | giveUp n =>
    exact Or.inl ⟨rfl, rfl, fun _ => ⟨rfl, rfl, rfl, rfl⟩, rfl, fun _ => rfl,
      fun id => Or.inl (Table.get?_erase_of_ne fun h => by cases h)⟩

/-- An event happens to the whole engine. -/
theorem whole_ask (s : Site) (ev : Event) : (s.ask ev).whole = s.whole.step ev := by
  have honto := step_onto { s.engine with journal := [] } s.journal ev
  rw [List.nil_append] at honto
  rw [whole, whole, honto]
  rfl

/-- An act is an event that happens to the whole engine, or leaves it alone. -/
theorem whole_act (s : Site) (act : Act) : Idle act s (s.act act) ∧ (s.act act).whole = s.whole
    ∨ ∃ ev, act.Brings s ev ∧ (s.act act).whole = s.whole.step ev := by
  rcases s.act_cases act with h | ⟨ev, n, hev, h⟩
  · refine Or.inl ⟨h, ?_⟩
    rw [whole, whole, h.engine, h.journal]
  · rw [h]
    exact Or.inr ⟨ev, hev, whole_ask _ ev⟩

/-! ## What the backend learns

After each event the backend is told of the calls that have begun and ended. -/

/-- The backend learns nothing that bears on its answers. -/
theorem inform_same (now : Nat) (b : Backend) (l : List Note) :
    b.Same (l.foldr (fun n b => inform now b n) b) := by
  induction l with
  | nil => exact .refl b
  | cons n l ih =>
    rw [List.foldr_cons]
    refine ih.trans ?_
    cases n with
    | began => exact Backend.begin_same ..
    | dropped id o => cases o <;> exact ⟨rfl, rfl, rfl, rfl⟩
    | _ => exact ⟨rfl, rfl, rfl, rfl⟩

theorem ask_same (s : Site) (ev : Event) : s.backend.Same (s.ask ev).backend := inform_same ..

/-- A call sits as long as it did, as long as nothing is said of it. -/
theorem readyAt?_inform (now : Nat) (b : Backend) {l : List Note} {id : Id}
    (h : ∀ n ∈ l, n.call? ≠ some id) :
    (l.foldr (fun n b => inform now b n) b).readyAt? (.call id) = b.readyAt? (.call id) := by
  induction l with
  | nil => rfl
  | cons n l ih =>
    rw [List.foldr_cons]
    refine Eq.trans ?_ (ih fun m hm => h m (List.mem_cons_of_mem _ hm))
    have hne : ∀ {id'}, n.call? = some id' → Ticket.call id ≠ .call id' := by
      intro id' hn he
      injection he with he
      exact h n List.mem_cons_self (he ▸ hn)
    cases n with
    | began => exact Backend.readyAt?_begin_of_ne (hne rfl) ..
    | ended => exact Table.get?_erase_of_ne (hne rfl)
    | dropped id o =>
      cases o with
      | pass => rfl
      | _ => exact Table.get?_erase_of_ne (hne rfl)
    | _ => rfl

/-! ## Runs of a site

A site is in order if the books of its whole engine are and no call sits in the backend that has
not begun.  Besides, the engine knows whether its backend checks by itself. -/

/-- What is so of a site after every run. -/
structure InOrder (s : Site) : Prop where
  books : Books s.whole
  cache : CacheBooks s.whole
  /-- No call sits that has not begun. -/
  fresh : ∀ id, s.engine.next ≤ id → s.backend.readyAt? (.call id) = none
  /-- Only a backend that has a script follows one. -/
  plain : s.backend.kind = .store → s.backend.script = {}
  checks : s.engine.checks = s.backend.checksItself

theorem InOrder.initial (settings : Settings) (kind : BackendKind) :
    InOrder (.initial settings kind) where
  books := .initial settings (kind == .checking)
  cache := .initial settings (kind == .checking)
  fresh _ _ := rfl
  plain _ := rfl
  checks := rfl

theorem InOrder.ask (h : InOrder s) (n : Nat) (ev : Event) :
    InOrder ({ s with backend :=
      { s.backend with store := { s.backend.store with listings := n } } }.ask ev) := by
  set u : Site := { s with backend :=
    { s.backend with store := { s.backend.store with listings := n } } } with hu
  have hwhole : (u.ask ev).whole = s.whole.step ev := u.whole_ask ev
  have hbooks : Books (u.ask ev).whole := hwhole ▸ h.books.run [ev]
  have hsame := u.ask_same ev
  refine ⟨hbooks, hwhole ▸ h.cache.run h.books [ev], fun id hid => ?_, fun hk => ?_, ?_⟩
  · refine (readyAt?_inform _ _ fun m hm hc => ?_).trans (h.fresh id ?_)
    · have hlt := hbooks.orderly.notes m (List.mem_append_left _ hm) id
        (Note.mem_ids_of_call? hc)
      exact absurd hid (Nat.not_le_of_lt hlt)
    · have hle : s.whole.next ≤ (u.ask ev).whole.next := hwhole ▸ h.books.orderly.next_le_step ev
      exact Nat.le_trans hle hid
  · exact hsame.script.trans (h.plain (hsame.kind.symm.trans hk))
  · have hchecks : (u.ask ev).whole.checks = s.whole.checks :=
      hwhole ▸ h.books.orderly.checks_run [ev]
    refine hchecks.trans (h.checks.trans ?_)
    rw [Backend.checksItself, Backend.checksItself, hsame.kind]

theorem InOrder.act (h : InOrder s) (act : Act) : InOrder (s.act act) := by
  rcases s.act_cases act with hi | ⟨ev, n, -, hs⟩
  · have hwhole : (s.act act).whole = s.whole := by rw [whole, whole, hi.engine, hi.journal]
    refine ⟨hwhole ▸ h.books, hwhole ▸ h.cache, fun id hid => ?_, fun hk => ?_, ?_⟩
    · rw [hi.engine] at hid
      exact (hi.sits id).elim (fun he => he.trans (h.fresh id hid)) And.right
    · rw [hi.kind] at hk
      exact (hi.script hk).trans (h.plain hk)
    · rw [hi.engine, h.checks, Backend.checksItself, Backend.checksItself, hi.kind]
  · rw [hs]
    exact h.ask n ev

/-- **Every run of a site leaves it in order.** -/
theorem InOrder.run (h : InOrder s) (acts : List Act) : InOrder (s.run acts) := by
  induction acts generalizing s with
  | nil => exact h
  | cons act acts ih => exact ih (h.act act)

/-! ## What the backend answers

A call that ends in an act ends with what the backend says at that moment, or because its time is
up.  And what the backend says changes only by an act that is meant to change it. -/

theorem InOrder.suffix_act (h : InOrder s) (act : Act) : s.journal <:+ (s.act act).journal := by
  rcases s.whole_act act with ⟨hi, -⟩ | ⟨ev, -, hs⟩
  · rw [hi.journal]
  · have hsuffix : s.whole.journal <:+ (s.act act).whole.journal := hs ▸ h.books.suffix_run [ev]
    exact hsuffix

/-- What has been noted at a site stays noted. -/
theorem InOrder.suffix_run (h : InOrder s) (acts : List Act) :
    s.journal <:+ (s.run acts).journal := by
  induction acts generalizing s with
  | nil => exact List.suffix_refl _
  | cons act acts ih => exact (h.suffix_act act).trans (ih (h.act act))

theorem InOrder.settings_run (h : InOrder s) (acts : List Act) :
    (s.run acts).engine.settings = s.engine.settings := by
  induction acts generalizing s with
  | nil => rfl
  | cons act acts ih =>
    refine (ih (h.act act)).trans ?_
    rcases s.whole_act act with ⟨hi, -⟩ | ⟨ev, -, hs⟩
    · rw [hi.engine]
    · have hsettings : (s.act act).whole.settings = s.whole.settings :=
        hs ▸ h.books.orderly.settings_run [ev]
      exact hsettings

/-- How a call that was under way has ended when its owner has looked. -/
inductive Found (s : Site) (id : Id) (call : Call) : Ending → Prop
  | listed (hq : call.question = .listing)
    (hready : s.backend.ready (.call id) s.engine.now = true) :
    Found s id call (.listed (s.backend.list call.principal).2)
  | checked {e : Entity} {a : Action} (hq : call.question = .check e a) (r : Reply Bool) :
    Found s id call (.checked r)
  | late (hready : s.backend.ready (.call id) s.engine.now = false)
    (hlate : call.deadline ≤ s.engine.now) : Found s id call .timedOut

/-- **What ends in an act ends with what the backend says**, or because the time is up. -/
theorem InOrder.found (h : InOrder s) {act : Act} {id : Id} {p : Principal} {ending : Ending}
    (hn : .ended id p ending ∉ s.journal) (he : .ended id p ending ∈ (s.act act).journal) :
    ∃ call, s.engine.calls.get? id = some call ∧ call.principal = p ∧ Found s id call ending := by
  rcases s.whole_act act with ⟨hi, -⟩ | ⟨ev, hev, hs⟩
  · exact absurd (hi.journal ▸ he) hn
  · have he' : .ended id p ending ∈ (s.whole.step ev).journal := hs ▸ he
    obtain ⟨call, hid, hp, hcheck⟩ := step_ended h.books hn he'
    refine ⟨call, hid, hp, ?_⟩
    cases hcheck with
    | list hends =>
      cases hends with
      | answer heq hq =>
        subst heq
        cases hev with
        | ask hends => cases hends
        | listed hid' _ hready =>
          obtain rfl := Option.some_inj.mp (hid.symm.trans hid')
          exact .listed hq hready
      | expire heq hlate =>
        subst heq
        cases hev with
        | ask hends => cases hends
        | clock hready => exact .late hready hlate
    | verdict heq hq => exact .checked hq _

/-- A call that an act leaves under way sits as long as it did. -/
theorem InOrder.sits_act (h : InOrder s) {act : Act} {id : Id} {call call' : Call}
    (hid' : (s.act act).engine.calls.get? id = some call')
    (hid : s.engine.calls.get? id = some call) :
    (s.act act).backend.readyAt? (.call id) = s.backend.readyAt? (.call id) := by
  have h' := h.act act
  rcases s.act_cases act with hi | ⟨ev, n, -, hs⟩
  · exact (hi.sits id).resolve_right fun hnone => by simp [hid] at hnone
  · rw [hs] at h' hid' ⊢
    refine readyAt?_inform _ _ fun m hm hc => ?_
    -- All that has been said of the call is that it has begun, and that was said before.
    have hbegan := congrArg List.length (h.books.calls.thread_of_get? hid)
    have hbegan' := congrArg List.length (h'.books.calls.thread_of_get? hid')
    simp only [whole, Site.ask, thread_append, List.length_append, List.length_singleton]
      at hbegan hbegan'
    have hnil := List.eq_nil_of_length_eq_zero (Nat.add_eq_right.mp (hbegan'.trans hbegan.symm))
    exact List.not_mem_nil (hnil ▸ mem_thread.mpr ⟨hm, hc⟩)

/-- What the backend answers from stays the same unless somebody alters it. -/
theorem act_same (s : Site) {act : Act} (h : act.alters = false) :
    s.backend.Same (s.act act).backend := by
  rcases s.act_cases act with hi | ⟨ev, n, -, hs⟩
  · exact hi.same h
  · rw [hs]
    have hcount : s.backend.Same
        { s.backend with store := { s.backend.store with listings := n } } :=
      ⟨rfl, rfl, rfl, rfl⟩
    exact hcount.trans (ask_same { s with backend := _ } ev)

/-- What principals hold changes only if somebody changes it. -/
theorem granted_act (s : Site) {act : Act} (h : ∀ op, act ≠ .store op) :
    (s.act act).backend.store.granted = s.backend.store.granted := by
  cases act with
  | store op => exact absurd rfl (h op)
  | script change =>
    rw [Site.act]
    split <;> rfl
  | _ => exact (s.act_same rfl).granted

end Site

end Gatekeeper

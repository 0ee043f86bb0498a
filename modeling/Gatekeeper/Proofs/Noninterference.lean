import Gatekeeper.Proofs.Store
import Gatekeeper.Proofs.Whole

/-!
# Decisions on one privilege

What a site tells those who ask for a privilege of a principal depends on no other grant.  Two sites
to which the same happens, but for what is granted and revoked, cannot be told apart by anybody who
sees no more than this one privilege, as long as the two stores agree on it: neither by what callers
are told, nor by when.

* `Act.Alike` — the same act, or any two grants and revocations.
* `Backend.Alike`, `Site.Alike` — backends and sites that look alike.
* `Site.Alike.act` — sites that look alike go on to do so.
* `Undisturbed`, `noninterference` — what is the same in two such runs.

Two runs are compared act by act.  What is the same in both at every moment is not the state but
what is seen of it, and a single privilege is seen of the sets in the caches, in what has landed
and in the journals.  The one place where a set decides what happens next is an enforcement,
which asks for one privilege; if that is the one in view both sides decide alike, and if it is
another one what the caller is told is not in view.
-/

set_option autoImplicit false

namespace Gatekeeper

open Engine

/-- The same act, or any two acts that change what principals hold. -/
inductive Act.Alike : Act → Act → Prop
  | same (act : Act) : Act.Alike act act
  | grants {op op' : Store.Op} (h : op.grants = true) (h' : op'.grants = true) :
    Act.Alike (.store op) (.store op')

/-! ## Backends that look alike

The backend holds the grants, so here two stores may differ outright in what is not seen.  What
it says to a call is computed from the store, and is seen as far as the store is.  Scripts,
tickets and the counter of calls are the same on both sides. -/

/-- Two backends look alike: they differ in what is granted, and what is seen of this is the same.
-/
inductive Backend.Alike (v : View) (b : Backend) : Backend → Prop
  | intro {granted : Table Principal PrivilegeSet}
    (held : ∀ p, v.set p (b.store.privileges p)
      = v.set p (({ b.store with granted } : Store).privileges p)) :
    Backend.Alike v b { b with store := { b.store with granted } }

namespace Backend.Alike

variable {v : View} {b b' : Backend}

/-- What is the same in backends that look alike. -/
theorem same (h : Backend.Alike v b b') :
    b' = { b with store := { b.store with granted := b'.store.granted } } := by
  obtain ⟨-⟩ := h
  rfl

/-- Something happens that has nothing to do with the store. -/
theorem frame (h : Backend.Alike v b b') (f : Backend → Backend)
    (hf : ∀ (b : Backend) (store : Store), f { b with store } = { f b with store }) :
    Backend.Alike v (f b) (f b') := by
  cases h with
  | @intro granted held =>
    have hb : f b = { f b with store := b.store } := hf b b.store
    rw [hf b { b.store with granted }, hb]
    exact .intro held

theorem begin (h : Backend.Alike v b b') (t : Ticket) (q : Question) (p : Principal) (now : Nat) :
    Backend.Alike v (b.begin t q p now) (b'.begin t q p now) := by
  refine h.frame (·.begin t q p now) fun b store => ?_
  cases q <;> simp only [Backend.begin] <;> split <;> (try rfl) <;> split <;> rfl

theorem leave (h : Backend.Alike v b b') (t : Ticket) : Backend.Alike v (b.leave t) (b'.leave t) :=
  h.frame (·.leave t) fun _ _ => rfl

theorem ready (h : Backend.Alike v b b') (t : Ticket) (now : Nat) :
    b'.ready t now = b.ready t now := by
  rw [h.same]
  rfl

theorem available (h : Backend.Alike v b b') : b'.store.available = b.store.available := by
  rw [h.same]

/-- One more list has been asked of the store. -/
theorem count (h : Backend.Alike v b b') :
    Backend.Alike v { b with store := { b.store with listings := b.store.listings + 1 } }
      { b' with store := { b'.store with listings := b'.store.listings + 1 } } := by
  obtain ⟨held⟩ := h
  exact .intro held

theorem list (h : Backend.Alike v b b') (p : Principal) :
    Backend.Alike v (b.list p).1 (b'.list p).1
      ∧ v.reply p (b.list p).2 = v.reply p (b'.list p).2 := by
  have hcount := h.count
  cases h with
  | @intro granted held =>
    simp only [Backend.list]
    cases b.script.ending? p with
    | some r => exact ⟨.intro held, rfl⟩
    | none =>
      refine ⟨hcount, ?_⟩
      simp only [Store.list, Backend.ofStore]
      cases b.store.available with
      | false => rfl
      | true => exact congrArg Reply.value (held p)

/-- Whether a privilege that is seen is held can be told from what is seen. -/
theorem mem_iff {S S' : PrivilegeSet} {p : Principal} {x : Privilege} (hS : v.set p S = v.set p S')
    (hx : v.sees p x = true) : x ∈ S ↔ x ∈ S' := by
  have hmem : ∀ S, x ∈ v.set p S ↔ x ∈ S := fun S => by simp [View.set, hx]
  rw [← hmem S, hS, hmem]

theorem verdict (h : Backend.Alike v b b') (e : Entity) (p : Principal) (a : Action) :
    Backend.Alike v (b.verdict e p a).1 (b'.verdict e p a).1
      ∧ v.verdict p ⟨e, a⟩ (b.verdict e p a).2 = v.verdict p ⟨e, a⟩ (b'.verdict e p a).2 := by
  have hcount := h.count
  cases h with
  | @intro granted held =>
    simp only [Backend.verdict]
    cases b.script.ending? p with
    | some r => exact ⟨.intro held, rfl⟩
    | none =>
      dsimp only
      cases b.script.verdicts.get? p with
      | some on => exact ⟨.intro held, rfl⟩
      | none =>
        refine ⟨hcount, ?_⟩
        simp only [Store.check, Store.list, Backend.ofStore]
        cases b.store.available with
        | false => rfl
        | true =>
          cases hx : v.sees p ⟨e, a⟩ with
          | false => simp [View.verdict, hx, Except.map, Reply.map]
          | true =>
            simp only [View.verdict, hx, if_true, Except.map]
            exact congrArg Reply.value (decide_eq_decide.mpr (mem_iff (held p) hx))

theorem check (h : Backend.Alike v b b') (e : Entity) (p : Principal) (a : Action) :
    Backend.Alike v (b.check e p a).1 (b'.check e p a).1 := by
  have hkind : b'.checksItself = b.checksItself := by
    obtain ⟨-⟩ := h
    rfl
  rw [Backend.check, Backend.check, hkind]
  split
  · exact (h.verdict e p a).1
  · exact (h.list p).1

/-- The same operation on the store, or any two that change what principals hold. -/
theorem perform (h : Backend.Alike v b b') {op op' : Store.Op}
    (hops : op = op' ∨ op.grants = true ∧ op'.grants = true)
    (held : ∀ p, v.set p ((b.store.perform op).1.privileges p)
      = v.set p ((b'.store.perform op').1.privileges p)) :
    Backend.Alike v { b with store := (b.store.perform op).1 }
      { b' with store := (b'.store.perform op').1 } := by
  cases h with
  | @intro granted held₀ =>
    have hkind : { b with store := ({ b.store with granted } : Store) }.store.perform op'
        = Store.perform { b.store with granted } op' := rfl
    have hstore : (Store.perform { b.store with granted } op').1
        = { (b.store.perform op).1 with
            granted := (Store.perform { b.store with granted } op').1.granted } := by
      rcases hops with rfl | ⟨h, h'⟩
      · exact Store.perform_granted b.store granted op
      · rw [Store.perform_of_grants h', Store.perform_of_grants h]
    rw [hkind] at held ⊢
    rw [hstore] at held ⊢
    exact .intro held

end Backend.Alike

/-! ## Sites that look alike

A site is an engine with its backend, and each tells the other something: the backend learns from
the notes of the engine which calls begin and end, and the engine gets the lists.  Both
directions keep what is seen the same. -/

/-- Two sites look alike. -/
structure Site.Alike (v : View) (s s' : Site) : Prop where
  engine : Engine.Alike v [] [] { s.engine with journal := [] } { s'.engine with journal := [] }
  backend : Backend.Alike v s.backend s'.backend
  journal : s.journal.map v.note = s'.journal.map v.note

/-- Engines that look alike do so without what has been noted. -/
theorem Engine.Alike.forget {v : View} {j j' : List Note} {s s' : State}
    (h : Engine.Alike v j j' s s') :
    Engine.Alike v [] [] { s with journal := [] } { s' with journal := [] } := by
  obtain ⟨hc, hp, -⟩ := h
  exact .intro hc hp rfl

theorem Engine.Alike.notes {v : View} {s s' : State} (h : Engine.Alike v [] [] s s') :
    s.journal.map v.note = s'.journal.map v.note := by
  obtain ⟨-, -, hj⟩ := h
  simpa using hj

namespace Site

variable {v : View} {s s' : Site}

/-- What the backend learns from a note is seen. -/
theorem inform_note (now : Nat) (b : Backend) (n : Note) :
    inform now b (v.note n) = inform now b n := by
  cases n <;> rfl

theorem inform_alike {b b' : Backend} (h : Backend.Alike v b b') (now : Nat) {l l' : List Note}
    (hl : l.map v.note = l'.map v.note) :
    Backend.Alike v (l.foldr (fun n b => inform now b n) b)
      (l'.foldr (fun n b => inform now b n) b') := by
  have hseen : ∀ (l : List Note) (b : Backend), l.foldr (fun n b => inform now b n) b
      = (l.map v.note).foldr (fun n b => inform now b n) b := by
    intro l b
    rw [List.foldr_map]
    simp only [inform_note]
  rw [hseen l, hl, ← hseen l']
  clear hl
  induction l' with
  | nil => exact h
  | cons n l' ih =>
    rw [List.foldr_cons, List.foldr_cons]
    cases n with
    | began id p q o => exact ih.begin (.call id) q p now
    | ended id => exact ih.leave (.call id)
    | dropped id o =>
      cases o with
      | pass n => exact ih
      | _ => exact ih.leave (.call id)
    | _ => exact ih

theorem Alike.ask (h : Site.Alike v s s') {ev ev' : Event}
    (hev : ev.Alike v { s.engine with journal := [] } ev') :
    Site.Alike v (s.ask ev) (s'.ask ev') := by
  have hstep := step_alike h.engine hev
  have hnow : (State.step { s'.engine with journal := [] } ev').now
      = (State.step { s.engine with journal := [] } ev).now := by rw [hstep.same]
  refine ⟨hstep.forget, ?_, ?_⟩
  · rw [Site.ask, Site.ask]
    dsimp only
    rw [hnow]
    exact inform_alike h.backend _ hstep.notes
  · rw [Site.ask, Site.ask, List.map_append, List.map_append, hstep.notes, h.journal]

/-- How a check has ended is seen as far as what it was about is. -/
theorem ending_checked (hv : v.verdicts = false) {p : Principal} {x : Privilege} {r r' : Reply Bool}
    (h : v.verdict p x r = v.verdict p x r') :
    v.ending p (.checked r) = v.ending p (.checked r') := by
  have hmap : (r.map fun _ => true) = r'.map fun _ => true := by
    rw [View.verdict, View.verdict] at h
    split at h
    · rw [h]
    · exact h
  simp only [View.ending, hv, Bool.false_eq_true, if_false, hmap]

theorem Alike.poll (h : Site.Alike v s s') (hv : v.verdicts = false) (hb : Books s.whole)
    (id : Id) : Site.Alike v (s.poll id) (s'.poll id) := by
  have hcalls : s'.engine.calls = s.engine.calls := h.engine.calls
  have hattended : ∀ call, s'.engine.attended call = s.engine.attended call := h.engine.attended
  have hready : s'.backend.ready (.call id) s'.engine.now
      = s.backend.ready (.call id) s.engine.now := by
    have hnow : s'.engine.now = s.engine.now := h.engine.now
    rw [hnow, h.backend.ready]
  rw [Site.poll, Site.poll, hcalls]
  cases hid : s.engine.calls.get? id with
  | none => exact h
  | some call =>
    dsimp only
    rw [hattended, hready]
    split
    · exact h
    · split
      · split
        · obtain ⟨hbackend, hreply⟩ := h.backend.list call.principal
          have hasked : Site.Alike v { s with backend := (s.backend.list call.principal).1 }
              { s' with backend := (s'.backend.list call.principal).1 } :=
            ⟨h.engine, hbackend, h.journal⟩
          refine hasked.ask (.answer fun call' hcall => ?_)
          obtain rfl : call = call' := Option.some_inj.mp (hid.symm.trans hcall)
          exact hreply
        · rename_i e a hq
          obtain ⟨hbackend, hverdict⟩ := h.backend.verdict e call.principal a
          have hasked : Site.Alike v { s with backend := (s.backend.verdict e call.principal a).1 }
              { s' with backend := (s'.backend.verdict e call.principal a).1 } :=
            ⟨h.engine, hbackend, h.journal⟩
          refine hasked.ask (.verdict fun call' c e' a' hcall ho => ?_)
          obtain rfl : call = call' := Option.some_inj.mp (hid.symm.trans hcall)
          obtain ⟨-, r, -, hmakes⟩ := hb.callers.owners hid (by rw [ho]; rfl)
          rw [hq, ho] at hmakes
          cases hmakes
          exact ⟨hverdict, ending_checked hv hverdict⟩
      · exact h.ask (.same _)

/-- **Sites that look alike go on to do so**, if the stores do. -/
theorem Alike.act (h : Site.Alike v s s') (hv : v.verdicts = false) (hb : Books s.whole)
    {act act' : Act} (hact : act.Alike act')
    (held : ∀ op op', act = .store op → act' = .store op' → ∀ p,
      v.set p ((s.backend.store.perform op).1.privileges p)
        = v.set p ((s'.backend.store.perform op').1.privileges p)) :
    Site.Alike v (s.act act) (s'.act act') := by
  have hnow : s'.engine.now = s.engine.now := h.engine.now
  cases hact with
  | grants hop hop' =>
    exact ⟨h.engine, h.backend.perform (Or.inr ⟨hop, hop'⟩) (held _ _ rfl rfl), h.journal⟩
  | same =>
    cases act with
    | ask ev =>
      rw [Site.act, Site.act]
      split
      · exact h
      · exact h.ask (.same ev)
    | poll id => exact h.poll hv hb id
    | forget id =>
      have hcalls : s'.engine.calls = s.engine.calls := h.engine.calls
      rw [Site.act, Site.act, hcalls]
      split
      · exact h
      · exact ⟨h.engine, h.backend.leave _, h.journal⟩
    | store op =>
      exact ⟨h.engine, h.backend.perform (Or.inl rfl) (held op op rfl rfl), h.journal⟩
    | script change =>
      have hscripted : s'.backend.scripted = s.backend.scripted := by
        rw [h.backend.same]
        rfl
      rw [Site.act, Site.act, hscripted]
      split
      · exact ⟨h.engine, h.backend.frame (fun b => { b with script := b.script.change change })
          fun _ _ => rfl, h.journal⟩
      · exact h
    | probe n q p =>
      refine ⟨h.engine, ?_, h.journal⟩
      rw [Site.act, Site.act, hnow]
      exact h.backend.begin _ q p _
    | conclude n op =>
      refine ⟨h.engine, ?_, h.journal⟩
      cases op with
      | list p => exact ((h.backend.leave _).list p).1
      | check e p a => exact (h.backend.leave _).check e p a
      | _ => exact h.backend.leave _
    | giveUp n => exact ⟨h.engine, h.backend.leave _, h.journal⟩

end Site

/-! ## One privilege of one principal

The view that matters sees of every set no more than whether one privilege of one principal is in
it.  That is all that an enforcement of this privilege depends on, so what its callers are told
is seen in full.  The stores are asked to agree on the privilege at every moment; if grants are
made only beside it, they agree as soon as they agree at the start. -/

section

variable {e : Entity} {p : Principal} {a : Action} {s s' : Site}

namespace Engine.View

/-- Of a set nothing is seen but whether the privilege is in it. -/
theorem one_set (q : Principal) {S S' : PrivilegeSet}
    (h : q = p → ((⟨e, a⟩ : Privilege) ∈ S ↔ (⟨e, a⟩ : Privilege) ∈ S')) :
    (one e p a).set q S = (one e p a).set q S' := by
  have hfilter : ∀ S : PrivilegeSet, q = p → S.members.filter ((one e p a).sees q)
      = List.replicate (if (⟨e, a⟩ : Privilege) ∈ S.members then 1 else 0) ⟨e, a⟩ := by
    rintro S rfl
    have hsees : (one e q a).sees q = (· == ⟨e, a⟩) := by
      funext x
      rw [Bool.eq_iff_iff]
      simp [one]
    rw [hsees, List.filter_beq, List.Nodup.count S.nodup]
  by_cases hq : q = p
  · have hmem : (⟨e, a⟩ : Privilege) ∈ S.members ↔ (⟨e, a⟩ : Privilege) ∈ S'.members := h hq
    simp only [set, PrivilegeSet.filter, hfilter S hq, hfilter S' hq, hmem]
  · have hnone : ∀ S : PrivilegeSet, S.members.filter ((one e p a).sees q) = [] :=
      fun S => List.filter_eq_nil_iff.mpr fun x _ => by simp [one, hq]
    simp only [set, PrivilegeSet.filter, hnone]

/-- All that somebody who asks for the privilege can be told is seen. -/
theorem told_of_fits {settings : Settings} {o : Outcome} (h : Fits settings (.enforce e p a) o) :
    (one e p a).told o = o := by
  cases o with
  | failed error =>
    rcases h with rfl | ⟨cause, rfl⟩
    · simp [told, one]
    · rfl
  | _ => rfl

end Engine.View

/-! ### Runs that cannot be told apart

What an observer of one privilege can compare at any moment: the clock, what he is told and when,
who waits for what, and what is to be done next. -/

/-- Nobody who asks for the privilege can tell the sites apart, neither by what he is told nor by
when: time stands at the same moment, the same callers wait for the same calls, the same is to be
done next. -/
structure Undisturbed (e : Entity) (p : Principal) (a : Action) (s s' : Site) : Prop where
  engine : s'.engine = { s.engine with
    cache := s'.engine.cache, passes := s'.engine.passes, journal := s'.engine.journal }
  cached : s'.engine.cache.keys = s.engine.cache.keys
  passes : s'.engine.passes.keys = s.engine.passes.keys
  /-- A pass is over the same principals on both sides, and has got as far with them. -/
  pass : ∀ n pass, s.engine.passes.get? n = some pass → ∃ landed,
    s'.engine.passes.get? n = some { pass with landed }
      ∧ landed.map (fun l => (l.principal, l.call))
        = pass.landed.map fun l => (l.principal, l.call)
  backend : s'.backend = { s.backend with
    store := { s.backend.store with granted := s'.backend.store.granted } }
  called : ∀ c r, .called c r ∈ s'.journal ↔ .called c r ∈ s.journal
  told : ∀ c, .called c (.enforce e p a) ∈ s.journal → ∀ o,
    .returned c o ∈ s'.journal ↔ .returned c o ∈ s.journal

namespace Site

theorem Alike.undisturbed (h : Site.Alike (.one e p a) s s') (hb : Books s.whole)
    (hb' : Books s'.whole) : Undisturbed e p a s s' := by
  have hcalled : ∀ c r, .called c r ∈ s'.journal ↔ .called c r ∈ s.journal := by
    intro c r
    have hmem : ∀ l : List Note, .called c r ∈ l.map (View.one e p a).note ↔ .called c r ∈ l := by
      intro l
      rw [List.mem_map]
      constructor
      · rintro ⟨n, hn, he⟩
        cases n <;> simp_all [View.note]
      · exact fun hn => ⟨_, hn, rfl⟩
    rw [← hmem, ← h.journal, hmem]
  -- What one of two sites has told whoever asks for the privilege, so has the other.
  have htold : ∀ {u u' : Site}, Books u.whole → Books u'.whole →
      u.journal.map (View.one e p a).note = u'.journal.map (View.one e p a).note →
      ∀ {c}, .called c (.enforce e p a) ∈ u.journal → .called c (.enforce e p a) ∈ u'.journal →
      ∀ {o}, .returned c o ∈ u.journal → .returned c o ∈ u'.journal := by
    intro u u' hu hu' hj c hc hc' o ho
    have hfits := View.told_of_fits (hu.callers.fits hc ho)
    have hseen : .returned c o ∈ u'.journal.map (View.one e p a).note := by
      rw [← hj]
      exact List.mem_map.mpr ⟨_, ho, by rw [View.note, hfits]⟩
    obtain ⟨n, hn, he⟩ := List.mem_map.mp hseen
    cases n with
    | returned c' o' =>
      injection he with hc₁ ho₁
      subst hc₁
      rw [View.told_of_fits (hu'.callers.fits hc' hn)] at ho₁
      exact ho₁ ▸ hn
    | _ => simp [View.note] at he
  refine ⟨?_, h.engine.cached.symm, h.engine.passKeys.symm, fun n pass hn => ?_, ?_, hcalled,
    fun c hc o => ?_⟩
  · exact congrArg (fun u : State => { u with journal := s'.engine.journal }) h.engine.same
  · obtain ⟨pass', hn', he⟩ := h.engine.pass_of_get? hn
    obtain ⟨hd, hq, hf, hl, hr⟩ := View.pass_eq_iff.mp he
    refine ⟨pass'.landed, ?_, ?_⟩
    · rw [hd, hq, hf, hr]
      exact hn'
    · have hseen : ∀ l : List Landing, l.map (fun l => (l.principal, l.call))
          = (l.map (View.one e p a).landing).map fun l => (l.principal, l.call) := by
        intro l
        rw [List.map_map]
        rfl
      rw [hseen, ← hl, ← hseen]
  · exact h.backend.same
  · have hc' := (hcalled c _).mpr hc
    exact ⟨htold hb' hb h.journal.symm hc' hc, htold hb hb' h.journal hc hc'⟩

/-- Whether the principal holds the privilege. -/
def Holds (s : Site) (e : Entity) (p : Principal) (a : Action) : Prop :=
  ⟨e, a⟩ ∈ s.backend.store.privileges p

theorem Alike.act_of_holds (h : Site.Alike (.one e p a) s s') (hb : Books s.whole) {act act' : Act}
    (hact : act.Alike act') (held : (s.act act).Holds e p a ↔ (s'.act act').Holds e p a) :
    Site.Alike (.one e p a) (s.act act) (s'.act act') := by
  refine h.act rfl hb hact ?_
  rintro op op' rfl rfl q
  refine View.one_set q ?_
  rintro rfl
  exact held

theorem Alike.run (h : Site.Alike (.one e p a) s s') (hs : s.InOrder) (hs' : s'.InOrder)
    {acts acts' : List Act} (hacts : List.Forall₂ Act.Alike acts acts')
    (held : ∀ n, (s.run (acts.take n)).Holds e p a ↔ (s'.run (acts'.take n)).Holds e p a) :
    Undisturbed e p a (s.run acts) (s'.run acts') := by
  induction hacts generalizing s s' with
  | nil => exact h.undisturbed hs.books hs'.books
  | cons hact _ ih =>
    exact ih (h.act_of_holds hs.books hact (held 1)) (hs.act _) (hs'.act _)
      fun n => held (n + 1)

theorem Alike.initial (v : View) (settings : Settings) (kind : BackendKind) :
    Site.Alike v (.initial settings kind) (.initial settings kind) where
  engine := .intro (.refl _ _) (.refl _ _) rfl
  backend := .intro fun _ => rfl
  journal := rfl

end Site

/-! ### Grants beside the privilege

That the stores agree on the privilege is a hypothesis at every moment.  If the two runs differ
only in grants that do not name it, agreement at the start is enough. -/

/-- The same act, or any two that change what principals hold and leave the privilege alone. -/
inductive Act.Beside (e : Entity) (p : Principal) (a : Action) : Act → Act → Prop
  | same (act : Act) : Act.Beside e p a act act
  | grants {op op' : Store.Op} (h : op.grants = true) (h' : op'.grants = true)
    (hb : op.Beside p ⟨e, a⟩) (hb' : op'.Beside p ⟨e, a⟩) :
    Act.Beside e p a (.store op) (.store op')

namespace Site

/-- What is granted beside the privilege does not change who holds it. -/
theorem Alike.act_beside (h : Site.Alike (.one e p a) s s') (hb : Books s.whole)
    (held : s.Holds e p a ↔ s'.Holds e p a) {act act' : Act} (hact : act.Beside e p a act') :
    Site.Alike (.one e p a) (s.act act) (s'.act act')
      ∧ ((s.act act).Holds e p a ↔ (s'.act act').Holds e p a) := by
  have hboth : (s.act act).Holds e p a ↔ (s'.act act').Holds e p a := by
    cases hact with
    | grants _ _ hop hop' =>
      exact (Store.mem_privileges_perform_of_beside hop).trans
        (held.trans (Store.mem_privileges_perform_of_beside hop').symm)
    | same =>
      by_cases hstore : ∃ op, act = .store op
      · obtain ⟨op, rfl⟩ := hstore
        have havailable : s'.backend.store.available = s.backend.store.available :=
          h.backend.available
        cases ha : s.backend.store.available with
        | true =>
          exact (Store.mem_privileges_perform_iff ha op).trans ((Store.Op.effect_congr held).trans
            (Store.mem_privileges_perform_iff (havailable.trans ha) op).symm)
        | false =>
          have hsame := Store.privileges_perform_of_unavailable (p := p) ha op
          have hsame' := Store.privileges_perform_of_unavailable (p := p) (havailable.trans ha) op
          rw [Holds, Holds, Site.act, Site.act]
          dsimp only
          rw [hsame, hsame']
          exact held
      · have hkept : ∀ u : Site, (u.act act).backend.store.granted = u.backend.store.granted :=
          fun u => u.granted_act fun op hop => hstore ⟨op, hop⟩
        rw [Holds, Holds, Store.privileges, Store.privileges, hkept, hkept]
        exact held
  refine ⟨h.act_of_holds hb ?_ hboth, hboth⟩
  cases hact with
  | same => exact .same _
  | grants h h' => exact .grants h h'

theorem Alike.run_beside (h : Site.Alike (.one e p a) s s') (hs : s.InOrder)
    (hs' : s'.InOrder) (held : s.Holds e p a ↔ s'.Holds e p a) {acts acts' : List Act}
    (hacts : List.Forall₂ (Act.Beside e p a) acts acts') :
    Undisturbed e p a (s.run acts) (s'.run acts') := by
  induction hacts generalizing s s' with
  | nil => exact h.undisturbed hs.books hs'.books
  | cons hact _ ih =>
    obtain ⟨halike, held⟩ := h.act_beside hs.books held hact
    exact ih halike (hs.act _) (hs'.act _) held

end Site

/-- **Decisions on one privilege of one principal depend on no other grant.**  Two runs in which the
same happens but for what is granted and revoked tell whoever asks for the privilege the same, and
at the same time, if the two stores agree on this one privilege throughout; so they do if none of
the grants and revocations names it, be they for other resources, inside or outside of this one, for
other principals or for other actions. -/
theorem noninterference (settings : Settings) (kind : BackendKind) (e : Entity) (p : Principal)
    (a : Action) :
    let s := Site.initial settings kind
    (∀ acts acts', List.Forall₂ Act.Alike acts acts' →
      (∀ n, (s.run (acts.take n)).Holds e p a ↔ (s.run (acts'.take n)).Holds e p a) →
      Undisturbed e p a (s.run acts) (s.run acts'))
    ∧ ∀ acts acts', List.Forall₂ (Act.Beside e p a) acts acts' →
      Undisturbed e p a (s.run acts) (s.run acts') := by
  intro s
  have halike : Site.Alike (.one e p a) s s := .initial _ settings kind
  have hs : s.InOrder := .initial settings kind
  exact ⟨fun acts acts' hacts held => halike.run hs hs hacts held,
    fun acts acts' hacts => halike.run_beside hs hs Iff.rfl hacts⟩

end

/-- A grant on a namespace to one, and to the other nothing but a revocation on a resource inside
it from somebody else: whoever asks, while the fetch is under way and after it, for the resource is
told the same. -/
theorem noninterference_of_namespace :
    let e : Entity := .space "docs"
    let e' : Entity := .dataset "docs" "notes"
    let p : Principal := ⟨.user, "alice"⟩
    let q : Principal := ⟨.user, "bob"⟩
    let acts : Store.Op → List Act := fun op => [.store op, .script { latency := some 5 },
      .ask (.enforce e' p .read), .ask (.elapse 5), .poll 1, .ask (.enforce e' p .read)]
    let s := Site.initial { authorization := true } .listing
    let t := s.run (acts (.grant e p [.read]))
    let t' := s.run (acts (.revoke e' q [.read]))
    Undisturbed e' p .read t t' ∧ .called 0 (.enforce e' p .read) ∈ t.journal
      ∧ .returned 0 (.failed (.permissionDenied p e' .read)) ∈ t'.journal
      ∧ t.engine.cache.get? p = some (.ofList [⟨e, .read⟩]) := by
  intro e e' p q acts s t t'
  have hacts : List.Forall₂ (Act.Beside e' p .read) (acts (.grant e p [.read]))
      (acts (.revoke e' q [.read])) :=
    .cons (.grants rfl rfl (by simp [Store.Op.Beside, e, e']) (by simp [Store.Op.Beside, p, q]))
      (List.forall₂_same.mpr fun act _ => .same act)
  refine ⟨(noninterference { authorization := true } .listing e' p .read).2 _ _ hacts, ?_, ?_, ?_⟩
  · decide
  · decide
  · decide

end Gatekeeper

import Gatekeeper.Proofs.Agreement
import Gatekeeper.Proofs.Punctual
import Gatekeeper.Proofs.Store

/-!
# How old the entries of a site are

Where the backend is the store itself, every list comes back at the moment when somebody looks for
it, and says what the principal holds.  If time goes on only from rest to rest, the worker of an
engine keeps its times there, and what the cache says of a principal is what the principal held no
longer ago than one interval of the refresh.

* `Site.AtRest` — everything that can run at a site has run; `Site.atRest_iff` says how to find out.
* `Site.Unhurried` — time goes on only at rest; `Site.InOrder.unhurried_iff` says how to find out.
* `Act.regular` — what may be done at a site that is not interfered with.
* `Site.Served` — a site with the store for its backend, whose engine keeps its times.
* `Site.Lags` — how old entries can be, and how long what has been revoked can still be honoured.
* `entries_lag_one_interval` — that is no longer than one interval.

That time goes on only at rest is what makes the bound hold, and it is an assumption on the
scheduler and not on the engine.  Without it a tick could be taken at any time after it is due,
and nothing could be said of how old an entry is.  The assumption is one that runs can be checked
for (`Site.unhurried`).
-/

set_option autoImplicit false

namespace Gatekeeper

open Engine

/-! ## From rest to rest

Time may go on only when nothing else can happen.  Whether that is so can be found out, by
looking through passes, workers and calls, so the hypothesis on a run can be computed as well as
stated. -/

namespace Site

/-- Everything that can run has run: neither passes and workers nor the owner of a call have
anything to do. -/
def AtRest (s : Site) : Prop := s.engine.AtRest ∧ ∀ id, s.due id = false

/-- No pass and no worker has anything to do, and no call is due. -/
def settled (s : Site) : Bool := s.engine.settled && s.engine.calls.keys.all fun id => !s.due id

/-- **A site is at rest exactly when there is nothing left to do.** -/
theorem atRest_iff {s : Site} (ha : s.engine.settings.cachingActive = true) :
    s.AtRest ↔ s.settled = true := by
  rw [AtRest, settled, Bool.and_eq_true, State.atRest_iff ha, List.all_eq_true]
  refine and_congr_right fun _ => ⟨fun h id _ => by simp [h id], fun h id => ?_⟩
  cases hid : s.engine.calls.get? id with
  | none => simp [due, hid]
  | some call => simpa using h id (Table.mem_keys_iff.mpr ⟨call, hid⟩)

/-- Whether an engine is at rest does not depend on what is in its journal. -/
theorem AtRest.whole {s : Site} (h : s.AtRest) (ha : s.engine.settings.cachingActive = true) :
    s.whole.AtRest :=
  (State.atRest_iff (s := s.whole) ha).mpr ((State.atRest_iff ha).mp h.1)

/-- Time does not go on while there is something left to do. -/
def Waits (s : Site) : Act → Prop
  | .ask (.elapse millis) => ∀ m < millis, (s.act (.ask (.elapse m))).AtRest
  | _ => True

/-- Time goes on only at rest. -/
def Unhurried (s : Site) : List Act → Prop
  | [] => True
  | act :: acts => s.Waits act ∧ (s.act act).Unhurried acts

/-- The same as something that can be computed. -/
def waits (s : Site) : Act → Bool
  | .ask (.elapse millis) => (List.range millis).all fun m => (s.act (.ask (.elapse m))).settled
  | _ => true

def unhurried (s : Site) : List Act → Bool
  | [] => true
  | act :: acts => s.waits act && (s.act act).unhurried acts

theorem waits_iff {s : Site} (ha : s.engine.settings.cachingActive = true) (act : Act) :
    s.Waits act ↔ s.waits act = true := by
  cases act with
  | ask ev =>
    cases ev with
    | elapse millis =>
      rw [Waits, waits, List.all_eq_true]
      refine forall_congr' fun m => ?_
      rw [List.mem_range, atRest_iff]
      exact ha
    | _ => exact iff_of_true trivial rfl
  | _ => exact iff_of_true trivial rfl

theorem InOrder.unhurried_iff {s : Site} (h : s.InOrder)
    (ha : s.engine.settings.cachingActive = true) (acts : List Act) :
    s.Unhurried acts ↔ s.unhurried acts = true := by
  induction acts generalizing s with
  | nil => exact iff_of_true trivial rfl
  | cons act acts ih =>
    have hsettings : (s.act act).engine.settings = s.engine.settings := h.settings_run [act]
    rw [Unhurried, unhurried, Bool.and_eq_true, waits_iff ha,
      ih (h.act act) ((congrArg Settings.cachingActive hsettings).trans ha)]

/-- Time does not go back. -/
theorem InOrder.now_le_run {s : Site} (h : s.InOrder) (acts : List Act) :
    s.engine.now ≤ (s.run acts).engine.now := by
  induction acts generalizing s with
  | nil => exact Nat.le_refl _
  | cons act acts ih =>
    refine Nat.le_trans ?_ (ih (h.act act))
    rcases s.whole_act act with ⟨hidle, -⟩ | ⟨ev, -, hwhole⟩
    · exact Nat.le_of_eq (by rw [hidle.engine])
    · have hle : s.whole.now ≤ (s.act act).whole.now := hwhole ▸ h.books.orderly.now_le_step ev
      exact hle

end Site

/-! ## A store that answers at once

At a site whose backend is the store itself no call has to sit, and a list says what the
principal holds at the moment when it is taken. -/

/-- The store stays available, and nobody but the engine writes into the cache or has workers of his
own, nor ends the engine's life. -/
def Act.regular : Act → Bool
  | .ask (.write ..) | .ask .shutdown | .ask .drop => false
  | .ask ev => ev.hosted
  | .store (.setAvailable on) => on
  | _ => true

/-- What is done to a store that is available leaves it so, unless it says otherwise. -/
theorem Store.available_of_regular {s : Store} (h : s.available = true) {op : Op}
    (hop : (Act.store op).regular = true) : (s.perform op).1.available = true := by
  rw [available_perform]
  cases op with
  | setAvailable on => exact hop
  | _ => exact h

namespace Site

/-- The backend is the store itself, which is available, and no call sits. -/
structure Stocked (s : Site) : Prop where
  order : s.InOrder
  kind : s.backend.kind = .store
  available : s.backend.store.available = true
  sits : ∀ id, s.backend.readyAt? (.call id) = none

namespace Stocked

variable {s : Site}

theorem initial (settings : Settings) : (Site.initial settings .store).Stocked where
  order := .initial settings .store
  kind := rfl
  available := rfl
  sits _ := rfl

/-- No call comes to sit at the store itself. -/
theorem sits_ask (hk : s.backend.kind = .store) (h : ∀ id, s.backend.readyAt? (.call id) = none)
    (ev : Event) (id : Id) : (s.ask ev).backend.readyAt? (.call id) = none := by
  rw [Site.ask]
  dsimp only
  generalize ({ s.engine with journal := [] } : State).step ev = t
  induction t.journal with
  | nil => exact h id
  | cons n l ih =>
    have hkind := (inform_same t.now s.backend l).kind.trans hk
    have hleave : ∀ {b' : Backend} {t : Ticket}, b'.readyAt? (.call id) = none →
        (b'.leave t).readyAt? (.call id) = none := by
      intro b' t hb
      rw [Backend.leave, Backend.readyAt?, Table.get?_erase]
      split
      · rfl
      · exact hb
    rw [List.foldr_cons]
    cases n with
    | began id' q p o =>
      have hbegin : ∀ b' : Backend, b'.kind = .store → b'.begin (.call id') p q t.now = b' :=
        fun b' hb => if_pos hb
      exact (congrArg (Backend.readyAt? · (.call id)) (hbegin _ hkind)).trans ih
    | ended => exact hleave ih
    | dropped id' o =>
      cases o with
      | pass => exact ih
      | _ => exact hleave ih
    | _ => exact ih

theorem act (h : s.Stocked) {act : Act} (hact : act.regular = true) : (s.act act).Stocked where
  order := h.order.act act
  kind := by
    rcases s.act_cases act with hidle | ⟨ev, n, -, hs⟩
    · rw [hidle.kind, h.kind]
    · rw [hs, (ask_same _ ev).kind]
      exact h.kind
  available := by
    cases act with
    | store op => exact Store.available_of_regular h.available hact
    | script change =>
      have hplain : s.backend.scripted = false := by simp [Backend.scripted, h.kind]
      rw [Site.act, hplain]
      exact h.available
    | _ => exact (s.act_same rfl).available.trans h.available
  sits id := by
    rcases s.act_cases act with hidle | ⟨ev, n, -, hs⟩
    · exact (hidle.sits id).elim (fun he => he.trans (h.sits id)) And.right
    · rw [hs]
      refine sits_ask ?_ (fun id => ?_) ev id
      · exact h.kind
      · exact h.sits id

/-- Every call can be answered at once. -/
theorem ready (h : s.Stocked) (id now : Nat) : s.backend.ready (.call id) now = true := by
  rw [Backend.ready, h.sits id, Option.all_none]

/-- And a list says what the principal holds. -/
theorem list (h : s.Stocked) (p : Principal) :
    (s.backend.list p).2 = .value (s.backend.store.privileges p) := by
  have hnone : s.backend.script.ending? (α := PrivilegeSet) p = none := by
    rw [h.order.plain h.kind]
    rfl
  simp [Backend.list, hnone, Store.list, h.available, Backend.ofStore]

/-- A pass that is at rest at such a site has come to its end. -/
theorem free (h : s.Stocked)
    (hgoing : ∀ {w k}, s.engine.workers.get? w = some k → k.stopping = false) (hrest : s.AtRest)
    (n : Id) : s.engine.passes.get? n = none := by
  by_contra hsome
  obtain ⟨pass, hp⟩ := Option.ne_none_iff_exists'.mp hsome
  have hflying : pass.flying = [] := by
    refine List.eq_nil_iff_forall_not_mem.mpr fun p hf => ?_
    obtain ⟨id, call, hid, ho, -⟩ := h.order.books.passes.flying (s := s.whole) hp p hf
    have hdue := hrest.2 id
    have hid' : s.engine.calls.get? id = some call := hid
    simp [due, hid', State.attended, ho, h.ready] at hdue
  have hqueue : pass.queue = [] := by
    refine (hrest.1.launch hp).resolve_right (Nat.not_le_of_lt ?_)
    rw [hflying, State.parallelism, List.length_nil]
    exact Nat.lt_of_lt_of_le Nat.zero_lt_one (Nat.le_max_left _ _)
  have hlanded : pass.landed = [] := by
    refine hrest.1.collect hp ?_
    rw [State.halted]
    cases pass.driver with
    | caller c => rfl
    | worker w =>
      cases hw : s.engine.workers.get? w with
      | none => simp [hw]
      | some k => simp [hw, hgoing hw]
  have hcomplete := h.order.books.passes.unfinished (s := s.whole) hp
  simp [Pass.complete, hqueue, hflying, hlanded] at hcomplete

end Stocked

/-! ## Regular service at a site

An act of such a site comes down to an event that is regular in the sense that is asked for in
`Gatekeeper.Proofs.Punctual`, with the history of the store as what principals hold. -/

/-- A site with the store for its backend, whose engine refreshes its cache every `P` milliseconds
and keeps its times. -/
structure Served (H : History) (P : Nat) (s : Site) : Prop where
  stocked : s.Stocked
  punctual : Punctual H P s.whole

namespace Served

variable {H : History} {P : Nat} {s : Site}

/-- At rest no pass is under way. -/
theorem free (h : s.Served H P) (hrest : s.AtRest) (n : Id) : s.engine.passes.get? n = none :=
  h.stocked.free (fun hw => (h.punctual.paced hw).going) hrest n

/-- **What a regular act brings to the engine is regular service**, if the act waits for all that
there is to do, and the history says what the store says. -/
theorem regular (h : s.Served H P) {act : Act} (hact : act.regular = true)
    (hH : ∀ p, H s.engine.now p (s.backend.store.privileges p)) (hwaits : s.Waits act) {ev : Event}
    (hev : act.Brings s ev) : ev.Regular H s.whole := by
  cases hev with
  | ask hends =>
    cases ev with
    | elapse millis =>
      intro m hm
      have hrest := hwaits m hm
      have hthen := hrest.whole h.punctual.active
      have hwhole : (s.act (.ask (.elapse m))).whole = s.whole.step (.elapse m) := s.whole_ask _
      rw [hwhole] at hthen
      refine ⟨hthen, ?_⟩
      have hstocked : (s.act (.ask (.elapse m))).Stocked := h.stocked.act rfl
      exact hstocked.free (fun hw => (h.punctual.paced hw).going) hrest
    | answer | verdict | expire => cases hends
    | write | shutdown | drop => cases hact
    | start | spawn | stop | release => exact hact
    | _ => rfl
  | @listed id call hid hq hready =>
    intro call' hid'
    obtain rfl := Option.some_inj.mp (hid.symm.trans hid')
    exact ⟨_, h.stocked.list call.principal, hH call.principal⟩
  | checked hid hq => rfl
  | @clock id hready =>
    rw [h.stocked.ready] at hready
    cases hready

/-- An act at such a site is an event of regular service, or leaves the engine alone. -/
theorem whole_act (h : s.Served H P) {act : Act} (hact : act.regular = true)
    (hH : ∀ p, H s.engine.now p (s.backend.store.privileges p)) (hwaits : s.Waits act) :
    (s.act act).whole = s.whole
      ∨ ∃ ev, ev.Regular H s.whole ∧ (s.act act).whole = s.whole.step ev := by
  rcases s.whole_act act with ⟨-, hwhole⟩ | ⟨ev, hev, hwhole⟩
  · exact Or.inl hwhole
  · exact Or.inr ⟨ev, h.regular hact hH hwaits hev, hwhole⟩

theorem act (h : s.Served H P) {act : Act} (hact : act.regular = true)
    (hH : ∀ p, H s.engine.now p (s.backend.store.privileges p)) (hwaits : s.Waits act) :
    (s.act act).Served H P where
  stocked := h.stocked.act hact
  punctual := by
    rcases h.whole_act hact hH hwaits with hwhole | ⟨ev, hreg, hwhole⟩
    · exact hwhole ▸ h.punctual
    · exact hwhole ▸ h.punctual.step hreg

/-- **At rest no entry is older than a period**, once the refresh has been started. -/
theorem aged (h : s.Served H P) (hstarted : s.engine.lifecycle ≠ .idle) (hrest : s.AtRest) :
    Aged H P s.whole :=
  h.punctual.aged hstarted (hrest.whole h.punctual.active) (h.free hrest)

end Served

/-! ### Runs from rest to rest

The history is taken from the run itself: what a principal held at a moment is what the store
said then. -/

/-- The principal held `S` at the moment `r` of the run. -/
def Held (s : Site) (acts : List Act) : History := fun r p S =>
  ∃ l, l <+: acts ∧ (s.run l).engine.now = r ∧ (s.run l).backend.store.privileges p = S

theorem Unhurried.append {s : Site} {l l' : List Act} (h : s.Unhurried (l ++ l')) :
    s.Unhurried l ∧ (s.run l).Unhurried l' := by
  induction l generalizing s with
  | nil => exact ⟨trivial, h⟩
  | cons act l ih =>
    obtain ⟨hl, hl'⟩ := ih h.2
    exact ⟨⟨h.1, hl⟩, hl'⟩

/-- **A run that hurries nobody leaves the site served**, and keeps what every step of regular
service keeps. -/
theorem Served.run {s : Site} {P : Nat} {acts done rest : List Act} {Q : List Act → Site → Prop}
    (h : (s.run done).Served (s.Held acts) P) (hQ : Q rest (s.run done))
    (hall : done ++ rest <+: acts) (hregular : ∀ act ∈ rest, act.regular = true)
    (hwaits : (s.run done).Unhurried rest)
    (hstep : ∀ {t : Site} {act : Act} {rest : List Act}, t.Served (s.Held acts) P →
      ((t.act act).whole = t.whole ∨ ∃ ev, ev.Regular (s.Held acts) t.whole
        ∧ (t.act act).whole = t.whole.step ev) → Q (act :: rest) t → Q rest (t.act act)) :
    (s.run (done ++ rest)).Served (s.Held acts) P ∧ Q [] (s.run (done ++ rest)) := by
  induction rest generalizing done with
  | nil =>
    rw [List.append_nil]
    exact ⟨h, hQ⟩
  | cons act rest ih =>
    have hact := hregular act List.mem_cons_self
    have hH : ∀ p,
        s.Held acts (s.run done).engine.now p ((s.run done).backend.store.privileges p) :=
      fun p => ⟨done, (List.prefix_append done _).trans hall, rfl, rfl⟩
    have hthen : s.run (done ++ [act]) = (s.run done).act act := List.foldl_append ..
    rw [List.append_cons] at hall ⊢
    refine ih ?_ ?_ hall (fun a ha => hregular a (List.mem_cons_of_mem act ha)) ?_
    · rw [hthen]
      exact h.act hact hH hwaits.1
    · rw [hthen]
      exact hstep h (h.whole_act hact hH hwaits.1) hQ
    · rw [hthen]
      exact hwaits.2

/-- In such a run a refresh that is started is started for good. -/
theorem Served.run_started {s : Site} {P : Nat} {acts done rest : List Act}
    (h : (s.run done).Served (s.Held acts) P) (hall : done ++ rest <+: acts)
    (hregular : ∀ act ∈ rest, act.regular = true) (hwaits : (s.run done).Unhurried rest)
    (hstart : (s.run done).engine.lifecycle ≠ .idle ∨ .ask (.start true) ∈ rest) :
    (s.run (done ++ rest)).Served (s.Held acts) P
      ∧ (s.run (done ++ rest)).engine.lifecycle ≠ .idle := by
  refine (h.run (Q := fun rest t => t.engine.lifecycle ≠ .idle ∨ .ask (.start true) ∈ rest) hstart
    hall hregular hwaits ?_).imp_right (·.resolve_right List.not_mem_nil)
  intro t act rest ht hact hQ
  rcases hQ with hstarted | hstart
  · refine Or.inl ?_
    rcases hact with hwhole | ⟨ev, hreg, hwhole⟩
    · have hlife : (t.act act).whole.lifecycle = t.whole.lifecycle := by rw [hwhole]
      exact hlife ▸ hstarted
    · have hlife := hreg.started ht.punctual (Or.inr hstarted)
      rw [← hwhole] at hlife
      exact hlife
  · refine (List.mem_cons.mp hstart).imp_left ?_
    rintro rfl
    have hreg : (Event.start true).Regular (s.Held acts) t.whole := rfl
    have hlife := hreg.started ht.punctual (Or.inl rfl)
    rw [← t.whole_ask] at hlife
    exact hlife

/-- And once no entry is older than a period none ever is. -/
theorem Served.run_aged {s : Site} {P : Nat} {acts done rest : List Act}
    (h : (s.run done).Served (s.Held acts) P) (hall : done ++ rest <+: acts)
    (hregular : ∀ act ∈ rest, act.regular = true) (hwaits : (s.run done).Unhurried rest)
    (hstarted : (s.run done).engine.lifecycle ≠ .idle)
    (haged : Aged (s.Held acts) P (s.run done).whole) :
    (s.run (done ++ rest)).Served (s.Held acts) P
      ∧ Aged (s.Held acts) P (s.run (done ++ rest)).whole := by
  refine (h.run (Q := fun _ t => t.whole.lifecycle ≠ .idle ∧ Aged (s.Held acts) P t.whole)
    ⟨hstarted, haged⟩ hall hregular hwaits ?_).imp_right And.right
  intro t act rest ht hact hQ
  obtain ⟨hstarted, haged⟩ := hQ
  rcases hact with hwhole | ⟨ev, hreg, hwhole⟩
  · rw [hwhole]
    exact ⟨hstarted, haged⟩
  · rw [hwhole]
    exact ⟨hreg.started ht.punctual (Or.inr hstarted), haged.step ht.punctual hstarted hreg⟩

end Site

/-! ## How old the entries are

A statement about moments of the run is made from one about events: the moment at which an entry
was read is one at which the store held what the entry says. -/

/-- After the run every entry says what its principal held at a moment of the run that is no longer
ago than `P` milliseconds; so whoever asks, more than `P` milliseconds after a principal has lost a
privilege for good, is told from the cache that it is denied, if the cache knows the principal. -/
structure Site.Lags (s : Site) (acts : List Act) (P : Nat) : Prop where
  entries : ∀ {p S}, (s.run acts).engine.cache.get? p = some S → ∃ l, l <+: acts
    ∧ (s.run acts).engine.now ≤ (s.run l).engine.now + P
    ∧ (s.run l).backend.store.privileges p = S
  revoked : ∀ {revoked}, revoked <+: acts →
    (s.run revoked).engine.now + P < (s.run acts).engine.now → ∀ {e p a},
    (∀ l, revoked <+: l → l <+: acts → ⟨e, a⟩ ∉ (s.run l).backend.store.privileges p) →
    (s.run acts).engine.cache.get? p = none
      ∨ (s.run acts).AtOnce e p a (.failed (.permissionDenied p e a))

/-- An entry that is no older than `P` milliseconds does not keep what was lost before. -/
theorem Site.Lags.of_entries {s : Site} {acts : List Act} {P : Nat} (h : s.InOrder)
    (ha : (s.run acts).engine.settings.cachingActive = true)
    (hd : (s.run acts).engine.dropped = false)
    (hentries : ∀ {p S}, (s.run acts).engine.cache.get? p = some S → ∃ l, l <+: acts
      ∧ (s.run acts).engine.now ≤ (s.run l).engine.now + P
      ∧ (s.run l).backend.store.privileges p = S) : s.Lags acts P where
  entries := hentries
  revoked {revoked} hrevoked hlate e p a hlost := by
    cases hS : (s.run acts).engine.cache.get? p with
    | none => exact Or.inl rfl
    | some S =>
      obtain ⟨l, hl, hnow, rfl⟩ := hentries hS
      -- the entry was read after the principal had lost the privilege, since time does not go back
      have hafter : revoked <+: l := by
        refine (List.prefix_or_prefix_of_prefix hrevoked hl).resolve_right ?_
        rintro ⟨rest, rfl⟩
        have hle := (h.run l).now_le_run rest
        have hrun : (s.run l).run rest = s.run (l ++ rest) := (List.foldl_append ..).symm
        rw [hrun] at hle
        omega
      have hdenied : State.decision ((s.run l).backend.store.privileges p) e p a
          = .failed (.permissionDenied p e a) := if_neg (hlost l hafter hl)
      exact Or.inr (hdenied ▸ Site.atOnce_of_entry ha hd hS e a)

/-- **The cache lags behind by no more than one interval.**  In a run from a new site with the store
for its backend, in which time goes on only at rest, somebody starts the refresh; from the first
moment of rest after that on, no entry is older than one interval. -/
theorem entries_lag_one_interval {settings : Settings} {P : Nat} {before after : List Act}
    (ha : settings.cachingActive = true)
    (hP : settings.refreshInterval.nanos = P * nanosPerMilli) (hpos : 0 < P)
    (hparallel : max 1 settings.refreshParallelism ≤ State.maxParallelism)
    (hregular : ∀ act ∈ before ++ after, act.regular = true)
    (hwaits : (Site.initial settings .store).Unhurried (before ++ after))
    (hstart : .ask (.start true) ∈ before)
    (hrest : ((Site.initial settings .store).run before).AtRest) :
    (Site.initial settings .store).Lags (before ++ after) P := by
  generalize hs : Site.initial settings .store = s at hwaits hrest ⊢
  obtain ⟨hbefore, hafter⟩ := hwaits.append
  have hserved : (s.run []).Served (s.Held (before ++ after)) P :=
    hs ▸ ⟨.initial settings, .initial _ false ha hP hpos hparallel⟩
  have horder := hserved.stocked.order
  obtain ⟨hserved, hstarted⟩ := hserved.run_started (List.prefix_append _ _)
    (fun act hact => hregular act (List.mem_append_left after hact)) hbefore (Or.inr hstart)
  rw [List.nil_append] at hserved hstarted
  obtain ⟨hserved, haged⟩ := hserved.run_aged (List.prefix_refl _)
    (fun act hact => hregular act (List.mem_append_right before hact)) hafter hstarted
    (hserved.aged hstarted hrest)
  refine .of_entries horder hserved.punctual.active hserved.punctual.there fun {p S} hS => ?_
  obtain ⟨r, hr, l, hl, rfl, hheld⟩ := haged hS
  exact ⟨l, hl, hr, hheld⟩

/-- The cache is refreshed every millisecond.  What a principal has been granted is in the cache
before the refresh is started; it is revoked at once, and two milliseconds later, before the worker
has taken its next tick, whoever asks is told so from the cache. -/
theorem entries_lag_one_interval_of_revoke :
    let e : Entity := .space "docs"
    let p : Principal := ⟨.user, "alice"⟩
    let settings : Settings :=
      { authorization := true, refreshInterval := ⟨1000000, by decide⟩ }
    let s := Site.initial settings .store
    let before : List Act := [.store (.grant e p [.read]), .ask (.update p), .poll 1,
      .ask (.start true), .ask (.wake 3), .ask (.launch 4 p), .poll 5, .ask (.collect 4 p)]
    let revoke : Act := .store (.revoke e p [.read])
    let after : List Act := [.ask (.elapse 1), .ask (.wake 3), .ask (.launch 6 p), .poll 7,
      .ask (.collect 6 p), .ask (.elapse 1)]
    let acts := before ++ revoke :: after
    s.Unhurried acts ∧ (s.run before).AtRest
      ∧ (s.run before).engine.cache.get? p = some (.ofList [⟨e, .read⟩])
      ∧ (s.run (before ++ [revoke])).engine.now + 1 < (s.run acts).engine.now
      ∧ s.Lags acts 1
      ∧ (s.run acts).AtOnce e p .read (.failed (.permissionDenied p e .read)) := by
  intro e p settings s before revoke after acts
  have ha : settings.cachingActive = true := rfl
  have horder : s.InOrder := .initial settings .store
  have hwaits : s.Unhurried acts := (horder.unhurried_iff ha _).mpr (by decide +kernel)
  have hactive : (s.run before).engine.settings.cachingActive = true :=
    (congrArg Settings.cachingActive (horder.settings_run before)).trans ha
  have hrest : (s.run before).AtRest := (Site.atRest_iff hactive).mpr (by decide +kernel)
  have hlate : (s.run (before ++ [revoke])).engine.now + 1 < (s.run acts).engine.now := by
    decide +kernel
  have hentry : (s.run acts).engine.cache.get? p ≠ none := by decide +kernel
  have hlags : s.Lags acts 1 := entries_lag_one_interval ha rfl (by decide) (by decide)
    (by decide) hwaits (by simp [before]) hrest
  refine ⟨hwaits, hrest, by decide +kernel, hlate, hlags, ?_⟩
  refine (hlags.revoked ⟨after, List.append_assoc ..⟩ hlate ?_).resolve_left hentry
  rintro - ⟨l, rfl⟩ hl
  have hlost : ∀ l ∈ after.inits,
      ⟨e, .read⟩ ∉ (s.run (before ++ [revoke] ++ l)).backend.store.privileges p := by
    decide +kernel
  have hacts : acts = before ++ [revoke] ++ after := List.append_cons ..
  rw [hacts, List.prefix_append_right_inj] at hl
  exact hlost l ((List.mem_inits _ _).mpr hl)

end Gatekeeper

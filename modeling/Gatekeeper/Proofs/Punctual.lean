import Gatekeeper.Proofs.Clock
import Gatekeeper.Proofs.Provenance
import Gatekeeper.Proofs.Rest
import Gatekeeper.Proofs.Roster

/-!
# Workers that keep their times

A worker takes its first tick as soon as it runs, and the next ones a period apart.  Where lists
come back at once and say what is so, and time does not go on before everything that can run has
run, no tick is late: a pass is over at the moment when it was begun, and leaves no entry that was
not read at that moment.  What others bring in between two ticks is younger still.  So by the time
of a tick no entry is older than one period.

* `Event.Regular` — what happens where nothing goes wrong and nobody hurries.
* `step_landing`, `step_entry` — where results and entries come from in such a step.
* `Stage`, `Pace` — what a worker is doing, what is so of the entries meanwhile, and what leaves it
  so (`Pace.keep`).
* `Punctual` — an engine whose worker keeps its times, and `Punctual.step`.
* `Aged` — no entry is older than a period: `Punctual.aged` says that this is so at rest, and
  `Aged.step` that it remains so.

The invariant follows one worker from tick to tick.  At the moment of a tick all entries may be
up to a period old; while the pass is under way time stands still, and the entries fall into
those that have been renewed and those that are still with the pass; when it is over all are as
young as the tick.  Entries that others bring in are read when they are brought in, so they can
only be younger.
-/

set_option autoImplicit false

namespace Gatekeeper.Engine

section

variable {ev : Event} {s t : State} {n w : Id} {p : Principal} {S : PrivilegeSet}
  {pass pass' : Pass} {l : Landing} {k : Worker}

/-! ## What a move leaves of a pass

If a pass loses a principal, it has looked at a result about it or has been abandoned. -/

/-- A pass of a worker keeps its principals, unless it looks at a result or is abandoned. -/
theorem Goes.keeps (h : Goes ev s t n pass) (hcollect : ∀ p, ev ≠ .collect n p)
    (habandon : ev.abandons = false) (hd : pass.driver = .worker w) :
    ∃ pass', t.passes.get? n = some pass' ∧ pass'.driver = .worker w
      ∧ pass'.principals.Perm pass.principals := by
  cases h with
  | stays hp => exact ⟨pass, hp, hd, .refl _⟩
  | launches hev hq hp => exact ⟨_, hp, hd, pass.principals_fly hq⟩
  | lands hc ho he hf hp => exact ⟨_, hp, hd, pass.principals_land hf⟩
  | looks hh hl hp hev => exact absurd hev (hcollect _)
  | closes hh hl hp hr hev => exact absurd hev (hcollect _)
  | cancelled hd' =>
    rw [hd] at hd'
    cases hd'
  | abandoned hd' hp hev =>
    rw [habandon] at hev
    cases hev

theorem step_keeps_pass (hb : Books s) (hcollect : ∀ p, ev ≠ .collect n p)
    (habandon : ev.abandons = false) (hp : s.passes.get? n = some pass)
    (hd : pass.driver = .worker w) :
    ∃ pass', (s.step ev).passes.get? n = some pass' ∧ pass'.principals.Perm pass.principals := by
  have hkept : ∃ pass', (s.step ev).passes.get? n = some pass' ∧ pass'.driver = .worker w
      ∧ pass'.principals.Perm pass.principals := by
    refine (step_moves hb.orderly ev).keeps_of_books (P := fun t => ∃ pass', t.passes.get? n
      = some pass' ∧ pass'.driver = .worker w ∧ pass'.principals.Perm pass.principals) hb
      ⟨pass, hp, hd, .refl _⟩ ?_
    rintro t u hb ⟨pass₁, hp₁, hd₁, hperm₁⟩ m
    obtain ⟨pass₂, hp₂, hd₂, hperm₂⟩ := (m.goes hb hp₁).keeps hcollect habandon hd₁
    exact ⟨pass₂, hp₂, hd₂, hperm₂.trans hperm₁⟩
  obtain ⟨pass', hp', -, hperm⟩ := hkept
  exact ⟨pass', hp', hperm⟩

/-! ## Where results come from

A result that has landed is that of a call that ended in the step, since nothing else lands. -/

/-- A result that has landed after a move had landed before, or is that of a call that ends. -/
theorem Move.landed (hb : Books s) (m : Move ev s t) (hp' : t.passes.get? n = some pass')
    (hl : l ∈ pass'.landed) : (∃ pass, s.passes.get? n = some pass ∧ l ∈ pass.landed)
      ∨ ∃ id call ending r, s.calls.get? id = some call ∧ Ends ev s id call ending r
        ∧ l = ⟨call.principal, id, r⟩ := by
  have hsame : ∀ {pass₁ : Pass}, t.passes.get? n = some pass₁ → pass' = pass₁ := fun hp₁ =>
    Option.some_inj.mp (hp'.symm.trans hp₁)
  rcases m.known hp' with ⟨pass, hp⟩ | ⟨-, d, rfl⟩
  · cases m.goes hb hp with
    | stays hp₁ | launches hev hq hp₁ =>
      rw [hsame hp₁] at hl
      exact Or.inl ⟨pass, hp, hl⟩
    | @lands id call ending r hc ho he hf hp₁ =>
      rw [hsame hp₁] at hl
      rcases List.mem_append.mp hl with hl | hl
      · exact Or.inl ⟨pass, hp, hl⟩
      · exact Or.inr ⟨id, call, ending, r, hc, he, List.mem_singleton.mp hl⟩
    | looks hh hl' hp₁ =>
      rw [hsame hp₁] at hl
      exact Or.inl ⟨pass, hp, List.mem_of_mem_erase hl⟩
    | closes hh hl' hp₁ | cancelled hd hp₁ | abandoned hd hp₁ =>
      rw [hp'] at hp₁
      cases hp₁
  · exact absurd hl List.not_mem_nil

/-- A call that asks for a list ends when it is answered, or when its time is up. -/
def Event.settles : Event → Bool
  | .answer .. | .expire _ => true
  | _ => false

theorem Ends.settles {id : Id} {call : Call} {ending : Ending} {r : Reply PrivilegeSet}
    (h : Ends ev s id call ending r) : ev.settles = true := by
  cases h with
  | answer hev | expire hev => rw [hev]; rfl

/-- **A result that has landed after a step had landed before**, or is that of a call that ends. -/
theorem step_landing (hb : Books s) (hp' : (s.step ev).passes.get? n = some pass')
    (hl : l ∈ pass'.landed) : (∃ pass, s.passes.get? n = some pass ∧ l ∈ pass.landed)
      ∨ ∃ id call ending r, s.calls.get? id = some call ∧ Ends ev s id call ending r
        ∧ l = ⟨call.principal, id, r⟩ := by
  cases hev : ev.settles with
  | true =>
    have hrewrites : ev.rewrites = true := by cases ev <;> first | rfl | cases hev
    rcases step_move s hrewrites with hs | m
    · exact Or.inl ⟨pass', hs ▸ hp', hl⟩
    · exact m.landed hb hp' hl
  | false =>
    refine Or.inl ((step_moves hb.orderly ev).keeps_of_books (P := fun t => ∀ {pass'},
      t.passes.get? n = some pass' → l ∈ pass'.landed →
        ∃ pass, s.passes.get? n = some pass ∧ l ∈ pass.landed) hb
      (fun hp' hl => ⟨_, hp', hl⟩) ?_ hp' hl)
    intro t u hb hold m pass' hp' hl
    rcases m.landed hb hp' hl with ⟨pass, hp, hl⟩ | ⟨id, call, ending, r, -, hends, -⟩
    · exact hold hp hl
    · rw [hends.settles] at hev
      cases hev

/-! ## Where entries come from

An entry that is new comes from a call that ended or from a result that a pass looked at, if
nobody writes into the cache by hand. -/

/-- An entry after a move was there before, or is the list of a call that ends, or that of a result
that has landed. -/
theorem Move.entry (m : Move ev s t) (hev : ∀ p S, ev ≠ .write p S)
    (hS : t.cache.get? p = some S) : s.cache.get? p = some S
      ∨ (∃ id call ending, s.calls.get? id = some call ∧ call.principal = p
        ∧ Ends ev s id call ending (.value S))
      ∨ ∃ n pass l, s.passes.get? n = some pass ∧ l ∈ pass.landed ∧ l.principal = p
        ∧ l.reply = .value S := by
  have hput : ∀ {q : Principal} {r : Reply PrivilegeSet}, (r.put q s.cache).get? p = some S →
      s.cache.get? p = some S ∨ q = p ∧ r = .value S := by
    intro q r hS
    cases r with
    | value S' =>
      rcases Table.get?_put_eq_some_iff.mp hS with ⟨rfl, rfl⟩ | ⟨-, hS⟩
      · exact Or.inr ⟨rfl, rfl⟩
      · exact Or.inl hS
    | _ => exact Or.inl hS
  have hends : ∀ {id : Id} {call : Call} {ending : Ending} {r : Reply PrivilegeSet},
      s.calls.get? id = some call → Ends ev s id call ending r →
      (r.put call.principal s.cache).get? p = some S → s.cache.get? p = some S
        ∨ ∃ id call ending, s.calls.get? id = some call ∧ call.principal = p
          ∧ Ends ev s id call ending (.value S) := by
    intro id call ending r hc he hS
    rcases hput hS with hS | ⟨hp, rfl⟩
    · exact Or.inl hS
    · exact Or.inr ⟨id, call, ending, hc, hp, he⟩
  have hlands : ∀ {n : Id} {pass : Pass} {l : Landing}, s.passes.get? n = some pass →
      l ∈ pass.landed → (l.reply.put l.principal s.cache).get? p = some S →
      s.cache.get? p = some S ∨ ∃ n pass l, s.passes.get? n = some pass ∧ l ∈ pass.landed
        ∧ l.principal = p ∧ l.reply = .value S := by
    intro n pass l hp hl hS
    rcases hput hS with hS | ⟨hq, hr⟩
    · exact Or.inl hS
    · exact Or.inr ⟨n, pass, l, hp, hl, hq, hr⟩
  cases hrewrites : ev.rewrites with
  | false => exact Or.inl (m.cache_eq hrewrites ▸ hS)
  | true =>
    cases m with
    | quiet hq => exact Or.inl (hq.cache ▸ hS)
    | fetchEnds hc ho ha he =>
      rw [State.settleFetch_eq] at hS
      exact (hends hc he hS).imp_right Or.inl
    | updateEnds hc ho he =>
      rw [State.settleUpdate_eq] at hS
      exact (hends hc he hS).imp_right Or.inl
    | look hev' hp hh hl =>
      rw [State.digest_eq] at hS
      exact (hlands hp hl hS).imp_right Or.inr
    | close hev' hp hh hl =>
      rw [State.digest_eq] at hS
      refine (hlands hp hl ?_).imp_right Or.inr
      revert hS
      cases Pass.driver _ <;> exact id
    | write hev' => exact absurd hev' (hev _ _)
    | clear => cases hS
    | leaveCall hev' | leavePass hev' =>
      rw [hev'] at hrewrites
      cases hrewrites
    | abandon hp =>
      rw [State.dropPass_eq] at hS
      exact Or.inl hS
    | _ => exact Or.inl hS

/-- **An entry after a step was there before**, or is the list of a call that ends, or that of a
result that has landed. -/
theorem step_entry (hb : Books s) (hev : ∀ p S, ev ≠ .write p S)
    (hS : (s.step ev).cache.get? p = some S) : s.cache.get? p = some S
      ∨ (∃ id call ending, s.calls.get? id = some call ∧ call.principal = p
        ∧ Ends ev s id call ending (.value S))
      ∨ ∃ n pass l, s.passes.get? n = some pass ∧ l ∈ pass.landed ∧ l.principal = p
        ∧ l.reply = .value S := by
  cases hrewrites : ev.rewrites with
  | false => exact Or.inl (step_cache_eq hb.orderly hrewrites ▸ hS)
  | true =>
    rcases step_move s hrewrites with hs | m
    · exact Or.inl (hs ▸ hS)
    · exact m.entry hev hS

end

/-! ## Regular service

The hypothesis on the run is put as a condition on each event, given what the principals hold at
each moment.  `Stage` is what a worker can be doing, and with each stage goes what is known of
the entries: how long ago they were read at the most, and which of them the pass at hand is still
to renew. -/

/-- `H r p S` says that the principal `p` held `S` at the moment `r`. -/
abbrev History := Nat → Principal → PrivilegeSet → Prop

/-- Nothing goes wrong and nobody hurries: a call is answered with what is so at the moment, before
its time is up; time goes on only when there is nothing left to do; and nobody but the engine writes
into the cache or has workers of his own, nor ends its life. -/
def Event.Regular (H : History) (s : State) : Event → Prop
  | .answer id r => ∀ call, s.calls.get? id = some call →
    ∃ S, r = .value S ∧ H s.now call.principal S
  | .elapse millis => ∀ m < millis, { s with now := s.now + m }.AtRest ∧ ∀ n, s.passes.get? n = none
  | .expire _ | .write .. | .shutdown | .drop => False
  | ev => ev.hosted = true

/-- What a worker is doing, and what is so of the entries meanwhile. -/
inductive Stage (H : History) (P : Nat) (s : State) (k : Worker) : Prop
  | fresh (hk : k.phase = .fresh)
  /-- No entry will be older than a period by the next tick, and the tick is not late. -/
  | idle {due : Nat} (hk : k.phase = .idle) (hd : k.due = due * nanosPerMilli) (hnow : s.now ≤ due)
    (hdue : due ≤ s.now + P)
    (he : ∀ {p S}, s.cache.get? p = some S → ∃ r, due ≤ r + P ∧ H r p S)
  /-- The pass was begun at this moment, and every entry is up to date or has yet to be renewed. -/
  | refreshing {n : Id} (hk : k.phase = .refreshing n) (hd : k.due = (s.now + P) * nanosPerMilli)
    (he : ∀ {p S}, s.cache.get? p = some S → H s.now p S
      ∨ ∃ pass, s.passes.get? n = some pass ∧ p ∈ pass.principals)

/-- A worker with a period of `P` milliseconds keeps its times. -/
structure Pace (H : History) (P : Nat) (s : State) (k : Worker) : Prop where
  going : k.stopping = false
  period : k.period.nanos = P * nanosPerMilli
  stage : Stage H P s k

/-- An engine that refreshes its cache every `P` milliseconds: what has landed says what is so at
the moment, and the worker, once it has come up, keeps its times. -/
structure Punctual (H : History) (P : Nat) (s : State) : Prop extends Roster s where
  parallelism : s.parallelism ≤ State.maxParallelism
  interval : s.settings.refreshInterval.nanos = P * nanosPerMilli
  there : s.dropped = false
  going : s.lifecycle ≠ .stopped
  landed : ∀ {n pass}, s.passes.get? n = some pass → ∀ l ∈ pass.landed,
    ∃ S, l.reply = .value S ∧ H s.now l.principal S
  paced : ∀ {w k}, s.workers.get? w = some k → Pace H P s k

section

variable {H : History} {P : Nat} {ev : Event} {s t : State} {n w : Id} {p : Principal}
  {S : PrivilegeSet} {pass : Pass} {l : Landing} {k : Worker}

namespace Event.Regular

theorem hosted (h : ev.Regular H s) : ev.hosted = true := by
  cases ev with
  | spawn | stop | release | start => exact h
  | _ => rfl

theorem ends (h : ev.Regular H s) {id : Id} {call : Call} {ending : Ending}
    {r : Reply PrivilegeSet} (hc : s.calls.get? id = some call) (he : Ends ev s id call ending r) :
    ∃ S, r = .value S ∧ H s.now call.principal S := by
  cases he with
  | answer hev =>
    rw [hev] at h
    exact h call hc
  | expire hev =>
    rw [hev] at h
    exact h.elim

/-- What gets into the cache is so at the moment. -/
theorem entry (h : ev.Regular H s) (hs : Punctual H P s)
    (hS : (s.step ev).cache.get? p = some S) : s.cache.get? p = some S ∨ H s.now p S := by
  have hwrite : ∀ p S, ev ≠ .write p S := by
    rintro p S rfl
    exact h
  rcases step_entry hs.books hwrite hS with
    hS | ⟨id, call, ending, hc, rfl, he⟩ | ⟨n, pass, l, hp, hl, rfl, hr⟩
  · exact Or.inl hS
  · obtain ⟨S', hS', hH⟩ := h.ends hc he
    exact Or.inr (Reply.value.inj hS' ▸ hH)
  · obtain ⟨S', hS', hH⟩ := hs.landed hp l hl
    rw [hr] at hS'
    exact Or.inr (Reply.value.inj hS' ▸ hH)

/-- What lands is so at the moment, and has been looked at when time goes on. -/
theorem landing (h : ev.Regular H s) (hs : Punctual H P s)
    (hp : (s.step ev).passes.get? n = some pass) (hl : l ∈ pass.landed) :
    ∃ S, l.reply = .value S ∧ H (s.step ev).now l.principal S := by
  by_cases helapse : ∃ millis, ev = .elapse millis
  · obtain ⟨millis, rfl⟩ := helapse
    cases millis with
    | zero => exact hs.landed hp l hl
    | succ millis =>
      have hnone : (s.step (.elapse (millis + 1))).passes.get? n = none :=
        (h 0 (Nat.succ_pos _)).2 n
      rw [hnone] at hp
      cases hp
  · rw [step_now s fun millis he => helapse ⟨millis, he⟩]
    rcases step_landing hs.books hp hl with
      ⟨pass', hp', hl'⟩ | ⟨id, call, ending, r, hc, he, rfl⟩
    · exact hs.landed hp' l hl'
    · exact h.ends hc he

end Event.Regular

/-! ## What leaves a worker on time

The invariant is kept by each of the few things that workers do and by everything else.  The
argument that matters is in `look` and `close`: an entry is struck from those still to be renewed
only when it has been, and when none is left all entries are as young as the pass. -/

/-- A worker keeps its times at a moment at which new entries are up to date, and its pass drops no
principal whose entry is not. -/
theorem Pace.keep (h : Pace H P s k) (hnow : t.now = s.now)
    (hcache : ∀ {p S}, t.cache.get? p = some S → s.cache.get? p = some S ∨ H s.now p S)
    (hpass : ∀ {n pass}, k.phase = .refreshing n → s.passes.get? n = some pass →
      ∀ {p S}, p ∈ pass.principals → t.cache.get? p = some S →
      H s.now p S ∨ ∃ pass', t.passes.get? n = some pass' ∧ p ∈ pass'.principals) :
    Pace H P t k where
  going := h.going
  period := h.period
  stage := by
    cases h.stage with
    | fresh hk => exact .fresh hk
    | idle hk hd hle hdue he =>
      refine .idle hk hd (hnow ▸ hle) (hnow ▸ hdue) fun {p S} hS => ?_
      rcases hcache hS with hS | hH
      · exact he hS
      · exact ⟨s.now, hdue, hH⟩
    | refreshing hk hd he =>
      refine .refreshing hk (hnow ▸ hd) fun {p S} hS => ?_
      rw [hnow]
      rcases hcache hS with hold | hH
      · rcases he hold with hH | ⟨pass, hp, hmem⟩
        · exact Or.inl hH
        · exact hpass hk hp hmem hS
      · exact Or.inl hH

namespace Punctual

/-- A new engine has no worker yet. -/
theorem initial (H : History) {settings : Settings} (checks : Bool)
    (ha : settings.cachingActive = true)
    (hP : settings.refreshInterval.nanos = P * nanosPerMilli) (hpos : 0 < P)
    (hparallel : max 1 settings.refreshParallelism ≤ State.maxParallelism) :
    Punctual H P (.initial settings checks) := by
  have hz : settings.refreshInterval.isZero = false := by
    rw [Span.isZero, hP, beq_eq_false_iff_ne]
    exact Nat.mul_ne_zero (Nat.ne_of_gt hpos) (by decide)
  exact { Roster.of_periodic checks ha hz with
    parallelism := hparallel, interval := hP, there := rfl
    going := by simp [State.initial], landed := by rintro n pass ⟨⟩, paced := by rintro w k ⟨⟩ }

/-- A worker in the middle of a pass drives it. -/
theorem driver (h : Punctual H P s) (hw : s.workers.get? w = some k) (hk : k.phase = .refreshing n)
    (hp : s.passes.get? n = some pass) : pass.driver = .worker w := by
  obtain ⟨pass', hp', hd⟩ := (h.staffed w n).mpr ⟨k, hw, hk⟩
  rw [hp, Option.some_inj] at hp'
  exact hp' ▸ hd

/-- At rest, with no pass under way, the worker waits for its next tick. -/
theorem resting (h : Punctual H P s) (hrest : s.AtRest) (hfree : ∀ n, s.passes.get? n = none)
    (hw : s.workers.get? w = some k) : ∃ due, k.phase = .idle ∧ k.due = due * nanosPerMilli
      ∧ s.now < due ∧ due ≤ s.now + P
      ∧ ∀ {p S}, s.cache.get? p = some S → ∃ r, due ≤ r + P ∧ H r p S := by
  have hdormant := hrest.wake h.active hw
  rw [Worker.dormant] at hdormant
  cases (h.paced hw).stage with
  | fresh hk =>
    rw [hk] at hdormant
    cases hdormant
  | @idle due hk hd hnow hdue he =>
    simp only [hk, hd, State.nowNanos, Bool.and_eq_true, decide_eq_true_iff] at hdormant
    exact ⟨due, hk, hd, Nat.lt_of_mul_lt_mul_right hdormant.2, hdue, he⟩
  | @refreshing n hk =>
    obtain ⟨pass, hp, -⟩ := (h.staffed w n).mpr ⟨k, hw, hk⟩
    rw [hfree n] at hp
    cases hp

/-- The worker keeps its times as time goes on, and no tick is missed. -/
theorem elapse (h : Punctual H P s) {millis : Nat} (hreg : (Event.elapse millis).Regular H s)
    (hw : s.workers.get? w = some k) : Pace H P (s.step (.elapse millis)) k := by
  cases millis with
  | zero => exact h.paced hw
  | succ millis =>
    obtain ⟨hrest, hfree⟩ := hreg 0 (Nat.succ_pos _)
    obtain ⟨due, hk, hd, -, hdue, he⟩ := h.resting hrest hfree hw
    -- the last moment before the time is up is a moment of rest
    have hlast := State.AtRest.wake (s := { s with now := s.now + millis }) h.active
      (hreg millis (Nat.lt_succ_self _)).1 hw
    rw [Worker.dormant] at hlast
    simp only [hk, hd, State.nowNanos, Bool.and_eq_true, decide_eq_true_iff] at hlast
    have hlt : s.now + millis < due := Nat.lt_of_mul_lt_mul_right hlast.2
    have hnow : (s.step (.elapse (millis + 1))).now = s.now + (millis + 1) := rfl
    exact ⟨(h.paced hw).going, (h.paced hw).period,
      .idle hk hd (hnow ▸ hlt) (by omega) he⟩

/-- What has nothing to do with workers leaves them on time. -/
theorem aloof (h : Punctual H P s) (hreg : ev.Regular H s) (hev : ev.aloof = true)
    (helapse : ∀ millis, ev ≠ .elapse millis) (hw : (s.step ev).workers.get? w = some k) :
    Pace H P (s.step ev) k := by
  rw [(step_aloof hev).workers] at hw
  refine (h.paced hw).keep (step_now s helapse) (hreg.entry h) fun hk hp p S hmem hS => Or.inr ?_
  have hcollect : ∀ {n} p, ev ≠ .collect n p := by
    rintro n p rfl
    cases hev
  have habandon : ev.abandons = false := by
    cases ev with
    | wake | release | drop => cases hev
    | _ => rfl
  obtain ⟨pass', hp', hperm⟩ :=
    step_keeps_pass h.books hcollect habandon hp (h.driver hw hk hp)
  exact ⟨pass', hp', hperm.mem_iff.mpr hmem⟩

/-- Whoever starts the refresh leaves the worker on time, or has one come up. -/
theorem start (h : Punctual H P s) (hw : (s.step (.start true)).workers.get? w = some k) :
    Pace H P (s.step (.start true)) k := by
  have hnow : (s.step (.start true)).now = s.now := step_now s (by simp)
  have hcache : (s.step (.start true)).cache = s.cache := step_cache_eq h.books.orderly rfl
  have hstep := step_start h.there true
  cases hl : s.lifecycle with
  | idle =>
    rw [hstep, (h.start_first hl).2] at hw
    rcases Table.get?_put_eq_some_iff.mp hw with ⟨-, rfl⟩ | ⟨-, hw⟩
    · exact ⟨rfl, h.interval, .fresh rfl⟩
    · rw [h.idle hl w] at hw
      cases hw
  | running v =>
    have hs : s.start true = (s.enter .start).finish s.next .started :=
      State.start_running h.active hl true
    rw [hstep, hs] at hw
    refine (h.paced hw).keep hnow (fun hS => Or.inl (hcache ▸ hS)) fun hk hp p S hmem hS =>
      Or.inr ⟨_, ?_, hmem⟩
    rw [hstep, hs]
    exact hp
  | stopped => exact absurd hl h.going

/-! ### The pass of a tick

While the worker is in the middle of a pass no time goes by.  Each result that is looked at
brings in an entry that was read at this moment, and when the last has been looked at all entries
have been. -/

/-- Of the principals of a pass that looks at a result only the others have yet to be renewed. -/
theorem look (h : Punctual H P s) (hp : s.passes.get? n = some pass) (hl : l ∈ pass.landed)
    (hmem : p ∈ pass.principals) (hS : (l.reply.put l.principal s.cache).get? p = some S) :
    H s.now p S ∨ p ∈ (pass.look l).principals := by
  rcases List.mem_cons.mp ((pass.principals_look_perm hl).mem_iff.mpr hmem) with rfl | hrest
  · obtain ⟨S', hr, hH⟩ := h.landed hp l hl
    rw [hr, Reply.put, Table.get?_put_self, Option.some_inj] at hS
    exact Or.inl (hS ▸ hH)
  · exact Or.inr hrest

/-- A worker whose pass is over waits for its next tick, which is a period after the one before. -/
theorem close (h : Punctual H P s) {v : Id} (hc : Closes s ev n pass l)
    (hd : pass.driver = .worker v)
    (hw : (s.step ev).workers.get? w = some k) : Pace H P (s.step ev) k := by
  have hreg : ev.Regular H s := hc.event ▸ rfl
  have hnow : (s.step ev).now = s.now := step_now s (by simp [hc.event])
  have hstep := hc.step
  rw [hd, State.digest_eq] at hstep
  obtain ⟨k₀, hv, hk₀⟩ := h.refreshing ⟨pass, hc.present, hd⟩
  have hworkers : (s.step ev).workers = s.workers.update v ({ · with phase := .idle }) := by
    rw [hstep]
    rfl
  have hlook : ∀ {p S}, p ∈ pass.principals → (s.step ev).cache.get? p = some S → H s.now p S := by
    intro p S hmem hS
    refine (h.look hc.present hc.landed hmem ?_).resolve_right fun hrest => ?_
    · rw [hstep] at hS
      exact hS
    · have hempty : (pass.look l).principals = [] := by
        have hcomplete := hc.complete
        simp only [Pass.complete, Bool.and_eq_true, List.isEmpty_iff] at hcomplete
        simp [Pass.principals, hcomplete]
      rw [hempty] at hrest
      cases hrest
  rw [hworkers, Table.get?_update] at hw
  split at hw
  · rw [hv, Option.map_some, Option.some_inj] at hw
    subst hw
    refine ⟨(h.paced hv).going, (h.paced hv).period, ?_⟩
    cases (h.paced hv).stage with
    | fresh hk | idle hk =>
      rw [hk₀] at hk
      cases hk
    | refreshing hk hdue he =>
      refine .idle rfl hdue (hnow ▸ Nat.le_add_right _ _) (hnow ▸ Nat.le_refl _) fun {p S} hS =>
        ⟨s.now, Nat.le_refl _, ?_⟩
      rcases hreg.entry h hS with hold | hH
      · rcases he hold with hH | ⟨pass', hp', hmem⟩
        · exact hH
        · rw [hk₀] at hk
          injection hk with hk
          rw [← hk, hc.present, Option.some_inj] at hp'
          exact hlook (hp' ▸ hmem) hS
      · exact hH
  · rename_i hne
    exact absurd (h.single hw hv) hne

/-- A pass that looks at a result leaves the worker on time. -/
theorem collect (h : Punctual H P s) {q : Principal}
    (hw : (s.step (.collect n q)).workers.get? w = some k) :
    Pace H P (s.step (.collect n q)) k := by
  have hnow : (s.step (.collect n q)).now = s.now := step_now s (by simp)
  have hreg : (Event.collect n q).Regular H s := rfl
  rcases State.collect_cases s n q with hs | ⟨pass, l, hp, hh, hf⟩
  · rw [State.step, hs] at hw ⊢
    exact h.paced hw
  have hl := List.mem_of_find?_eq_some hf
  obtain rfl : l.principal = q := by simpa using List.find?_some hf
  have hstep : s.step (.collect n l.principal) = _ := State.collect_eq hp hh hf
  cases hc : (pass.look l).complete with
  | false =>
    rw [hc, if_neg Bool.false_ne_true, State.digest_eq] at hstep
    have hw₀ : s.workers.get? w = some k := by rwa [hstep] at hw
    refine (h.paced hw₀).keep hnow (hreg.entry h) fun {m pass'} hk hm {p S} hmem hS => ?_
    rw [hstep] at hS ⊢
    by_cases hne : m = n
    · subst hne
      obtain rfl := Option.some_inj.mp (hp.symm.trans hm)
      exact (h.look hp hl hmem hS).imp_right fun hrest => ⟨_, Table.get?_put_self, hrest⟩
    · exact Or.inr ⟨pass', (Table.get?_put_of_ne hne).trans hm, hmem⟩
  | true =>
    rw [hc, if_pos rfl] at hstep
    cases hd : pass.driver with
    | worker v => exact h.close ⟨rfl, hp, hh, hl, hc, hstep⟩ hd hw
    | caller c =>
      rw [hd, State.digest_eq] at hstep
      have hw₀ : s.workers.get? w = some k := by rwa [hstep] at hw
      refine (h.paced hw₀).keep hnow (hreg.entry h) fun {m pass'} hk hm {p S} hmem hS =>
        Or.inr ⟨pass', ?_, hmem⟩
      have hne : m ≠ n := by
        rintro rfl
        rw [h.driver hw₀ hk hp] at hd
        cases hd
      rw [hstep]
      exact (Table.get?_erase_of_ne hne).trans hm

/-! ### The next tick

A tick is taken at the moment at which it is due, because time has not gone on past it: the
worker would not have been at rest. -/

/-- The worker takes a tick that is not late, and begins a pass over all entries there are. -/
theorem tick (h : Punctual H P s) {v : Id} {k₀ : Worker} (hv : s.workers.get? v = some k₀)
    (hstep : s.step (.wake v) = s.takeTick v k₀ s.nowNanos)
    (hw : (s.step (.wake v)).workers.get? w = some k) : Pace H P (s.step (.wake v)) k := by
  have hnow : (s.step (.wake v)).now = s.now := step_now s (by simp)
  obtain ⟨hgoing, hperiod, -⟩ := h.paced hv
  have hlate : ¬ s.nowNanos + State.lateness < s.nowNanos :=
    Nat.not_lt_of_le (Nat.le_add_right _ _)
  have hdue : s.nowNanos + k₀.period.nanos = (s.now + P) * nanosPerMilli := by
    rw [hperiod, State.nowNanos, Nat.add_mul]
  rw [State.takeTick, if_neg hlate, hdue] at hstep
  generalize hk₁ : ({ k₀ with due := (s.now + P) * nanosPerMilli, phase := .idle } : Worker) = k₁
    at hstep
  have hself : ∀ {phase}, ((s.workers.put v k₁).update v ({ · with phase })).get? w = some k →
      k = { k₁ with phase } := by
    intro phase hw
    rw [Table.get?_put_update] at hw
    split at hw
    · exact (Option.some_inj.mp hw).symm
    · rename_i hne
      exact absurd (h.single hw hv) hne
  rw [hstep] at hw hnow ⊢
  rcases State.beginPass_cases (s := { s with workers := s.workers.put v k₁ }) h.active
    (.worker v) with ⟨hlt, -⟩ | ⟨hkeys, hs⟩ | ⟨-, hs⟩
  · exact absurd hlt (Nat.not_lt_of_le h.parallelism)
  · rw [hs] at hw hnow ⊢
    rw [hself hw, ← hk₁]
    refine ⟨hgoing, hperiod, .idle rfl rfl (hnow ▸ Nat.le_add_right _ _) (hnow ▸ Nat.le_refl _)
      fun {p S} hS => ?_⟩
    have hmem : p ∈ s.cache.keys := Table.mem_keys_iff.mpr ⟨S, hS⟩
    rw [show s.cache.keys = [] from hkeys] at hmem
    cases hmem
  · rw [hs] at hw hnow ⊢
    rw [hself hw, ← hk₁]
    refine ⟨hgoing, hperiod, .refreshing rfl (hnow ▸ rfl) fun {p S} hS =>
      Or.inr ⟨_, Table.get?_put_self, ?_⟩⟩
    have hmem : p ∈ s.cache.keys := Table.mem_keys_iff.mpr ⟨S, hS⟩
    simpa [Pass.principals] using hmem

/-- A worker that runs keeps its times. -/
theorem wake (h : Punctual H P s) {v : Id} (hw : (s.step (.wake v)).workers.get? w = some k) :
    Pace H P (s.step (.wake v)) k := by
  have hstep : s.step (.wake v) = s.wake v := rfl
  have hstay : s.wake v = s → Pace H P (s.step (.wake v)) k := by
    intro hs
    rw [hstep, hs] at hw ⊢
    exact h.paced hw
  cases hv : s.workers.get? v with
  | none => exact hstay (by rw [State.wake, hv])
  | some k₀ =>
    obtain ⟨hgoing, -, hstage⟩ := h.paced hv
    cases hstage with
    | fresh hk => exact h.tick hv (by simp [State.step, State.wake, hv, hk, hgoing]) hw
    | @idle due hk hd hle =>
      by_cases hdue : k₀.due ≤ s.nowNanos
      · -- the tick is due at this very moment
        have hexact : k₀.due = s.nowNanos := by
          refine Nat.le_antisymm hdue ?_
          rw [hd, State.nowNanos]
          exact Nat.mul_le_mul_right _ hle
        exact h.tick hv (by simp [State.step, State.wake, hv, hk, hgoing, hexact]) hw
      · exact hstay (by simp [State.wake, hv, hk, hgoing, hdue])
    | refreshing hk => exact hstay (by simp [State.wake, hv, hk, hgoing])

/-- **Every step of regular service leaves the worker on time.** -/
theorem step (h : Punctual H P s) (hreg : ev.Regular H s) : Punctual H P (s.step ev) := by
  have hsettings : (s.step ev).settings = s.settings := h.books.orderly.settings_run [ev]
  have hstep := step_workers h.toWorkerBooks ev
  exact {
    h.toRoster.step hreg.hosted with
    parallelism := by
      rw [State.parallelism, hsettings]
      exact h.parallelism
    interval := by
      rw [hsettings]
      exact h.interval
    there := by
      rcases hstep.dropped with hd | ⟨rfl, -⟩
      · exact hd.trans h.there
      · exact hreg.elim
    going := by
      rcases hstep.lifecycle with hl | ⟨-, w, hl⟩ | ⟨rfl, -⟩
      · exact hl ▸ h.going
      · simp [hl]
      · exact hreg.elim
    landed := fun hp l hl => hreg.landing h hp hl
    paced := fun {w k} hw => by
      cases ev with
      | elapse millis => exact h.elapse hreg hw
      | start scheduler =>
        obtain rfl : scheduler = true := by
          cases scheduler with
          | false => cases hreg
          | true => rfl
        exact h.start hw
      | collect n q => exact h.collect hw
      | wake v => exact h.wake hw
      | shutdown | drop => exact hreg.elim
      | spawn | stop | release => cases hreg
      | _ => exact h.aloof hreg rfl (by simp) hw }

end Punctual

/-! ## How old entries are

A pass is over at the moment when it began, so at rest the worker waits for its next tick and all
entries were read at the last one or later.  That is at most one period ago. -/

/-- Every entry was read at a moment that is no longer ago than a period. -/
def Aged (H : History) (P : Nat) (s : State) : Prop :=
  ∀ {p S}, s.cache.get? p = some S → ∃ r, s.now ≤ r + P ∧ H r p S

/-- An engine whose refresh has been started has a worker. -/
theorem Punctual.exists_worker (h : Punctual H P s) (hl : s.lifecycle ≠ .idle) :
    ∃ w k, s.workers.get? w = some k := by
  cases hlife : s.lifecycle with
  | idle => exact absurd hlife hl
  | running w => exact ⟨w, h.running hlife⟩
  | stopped => exact absurd hlife h.going

/-- **At rest no entry is older than a period**, once the refresh has been started. -/
theorem Punctual.aged (h : Punctual H P s) (hl : s.lifecycle ≠ .idle) (hrest : s.AtRest)
    (hfree : ∀ n, s.passes.get? n = none) : Aged H P s := by
  intro p S hS
  obtain ⟨w, k, hw⟩ := h.exists_worker hl
  obtain ⟨due, -, -, hnow, -, he⟩ := h.resting hrest hfree hw
  obtain ⟨r, hr, hH⟩ := he hS
  exact ⟨r, Nat.le_trans (Nat.le_of_lt hnow) hr, hH⟩

/-- **And none gets older** than that. -/
theorem Aged.step (ha : Aged H P s) (h : Punctual H P s) (hl : s.lifecycle ≠ .idle)
    (hreg : ev.Regular H s) : Aged H P (s.step ev) := by
  intro p S hS
  by_cases helapse : ∃ millis, ev = .elapse millis
  · obtain ⟨millis, rfl⟩ := helapse
    cases millis with
    | zero => exact ha hS
    | succ millis =>
      obtain ⟨w, k, hw⟩ := h.exists_worker hl
      obtain ⟨hrest, hfree⟩ := hreg 0 (Nat.succ_pos _)
      obtain ⟨-, hk, -⟩ := h.resting hrest hfree hw
      cases (h.elapse hreg hw).stage with
      | idle _ _ hnow _ he =>
        obtain ⟨r, hr, hH⟩ := he hS
        exact ⟨r, Nat.le_trans hnow hr, hH⟩
      | fresh hk' | refreshing hk' =>
        rw [hk] at hk'
        cases hk'
  · rw [step_now s fun millis he => helapse ⟨millis, he⟩]
    rcases hreg.entry h hS with hold | hH
    · exact ha hold
    · exact ⟨s.now, Nat.le_add_right _ _, hH⟩

/-- A refresh that has been started is started for good. -/
theorem Event.Regular.started (hreg : ev.Regular H s) (h : Punctual H P s)
    (hl : ev = .start true ∨ s.lifecycle ≠ .idle) : (s.step ev).lifecycle ≠ .idle := by
  rcases (step_workers h.toWorkerBooks ev).lifecycle with hsame | ⟨-, w, hw⟩ | ⟨rfl, -⟩
  · rw [hsame]
    refine hl.elim (fun hev hidle => ?_) id
    rw [hev, step_start h.there, (h.start_first hidle).1, hidle] at hsame
    cases hsame
  · simp [hw]
  · exact hreg.elim

end

end Gatekeeper.Engine

import Gatekeeper.Proofs.Fair
import Gatekeeper.Proofs.Progress

/-!
# Passes come to an end

Every principal of a pass has three turns left while it is queued, two while its call is under way,
and one when the call has landed.  Nothing that happens adds to the turns that are left, and in a
fair run one after the other is taken, whatever the backend does; so the pass comes to its end, and
a caller that runs it is told the report, unless whoever runs it gives it up.

* `Pass.load` — how many turns are left to a pass.
* `Nears` — what can have become of a pass; `Nears.run` says that it stays so.
* `over_of_turns` — if the pass and its calls get their turns, it comes to its end, or whoever runs
  it has been asked to stop; `over_of_fair` says so of fair runs.
* `told_of_over`, `told_of_fair` — so a caller that runs a pass is told the report, or gives up.

The measure makes this an argument about one number.  What has to be shown is that no move raises
it and that a fair run lowers it as long as it is not zero, and there the three kinds of turns
come in: one is always there to be taken, and fairness sees to it that it is.
-/

set_option autoImplicit false

namespace Gatekeeper.Engine

/-- How many turns are left to the pass. -/
def Pass.load (pass : Pass) : Nat :=
  3 * pass.queue.length + 2 * pass.flying.length + pass.landed.length

namespace Pass

theorem load_fly (pass : Pass) {p : Principal} (hq : p ∈ pass.queue) :
    (pass.fly p).load < pass.load := by
  have herase := List.length_erase_of_mem hq
  have hpos := List.length_pos_of_mem hq
  show 3 * (pass.queue.erase p).length + 2 * (pass.flying ++ [p]).length + pass.landed.length
    < pass.load
  rw [List.length_append, List.length_singleton, herase, load]
  omega

theorem load_land (pass : Pass) {l : Landing} (hf : l.principal ∈ pass.flying) :
    (pass.land l).load < pass.load := by
  have herase := List.length_erase_of_mem hf
  have hpos := List.length_pos_of_mem hf
  show 3 * pass.queue.length + 2 * (pass.flying.erase l.principal).length
    + (pass.landed ++ [l]).length < pass.load
  rw [List.length_append, List.length_singleton, herase, load]
  omega

theorem load_look (pass : Pass) {l : Landing} (hl : l ∈ pass.landed) :
    (pass.look l).load < pass.load := by
  have herase := List.length_erase_of_mem hl
  have hpos := List.length_pos_of_mem hl
  show 3 * pass.queue.length + 2 * pass.flying.length + (pass.landed.erase l).length < pass.load
  rw [herase, load]
  omega

end Pass

/-- The caller has been told the report of a pass, or has given up. -/
def Told (s : State) (c : Id) : Prop :=
  .cancelled c ∈ s.journal ∨ ∃ r, .returned c (.refreshed r) ∈ s.journal

/-- The pass is over, or whoever runs it has been asked to stop. -/
def State.Over (s : State) (n : Id) : Prop :=
  ∀ pass, s.passes.get? n = some pass → s.halted pass = true

/-- What can have become in `t` of a pass that is there in `s`. -/
inductive Nears (s t : State) (n : Id) (pass : Pass) : Prop
  /-- It is as it was, and so are its calls. -/
  | same (hp : t.passes.get? n = some pass)
    (hc : ∀ {id call}, s.calls.get? id = some call → call.owner = .pass n →
      t.calls.get? id = some call)
  /-- It has come closer to its end. -/
  | less {pass' : Pass} (hp : t.passes.get? n = some pass') (hd : pass'.driver = pass.driver)
    (hl : pass'.load < pass.load)
  /-- It is over. -/
  | gone (hp : t.passes.get? n = none) (ht : ∀ c, pass.driver = .caller c → Told t c)

section

variable {s t u : State} {ev : Event} {n c : Id} {pass pass' : Pass}

/-- What has been told stays told. -/
theorem Told.mono (h : Told s c) (hsub : s.journal ⊆ t.journal) : Told t c :=
  h.imp (fun h => hsub h) fun ⟨r, h⟩ => ⟨r, hsub h⟩

theorem State.Over.of_none (hp : s.passes.get? n = none) : s.Over n := by
  intro pass hpass
  rw [hp] at hpass
  cases hpass

/-! ## What becomes of a pass

A pass that is there comes to have fewer turns left, or as many, or is over: this is what a move
does, and it carries over to runs since the relation composes. -/

/-- A move leaves a pass as it is, brings it closer to its end, or ends it. -/
theorem Goes.nears (h : Goes ev s t n pass) : Nears s t n pass := by
  cases h with
  | stays hp hc => exact .same hp hc
  | launches hev hq hp => exact .less hp rfl (pass.load_fly hq)
  | lands hc ho he hf hp => exact .less hp rfl (pass.load_land hf)
  | looks hh hl hp => exact .less hp rfl (pass.load_look hl)
  | closes hh hl hp hr => exact .gone hp fun c hd => Or.inr ⟨_, hr c hd⟩
  | cancelled hd hp hj =>
    refine .gone hp fun c hd' => Or.inl ?_
    rw [hd] at hd'
    injection hd' with hd'
    exact hd' ▸ hj
  | abandoned hd hp =>
    refine .gone hp fun c hd' => ?_
    rw [hd] at hd'
    cases hd'

theorem Nears.move (h : Nears s t n pass) (hb : Books t) (hlt : n < t.next) (m : Move ev t u) :
    Nears s u n pass := by
  cases h with
  | same hp hc =>
    cases (m.goes hb hp).nears with
    | same hp' hc' => exact .same hp' fun hid ho => hc' (hc hid ho) ho
    | less hp' hd hl => exact .less hp' hd hl
    | gone hp' ht => exact .gone hp' ht
  | less hp hd hl =>
    cases (m.goes hb hp).nears with
    | same hp' => exact .less hp' hd hl
    | less hp' hd' hl' => exact .less hp' (hd'.trans hd) (Nat.lt_trans hl' hl)
    | gone hp' ht => exact .gone hp' fun c hc => ht c (hd.trans hc)
  | gone hp ht =>
    refine .gone ?_ fun c hc => (ht c hc).mono (m.touch hb).suffix.subset
    rw [Option.eq_none_iff_forall_ne_some]
    intro pass' hp'
    rcases m.known hp' with ⟨pass, hpass⟩ | ⟨rfl, -⟩
    · rw [hp] at hpass
      cases hpass
    · exact Nat.lt_irrefl _ hlt

/-- **A pass only ever comes closer to its end.** -/
theorem Nears.run (h : Nears s t n pass) (hb : Books t) (hlt : n < t.next) (es : List Event) :
    Nears s (t.run es) n pass := by
  refine (hb.run_induction (P := fun u => n < u.next ∧ Nears s u n pass) ⟨hlt, h⟩ ?_).2
  intro ev _ t u hb ⟨hlt, hnears⟩ m
  exact ⟨Nat.lt_of_lt_of_le hlt m.next_le, hnears.move hb hlt m⟩

theorem Nears.trace (h : Books s) {events : Nat → Event} {k m : Nat} (hkm : k ≤ m)
    (hp : (s.trace events k).passes.get? n = some pass) :
    Nears (s.trace events k) (s.trace events m) n pass := by
  have hlt : n < (s.trace events k).next := (h.trace events k).orderly.passes hp
  induction hkm with
  | refl => exact .same hp fun hid _ => hid
  | @step m hkm ih =>
    exact ih.run (h.trace events m) (Nat.lt_of_lt_of_le hlt (next_le_trace h events hkm)) [events m]

/-! ## Turns that are taken

When it is the turn of the pass, and the turn is taken, then strictly fewer are left. -/

/-- A turn has been taken: the pass has come closer to its end, or is over. -/
def Turned (t : State) (n : Id) (pass : Pass) : Prop :=
  ∀ pass', t.passes.get? n = some pass' → pass'.load < pass.load

theorem Turned.of_get? (hp : t.passes.get? n = some pass') (hl : pass'.load < pass.load) :
    Turned t n pass := by
  intro pass₁ hp₁
  rw [hp, Option.some_inj] at hp₁
  exact hp₁ ▸ hl

theorem step_launch_turned (hp : s.passes.get? n = some pass)
    (hf : pass.flying.length < s.parallelism) (hev : s.Launches n ev) :
    Turned (s.step ev) n pass := by
  obtain ⟨pass', p, hp', hq, rfl⟩ := hev
  rw [hp, Option.some_inj] at hp'
  subst hp'
  rw [State.step, State.launch_eq hp hq hf]
  exact .of_get? Table.get?_put_self (pass.load_fly hq)

theorem step_collect_turned (hp : s.passes.get? n = some pass) (hh : s.halted pass = false)
    (hev : s.Collects n ev) : Turned (s.step ev) n pass := by
  obtain ⟨pass', l, hp', hl, rfl⟩ := hev
  rw [hp, Option.some_inj] at hp'
  subst hp'
  have hsome : (pass.landed.find? (·.principal == l.principal)).isSome :=
    List.find?_isSome.mpr ⟨l, hl, beq_self_eq_true l.principal⟩
  obtain ⟨l', hl'⟩ := Option.isSome_iff_exists.mp hsome
  rw [State.step, State.collect_eq hp hh hl', State.digest_eq]
  split
  · intro pass₁ hp₁
    rw [State.passes_reportPass] at hp₁
    exact absurd rfl (Table.get?_erase_eq_some_iff.mp hp₁).1
  · exact .of_get? Table.get?_put_self (pass.load_look (List.mem_of_find?_eq_some hl'))

theorem step_expire_turned (h : Books s) (hp : s.passes.get? n = some pass) {id : Id} {call : Call}
    (hid : s.calls.get? id = some call) (ho : call.owner = .pass n) (ht : call.deadline ≤ s.now) :
    Turned (s.step (.expire id)) n pass := by
  have hf := h.passes.flying_of_owner hp hid ho
  have hatt : s.attended call = true := by rw [State.attended, ho]
  have hp' : (s.endCall id call.principal .timedOut).passes.get? n = some pass := hp
  rw [State.step, State.expire_eq hid hatt ht, State.settle, ho]
  dsimp only
  rw [State.land_eq hp']
  exact .of_get? Table.get?_put_self (pass.load_land hf)

/-! ## Endless runs

In an endless run the number of turns that are left cannot sink forever.  So if each turn that
can be taken is taken at some time, the pass has to come to its end. -/

/-- If a pass gets to start its calls and to look at its results, and its calls come to an end, then
it comes to its end, or whoever runs it has been asked to stop. -/
theorem over_of_turns (h : Books s) {events : Nat → Event}
    (hlaunch : ∀ k, ∃ m, k ≤ m
      ∧ ((s.trace events m).Launchable n → (s.trace events m).Launches n (events m)))
    (hcollect : ∀ k, ∃ m, k ≤ m
      ∧ ((s.trace events m).Collectable n → (s.trace events m).Collects n (events m)))
    (hland : ∀ {k id call}, (s.trace events k).calls.get? id = some call → call.owner = .pass n →
      ∃ m, k ≤ m ∧ ∀ pass, (s.trace events m).passes.get? n = some pass →
        (s.trace events m).calls.get? id = some call → Turned (s.trace events (m + 1)) n pass)
    (k : Nat) : ∃ m, k ≤ m ∧ (s.trace events m).Over n := by
  cases hp : (s.trace events k).passes.get? n with
  | none => exact ⟨k, Nat.le_refl k, .of_none hp⟩
  | some pass =>
  induction hload : pass.load using Nat.strong_induction_on generalizing k pass with
  | _ load ih =>
  have hturned : ∀ {m}, k ≤ m → Turned (s.trace events m) n pass →
      ∃ m, k ≤ m ∧ (s.trace events m).Over n := by
    intro m hkm hturned
    cases hp' : (s.trace events m).passes.get? n with
    | none => exact ⟨m, hkm, .of_none hp'⟩
    | some pass' =>
      obtain ⟨m', hm', hover⟩ := ih _ (hload ▸ hturned pass' hp') m pass' hp' rfl
      exact ⟨m', Nat.le_trans hkm hm', hover⟩
  -- Until a turn is taken the pass is found as it is, with its calls.
  have hwait : ∀ m, k ≤ m → (∃ m, k ≤ m ∧ (s.trace events m).Over n)
      ∨ (s.trace events m).passes.get? n = some pass
        ∧ ∀ {id call}, (s.trace events k).calls.get? id = some call → call.owner = .pass n →
          (s.trace events m).calls.get? id = some call := by
    intro m hkm
    cases Nears.trace h hkm hp with
    | same hp' hc => exact Or.inr ⟨hp', hc⟩
    | less hp' _ hl => exact Or.inl (hturned hkm (.of_get? hp' hl))
    | gone hp' => exact Or.inl ⟨m, hkm, .of_none hp'⟩
  have hcomplete := (h.trace events k).passes.unfinished hp
  by_cases hlanded : pass.landed = []
  case neg =>
    obtain ⟨m, hkm, hm⟩ := hcollect k
    rcases hwait m hkm with hover | ⟨hp', -⟩
    · exact hover
    · cases hh : (s.trace events m).halted pass with
      | true =>
        refine ⟨m, hkm, fun pass' hpass => ?_⟩
        rw [hp', Option.some_inj] at hpass
        exact hpass ▸ hh
      | false =>
        exact hturned (Nat.le_succ_of_le hkm)
          (step_collect_turned hp' hh (hm ⟨pass, hp', hh, hlanded⟩))
  by_cases hflying : pass.flying = []
  case neg =>
    obtain ⟨p, ps, hps⟩ := List.exists_cons_of_ne_nil hflying
    obtain ⟨id, call, hid, ho, -⟩ :=
      (h.trace events k).passes.flying hp p (hps ▸ List.mem_cons_self)
    obtain ⟨m, hkm, hm⟩ := hland hid ho
    rcases hwait m hkm with hover | ⟨hp', hc⟩
    · exact hover
    · exact hturned (Nat.le_succ_of_le hkm) (hm pass hp' (hc hid ho))
  have hqueue : pass.queue ≠ [] := by
    rintro hqueue
    rw [Pass.complete, hqueue, hflying, hlanded] at hcomplete
    cases hcomplete
  obtain ⟨m, hkm, hm⟩ := hlaunch k
  rcases hwait m hkm with hover | ⟨hp', -⟩
  · exact hover
  · have hfree : pass.flying.length < (s.trace events m).parallelism := by
      rw [hflying]
      exact Nat.le_max_left ..
    exact hturned (Nat.le_succ_of_le hkm)
      (step_launch_turned hp' hfree (hm ⟨pass, hp', hqueue, hfree⟩))

/-- A caller whose pass is over has been told the report, or has given up. -/
theorem told_of_over (h : Books s) {events : Nat → Event} {k : Nat}
    (hover : ∃ m, k ≤ m ∧ (s.trace events m).Over n)
    (hp : (s.trace events k).passes.get? n = some pass) (hd : pass.driver = .caller c) :
    ∃ m, Told (s.trace events m) c := by
  obtain ⟨m, hkm, hm⟩ := hover
  have hcaller : ∀ {pass'}, pass'.driver = pass.driver →
      (s.trace events m).passes.get? n ≠ some pass' := by
    intro pass' hd' hp'
    have hh := hm pass' hp'
    rw [State.halted, hd', hd] at hh
    cases hh
  cases Nears.trace h hkm hp with
  | same hp' => exact absurd hp' (hcaller rfl)
  | less hp' hd' => exact absurd hp' (hcaller hd')
  | gone _ ht => exact ⟨m, ht c hd⟩

/-- **In a fair run a pass comes to its end, or whoever runs it has been asked to stop.** -/
theorem over_of_fair (h : Books s) {events : Nat → Event} (hfair : Fair s events) (n : Id)
    (k : Nat) : ∃ m, k ≤ m ∧ (s.trace events m).Over n := by
  refine over_of_turns h (hfair.launches n) (hfair.collects n) (fun {k id call} _ ho => ?_) k
  obtain ⟨a, ha⟩ := hfair.clock call.deadline
  obtain ⟨m, hm, hexpires⟩ := hfair.expires id (max k a)
  refine ⟨m, Nat.le_trans (Nat.le_max_left ..) hm, fun pass hp hid => ?_⟩
  have hdeadline : call.deadline ≤ (s.trace events m).now :=
    Nat.le_trans ha (now_le_trace h events (Nat.le_trans (Nat.le_max_right ..) hm))
  rw [State.trace, hexpires ⟨call, hid, by rw [State.attended, ho], hdeadline⟩]
  exact step_expire_turned (h.trace events m) hp hid ho hdeadline

/-- **In a fair run the caller that runs a pass is told its report, or gives up.** -/
theorem told_of_fair (h : Books s) {events : Nat → Event} (hfair : Fair s events) {k : Nat}
    (hp : (s.trace events k).passes.get? n = some pass) (hd : pass.driver = .caller c) :
    ∃ m, Told (s.trace events m) c :=
  told_of_over h (over_of_fair h hfair n k) hp hd

end

end Gatekeeper.Engine

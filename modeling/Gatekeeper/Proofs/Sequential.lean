import Gatekeeper.Proofs.Refresh
import Gatekeeper.Proofs.Schedule

/-!
# A pass comes to what the loop comes to

A pass has its calls begin, end and looked at in any order.  At every moment it has done what the
loop does that visits the principals in the order in which the pass has looked at their results
(`Conforms`), and since that order makes no difference to the loop, the pass comes to what the loop
comes to.  The other way round, whatever the loop can come to a pass can come to: it need only start
its calls one at a time.

* `Conforms` — what a pass has done is what the loop has done, and `Conforms.step`, which says that
  every turn keeps it so.
* `Conforms.exists_schedule` — the schedule that starts one call at a time.
* `RunsAsLoop` — what is promised of a pass, and **`pass_runs_as_loop`**, which says that every pass
  keeps it.

The proof does not reorder the run.  It lets the loop take its turns beside the pass: the loop
visits a principal at the moment when the pass looks at the result about it, so that both have
the same cache and the same report at any moment, and the order in which the loop then goes is
that of the looks.  In the end this order is exchanged for that of the cache, which makes no
difference.
-/

set_option autoImplicit false

namespace Gatekeeper.Engine

/-- What the pass that caller `c` runs has done is what the loop has done, if `r` is what comes of
the calls and `old` is what was in the cache. -/
inductive Conforms (r : Principal → Reply PrivilegeSet) (old : Table Principal PrivilegeSet)
    (n c : Id) (s : State) : Prop
  /-- The loop has visited those whose results the pass has looked at. -/
  | going {pass : Pass} {done : List Principal} (hp : s.passes.get? n = some pass)
    (hd : pass.driver = .caller c) (hall : (done ++ pass.principals).Perm old.keys)
    (hdone : visits r done old = (s.cache, pass.report))
    (hlanded : ∀ l ∈ pass.landed, l.reply = r l.principal)
  | finished (hp : s.passes.get? n = none)
    (hr : .returned c (.refreshed (loop r old).2) ∈ s.journal) (hc : s.cache = (loop r old).1)

section

variable {b : Principal → Conduct} {d : Principal → Nat} {r : Principal → Reply PrivilegeSet}
  {old : Table Principal PrivilegeSet} {n c : Id} {s t : State} {ev : Event}

namespace Conforms

/-! ## What is known of a pass that conforms

`Conforms` has two cases: the pass is under way and the loop has done a part of its work, or the
pass is over and the loop has done all of it. -/

/-- Whoever runs the pass is told what the loop comes to, and finds it in the cache. -/
theorem told (h : Conforms r old n c s) (hb : Books s) {o : Outcome}
    (ho : .returned c o ∈ s.journal) :
    o = .refreshed (loop r old).2 ∧ s.cache = (loop r old).1 := by
  cases h with
  | going hp hd hall hdone hlanded =>
    obtain ⟨request, -, hthread⟩ := hb.callers.thread_of_unserved (hb.passes.driven hp hd) rfl
    have hmem : .returned c o ∈ thread Note.caller? c s.journal := mem_thread.mpr ⟨ho, rfl⟩
    rw [hthread] at hmem
    simp at hmem
  | finished hp hr hc => exact ⟨hb.callers.returned_unique ho hr, hc⟩

/-- No key appears or disappears. -/
theorem keys (h : Conforms r old n c s) : s.cache.keys = old.keys := by
  cases h with
  | @going pass done hp hd hall hdone hlanded =>
    have hsub : done ⊆ old.keys := fun p hp => hall.subset (List.mem_append_left _ hp)
    rw [← keys_visits (r := r) hsub, hdone]
  | finished hp hr hc =>
    rw [hc]
    exact keys_visits (List.Subset.refl _)

/-! ## What keeps a pass in step with the loop

A pass takes turns: it starts a call, a call ends, it looks at a result.  The loop takes one of
its own only at the last of these, when the result is visited; at the other two it stands still
while the pass gets ready. -/

/-- A change that leaves the pass and the cache as they are. -/
theorem keep (h : Conforms r old n c s) (hp : t.passes.get? n = s.passes.get? n)
    (hc : t.cache = s.cache) (hj : s.journal ⊆ t.journal) : Conforms r old n c t := by
  cases h with
  | going hp' hd hall hdone hlanded => exact .going (hp.trans hp') hd hall (hc ▸ hdone) hlanded
  | finished hp' hr hc' => exact .finished (hp.trans hp') (hj hr) (hc.trans hc')

/-- What comes of a call that is under way is still open. -/
theorem revise (h : Conforms r old n c s) {pass : Pass} {q : Principal}
    (hp : s.passes.get? n = some pass) (hq : q ∈ pass.flying) (x : Reply PrivilegeSet) :
    Conforms (Function.update r q x) old n c s := by
  cases h with
  | @going pass' done hp' hd hall hdone hlanded =>
    rw [hp, Option.some_inj] at hp'
    subst hp'
    have hn := hall.nodup_iff.mpr old.keys_nodup
    have hmem : q ∈ pass.principals := List.mem_append_left _ (List.mem_append_right _ hq)
    refine .going hp hd hall ?_ fun l hl => ?_
    · rw [← hdone]
      refine visits_congr fun p hp => ?_
      have hne : p ≠ q := (List.nodup_append.mp hn).2.2 p hp q hmem
      exact Function.update_of_ne hne x r
    · rw [hlanded l hl, Function.update_of_ne]
      have hl' : l.principal ∈ pass.landed.map Landing.principal := List.mem_map_of_mem hl
      have hn' := (List.nodup_append.mp hn).2.1
      exact ((List.nodup_append.mp hn').2.2 q (List.mem_append_right _ hq) l.principal hl').symm
  | finished hp' =>
    rw [hp] at hp'
    cases hp'

theorem launches (h : Conforms r old n c s) {pass : Pass} {p : Principal}
    (hp : s.passes.get? n = some pass) (hq : p ∈ pass.queue) :
    Conforms r old n c
      ({ s with passes := s.passes.put n (pass.fly p) }.startCall p .listing (.pass n)) := by
  cases h with
  | @going pass' done hp' hd hall hdone hlanded =>
    rw [hp, Option.some_inj] at hp'
    subst hp'
    exact .going Table.get?_put_self hd (((pass.principals_fly hq).append_left done).trans hall)
      hdone hlanded
  | finished hp' =>
    rw [hp] at hp'
    cases hp'

/-- A call ends in the way that `r` foretells. -/
theorem lands (h : Conforms r old n c s) {pass : Pass} (id : Id) {q : Principal} (ending : Ending)
    (hp : s.passes.get? n = some pass) (hf : q ∈ pass.flying) :
    Conforms r old n c ((s.endCall id q ending).land n ⟨q, id, r q⟩) := by
  cases h with
  | @going pass' done hp' hd hall hdone hlanded =>
    rw [hp, Option.some_inj] at hp'
    subst hp'
    rw [State.land_eq (s := s.endCall id q ending) hp]
    refine .going Table.get?_put_self hd
      (((pass.principals_land (l := ⟨q, id, r q⟩) hf).append_left done).trans hall) hdone
      fun l hl => ?_
    rcases List.mem_append.mp hl with hl | hl
    · exact hlanded l hl
    · rw [List.mem_singleton.mp hl]
  | finished hp' =>
    rw [hp] at hp'
    cases hp'

/-- With every result that the pass looks at the loop visits one principal more. -/
theorem visited (h : Conforms r old n c s) {pass : Pass} {l : Landing}
    (hp : s.passes.get? n = some pass) (hl : l ∈ pass.landed) :
    ∃ done, (done ++ (pass.look l).principals).Perm old.keys
      ∧ visits r done old = (l.reply.put l.principal s.cache, (pass.look l).report)
      ∧ pass.driver = .caller c ∧ ∀ l' ∈ (pass.look l).landed, l'.reply = r l'.principal := by
  cases h with
  | @going pass' done hp' hd hall hdone hlanded =>
    rw [hp, Option.some_inj] at hp'
    subst hp'
    refine ⟨done ++ [l.principal], ?_, ?_, hd, fun l' hl' => hlanded l' (List.mem_of_mem_erase hl')⟩
    · rw [List.append_assoc]
      exact ((pass.principals_look_perm hl).append_left done).trans hall
    · rw [visits_append_singleton, hdone, visit, ← hlanded l hl]
      rfl
  | finished hp' =>
    rw [hp] at hp'
    cases hp'

theorem looks (h : Conforms r old n c s) {pass : Pass} {l : Landing}
    (hp : s.passes.get? n = some pass) (hl : l ∈ pass.landed) :
    Conforms r old n c
      { s.digest n l with passes := (s.digest n l).passes.put n (pass.look l) } := by
  obtain ⟨done, hall, hdone, hd, hlanded⟩ := h.visited hp hl
  rw [State.digest_eq]
  exact .going Table.get?_put_self hd hall hdone hlanded

theorem closes (h : Conforms r old n c s) {pass : Pass} {l : Landing}
    (hp : s.passes.get? n = some pass) (hl : l ∈ pass.landed)
    (hc : (pass.look l).complete = true) :
    Conforms r old n c
      (({ s.digest n l with passes := (s.digest n l).passes.erase n }.note
        (.passFinished n (pass.look l).report)).reportPass pass.driver (pass.look l).report) := by
  obtain ⟨done, hall, hdone, hd, -⟩ := h.visited hp hl
  have hnone : (pass.look l).principals = [] := by
    simp only [Pass.complete, Bool.and_eq_true, List.isEmpty_iff] at hc
    rw [Pass.principals, hc.1.1, hc.1.2, hc.2]
    rfl
  rw [hnone, List.append_nil] at hall
  have hloop : loop r old = (l.reply.put l.principal s.cache, (pass.look l).report) := by
    rw [← hdone, loop]
    exact (visits_eq_of_perm hall old.keys_nodup (List.Subset.refl _)).symm
  rw [State.digest_eq, hd]
  refine .finished Table.get?_erase_self ?_ ?_
  · rw [hloop]
    exact List.mem_cons_self
  · rw [hloop]
    rfl

/-- **Every turn keeps the pass in step with the loop**, for what has come of the calls so far. -/
theorem step (h : Conforms r old n c s) (hb : Books s) (hp : Proceeds b n ev s t) :
    ∃ r', Conforms r' old n c t ∧ ∀ q, r' q = r q ∨ ∃ id call, s.calls.get? id = some call
      ∧ call.owner = .pass n ∧ call.principal = q
      ∧ (b q).seen s.settings.backendTimeout call.begun s.now = some (r' q) := by
  cases hp with
  | waits => exact ⟨r, h.keep rfl rfl (List.Subset.refl _), fun q => Or.inl rfl⟩
  | launches hp hq => exact ⟨r, h.launches hp hq, fun q => Or.inl rfl⟩
  | @lands id call ending x hid ho hx =>
    obtain ⟨pass, hp, hf⟩ := hb.passes.flights hid ho
    refine ⟨Function.update r call.principal x, ?_, fun q => ?_⟩
    · have hlands := (h.revise hp hf x).lands id ending hp hf
      rwa [Function.update_self] at hlands
    · by_cases hq : call.principal = q
      · refine Or.inr ⟨id, call, hid, ho, hq, ?_⟩
        rw [← hq, Function.update_self]
        exact hx
      · exact Or.inl (Function.update_of_ne (Ne.symm hq) x r)
  | looks hp hl => exact ⟨r, h.looks hp hl, fun q => Or.inl rfl⟩
  | closes hp hl hc => exact ⟨r, h.closes hp hl hc, fun q => Or.inl rfl⟩

/-! ## Whole runs

What comes of the calls is not known beforehand, so it is collected along the run: `r` is left
open for calls that have not ended, and filled in when they do. -/

/-- **Whatever the order of the turns, the pass does what the loop does.** -/
theorem follows (h : Conforms r old n c s) (hb : Books s) (hclock : Clocked s)
    (hr : ∀ p, (b p).Comes s.settings.backendTimeout (r p)) {es : List Event}
    (hes : Follows (Turn b n) s es) :
    ∃ r', (∀ p, (b p).Comes s.settings.backendTimeout (r' p)) ∧ Conforms r' old n c (s.run es) := by
  refine hes.induction (P := fun t => ∃ r', (∀ p, (b p).Comes s.settings.backendTimeout (r' p))
    ∧ Conforms r' old n c t) ⟨r, hr, h⟩ ?_
  rintro es ev ⟨r', hr', h'⟩ hturn
  have hclocked := hclock.run hb.orderly es
  obtain ⟨r'', h'', hcomes⟩ := h'.step (hb.run es) (hturn.proceeds (hb.run es) hclocked)
  refine ⟨r'', fun p => ?_, h''⟩
  rcases hcomes p with hsame | ⟨id, call, hid, ho, -, hseen⟩
  · exact hsame ▸ hr' p
  · rw [hb.orderly.settings_run] at hseen
    exact Conduct.comes_of_seen (hclocked.begun hid) hseen

/-- If no owner is kept waiting, there is one thing that the pass can come to. -/
theorem follows_prompt (hb : Books s) (hclock : Clocked s)
    (h : Conforms (fun p => (b p).alone s.settings.backendTimeout) old n c s)
    (hprompt : Prompt n (fun p => (b p).due s.settings.backendTimeout) s) {es : List Event}
    (hes : Follows (Paced b n fun p => (b p).due s.settings.backendTimeout) s es) :
    Conforms (fun p => (b p).alone s.settings.backendTimeout) old n c (s.run es) := by
  refine (hes.induction (P := fun t => Prompt n (fun p => (b p).due s.settings.backendTimeout) t
    ∧ Conforms (fun p => (b p).alone s.settings.backendTimeout) old n c t) ⟨hprompt, h⟩ ?_).2
  rintro es ev ⟨hprompt', h'⟩ hpaced
  have hclocked := hclock.run hb.orderly es
  refine ⟨hprompt'.step (hb.run es) hclocked hpaced, ?_⟩
  obtain ⟨r', h'', hcomes⟩ := h'.step (hb.run es) (hpaced.turn.proceeds (hb.run es) hclocked)
  have hr' : r' = fun p => (b p).alone s.settings.backendTimeout := by
    funext p
    rcases hcomes p with hsame | ⟨id, call, hid, ho, rfl, hseen⟩
    · exact hsame
    · rw [hb.orderly.settings_run] at hseen
      exact Conduct.eq_alone_of_seen (hclocked.begun hid) (hprompt' hid ho) hseen
  rwa [hr'] at h''

/-! ## One call at a time

The converse needs a schedule.  Every principal is seen through, from the start of its call to
the look at its result, before the next one is turned to, and the call is made to end in the way
that the loop wants.  This needs no more than one permit. -/

/-- A pass without a call under way can make one call, and have it end in the way that `r`
foretells. -/
theorem exists_landing (h : Conforms r old n c s) (hb : Books s) (hclock : Clocked s)
    {q : Principal} (hd : (b q).seen s.settings.backendTimeout 0 (d q) = some (r q)) {pass : Pass}
    (hp : s.passes.get? n = some pass) (hflying : pass.flying = []) (hq : q ∈ pass.queue) :
    ∃ es id, Follows (Paced b n d) s es ∧ Conforms r old n c (s.run es)
      ∧ (s.run es).passes.get? n = some ((pass.fly q).land ⟨q, id, r q⟩) := by
  have hfree : pass.flying.length < s.parallelism := by
    rw [hflying]
    exact Nat.le_max_left ..
  let call : Call := ⟨q, .listing, .pass n, s.now, s.now + s.settings.backendTimeout.ceilMillis⟩
  let t : State := { s with passes := s.passes.put n (pass.fly q) }.startCall q .listing (.pass n)
  have ht : s.step (.launch n q) = t := State.launch_eq hp hq hfree
  let u : State := { t with now := s.now + d q }
  have hu : s.run [.launch n q, .elapse (d q)] = u := by
    rw [run_cons, ht]
    rfl
  have hub : Books u := hu ▸ hb.run _
  have huclock : Clocked u := hu ▸ hclock.run hb.orderly _
  have hid : u.calls.get? s.next = some call := Table.get?_put_self
  have hseen : (b call.principal).seen u.settings.backendTimeout call.begun u.now
      = some (r q) := Conduct.seen_add.trans hd
  obtain ⟨ending, hland⟩ := step_attend_of_seen hub huclock hid rfl hseen
  have hflies : u.passes.get? n = some (pass.fly q) := Table.get?_put_self
  have hmem : q ∈ (pass.fly q).flying := List.mem_append_right _ (List.mem_singleton.mpr rfl)
  have hconf : Conforms r old n c u := (h.launches hp hq).keep rfl rfl (List.Subset.refl _)
  refine ⟨[.launch n q, .elapse (d q)] ++ [u.attend b s.next call], s.next,
    Follows.append ?_ ?_, ?_⟩
  · refine ⟨⟨.launch q, fun hev => ?_⟩, ⟨.elapse (d q), fun hev hid' ho => ?_⟩, trivial⟩
    · cases hev
    · injection hev with hev
      rw [← hev]
      rw [ht] at hid' ⊢
      rcases Table.get?_put_eq_some_iff.mp hid' with ⟨-, rfl⟩ | ⟨-, hid'⟩
      · exact Nat.le_refl _
      · have hf := hb.passes.flying_of_owner hp hid' ho
        rw [hflying] at hf
        exact absurd hf List.not_mem_nil
  · rw [hu]
    refine ⟨⟨.attend hid rfl, fun hev => ?_⟩, trivial⟩
    rw [State.attend] at hev
    split at hev <;> cases hev
  · rw [run_append, hu, run_cons, hland]
    refine ⟨hconf.lands s.next ending hflies hmem, ?_⟩
    rw [State.land_eq (s := u.endCall s.next q ending) hflies]
    exact Table.get?_put_self

/-- A pass of which nothing is under way can see one principal through to the end, in the way that
`r` foretells. -/
theorem exists_round (h : Conforms r old n c s) (hb : Books s) (hclock : Clocked s)
    (hd : ∀ p, (b p).seen s.settings.backendTimeout 0 (d p) = some (r p)) {pass : Pass}
    (hp : s.passes.get? n = some pass) (hdriver : pass.driver = .caller c)
    (hflying : pass.flying = []) (hlanded : pass.landed = []) :
    ∃ es, Follows (Paced b n d) s es ∧ Conforms r old n c (s.run es)
      ∧ ∀ pass', (s.run es).passes.get? n = some pass' → pass'.flying = [] ∧ pass'.landed = []
        ∧ pass'.queue.length < pass.queue.length := by
  have hqueue : pass.queue ≠ [] := by
    intro hqueue
    have hcomplete := hb.passes.unfinished hp
    rw [Pass.complete, hqueue, hflying, hlanded] at hcomplete
    cases hcomplete
  obtain ⟨q, hq⟩ := List.exists_mem_of_ne_nil _ hqueue
  obtain ⟨es, id, hes, hu, hup⟩ := h.exists_landing hb hclock (hd q) hp hflying hq
  have hland : ((pass.fly q).land ⟨q, id, r q⟩).landed = [⟨q, id, r q⟩] := by
    rw [Pass.land, Pass.fly, hlanded]
    rfl
  have hl : (⟨q, id, r q⟩ : Landing) ∈ ((pass.fly q).land ⟨q, id, r q⟩).landed := by
    rw [hland]
    exact List.mem_singleton.mpr rfl
  have hh : (s.run es).halted ((pass.fly q).land ⟨q, id, r q⟩) = false := by
    rw [State.halted]
    exact hdriver ▸ rfl
  refine ⟨es ++ [.collect n q], hes.append ⟨⟨.collect q, fun hev => ?_⟩, trivial⟩, ?_⟩
  · cases hev
  rw [run_append, run_cons, State.step,
    State.collect_eq hup hh (by rw [hland]; exact List.find?_cons_of_pos (beq_self_eq_true q))]
  split
  · rename_i hc
    refine ⟨hu.closes hup hl hc, fun pass' hp' => ?_⟩
    rw [State.run, List.foldl_nil, State.passes_reportPass] at hp'
    have hnone := Table.get?_erase_self.symm.trans hp'
    cases hnone
  · refine ⟨hu.looks hup hl, fun pass' hp' => ?_⟩
    have hpass : ((pass.fly q).land ⟨q, id, r q⟩).look ⟨q, id, r q⟩ = pass' :=
      Option.some_inj.mp (Table.get?_put_self.symm.trans hp')
    rw [← hpass]
    refine ⟨?_, ?_, ?_⟩
    · show (pass.flying ++ [q]).erase q = []
      rw [hflying]
      exact List.erase_cons_head ..
    · show ((pass.fly q).land ⟨q, id, r q⟩).landed.erase _ = []
      rw [hland]
      exact List.erase_cons_head ..
    · show (pass.queue.erase q).length < pass.queue.length
      rw [List.length_erase_of_mem hq]
      exact Nat.sub_lt (List.length_pos_of_mem hq) Nat.one_pos

/-- **What the loop can come to the pass can come to**, with one call at a time. -/
theorem exists_schedule (h : Conforms r old n c s) (hb : Books s) (hclock : Clocked s)
    (hd : ∀ p, (b p).seen s.settings.backendTimeout 0 (d p) = some (r p))
    (hidle : ∀ pass, s.passes.get? n = some pass → pass.flying = [] ∧ pass.landed = []) :
    ∃ es, Follows (Paced b n d) s es ∧ .returned c (.refreshed (loop r old).2) ∈ (s.run es).journal
      ∧ (s.run es).cache = (loop r old).1 := by
  -- By induction on how many principals are left in the queue.
  induction hlength : ((s.passes.get? n).elim 0 fun pass => pass.queue.length)
    using Nat.strong_induction_on generalizing s with
  | _ length ih =>
  cases hconf : h with
  | finished hp hr hc => exact ⟨[], trivial, hr, hc⟩
  | @going pass done hp hdriver =>
    obtain ⟨hflying, hlanded⟩ := hidle pass hp
    obtain ⟨es, hes, hround, hshorter⟩ :=
      h.exists_round hb hclock hd hp hdriver hflying hlanded
    rw [hp, Option.elim_some] at hlength
    cases hp' : (s.run es).passes.get? n with
    | none =>
      cases hround with
      | going hp'' =>
        rw [hp'] at hp''
        cases hp''
      | finished _ hr hc => exact ⟨es, hes, hr, hc⟩
    | some pass' =>
      obtain ⟨hflying', hlanded', hlt⟩ := hshorter pass' hp'
      obtain ⟨es', hes', hr, hc⟩ := ih pass'.queue.length (hlength ▸ hlt) hround (hb.run es)
        (hclock.run hb.orderly es) (by rwa [hb.orderly.settings_run])
        (fun pass'' hp'' => by
          rw [hp', Option.some_inj] at hp''
          exact hp'' ▸ ⟨hflying', hlanded'⟩)
        (by rw [hp', Option.elim_some])
      refine ⟨es ++ es', hes.append hes', ?_, ?_⟩
      · rw [run_append]
        exact hr
      · rw [run_append]
        exact hc

/-- Whoever has been told, or has given up, has been told: nobody gives up while the pass goes on.
-/
theorem returned_of_told (h : Conforms r old n c s) (hb : Books s) (ht : Told s c) :
    ∃ o, .returned c o ∈ s.journal := by
  rcases ht with hcancel | ⟨report, hr⟩
  · cases h with
    | going hp hd =>
      obtain ⟨request, -, hthread⟩ := hb.callers.thread_of_unserved (hb.passes.driven hp hd) rfl
      have hmem : .cancelled c ∈ thread Note.caller? c s.journal := mem_thread.mpr ⟨hcancel, rfl⟩
      rw [hthread] at hmem
      simp at hmem
    | finished _ hr => exact ⟨_, hr⟩
  · exact ⟨_, hr⟩

end Conforms

/-! ## The promise

Both directions are put together, with the end of the pass and what its caller is told.  That this
is about every cache there can be is `exists_run_cache`: somebody can write anything into the cache
of a new engine, entry by entry. -/

/-- What is promised of a pass, numbered `n`, that caller `c` runs from state `s` on over the cache
`old`, if nothing else is asked of the engine and `b` is how the backend behaves. -/
structure RunsAsLoop (b : Principal → Conduct) (old : Table Principal PrivilegeSet) (n c : Id)
    (s : State) : Prop where
  /-- What the caller is told and finds in the cache is what the loop comes to, whatever the
  schedule; and there is a schedule for everything that the loop can come to. -/
  outcome : ∀ o cache,
    (∃ es, Follows (Turn b n) s es ∧ .returned c o ∈ (s.run es).journal
        ∧ (s.run es).cache = cache)
      ↔ ∃ r, (∀ p, (b p).Comes s.settings.backendTimeout (r p))
        ∧ o = .refreshed (loop r old).2 ∧ cache = (loop r old).1
  /-- If no owner of a call is kept waiting once there is something to be seen, the backend's
  behaviour determines what the pass comes to. -/
  prompt : ∀ es o, Follows (Paced b n fun p => (b p).due s.settings.backendTimeout) s es →
    .returned c o ∈ (s.run es).journal →
    o = .refreshed (loop (fun p => (b p).alone s.settings.backendTimeout) old).2
      ∧ (s.run es).cache = (loop (fun p => (b p).alone s.settings.backendTimeout) old).1
  /-- If no reply is longer in coming than the limit, it does so whatever the schedule. -/
  determined : (∀ p l, (b p).latency = some l → l ≤ s.settings.backendTimeout.ceilMillis) →
    ∀ es o, Follows (Turn b n) s es → .returned c o ∈ (s.run es).journal →
    o = .refreshed (loop (fun p => (b p).alone s.settings.backendTimeout) old).2
      ∧ (s.run es).cache = (loop (fun p => (b p).alone s.settings.backendTimeout) old).1
  /-- The pass can come to an end without any owner being kept waiting. -/
  possible : ∃ es o, Follows (Paced b n fun p => (b p).due s.settings.backendTimeout) s es
    ∧ .returned c o ∈ (s.run es).journal
  /-- The pass comes to an end, as long as nothing is put off for ever. -/
  ends : ∀ events, Steady b n s events → ∃ k o, .returned c o ∈ (s.trace events k).journal
  steady : ∀ es, ∃ events, Steady b n (s.run es) events
  /-- At no time has a key appeared or disappeared. -/
  keys : ∀ es, Follows (Turn b n) s es → (s.run es).cache.keys = old.keys
  /-- Every entry is counted. -/
  counts : ∀ es report, Follows (Turn b n) s es →
    .returned c (.refreshed report) ∈ (s.run es).journal →
    report.refreshed + report.failed = old.size
  /-- What has become of an entry is what its own call alone can make of it. -/
  apart : ∀ es o, Follows (Turn b n) s es → .returned c o ∈ (s.run es).journal →
    ∀ p ∈ old.keys, ∃ x, (b p).Comes s.settings.backendTimeout x
      ∧ (s.run es).cache.get? p = (x.put p old).get? p
  /-- A call that times out has had its time since it was started, however long it was queued. -/
  queueing : ∀ es es' p id call, (s.run es).calls.get? id = none →
    ((s.run es).step (.launch n p)).calls.get? id = some call →
    .ended id call.principal .timedOut ∈ (((s.run es).step (.launch n p)).run es').journal →
    (s.run es).now + s.settings.backendTimeout.ceilMillis
      ≤ (((s.run es).step (.launch n p)).run es').now

/-- The time of a call that is started counts from then. -/
theorem deadline_of_launch {p : Principal} {id : Id} {call : Call}
    (hnone : s.calls.get? id = none) (hid : (s.step (.launch n p)).calls.get? id = some call) :
    call.deadline = s.now + s.settings.backendTimeout.ceilMillis := by
  rcases State.launch_move s n p with hs | hmove
  · rw [State.step, hs, hnone] at hid
    cases hid
  · rcases hmove.begun hid with hold | ⟨-, -, htimed⟩
    · rw [hnone] at hold
      cases hold
    · exact htimed.deadline

/-! ### From a pass to the loop

What comes of the calls is chosen after the fact: it is what they have come to in the schedule at
hand. -/

/-- Whatever the order of the turns, the pass does what the loop does with something that can come
of the calls. -/
theorem Conforms.exists_comes (h : ∀ r, Conforms r old n c s) (hb : Books s) (hclock : Clocked s)
    {es : List Event} (hes : Follows (Turn b n) s es) :
    ∃ r, (∀ p, (b p).Comes s.settings.backendTimeout (r p)) ∧ Conforms r old n c (s.run es) :=
  (h _).follows hb hclock (fun _ => Conduct.comes_alone) hes

/-- In a steady schedule the caller that runs the pass is told something. -/
theorem Conforms.ends (h : ∀ r, Conforms r old n c s) (hb : Books s) (hclock : Clocked s)
    {events : Nat → Event} (hs : Steady b n s events) :
    ∃ k o, .returned c o ∈ (s.trace events k).journal := by
  have htold : ∃ k, Told (s.trace events k) c := by
    cases h fun p => (b p).alone s.settings.backendTimeout with
    | going hp hd => exact hs.told hb hclock hp hd
    | finished _ hr => exact ⟨0, Or.inr ⟨_, hr⟩⟩
  obtain ⟨k, hk⟩ := htold
  obtain ⟨r, -, hconf⟩ := Conforms.exists_comes h hb hclock (hs.follows k)
  rw [← s.trace_eq_run] at hconf
  obtain ⟨o, ho⟩ := hconf.returned_of_told (hb.trace events k) hk
  exact ⟨k, o, ho⟩

/-- A pass that starts in step with the loop runs as the loop does. -/
theorem Conforms.runsAsLoop (hb : Books s) (hclock : Clocked s)
    (h : ∀ r, Conforms r old n c s)
    (hidle : ∀ pass, s.passes.get? n = some pass → pass.flying = [] ∧ pass.landed = [])
    (hprompt : Prompt n (fun p => (b p).due s.settings.backendTimeout) s) :
    RunsAsLoop b old n c s where
  outcome o cache := by
    constructor
    · rintro ⟨es, hes, ho, rfl⟩
      obtain ⟨r, hr, hconf⟩ := Conforms.exists_comes h hb hclock hes
      exact ⟨r, hr, hconf.told (hb.run es) ho⟩
    · rintro ⟨r, hr, rfl, rfl⟩
      choose d hd using hr
      obtain ⟨es, hes, ho, hc⟩ := (h r).exists_schedule hb hclock hd hidle
      exact ⟨es, hes.mono fun _ _ hpaced => hpaced.turn, ho, hc⟩
  prompt es o hes ho := ((h _).follows_prompt hb hclock hprompt hes).told (hb.run es) ho
  determined hlate es o hes ho := by
    obtain ⟨r, hr, hconf⟩ := Conforms.exists_comes h hb hclock hes
    have halone : r = fun p => (b p).alone s.settings.backendTimeout :=
      funext fun p => (Conduct.comes_iff (hlate p)).mp (hr p)
    rw [← halone]
    exact hconf.told (hb.run es) ho
  possible := by
    obtain ⟨es, hes, ho, -⟩ := (h _).exists_schedule hb hclock (fun _ => Conduct.seen_due) hidle
    exact ⟨es, _, hes, ho⟩
  ends events hs := Conforms.ends h hb hclock hs
  steady es := exists_steady (hb.run es) b n
  keys es hes := by
    obtain ⟨r, -, hconf⟩ := Conforms.exists_comes h hb hclock hes
    exact hconf.keys
  counts es report hes ho := by
    obtain ⟨r, -, hconf⟩ := Conforms.exists_comes h hb hclock hes
    obtain ⟨hreport, -⟩ := hconf.told (hb.run es) ho
    injection hreport with hreport
    rw [hreport, loop, total_visits, Table.length_keys]
  apart es o hes ho p hp := by
    obtain ⟨r, hr, hconf⟩ := Conforms.exists_comes h hb hclock hes
    obtain ⟨-, hcache⟩ := hconf.told (hb.run es) ho
    refine ⟨r p, hr p, ?_⟩
    rw [hcache]
    exact get?_visits_of_mem old.keys_nodup hp
  queueing es es' p id call hnone hid he := by
    have hdeadline := deadline_of_launch hnone hid
    rw [hb.orderly.settings_run] at hdeadline
    rw [← hdeadline]
    exact now_of_timedOut ((hb.run es).run [.launch n p]) hid he

/-- A pass starts in step with the loop, which has visited nobody. -/
theorem Sound.conforms_iterate (h : Sound s) (hd : s.dropped = false)
    (r : Principal → Reply PrivilegeSet) :
    Conforms r s.cache (s.next + 1) s.next (s.step .iterate) := by
  by_cases hk : s.cache.keys = []
  · have hloop : loop r s.cache = (s.cache, {}) := by
      rw [loop, hk]
      rfl
    have hnone : s.passes.get? (s.next + 1) = none := by
      rw [Option.eq_none_iff_forall_ne_some]
      intro pass hp
      exact Nat.not_succ_le_self _ (Nat.le_of_succ_le (h.books.orderly.passes hp))
    rw [h.step_iterate_empty hd hk]
    refine .finished hnone ?_ ?_
    · rw [hloop]
      exact List.mem_cons_self
    · rw [hloop]
      rfl
  · have hall : (([] : List Principal)
        ++ (⟨.caller s.next, s.cache.keys, [], [], {}⟩ : Pass).principals).Perm s.cache.keys := by
      rw [List.nil_append, Pass.principals, List.append_nil, List.map_nil, List.append_nil]
    rw [h.step_iterate_opens hd hk]
    exact .going Table.get?_put_self rfl hall rfl fun l hl => absurd hl List.not_mem_nil

/-- A pass starts with nothing under way. -/
theorem Sound.iterate_idle (h : Sound s) (hd : s.dropped = false) {pass : Pass}
    (hp : (s.step .iterate).passes.get? (s.next + 1) = some pass) :
    pass.flying = [] ∧ pass.landed = [] := by
  by_cases hk : s.cache.keys = []
  · rw [h.step_iterate_empty hd hk] at hp
    exact absurd (h.books.orderly.passes hp) (Nat.not_lt_of_le (Nat.le_succ _))
  · rw [h.step_iterate_opens hd hk] at hp
    have hpass : ⟨.caller s.next, s.cache.keys, [], [], {}⟩ = pass :=
      Option.some_inj.mp (Table.get?_put_self.symm.trans hp)
    rw [← hpass]
    exact ⟨rfl, rfl⟩

end

/-- An engine can come to have anything in its cache. -/
theorem exists_run_cache (settings : Settings) (checks : Bool)
    (t : Table Principal PrivilegeSet) :
    ∃ es, ((State.initial settings checks).run es).cache = t
      ∧ ((State.initial settings checks).run es).dropped = false := by
  have hwrites : ∀ l : List (Principal × PrivilegeSet), (l.map Prod.fst).Nodup →
      ((State.initial settings checks).run (l.map fun e => .write e.1 e.2)).cache.entries = l
        ∧ ((State.initial settings checks).run (l.map fun e => .write e.1 e.2)).dropped
          = false := by
    intro l hl
    induction l using List.reverseRecOn with
    | nil => exact ⟨rfl, rfl⟩
    | append_singleton l e ih =>
      rw [List.map_append, List.map_singleton, ← List.concat_eq_append, List.nodup_concat] at hl
      obtain ⟨hentries, hdropped⟩ := ih hl.2
      rw [List.map_append, run_append]
      refine ⟨?_, hdropped⟩
      rw [← hentries] at hl
      exact (Entries.put_of_not_mem hl.1).trans (congrArg (· ++ [e]) hentries)
  obtain ⟨hentries, hdropped⟩ := hwrites t.entries t.nodup
  exact ⟨_, Table.ext_entries hentries, hdropped⟩

/-- **A refresh pass runs as the loop does that visits the principals one after the other.**  This
holds of every engine that caches, with every number of calls at once that a pass can be run with,
wherever the engine has come to, whatever is in its cache, and however its backend behaves. -/
theorem pass_runs_as_loop (settings : Settings) (checks : Bool)
    (ha : settings.cachingActive = true)
    (hpar : settings.refreshParallelism ≤ State.maxParallelism) (es : List Event)
    (hd : ((State.initial settings checks).run es).dropped = false) (b : Principal → Conduct) :
    RunsAsLoop b ((State.initial settings checks).run es).cache
      (((State.initial settings checks).run es).next + 1)
      ((State.initial settings checks).run es).next
      (((State.initial settings checks).run es).step .iterate) := by
  have hinitial : Sound (State.initial settings checks) :=
    ⟨.initial settings checks, ha, Nat.max_le.mpr ⟨by decide, hpar⟩⟩
  have h := hinitial.run es
  have hclock := (Clocked.initial settings checks).run hinitial.books.orderly (es ++ [.iterate])
  rw [run_append] at hclock
  have hb := h.books.run [.iterate]
  refine Conforms.runsAsLoop hb hclock (h.conforms_iterate hd) (fun pass => h.iterate_idle hd)
    fun hid ho => ?_
  obtain ⟨pass, hp, hf⟩ := hb.passes.flights hid ho
  rw [(h.iterate_idle hd hp).1] at hf
  exact absurd hf List.not_mem_nil

/-- One principal is listed after ten milliseconds and the other never; the results are looked at in
the order in which the calls end, which is not that of the cache. -/
theorem pass_runs_as_loop_of_two :
    let p : Principal := ⟨.user, "alice"⟩
    let q : Principal := ⟨.user, "bob"⟩
    let b : Principal → Conduct := fun x =>
      if x = q then ⟨some 10, .value (.ofList [⟨.space "docs", .read⟩])⟩ else ⟨none, .crashed⟩
    let s := (State.initial { authorization := true } true).run
      [.write p (.ofList []), .write q (.ofList [])]
    let es : List Event := [.launch 1 p, .launch 1 q, .elapse 10,
      .answer 3 (.value (.ofList [⟨.space "docs", .read⟩])), .collect 1 q, .elapse 20000, .expire 2,
      .collect 1 p]
    s.dropped = false ∧ RunsAsLoop b s.cache 1 0 (s.step .iterate)
      ∧ .returned 0 (.refreshed ⟨1, 1⟩) ∈ ((s.step .iterate).run es).journal
      ∧ (loop (fun x => (b x).alone s.settings.backendTimeout) s.cache).1.entries
        = ((s.step .iterate).run es).cache.entries := by
  intro p q b s es
  have hd : s.dropped = false := by decide
  exact ⟨hd, pass_runs_as_loop { authorization := true } true rfl (by decide) _ hd b, by decide,
    by decide⟩

end Gatekeeper.Engine

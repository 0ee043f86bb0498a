import Gatekeeper.Proofs.Marks

/-!
# What has to do with workers

Little of what happens in an engine has to do with its workers.  An event that has not leaves them
as they are, begins and ends no pass of theirs, and tells nobody that one of them is at its end;
what is left are the turns of the workers themselves, the requests to start and to stop them, and
the end of the engine.

* `State.Driven` — a pass is there for a worker to run.
* `Aloof` — a change in which workers, and where the engine stands in its life, have no part.
* `step_aloof` — most events lead to no other changes.
* `collect_aloof` — nor does a pass that looks at a result, unless a worker learns from it that its
  pass is over.

What is left aside here is most of an engine.  The point of the file is that it can be left
aside: from now on a proof about workers looks at the few events in which they have a part, and
for all others there is one lemma.
-/

set_option autoImplicit false

namespace Gatekeeper.Engine

/-- The note says that somebody who waited for the end of a worker was told of it. -/
def Note.exit : Note → Bool
  | .returned _ .stopped => true
  | _ => false

/-- The pass is there for the worker to run. -/
def State.Driven (s : State) (w n : Id) : Prop :=
  ∃ pass, s.passes.get? n = some pass ∧ pass.driver = .worker w

/-- A change in which workers, and where the engine stands in its life, have no part. -/
structure Aloof (s t : State) : Prop where
  lifecycle : t.lifecycle = s.lifecycle
  dropped : t.dropped = s.dropped
  workers : t.workers = s.workers
  /-- No pass of a worker begins. -/
  passes : ∀ {w n}, t.Driven w n → s.Driven w n
  exits : ∀ m ∈ t.journal, m.exit = true → m ∈ s.journal

variable {s t u : State}

/-- Notes are added that tell nobody of the end of a worker. -/
theorem exits_of_append (new : List Note) (hj : t.journal = new ++ s.journal)
    (hn : ∀ m ∈ new, m.exit = false) : ∀ m ∈ t.journal, m.exit = true → m ∈ s.journal := by
  intro m hm he
  rw [hj] at hm
  refine (List.mem_append.mp hm).resolve_left fun hm => ?_
  rw [hn m hm] at he
  cases he

namespace Aloof

theorem refl (s : State) : Aloof s s where
  lifecycle := rfl
  dropped := rfl
  workers := rfl
  passes := id
  exits _ hm _ := hm

theorem trans (h : Aloof s t) (h' : Aloof t u) : Aloof s u where
  lifecycle := h'.lifecycle.trans h.lifecycle
  dropped := h'.dropped.trans h.dropped
  workers := h'.workers.trans h.workers
  passes hd := h.passes (h'.passes hd)
  exits m hm he := h.exits m (h'.exits m hm he) he

/-- A change in which passes have no part, either. -/
theorem of_eq (new : List Note) (hl : t.lifecycle = s.lifecycle) (hd : t.dropped = s.dropped)
    (hw : t.workers = s.workers) (hp : t.passes = s.passes) (hj : t.journal = new ++ s.journal)
    (hn : ∀ m ∈ new, m.exit = false) : Aloof s t where
  lifecycle := hl
  dropped := hd
  workers := hw
  passes hd := by rwa [State.Driven, hp] at hd
  exits := exits_of_append new hj hn

/-- A pass goes on. -/
theorem of_put (pass' : Pass) (new : List Note) {n : Id} {pass : Pass}
    (hn : s.passes.get? n = some pass) (hdr : pass'.driver = pass.driver)
    (hl : t.lifecycle = s.lifecycle) (hd : t.dropped = s.dropped) (hw : t.workers = s.workers)
    (hp : t.passes = s.passes.put n pass') (hj : t.journal = new ++ s.journal)
    (hnew : ∀ m ∈ new, m.exit = false) : Aloof s t where
  lifecycle := hl
  dropped := hd
  workers := hw
  passes h := by
    obtain ⟨pass₁, h, h'⟩ := h
    rw [hp] at h
    rcases Table.get?_put_eq_some_iff.mp h with ⟨rfl, rfl⟩ | ⟨-, h⟩
    · exact ⟨pass, hn, hdr ▸ h'⟩
    · exact ⟨pass₁, h, h'⟩
  exits := exits_of_append new hj hnew

/-- A pass is gone. -/
theorem of_erase (new : List Note) {n : Id} (hl : t.lifecycle = s.lifecycle)
    (hd : t.dropped = s.dropped) (hw : t.workers = s.workers) (hp : t.passes = s.passes.erase n)
    (hj : t.journal = new ++ s.journal) (hnew : ∀ m ∈ new, m.exit = false) : Aloof s t where
  lifecycle := hl
  dropped := hd
  workers := hw
  passes h := by
    obtain ⟨pass, h, h'⟩ := h
    rw [hp] at h
    exact ⟨pass, (Table.get?_erase_eq_some_iff.mp h).2, h'⟩
  exits := exits_of_append new hj hnew

/-! ## Parts of steps

The parts that callers, calls and caller's passes are made of are gone through here, each keeping
workers and their passes as they are. -/

theorem enter (r : Request) : Aloof s (s.enter r) :=
  of_eq [.called s.next r] rfl rfl rfl rfl rfl (by simp [Note.exit])

theorem finish (c : Id) {o : Outcome} (ho : o ≠ .stopped) : Aloof s (s.finish c o) := by
  refine of_eq [.returned c o] rfl rfl rfl rfl rfl fun m hm => ?_
  rw [List.mem_singleton.mp hm]
  cases o <;> simp_all [Note.exit]

theorem startOwnCall (c : Id) (p : Principal) (q : Question) (o : Owner) :
    Aloof s (s.startOwnCall c p q o) :=
  of_eq [.began s.next p q o, .joined c s.next] rfl rfl rfl rfl rfl (by simp [Note.exit])

theorem endCall (id : Id) (p : Principal) (ending : Ending) : Aloof s (s.endCall id p ending) :=
  of_eq [.ended id p ending] rfl rfl rfl rfl rfl (by simp [Note.exit])

theorem dropCall (id : Id) : Aloof s (s.dropCall id) := by
  rw [State.dropCall]
  split
  · rename_i call _
    exact of_eq [.dropped id call.owner] rfl rfl rfl rfl rfl (by simp [Note.exit])
  · exact refl s

theorem dropPass (n : Id) : Aloof s (s.dropPass n) := by
  rw [State.dropPass_eq]
  refine of_erase _ rfl rfl rfl rfl rfl fun m hm => ?_
  obtain ⟨id, -, rfl⟩ := List.mem_map.mp (List.mem_reverse.mp hm)
  rfl

theorem joinFetch (c : Id) (e : Entity) (p : Principal) (a : Action) :
    Aloof s (s.joinFetch c e p a) := by
  have hmissed : Aloof s (s.note (.missed c p)) :=
    of_eq [.missed c p] rfl rfl rfl rfl rfl (by simp [Note.exit])
  refine hmissed.trans ?_
  rw [State.joinFetch]
  dsimp only
  split
  · exact finish c (by simp)
  · rename_i id _
    exact of_eq [.joined c id] rfl rfl rfl rfl rfl (by simp [Note.exit])
  · exact of_eq [.joined c s.next, .began s.next p .listing .fetch] rfl rfl rfl rfl rfl
      (by simp [Note.exit])

theorem decision_ne_stopped (privileges : PrivilegeSet) (e : Entity) (p : Principal) (a : Action) :
    State.decision privileges e p a ≠ .stopped := by
  rw [State.decision]
  split <;> simp

theorem answer_ne_stopped (request : Request) (r : Reply PrivilegeSet) :
    request.answer r ≠ .stopped := by
  cases r with
  | value S =>
    cases request with
    | enforce e p a => exact decision_ne_stopped S e p a
    | _ => simp [Request.answer]
  | _ => cases request <;> simp [Request.answer]

theorem exit_answer (c : Id) (request : Request) (r : Reply PrivilegeSet) :
    (Note.returned c (request.answer r)).exit = false := by
  have h := answer_ne_stopped request r
  generalize request.answer r = o at h
  cases o <;> simp_all [Note.exit]

/-- Whoever owns a call that ends, no worker has a part in it. -/
theorem settle (id : Id) (call : Call) (r : Reply PrivilegeSet) :
    Aloof s (s.settle id call r) := by
  have hnotes : ∀ p o, ∀ m ∈ r.notes p o, m.exit = false := by
    intro p o m hm
    obtain ⟨S, -, rfl⟩ := Reply.mem_notes_iff.mp hm
    rfl
  rw [State.settle]
  split
  · rw [State.settleFetch_eq]
    refine of_eq _ rfl rfl rfl rfl (List.append_assoc ..).symm fun m hm => ?_
    rcases List.mem_append.mp hm with hm | hm
    · obtain ⟨x, -, rfl⟩ := List.mem_map.mp (List.mem_reverse.mp hm)
      exact exit_answer ..
    · exact hnotes _ _ m hm
  · rw [State.settleUpdate_eq]
    exact of_eq (_ :: r.notes _ _) rfl rfl rfl rfl rfl
      (List.forall_mem_cons.mpr ⟨exit_answer .., hnotes _ _⟩)
  · rw [State.settleDirect_eq, verdict_map_mem]
    exact finish _ (answer_ne_stopped _ _)
  · rename_i n _
    rw [State.land, Table.update]
    cases hp : s.passes.get? n with
    | none => exact refl s
    | some pass =>
      exact of_put (pass.land _) [] hp rfl rfl rfl rfl rfl rfl (by simp)

theorem reportPass (c : Id) (r : Report) : Aloof s (s.reportPass (.caller c) r) :=
  finish c (by simp)

/-- A caller's pass begins. -/
theorem beginPass (c : Id) : Aloof s (s.beginPass (.caller c)) := by
  have hnew : ∀ l : List Note, (∀ m ∈ l, m.exit = false) →
      ∀ m ∈ l ++ [Note.passStarted s.next s.cache.size], m.exit = false := by
    intro l hl m hm
    rcases List.mem_append.mp hm with hm | hm
    · exact hl m hm
    · rw [List.mem_singleton.mp hm]
      rfl
  cases ha : s.settings.cachingActive with
  | false =>
    have hactive : (!s.settings.cachingActive) = true := by simp [ha]
    rw [State.beginPass, if_pos hactive]
    exact reportPass c {}
  | true =>
    rcases State.beginPass_cases ha (.caller c) with ⟨-, hs⟩ | ⟨-, hs⟩ | ⟨-, hs⟩
    · rw [hs]
      exact of_eq ([.returned c .crashed] ++ [_]) rfl rfl rfl rfl rfl (hnew _ (by simp [Note.exit]))
    · rw [hs]
      exact of_eq ([.returned c (.refreshed {}), .passFinished s.next {}] ++ [_]) rfl rfl rfl rfl
        rfl (hnew _ (by simp [Note.exit]))
    · rw [hs]
      refine ⟨rfl, rfl, rfl, ?_, exits_of_append ([] ++ [_]) rfl (hnew [] (by simp))⟩
      rintro w n ⟨pass, hp, hd⟩
      rcases Table.get?_put_eq_some_iff.mp hp with ⟨-, rfl⟩ | ⟨-, hp⟩
      · cases hd
      · exact ⟨pass, hp, hd⟩

/-! ## Events

From the parts follow the events.  `collect` alone can go both ways: it has nothing to do with
workers unless a worker runs the pass and this was the last of its results. -/

theorem enforce (e : Entity) (p : Principal) (a : Action) : Aloof s (s.enforce e p a) := by
  refine (enter (.enforce e p a)).trans ?_
  rw [State.enforce]
  split
  · exact finish _ (by simp)
  · split
    · exact startOwnCall ..
    · split
      · exact finish _ (decision_ne_stopped _ e p a)
      · split
        · exact joinFetch ..
        · exact finish _ (by simp)

theorem update (p : Principal) : Aloof s (s.update p) := by
  refine (enter (.update p)).trans ?_
  rw [State.update]
  split
  · exact startOwnCall ..
  · exact finish _ (by simp)

theorem answer (id : Id) (r : Reply PrivilegeSet) : Aloof s (s.answer id r) := by
  rw [State.answer]
  split
  · split
    · exact (endCall id _ _).trans (settle id _ r)
    · exact refl s
  · exact refl s

theorem verdict (id : Id) (r : Reply Bool) : Aloof s (s.verdict id r) := by
  rw [State.verdict]
  split
  · split
    · rename_i call _ _ _ c e a _ _ _ _
      refine (endCall id call.principal (.checked r)).trans ?_
      rw [State.settleDirect_eq]
      refine finish _ ?_
      rcases r with (_ | _) | _ | _ <;> simp [Request.verdict]
    · exact refl s
  · exact refl s

theorem expire (id : Id) : Aloof s (s.expire id) := by
  rw [State.expire]
  split
  · split
    · exact (endCall id _ _).trans (settle id _ _)
    · exact refl s
  · exact refl s

theorem launch (n : Id) (p : Principal) : Aloof s (s.launch n p) := by
  rw [State.launch]
  split
  · rename_i pass hp
    split
    · exact of_put (pass.fly p) [.began s.next p .listing (.pass n)] hp rfl rfl rfl rfl rfl rfl
        (by simp [Note.exit])
    · exact refl s
  · exact refl s

theorem cancel (c : Id) : Aloof s (s.cancel c) := by
  rw [State.cancel]
  split
  · exact refl s
  · have hleave : Aloof s (s.leave c) :=
      of_eq [.cancelled c] rfl rfl rfl rfl rfl (by simp [Note.exit])
    dsimp only
    split
    · exact hleave.trans (dropCall _)
    · exact hleave.trans (dropPass _)
    · exact hleave
    · exact hleave

theorem digest (n : Id) (l : Landing) : Aloof s (s.digest n l) := by
  rw [State.digest_eq]
  refine of_eq (l.notes n) rfl rfl rfl rfl rfl fun m hm => ?_
  obtain ⟨p, id, r⟩ := l
  cases r <;> rw [List.mem_singleton.mp hm] <;> rfl

end Aloof

/-- The event has nothing to do with workers. -/
def Event.aloof : Event → Bool
  | .start _ | .shutdown | .drop | .spawn _ | .stop _ | .release _ | .collect .. | .wake _ => false
  | _ => true

section

variable {s : State} {ev : Event}

/-- **Most events lead to changes in which workers have no part.** -/
theorem step_aloof (hev : ev.aloof = true) : Aloof s (s.step ev) := by
  have hif : ∀ {t}, Aloof s t → Aloof s (if s.dropped then s else t) := by
    intro t h
    split
    · exact .refl s
    · exact h
  cases ev with
  | enforce e p a => exact hif (.enforce e p a)
  | update p => exact hif (.update p)
  | iterate => exact hif ((Aloof.enter .iterate).trans (.beginPass s.next))
  | invalidate =>
    exact hif (.of_eq [.invalidated s.cache.size] rfl rfl rfl rfl rfl (by simp [Note.exit]))
  | write p S => exact .of_eq [.stored p S .hand] rfl rfl rfl rfl rfl (by simp [Note.exit])
  | clear => exact .of_eq [.cleared] rfl rfl rfl rfl rfl (by simp [Note.exit])
  | cancel c => exact .cancel c
  | answer id r => exact .answer id r
  | verdict id r => exact .verdict id r
  | expire id => exact .expire id
  | launch n p => exact .launch n p
  | elapse millis => exact .of_eq [] rfl rfl rfl rfl rfl (by simp)
  | _ => cases hev

/-- A pass that looks at a result has nothing to do with workers, unless one learns from it that its
pass is over. -/
theorem collect_aloof (s : State) (n : Id) (p : Principal) :
    (Aloof s (s.collect n p) ∧ ∀ {w m}, s.Driven w m → (s.collect n p).Driven w m)
      ∨ ∃ pass l w, Closes s (.collect n p) n pass l ∧ pass.driver = .worker w := by
  rcases State.collect_cases s n p with hs | ⟨pass, l, hp, hh, hf⟩
  · rw [hs]
    exact Or.inl ⟨.refl s, id⟩
  have hl := List.mem_of_find?_eq_some hf
  obtain rfl : l.principal = p := by simpa using List.find?_some hf
  have hs := State.collect_eq hp hh hf
  have hdriver : ∀ {w m pass₁}, s.passes.get? m = some pass₁ → pass₁.driver = .worker w → m = n →
      pass.driver = .worker w := by
    rintro w m pass₁ hm hd rfl
    rw [hp, Option.some_inj] at hm
    rw [hm, hd]
  cases hc : (pass.look l).complete with
  | false =>
    rw [hc, if_neg Bool.false_ne_true] at hs
    have hp' : (s.digest n l).passes.get? n = some pass := by
      rw [State.digest_eq]
      exact hp
    rw [hs]
    refine Or.inl ⟨(Aloof.digest n l).trans
      (.of_put (pass.look l) [] hp' rfl rfl rfl rfl rfl rfl (by simp)), ?_⟩
    rintro w m ⟨pass₁, hm, hd⟩
    rw [State.digest_eq]
    by_cases hmn : m = n
    · exact ⟨pass.look l, hmn ▸ Table.get?_put_self, hdriver hm hd hmn⟩
    · exact ⟨pass₁, (Table.get?_put_of_ne hmn).trans hm, hd⟩
  | true =>
    rw [hc, if_pos rfl] at hs
    cases hd : pass.driver with
    | worker w => exact Or.inr ⟨pass, l, w, ⟨rfl, hp, hh, hl, hc, hs⟩, hd⟩
    | caller c =>
      rw [hs, hd]
      refine Or.inl ⟨(Aloof.digest n l).trans (.trans ?_ (.reportPass c _)), ?_⟩
      · exact .of_erase [.passFinished n (pass.look l).report] rfl rfl rfl rfl rfl
          (by simp [Note.exit])
      · rintro w m ⟨pass₁, hm, hd₁⟩
        rw [State.digest_eq]
        refine ⟨pass₁, (Table.get?_erase_of_ne fun hmn => ?_).trans hm, hd₁⟩
        have hw := hdriver hm hd₁ hmn
        rw [hd] at hw
        cases hw

end

end Gatekeeper.Engine

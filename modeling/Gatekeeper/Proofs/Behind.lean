import Gatekeeper.Proofs.Log

/-!
# Gates and what is behind them

A scenario with gates is played as the scenario in which every request is replaced by the
enforcement that its gate asks for: everything happens at the same time and in the same order, to
the engine, to the backend and to everybody else, and a request is answered as the gate makes of the
answer that the enforcement gets.

* `Op.behind`, `Step.behind` — what is asked of the engine in place of requests.
* `Op.read`, `Step.read` — what gates make of the answers.
* `Mirrors` — how far a step and what is behind it have got; `pollTask_agree` says that they go on
  together.
* `takeAll_behind` — what is seen of a scenario with gates.

The two scenarios are played side by side, and the relation between them is kept by every look at
a task.  What makes the proof long is the nesting of steps and not the gate: a group of steps is
looked at one after the other, and each look may change the stage for those that come after it.
The gate itself comes in at one place, where what the engine tells is turned into a response.
-/

set_option autoImplicit false

namespace Gatekeeper.Scenario

open Engine

/-! ## What is behind a gate

A request that comes to a gate is replaced by the enforcement that the gate asks for.  The result
is again a scenario, and every step of it stands for one step of the original.  `Op.read` goes
the other way: it says what a gate makes of an answer. -/

/-- What is asked of the engine in place of an operation: the enforcement of the request that comes
to a gate, and in place of one without a principal nothing, which is to say that it is refused. -/
def Op.behind : Op → Op
  | .request e a r _ =>
    match r.principal with
    | some p => .enforce e p a
    | none => .malformed .engine (.stated "")
  | op => op

mutual

/-- The step with all requests replaced by what is behind the gates. -/
def Step.behind : Step → Step
  | .one op delay patience => .one op.behind delay patience
  | .together steps delay patience => .together (behindAll steps) delay patience

/-- The steps with all requests replaced by what is behind the gates. -/
def behindAll : List Step → List Step
  | [] => []
  | step :: steps => step.behind :: behindAll steps

end

mutual

/-- The services that requests of the step are for. -/
def Step.services : Step → List Gate.Service
  | .one (.request _ _ _ service) _ _ => [service]
  | .one .. => []
  | .together steps _ _ => servicesOf steps

/-- The services that requests of the steps are for. -/
def servicesOf : List Step → List Gate.Service
  | [] => []
  | step :: steps => step.services ++ servicesOf steps

end

/-- How a request with a principal is answered if the enforcement is answered like this. -/
def exchangeOf (service : Gate.Service) (r : Gate.Request) : Answer → Gate.Exchange
  | .word word =>
    if word = "allowed" then ⟨service.serve r, 1⟩
    else ⟨.ok ⟨503, "authorization unavailable"⟩, 0⟩
  | .failure (.permissionDenied ..) => ⟨.ok ⟨403, "forbidden"⟩, 0⟩
  | _ => ⟨.ok ⟨503, "authorization unavailable"⟩, 0⟩

/-- What comes of an operation if this comes of what is behind it. -/
def Op.read : Op → Answer → Answer
  | .request _ _ r service, answer =>
    match answer with
    | .nothing | .skipped | .gaveUp | .crashed => answer
    | _ => .exchange <| match r.principal with
      | some _ => exchangeOf service r answer
      | none => ⟨.ok ⟨401, "missing enforcement context"⟩, 0⟩
  | _, answer => answer

mutual

/-- What comes of a step if this comes of what is behind it. -/
def Step.read : Step → Answer → Answer
  | .one op _ _, answer => op.read answer
  | .together steps _ _, .all answers => .all (readAll steps answers)
  | .together .., answer => answer

/-- What comes of steps taken together if this comes of what is behind them. -/
def readAll : List Step → List (Answer × Nat) → List (Answer × Nat)
  | step :: steps, (answer, time) :: answers => (step.read answer, time) :: readAll steps answers
  | _, _ => []

end

/-! ## Stages that differ in their logs

A gate writes into the log what the enforcement alone would not.  So the two stages are not the
same, but they are up to their logs, and whatever does not look at the log does the same on both. -/

/-- The stage with an empty log. -/
def Stage.quiet (s : Stage) : Stage := { s with log := [] }

theorem Stage.quiet_onto (log : List Line) (s : Stage) : (s.onto log).quiet = s.quiet := rfl

theorem Stage.onto_quiet (s : Stage) : s.quiet.onto s.log = s := rfl

/-- The stages are the same but for what stands in their logs. -/
def Same (s t : Stage) : Prop := s.quiet = t.quiet

namespace Same

variable {s t : Stage}

theorem write (h : Same s t) (line : Option Line) : Same s (t.write line) := by
  cases line <;> exact h

/-- What is the same whatever stands in the log is the same in both. -/
theorem eq {α : Type} (h : Same s t) (f : Stage → α) (hf : ∀ log s, f (s.onto log) = f s) :
    f s = f t := by
  calc f s = f (s.quiet.onto s.log) := by rw [s.onto_quiet]
    _ = f (t.quiet.onto t.log) := by rw [hf, hf, show s.quiet = t.quiet from h]
    _ = f t := by rw [t.onto_quiet]

/-- What is done in the same way whatever stands in the log is done in the same way in both. -/
theorem map (h : Same s t) {f : Stage → Stage} (hf : ∀ log s, f (s.onto log) = (f s).onto log) :
    Same (f s) (f t) :=
  h.eq (fun s => (f s).quiet) fun log s => by rw [hf, Stage.quiet_onto]

theorem prod {α : Type} (h : Same s t) {f : Stage → Stage × α}
    (hf : ∀ log s, f (s.onto log) = Prod.map (Stage.onto log) id (f s)) :
    Same (f s).1 (f t).1 ∧ (f s).2 = (f t).2 :=
  ⟨h.eq (fun s => (f s).1.quiet) fun log s => by rw [hf, Prod.map_fst, Stage.quiet_onto],
    h.eq (fun s => (f s).2) fun log s => by rw [hf, Prod.map_snd, id]⟩

theorem now (h : Same s t) : s.now = t.now := h.eq Stage.now Stage.onto_now

theorem told (h : Same s t) : s.told = t.told := h.eq Stage.told Stage.onto_told

theorem has (h : Same s t) : s.has = t.has := h.eq Stage.has Stage.onto_has

end Same

/-! ## One operation

An operation begins, waits, and is answered.  A request goes through the same stations as the
enforcement behind it, with one exception: one without a principal is answered without asking the
engine.  `Along` lists the pairs of stations that can occur. -/

/-- An operation can have got so far before it is answered: one that comes to a gate waits for what
the engine says about its principal. -/
def Op.Follows (op : Op) (progress : Progress) : Prop :=
  op.behind = op ∨ progress = .waiting
    ∨ ∃ c e p a, op.behind = .enforce e p a ∧ progress = .asked c

/-- How far an operation has got if what is behind it has got so far. -/
inductive Along (op : Op) : Progress → Progress → Prop
  | same {progress : Progress} (h : op.Follows progress) (hd : ∀ a, progress ≠ .done a) :
    Along op progress progress
  | done (a : Answer) : Along op (.done a) (.done (op.read a))

/-- The services behind an operation are ready. -/
def Op.Ready (op : Op) : Prop := ∀ e a r service, op = .request e a r service →
  service.readiness = .ready

section

variable {s t : Stage} {op : Op} {progress progress' : Progress}

theorem Op.behind_eq_or (op : Op) :
    op.behind = op ∨ ∃ e a r service, op = .request e a r service := by
  cases op with
  | request e a r service => exact Or.inr ⟨e, a, r, service, rfl⟩
  | _ => exact Or.inl rfl

theorem Op.behind_request_ne (e : Entity) (a : Action) (r : Gate.Request) (service : Gate.Service) :
    (request e a r service).behind ≠ .request e a r service := by
  rw [Op.behind]
  split <;> simp

theorem Op.behind_eq_enforce {e e' : Entity} {a a' : Action} {r : Gate.Request}
    {service : Gate.Service} {p : Principal}
    (h : (request e a r service).behind = .enforce e' p a') :
    r.principal = some p ∧ e' = e ∧ a' = a := by
  rw [Op.behind] at h
  split at h
  · rename_i p' hp
    injection h with he hpp ha
    exact ⟨hpp ▸ hp, he.symm, ha.symm⟩
  · cases h

theorem Op.read_of_behind (h : op.behind = op) (a : Answer) : op.read a = a := by
  cases op with
  | request e a r service => exact absurd h (behind_request_ne e a r service)
  | _ => rfl

/-- Nothing is behind an operation but itself, unless it is a request. -/
theorem Along.of_behind (h : op.behind = op) (progress : Progress) :
    Along op progress progress := by
  cases progress with
  | done a =>
    have hdone : Along op (.done a) (.done (op.read a)) := .done a
    rwa [Op.read_of_behind h] at hdone
  | _ => exact .same (Or.inl h) fun a => by simp

/-- A request begins as what is behind the gate does. -/
theorem begin_along (hs : Same s t) (op : Op) :
    Same (s.begin op.behind).1 (t.begin op).1 ∧ Along op (s.begin op.behind).2 (t.begin op).2 := by
  rcases op.behind_eq_or with h | ⟨e, a, r, service, rfl⟩
  · rw [h]
    obtain ⟨hsame, heq⟩ := hs.prod (f := (·.begin op)) fun log s => Stage.begin_onto log s op
    exact ⟨hsame, heq ▸ .of_behind h _⟩
  · -- with a principal the gate asks what is behind it; without one neither asks anything
    cases hp : r.principal with
    | some p =>
      have hbehind : (Op.request e a r service).behind = .enforce e p a := by
        simp only [Op.behind, hp]
      have hbegin : t.begin (.request e a r service) = t.begin (.enforce e p a) := by
        simp only [Stage.begin, Op.part?, Gate.question?, hp, Option.map_some]
        rfl
      obtain ⟨hsame, heq⟩ := hs.prod (f := (·.begin (.enforce e p a)))
        fun log s => Stage.begin_onto log s _
      rw [hbehind, hbegin]
      refine ⟨hsame, heq ▸ ?_⟩
      unfold Stage.begin
      split
      · exact .done .skipped
      · exact .same (Or.inr (Or.inr ⟨_, _, _, _, hbehind, rfl⟩)) fun a => by simp [Stage.call]
    | none =>
      have hbehind : (Op.request e a r service).behind = .malformed .engine (.stated "") := by
        simp only [Op.behind, hp]
      have hread : (Op.request e a r service).read (.failure (.invalidId (.stated "")))
          = .exchange Gate.turnedAway := by
        simp only [Op.read, hp]
        rfl
      rw [hbehind]
      simp only [Stage.begin, Op.part?, Gate.question?, hp, hs.has, Option.map_none]
      split
      · exact ⟨hs, .done .skipped⟩
      · exact ⟨hs, hread ▸ .done _⟩

/-- A gate answers as it reads what the enforcement behind it is answered. -/
theorem exists_conclude (s : Stage) (e : Entity) (a : Action) {r : Gate.Request}
    {service : Gate.Service} (hready : service.readiness = .ready) {p : Principal}
    (hp : r.principal = some p) {o : Outcome} (ho : o ≠ .crashed) :
    ∃ answer, s.conclude (.enforce e p a) o = s.answer answer
      ∧ (Op.request e a r service).read answer = .exchange (Gate.complete service r o) := by
  cases o with
  | allowed =>
    refine ⟨.word "allowed", rfl, ?_⟩
    simp [Op.read, hp, exchangeOf, Gate.complete, Gate.refusal?, Gate.Service.handle, hready]
  | failed error =>
    refine ⟨.failure error, rfl, ?_⟩
    cases error <;> simp only [Op.read, hp] <;> rfl
  | crashed => exact absurd rfl ho
  | refreshed report =>
    refine ⟨.report report, rfl, ?_⟩
    simp only [Op.read, hp]
    rfl
  | updated | started | stopped | spawned =>
    refine ⟨.word _, rfl, ?_⟩
    simp only [Op.read, hp]
    rfl

/-- What the engine tells is received by a gate as it is by the enforcement behind it. -/
theorem conclude_along (hs : Same s t) (e : Entity) (a : Action) {r : Gate.Request}
    {service : Gate.Service} (hready : service.readiness = .ready) {p : Principal}
    (hp : r.principal = some p) (o : Outcome) :
    Same (s.conclude (.enforce e p a) o).1 (t.conclude (.request e a r service) o).1
      ∧ Along (.request e a r service) (s.conclude (.enforce e p a) o).2
        (t.conclude (.request e a r service) o).2 := by
  by_cases ho : o = .crashed
  · subst ho
    exact ⟨hs, .done .crashed⟩
  · obtain ⟨answer, hanswer, hread⟩ := exists_conclude s e a hready hp ho
    have hstalls : Gate.stalls service o = false := by
      rw [Gate.stalls, hready]
      simp
    have hgate : t.conclude (.request e a r service) o
        = (t.write (r.principal.bind (Gate.line? · o))).answer
          (.exchange (Gate.complete service r o)) := by
      cases o with
      | crashed => exact absurd rfl ho
      | _ => simp only [Stage.conclude, hstalls]; rfl
    rw [hanswer, hgate, ← hread]
    exact ⟨hs.write _, .done answer⟩

/-- **A request goes on as what is behind the gate does.** -/
theorem advance_along (hs : Same s t) (hready : op.Ready) (h : Along op progress progress') :
    Same (s.advance op.behind progress).1 (t.advance op progress').1
      ∧ Along op (s.advance op.behind progress).2.1 (t.advance op progress').2.1
      ∧ (s.advance op.behind progress).2.2 = (t.advance op progress').2.2 := by
  rcases op.behind_eq_or with hop | ⟨e, a, r, service, rfl⟩
  · have heq : progress' = progress := by
      cases h with
      | same => rfl
      | done a => rw [Op.read_of_behind hop]
    obtain ⟨hsame, hrest⟩ := hs.prod (f := (·.advance op progress))
      fun log s => Stage.advance_onto log s op progress
    rw [hop, heq]
    exact ⟨hsame, hrest ▸ .of_behind hop _, congrArg Prod.snd hrest⟩
  · cases h with
    | done a => exact ⟨hs, .done a, rfl⟩
    | same h hd =>
      rcases h with hop | rfl | ⟨c, e', p, a', hop, rfl⟩
      · exact absurd hop (Op.behind_request_ne e a r service)
      · exact ⟨hs, .same (Or.inr (Or.inl rfl)) hd, rfl⟩
      · obtain ⟨hp, rfl, rfl⟩ := Op.behind_eq_enforce hop
        obtain ⟨hdriven, hmoved⟩ := hs.prod (f := (·.drive c)) fun log s => Stage.drive_onto log s c
        rw [hop]
        simp only [Stage.advance]
        generalize s.drive c = x at hdriven hmoved
        generalize t.drive c = y at hdriven hmoved
        obtain ⟨s, moved⟩ := x
        obtain ⟨t, moved'⟩ := y
        dsimp only at hdriven hmoved ⊢
        have htold := hdriven.told
        cases ho : t.told.get? c with
        | some o =>
          have htaken : Same { s with told := s.told.erase c } { t with told := t.told.erase c } :=
            hdriven.map (f := fun s => { s with told := s.told.erase c }) fun _ _ => rfl
          obtain ⟨hsame, halong⟩ := conclude_along htaken e' a' (hready _ _ _ _ rfl) hp o
          rw [htold, ho]
          exact ⟨htold ▸ hsame, htold ▸ halong, rfl⟩
        | none =>
          rw [htold, ho]
          exact ⟨hdriven, .same (Or.inr (Or.inr ⟨c, _, _, _, hop, rfl⟩)) hd, hmoved⟩

end

/-! ## Tasks

A task is a step that is being carried out; steps can be taken together, and so tasks nest.  How
far two of them have got is compared by recursion along the step, where the case of a single
operation is `Along`. -/

mutual

/-- How far a step has got if what is behind it has got so far. -/
inductive Mirrors : Step → Task → Task → Prop
  | going {op : Op} {delay : Nat} {patience : Option Nat} {start : Nat} {limit : Option Nat}
    {progress progress' : Progress} (h : Along op progress progress') :
    Mirrors (.one op delay patience) (.one op.behind start limit progress)
      (.one op start limit progress')
  | ended (step : Step) (answer : Answer) (time : Nat) :
    Mirrors step (.ended answer time) (.ended (step.read answer) time)
  | together {steps : List Step} {delay : Nat} {patience : Option Nat} {ts us : List Task}
    {start : Nat} {limit : Option Nat} (h : MirrorsAll steps ts us) :
    Mirrors (.together steps delay patience) (.together ts start limit) (.together us start limit)

/-- How far steps taken together have got if what is behind them has got so far. -/
inductive MirrorsAll : List Step → List Task → List Task → Prop
  | nil : MirrorsAll [] [] []
  | cons {step : Step} {steps : List Step} {t u : Task} {ts us : List Task}
    (h : Mirrors step t u) (hs : MirrorsAll steps ts us) :
    MirrorsAll (step :: steps) (t :: ts) (u :: us)

end

/-- The same has happened to two stages, while the step and what is behind it have gone on. -/
structure Agree (step : Step) (x y : Stage × Task × Bool) : Prop where
  same : Same x.1 y.1
  mirrors : Mirrors step x.2.1 y.2.1
  moved : x.2.2 = y.2.2

structure AgreeAll (steps : List Step) (x y : Stage × List Task × Bool) : Prop where
  same : Same x.1 y.1
  mirrors : MirrorsAll steps x.2.1 y.2.1
  moved : x.2.2 = y.2.2

section

variable {s s' t : Stage}

theorem Op.read_gaveUp (op : Op) : op.read .gaveUp = .gaveUp := by cases op <;> rfl

theorem Step.read_gaveUp (step : Step) : step.read .gaveUp = .gaveUp := by
  cases step with
  | one op delay patience => exact op.read_gaveUp
  | together => rfl

theorem Mirrors.gaveUp (step : Step) (time : Nat) :
    Mirrors step (.ended .gaveUp time) (.ended .gaveUp time) := by
  have h := Mirrors.ended step .gaveUp time
  rwa [step.read_gaveUp] at h

theorem Same.letGo (h : Same s t) : Same s.letGo t.letGo := h.map Stage.letGo_onto

theorem Same.giveUp (h : Same s t) (progress : Progress) :
    Same (s.giveUp progress) (t.giveUp progress) :=
  h.map (f := (·.giveUp progress)) fun log s => Stage.giveUp_onto log s progress

/-- What is wrapped up in the same way ends in the same way. -/
theorem wrapUp_agree {op : Op} {delay : Nat} {patience : Option Nat} (start : Nat)
    (limit : Option Nat) (begun : Bool) {x y : Stage × Progress × Bool} (hs : Same x.1 y.1)
    (h : Along op x.2.1 y.2.1) (hm : x.2.2 = y.2.2) :
    Agree (.one op delay patience) (Stage.wrapUp op.behind start limit begun x)
      (Stage.wrapUp op start limit begun y) := by
  obtain ⟨s, progress, moved⟩ := x
  obtain ⟨t, progress', moved'⟩ := y
  obtain rfl : moved = moved' := hm
  have hs : Same s t := hs
  cases h with
  | done a =>
    simp only [Stage.wrapUp]
    rw [hs.now]
    exact ⟨hs.letGo, .ended (.one op delay patience) a _, rfl⟩
  | same h hd =>
    have hwrap : ∀ (s : Stage) (op : Op), Stage.wrapUp op start limit begun (s, progress, moved)
        = if limit.any (· ≤ s.now) then ((s.giveUp progress).letGo, .ended .gaveUp s.now, true)
          else (s, .one op start limit progress, begun || moved) := by
      intro s op
      cases progress with
      | done a => exact absurd rfl (hd a)
      | _ => rfl
    rw [hwrap, hwrap, hs.now]
    split
    · exact ⟨(hs.giveUp progress).letGo, .gaveUp _ _, rfl⟩
    · exact ⟨hs, .going (.same h hd), rfl⟩

/-- **A request is looked at as what is behind it is.** -/
theorem pollOp_agree {op : Op} (hready : op.Ready) {delay : Nat} {patience : Option Nat}
    (start : Nat) (limit : Option Nat) {progress progress' : Progress}
    (hs : Same s t) (h : Along op progress progress') :
    Agree (.one op delay patience) (s.pollOp op.behind start limit progress)
      (t.pollOp op start limit progress') := by
  by_cases hnow : t.now < start
  · rw [Stage.pollOp_early _ (hs.now.symm ▸ hnow), Stage.pollOp_early _ hnow]
    exact ⟨hs, .going h, rfl⟩
  have hnow' : ¬ s.now < start := hs.now.symm ▸ hnow
  by_cases hp : progress = .waiting
  · subst hp
    cases h
    obtain ⟨hbegun, hbegan⟩ := begin_along hs op
    obtain ⟨hsame, halong, hmoved⟩ := advance_along hbegun hready hbegan
    rw [Stage.pollOp_waiting _ hnow', Stage.pollOp_waiting _ hnow]
    exact wrapUp_agree start limit true hsame halong hmoved
  · have hp' : progress' ≠ .waiting := by
      cases h with
      | same => exact hp
      | done a => simp
    obtain ⟨hsame, halong, hmoved⟩ := advance_along hs hready h
    rw [Stage.pollOp_begun _ hnow' _ hp, Stage.pollOp_begun _ hnow _ hp']
    exact wrapUp_agree start limit false hsame halong hmoved

/-! ## Tasks together

What is said of one task and of several tasks is proved by one mutual recursion.  Tasks that are
taken together end when all have ended, and crash when one does, and a gate changes neither:
whether an answer is a crash can be told before it is read. -/

theorem Op.services_ready {op : Op} {delay : Nat} {patience : Option Nat}
    (h : ∀ service ∈ (Step.one op delay patience).services, service.readiness = .ready) :
    op.Ready := by
  rintro e a r service rfl
  exact h service List.mem_cons_self

theorem answers?_cons (t : Task) (ts : List Task) : Task.answers? (t :: ts) =
    match t with
    | .ended answer time => (Task.answers? ts).map ((answer, time) :: ·)
    | _ => none := by
  rw [Task.answers?, List.mapM_cons]
  cases t with
  | ended answer time =>
    show ((Task.answers? ts).bind fun rest => some ((answer, time) :: rest)) = _
    cases Task.answers? ts <;> rfl
  | _ => rfl

/-- Tasks together are over when what is behind them is. -/
theorem answers?_mirrors {steps : List Step} {ts us : List Task} (h : MirrorsAll steps ts us) :
    Task.answers? us = (Task.answers? ts).map (readAll steps) := by
  match h with
  | .nil => rfl
  | .cons h hs =>
    have ih := answers?_mirrors hs
    rw [answers?_cons, answers?_cons]
    cases h with
    | ended step answer time =>
      dsimp only
      rw [ih, Option.map_map, Option.map_map]
      rfl
    | going => rfl
    | together => rfl

theorem Op.read_nothing (op : Op) : op.read .nothing = .nothing := by cases op <;> rfl

theorem Mirrors.answer {step : Step} {t u : Task} (h : Mirrors step t u) :
    u.answer = step.read t.answer := by
  cases h with
  | going => exact (Op.read_nothing _).symm
  | ended => rfl
  | together => rfl

theorem Op.isCrash_read (op : Op) (answer : Answer) :
    (op.read answer).isCrash = answer.isCrash := by
  cases op <;> cases answer <;> rfl

/-- A step crashes if what is behind it does. -/
theorem Step.isCrash_read (step : Step) (answer : Answer) :
    (step.read answer).isCrash = answer.isCrash := by
  cases step with
  | one op delay patience => exact op.isCrash_read answer
  | together => cases answer <;> rfl

/-- Tasks together crash when what is behind them does. -/
theorem any_isCrash_mirrors {steps : List Step} {ts us : List Task} (h : MirrorsAll steps ts us) :
    us.any (·.answer.isCrash) = ts.any (·.answer.isCrash) := by
  match h with
  | .nil => rfl
  | .cons h hs =>
    rw [List.any_cons, List.any_cons, any_isCrash_mirrors hs, h.answer, Step.isCrash_read]

/-- Tasks together come to what gates make of what has come of what is behind them. -/
theorem joint?_mirrors {steps : List Step} (delay : Nat) (patience : Option Nat)
    {ts us : List Task} (h : MirrorsAll steps ts us) :
    Task.joint? us = (Task.joint? ts).map (Step.together steps delay patience).read := by
  rw [Task.joint?, Task.joint?, any_isCrash_mirrors h, answers?_mirrors h]
  split
  · rfl
  · rw [Option.map_map, Option.map_map]
    rfl

mutual

theorem giveUpTask_mirrors (s : Stage) {step : Step} {t u : Task} (h : Mirrors step t u) :
    s.giveUpTask u = s.giveUpTask t := by
  match h with
  | .going (.same _ _) => rfl
  | .going (.done _) => rfl
  | .ended _ _ _ => rfl
  | .together h => exact giveUpTasks_mirrors s h

theorem giveUpTasks_mirrors (s : Stage) {steps : List Step} {ts us : List Task}
    (h : MirrorsAll steps ts us) : s.giveUpTasks us = s.giveUpTasks ts := by
  match h with
  | .nil => rfl
  | .cons h hs =>
    rw [Stage.giveUpTasks, giveUpTask_mirrors s h, giveUpTasks_mirrors _ hs, Stage.giveUpTasks]

end

theorem Same.giveUpTasks {steps : List Step} {ts us : List Task} (hs : Same s t)
    (h : MirrorsAll steps ts us) : Same (s.giveUpTasks ts) (t.giveUpTasks us) := by
  rw [giveUpTasks_mirrors t h]
  exact hs.map (f := (·.giveUpTasks ts)) fun log s => Stage.giveUpTasks_onto log s ts

mutual

/-- **A step goes on as what is behind it does.** -/
theorem pollTask_agree {s s' : Stage} (hs : Same s s') {step : Step} {t u : Task}
    (h : Mirrors step t u) (hready : ∀ service ∈ step.services, service.readiness = .ready) :
    Agree step (s.pollTask t) (s'.pollTask u) := by
  match h with
  | .going h => exact pollOp_agree (Op.services_ready hready) _ _ hs h
  | .ended step answer time => exact ⟨hs, .ended step answer time, rfl⟩
  | .together h =>
    rename_i steps delay patience ts us start limit
    have hrest := pollTasks_agree hs h hready
    rw [Stage.pollTask, Stage.pollTask, hs.now]
    split
    · exact ⟨hs, .together h, rfl⟩
    · -- the members have gone on together, and so they are over together
      generalize s.pollTasks ts = x at hrest
      generalize s'.pollTasks us = y at hrest
      obtain ⟨s, ts, moved⟩ := x
      obtain ⟨s', us, moved'⟩ := y
      obtain ⟨hs, h, hmoved⟩ := hrest
      dsimp only at hs h hmoved ⊢
      rw [joint?_mirrors delay patience h]
      cases Task.joint? ts with
      | some answer =>
        dsimp only [Option.map_some]
        rw [hs.now]
        exact ⟨hs, .ended (.together steps delay patience) answer _, rfl⟩
      | none =>
        dsimp only [Option.map_none]
        rw [hs.now]
        split
        · exact ⟨hs.giveUpTasks h, .gaveUp _ _, rfl⟩
        · exact ⟨hs, .together h, hmoved⟩

/-- Steps taken together go on as what is behind them does. -/
theorem pollTasks_agree {s s' : Stage} (hs : Same s s') {steps : List Step} {ts us : List Task}
    (h : MirrorsAll steps ts us)
    (hready : ∀ service ∈ servicesOf steps, service.readiness = .ready) :
    AgreeAll steps (s.pollTasks ts) (s'.pollTasks us) := by
  match h with
  | .nil => exact ⟨hs, .nil, rfl⟩
  | .cons h hrest =>
    have hfirst := pollTask_agree hs h fun service hservice =>
      hready service (List.mem_append_left _ hservice)
    have hthen := pollTasks_agree hfirst.same hrest fun service hservice =>
      hready service (List.mem_append_right _ hservice)
    refine ⟨hthen.same, .cons hfirst.mirrors hthen.mirrors, ?_⟩
    simp only [Stage.pollTasks]
    rw [hfirst.moved, hthen.moved]

end

/-! ## Running

A stage plays a step by looking at it again and again at the moments at which something may
happen.  Both sides have the same moments, so they are played in as many rounds and end together. -/

theorem progressTimes_along {op : Op} {progress progress' : Progress} (hs : Same s s')
    (h : Along op progress progress') : s'.progressTimes progress' = s.progressTimes progress := by
  cases h with
  | same => exact (hs.eq (·.progressTimes progress) fun _ _ => rfl).symm
  | done a => rfl

mutual

theorem taskTimes_mirrors {s s' : Stage} (hs : Same s s') {step : Step} {t u : Task}
    (h : Mirrors step t u) : s'.taskTimes u = s.taskTimes t := by
  match h with
  | .going h => rw [Stage.taskTimes, Stage.taskTimes, hs.now, progressTimes_along hs h]
  | .ended _ _ _ => rfl
  | .together h => rw [Stage.taskTimes, Stage.taskTimes, hs.now, tasksTimes_mirrors hs h]

theorem tasksTimes_mirrors {s s' : Stage} (hs : Same s s') {steps : List Step} {ts us : List Task}
    (h : MirrorsAll steps ts us) : s'.tasksTimes us = s.tasksTimes ts := by
  match h with
  | .nil => rfl
  | .cons h hrest =>
    rw [Stage.tasksTimes, Stage.tasksTimes, taskTimes_mirrors hs h, tasksTimes_mirrors hs hrest]

end

theorem Mirrors.isOver {step : Step} {t u : Task} (h : Mirrors step t u) : u.isOver = t.isOver := by
  cases h <;> rfl

/-- **A step and what is behind it run to their end together.** -/
theorem play_mirrors {step : Step}
    (hready : ∀ service ∈ step.services, service.readiness = .ready) (rounds : Nat)
    {t u : Task} (hs : Same s s') (h : Mirrors step t u) :
    Same (Stage.play rounds s t).1 (Stage.play rounds s' u).1
      ∧ Mirrors step (Stage.play rounds s t).2 (Stage.play rounds s' u).2 := by
  induction rounds generalizing s s' t u with
  | zero => exact ⟨hs, h⟩
  | succ rounds ih =>
    have hagree := pollTask_agree hs h hready
    rw [Stage.play, Stage.play]
    generalize s.pollTask t = x at hagree
    generalize s'.pollTask u = y at hagree
    obtain ⟨s, t, moved⟩ := x
    obtain ⟨s', u, moved'⟩ := y
    obtain ⟨hs, h, hmoved⟩ := hagree
    dsimp only at hs h hmoved ⊢
    rw [h.isOver, ← hmoved]
    split
    · exact ⟨hs, h⟩
    · obtain ⟨hbackground, hstirred⟩ := hs.prod Stage.background_onto
      generalize s.background = x at hbackground hstirred
      generalize s'.background = y at hbackground hstirred
      obtain ⟨s, stirred⟩ := x
      obtain ⟨s', stirred'⟩ := y
      dsimp only at hbackground hstirred ⊢
      rw [← hstirred]
      split
      · exact ih hbackground h
      · have htimes : s'.nextTime? (s'.backgroundTimes ++ s'.taskTimes u)
            = s.nextTime? (s.backgroundTimes ++ s.taskTimes t) := by
          rw [taskTimes_mirrors hbackground h]
          exact (hbackground.eq (fun s => s.nextTime? (s.backgroundTimes ++ _)) fun _ _ => rfl).symm
        rw [htimes]
        split
        · rename_i time _
          exact ih (hbackground.map (f := (·.moveTo time)) fun log s =>
            Stage.moveTo_onto log s time) h
        · exact ⟨hbackground, h⟩

mutual

theorem Step.task_mirrors (time : Nat) (step : Step) :
    Mirrors step (step.behind.task time) (step.task time) := by
  match step with
  | .one op delay patience => exact .going (.same (Or.inr (Or.inl rfl)) fun a => by simp)
  | .together steps delay patience => exact .together (tasks_mirrors _ steps)

theorem tasks_mirrors (time : Nat) (steps : List Step) :
    MirrorsAll steps (tasks time (behindAll steps)) (tasks time steps) := by
  match steps with
  | [] => exact .nil
  | step :: steps => exact .cons (Step.task_mirrors time step) (tasks_mirrors time steps)

end

/-- What is seen of a step if this is seen of what is behind it: everything but the answer, and what
is logged. -/
def Observation.through (step : Step) (seen : Observation) : Observation :=
  { seen with answer := step.read seen.answer, log := [] }

theorem Same.observe (h : Same s s') (step : Step) (answer : Answer) (time : Nat) :
    { s'.observe (step.read answer) time with log := [] }
      = (s.observe answer time).through step :=
  (h.eq (fun s => Observation.through step (s.observe answer time)) fun _ _ => rfl).symm

/-- Carrying out a step is seen as carrying out what is behind it. -/
theorem take_behind (step : Step)
    (hready : ∀ service ∈ step.services, service.readiness = .ready) (hs : Same s s') :
    Same (s.take step.behind).1 (s'.take step).1
      ∧ { (s'.take step).2 with log := [] } = (s.take step.behind).2.through step := by
  have hback : Same (s.setBackend s.site.backend.lookAway)
      (s'.setBackend s'.site.backend.lookAway) :=
    hs.map (f := fun s => s.setBackend s.site.backend.lookAway) fun _ _ => rfl
  have hstart : Same { s.setBackend s.site.backend.lookAway with log := [] }
      { s'.setBackend s'.site.backend.lookAway with log := [] } := hback
  rw [Stage.take, Stage.take]
  -- from here on both stages have empty logs, and what they are otherwise does not matter
  generalize { s.setBackend s.site.backend.lookAway with log := [] } = s at hstart
  generalize { s'.setBackend s'.site.backend.lookAway with log := [] } = s' at hstart
  have hplay := play_mirrors hready horizon hstart (step.task_mirrors s.now)
  dsimp only
  rw [← hstart.now]
  generalize Stage.play horizon s (step.behind.task s.now) = x at hplay
  generalize Stage.play horizon s' (step.task s.now) = y at hplay
  obtain ⟨s, t⟩ := x
  obtain ⟨s', u⟩ := y
  obtain ⟨hsame, hmirrors⟩ := hplay
  dsimp only at hsame hmirrors ⊢
  rw [← hsame.now, hmirrors.answer]
  have hidle : Same (Stage.idle horizon s (s.now + 1)) (Stage.idle horizon s' (s.now + 1)) :=
    hsame.map (f := fun s' => Stage.idle horizon s' (s.now + 1)) fun log s' =>
      Stage.idle_onto log s' horizon _
  exact ⟨hidle, hidle.observe step _ _⟩

/-- **A scenario with gates is seen as the scenario of what is behind the gates**, each answer read
as the gates make of it. -/
theorem takeAll_behind {steps : List Step}
    (hready : ∀ service ∈ servicesOf steps, service.readiness = .ready) (hs : Same s s') :
    (s'.takeAll steps).map (fun seen => { seen with log := [] })
      = List.zipWith Observation.through steps (s.takeAll (behindAll steps)) := by
  induction steps generalizing s s' with
  | nil => rfl
  | cons step steps ih =>
    obtain ⟨hsame, hseen⟩ := take_behind step
      (fun service h => hready service (List.mem_append_left _ h)) hs
    have hrest := ih (fun service h => hready service (List.mem_append_right _ h)) hsame
    have hcrash : (s'.take step).2.answer.isCrash = (s.take step.behind).2.answer.isCrash := by
      rw [show (s'.take step).2.answer = step.read (s.take step.behind).2.answer from
        congrArg Observation.answer hseen, step.isCrash_read]
    rw [behindAll, Stage.takeAll, Stage.takeAll]
    dsimp only
    rw [hcrash]
    split
    · rw [List.map_singleton, List.zipWith_cons_cons, List.zipWith_nil_right, hseen]
    · rw [List.map_cons, List.zipWith_cons_cons, hseen, hrest]

end

end Gatekeeper.Scenario

import Gatekeeper.Scenario.Run

/-!
# The log is only written

Whatever a stage does adds lines to its log, and it does the same whatever stands in the log before.

* `Stage.onto` — the stage with older lines in its log.
* `Stage.ask_onto`, `Stage.background_onto`, … — everything that a stage does commutes with that.

The equations are all of one form, and most follow from those of the parts by rewriting, which is
why they are tagged.  What a scenario shows of its log is what has been added since the last
look, so without them nothing could be said of a scenario step by step.
-/

set_option autoImplicit false

namespace Gatekeeper.Scenario

open Engine

namespace Stage

/-- The stage with older lines in its log. -/
def onto (log : List Line) (s : Stage) : Stage := { s with log := s.log ++ log }

section

variable (log : List Line) (s : Stage)

/-! ## What is read

Everything that a stage reads to decide what to do next is independent of the log. -/

@[simp] theorem onto_site : (s.onto log).site = s.site := rfl

@[simp] theorem onto_engine : (s.onto log).engine = s.engine := rfl

@[simp] theorem onto_now : (s.onto log).now = s.now := rfl

@[simp] theorem onto_told : (s.onto log).told = s.told := rfl

@[simp] theorem onto_handles : (s.onto log).handles = s.handles := rfl

@[simp] theorem onto_has : (s.onto log).has = s.has := rfl

@[simp] theorem onto_orphans : (s.onto log).orphans = s.orphans := rfl

@[simp] theorem onto_errands : (s.onto log).errands = s.errands := rfl

/-! ## The site

These are the primitive changes of a stage: something happens to the engine, to the backend or to
the clock, and lines may be written. -/

@[simp] theorem write_onto (line : Option Line) :
    (s.onto log).write line = (s.write line).onto log := by
  cases line <;> rfl

@[simp] theorem hear_onto (n : Note) : hear n (s.onto log) = (hear n s).onto log := by
  simp only [hear, write_onto]
  cases n <;> rfl

@[simp] theorem settle_onto (site : Site) :
    (s.onto log).settle site = (s.settle site).onto log := by
  rw [settle, settle]
  induction site.journal with
  | nil => rfl
  | cons n l ih => rw [List.foldr_cons, ih, hear_onto, List.foldr_cons]

@[simp] theorem ask_onto (e : Event) : (s.onto log).ask e = (s.ask e).onto log := settle_onto ..

@[simp] theorem poll_onto (call : Id) :
    (s.onto log).poll call = Prod.map (onto log) id (s.poll call) := by
  rw [poll, poll]
  simp only [onto_site, settle_onto]
  split <;> rfl

@[simp] theorem letGo_onto : (s.onto log).letGo = s.letGo.onto log := by
  rw [letGo, letGo, ask_onto, onto_engine]
  exact (apply_ite (onto log) ..).symm

/-- One more thing is done. -/
def also {α : Type} (f : Stage → α → Stage × Bool) (x : Stage × Bool) (a : α) : Stage × Bool :=
  ((f x.1 a).1, x.2 || (f x.1 a).2)

theorem each_eq {α : Type} (xs : List α) (f : Stage → α → Stage × Bool) :
    s.each xs f = xs.foldl (also f) (s, false) := rfl

/-- One thing after another is done whatever stands in the log if each of them is. -/
theorem each_onto {α : Type} (xs : List α) {f : Stage → α → Stage × Bool}
    (hf : ∀ s x, f (s.onto log) x = Prod.map (onto log) id (f s x)) :
    (s.onto log).each xs f = Prod.map (onto log) id (s.each xs f) := by
  have hfold : ∀ moved, xs.foldl (also f) (s.onto log, moved)
      = Prod.map (onto log) id (xs.foldl (also f) (s, moved)) := by
    induction xs generalizing s with
    | nil => exact fun _ => rfl
    | cons x xs ih =>
      intro moved
      rw [List.foldl_cons, List.foldl_cons, also, hf]
      exact ih (f s x).1 _
  rw [each_eq, each_eq, hfold]

/-! ## The background

What is in the background has its turn in five rounds, each over a list of calls, workers or passes.
A round commutes with older lines in the log because what it does to each of them does. -/

@[simp] theorem runWorker_onto (w : Id) : (s.onto log).runWorker w = (s.runWorker w).onto log := by
  rw [runWorker, runWorker, onto_orphans, ask_onto]
  split
  · exact ask_onto log { s with orphans := s.orphans.filter (· ≠ w) } (.release w)
  · rfl

@[simp] theorem launch_onto (n : Id) (p : Principal) :
    (s.onto log).launch n p = Prod.map (onto log) id (s.launch n p) := by
  rw [launch, launch]
  simp only [onto_engine, ask_onto, poll_onto]
  split
  · split <;> rfl
  · rfl

@[simp] theorem launchAll_onto (n : Id) :
    (s.onto log).launchAll n = Prod.map (onto log) id (s.launchAll n) := by
  rw [launchAll, launchAll, onto_engine]
  split
  · exact each_onto log s _ fun s p => launch_onto log s n p
  · rfl

@[simp] theorem collectAll_onto (n : Id) :
    (s.onto log).collectAll n = Prod.map (onto log) id (s.collectAll n) := by
  rw [collectAll, collectAll, onto_engine]
  split
  · exact each_onto log s _ fun s p => by rw [ask_onto]; rfl
  · rfl

@[simp] theorem attend_onto (n : Id) :
    (s.onto log).attend n = Prod.map (onto log) id (s.attend n) := by
  rw [attend, attend, onto_engine, collectAll_onto]
  split
  · split
    · rfl
    · split <;> rfl
  · rfl

@[simp] theorem runErrand_onto (errand : Errand) :
    (s.onto log).runErrand errand = (s.runErrand errand).onto log := by
  cases errand with
  | run w => exact runWorker_onto log s w
  | launch n => rw [runErrand, launchAll_onto]; rfl
  | forget call => rfl

/-- The calls of passes are polled. -/
def pollCalls (s : Stage) : Stage × Bool := s.each s.passCalls poll

/-- The workers whose tick is due get to run. -/
def runTicks (s : Stage) : Stage × Bool :=
  s.each s.ticks fun s (w, due) => if due ≤ s.now then (s.runWorker w, true) else (s, false)

/-- What has come up is done. -/
def runErrands (s : Stage) : Stage := s.errands.foldl runErrand { s with errands := [] }

/-- The passes start what they may start, but for those that are new. -/
def launchRest (s : Stage) : Stage × Bool :=
  s.each s.engine.passes.keys fun s n =>
    if s.errands.contains (.launch n) then (s, false) else s.launchAll n

/-- The passes look at what has landed. -/
def attendAll (s : Stage) : Stage × Bool := s.each s.engine.passes.keys attend

theorem background_eq : s.background =
    let ticked := s.pollCalls.1.runTicks
    let launched := ticked.1.runErrands.launchRest
    let attended := launched.1.attendAll
    (attended.1, s.pollCalls.2 || ticked.2 || !ticked.1.errands.isEmpty || launched.2
      || attended.2) := rfl

@[simp] theorem pollCalls_onto :
    (s.onto log).pollCalls = Prod.map (onto log) id s.pollCalls :=
  each_onto log s s.passCalls (poll_onto log)

@[simp] theorem runTicks_onto : (s.onto log).runTicks = Prod.map (onto log) id s.runTicks := by
  refine each_onto log s s.ticks fun s x => ?_
  simp only [onto_now, runWorker_onto]
  split <;> rfl

@[simp] theorem runErrands_onto : (s.onto log).runErrands = s.runErrands.onto log := by
  have hfold : ∀ (errands : List Errand) (s : Stage),
      errands.foldl runErrand (s.onto log) = (errands.foldl runErrand s).onto log := by
    intro errands
    induction errands with
    | nil => exact fun _ => rfl
    | cons errand errands ih =>
      intro s
      rw [List.foldl_cons, runErrand_onto, ih, List.foldl_cons]
  exact hfold s.errands { s with errands := [] }

@[simp] theorem launchRest_onto :
    (s.onto log).launchRest = Prod.map (onto log) id s.launchRest := by
  refine each_onto log s s.engine.passes.keys fun s n => ?_
  simp only [onto_errands, launchAll_onto]
  split <;> rfl

@[simp] theorem attendAll_onto : (s.onto log).attendAll = Prod.map (onto log) id s.attendAll :=
  each_onto log s s.engine.passes.keys (attend_onto log)

/-- **The background does the same whatever stands in the log.** -/
@[simp] theorem background_onto :
    (s.onto log).background = Prod.map (onto log) id s.background := by
  simp only [background_eq, pollCalls_onto, runTicks_onto, runErrands_onto, launchRest_onto,
    attendAll_onto, onto_errands, Prod.map_fst, Prod.map_snd, Prod.map_apply, id_eq]

/-! ## Operations

An operation is begun, taken further each time that the stage looks at it, and concluded. -/

@[simp] theorem answer_onto (a : Answer) :
    (s.onto log).answer a = Prod.map (onto log) id (s.answer a) := rfl

@[simp] theorem call_onto (e : Event) :
    (s.onto log).call e = Prod.map (onto log) id (s.call e) := by
  rw [call, ask_onto]
  rfl

theorem beginCache_onto (op : CacheOp) :
    (s.onto log).beginCache op = Prod.map (onto log) id (s.beginCache op) := by
  cases op with
  | put p privileges => rw [beginCache, beginCache, ask_onto, answer_onto]
  | get p => rfl
  | hold name p =>
    rw [beginCache, beginCache, onto_engine]
    split <;> rfl
  | peek name => rfl
  | keys => rfl
  | length => rfl
  | clear => rw [beginCache, beginCache, ask_onto, answer_onto]

theorem beginBackend_onto (op : Store.Op) :
    (s.onto log).beginBackend op = Prod.map (onto log) id (s.beginBackend op) := by
  cases op <;> rfl

/-- **An operation begins in the same way whatever stands in the log.** -/
@[simp] theorem begin_onto (op : Op) :
    (s.onto log).begin op = Prod.map (onto log) id (s.begin op) := by
  unfold begin
  rw [onto_has]
  split
  · rfl
  · cases op with
    | enforce e p a => exact call_onto log s _
    | update p => exact call_onto log s _
    | iterate => exact call_onto log s _
    | invalidate =>
      dsimp only
      rw [ask_onto, answer_onto]
    | cached p => rfl
    | start scheduler => exact call_onto log s _
    | shutdown => exact call_onto log s _
    | drop => rfl
    | request e a r service =>
      dsimp only
      split
      · exact call_onto log s _
      · rfl
    | spawn handle period => exact call_onto log s _
    | running handle =>
      dsimp only
      rw [onto_handles, onto_engine]
      split <;> rfl
    | stop handle =>
      dsimp only
      rw [onto_handles]
      split
      · exact call_onto log { s with handles := s.handles.erase handle } _
      · rfl
    | release handle =>
      dsimp only
      rw [onto_handles]
      split <;> rfl
    | cache op => exact beginCache_onto log s op
    | backend op => exact beginBackend_onto log s op
    | script change => rfl
    | advance millis => rfl
    | malformed part fault => rfl

/-- What the engine tells is received in the same way whatever stands in the log. -/
@[simp] theorem conclude_onto (op : Op) (o : Outcome) :
    (s.onto log).conclude op o = Prod.map (onto log) id (s.conclude op o) := by
  unfold conclude
  split
  · rfl
  · rename_i r service o _
    rw [write_onto]
    dsimp only
    split <;> rfl
  · rename_i handle _ w
    rw [onto_handles]
    cases s.handles.get? handle <;> rfl
  all_goals rfl

@[simp] theorem drive_onto (c : Id) :
    (s.onto log).drive c = Prod.map (onto log) id (s.drive c) := by
  rw [drive, drive, onto_engine]
  split
  · split
    · exact poll_onto log s _
    · rfl
  · exact poll_onto log s _
  · exact collectAll_onto log s _
  · rfl
  · rfl

@[simp] theorem concludeProbe_onto (op : Op) (t : Ticket) :
    (s.onto log).concludeProbe op t = Prod.map (onto log) id (s.concludeProbe op t) := by
  unfold concludeProbe
  split <;> rfl

@[simp] theorem advance_onto (op : Op) (progress : Progress) :
    (s.onto log).advance op progress = Prod.map (onto log) id (s.advance op progress) := by
  cases progress with
  | asked c =>
    rw [advance, advance, drive_onto, Prod.map]
    dsimp only
    rw [onto_told]
    split
    · rename_i o _
      rw [show { (s.drive c).1.onto log with told := (s.drive c).1.told.erase c }
        = onto log { (s.drive c).1 with told := (s.drive c).1.told.erase c } from rfl,
        conclude_onto]
      rfl
    · rfl
  | probing t =>
    rw [advance, advance, onto_site, onto_now, concludeProbe_onto]
    split <;> rfl
  | sleeping till =>
    rw [advance, advance, onto_now]
    split <;> rfl
  | stalled exchange => rfl
  | waiting => rfl
  | done a => rfl

@[simp] theorem giveUp_onto (progress : Progress) :
    (s.onto log).giveUp progress = (s.giveUp progress).onto log := by
  cases progress with
  | asked c => exact ask_onto log s _
  | _ => rfl

/-! ## Tasks

Tasks are looked at by recursion along the step.  Where an operation is looked at, it is begun,
taken further or given up, and `pollOp` is taken apart here into these cases. -/

/-- What an operation comes to that has been taken further: it is given up when it is not done at
its limit. -/
def wrapUp (op : Op) (start : Nat) (limit : Option Nat) (begun : Bool) :
    Stage × Progress × Bool → Stage × Task × Bool
  | (s, .done answer, _) => (s.letGo, .ended answer s.now, true)
  | (s, progress, moved) =>
    if limit.any (· ≤ s.now) then ((s.giveUp progress).letGo, .ended .gaveUp s.now, true)
    else (s, .one op start limit progress, begun || moved)

/-- Nothing is done before an operation starts. -/
theorem pollOp_early {op : Op} {start : Nat} (h : s.now < start) (limit : Option Nat)
    (progress : Progress) :
    s.pollOp op start limit progress = (s, .one op start limit progress, false) := by
  unfold pollOp
  rw [if_pos h]

/-- An operation that waits is begun and taken further. -/
theorem pollOp_waiting {op : Op} {start : Nat} (h : ¬ s.now < start) (limit : Option Nat) :
    s.pollOp op start limit .waiting
      = wrapUp op start limit true ((s.begin op).1.advance op (s.begin op).2) := by
  unfold pollOp
  rw [if_neg h]
  dsimp only
  generalize (s.begin op).1.advance op (s.begin op).2 = x
  obtain ⟨s, progress, moved⟩ := x
  cases progress <;> rfl

/-- Any other is only taken further. -/
theorem pollOp_begun {op : Op} {start : Nat} (h : ¬ s.now < start) (limit : Option Nat)
    {progress : Progress} (hp : progress ≠ .waiting) :
    s.pollOp op start limit progress = wrapUp op start limit false (s.advance op progress) := by
  unfold pollOp
  rw [if_neg h]
  cases progress with
  | waiting => exact absurd rfl hp
  | _ =>
    dsimp only
    generalize s.advance op _ = x
    obtain ⟨s, progress, moved⟩ := x
    cases progress <;> rfl

mutual

@[simp] theorem giveUpTask_onto (log : List Line) (s : Stage) (t : Task) :
    (s.onto log).giveUpTask t = (s.giveUpTask t).onto log := by
  match t with
  | .one op start limit progress => rw [giveUpTask, giveUpTask, giveUp_onto, letGo_onto]
  | .together members start limit => exact giveUpTasks_onto log s members
  | .ended a time => rfl

@[simp] theorem giveUpTasks_onto (log : List Line) (s : Stage) (ts : List Task) :
    (s.onto log).giveUpTasks ts = (s.giveUpTasks ts).onto log := by
  match ts with
  | [] => rfl
  | t :: ts => rw [giveUpTasks, giveUpTask_onto, giveUpTasks_onto, giveUpTasks]

end

/-! ## Running

The loops that play a step, and a list of steps, repeat what is above. -/

@[simp] theorem onto_backgroundTimes : (s.onto log).backgroundTimes = s.backgroundTimes := rfl

@[simp] theorem onto_nextTime? : (s.onto log).nextTime? = s.nextTime? := rfl

@[simp] theorem moveTo_onto (time : Nat) : (s.onto log).moveTo time = (s.moveTo time).onto log :=
  ask_onto log s _

@[simp] theorem idle_onto (rounds till : Nat) :
    idle rounds (s.onto log) till = (idle rounds s till).onto log := by
  induction rounds generalizing s with
  | zero => rfl
  | succ rounds ih =>
    rw [idle, idle, background_onto]
    obtain ⟨s, stirred⟩ := s.background
    simp only [Prod.map_apply, id_eq, onto_now, onto_nextTime?, onto_backgroundTimes, moveTo_onto,
      ih]
    split
    · rfl
    · split <;> rfl

end

end Stage

end Gatekeeper.Scenario

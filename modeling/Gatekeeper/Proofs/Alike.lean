import Gatekeeper.Proofs.Marks
import Gatekeeper.Proofs.View

/-!
# Engines that look alike

What an engine does next depends on what its sets hold in one place only: where a caller is told
what the set says of a privilege.  Engines that look alike at the start therefore look alike ever
after.

* `Alike` — engines that look alike; beside it, what each part of a step makes of them.
* `step_alike` — engines that look alike go on to do so.
* `step_onto` — what has been noted before is of no account for what an engine does.

The proof follows the program, operation by operation, on both sides at once.  An operation that
does not look at sets keeps two engines alike for the same reason whatever the view is, so each
lemma is stated for any view; only at the ends of calls and at decisions does one have to say
what is to look alike.
-/

set_option autoImplicit false

namespace Gatekeeper.Engine

/-! ## Engines that look alike

A `View` says how much of a set is seen.  Two engines look alike if all that is not a set is the
same in both, and the sets are the same as far as they are seen.  The first lemmas say that every
basic operation of an engine, done on both sides, leaves them alike. -/

/-- Two engines look alike: they differ in what is in the cache, in what has landed with passes, and
in the journal, and what is seen of these is the same.  The journals are taken to go on at `j` and
`j'`, of which all is seen. -/
inductive Alike (v : View) (j j' : List Note) (s : State) : State → Prop
  | intro {C : Table Principal PrivilegeSet} {P : Table Id Pass} {J : List Note}
    (cache : s.cache.Alike v.set C) (passes : s.passes.Alike (fun _ => v.pass) P)
    (journal : s.journal.map v.note ++ j = J.map v.note ++ j') :
    Alike v j j' s { s with cache := C, passes := P, journal := J }

namespace Alike

variable {v : View} {j j' : List Note} {s s' : State}

/-- Something happens that has nothing to do with what looks alike only. -/
theorem frame (h : Alike v j j' s s') (f : State → State) (new : State → List Note)
    (hf : ∀ (s : State) C P J, f { s with cache := C, passes := P, journal := J }
      = { f s with cache := C, passes := P, journal := new s ++ J }) :
    Alike v j j' (f s) (f s') := by
  cases h with
  | @intro C P J hc hp hj =>
    have hs : f s = { f s with
        cache := s.cache, passes := s.passes, journal := new s ++ s.journal } :=
      hf s s.cache s.passes s.journal
    rw [hf s C P J]
    refine .intro ?_ ?_ ?_
    · rw [hs]
      exact hc
    · rw [hs]
      exact hp
    · rw [hs, List.map_append, List.map_append, List.append_assoc, hj, List.append_assoc]

/-- Something is noted on both sides that looks alike. -/
theorem note (h : Alike v j j' s s') {n n' : Note} (hn : v.note n = v.note n') :
    Alike v j j' (s.note n) (s'.note n') := by
  obtain ⟨hc, hp, hj⟩ := h
  refine .intro hc hp ?_
  simp only [State.note, List.map_cons, List.cons_append, hj, hn]

theorem enter (h : Alike v j j' s s') (r : Request) : Alike v j j' (s.enter r) (s'.enter r) :=
  h.frame (·.enter r) (fun s => [.called s.next r]) fun _ _ _ _ => rfl

theorem wait (h : Alike v j j' s s') (c : Id) (w : Waiting) :
    Alike v j j' (s.wait c w) (s'.wait c w) :=
  h.frame (·.wait c w) (fun _ => []) fun _ _ _ _ => rfl

theorem finish (h : Alike v j j' s s') (c : Id) {o o' : Outcome} (ho : v.told o = v.told o') :
    Alike v j j' (s.finish c o) (s'.finish c o') := by
  have hleft : Alike v j j' { s with callers := s.callers.erase c }
      { s' with callers := s'.callers.erase c } :=
    h.frame (fun s => { s with callers := s.callers.erase c }) (fun _ => []) fun _ _ _ _ => rfl
  exact hleft.note (by rw [View.note, View.note, ho])

theorem store (h : Alike v j j' s s') {p : Principal} {S S' : PrivilegeSet}
    (hS : v.set p S = v.set p S') (o : Origin) :
    Alike v j j' (s.store p S o) (s'.store p S' o) := by
  obtain ⟨hc, hp, hj⟩ := h
  have hput : Alike v j j' { s with cache := s.cache.put p S }
      { s with cache := Table.put _ p S', passes := _, journal := _ } := .intro (hc.put hS) hp hj
  exact hput.note (by rw [View.note, View.note, hS])

theorem startCall (h : Alike v j j' s s') (p : Principal) (q : Question) (o : Owner) :
    Alike v j j' (s.startCall p q o) (s'.startCall p q o) :=
  h.frame (·.startCall p q o) (fun s => [.began s.next p q o]) fun _ _ _ _ => rfl

theorem startOwnCall (h : Alike v j j' s s') (c : Id) (p : Principal) (q : Question) (o : Owner) :
    Alike v j j' (s.startOwnCall c p q o) (s'.startOwnCall c p q o) :=
  h.frame (·.startOwnCall c p q o) (fun s => [.began s.next p q o, .joined c s.next])
    fun _ _ _ _ => rfl

theorem endCall (h : Alike v j j' s s') (id : Id) {p : Principal} {ending ending' : Ending}
    (he : v.ending p ending = v.ending p ending') :
    Alike v j j' (s.endCall id p ending) (s'.endCall id p ending') := by
  have hleft : Alike v j j' { s with calls := s.calls.erase id }
      { s' with calls := s'.calls.erase id } :=
    h.frame (fun s => { s with calls := s.calls.erase id }) (fun _ => []) fun _ _ _ _ => rfl
  exact hleft.note (by rw [View.note, View.note, he])

theorem dropCall (h : Alike v j j' s s') (id : Id) :
    Alike v j j' (s.dropCall id) (s'.dropCall id) := by
  cases hid : s.calls.get? id with
  | none =>
    have hid' : s'.calls.get? id = none := by cases h; exact hid
    rwa [State.dropCall, State.dropCall, hid, hid']
  | some call =>
    have hid' : s'.calls.get? id = some call := by cases h; exact hid
    rw [State.dropCall_eq hid, State.dropCall_eq hid']
    exact h.frame (fun s => { s with calls := s.calls.erase id }.note (.dropped id call.owner))
      (fun _ => [.dropped id call.owner]) fun _ _ _ _ => rfl

theorem setPhase (h : Alike v j j' s s') (w : Id) (phase : Phase) :
    Alike v j j' (s.setPhase w phase) (s'.setPhase w phase) :=
  h.frame (·.setPhase w phase) (fun _ => []) fun _ _ _ _ => rfl

theorem endWorker (h : Alike v j j' s s') (w : Id) :
    Alike v j j' (s.endWorker w) (s'.endWorker w) :=
  h.frame (·.endWorker w)
    (fun s => ((s.workerWaiters w).map fun c => Note.returned c .stopped).reverse) fun s C P J => by
      dsimp only
      rw [State.endWorker, State.endWorker, State.finishAll_eq, State.finishAll_eq]
      rfl

theorem crashWorker (h : Alike v j j' s s') (w : Id) :
    Alike v j j' (s.crashWorker w) (s'.crashWorker w) :=
  h.frame (·.crashWorker w) (fun s => ((s.workerWaiters w).map fun c =>
      Note.returned c .stopped).reverse ++ (s.workerWaiters w).map fun _ => Note.syncCrashed w)
      fun s C P J => by
    dsimp only
    rw [State.crashWorker_eq, State.crashWorker_eq]
    simp only [List.append_assoc]
    rfl

/-! ### Passes

A pass keeps lists that have landed and that it has not looked at, so passes that look alike need
not be the same.  But they have the same queue, the same calls, and as many results about the
same principals, and that is all that decides how a pass goes on. -/

/-- The pass is there on both sides, and looks alike. -/
theorem pass_of_get? (h : Alike v j j' s s') {n : Id} {pass : Pass}
    (hp : s.passes.get? n = some pass) :
    ∃ pass', s'.passes.get? n = some pass' ∧ v.pass pass = v.pass pass' := by
  obtain ⟨-, hpasses, -⟩ := h
  exact hpasses.of_get? hp

theorem pass_of_get?_none (h : Alike v j j' s s') {n : Id} (hp : s.passes.get? n = none) :
    s'.passes.get? n = none := by
  obtain ⟨-, hpasses, -⟩ := h
  exact hpasses.of_get?_none hp

theorem putPass (h : Alike v j j' s s') (n : Id) (pass : Pass) {pass' : Pass}
    (hp : v.pass pass = v.pass pass') : Alike v j j' { s with passes := s.passes.put n pass }
      { s' with passes := s'.passes.put n pass' } := by
  obtain ⟨hc, hpasses, hj⟩ := h
  exact .intro hc (hpasses.put hp) hj

theorem erasePass (h : Alike v j j' s s') (n : Id) :
    Alike v j j' { s with passes := s.passes.erase n } { s' with passes := s'.passes.erase n } := by
  obtain ⟨hc, hpasses, hj⟩ := h
  exact .intro hc (hpasses.erase n) hj

theorem dropPass (h : Alike v j j' s s') (n : Id) :
    Alike v j j' (s.dropPass n) (s'.dropPass n) := by
  have hdrop : ∀ s : State, s.dropPass n = { s with
      calls := s.calls.filter fun _ call => decide (call.owner ≠ .pass n)
      passes := s.passes.erase n
      journal := ((s.passCalls n).map fun id => Note.dropped id (.pass n)).reverse ++ s.journal } :=
    fun s => s.dropPass_eq n
  rw [hdrop, hdrop]
  exact (h.frame (fun s => { s with
      calls := s.calls.filter fun _ call => decide (call.owner ≠ .pass n)
      journal := ((s.passCalls n).map fun id => Note.dropped id (.pass n)).reverse ++ s.journal })
    (fun s => ((s.passCalls n).map fun id => Note.dropped id (.pass n)).reverse)
    fun _ _ _ _ => rfl).erasePass n

theorem reportPass (h : Alike v j j' s s') (d : Driver) (r : Report) :
    Alike v j j' (s.reportPass d r) (s'.reportPass d r) := by
  cases d with
  | caller c => exact h.finish c rfl
  | worker w => exact h.setPhase w .idle

theorem beginPass (h : Alike v j j' s s') (d : Driver) :
    Alike v j j' (s.beginPass d) (s'.beginPass d) := by
  have hkeys : s'.cache.keys = s.cache.keys := by
    obtain ⟨hc, -, -⟩ := h
    exact hc.keys.symm
  have hdraw : Alike v j j' s.draw s'.draw := by
    obtain ⟨hc, hp, hj⟩ := h
    refine .intro hc hp ?_
    simp only [State.draw, State.note, List.map_cons, List.cons_append, hj, View.note, hc.size]
  have hsame : s'.settings = s.settings ∧ s'.parallelism = s.parallelism ∧ s'.next = s.next := by
    obtain ⟨-, -, -⟩ := h
    exact ⟨rfl, rfl, rfl⟩
  cases ha : s.settings.cachingActive with
  | false =>
    rw [State.beginPass, State.beginPass, hsame.1, ha]
    exact h.reportPass d {}
  | true =>
    have ha' : s'.settings.cachingActive = true := by rw [hsame.1, ha]
    by_cases hlt : State.maxParallelism < s.parallelism
    · rw [State.beginPass_crash ha hlt, State.beginPass_crash ha' (hsame.2.1 ▸ hlt)]
      cases d with
      | caller c => exact hdraw.finish c rfl
      | worker w => exact hdraw.crashWorker w
    · by_cases hk : s.cache.keys = []
      · rw [State.beginPass_over ha hlt hk,
          State.beginPass_over ha' (hsame.2.1 ▸ hlt) (hkeys.trans hk), hsame.2.2]
        exact (hdraw.note rfl).reportPass d {}
      · rw [State.beginPass_opens ha hlt hk,
          State.beginPass_opens ha' (hsame.2.1 ▸ hlt) (hkeys ▸ hk), hsame.2.2]
        have hopen : Alike v j j' (s.openPass d) (s'.openPass d) := by
          have hput := hdraw.putPass s.next ⟨d, s.cache.keys, [], [], {}⟩ rfl
          have heq : s'.openPass d = { s'.draw with
              passes := s'.draw.passes.put s.next ⟨d, s.cache.keys, [], [], {}⟩ } := by
            rw [← hkeys, ← hsame.2.2]
            rfl
          rw [heq]
          exact hput
        cases d with
        | caller c => exact hopen.wait c _
        | worker w => exact hopen.setPhase w _

/-! ### The ends of calls

The end of a call brings a list into the engine, and the two sides may be given different ones.
What is asked for is that they look alike, and then so does everything that is made of them:
entries, results that land, and what callers are told. -/

theorem answerFetch (h : Alike v j j' s s') (p : Principal) {o o' : Entity → Action → Outcome}
    (ho : ∀ e a, v.told (o e a) = v.told (o' e a)) :
    Alike v j j' (s.answerFetch p o) (s'.answerFetch p o') := by
  rw [State.answerFetch_eq, State.answerFetch_eq]
  cases h with
  | @intro C P J hc hp hj =>
    refine .intro hc hp ?_
    have hnotes : ((s.fetchWaiters p).map fun x => Note.returned x.1 (o x.2.1 x.2.2)).map v.note
        = ((s.fetchWaiters p).map fun x => Note.returned x.1 (o' x.2.1 x.2.2)).map v.note := by
      rw [List.map_map, List.map_map]
      refine List.map_congr_left fun x _ => ?_
      rw [Function.comp_apply, Function.comp_apply, View.note, View.note, ho]
    rw [List.map_append, List.map_append, List.append_assoc, hj, List.append_assoc,
      List.map_reverse, hnotes, List.map_reverse]
    rfl

theorem putFetches (h : Alike v j j' s s') (f : Table Principal Fetch → Table Principal Fetch) :
    Alike v j j' { s with fetches := f s.fetches } { s' with fetches := f s'.fetches } :=
  h.frame (fun s => { s with fetches := f s.fetches }) (fun _ => []) fun _ _ _ _ => rfl

theorem settleFetch (h : Alike v j j' s s') (id : Id) (p : Principal)
    {r r' : Reply PrivilegeSet} (hr : v.reply p r = v.reply p r') :
    Alike v j j' (s.settleFetch id p r) (s'.settleFetch id p r') := by
  rcases View.reply_cases hr with ⟨S, S', rfl, rfl, hS⟩ | ⟨rfl, hne⟩
  · exact ((h.store hS _).putFetches (·.erase p)).answerFetch p fun e a => View.told_answer hr e a
  · cases r with
    | value S => exact absurd rfl (hne S)
    | failed cause =>
      exact (h.putFetches (·.erase p)).answerFetch p fun e a => View.told_answer hr e a
    | crashed =>
      exact (h.putFetches (·.put p .broken)).answerFetch p fun e a => View.told_answer hr e a

theorem settleUpdate (h : Alike v j j' s s') (id c : Id) (p : Principal)
    {r r' : Reply PrivilegeSet} (hr : v.reply p r = v.reply p r') :
    Alike v j j' (s.settleUpdate id c p r) (s'.settleUpdate id c p r') := by
  rcases View.reply_cases hr with ⟨S, S', rfl, rfl, hS⟩ | ⟨rfl, hne⟩
  · exact (h.store hS _).finish c rfl
  · cases r with
    | value S => exact absurd rfl (hne S)
    | failed cause => exact h.finish c rfl
    | crashed => exact h.finish c rfl

theorem land (h : Alike v j j' s s') (n : Id) {l l' : Landing} (hl : v.landing l = v.landing l') :
    Alike v j j' (s.land n l) (s'.land n l') := by
  cases hp : s.passes.get? n with
  | none =>
    have hp' := h.pass_of_get?_none hp
    rwa [State.land, Table.update, hp, State.land, Table.update, hp']
  | some pass =>
    obtain ⟨pass', hp', he⟩ := h.pass_of_get? hp
    rw [State.land_eq hp, State.land_eq hp']
    refine h.putPass n _ ?_
    obtain ⟨hd, hq, hf, hlanded, hr⟩ := View.pass_eq_iff.mp he
    have hprincipal := (View.landing_eq_iff.mp hl).1
    rw [View.pass_eq_iff]
    exact ⟨hd, hq, by simp only [Pass.land, hf, hprincipal], by simp [Pass.land, hlanded, hl], hr⟩

/-- The end of a call is handed to its owner. -/
theorem settle (h : Alike v j j' s s') (id : Id) (call : Call) {r r' : Reply PrivilegeSet}
    (hr : v.reply call.principal r = v.reply call.principal r') :
    Alike v j j' (s.settle id call r) (s'.settle id call r') := by
  rw [State.settle, State.settle]
  split
  · exact h.settleFetch id call.principal hr
  · exact h.settleUpdate id _ call.principal hr
  · rename_i c e a _
    rw [State.settleDirect_eq, State.settleDirect_eq, verdict_map_mem, verdict_map_mem]
    exact h.finish c (View.told_answer hr e a)
  · exact h.land _ (View.landing_eq_iff.mpr ⟨rfl, rfl, hr⟩)

/-- What is the same in engines that look alike. -/
theorem same (h : Alike v j j' s s') :
    s' = { s with cache := s'.cache, passes := s'.passes, journal := s'.journal } := by
  obtain ⟨-, -, -⟩ := h
  rfl

theorem calls (h : Alike v j j' s s') : s'.calls = s.calls := by rw [h.same]

theorem cached (h : Alike v j j' s s') : s.cache.keys = s'.cache.keys := by
  obtain ⟨hc, -, -⟩ := h
  exact hc.keys

theorem passKeys (h : Alike v j j' s s') : s.passes.keys = s'.passes.keys := by
  obtain ⟨-, hp, -⟩ := h
  exact hp.keys

theorem now (h : Alike v j j' s s') : s'.now = s.now := by rw [h.same]

theorem attended (h : Alike v j j' s s') (call : Call) : s'.attended call = s.attended call := by
  rw [h.same]
  rfl

theorem answer (h : Alike v j j' s s') (id : Id) {r r' : Reply PrivilegeSet}
    (hr : ∀ call, s.calls.get? id = some call →
      v.reply call.principal r = v.reply call.principal r') :
    Alike v j j' (s.answer id r) (s'.answer id r') := by
  rw [State.answer, State.answer, h.calls]
  cases hid : s.calls.get? id with
  | none => exact h
  | some call =>
    dsimp only
    rw [h.attended]
    split
    · have hending : v.ending call.principal (.listed r)
          = v.ending call.principal (.listed r') := by
        rw [View.ending, View.ending, hr call hid]
      exact (h.endCall id hending).settle id call (hr call hid)
    · exact h

theorem verdict (h : Alike v j j' s s') (id : Id) {r r' : Reply Bool}
    (hr : ∀ call c e a, s.calls.get? id = some call → call.owner = .direct c e a →
      v.verdict call.principal ⟨e, a⟩ r = v.verdict call.principal ⟨e, a⟩ r'
        ∧ v.ending call.principal (.checked r) = v.ending call.principal (.checked r')) :
    Alike v j j' (s.verdict id r) (s'.verdict id r') := by
  rw [State.verdict, State.verdict, h.calls]
  cases hid : s.calls.get? id with
  | none => exact h
  | some call =>
    dsimp only
    split
    · rename_i c e a _ _ ho _
      obtain ⟨hverdict, hending⟩ := hr call c e a hid ho
      rw [State.settleDirect_eq, State.settleDirect_eq]
      exact (h.endCall id hending).finish c (View.told_verdict hverdict)
    · exact h

theorem expire (h : Alike v j j' s s') (id : Id) : Alike v j j' (s.expire id) (s'.expire id) := by
  have hnow : s'.now = s.now ∧ s'.settings = s.settings := by
    rw [h.same]
    exact ⟨rfl, rfl⟩
  rw [State.expire, State.expire, h.calls]
  cases hid : s.calls.get? id with
  | none => exact h
  | some call =>
    dsimp only
    rw [h.attended, hnow.1, hnow.2]
    split
    · exact (h.endCall id rfl).settle id call rfl
    · exact h

/-! ### Requests

Nobody who asks for something brings a set along, so these operations are the same on both sides.
Only where a decision is taken on an entry does it matter that the sides see the same of it. -/

theorem joinFetch (h : Alike v j j' s s') (c : Id) (e : Entity) (p : Principal) (a : Action) :
    Alike v j j' (s.joinFetch c e p a) (s'.joinFetch c e p a) := by
  have hfetches : (s'.note (.missed c p)).fetches = (s.note (.missed c p)).fetches := by
    rw [h.same]
    rfl
  have hnext : (s'.note (.missed c p)).next = (s.note (.missed c p)).next := by
    rw [h.same]
    rfl
  have hmissed : Alike v j j' (s.note (.missed c p)) (s'.note (.missed c p)) := h.note rfl
  rw [State.joinFetch, State.joinFetch]
  dsimp only
  rw [hfetches, hnext]
  split
  · exact hmissed.finish c rfl
  · exact (hmissed.wait c _).note rfl
  · exact (((hmissed.wait c _).startCall p .listing .fetch).putFetches (·.put p _)).note rfl

theorem enforce (h : Alike v j j' s s') (e : Entity) (p : Principal) (a : Action) :
    Alike v j j' (s.enforce e p a) (s'.enforce e p a) := by
  have hentered := h.enter (.enforce e p a)
  have hsame : s'.next = s.next ∧ (s'.enter (.enforce e p a)).settings
      = (s.enter (.enforce e p a)).settings ∧ (s'.enter (.enforce e p a)).checks
      = (s.enter (.enforce e p a)).checks := by
    rw [h.same]
    exact ⟨rfl, rfl, rfl⟩
  rw [State.enforce, State.enforce]
  rw [hsame.1, hsame.2.1, hsame.2.2]
  split
  · exact hentered.finish _ rfl
  · split
    · exact hentered.startOwnCall ..
    · have hcache : ((s.enter (.enforce e p a)).cache).Alike v.set
          (s'.enter (.enforce e p a)).cache := by
        obtain ⟨hc, -, -⟩ := h
        exact hc
      split
      · rename_i S hS
        obtain ⟨S', hS', he⟩ := hcache.of_get? hS
        rw [hS']
        exact hentered.finish _ (by rw [← View.told_decision S, he, View.told_decision])
      · rename_i hnone
        rw [hcache.of_get?_none hnone]
        dsimp only
        split
        · exact hentered.joinFetch ..
        · exact hentered.finish _ rfl

theorem update (h : Alike v j j' s s') (p : Principal) :
    Alike v j j' (s.update p) (s'.update p) := by
  have hentered := h.enter (.update p)
  have hsame : s'.next = s.next
      ∧ (s'.enter (.update p)).settings = (s.enter (.update p)).settings := by
    rw [h.same]
    exact ⟨rfl, rfl⟩
  rw [State.update, State.update]
  rw [hsame.1, hsame.2]
  split
  · exact hentered.startOwnCall ..
  · exact hentered.finish _ rfl

theorem addWorker (h : Alike v j j' s s') (period : Span) :
    Alike v j j' (s.addWorker period) (s'.addWorker period) :=
  h.frame (·.addWorker period) (fun s => [.syncSpawned s.next]) fun _ _ _ _ => rfl

theorem startFor (h : Alike v j j' s s') (c : Id) (scheduler : Bool) :
    Alike v j j' (s.startFor c scheduler) (s'.startFor c scheduler) := by
  have hsame : s'.settings = s.settings ∧ s'.lifecycle = s.lifecycle := by
    rw [h.same]
    exact ⟨rfl, rfl⟩
  have hnext : (s'.note (.syncStarting s.settings.refreshInterval)).next
      = (s.note (.syncStarting s.settings.refreshInterval)).next := by
    rw [h.same]
    rfl
  have hstarting := h.note (n := .syncStarting s.settings.refreshInterval) rfl
  have hset : (s'.note (.syncStarting s.settings.refreshInterval)).settings
      = (s.note (.syncStarting s.settings.refreshInterval)).settings := hsame.1
  rw [State.startFor, State.startFor, hsame.1, hsame.2]
  split
  · exact h.finish c rfl
  · split
    · exact h.finish c rfl
    · exact h.finish c rfl
    · split
      · exact h.finish c rfl
      · dsimp only
        rw [hset, hnext]
        split
        · exact hstarting.finish c rfl
        · exact ((hstarting.addWorker _).frame
            (fun u => { u with lifecycle := .running (s.note (.syncStarting _)).next })
            (fun _ => []) fun _ _ _ _ => rfl).finish c rfl

theorem start (h : Alike v j j' s s') (scheduler : Bool) :
    Alike v j j' (s.start scheduler) (s'.start scheduler) := by
  have hsame : s'.settings = s.settings ∧ s'.next = s.next := by
    rw [h.same]
    exact ⟨rfl, rfl⟩
  rw [State.start_eq, State.start_eq, hsame.1, hsame.2]
  split
  · exact ((h.enter .start).note rfl).startFor _ scheduler
  · exact (h.enter .start).startFor _ scheduler

theorem workers (h : Alike v j j' s s') : s'.workers = s.workers := by rw [h.same]

theorem putWorkers (h : Alike v j j' s s') (f : Table Id Worker → Table Id Worker) :
    Alike v j j' { s with workers := f s.workers } { s' with workers := f s'.workers } :=
  h.frame (fun s => { s with workers := f s.workers }) (fun _ => []) fun _ _ _ _ => rfl

theorem stopWorker (h : Alike v j j' s s') (c w : Id) :
    Alike v j j' (s.stopWorker c w) (s'.stopWorker c w) := by
  rw [State.stopWorker, State.stopWorker, h.workers]
  split
  · exact h.finish c rfl
  · split
    · exact h.finish c rfl
    · exact (h.note rfl).finish c rfl
    · rename_i k _ _ _ _
      have hput := (h.putWorkers (·.put w { k with stopping := true })).wait c (.worker w)
      rw [h.workers] at hput
      exact hput

theorem abortWorker (h : Alike v j j' s s') (w : Id) :
    Alike v j j' (s.abortWorker w) (s'.abortWorker w) := by
  rw [State.abortWorker, State.abortWorker, h.workers]
  split
  · exact h
  · split
    · exact h
    · exact h
    · exact (h.dropPass _).endWorker w
    · exact h.endWorker w

theorem shutdown (h : Alike v j j' s s') : Alike v j j' s.shutdown s'.shutdown := by
  have hsame : (s'.enter .shutdown).lifecycle = (s.enter .shutdown).lifecycle
      ∧ s'.next = s.next := by
    rw [h.same]
    exact ⟨rfl, rfl⟩
  have hstopped : Alike v j j' { s.enter .shutdown with lifecycle := .stopped }
      { s'.enter .shutdown with lifecycle := .stopped } :=
    (h.enter .shutdown).frame (fun s => { s with lifecycle := .stopped }) (fun _ => [])
      fun _ _ _ _ => rfl
  rw [State.shutdown, State.shutdown]
  rw [hsame.1, hsame.2]
  split
  · exact (hstopped.note rfl).stopWorker _ _
  · exact hstopped.finish _ rfl

theorem drop (h : Alike v j j' s s') : Alike v j j' s.drop s'.drop := by
  have hlife : s'.lifecycle = s.lifecycle := by rw [h.same]
  have hgone : Alike v j j' { s with dropped := true } { s' with dropped := true } :=
    h.frame (fun s => { s with dropped := true }) (fun _ => []) fun _ _ _ _ => rfl
  by_cases hl : ∃ w, s.lifecycle = .running w
  · obtain ⟨w, hl⟩ := hl
    rw [State.drop_of_running hl, State.drop_of_running (hlife.trans hl)]
    exact hgone.abortWorker w
  · have hne : ∀ w, s.lifecycle ≠ .running w := not_exists.mp hl
    rw [State.drop_of_not_running hne, State.drop_of_not_running (hlife ▸ hne)]
    exact hgone

theorem spawn (h : Alike v j j' s s') (period : Span) :
    Alike v j j' (s.spawn period) (s'.spawn period) := by
  have hnext : s'.next = s.next
      ∧ (s'.enter (.spawn period)).next = (s.enter (.spawn period)).next := by
    rw [h.same]
    exact ⟨rfl, rfl⟩
  rw [State.spawn, State.spawn]
  rw [hnext.1, hnext.2]
  split
  · exact (h.enter _).finish _ rfl
  · exact ((h.enter _).addWorker period).finish _ rfl

theorem cancel (h : Alike v j j' s s') (c : Id) : Alike v j j' (s.cancel c) (s'.cancel c) := by
  have hcallers : s'.callers = s.callers := by rw [h.same]
  have hleave : Alike v j j' (s.leave c) (s'.leave c) :=
    h.frame (·.leave c) (fun _ => [.cancelled c]) fun _ _ _ _ => rfl
  rw [State.cancel, State.cancel, hcallers]
  cases hc : s.callers.get? c with
  | none => exact h
  | some w =>
    rw [State.leave, State.leave, hcallers] at hleave
    cases w with
    | call id => exact hleave.dropCall id
    | pass n => exact hleave.dropPass n
    | fetch => exact hleave
    | worker => exact hleave

theorem clear (h : Alike v j j' s s') : Alike v j j' { s with cache := .empty }
    { s' with cache := .empty } := by
  obtain ⟨-, hp, hj⟩ := h
  exact .intro (.refl _ _) hp hj

theorem invalidate (h : Alike v j j' s s') : Alike v j j' s.invalidate s'.invalidate := by
  have hsize : s'.cache.size = s.cache.size := by
    obtain ⟨hc, -, -⟩ := h
    exact hc.size.symm
  rw [State.invalidate, State.invalidate, hsize]
  exact h.clear.note rfl

/-! ### Passes and workers go on

A pass that looks at a result has to find the same one on both sides, and to come to its end on
both sides or on neither.  Workers are the same on both sides, and so is what they do. -/

theorem launch (h : Alike v j j' s s') (n : Id) (p : Principal) :
    Alike v j j' (s.launch n p) (s'.launch n p) := by
  have hlimit : s'.parallelism = s.parallelism := by
    rw [h.same]
    rfl
  cases hp : s.passes.get? n with
  | none =>
    have hp' := h.pass_of_get?_none hp
    rwa [State.launch, hp, State.launch, hp']
  | some pass =>
    obtain ⟨pass', hp', he⟩ := h.pass_of_get? hp
    obtain ⟨hd, hq, hf, hl, hr⟩ := View.pass_eq_iff.mp he
    rw [State.launch, hp, State.launch, hp']
    dsimp only
    rw [← hq, ← hf, hlimit]
    split
    · refine (h.putPass n _ ?_).startCall p .listing (.pass n)
      rw [View.pass_eq_iff]
      exact ⟨hd, rfl, rfl, hl, hr⟩
    · exact h

/-- Passes that look alike have found alike results for the principal. -/
theorem landed_of_find? {pass pass' : Pass} (he : v.pass pass = v.pass pass') (p : Principal) :
    (pass.landed.find? (·.principal == p)).map v.landing
      = (pass'.landed.find? (·.principal == p)).map v.landing := by
  have hfind : ∀ l : List Landing, (l.find? (·.principal == p)).map v.landing
      = (l.map v.landing).find? (·.principal == p) := by
    intro l
    rw [List.find?_map]
    rfl
  rw [hfind, hfind, (View.pass_eq_iff.mp he).2.2.2.1]

/-- The first result for a principal is taken away with all others before it left in place. -/
theorem erase_of_find? {l : List Landing} {x : Landing} {f : Landing → Bool}
    (h : l.find? f = some x) : l.erase x = l.eraseP f := by
  induction l with
  | nil => rfl
  | cons y l ih =>
    cases hy : f y with
    | true =>
      rw [List.find?_cons_of_pos hy, Option.some_inj] at h
      rw [h, List.erase_cons_head, List.eraseP_cons_of_pos (h ▸ hy)]
    | false =>
      rw [List.find?_cons_of_neg (by simp [hy])] at h
      have hne : y ≠ x := by
        rintro rfl
        simp [List.find?_some h] at hy
      rw [List.erase_cons_tail (by simpa using hne), List.eraseP_cons_of_neg (by simp [hy]), ih h]

theorem pass_look {pass pass' : Pass} {l l' : Landing} {p : Principal}
    (he : v.pass pass = v.pass pass') (hl : v.landing l = v.landing l')
    (hf : pass.landed.find? (·.principal == p) = some l)
    (hf' : pass'.landed.find? (·.principal == p) = some l') :
    v.pass (pass.look l) = v.pass (pass'.look l') := by
  obtain ⟨hd, hq, hfly, hlanded, hr⟩ := View.pass_eq_iff.mp he
  have herase : ∀ l : List Landing, (l.eraseP (·.principal == p)).map v.landing
      = (l.map v.landing).eraseP (·.principal == p) := by
    intro l
    rw [List.eraseP_map]
    rfl
  have hcount : pass.report.count l.reply = pass'.report.count l'.reply := by
    rw [hr]
    rcases View.reply_cases (View.landing_eq_iff.mp hl).2.2 with ⟨S, S', hS, hS', -⟩ | ⟨h, -⟩
    · rw [hS, hS']
      rfl
    · rw [h]
  rw [View.pass_eq_iff, Pass.look, Pass.look, erase_of_find? hf, erase_of_find? hf', herase, herase,
    hlanded]
  exact ⟨hd, hq, hfly, rfl, hcount⟩

theorem complete_eq {pass pass' : Pass} (he : v.pass pass = v.pass pass') :
    pass.complete = pass'.complete := by
  obtain ⟨-, hq, hf, hl, -⟩ := View.pass_eq_iff.mp he
  have hempty : pass.landed.isEmpty = pass'.landed.isEmpty := by
    rw [← List.isEmpty_map (f := v.landing), hl, List.isEmpty_map]
  rw [Pass.complete, Pass.complete, hq, hf, hempty]

theorem digest (h : Alike v j j' s s') (n : Id) {l l' : Landing} (hl : v.landing l = v.landing l') :
    Alike v j j' (s.digest n l) (s'.digest n l') := by
  obtain ⟨p, id, r⟩ := l
  obtain ⟨p', id', r'⟩ := l'
  obtain ⟨hp, hid, hr⟩ := View.landing_eq_iff.mp hl
  dsimp only at hp hid hr
  subst hp hid
  rcases View.reply_cases hr with ⟨S, S', rfl, rfl, hS⟩ | ⟨rfl, hne⟩
  · exact h.store hS _
  · cases r with
    | value S => exact absurd rfl (hne S)
    | failed cause => exact h.note rfl
    | crashed => exact h.note rfl

theorem collect (h : Alike v j j' s s') (n : Id) (p : Principal) :
    Alike v j j' (s.collect n p) (s'.collect n p) := by
  cases hp : s.passes.get? n with
  | none =>
    have hp' := h.pass_of_get?_none hp
    rwa [State.collect, hp, State.collect, hp']
  | some pass =>
    obtain ⟨pass', hp', he⟩ := h.pass_of_get? hp
    have hdriver := (View.pass_eq_iff.mp he).1
    have hhalted : s'.halted pass' = s.halted pass := by
      rw [State.halted, State.halted, ← hdriver, h.workers]
    have hfind := landed_of_find? he p
    cases hh : s.halted pass with
    | true => simpa [State.collect, hp, hp', hh, hhalted] using h
    | false =>
      cases hl : pass.landed.find? (·.principal == p) with
      | none =>
        rw [hl, Option.map_none, eq_comm, Option.map_eq_none_iff] at hfind
        simpa [State.collect, hp, hp', hh, hhalted, hl, hfind] using h
      | some l =>
        rw [hl, Option.map_some, eq_comm, Option.map_eq_some_iff] at hfind
        obtain ⟨l', hl', hlanding⟩ := hfind
        have hlook := pass_look he hlanding.symm hl hl'
        have hdigest := h.digest n hlanding.symm
        rw [State.collect_eq hp hh hl, State.collect_eq hp' (hhalted.trans hh) hl',
          ← complete_eq hlook, ← hdriver, ← (View.pass_eq_iff.mp hlook).2.2.2.2]
        split
        · exact ((hdigest.erasePass n).note rfl).reportPass _ _
        · exact hdigest.putPass n _ hlook

theorem takeTick (h : Alike v j j' s s') (w : Id) (k : Worker) (due : Nat) :
    Alike v j j' (s.takeTick w k due) (s'.takeTick w k due) := by
  have hnow : s'.nowNanos = s.nowNanos := by
    rw [h.same]
    rfl
  rw [State.takeTick, State.takeTick, hnow]
  exact (h.putWorkers (·.put w _)).beginPass (.worker w)

theorem wake (h : Alike v j j' s s') (w : Id) : Alike v j j' (s.wake w) (s'.wake w) := by
  have hnow : s'.nowNanos = s.nowNanos := by
    rw [h.same]
    rfl
  rw [State.wake, State.wake, h.workers, hnow]
  split
  · exact h
  · split
    · split
      · exact (h.note rfl).endWorker w
      · exact h.takeTick ..
    · split
      · exact (h.note rfl).endWorker w
      · split
        · exact h.takeTick ..
        · exact h
    · split
      · exact (((h.note rfl).dropPass _).note rfl).endWorker w
      · exact h
    · exact h
    · exact h

end Alike

/-! ## Steps

The events may differ in one way, in what a call comes back with.  All operations are put
together into one statement about steps. -/

/-- Two events are the same, or the same call ends in ways that look alike. -/
inductive Event.Alike (v : View) (s : State) : Event → Event → Prop
  | same (ev : Event) : Event.Alike v s ev ev
  | answer {id : Id} {r r' : Reply PrivilegeSet} (hr : ∀ call, s.calls.get? id = some call →
      v.reply call.principal r = v.reply call.principal r') :
    Event.Alike v s (.answer id r) (.answer id r')
  | verdict {id : Id} {r r' : Reply Bool}
    (hr : ∀ call c e a, s.calls.get? id = some call → call.owner = .direct c e a →
      v.verdict call.principal ⟨e, a⟩ r = v.verdict call.principal ⟨e, a⟩ r'
        ∧ v.ending call.principal (.checked r) = v.ending call.principal (.checked r')) :
    Event.Alike v s (.verdict id r) (.verdict id r')

section

variable {v : View} {j j' : List Note} {s s' : State}

/-- **Engines that look alike still do so after a step.** -/
theorem step_alike (h : Alike v j j' s s') {ev ev' : Event} (hev : ev.Alike v s ev') :
    Alike v j j' (s.step ev) (s'.step ev') := by
  have hdropped : s'.dropped = s.dropped := by rw [h.same]
  have hif : ∀ {t t'}, Alike v j j' t t' →
      Alike v j j' (if s.dropped then s else t) (if s'.dropped then s' else t') := by
    intro t t' ht
    rw [hdropped]
    split
    · exact h
    · exact ht
  have hnext : s'.next = s.next := by rw [h.same]
  cases hev with
  | answer hr => exact h.answer _ hr
  | verdict hr => exact h.verdict _ hr
  | same =>
    cases ev with
    | enforce e p a => exact hif (h.enforce e p a)
    | update p => exact hif (h.update p)
    | iterate =>
      refine hif ?_
      rw [hnext]
      exact (h.enter .iterate).beginPass _
    | start scheduler => exact hif (h.start scheduler)
    | shutdown => exact hif h.shutdown
    | invalidate => exact hif h.invalidate
    | drop => exact hif h.drop
    | spawn period => exact h.spawn period
    | stop w =>
      rw [State.step, State.step, hnext]
      exact (h.enter (.stop w)).stopWorker _ w
    | release w => exact h.abortWorker w
    | write p S => exact h.store rfl .hand
    | clear => exact h.clear.note rfl
    | cancel c => exact h.cancel c
    | answer id r => exact h.answer id fun _ _ => rfl
    | verdict id r => exact h.verdict id fun _ _ _ _ _ _ => ⟨rfl, rfl⟩
    | expire id => exact h.expire id
    | launch n p => exact h.launch n p
    | collect n p => exact h.collect n p
    | wake w => exact h.wake w
    | elapse millis =>
      exact h.frame (fun s => { s with now := s.now + millis }) (fun _ => []) fun _ _ _ _ => rfl

/-! ## What has been noted before

The journal is written and never read.  For a view that sees everything, to look alike is to be
equal up to the older part of the journal, so a step can be taken on an engine whose journal is
empty. -/

/-- Whoever sees all sees engines as they are. -/
theorem Alike.eq_of_all (h : Alike .all j [] s s') : s' = { s with journal := s.journal ++ j } := by
  have hnotes : ∀ l : List Note, l.map View.all.note = l := by
    intro l
    rw [List.map_congr_left fun n _ => View.all_note n, List.map_id']
  cases h with
  | @intro C P J hc hp hj =>
    obtain rfl := hc.eq fun p S S' h => by simpa using h
    obtain rfl := hp.eq fun n x y h => by simpa using h
    rw [hnotes, hnotes, List.append_nil] at hj
    rw [hj]

/-- **What has been noted before is of no account for what an engine does.** -/
theorem step_onto (s : State) (j : List Note) (ev : Event) :
    State.step { s with journal := s.journal ++ j } ev
      = { s.step ev with journal := (s.step ev).journal ++ j } := by
  have hnotes : s.journal.map View.all.note ++ j = (s.journal ++ j).map View.all.note ++ [] := by
    rw [List.map_congr_left fun n _ => View.all_note n, List.map_id',
      List.map_congr_left fun n _ => View.all_note n, List.map_id', List.append_nil]
  have h : Alike .all j [] s { s with journal := s.journal ++ j } :=
    .intro (.refl _ _) (.refl _ _) hnotes
  exact (step_alike h (.same ev)).eq_of_all

end

end Gatekeeper.Engine

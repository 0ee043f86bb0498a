import Gatekeeper.Proofs.Account
import Gatekeeper.Proofs.Provenance

/-!
# A pass works on its snapshot

While a pass is under way others get in between: entries are fetched, renewed and cleared, other
passes begin and end, and the pass itself is suspended between one result and the next.  What it
does is still settled by who was in the cache when it was begun.

* `TurnOf`, `Renews` — the turns of a pass, and what one turn does to the cache.
* `OnSnapshot` — what is promised of a pass up to any moment.
* `Reported` — how it stands with the caller that runs a pass.
* `pass_on_snapshot` — the promise is kept in every run.

The account of a pass says how much it has done at each moment, so most of the promise is read
off it.  What is new is what a single turn does to the cache, and that the caller is told the
report which the account adds up to.
-/

set_option autoImplicit false

namespace Gatekeeper.Engine

section

variable {ev : Event} {s t u : State} {n : Id}

/-! ## What is promised

A pass has its turns in between whatever else happens.  The promise is read off the account of
the pass, and says of every turn what it does to the cache and of every moment how much has been
asked for and written. -/

/-- It is the turn of the pass: it starts a call or looks at a result, one of its calls ends, or
whoever runs it gives it up. -/
inductive TurnOf (s : State) (n : Id) : Event → Prop
  | launch (p : Principal) : TurnOf s n (.launch n p)
  | collect (p : Principal) : TurnOf s n (.collect n p)
  | answer {id : Id} {call : Call} (r : Reply PrivilegeSet) (hid : s.calls.get? id = some call)
    (ho : call.owner = .pass n) : TurnOf s n (.answer id r)
  | expire {id : Id} {call : Call} (hid : s.calls.get? id = some call)
    (ho : call.owner = .pass n) : TurnOf s n (.expire id)
  | cancel {c : Id} (hc : s.callers.get? c = some (.pass n)) : TurnOf s n (.cancel c)
  | wake {w : Id} {k : Worker} (hw : s.workers.get? w = some k) (hk : k.phase = .refreshing n) :
    TurnOf s n (.wake w)
  | release {w : Id} {k : Worker} (hw : s.workers.get? w = some k) (hk : k.phase = .refreshing n) :
    TurnOf s n (.release w)
  | drop {w : Id} {k : Worker} (hl : s.lifecycle = .running w) (hw : s.workers.get? w = some k)
    (hk : k.phase = .refreshing n) : TurnOf s n .drop

/-- What a turn of the pass does to the cache: nothing, or it gives a principal the list that the
pass's own call for that principal has brought back. -/
inductive Renews (s : State) (n : Id) (old : List Principal) (ev : Event) : Prop
  | nothing (hc : (s.step ev).cache = s.cache)
  | entry {p : Principal} {privileges : PrivilegeSet} {id : Id} (hp : p ∈ old)
    (hb : .began id p .listing (.pass n) ∈ s.journal)
    (he : .ended id p (.listed (.value privileges)) ∈ s.journal)
    (hc : (s.step ev).cache = s.cache.put p privileges)
    (hj : .stored p privileges (.call id (.pass n)) ∈ (s.step ev).journal)

/-- What is promised of a pass over the principals in `old`, up to any moment. -/
structure OnSnapshot (n : Id) (old : List Principal) (s : State) : Prop where
  /-- It asks at most once for everybody in the snapshot, and for nobody else. -/
  asks : ∀ p, s.asked n p ≤ if p ∈ old then 1 else 0
  lists : ∀ {id p q}, .began id p q (.pass n) ∈ s.journal → q = .listing
  /-- It writes at most once for everybody in the snapshot, and for nobody else. -/
  writes : ∀ p, s.written n p ≤ if p ∈ old then 1 else 0
  /-- What it writes is, whole, what its own call for the principal was answered with. -/
  whole : ∀ {p privileges id}, .stored p privileges (.call id (.pass n)) ∈ s.journal →
    .began id p .listing (.pass n) ∈ s.journal
      ∧ .ended id p (.listed (.value privileges)) ∈ s.journal
  turns : ∀ {ev}, TurnOf s n ev → Renews s n old ev
  /-- It leaves the entries of all others alone. -/
  spares : ∀ {ev q}, TurnOf s n ev → q ∉ old → (s.step ev).cache.get? q = s.cache.get? q
  /-- When it has come to its end, everybody in the snapshot was asked for once, and is counted. -/
  ends : ∀ {r}, .passFinished n r ∈ s.journal → (∀ p ∈ old, s.asked n p = 1)
    ∧ r.refreshed = s.writes n ∧ r.refreshed + r.failed = old.length

theorem Renews.get? {old : List Principal} (h : Renews s n old ev) {q : Principal} (hq : q ∉ old) :
    (s.step ev).cache.get? q = s.cache.get? q := by
  cases h with
  | nothing hc => rw [hc]
  | entry hp hb he hc =>
    rw [hc]
    exact Table.get?_put_of_ne fun e => hq (e ▸ hp)

/-- A pass that looks at a result renews an entry of its snapshot, if any. -/
theorem Entries.collect {old : List Principal} (h : Entries n old s) (hb : Books s)
    (p : Principal) : Renews s n old (.collect n p) := by
  have hstep : s.step (.collect n p) = s.collect n p := rfl
  rcases State.collect_cases s n p with hs | ⟨pass, l, hp, hh, hf⟩
  · exact .nothing (by rw [hstep, hs])
  have hl := List.mem_of_find?_eq_some hf
  have hcache : (s.step (.collect n p)).cache = l.reply.put l.principal s.cache := by
    rw [hstep, State.collect_eq hp hh hf, State.digest_eq]
    split
    · cases pass.driver <;> rfl
    · rfl
  have hnotes : ∀ m ∈ l.notes n, m ∈ (s.step (.collect n p)).journal := by
    intro m hm
    rw [hstep, State.collect_eq hp hh hf]
    split
    · obtain ⟨after, hj, -⟩ := s.journal_close n n pass l
      rw [hj]
      exact List.mem_append_right _ (List.mem_append_left _ hm)
    · rw [State.digest_eq]
      exact List.mem_append_left _ hm
  obtain ⟨hbegan, hended⟩ := hb.passes.landed hp l hl
  have hold : l.principal ∈ old := by
    have hcount := (h.account hp).unwritten l.principal
    have hmem : l.principal ∈ pass.principals :=
      List.mem_append_right _ (List.mem_map_of_mem hl)
    have hpos := List.count_pos_iff.mpr hmem
    exact List.count_pos_iff.mp (by omega)
  cases hr : l.reply with
  | value S =>
    refine .entry hold hbegan (hended S hr) (by rw [hcache, hr]; rfl) (hnotes _ ?_)
    rw [Landing.notes, hr]
    exact List.mem_singleton.mpr rfl
  | failed cause => exact .nothing (by rw [hcache, hr]; rfl)
  | crashed => exact .nothing (by rw [hcache, hr]; rfl)

theorem Entries.turn {old : List Principal} (h : Entries n old s) (hb : Books s)
    (ht : TurnOf s n ev) : Renews s n old ev := by
  cases ht with
  | collect p => exact h.collect hb p
  | answer r hid ho =>
    refine .nothing ?_
    rw [State.step, State.answer, hid]
    dsimp only
    split
    · rw [State.settle, ho]
      rfl
    · rfl
  | expire hid ho =>
    refine .nothing ?_
    rw [State.step, State.expire, hid]
    dsimp only
    split
    · rw [State.settle, ho]
      rfl
    · rfl
  | launch | cancel | wake | release | drop => exact .nothing (step_cache_eq hb.orderly rfl)

/-- A pass whose account is in order keeps what is promised of it. -/
theorem Ledger.onSnapshot {old : List Principal} (h : Ledger n old s) (hb : Books s)
    (hc : CacheBooks s) (hnum : Numbered s) (hnodup : old.Nodup) : OnSnapshot n old s where
  asks p := by
    rw [← hnodup.count]
    exact h.asked p
  lists := hnum.lists
  writes p := by
    rw [← hnodup.count]
    exact h.written p
  whole := hc.listed
  turns ht := h.toEntries.turn hb ht
  spares ht hq := (h.toEntries.turn hb ht).get? hq
  ends hr := by
    obtain ⟨-, hs⟩ := h.settled hr
    refine ⟨fun p hp => ?_, hs.refreshed, hs.total⟩
    rw [hs.asked, List.count_eq_one_of_mem hnodup hp]

/-! ## Whoever runs a pass

A caller that runs a pass waits until the pass is over and is then told its report, unless it
gives up before.  A worker is told nothing; its pass leaves the report in the journal. -/

/-- How it stands with the caller `c` that runs the pass. -/
inductive Reported (n c : Id) (s : State) : Prop
  | runs {pass : Pass} (hp : s.passes.get? n = some pass) (hd : pass.driver = .caller c)
  | told {r : Report} (hf : .passFinished n r ∈ s.journal)
    (hr : .returned c (.refreshed r) ∈ s.journal)
  | left (hc : .cancelled c ∈ s.journal)
  | crashed (hlt : State.maxParallelism < s.parallelism) (hr : .returned c .crashed ∈ s.journal)

theorem Reported.move {c : Id} (h : Reported n c s) (hb : Books s) (m : Move ev s t) :
    Reported n c t := by
  have hsub : s.journal ⊆ t.journal := (m.touch hb).suffix.subset
  cases h with
  | told hf hr => exact .told (hsub hf) (hsub hr)
  | left hc => exact .left (hsub hc)
  | crashed hlt hr =>
    refine .crashed ?_ (hsub hr)
    rw [State.parallelism, m.settings]
    exact hlt
  | @runs pass hp hd =>
    cases m.serves hb n with
    | aside new hj hn hp' => exact .runs (hp'.trans hp) hd
    | opens new hj hn he => exact absurd (hb.orderly.passes hp) (he ▸ Nat.lt_irrefl _)
    | drop new hj hn ht hleft => exact .left (hleft pass c hp hd)
    | launch hp' hq ht | land new hj hn hp' hf ht | look hp' hl ht =>
      rw [hp, Option.some_inj] at hp'
      exact .runs ht (hp' ▸ hd)
    | close after hp' hl ht hj hn hf htold =>
      rw [hp, Option.some_inj] at hp'
      subst hp'
      have hafter : ∀ m ∈ after, m ∈ t.journal := by
        intro m hm
        rw [hj]
        exact List.mem_append_left _ hm
      exact .told (hafter _ hf) (hafter _ (htold c hd))

theorem Reported.run {c : Id} (h : Reported n c s) (hb : Books s) (es : List Event) :
    Reported n c (s.run es) :=
  hb.run_induction h fun _ _ _ _ hb h m => h.move hb m

/-- Whoever has begun a pass runs it, unless there is nothing to run. -/
theorem Reported.opens (ho : Opens s .iterate (.caller s.next) u)
    (ha : s.settings.cachingActive = true) : Reported u.next s.next (s.step .iterate) := by
  rw [ho.begins]
  have hlimit : u.parallelism = s.parallelism := by
    rw [State.parallelism, ho.move.settings]
    rfl
  have hau : u.settings.cachingActive = true := ho.move.settings ▸ ha
  rcases State.beginPass_cases hau (.caller s.next) with ⟨hlt, hs⟩ | ⟨-, hs⟩ | ⟨-, hs⟩
  · rw [hs]
    exact .crashed hlt List.mem_cons_self
  · rw [hs]
    exact .told (List.mem_cons_of_mem _ List.mem_cons_self) List.mem_cons_self
  · rw [hs]
    refine .runs Table.get?_put_self ?_
    rfl

/-- What whoever runs a pass is told is the report that the pass has come to, unless the pass cannot
be run. -/
theorem Reported.outcome {c : Id} (h : Reported n c s) (hb : Books s) {o : Outcome}
    (ho : .returned c o ∈ s.journal) : (∃ r, o = .refreshed r ∧ .passFinished n r ∈ s.journal)
      ∨ o = .crashed ∧ State.maxParallelism < s.parallelism := by
  cases h with
  | runs hp hd =>
    obtain ⟨request, -, hthread⟩ := hb.callers.thread_of_unserved (hb.passes.driven hp hd) rfl
    have hmem : .returned c o ∈ thread Note.caller? c s.journal := mem_thread.mpr ⟨ho, rfl⟩
    rw [hthread] at hmem
    simp at hmem
  | told hf hr => exact Or.inl ⟨_, hb.callers.returned_unique ho hr, hf⟩
  | left hc => exact absurd ho (hb.callers.not_returned_of_cancelled hc o)
  | crashed hlt hr => exact Or.inr ⟨hb.callers.returned_unique ho hr, hlt⟩

/-- **A pass works on its snapshot.**  Whatever happens after it has been begun, it asks at most
once for everybody who was in the cache then and for nobody else; it writes nothing but what its own
calls have brought back, once for each at most; it leaves all other entries alone; and when it has
come to its end it has asked for everybody once, and its report counts everybody. -/
theorem pass_on_snapshot (settings : Settings) (checks : Bool) (es : List Event) (ev : Event)
    {n : Id} {k : Nat}
    (hnew : .passStarted n k ∉ ((State.initial settings checks).run es).journal)
    (hs : .passStarted n k ∈ (((State.initial settings checks).run es).step ev).journal)
    (es' : List Event) :
    let s := (State.initial settings checks).run es
    let t := (s.step ev).run es'
    k = s.cache.keys.length ∧ (s.step ev).cache = s.cache ∧ OnSnapshot n s.cache.keys t
      ∧ (ev = .iterate → ∀ o, .returned s.next o ∈ t.journal →
        (∃ r, o = .refreshed r ∧ .passFinished n r ∈ t.journal)
          ∨ o = .crashed ∧ State.maxParallelism < t.parallelism) := by
  intro s t
  have hinit := Books.initial settings checks
  have hb : Books s := hinit.run es
  have hnum : Numbered s := (Numbered.initial settings checks).run hinit es
  have hcache : CacheBooks s := (CacheBooks.initial settings checks).run hinit es
  obtain ⟨d, u, ho, ha, rfl, rfl⟩ := started_cases hb.orderly hnew hs
  have hb' : Books (s.step ev) := hb.run [ev]
  have hledger := (ho.ledger hb hnum ha).run hb' es'
  have hkept : (s.step ev).cache = s.cache := by
    refine step_cache_eq hb.orderly ?_
    rcases ho.driver with ⟨rfl, -⟩ | ⟨w, k, rfl, -⟩ <;> rfl
  refine ⟨(Table.length_keys _).symm, hkept, ?_, ?_⟩
  · exact hledger.onSnapshot (hb'.run es') ((hcache.run hb [ev]).run hb' es')
      ((hnum.step hb ev).run hb' es') s.cache.keys_nodup
  · rintro rfl o hr
    have hd : d = .caller s.next := by
      rcases ho.driver with ⟨-, -, hd⟩ | ⟨w, k, hw, -⟩
      · exact hd
      · cases hw
    subst hd
    exact ((Reported.opens ho ha).run hb' es').outcome (hb'.run es') hr

end

/-- While a pass over two principals is under way the cache is cleared, and a third principal is
fetched; one of the calls of the pass crashes, and the other one's list is written. -/
theorem pass_on_snapshot_between_fetches :
    let p : Principal := ⟨.user, "alice"⟩
    let q : Principal := ⟨.user, "bob"⟩
    let r : Principal := ⟨.user, "carol"⟩
    let e : Entity := .space "docs"
    let es : List Event := [.update p, .answer 1 (.value (.ofList [])), .update q,
      .answer 3 (.value (.ofList []))]
    let es' : List Event := [.launch 5 q, .launch 5 p, .invalidate, .enforce e r .read,
      .answer 9 (.value (.ofList [])), .answer 7 .crashed, .collect 5 p,
      .answer 6 (.value (.ofList [⟨e, .read⟩])), .collect 5 q]
    let s := (State.initial { authorization := true } true).run es
    let t := (s.step .iterate).run es'
    OnSnapshot 5 s.cache.keys t ∧ .returned 4 (.refreshed ⟨1, 1⟩) ∈ t.journal
      ∧ t.cache.get? p = none ∧ t.cache.get? q = some (.ofList [⟨e, .read⟩])
      ∧ t.cache.get? r = some (.ofList []) := by
  intro p q r e es es' s t
  have hsnapshot := pass_on_snapshot { authorization := true } true es .iterate (n := 5) (k := 2)
    (by decide) (by decide) es'
  exact ⟨hsnapshot.2.2.1, by decide, by decide, by decide, by decide⟩

end Gatekeeper.Engine

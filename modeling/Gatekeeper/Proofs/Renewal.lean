import Gatekeeper.Proofs.Account
import Gatekeeper.Proofs.RoundTrip

/-!
# Renewing an entry

Whoever has a cache entry renewed makes a call of its own for it, and what the call comes back with
is stored at the moment when the caller is told so.  Nothing else ever comes of it: it joins no
fetch, and no fetch is touched by it.  So if it fails, or its caller gives up, it has left no trace;
and of several that renew one entry the last to be told has the say.

* `Note.update?` — the notes of a call that is made for an update, and of what is stored for it.
* `Bypass`, `Move.renewal` — the moves that have a part in an update are its beginning and its end.
* `UpdateStory` — all that can become of an update; `UpdateBooks` says so of every one of them.
* `Updating.step_told` — the step in which a caller is told is the one in which its call ends.
* `AllOrNothing` and `update_all_or_nothing` — what is so of an update, whatever happens beside it.

The story of an update has to be followed through every move, since anything may happen beside
it.  But there are only two moves that have a part in it (`Move.renewal`): the one by which its
call begins, and the one by which the call ends, which stores the list and tells the caller at
once.  All others bypass it, except that the caller may give up.

From the story of one update follows what is so when several overlap: each is about its own call,
and what is in the cache is what was stored last.
-/

set_option autoImplicit false

namespace Gatekeeper.Engine

/-- The caller for whose update the note tells of a call, or of a list that is stored. -/
def Note.update? : Note → Option Id
  | .began _ _ _ (.update c) | .stored _ _ (.call _ (.update c)) => some c
  | _ => none

/-- A change in which no update has a part, unless its caller gives up. -/
structure Bypass (s t : State) : Prop where
  journal : ∃ new, t.journal = new ++ s.journal ∧ ∀ m ∈ new, m.update? = none
  calls : ∀ {id call c}, s.calls.get? id = some call → call.owner = .update c →
    t.calls.get? id = some call ∨ (.cancelled c ∈ t.journal ∧ .dropped id (.update c) ∈ t.journal)

/-- What has become of the update of `p` that caller `c` makes with the call `id`. -/
inductive UpdateStory (p : Principal) (c id : Id) (s : State) : Prop
  | underway {call : Call} (hc : s.calls.get? id = some call) (ho : call.owner = .update c)
    (ht : thread Note.update? c s.journal = [.began id p .listing (.update c)])
  | renewed {privileges : PrivilegeSet}
    (he : .ended id p (.listed (.value privileges)) ∈ s.journal)
    (hr : .returned c .updated ∈ s.journal)
    (ht : thread Note.update? c s.journal
      = [.stored p privileges (.call id (.update c)), .began id p .listing (.update c)])
  | failed {ending : Ending} {o : Outcome} (he : .ended id p ending ∈ s.journal)
    (hset : ending.set? = none) (hr : .returned c o ∈ s.journal) (ho : o ≠ .updated)
    (ht : thread Note.update? c s.journal = [.began id p .listing (.update c)])
  | left (hx : .cancelled c ∈ s.journal) (hd : .dropped id (.update c) ∈ s.journal)
    (ht : thread Note.update? c s.journal = [.began id p .listing (.update c)])

/-- What has become of every update that has begun its call. -/
structure UpdateBooks (s : State) : Prop where
  begun : ∀ {id p q c}, .began id p q (.update c) ∈ s.journal →
    .called c (.update p) ∈ s.journal ∧ .joined c id ∈ s.journal ∧ UpdateStory p c id s

/-- Caller `c` has the entry of `p` renewed, and has begun the call `id` for it. -/
structure Updating (p : Principal) (c id : Id) (s : State) : Prop where
  books : Books s
  cache : CacheBooks s
  updates : UpdateBooks s
  began : .began id p .listing (.update c) ∈ s.journal

/-- Nothing but updates has overwritten the entry of `p` between one state and the other, and nobody
has been told that it is renewed. -/
structure Unrivalled (p : Principal) (s t : State) : Prop where
  updates : ∀ m ∈ s.notesTo t, m.overwrites p = true →
    ∃ privileges id c, m = .stored p privileges (.call id (.update c))
  last : ∀ c, .returned c .updated ∈ s.notesTo t → .called c (.update p) ∉ t.journal

/-- What is so of the update of `p` that caller `c` makes with the call `id`, when it has come to
the state `s`. -/
structure AllOrNothing (p : Principal) (c id : Id) (s : State) : Prop where
  /-- The caller waits for its own call and for no other. -/
  alone : ∀ i, .joined c i ∈ s.journal ↔ i = id
  /-- If it has been told that the entry is renewed, its call has come back with a list and has been
  written once; -/
  done : .returned c .updated ∈ s.journal → ∃ privileges,
    .ended id p (.listed (.value privileges)) ∈ s.journal
      ∧ thread Note.update? c s.journal
        = [.stored p privileges (.call id (.update c)), .began id p .listing (.update c)]
  /-- and if it has not, its call has not come back with a list and nothing is written. -/
  undone : .returned c .updated ∉ s.journal →
    (∀ privileges, .ended id p (.listed (.value privileges)) ∉ s.journal)
      ∧ thread Note.update? c s.journal = [.began id p .listing (.update c)]
  /-- Unless it has given up before, it is told in the step in which its call ends; -/
  told : (∀ o, .returned c o ∉ s.journal) → .cancelled c ∉ s.journal →
    ∃ call, s.calls.get? id = some call ∧ ∀ ev ending r, Ends ev s id call ending r →
      .returned c ((Request.update p).answer r) ∈ (s.step ev).journal
  /-- in this step the list that the call has come back with becomes the entry, -/
  lands : ∀ ev, .returned c .updated ∉ s.journal → .returned c .updated ∈ (s.step ev).journal →
    Still s (s.step ev) ∧ ∃ privileges,
      .ended id p (.listed (.value privileges)) ∈ (s.step ev).journal
        ∧ (s.step ev).cache = s.cache.put p privileges
  /-- or everything stays as it was. -/
  fails : ∀ ev o, o ≠ .updated → .returned c o ∉ s.journal →
    .returned c o ∈ (s.step ev).journal → Still s (s.step ev) ∧ (s.step ev).cache = s.cache
  leaves : Still s (s.step (.cancel c)) ∧ (s.step (.cancel c)).cache = s.cache
  /-- Where nothing but updates writes the entry, it is what the last of them has brought. -/
  last : ∀ ev es, .returned c .updated ∉ s.journal → .returned c .updated ∈ (s.step ev).journal →
    Unrivalled p (s.step ev) ((s.step ev).run es) →
    ∃ privileges, .ended id p (.listed (.value privileges)) ∈ (s.step ev).journal
      ∧ ((s.step ev).run es).cache.get? p = some privileges

section

variable {s t u : State} {ev : Event} {c id : Id} {p : Principal} {call : Call} {ending : Ending}
  {r : Reply PrivilegeSet} {o : Outcome}

/-! ## The moves of an update

An update is known by its caller, and the notes that tell of it are those of its call and of what
was stored for it.  A move that adds no such note passes the update by, and that is almost every
move. -/

namespace Bypass

theorem of_calls (new : List Note) (hc : t.calls = s.calls) (hj : t.journal = new ++ s.journal)
    (hn : ∀ m ∈ new, m.update? = none) : Bypass s t where
  journal := ⟨new, hj, hn⟩
  calls hid _ := Or.inl (hc ▸ hid)

/-- A call begins that is made for no update. -/
theorem begun (ho : Orderly s) (new : List Note) (hc : t.calls = s.calls.put s.next call)
    (hj : t.journal = new ++ s.journal) (hn : ∀ m ∈ new, m.update? = none) : Bypass s t where
  journal := ⟨new, hj, hn⟩
  calls hid _ := Or.inl (hc ▸ ho.get?_begun hid call)

/-- A call is over that is made for no update. -/
theorem finished (hid : s.calls.get? id = some call) (hne : ∀ c, call.owner ≠ .update c)
    (new : List Note) (hc : t.calls = s.calls.erase id) (hj : t.journal = new ++ s.journal)
    (hn : ∀ m ∈ new, m.update? = none) : Bypass s t where
  journal := ⟨new, hj, hn⟩
  calls {id' call' c} hid' ho := by
    refine Or.inl (hc ▸ (Table.get?_erase_of_ne ?_).trans hid')
    rintro rfl
    rw [hid, Option.some_inj] at hid'
    exact hne c (hid' ▸ ho)

theorem dropPass (callers : Table Id Waiting) (new : List Note) (hn : ∀ m ∈ new, m.update? = none)
    (n : Id) :
    Bypass s ({ s with callers := callers, journal := new ++ s.journal }.dropPass n) := by
  rw [State.dropPass_eq]
  refine ⟨⟨_, (List.append_assoc ..).symm, fun m hm => ?_⟩, fun hid ho => Or.inl ?_⟩
  · rcases List.mem_append.mp hm with hm | hm
    · obtain ⟨id, -, rfl⟩ := List.mem_map.mp (List.mem_reverse.mp hm)
      rfl
    · exact hn m hm
  · refine Table.get?_filter_eq_some_iff.mpr ⟨hid, decide_eq_true ?_⟩
    rw [ho]
    simp

end Bypass

theorem Note.update?_of_remark {m : Note} (h : m.remark = true) : m.update? = none := by
  cases m <;> simp_all [Note.remark, Note.update?]

theorem Landing.update?_notes {l : Landing} {n : Id} {m : Note} (h : m ∈ l.notes n) :
    m.update? = none := by
  obtain ⟨q, id, r⟩ := l
  cases r <;> rw [List.mem_singleton.mp h] <;> rfl

/-- **The moves that have a part in an update are its beginning and its end.** -/
theorem Move.renewal (h : Books s) (m : Move ev s t) : Bypass s t
    ∨ (∃ c p, Asking s c (.update p) ∧ t = s.startOwnCall c p .listing (.update c))
    ∨ ∃ id c call ending r, s.calls.get? id = some call ∧ call.owner = .update c
      ∧ Ends ev s id call ending r
      ∧ t = (s.endCall id call.principal ending).settleUpdate id c call.principal r := by
  have hone : ∀ {m : Note}, m.update? = none → ∀ n ∈ [m], n.update? = none :=
    fun hm _ hn => List.mem_singleton.mp hn ▸ hm
  have htwo : ∀ {m m' : Note}, m.update? = none → m'.update? = none →
      ∀ n ∈ [m, m'], n.update? = none := by
    intro m m' hm hm'
    exact List.forall_mem_cons.mpr ⟨hm, hone hm'⟩
  have hnil : ∀ n ∈ ([] : List Note), n.update? = none := fun n hn => absurd hn List.not_mem_nil
  cases m with
  | updateEnds hc ho he => exact Or.inr (Or.inr ⟨_, _, _, _, _, hc, ho, he, rfl⟩)
  | @own c r p q o ha hm ho he hev =>
    cases hm with
    | fetch => exact absurd rfl ho
    | list | check =>
      exact Or.inl (.begun h.orderly [.began _ _ _ _, .joined _ _] rfl rfl (htwo rfl rfl))
    | update => exact Or.inr (Or.inl ⟨c, p, ha, rfl⟩)
  | quiet hq =>
    obtain ⟨new, hj, hnew⟩ := hq.journal
    exact Or.inl (.of_calls new hq.calls hj fun n hn => Note.update?_of_remark (hnew n hn).1)
  | enter r => exact Or.inl (.of_calls [.called s.next r] rfl rfl (hone rfl))
  | @reply c r o => exact Or.inl (.of_calls [.returned c o] rfl rfl (hone rfl))
  | @release c => exact Or.inl (.of_calls [.returned c .stopped] rfl rfl (hone rfl))
  | await => exact Or.inl (.of_calls [] rfl rfl hnil)
  | @join c id => exact Or.inl (.of_calls [.joined c id] rfl rfl (hone rfl))
  | fetch =>
    exact Or.inl (.begun h.orderly [.joined _ _, .began _ _ _ .fetch] rfl rfl (htwo rfl rfl))
  | @fetchEnds id call ending r hc ho =>
    rw [State.settleFetch_eq]
    refine Or.inl (.finished hc (by simp [ho]) (_ ++ (r.notes call.principal (.call id .fetch)
      ++ [.ended id call.principal ending])) rfl (by simp [State.endCall, State.note]; rfl)
      fun m hm => ?_)
    rcases List.mem_append.mp hm with hm | hm
    · obtain ⟨x, -, rfl⟩ := List.mem_map.mp (List.mem_reverse.mp hm)
      rfl
    rcases List.mem_append.mp hm with hm | hm
    · obtain ⟨S, -, rfl⟩ := Reply.mem_notes_iff.mp hm
      rfl
    · exact hone rfl m hm
  | directEnds hc ho =>
    exact Or.inl (.finished hc (by simp [ho]) [.returned _ _, .ended _ _ _] rfl rfl (htwo rfl rfl))
  | landing hc ho => exact Or.inl (.finished hc (by simp [ho]) [.ended _ _ _] rfl rfl (hone rfl))
  | openFor => exact Or.inl (.of_calls [.passStarted s.next s.cache.size] rfl rfl (hone rfl))
  | openBy => exact Or.inl (.of_calls [.passStarted s.next s.cache.size] rfl rfl (hone rfl))
  | @launch n p =>
    exact Or.inl (.begun h.orderly [.began s.next p .listing (.pass n)] rfl rfl (hone rfl))
  | @look n pass l =>
    rw [State.digest_eq]
    exact Or.inl (.of_calls (l.notes n) rfl rfl fun m => Landing.update?_notes)
  | @close n pass l =>
    rw [State.digest_eq]
    have hnotes : ∀ m ∈ l.notes n, m.update? = none := fun m => Landing.update?_notes
    cases hd : pass.driver with
    | caller c =>
      exact Or.inl (.of_calls (.returned c (.refreshed (pass.look l).report)
        :: .passFinished n (pass.look l).report :: l.notes n) rfl rfl
        (List.forall_mem_cons.mpr ⟨rfl, List.forall_mem_cons.mpr ⟨rfl, hnotes⟩⟩))
    | worker w =>
      exact Or.inl (.of_calls (.passFinished n (pass.look l).report :: l.notes n) rfl rfl
        (List.forall_mem_cons.mpr ⟨rfl, hnotes⟩))
  | @leave c => exact Or.inl (.of_calls [.cancelled c] rfl rfl (hone rfl))
  | @leaveCall c id hev hc =>
    obtain ⟨-, call, hid, hown⟩ := h.callers.waiters hc
    rw [State.dropCall_eq (s := s.leave c) hid]
    refine Or.inl ⟨⟨[.dropped id call.owner, .cancelled c], rfl, htwo rfl rfl⟩, ?_⟩
    intro id' call' c' hid' ho
    by_cases he : id' = id
    · subst he
      rw [hid, Option.some_inj] at hid'
      rw [hid', ho] at hown
      obtain rfl : c' = c := Option.some_inj.mp hown
      refine Or.inr ⟨List.mem_cons_of_mem _ List.mem_cons_self, ?_⟩
      rw [hid', ho]
      exact List.mem_cons_self
    · exact Or.inl ((Table.get?_erase_of_ne he).trans hid')
  | @leavePass c n => exact Or.inl (.dropPass (s.callers.erase c) [.cancelled c] (hone rfl) n)
  | @abandon n => exact Or.inl (.dropPass s.callers [] hnil n)
  | @write p S => exact Or.inl (.of_calls [.stored p S .hand] rfl rfl (hone rfl))
  | @clear n hev hn =>
    refine Or.inl (.of_calls [n] rfl rfl (hone ?_))
    rcases hn with rfl | ⟨k, rfl⟩ <;> rfl

/-! ## What becomes of an update

An update is under way, or has ended and its caller has been told, or was given up.
`UpdateStory` holds for each of these what the journal says, and that nothing is left over: no
second call, no list that was stored too early, no caller who waits for something else. -/

theorem CallerBooks.idle_of_returned (h : CallerBooks s) (hr : .returned c o ∈ s.journal) :
    s.callers.get? c = none := by
  obtain ⟨w, l, hw, hs, hl⟩ := h.read c
  have hm := (hl _ rfl).mp hr
  cases hs with
  | answered | told => exact hw
  | _ => simp at hm

/-- Whoever makes an update waits for its call as long as that is under way. -/
theorem CallerBooks.waits_of_update (h : CallerBooks s) (hc : s.calls.get? id = some call)
    (ho : call.owner = .update c) : s.callers.get? c = some (.call id) :=
  (h.owners hc (by rw [ho]; rfl)).1

theorem CallerBooks.not_returned_of_update (h : CallerBooks s) (hc : s.calls.get? id = some call)
    (ho : call.owner = .update c) (o : Outcome) : .returned c o ∉ s.journal := by
  intro hr
  have hwaits := h.waits_of_update hc ho
  rw [h.idle_of_returned hr] at hwaits
  cases hwaits

theorem CallerBooks.idle_of_cancelled (h : CallerBooks s) (hx : .cancelled c ∈ s.journal) :
    s.callers.get? c = none := by
  obtain ⟨w, l, hw, hs, hl⟩ := h.read c
  have hm := (hl _ rfl).mp hx
  cases hs with
  | left | leftCall => exact hw
  | _ => simp at hm

namespace UpdateStory

/-- Whoever has an entry renewed waits for its call, or for nothing any more. -/
theorem waits (h : UpdateStory p c id s) (hb : Books s) : s.callers.get? c = none
    ∨ s.callers.get? c = some (.call id) := by
  cases h with
  | underway hc ho => exact Or.inr (hb.callers.waits_of_update hc ho)
  | renewed he hr | failed he hset hr => exact Or.inl (hb.callers.idle_of_returned hr)
  | left hx => exact Or.inl (hb.callers.idle_of_cancelled hx)

theorem not_asking (h : UpdateStory p c id s) (hb : Books s) (r : Request) : ¬Asking s c r := by
  intro ha
  cases h with
  | underway hc ho =>
    have hwaits := hb.callers.waits_of_update hc ho
    rw [ha.idle] at hwaits
    cases hwaits
  | renewed he hr | failed he hset hr => cases ha.silent _ hr rfl
  | left hx => cases ha.silent _ hx rfl

/-- The story goes on as before where nothing is noted of the update. -/
theorem keep (h : UpdateStory p c id s) (hsub : ∀ n ∈ s.journal, n ∈ t.journal)
    (hj : thread Note.update? c t.journal = thread Note.update? c s.journal)
    (hcalls : ∀ {call}, s.calls.get? id = some call → call.owner = .update c →
      t.calls.get? id = some call
        ∨ (.cancelled c ∈ t.journal ∧ .dropped id (.update c) ∈ t.journal)) :
    UpdateStory p c id t := by
  cases h with
  | underway hc ho ht =>
    rw [← hj] at ht
    rcases hcalls hc ho with hc | ⟨hx, hd⟩
    · exact .underway hc ho ht
    · exact .left hx hd ht
  | renewed he hr ht => exact .renewed (hsub _ he) (hsub _ hr) (hj.trans ht)
  | failed he hset hr ho ht => exact .failed (hsub _ he) hset (hsub _ hr) ho (hj.trans ht)
  | left hx hd ht => exact .left (hsub _ hx) (hsub _ hd) (hj.trans ht)

/-- The call of the update ends. -/
theorem ends (ht : thread Note.update? c s.journal = [.began id p .listing (.update c)])
    (he : Ends ev s id call ending r) :
    UpdateStory p c id ((s.endCall id p ending).settleUpdate id c p r) := by
  rw [State.settleUpdate_eq]
  have hended : .ended id p ending
      ∈ r.notes p (.call id (.update c)) ++ (s.endCall id p ending).journal :=
    List.mem_append_right _ List.mem_cons_self
  cases r with
  | value S =>
    rw [he.listed rfl] at hended ⊢
    refine .renewed (List.mem_cons_of_mem _ hended) List.mem_cons_self ?_
    rw [← ht]
    exact (thread_cons_of_none rfl).trans ((thread_cons_self rfl).trans
      (congrArg _ (thread_cons_of_none rfl)))
  | failed cause | crashed =>
    refine .failed (List.mem_cons_of_mem _ hended) ?_ List.mem_cons_self
      (by simp [Request.answer]) ?_
    · cases he <;> rfl
    · rw [← ht]
      exact (thread_cons_of_none rfl).trans (thread_cons_of_none rfl)

/-- **The story of an update goes on with every move.** -/
theorem move (h : UpdateStory p c id s) (hb : Books s) (m : Move ev s t) :
    UpdateStory p c id t := by
  have hsub := (m.touch hb).suffix.subset
  rcases m.renewal hb with b | ⟨c', q, ha, rfl⟩ | ⟨id', c', call, ending, r, hid, ho, he, rfl⟩
  · obtain ⟨new, hj, hn⟩ := b.journal
    refine h.keep hsub ?_ b.calls
    rw [hj, thread_append_of_none hn]
  · have hne : c' ≠ c := by
      rintro rfl
      exact h.not_asking hb _ ha
    refine h.keep hsub ?_ fun hc _ => Or.inl (hb.orderly.get?_begun hc _)
    exact (thread_cons_of_ne fun e => hne (Option.some_inj.mp e)).trans (thread_cons_of_none rfl)
  · have hwaits := hb.callers.waits_of_update hid ho
    by_cases hne : c' = c
    · subst hne
      -- The call that ends is the one that the caller waits for.
      obtain rfl : id' = id := by
        rcases h.waits hb with hw | hw <;> rw [hwaits] at hw <;> cases hw
        rfl
      cases h with
      | underway hc ho' ht =>
        have hbegan : .began id' p .listing (.update c') ∈ s.journal :=
          (mem_thread.mp (ht ▸ List.mem_cons_self)).1
        obtain ⟨rfl, -⟩ := hb.calls.began_unique hbegan (hb.calls.began_of_get? hid)
        exact ends ht he
      | renewed _ hr | failed _ _ hr => rw [hb.callers.idle_of_returned hr] at hwaits; cases hwaits
      | left hx => rw [hb.callers.idle_of_cancelled hx] at hwaits; cases hwaits
    · rw [State.settleUpdate_eq] at hsub ⊢
      refine h.keep hsub ?_ fun {call'} hc ho' => Or.inl ((Table.get?_erase_of_ne ?_).trans hc)
      · refine (thread_cons_of_none rfl).trans ((thread_append_of_ne fun n hn e => ?_).trans
          (thread_cons_of_none rfl))
        obtain ⟨S, -, rfl⟩ := Reply.mem_notes_iff.mp hn
        exact hne (Option.some_inj.mp e)
      · rintro rfl
        rw [hid, Option.some_inj] at hc
        rw [← hc, ho] at ho'
        injection ho' with ho'
        exact hne ho'

end UpdateStory

/-! ### Every update

The stories of all updates are kept side by side.  An update that begins has a caller of which
nothing was known, so it begins a story of its own and disturbs no other. -/

/-- Who has only asked has nothing to do with any update that has begun. -/
theorem UpdateBooks.thread_of_asking (h : UpdateBooks s) (hc : CacheBooks s) {q : Request}
    (ha : Asking s c q) : thread Note.update? c s.journal = [] := by
  have hbegan : ∀ {id p q}, .began id p q (.update c) ∉ s.journal := by
    intro id p q hb
    cases ha.silent _ (h.begun hb).2.1 rfl
  refine thread_eq_nil fun n hn he => ?_
  unfold Note.update? at he
  split at he
  · obtain rfl := Option.some_inj.mp he
    exact hbegan hn
  · obtain rfl := Option.some_inj.mp he
    exact hbegan (hc.listed hn).1
  · cases he

theorem UpdateBooks.initial (settings : Settings) (checks : Bool) :
    UpdateBooks (.initial settings checks) where
  begun hb := absurd hb List.not_mem_nil

theorem UpdateBooks.move (h : UpdateBooks s) (hb : Books s) (hc : CacheBooks s)
    (m : Move ev s t) : UpdateBooks t := by
  have hsub := (m.touch hb).suffix.subset
  have hold : ∀ {id p q c}, .began id p q (.update c) ∈ s.journal →
      .called c (.update p) ∈ t.journal ∧ .joined c id ∈ t.journal ∧ UpdateStory p c id t := by
    intro id p q c hbegan
    obtain ⟨hcalled, hj, hstory⟩ := h.begun hbegan
    exact ⟨hsub hcalled, hsub hj, hstory.move hb m⟩
  refine ⟨fun {id p q c} hbegan => ?_⟩
  rcases m.renewal hb with b | ⟨c', p', ha, rfl⟩ | ⟨id', c', call, ending, r, hid, ho, he, rfl⟩
  · obtain ⟨new, hj, hn⟩ := b.journal
    rw [hj] at hbegan
    rcases List.mem_append.mp hbegan with hnew | hbegan
    · cases hn _ hnew
    · exact hold hbegan
  · rcases List.mem_cons.mp hbegan with hnew | hbegan
    · injection hnew with hid hp hq ho
      injection ho with hcc
      subst hid hp hq hcc
      refine ⟨hsub ha.called, List.mem_cons_of_mem _ List.mem_cons_self,
        .underway Table.get?_put_self rfl ?_⟩
      exact (thread_cons_self rfl).trans
        (congrArg _ ((thread_cons_of_none rfl).trans (h.thread_of_asking hc ha)))
    · exact hold (List.mem_of_ne_of_mem (by simp) hbegan)
  · rw [State.settleUpdate_eq] at hbegan
    rcases List.mem_append.mp (List.mem_of_ne_of_mem (by simp) hbegan) with hnew | hbegan
    · obtain ⟨S, -, hn⟩ := Reply.mem_notes_iff.mp hnew
      cases hn
    · exact hold (List.mem_of_ne_of_mem (by simp) hbegan)

/-- **The story of every update is told in full after every run.** -/
theorem UpdateBooks.run (h : UpdateBooks s) (hb : Books s) (hc : CacheBooks s) (es : List Event) :
    UpdateBooks (s.run es) := by
  refine (hb.run_induction (P := fun t => CacheBooks t ∧ UpdateBooks t) ⟨hc, h⟩ ?_).2
  intro ev _ t u hb ⟨hcache, hupdates⟩ m
  exact ⟨hcache.touch (m.touch hb), hupdates.move hb hcache m⟩

/-! ## What comes of an update

From the story follows what the caller may rely on.  Most of it is about the single step in which
the call ends, because storing the list and telling the caller are one move: there is no state in
which the one has happened and the other has not. -/

/-- Nothing more happens to a caller that has been told something. -/
theorem CallerBooks.thread_of_returned (h : CallerBooks t) (hsub : s.journal <:+ t.journal)
    (hr : .returned c o ∈ s.journal) :
    thread Note.caller? c s.journal = thread Note.caller? c t.journal := by
  have hstory := h.story c
  have hs : thread Note.caller? c s.journal <:+ thread Note.caller? c t.journal :=
    thread_suffix hsub
  have hm : .returned c o ∈ thread Note.caller? c s.journal := mem_thread.mpr ⟨hr, rfl⟩
  generalize thread Note.caller? c t.journal = l at hstory hs
  generalize t.callers.get? c = w at hstory
  have htail : .returned c o ∉ l.tail := by cases hstory <;> simp
  cases l with
  | nil => exact List.suffix_nil.mp hs
  | cons n l => exact (List.suffix_cons_iff.mp hs).resolve_right fun hs => htail (hs.subset hm)

namespace UpdateStory

theorem done (h : UpdateStory p c id s) (hb : Books s) (hr : .returned c .updated ∈ s.journal) :
    ∃ privileges, .ended id p (.listed (.value privileges)) ∈ s.journal
      ∧ thread Note.update? c s.journal
        = [.stored p privileges (.call id (.update c)), .began id p .listing (.update c)] := by
  cases h with
  | underway hc ho => exact absurd hr (hb.callers.not_returned_of_update hc ho _)
  | renewed he _ ht => exact ⟨_, he, ht⟩
  | failed _ _ hr' ho => exact absurd (hb.callers.returned_unique hr' hr) ho
  | left hx => exact absurd hr (hb.callers.not_returned_of_cancelled hx _)

theorem undone (h : UpdateStory p c id s) (hb : Books s) (hr : .returned c .updated ∉ s.journal) :
    (∀ privileges, .ended id p (.listed (.value privileges)) ∉ s.journal)
      ∧ thread Note.update? c s.journal = [.began id p .listing (.update c)] := by
  cases h with
  | underway hc _ ht => exact ⟨fun S => hb.calls.not_ended hc, ht⟩
  | renewed _ hr' => exact absurd hr' hr
  | failed he hset _ _ ht =>
    refine ⟨fun S he' => ?_, ht⟩
    obtain ⟨-, rfl⟩ := (hb.calls.of_ended he).2.2 _ _ he'
    cases hset
  | left _ hd ht => exact ⟨fun S => hb.calls.not_ended_of_dropped hd p _, ht⟩

end UpdateStory

/-! ### The step in which the call ends

An event can end one call only.  If it is that of the update, the step is known as a whole: which
list is stored, if any, what the caller is told, and that fetches are as they were. -/

/-- The owner of an update that can end makes of it what there is to make of it. -/
theorem step_of_ends (hid : s.calls.get? id = some call) (ho : call.owner = .update c)
    (he : Ends ev s id call ending r) :
    s.step ev = (s.endCall id call.principal ending).settleUpdate id c call.principal r := by
  have hatt : s.attended call = true := by rw [State.attended, ho]
  rw [he.step_eq hid hatt, State.settle, ho]

/-- An event ends one call. -/
theorem Ends.unique {id' : Id} {call' : Call} {ending' : Ending} {r' : Reply PrivilegeSet}
    (h : Ends ev s id call ending r) (h' : Ends ev s id' call' ending' r') : id = id' := by
  cases h with
  | answer hev =>
    cases h' with
    | answer hev' => rw [hev] at hev'; injection hev'
    | expire hev' => rw [hev] at hev'; cases hev'
  | expire hev =>
    cases h' with
    | answer hev' => rw [hev] at hev'; cases hev'
    | expire hev' => rw [hev] at hev'; injection hev'

/-- The end of an update has no part in any fetch. -/
theorem still_of_ends (h : Books s) (hid : s.calls.get? id = some call)
    (ho : call.owner = .update c) (he : Ends ev s id call ending r) : Still s (s.step ev) := by
  rw [step_of_ends hid ho he]
  rcases (Move.updateEnds hid ho he).flight h with hs | ⟨_, _, _, _, hev, -⟩ |
    ⟨id', call', _, _, hid', ho', -, he', -⟩
  · exact hs
  · cases he with
    | answer hev' => rw [hev'] at hev; cases hev
    | expire hev' => rw [hev'] at hev; cases hev
  · obtain rfl := he.unique he'
    rw [hid, Option.some_inj] at hid'
    rw [← hid', ho] at ho'
    cases ho'

namespace Updating

theorem run (h : Updating p c id s) (es : List Event) : Updating p c id (s.run es) where
  books := h.books.run es
  cache := h.cache.run h.books es
  updates := h.updates.run h.books h.cache es
  began := (h.books.suffix_run es).subset h.began

theorem story (h : Updating p c id s) : UpdateStory p c id s := (h.updates.begun h.began).2.2

/-- The call that has been begun asks for the list of the principal. -/
theorem of_get? (h : Updating p c id s) (hc : s.calls.get? id = some call) :
    call.principal = p ∧ call.question = .listing := by
  obtain ⟨rfl, hq, -⟩ := h.books.calls.began_unique h.began (h.books.calls.began_of_get? hc)
  exact ⟨rfl, hq.symm⟩

/-- A call that ends in a step ends as the owner of an update can have it end. -/
theorem ends_of_ended (h : Updating p c id s) (hc : s.calls.get? id = some call)
    (he : .ended id p ending ∈ (s.step ev).journal) : ∃ r, Ends ev s id call ending r := by
  obtain ⟨call', hc', -, hk⟩ := step_ended h.books (h.books.calls.not_ended hc) he
  rw [hc, Option.some_inj] at hc'
  subst hc'
  cases hk with
  | list hends => exact ⟨_, hends⟩
  | verdict _ hq => rw [(h.of_get? hc).2] at hq; cases hq

/-- **Whoever has made an update is told in the step in which its call ends.** -/
theorem step_told (h : Updating p c id s) (hn : .returned c o ∉ s.journal)
    (hr : .returned c o ∈ (s.step ev).journal) : ∃ call ending r, s.calls.get? id = some call
      ∧ call.owner = .update c ∧ Ends ev s id call ending r ∧ o = (Request.update p).answer r
      ∧ s.step ev = (s.endCall id p ending).settleUpdate id c p r := by
  have ht : Updating p c id (s.step ev) := h.run [ev]
  have hsub := (h.books.suffix_run [ev]).subset
  cases h.story with
  | renewed _ hr' | failed _ _ hr' =>
    exact absurd (ht.books.callers.returned_unique hr (hsub hr') ▸ hr') hn
  | left hx => exact absurd hr (ht.books.callers.not_returned_of_cancelled (hsub hx) o)
  | @underway call hc ho =>
    -- Of the stories that can follow, those in which the caller is told say how its call ended.
    obtain ⟨ending, he⟩ : ∃ ending, .ended id p ending ∈ (s.step ev).journal := by
      cases ht.story with
      | underway hc' ho' => exact absurd hr (ht.books.callers.not_returned_of_update hc' ho' o)
      | renewed he | failed he => exact ⟨_, he⟩
      | left hx => exact absurd hr (ht.books.callers.not_returned_of_cancelled hx o)
    obtain ⟨r, hends⟩ := h.ends_of_ended hc he
    have hstep := step_of_ends hc ho hends
    rw [(h.of_get? hc).1] at hstep
    refine ⟨call, ending, r, hc, ho, hends, ht.books.callers.returned_unique hr ?_, hstep⟩
    rw [hstep, State.settleUpdate_eq]
    exact List.mem_cons_self

/-- When the caller is told something its own call has ended, and no fetch is touched. -/
theorem still_of_told (h : Updating p c id s) (hn : .returned c o ∉ s.journal)
    (hr : .returned c o ∈ (s.step ev).journal) : Still s (s.step ev) := by
  obtain ⟨call, ending, r, hc, ho, he, -⟩ := h.step_told hn hr
  exact still_of_ends h.books hc ho he

/-- **When the caller is told that the entry is renewed it is.** -/
theorem cache_of_updated (h : Updating p c id s) (hn : .returned c .updated ∉ s.journal)
    (hr : .returned c .updated ∈ (s.step ev).journal) : ∃ privileges,
      .ended id p (.listed (.value privileges)) ∈ (s.step ev).journal
        ∧ (s.step ev).cache = s.cache.put p privileges := by
  obtain ⟨call, ending, r, -, -, he, ho, hstep⟩ := h.step_told hn hr
  cases r with
  | value S =>
    rw [hstep, State.settleUpdate_eq, he.listed rfl]
    exact ⟨S, List.mem_cons_of_mem _ (List.mem_cons_of_mem _ List.mem_cons_self), rfl⟩
  | failed cause | crashed => cases ho

/-- **When the caller is told anything else the cache is what it was.** -/
theorem cache_of_failed (h : Updating p c id s) (hn : .returned c o ∉ s.journal)
    (hr : .returned c o ∈ (s.step ev).journal) (hne : o ≠ .updated) :
    (s.step ev).cache = s.cache := by
  obtain ⟨call, ending, r, -, -, he, ho, hstep⟩ := h.step_told hn hr
  cases r with
  | value S => exact absurd ho hne
  | failed cause | crashed =>
    rw [hstep, State.settleUpdate_eq]
    rfl

/-- A caller that has neither been told anything nor given up is told when its call ends. -/
theorem told_of_ends (h : Updating p c id s) (hr : ∀ o, .returned c o ∉ s.journal)
    (hx : .cancelled c ∉ s.journal) : ∃ call, s.calls.get? id = some call
      ∧ ∀ ev ending r, Ends ev s id call ending r →
        .returned c ((Request.update p).answer r) ∈ (s.step ev).journal := by
  cases h.story with
  | renewed _ hr' | failed _ _ hr' => exact absurd hr' (hr _)
  | left hx' => exact absurd hx' hx
  | @underway call hc ho =>
    refine ⟨call, hc, fun ev ending r he => ?_⟩
    rw [step_of_ends hc ho he, State.settleUpdate_eq, (h.of_get? hc).1]
    exact List.mem_cons_self

/-- Nothing more is noted of an update when its caller has been told that the entry is renewed. -/
theorem unnoted (h : Updating p c id t) (hb : Books s) (hu : UpdateBooks s)
    (hsub : s.journal <:+ t.journal) (hr : .returned c .updated ∈ s.journal) :
    ∀ m ∈ s.notesTo t, m.update? ≠ some c := by
  -- The caller had joined its call when it was told, so all of the story was known by then.
  have hjoined : .joined c id ∈ s.journal := by
    have hj : .joined c id ∈ thread Note.caller? c t.journal :=
      mem_thread.mpr ⟨(h.updates.begun h.began).2.1, rfl⟩
    rw [← h.books.callers.thread_of_returned hsub hr] at hj
    exact (mem_thread.mp hj).1
  have hbegan : .began id p .listing (.update c) ∈ s.journal := by
    obtain ⟨_, p', q', ow, _, -, -, hbegan, -⟩ := hb.callers.returned_of_joined hjoined hr
    obtain ⟨rfl, rfl, rfl⟩ := h.books.calls.began_unique h.began (hsub.subset hbegan)
    exact hbegan
  obtain ⟨S, -, hs⟩ := (hu.begun hbegan).2.2.done hb hr
  obtain ⟨S', -, ht⟩ := h.story.done h.books (hsub.subset hr)
  rw [← State.notesTo_append hsub, thread_append, hs] at ht
  have hlength := congrArg List.length ht
  rw [List.length_append] at hlength
  intro m hm he
  have hpos := List.length_pos_of_mem (mem_thread.mpr ⟨hm, he⟩)
  simp only [List.length_cons, List.length_nil] at hlength
  omega

end Updating

/-! ### What stays afterwards

Once it is renewed an entry stays as it is as long as nobody writes, clears or renews it, and the
notes in the journal say whether anybody has. -/

/-- Nothing overwrites the entry that an update has renewed, if no other update does. -/
theorem Unrivalled.kept (h : Unrivalled p s t) (hb : Books s) (hu : UpdateBooks s)
    (hsub : s.journal <:+ t.journal) (ht : Updating p c id t) :
    ∀ m ∈ s.notesTo t, m.overwrites p = false := by
  intro m hm
  by_contra hover
  rw [Bool.not_eq_false] at hover
  obtain ⟨S, id', c', rfl⟩ := h.updates m hm hover
  have hj := State.notesTo_append hsub
  have hstored : .stored p S (.call id' (.update c')) ∈ t.journal :=
    hj ▸ List.mem_append_left _ hm
  have hrival : Updating p c' id' t := ⟨ht.books, ht.cache, ht.updates, (ht.cache.listed hstored).1⟩
  have hreturned : .returned c' .updated ∈ t.journal := by
    by_contra hn
    have hmem : Note.stored p S (.call id' (.update c')) ∈ thread Note.update? c' t.journal :=
      mem_thread.mpr ⟨hstored, rfl⟩
    rw [(hrival.story.undone ht.books hn).2] at hmem
    simp at hmem
  rw [← hj] at hreturned
  rcases List.mem_append.mp hreturned with hnew | hold
  · exact h.last c' hnew (ht.updates.begun hrival.began).1
  · exact hrival.unnoted hb hu hsub hold _ hm rfl

/-- An entry stays as long as nothing overwrites it. -/
theorem CacheBooks.kept (hs : CacheBooks s) (ht : CacheBooks t) (hsub : s.journal <:+ t.journal)
    (hn : ∀ m ∈ s.notesTo t, m.overwrites p = false) {privileges : PrivilegeSet}
    (hp : s.cache.get? p = some privileges) : t.cache.get? p = some privileges := by
  rw [hs.source] at hp
  obtain ⟨⟨S, o⟩, hsource, rfl⟩ := Option.map_eq_some_iff.mp hp
  obtain ⟨newer, older, hj, hnewer⟩ := source_eq_some_iff.mp hsource
  have hlater : Engine.source p t.journal = some (S, o) := by
    refine source_eq_some_iff.mpr ⟨s.notesTo t ++ newer, older, ?_, fun m hm => ?_⟩
    · rw [← State.notesTo_append hsub, hj, List.append_assoc]
    · exact (List.mem_append.mp hm).elim (hn m) (hnewer m)
  rw [ht.source, hlater]
  rfl

/-- **An update does all of what it is for, or nothing.** -/
theorem Updating.allOrNothing (h : Updating p c id s) : AllOrNothing p c id s where
  alone i := by
    have hj := (h.updates.begun h.began).2.1
    exact ⟨fun hi => h.books.callers.joined_unique hi hj, fun hi => hi ▸ hj⟩
  done := h.story.done h.books
  undone := h.story.undone h.books
  told := h.told_of_ends
  lands _ hn hr := ⟨h.still_of_told hn hr, h.cache_of_updated hn hr⟩
  fails _ _ hne hn hr := ⟨h.still_of_told hn hr, h.cache_of_failed hn hr hne⟩
  leaves := by
    refine ⟨Moves.still h.books ?_ ?_ ?_ (step_moves h.books.orderly _),
      step_cache_eq h.books.orderly rfl⟩
    · exact fun _ _ _ he => by cases he
    · exact fun _ _ he => by cases he
    · exact fun _ he => by cases he
  last ev es hn hr hrival := by
    obtain ⟨S, he, hcache⟩ := h.cache_of_updated hn hr
    have ht : Updating p c id (s.step ev) := h.run [ev]
    have hsub := ht.books.suffix_run es
    have hput : (s.step ev).cache.get? p = some S := by rw [hcache, Table.get?_put_self]
    refine ⟨S, he, ht.cache.kept (ht.run es).cache hsub ?_ hput⟩
    exact hrival.kept ht.books ht.updates hsub (ht.run es)

end

/-- **An update is made whole or not at all.**  In every run of an engine that caches, whoever has
an entry renewed begins one call of its own, whatever else goes on; and whatever happens then, the
entry is renewed in the step in which the caller is told so, with the list that this call has come
back with, or nothing has come of it.  No fetch is touched in any of its steps, and of several
updates of one entry the last to be told has the say. -/
theorem update_all_or_nothing (settings : Settings) (checks : Bool)
    (ha : settings.cachingActive = true) (es : List Event) (p : Principal)
    (hd : ((State.initial settings checks).run es).dropped = false) :
    let s := (State.initial settings checks).run es
    let t := s.step (.update p)
    (s.notesTo t = [.began (s.next + 1) p .listing (.update s.next), .joined s.next (s.next + 1),
        .called s.next (.update p)] ∧ t.cache = s.cache ∧ Still s t)
      ∧ ∀ es', AllOrNothing p s.next (s.next + 1) (t.run es') := by
  intro s t
  have hinit := Books.initial settings checks
  have hb : Books s := hinit.run es
  have hs : s.settings = settings := hinit.orderly.settings_run es
  have hcache := (CacheBooks.initial settings checks).run hinit es
  have hupdates : UpdateBooks s :=
    (UpdateBooks.initial settings checks).run hinit (.initial settings checks) es
  have hstep : t = (s.enter (.update p)).startOwnCall s.next p .listing (.update s.next) := by
    have hactive : (s.enter (.update p)).settings.cachingActive = true := hs ▸ ha
    show s.step (.update p) = _
    rw [State.step, if_neg (by rw [hd]; simp), State.update]
    exact if_pos hactive
  have hj : t.journal = [.began (s.next + 1) p .listing (.update s.next),
      .joined s.next (s.next + 1), .called s.next (.update p)] ++ s.journal := by
    rw [hstep]
    rfl
  refine ⟨⟨State.notesTo_eq _ hj, step_cache_eq hb.orderly rfl, ?_⟩, fun es' => ?_⟩
  · exact Moves.still hb (fun _ _ _ he => by cases he) (fun _ _ he => by cases he)
      (fun _ he => by cases he) (step_moves hb.orderly _)
  · have ht : Updating p s.next (s.next + 1) t :=
      ⟨hb.run [.update p], hcache.run hb [.update p], hupdates.run hb hcache [.update p],
        hj ▸ List.mem_cons_self⟩
    exact (ht.run es').allOrNothing

/-- While a fetch is registered, two updates of one principal overlap, and the first is the last to
be told; a third fails.  The entry is that of the first, and the fetch is as it was. -/
theorem update_all_or_nothing_of_three :
    let p : Principal := ⟨.user, "alice"⟩
    let e : Entity := .space "docs"
    let old : PrivilegeSet := .ofList []
    let new : PrivilegeSet := .ofList [⟨e, .read⟩]
    let s := (State.initial { authorization := true } true).run [.enforce e p .read]
    let t := (s.step (.update p)).run [.update p, .answer 5 (.value old)]
    let u := t.step (.answer 3 (.value new))
    let v := u.run [.update p, .answer 7 (.failed (.reported "down" []))]
    s.dropped = false ∧ AllOrNothing p 2 3 t ∧ t.cache.get? p = some old
      ∧ (∃ privileges, .ended 3 p (.listed (.value privileges)) ∈ u.journal
        ∧ v.cache.get? p = some privileges)
      ∧ v.cache.get? p = some new ∧ v.fetches.get? p = some (.underway 1) := by
  intro p e old new s t u v
  have hs : s.dropped = false := rfl
  have ht : AllOrNothing p 2 3 t :=
    (update_all_or_nothing { authorization := true } true rfl [.enforce e p .read] p hs).2
      [.update p, .answer 5 (.value old)]
  have hkept : ∀ m ∈ u.notesTo v, m.overwrites p = false := by decide
  have htold : ∀ m ∈ u.notesTo v, ∀ c ∈ m.caller?, m ≠ .returned c .updated := by decide
  have hrival : Unrivalled p u v := by
    refine ⟨fun m hm hover => ?_, fun c hc => absurd rfl (htold _ hc c rfl)⟩
    rw [hkept m hm] at hover
    cases hover
  exact ⟨hs, ht, by decide, ht.last _ _ (by decide) (by decide) hrival, by decide, by decide⟩

end Gatekeeper.Engine

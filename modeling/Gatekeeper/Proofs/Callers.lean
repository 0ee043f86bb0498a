import Gatekeeper.Proofs.Calls

/-!
# The story of a caller

A caller asks, may come to wait, and is then told something once, unless it gives up before.  What
it is told is settled at once, or is what its request makes of the end of the call that it waited
for.

* `CallerStory` — all that the journal can say of one caller.
* `CallerBooks` — what callers have to do with the calls and fetches that they wait for.
* `Move.callerBooks` — the moves keep the books.

The books are kept move by move.  What makes this bearable is that a move touches the story of
one caller, or that of all who wait for one fetch, and leaves the others' stories as they are;
the notes of a caller are picked out of the journal by `thread`, so that what is noted of others
does not show.  A story refers to the end of a call, and what has ended stays in the journal, so
stories stay true when the journal grows (`CallerStory.mono`).
-/

set_option autoImplicit false

namespace Gatekeeper.Engine

/-- The end of a call will be the end of the waiting. -/
def Waiting.served : Waiting → Bool
  | .fetch .. | .call _ => true
  | .pass _ | .worker _ => false

/-- What the journal says of a caller, newest first, given what the caller waits for. -/
inductive CallerStory (settings : Settings) (journal : List Note) (c : Id) :
    Option Waiting → List Note → Prop
  | unknown : CallerStory settings journal c none []
  | asking (r : Request) : CallerStory settings journal c none [.called c r]
  | unserved {r : Request} {w : Waiting} (h : Waits r w) (hw : w.served = false) :
    CallerStory settings journal c (some w) [.called c r]
  | served {r : Request} {w : Waiting} (id : Id) (h : Waits r w) (hw : w.served = true) :
    CallerStory settings journal c (some w) [.joined c id, .called c r]
  | answered {r : Request} {o : Outcome} (h : Fits settings r o) :
    CallerStory settings journal c none [.returned c o, .called c r]
  | told {r : Request} {p : Principal} {q : Question} {o : Owner} {id : Id} {ending : Ending}
    (hm : Makes c r p q o) (hb : .began id p q o ∈ journal) (he : .ended id p ending ∈ journal) :
    CallerStory settings journal c none
      [.returned c (r.outcome o settings.backendTimeout ending), .joined c id, .called c r]
  | left (r : Request) : CallerStory settings journal c none [.cancelled c, .called c r]
  | leftCall (r : Request) (id : Id) :
    CallerStory settings journal c none [.cancelled c, .joined c id, .called c r]

/-- A story stays true when more is added to the journal. -/
theorem CallerStory.mono {settings : Settings} {journal journal' : List Note} {c : Id}
    {w : Option Waiting} {l : List Note} (h : CallerStory settings journal c w l)
    (hj : ∀ n ∈ journal, n ∈ journal') : CallerStory settings journal' c w l := by
  cases h with
  | unknown => exact .unknown
  | asking r => exact .asking r
  | unserved h hw => exact .unserved h hw
  | served id h hw => exact .served id h hw
  | answered h => exact .answered h
  | told hm hb he => exact .told hm (hj _ hb) (hj _ he)
  | left r => exact .left r
  | leftCall r id => exact .leftCall r id

/-- What callers have to do with the calls and fetches that they wait for. -/
structure CallerBooks (s : State) : Prop where
  story : ∀ c, CallerStory s.settings s.journal c (s.callers.get? c)
    (thread Note.caller? c s.journal)
  fetchers : ∀ {c p e a}, s.callers.get? c = some (.fetch p e a) →
    ∃ id, s.fetches.get? p = some (.underway id) ∧ .joined c id ∈ s.journal
  waiters : ∀ {c id}, s.callers.get? c = some (.call id) →
    .joined c id ∈ s.journal ∧ ∃ call, s.calls.get? id = some call ∧ call.owner.caller? = some c
  owners : ∀ {id call c}, s.calls.get? id = some call → call.owner.caller? = some c →
    s.callers.get? c = some (.call id)
      ∧ ∃ r, .called c r ∈ s.journal ∧ Makes c r call.principal call.question call.owner

namespace CallerBooks

variable {s t : State}

theorem initial (settings : Settings) (checks : Bool) : CallerBooks (.initial settings checks) where
  story _ := .unknown
  fetchers h := by cases h
  waiters h := by cases h
  owners h := by cases h

/-! ## Reading the books

A `CallerStory` has a handful of forms, and these lemmas read off them what is asked for
elsewhere: that a caller is told something once, that it joins one call, and what it was told if
the call that it joined has ended. -/

theorem thread_of_asking (h : CallerBooks s) {c : Id} {r : Request} (ha : Asking s c r) :
    thread Note.caller? c s.journal = [.called c r] := by
  have hs := h.story c
  rw [ha.idle] at hs
  have hm : .called c r ∈ thread Note.caller? c s.journal := mem_thread.mpr ⟨ha.called, rfl⟩
  have hall : ∀ n ∈ thread Note.caller? c s.journal, n = .called c r := by
    intro n hn
    exact ha.silent n (mem_thread.mp hn).1 (mem_thread.mp hn).2
  generalize thread Note.caller? c s.journal = l at hs hm hall
  cases hs with
  | unknown => exact absurd hm List.not_mem_nil
  | asking r' => rw [hall _ List.mem_cons_self]
  | answered | told | left | leftCall => cases hall _ List.mem_cons_self

theorem thread_of_unserved (h : CallerBooks s) {c : Id} {w : Waiting}
    (hc : s.callers.get? c = some w) (hw : w.served = false) :
    ∃ r, Waits r w ∧ thread Note.caller? c s.journal = [.called c r] := by
  have hs := h.story c
  rw [hc] at hs
  generalize thread Note.caller? c s.journal = l at hs
  cases hs with
  | unserved hr _ => exact ⟨_, hr, rfl⟩
  | served id hr hw' =>
    rw [hw] at hw'
    cases hw'

/-- Whoever waits for the end of a call has joined one call. -/
theorem thread_of_served (h : CallerBooks s) {c : Id} {w : Waiting}
    (hc : s.callers.get? c = some w) (hw : w.served = true) {id : Id}
    (hj : .joined c id ∈ s.journal) :
    ∃ r, Waits r w ∧ thread Note.caller? c s.journal = [.joined c id, .called c r] := by
  have hs := h.story c
  rw [hc] at hs
  have hm : .joined c id ∈ thread Note.caller? c s.journal := mem_thread.mpr ⟨hj, rfl⟩
  generalize thread Note.caller? c s.journal = l at hs hm
  cases hs with
  | unserved hr hw' =>
    rw [hw] at hw'
    cases hw'
  | @served r w id' hr _ =>
    obtain rfl : id = id' := by simpa using hm
    exact ⟨r, hr, rfl⟩

/-- Nothing is known of the caller that asks next. -/
theorem thread_next (ho : Orderly s) : thread Note.caller? s.next s.journal = [] :=
  thread_eq_nil fun _ hn hc => absurd hn (ho.silent_next hc)

/-- The notes in the journal about a caller are those of its story. -/
theorem read (h : CallerBooks s) (c : Id) : ∃ w l, s.callers.get? c = w
    ∧ CallerStory s.settings s.journal c w l ∧ ∀ n, n.caller? = some c → (n ∈ s.journal ↔ n ∈ l) :=
  ⟨_, _, rfl, h.story c, fun _ hn => (mem_thread.trans (and_iff_left hn)).symm⟩

/-- Whoever was told something at once has joined no call, and is told nothing else. -/
theorem of_answered (h : CallerBooks s) {c : Id} {r : Request} {o : Outcome}
    (hs : [.returned c o, .called c r] <:+ thread Note.caller? c s.journal) :
    (∀ id, .joined c id ∉ s.journal) ∧ ∀ o', .returned c o' ∈ s.journal → o' = o := by
  have hstory := h.story c
  have hmem : ∀ n ∈ s.journal, n.caller? = some c → n ∈ thread Note.caller? c s.journal :=
    fun n hn hc => mem_thread.mpr ⟨hn, hc⟩
  generalize thread Note.caller? c s.journal = l at hs hstory hmem
  generalize s.callers.get? c = w at hstory
  cases hstory with
  | @answered r' o' hf =>
    have hl := hs.eq_of_length rfl
    rw [← hl] at hmem
    refine ⟨fun id hj => ?_, fun o'' ho => ?_⟩
    · simpa using hmem _ hj rfl
    · simpa using hmem _ ho rfl
  | _ => simp [List.suffix_cons_iff] at hs

/-- Whoever has joined a call and been told something was told what came of that call. -/
theorem returned_of_joined (h : CallerBooks s) {c id : Id} {o : Outcome}
    (hj : .joined c id ∈ s.journal) (hr : .returned c o ∈ s.journal) :
    ∃ r p q ow ending, .called c r ∈ s.journal ∧ Makes c r p q ow ∧ .began id p q ow ∈ s.journal
      ∧ .ended id p ending ∈ s.journal ∧ o = r.outcome ow s.settings.backendTimeout ending := by
  obtain ⟨w, l, -, hs, hl⟩ := h.read c
  have hmj := (hl _ rfl).mp hj
  have hmr := (hl _ rfl).mp hr
  cases hs with
  | @told r p q ow id' ending hm hb he =>
    obtain rfl : id = id' := by simpa using hmj
    obtain rfl : o = r.outcome ow s.settings.backendTimeout ending := by simpa using hmr
    exact ⟨r, p, q, ow, ending, (hl _ rfl).mpr (by simp), hm, hb, he, rfl⟩
  | _ => simp at hmj hmr

/-! ### Callers that have joined a call

Whoever has joined a call waits for it, has given up, or was told what came of it.  Together with
the books of calls this settles what becomes of a caller once its call has ended. -/

/-- Whoever has joined a call waits for its end, unless it has given up or been told something. -/
theorem joined_cases (h : CallerBooks s) {c id : Id} (hj : .joined c id ∈ s.journal) :
    (∃ w, s.callers.get? c = some w ∧ w.served = true) ∨ .cancelled c ∈ s.journal
      ∨ ∃ o, .returned c o ∈ s.journal := by
  obtain ⟨w, l, hw, hs, hl⟩ := h.read c
  have hm := (hl _ rfl).mp hj
  cases hs with
  | served id' _ hserved => exact Or.inl ⟨_, hw, hserved⟩
  | told => exact Or.inr (Or.inr ⟨_, (hl _ rfl).mpr List.mem_cons_self⟩)
  | leftCall => exact Or.inr (Or.inl ((hl _ rfl).mpr List.mem_cons_self))
  | _ => simp at hm

/-- A caller joins one call. -/
theorem joined_unique (h : CallerBooks s) {c id id' : Id} (hj : .joined c id ∈ s.journal)
    (hj' : .joined c id' ∈ s.journal) : id = id' := by
  obtain ⟨w, l, -, hs, hl⟩ := h.read c
  have hm := (hl _ rfl).mp hj
  have hm' := (hl _ rfl).mp hj'
  clear hl
  cases hs <;> simp_all

/-- Whoever waits for the end of a call waits for the fetch that makes it, or has made it itself. -/
theorem call_of_served (h : CallerBooks s) (hcalls : CallBooks s) {c id : Id} {w : Waiting}
    (hc : s.callers.get? c = some w) (hw : w.served = true) (hj : .joined c id ∈ s.journal) :
    ∃ call, s.calls.get? id = some call
      ∧ ((∃ e a, w = .fetch call.principal e a ∧ call.owner = .fetch)
        ∨ call.owner.caller? = some c) := by
  cases w with
  | fetch p e a =>
    obtain ⟨id', hp, hj'⟩ := h.fetchers hc
    obtain rfl : id = id' := h.joined_unique hj hj'
    obtain ⟨call, hid, ho, rfl⟩ := hcalls.underway hp
    exact ⟨call, hid, Or.inl ⟨e, a, rfl, ho⟩⟩
  | call id' =>
    obtain ⟨hj', call, hid, ho⟩ := h.waiters hc
    obtain rfl : id = id' := h.joined_unique hj hj'
    exact ⟨call, hid, Or.inr ho⟩
  | pass n | worker n => cases hw

/-- **Whoever has joined a call that has ended has been told what came of it**, unless it has given
up. -/
theorem told_of_ended (h : CallerBooks s) (hcalls : CallBooks s) {c id : Id} {p : Principal}
    {q : Question} {o : Owner} {ending : Ending} (hj : .joined c id ∈ s.journal)
    (hb : .began id p q o ∈ s.journal) (he : .ended id p ending ∈ s.journal)
    (hc : .cancelled c ∉ s.journal) : ∃ r, .called c r ∈ s.journal ∧ Makes c r p q o
      ∧ .returned c (r.outcome o s.settings.backendTimeout ending) ∈ s.journal := by
  obtain ⟨hnone, -, hunique⟩ := hcalls.of_ended he
  rcases h.joined_cases hj with ⟨w, hw, hserved⟩ | hcancel | ⟨out, hr⟩
  · obtain ⟨call, hid, -⟩ := h.call_of_served hcalls hw hserved hj
    rw [hnone] at hid
    cases hid
  · exact absurd hcancel hc
  · obtain ⟨r, p', q', o', ending', hcalled, hmakes, hb', he', rfl⟩ := h.returned_of_joined hj hr
    obtain ⟨rfl, rfl, rfl⟩ := hcalls.began_unique hb hb'
    obtain ⟨-, rfl⟩ := hunique p ending' he'
    exact ⟨r, hcalled, hmakes, hr⟩

/-! ### What happens once

A caller asks once, joins one call at most and is told one thing at most, which is an answer to
what it has asked. -/

/-- An update asks for a list. -/
theorem listing_of_update (h : CallerBooks s) {c id : Id} {call : Call}
    (hid : s.calls.get? id = some call) (ho : call.owner = .update c) :
    call.question = .listing := by
  obtain ⟨-, r, -, hm⟩ := h.owners (c := c) hid (by rw [ho]; rfl)
  rw [ho] at hm
  exact hm.listing_of_update

/-- Whoever has joined a call has asked for something. -/
theorem called_of_joined (h : CallerBooks s) {c id : Id} (hj : .joined c id ∈ s.journal) :
    ∃ r, .called c r ∈ s.journal := by
  obtain ⟨w, l, -, hs, hl⟩ := h.read c
  have hm := (hl _ rfl).mp hj
  cases hs with
  | unknown => exact absurd hm List.not_mem_nil
  | _ => exact ⟨_, (hl _ rfl).mpr (List.mem_of_getLast? rfl)⟩

/-- A caller asks once. -/
theorem called_unique (h : CallerBooks s) {c : Id} {r r' : Request} (hc : .called c r ∈ s.journal)
    (hc' : .called c r' ∈ s.journal) : r = r' := by
  obtain ⟨w, l, -, hs, hl⟩ := h.read c
  have hm := (hl _ rfl).mp hc
  have hm' := (hl _ rfl).mp hc'
  clear hl
  cases hs <;> simp_all

/-- A caller is told something once. -/
theorem returned_unique (h : CallerBooks s) {c : Id} {o o' : Outcome}
    (hr : .returned c o ∈ s.journal) (hr' : .returned c o' ∈ s.journal) : o = o' := by
  obtain ⟨w, l, -, hs, hl⟩ := h.read c
  have hm := (hl _ rfl).mp hr
  have hm' := (hl _ rfl).mp hr'
  clear hl
  cases hs <;> simp_all

/-- What a caller was told is an answer to what it asked. -/
theorem fits (h : CallerBooks s) {c : Id} {r : Request} {o : Outcome} (hc : .called c r ∈ s.journal)
    (hr : .returned c o ∈ s.journal) : Fits s.settings r o := by
  obtain ⟨w, l, -, hs, hl⟩ := h.read c
  have hm := (hl _ rfl).mp hc
  have hm' := (hl _ rfl).mp hr
  cases hs with
  | @answered r' o' hf =>
    obtain rfl : r = r' := by simpa using hm
    obtain rfl : o = o' := by simpa using hm'
    exact hf
  | @told r' p q ow id ending hmakes _ _ =>
    obtain rfl : r = r' := by simpa using hm
    obtain rfl : o = r.outcome ow s.settings.backendTimeout ending := by simpa using hm'
    exact hmakes.fits _ _ _
  | _ => simp at hm hm'

/-- Whoever has given up is told nothing. -/
theorem not_returned_of_cancelled (h : CallerBooks s) {c : Id} (hc : .cancelled c ∈ s.journal)
    (o : Outcome) : .returned c o ∉ s.journal := by
  intro hr
  obtain ⟨w, l, -, hs, hl⟩ := h.read c
  have hm := (hl _ rfl).mp hc
  have hm' := (hl _ rfl).mp hr
  clear hl
  cases hs <;> simp_all

/-! ## Keeping the books

What is done to callers comes in few kinds: one asks, one comes to wait, one is told something or
gives up, and many are told at once when a fetch ends.  Each lemma here says that one such change
keeps the books, whatever the state around it; where other tables change as well, only what the
books say of them is asked for. -/

/-- A change in which callers and their own calls have no part. -/
theorem keep (h : CallerBooks s) (hs : t.settings = s.settings) (hf : t.fetches = s.fetches)
    (hw : t.callers = s.callers)
    (hc : ∀ id call, call.owner.caller? ≠ none →
      (t.calls.get? id = some call ↔ s.calls.get? id = some call))
    (hsub : ∀ n ∈ s.journal, n ∈ t.journal)
    (hj : ∀ c, thread Note.caller? c t.journal = thread Note.caller? c s.journal) :
    CallerBooks t where
  story c := by
    rw [hs, hw, hj]
    exact (h.story c).mono hsub
  fetchers hc' := by
    obtain ⟨id, hid, hm⟩ := h.fetchers (hw ▸ hc')
    exact ⟨id, hf ▸ hid, hsub _ hm⟩
  waiters hc' := by
    obtain ⟨hm, call, hid, ho⟩ := h.waiters (hw ▸ hc')
    exact ⟨hsub _ hm, call, (hc _ _ (by simp [ho])).mpr hid, ho⟩
  owners hid ho := by
    obtain ⟨hcall, r, hr, hm⟩ := h.owners ((hc _ _ (by simp [ho])).mp hid) ho
    exact ⟨hw ▸ hcall, r, hsub _ hr, hm⟩

/-- Notes are added that are about no caller. -/
theorem tell (h : CallerBooks s) (new : List Note) (hs : t.settings = s.settings)
    (hf : t.fetches = s.fetches) (hw : t.callers = s.callers) (hc : t.calls = s.calls)
    (hj : t.journal = new ++ s.journal) (hn : ∀ n ∈ new, n.caller? = none) : CallerBooks t := by
  refine h.keep hs hf hw (fun id call _ => by rw [hc]) ?_ fun c => ?_
  · rw [hj]
    exact fun n => List.mem_append_right _
  · rw [hj]
    exact thread_append_of_none hn

/-- One caller goes on, who makes no call of its own.  Fetches may be added, but none goes. -/
theorem turn (h : CallerBooks s) {c : Id} (hs : t.settings = s.settings)
    (hf : ∀ {p id}, s.fetches.get? p = some (.underway id) →
      t.fetches.get? p = some (.underway id))
    (hc : ∀ id call, call.owner.caller? ≠ none →
      (t.calls.get? id = some call ↔ s.calls.get? id = some call))
    (hw : ∀ c', c' ≠ c → t.callers.get? c' = s.callers.get? c')
    (hsub : ∀ n ∈ s.journal, n ∈ t.journal)
    (hj : ∀ c', c' ≠ c → thread Note.caller? c' t.journal = thread Note.caller? c' s.journal)
    (hbefore : ∀ id, s.callers.get? c ≠ some (.call id))
    (hafter : ∀ id, t.callers.get? c ≠ some (.call id))
    (story : CallerStory t.settings t.journal c (t.callers.get? c)
      (thread Note.caller? c t.journal))
    (fetcher : ∀ {p e a}, t.callers.get? c = some (.fetch p e a) →
      ∃ id, t.fetches.get? p = some (.underway id) ∧ .joined c id ∈ t.journal) : CallerBooks t where
  story c' := by
    by_cases he : c' = c
    · exact he ▸ story
    · rw [hs, hw c' he, hj c' he]
      exact (h.story c').mono hsub
  fetchers {c' p e a} hc' := by
    by_cases he : c' = c
    · subst he
      exact fetcher hc'
    · rw [hw c' he] at hc'
      obtain ⟨id, hid, hm⟩ := h.fetchers hc'
      exact ⟨id, hf hid, hsub _ hm⟩
  waiters {c' id} hc' := by
    by_cases he : c' = c
    · subst he
      exact absurd hc' (hafter id)
    · rw [hw c' he] at hc'
      obtain ⟨hm, call, hid, ho⟩ := h.waiters hc'
      exact ⟨hsub _ hm, call, (hc _ _ (by simp [ho])).mpr hid, ho⟩
  owners {id call c'} hid ho := by
    obtain ⟨hcall, r, hr, hm⟩ := h.owners ((hc _ _ (by simp [ho])).mp hid) ho
    by_cases he : c' = c
    · subst he
      exact absurd hcall (hbefore id)
    · rw [hw c' he]
      exact ⟨hcall, r, hsub _ hr, hm⟩

/-! ### Callers with calls of their own

The call and the waiting begin together and end together. -/

/-- One caller makes a call of its own. -/
theorem own (h : CallerBooks s) (ho : Orderly s) {c : Id} {r : Request}
    {p : Principal} {q : Question}
    {o : Owner} (ha : Asking s c r) (hm : Makes c r p q o) (hfetch : o ≠ .fetch) :
    CallerBooks (s.startOwnCall c p q o) := by
  have hown : o.caller? = some c := by
    cases hm with
    | fetch => exact absurd rfl hfetch
    | _ => rfl
  have hwaits : Waits r (.call s.next) := by
    cases hm with
    | fetch => exact absurd rfl hfetch
    | list e p a => exact .check e p a _
    | check e p a => exact .check e p a _
    | update p => exact .update p _
  have hsub : ∀ n ∈ s.journal, n ∈ (s.startOwnCall c p q o).journal :=
    fun n hn => List.mem_cons_of_mem _ (List.mem_cons_of_mem _ hn)
  have hj : ∀ c', thread Note.caller? c' (s.startOwnCall c p q o).journal
      = thread Note.caller? c' (.joined c s.next :: s.journal) := fun c' => rfl
  exact {
    story := fun c' => by
      rw [hj]
      by_cases he : c' = c
      · subst he
        have hget : (s.startOwnCall c' p q o).callers.get? c' = some (.call s.next) :=
          Table.get?_put_self
        rw [hget, thread_cons_self rfl, h.thread_of_asking ha]
        exact .served s.next hwaits rfl
      · have hget : (s.startOwnCall c p q o).callers.get? c' = s.callers.get? c' :=
          Table.get?_put_of_ne he
        rw [hget, thread_cons_of_ne fun e => he (Option.some_inj.mp e).symm]
        exact (h.story c').mono hsub
    fetchers := fun {c' p' e a} hc' => by
      rcases Table.get?_put_eq_some_iff.mp hc' with ⟨-, hw⟩ | ⟨-, hc'⟩
      · cases hw
      · obtain ⟨id, hid, hmem⟩ := h.fetchers hc'
        exact ⟨id, hid, hsub _ hmem⟩
    waiters := fun {c' id} hc' => by
      rcases Table.get?_put_eq_some_iff.mp hc' with ⟨rfl, hw⟩ | ⟨-, hc'⟩
      · injection hw with hw
        subst hw
        exact ⟨List.mem_cons_of_mem _ List.mem_cons_self, _, Table.get?_put_self, hown⟩
      · obtain ⟨hmem, call, hid, hcall⟩ := h.waiters hc'
        refine ⟨hsub _ hmem, call, ?_, hcall⟩
        exact (Table.get?_put_of_ne (Nat.ne_of_lt (ho.calls hid))).trans hid
    owners := fun {id call c'} hid hcall => by
      rcases Table.get?_put_eq_some_iff.mp hid with ⟨rfl, rfl⟩ | ⟨-, hid⟩
      · obtain rfl : c = c' := Option.some_inj.mp (hown.symm.trans hcall)
        exact ⟨Table.get?_put_self, r, hsub _ ha.called, hm⟩
      · obtain ⟨hget, r', hr', hm'⟩ := h.owners hid hcall
        have hne : c' ≠ c := by
          rintro rfl
          rw [ha.idle] at hget
          cases hget
        exact ⟨(Table.get?_put_of_ne hne).trans hget, r', hsub _ hr', hm'⟩ }

/-- The call that one caller made is over, and the caller no longer waits. -/
theorem part (h : CallerBooks s) {c id : Id} {call : Call} (hid : s.calls.get? id = some call)
    (ho : call.owner.caller? = some c) (hs : t.settings = s.settings) (hf : t.fetches = s.fetches)
    (hw : t.callers = s.callers.erase c) (hc : t.calls = s.calls.erase id)
    (hsub : ∀ n ∈ s.journal, n ∈ t.journal)
    (hj : ∀ c', c' ≠ c → thread Note.caller? c' t.journal = thread Note.caller? c' s.journal)
    (story : CallerStory t.settings t.journal c none (thread Note.caller? c t.journal)) :
    CallerBooks t where
  story c' := by
    by_cases he : c' = c
    · subst he
      rw [hw, Table.get?_erase_self]
      exact story
    · rw [hs, hw, Table.get?_erase_of_ne he, hj c' he]
      exact (h.story c').mono hsub
  fetchers hc' := by
    rw [hw] at hc'
    obtain ⟨id', hid', hm⟩ := h.fetchers (Table.get?_erase_eq_some_iff.mp hc').2
    exact ⟨id', hf ▸ hid', hsub _ hm⟩
  waiters {c' id'} hc' := by
    rw [hw] at hc'
    obtain ⟨hne, hc'⟩ := Table.get?_erase_eq_some_iff.mp hc'
    obtain ⟨hm, call', hid', ho'⟩ := h.waiters hc'
    have hne' : id' ≠ id := by
      rintro rfl
      rw [hid, Option.some_inj] at hid'
      rw [← hid', ho] at ho'
      exact hne (Option.some_inj.mp ho').symm
    refine ⟨hsub _ hm, call', ?_, ho'⟩
    rw [hc, Table.get?_erase_of_ne hne']
    exact hid'
  owners {id' call' c'} hid' ho' := by
    rw [hc] at hid'
    obtain ⟨hne, hid'⟩ := Table.get?_erase_eq_some_iff.mp hid'
    obtain ⟨hget, r, hr, hm⟩ := h.owners hid' ho'
    have hne' : c' ≠ c := by
      rintro rfl
      have hget' := (h.owners hid ho).1
      rw [hget, Option.some_inj] at hget'
      injection hget' with hget'
      exact hne hget'
    refine ⟨?_, r, hsub _ hr, hm⟩
    rw [hw, Table.get?_erase_of_ne hne']
    exact hget

/-! ### Callers that share a call

When the call of a fetch ends, all who wait for it are told.  This is the one change that touches
many stories at once, and each of them goes on in the same way. -/

/-- A caller that waits for the fetch of a principal waits no more once the fetch is settled. -/
theorem get?_besides_of_fetch {callers : Table Id Waiting} {c : Id} {p : Principal} {e : Entity}
    {a : Action} (hc : callers.get? c = some (.fetch p e a)) :
    (callers.filter fun _ w => w.besides p).get? c = none := by
  rw [Table.get?_filter, hc, Option.filter_some, if_neg]
  exact fun hb => Waiting.besides_eq_true_iff.mp hb e a rfl

/-- A caller that does not wait for the fetch of a principal goes on as before. -/
theorem get?_besides_of_ne {callers : Table Id Waiting} {c : Id} {p : Principal}
    (hc : ∀ e a, callers.get? c ≠ some (.fetch p e a)) :
    (callers.filter fun _ w => w.besides p).get? c = callers.get? c := by
  rw [Table.get?_filter]
  cases hw : callers.get? c with
  | none => rfl
  | some w =>
    rw [Option.filter_some, if_pos]
    exact Waiting.besides_eq_true_iff.mpr fun e a he => hc e a (he ▸ hw)

/-- Each caller that waits for the fetch of a principal is told once. -/
theorem thread_told {c : Id} {p : Principal} {e : Entity} {a : Action}
    (f : Id × Entity × Action → Outcome) (hc : s.callers.get? c = some (.fetch p e a)) :
    thread Note.caller? c ((s.fetchWaiters p).map fun x => Note.returned x.1 (f x)).reverse
      = [.returned c (f (c, e, a))] :=
  thread_map_reverse (fun x => x.1) (fun _ => rfl) (State.fetchWaiters_nodup _ _)
    (State.mem_fetchWaiters_iff.mpr hc)

/-- Nobody else is told anything. -/
theorem caller?_ne_of_told {c : Id} {p : Principal} (f : Id × Entity × Action → Outcome)
    (hc : ∀ e a, s.callers.get? c ≠ some (.fetch p e a)) :
    ∀ n ∈ ((s.fetchWaiters p).map fun x => Note.returned x.1 (f x)).reverse,
      n.caller? ≠ some c := by
  intro n hn hcaller
  obtain ⟨⟨c', e, a⟩, hmem, rfl⟩ := List.mem_map.mp (List.mem_reverse.mp hn)
  obtain rfl : c' = c := Option.some_inj.mp hcaller
  exact hc e a (State.mem_fetchWaiters_iff.mp hmem)

/-- The call of a fetch is over, and whoever waited for it is told what came of it. -/
theorem answer (h : CallerBooks s) (hcalls : CallBooks s) {id : Id} {call : Call}
    {ending : Ending} {r : Reply PrivilegeSet} (hid : s.calls.get? id = some call)
    (ho : call.owner = .fetch) (hq : call.question = .listing)
    (hr : ∀ q : Request, q.answer r = q.outcome call.owner s.settings.backendTimeout ending) :
    CallerBooks ((s.endCall id call.principal ending).settleFetch id call.principal r) := by
  rw [State.settleFetch_eq]
  generalize htold : ((s.endCall id call.principal ending).fetchWaiters call.principal).map
    (fun x => Note.returned x.1 ((Request.enforce x.2.1 call.principal x.2.2).answer r)) = told
  generalize hold : r.notes call.principal (.call id .fetch)
    ++ (s.endCall id call.principal ending).journal = old
  have hbegan : .began id call.principal call.question call.owner ∈ old :=
    hold ▸ List.mem_append_right _ (List.mem_cons_of_mem _ (hcalls.began_of_get? hid))
  have hended : .ended id call.principal ending ∈ old :=
    hold ▸ List.mem_append_right _ List.mem_cons_self
  have hsub : ∀ n ∈ s.journal, n ∈ told.reverse ++ old := fun n hn =>
    List.mem_append_right _ (hold ▸ List.mem_append_right _ (List.mem_cons_of_mem _ hn))
  have hthread : ∀ c, thread Note.caller? c old = thread Note.caller? c s.journal := by
    intro c
    rw [← hold, thread_append_of_none]
    · exact thread_cons_of_none rfl
    · intro n hn
      obtain ⟨S, -, rfl⟩ := Reply.mem_notes_iff.mp hn
      rfl
  -- The callers that are told, and the others.
  have htell : ∀ {c e a}, s.callers.get? c = some (.fetch call.principal e a) →
      thread Note.caller? c (told.reverse ++ old)
        = .returned c ((Request.enforce e call.principal a).answer r)
          :: thread Note.caller? c s.journal := by
    intro c e a hc
    rw [thread_append, hthread, ← htold]
    exact congrArg (· ++ thread Note.caller? c s.journal) (thread_told _ hc)
  have hother : ∀ {c}, (∀ e a, s.callers.get? c ≠ some (.fetch call.principal e a)) →
      thread Note.caller? c (told.reverse ++ old) = thread Note.caller? c s.journal := by
    intro c hc
    rw [thread_append_of_ne, hthread]
    rw [← htold]
    exact caller?_ne_of_told _ hc
  exact {
    story := fun c => by
      by_cases hc : ∃ e a, s.callers.get? c = some (.fetch call.principal e a)
      · obtain ⟨e, a, hc⟩ := hc
        obtain ⟨id', hid', hj⟩ := h.fetchers hc
        rw [hcalls.registered hid ho, Option.some_inj] at hid'
        injection hid' with hid'
        subst hid'
        obtain ⟨q, hw, hthr⟩ := h.thread_of_served hc rfl hj
        cases hw
        have hm : Makes c (.enforce e call.principal a) call.principal call.question
            call.owner := by
          rw [ho, hq]
          exact .fetch e call.principal a
        refine (congrArg₂ (CallerStory _ _ c) (get?_besides_of_fetch hc) (htell hc)).mpr ?_
        rw [hthr, hr]
        exact .told hm (List.mem_append_right _ hbegan) (List.mem_append_right _ hended)
      · have hc' : ∀ e a, s.callers.get? c ≠ some (.fetch call.principal e a) :=
          fun e a he => hc ⟨e, a, he⟩
        refine (congrArg₂ (CallerStory _ _ c) (get?_besides_of_ne hc') (hother hc')).mpr ?_
        exact (h.story c).mono hsub
    fetchers := fun {c p e a} hc => by
      obtain ⟨hc, hb⟩ := Table.get?_filter_eq_some_iff.mp hc
      have hp : p ≠ call.principal := fun hp => Waiting.besides_eq_true_iff.mp hb e a (hp ▸ rfl)
      obtain ⟨id', hid', hj⟩ := h.fetchers hc
      exact ⟨id', (Reply.get?_unregister_of_ne hp).trans hid', hsub _ hj⟩
    waiters := fun {c id'} hc => by
      obtain ⟨hj, call', hid', hown⟩ := h.waiters (Table.get?_filter_eq_some_iff.mp hc).1
      have hne : id' ≠ id := by
        rintro rfl
        rw [hid, Option.some_inj] at hid'
        rw [← hid', ho] at hown
        cases hown
      exact ⟨hsub _ hj, call', (Table.get?_erase_of_ne hne).trans hid', hown⟩
    owners := fun {id' call' c} hid' hown => by
      obtain ⟨hne, hid'⟩ := Table.get?_erase_eq_some_iff.mp hid'
      obtain ⟨hget, q, hq, hm⟩ := h.owners hid' hown
      refine ⟨?_, q, hsub _ hq, hm⟩
      have hne' : ∀ e a, s.callers.get? c ≠ some (.fetch call.principal e a) := by
        intro e a he
        rw [hget] at he
        cases he
      exact (get?_besides_of_ne hne').trans hget }

/-! ### Callers that wait for no call

A caller may wait for a pass or for the end of a worker, or be told something without waiting. -/

/-- A caller that waits for no call is told something. -/
theorem finish (h : CallerBooks s) {c : Id} {r : Request} {o : Outcome}
    (hthr : thread Note.caller? c s.journal = [.called c r])
    (hget : ∀ id, s.callers.get? c ≠ some (.call id)) (hf : Fits s.settings r o) :
    CallerBooks (s.finish c o) := by
  have hnone : (s.finish c o).callers.get? c = none := Table.get?_erase_self
  refine h.turn (c := c) rfl id (fun _ _ _ => Iff.rfl) (fun c' hc => Table.get?_erase_of_ne hc)
    (fun n => List.mem_cons_of_mem _) (fun c' hc => ?_) hget (fun id => ?_) ?_ fun hc => ?_
  · exact thread_cons_of_ne fun e => hc (Option.some_inj.mp e).symm
  · rw [hnone]
    simp
  · rw [hnone]
    have ht : thread Note.caller? c (s.finish c o).journal = [.returned c o, .called c r] := by
      rw [State.finish, State.note, thread_cons_self rfl, hthr]
    rw [ht]
    exact .answered hf
  · rw [hnone] at hc
    cases hc

/-- A caller comes to wait for something that is not a call. -/
theorem wait (h : CallerBooks s) (new : List Note) {c : Id} {r : Request} {w : Waiting}
    (ha : Asking s c r) (hw : Waits r w) (hserved : w.served = false) (hs : t.settings = s.settings)
    (hf : t.fetches = s.fetches) (hc : t.calls = s.calls) (hcallers : t.callers = s.callers.put c w)
    (hj : t.journal = new ++ s.journal) (hn : ∀ n ∈ new, n.caller? = none) : CallerBooks t := by
  have hget : t.callers.get? c = some w := by rw [hcallers, Table.get?_put_self]
  have hthr : ∀ c', thread Note.caller? c' t.journal = thread Note.caller? c' s.journal := by
    intro c'
    rw [hj]
    exact thread_append_of_none hn
  refine h.turn (c := c) hs (fun hp => hf ▸ hp) (fun _ _ _ => by rw [hc]) (fun c' hne => ?_)
    (fun n hm => ?_) (fun c' _ => hthr c') (fun id => ?_) (fun id => ?_) ?_ fun hc' => ?_
  · rw [hcallers, Table.get?_put_of_ne hne]
  · rw [hj]
    exact List.mem_append_right _ hm
  · rw [ha.idle]
    simp
  · rw [hget]
    rintro ⟨⟩
    cases hserved
  · rw [hget, hthr, h.thread_of_asking ha]
    exact .unserved hw hserved
  · rw [hget] at hc'
    injection hc' with hc'
    subst hc'
    cases hserved

/-- A caller that made no call of its own gives up. -/
theorem leave (h : CallerBooks s) {c : Id} {w : Waiting} (hc : s.callers.get? c = some w)
    (hcall : ∀ id, w ≠ .call id) : CallerBooks (s.leave c) := by
  have hnone : (s.leave c).callers.get? c = none := Table.get?_erase_self
  refine h.turn (c := c) rfl id (fun _ _ _ => Iff.rfl) (fun c' hne => Table.get?_erase_of_ne hne)
    (fun n => List.mem_cons_of_mem _) (fun c' hne => ?_) (fun id => ?_) (fun id => ?_) ?_
    fun hc => ?_
  · exact thread_cons_of_ne fun e => hne (Option.some_inj.mp e).symm
  · rw [hc]
    intro he
    exact hcall id (Option.some_inj.mp he)
  · rw [hnone]
    simp
  · have ht : thread Note.caller? c (s.leave c).journal
        = .cancelled c :: thread Note.caller? c s.journal := thread_cons_self rfl
    rw [hnone, ht]
    cases w with
    | fetch p e a =>
      obtain ⟨id, -, hj⟩ := h.fetchers hc
      obtain ⟨r, -, hthr⟩ := h.thread_of_served hc rfl hj
      rw [hthr]
      exact .leftCall r id
    | call id => exact absurd rfl (hcall id)
    | pass n | worker n =>
      obtain ⟨r, -, hthr⟩ := h.thread_of_unserved hc rfl
      rw [hthr]
      exact .left r
  · rw [hnone] at hc
    cases hc

theorem dropPass (h : CallerBooks s) (n : Id) : CallerBooks (s.dropPass n) := by
  rw [State.dropPass_eq]
  refine h.keep rfl rfl rfl (fun id call hown => ?_) (fun n => List.mem_append_right _) fun c => ?_
  · rw [Table.get?_filter_eq_some_iff, decide_eq_true_iff]
    refine ⟨And.left, fun hid => ⟨hid, fun ho => hown ?_⟩⟩
    rw [ho]
    rfl
  · refine thread_append_of_none fun m hm => ?_
    obtain ⟨id, -, rfl⟩ := List.mem_map.mp (List.mem_reverse.mp hm)
    rfl

/-- The call of a caller is over, and the caller is told what came of it. -/
theorem serve (h : CallerBooks s) (hcalls : CallBooks s) (stored : List Note) {c id : Id}
    {call : Call} {r : Request} {ending : Ending} (hid : s.calls.get? id = some call)
    (ho : call.owner.caller? = some c) (hr : .called c r ∈ s.journal) (hs : t.settings = s.settings)
    (hf : t.fetches = s.fetches) (hw : t.callers = s.callers.erase c)
    (hc : t.calls = s.calls.erase id) (hstored : ∀ n ∈ stored, n.caller? = none)
    (hj : t.journal = .returned c (r.outcome call.owner s.settings.backendTimeout ending)
      :: (stored ++ .ended id call.principal ending :: s.journal)) : CallerBooks t := by
  have hsub : ∀ n ∈ s.journal, n ∈ t.journal := by
    intro n hn
    rw [hj]
    exact List.mem_cons_of_mem _ (List.mem_append_right _ (List.mem_cons_of_mem _ hn))
  have hthr : ∀ c', thread Note.caller? c'
      (stored ++ .ended id call.principal ending :: s.journal)
        = thread Note.caller? c' s.journal := by
    intro c'
    rw [thread_append_of_none hstored]
    exact thread_cons_of_none rfl
  refine h.part hid ho hs hf hw hc hsub (fun c' hne => ?_) ?_
  · rw [hj, thread_cons_of_ne fun e => hne (Option.some_inj.mp e).symm, hthr]
  · obtain ⟨hget, r', hr', hm⟩ := h.owners hid ho
    obtain rfl := h.called_unique hr hr'
    obtain ⟨hjoined, -⟩ := h.waiters hget
    obtain ⟨r'', -, hthread⟩ := h.thread_of_served hget rfl hjoined
    have hmem : .called c r ∈ thread Note.caller? c s.journal := mem_thread.mpr ⟨hr, rfl⟩
    obtain rfl : r = r'' := by
      rw [hthread] at hmem
      simpa using hmem
    have ht : thread Note.caller? c t.journal
        = .returned c (r.outcome call.owner s.settings.backendTimeout ending)
          :: [.joined c id, .called c r] := by
      rw [hj, thread_cons_self rfl, hthr, hthread]
    rw [ht, ← hs]
    refine .told hm (hsub _ (hcalls.began_of_get? hid)) ?_
    rw [hj]
    exact List.mem_cons_of_mem _ (List.mem_append_right _ List.mem_cons_self)

/-! ## The larger moves

Some moves change callers together with their calls.  They are put together from the changes
above, or are such a change with one thing added: a caller who comes to wait for a fetch at once
hears of its call, and one who gives up on a call of its own takes the call along. -/

/-- A call that no caller owns begins. -/
theorem owned_put (ho : Orderly s) {new : Call} (hnew : new.owner.caller? = none) (id : Id)
    (call : Call) (hown : call.owner.caller? ≠ none) :
    (s.calls.put s.next new).get? id = some call ↔ s.calls.get? id = some call := by
  refine Table.get?_put_eq_some_iff.trans ⟨?_, fun hid => Or.inr ⟨?_, hid⟩⟩
  · rintro (⟨-, rfl⟩ | ⟨-, hid⟩)
    · exact absurd hnew hown
    · exact hid
  · exact Nat.ne_of_lt (ho.calls hid)

/-- A call that no caller owns is over. -/
theorem owned_erase {id : Id} {call : Call} (hid : s.calls.get? id = some call)
    (hown : call.owner.caller? = none) (id' : Id) (call' : Call)
    (hown' : call'.owner.caller? ≠ none) :
    (s.calls.erase id).get? id' = some call' ↔ s.calls.get? id' = some call' := by
  refine Table.get?_erase_eq_some_iff.trans ⟨And.right, fun hid' => ⟨?_, hid'⟩⟩
  rintro rfl
  rw [hid, Option.some_inj] at hid'
  exact hown' (hid' ▸ hown)

/-- Somebody asks. -/
theorem enter (h : CallerBooks s) (ho : Orderly s) (r : Request) : CallerBooks (s.enter r) := by
  have hnone : (s.enter r).callers.get? s.next = none := ho.get?_callers_next
  refine h.turn (c := s.next) rfl id (fun _ _ _ => Iff.rfl) (fun _ _ => rfl)
    (fun n => List.mem_cons_of_mem _) (fun c hc => ?_) (fun id => ?_) (fun id => ?_) ?_ fun hc => ?_
  · exact thread_cons_of_ne fun e => hc (Option.some_inj.mp e).symm
  · rw [ho.get?_callers_next]
    simp
  · rw [hnone]
    simp
  · have ht : thread Note.caller? s.next (s.enter r).journal = [.called s.next r] := by
      rw [State.enter, State.note, thread_cons_self rfl, thread_next ho]
    rw [hnone, ht]
    exact .asking r
  · rw [hnone] at hc
    cases hc

/-- A caller who has asked comes to wait for a fetch, and hears of its call. -/
theorem await (h : CallerBooks s) {c id : Id} {e : Entity} {p : Principal} {a : Action}
    (ha : Asking s c (.enforce e p a)) (hs : t.settings = s.settings)
    (hf : ∀ {q id'}, s.fetches.get? q = some (.underway id') →
      t.fetches.get? q = some (.underway id'))
    (hp : t.fetches.get? p = some (.underway id))
    (hc : ∀ id call, call.owner.caller? ≠ none →
      (t.calls.get? id = some call ↔ s.calls.get? id = some call))
    (hw : t.callers = s.callers.put c (.fetch p e a)) (new : List Note)
    (hj : t.journal = .joined c id :: (new ++ s.journal)) (hnew : ∀ n ∈ new, n.caller? = none) :
    CallerBooks t := by
  have hget : t.callers.get? c = some (.fetch p e a) := by rw [hw, Table.get?_put_self]
  have hmem : .joined c id ∈ t.journal := hj ▸ List.mem_cons_self
  refine h.turn (c := c) hs hf hc (fun c' hc => ?_) (fun n hn => ?_) (fun c' hc => ?_)
    (fun id' => ?_)
    (fun id' => ?_) ?_ fun hc => ?_
  · rw [hw, Table.get?_put_of_ne hc]
  · rw [hj]
    exact List.mem_cons_of_mem _ (List.mem_append_right _ hn)
  · rw [hj, thread_cons_of_ne fun e => hc (Option.some_inj.mp e).symm, thread_append_of_none hnew]
  · rw [ha.idle]
    simp
  · rw [hget]
    simp
  · have ht : thread Note.caller? c t.journal = [.joined c id, .called c (.enforce e p a)] := by
      rw [hj, thread_cons_self rfl, thread_append_of_none hnew, h.thread_of_asking ha]
    rw [hget, ht]
    exact .served id (.fetch e p a) rfl
  · rw [hget] at hc
    injection hc with hc
    injection hc with hq
    subst hq
    exact ⟨id, hp, hmem⟩

/-- A caller gives up that waits for a call of its own. -/
theorem leaveCall (h : CallerBooks s) {c id : Id} (hc : s.callers.get? c = some (.call id)) :
    CallerBooks ((s.leave c).dropCall id) := by
  obtain ⟨hj, call, hid, hown⟩ := h.waiters hc
  obtain ⟨r, -, hthr⟩ := h.thread_of_served hc rfl hj
  rw [State.dropCall_eq (s := s.leave c) hid]
  refine h.part hid hown rfl rfl rfl rfl
    (fun n hn => List.mem_cons_of_mem _ (List.mem_cons_of_mem _ hn)) (fun c' hne => ?_) ?_
  · refine (thread_cons_of_none rfl).trans ?_
    exact thread_cons_of_ne fun e => hne (Option.some_inj.mp e).symm
  · have ht : thread Note.caller? c (.dropped id call.owner :: .cancelled c :: s.journal)
        = [.cancelled c, .joined c id, .called c r] := by
      rw [thread_cons_of_none rfl, thread_cons_self rfl, hthr]
    exact ht.symm ▸ .leftCall r id

/-- A pass has looked at the last of its results, and whoever runs it is told. -/
theorem close (h : CallerBooks s) {n : Id} {d : Driver}
    (hdrive : ∀ {c}, d = .caller c → s.callers.get? c = some (.pass n)) (l : Landing) (r : Report) :
    CallerBooks (({ s.digest n l with passes := (s.digest n l).passes.erase n }.note
      (.passFinished n r)).reportPass d r) := by
  rw [State.digest_eq]
  have hd := h.tell (.passFinished n r :: l.notes n) (t := { s with
    cache := l.reply.put l.principal s.cache
    passes := s.passes.erase n
    journal := .passFinished n r :: (l.notes n ++ s.journal) }) rfl rfl rfl rfl rfl fun m hm => by
      rcases List.mem_cons.mp hm with rfl | hm
      · rfl
      · exact Landing.caller?_notes hm
  cases d with
  | caller c =>
    have hget := hdrive rfl
    obtain ⟨r, hw, hthr⟩ := hd.thread_of_unserved (c := c) hget rfl
    refine hd.finish hthr (fun id => ?_) ?_
    · rw [hget]
      simp
    · cases hw
      trivial
  | worker w => exact hd.keep rfl rfl rfl (fun _ _ _ => Iff.rfl) (fun n => id) fun c => rfl

end CallerBooks

/-! ## Moves

All that is left is to say which of the changes each move makes.  What a caller is told at the
end of a call has to be what its request makes of that end, and that is where `Ends.outcome`
comes in. -/

/-- What comes of a call is what its owner gets. -/
theorem Ends.outcome {ev : Event} {s : State} {id : Id} {call : Call} {ending : Ending}
    {r : Reply PrivilegeSet} (h : Ends ev s id call ending r) (q : Request) :
    q.answer r = q.outcome call.owner s.settings.backendTimeout ending := by
  cases h with
  | answer => rfl
  | expire => cases q <;> rfl

/-- **The moves keep the books of callers.** -/
theorem Move.callerBooks {ev : Event} {s t : State} (ho : Orderly s) (hcalls : CallBooks s)
    (h : CallerBooks s)
    (hdrive : ∀ {n pass c}, s.passes.get? n = some pass → pass.driver = .caller c →
      s.callers.get? c = some (.pass n)) (m : Move ev s t) : CallerBooks t := by
  cases m with
  | quiet hq =>
    obtain ⟨new, hj, hnew⟩ := hq.journal
    refine h.tell new hq.settings hq.fetches hq.callers hq.calls hj fun n hn => ?_
    exact Note.caller?_of_remark (hnew n hn).1
  | enter r => exact h.enter ho r
  | reply ha hfits =>
    refine h.finish (h.thread_of_asking ha) (fun id => ?_) hfits
    rw [ha.idle]
    simp
  | release hc =>
    obtain ⟨r, hw, hthr⟩ := h.thread_of_unserved hc rfl
    refine h.finish hthr (fun id => ?_) ?_
    · rw [hc]
      simp
    · cases hw <;> trivial
  | await ha hw =>
    exact h.wait [] ha hw rfl rfl rfl rfl rfl rfl fun _ hn => absurd hn List.not_mem_nil
  | own ha hm hf he => exact h.own ho ha hm hf
  | join hev ha hf =>
    exact h.await ha rfl (fun hp => hp) hf (fun _ _ _ => Iff.rfl) rfl [] rfl
      fun _ hn => absurd hn List.not_mem_nil
  | @fetch c e p a hev ha hf he =>
    refine h.await ha rfl (fun {q id} hq => ?_) Table.get?_put_self
      (CallerBooks.owned_put ho rfl) rfl
      [.began s.next p .listing .fetch] rfl fun n hn => ?_
    · refine (Table.get?_put_of_ne ?_).trans hq
      rintro rfl
      rw [hf] at hq
      cases hq
    · rw [List.mem_singleton.mp hn]
      rfl
  | fetchEnds hc hfetch ha he =>
    exact h.answer hcalls hc hfetch (hcalls.listing hc (by rw [hfetch]; rfl)) he.outcome
  | @updateEnds id c call ending r hc hown he =>
    have hcaller : call.owner.caller? = some c := by rw [hown]; rfl
    obtain ⟨-, q, hq, hm⟩ := h.owners hc hcaller
    rw [hown] at hm
    obtain rfl := hm.of_update
    rw [State.settleUpdate_eq, he.outcome]
    refine h.serve hcalls _ hc hcaller hq rfl rfl rfl rfl (fun n hn => ?_) rfl
    obtain ⟨S, -, rfl⟩ := Reply.mem_notes_iff.mp hn
    rfl
  | @directEnds id c call e a ending hc hown he =>
    have hcaller : call.owner.caller? = some c := by rw [hown]; rfl
    obtain ⟨-, q, hq, hm⟩ := h.owners hc hcaller
    rw [hown] at hm
    obtain rfl := hm.of_direct
    exact h.serve hcalls [] hc hcaller hq rfl rfl rfl rfl
      (fun _ hn => absurd hn List.not_mem_nil) rfl
  | landing hc hown he =>
    exact h.keep rfl rfl rfl (CallerBooks.owned_erase hc (by rw [hown]; rfl))
      (fun n => List.mem_cons_of_mem _) fun c => thread_cons_of_none rfl
  | @openFor c ha hs hk =>
    refine h.wait [.passStarted s.next s.cache.size] ha (.pass s.next) rfl rfl rfl rfl rfl
      rfl fun n hn => ?_
    rw [List.mem_singleton.mp hn]
    rfl
  | openBy hw hs hk =>
    exact h.keep rfl rfl rfl (fun _ _ _ => Iff.rfl) (fun n => List.mem_cons_of_mem _) fun c =>
      thread_cons_of_none rfl
  | launch hev hp hq hf =>
    exact h.keep rfl rfl rfl (CallerBooks.owned_put ho rfl) (fun n => List.mem_cons_of_mem _)
      fun c => thread_cons_of_none rfl
  | @look n pass l hev hp hh hl hc =>
    rw [State.digest_eq]
    exact h.tell _ rfl rfl rfl rfl rfl fun n hn => Landing.caller?_notes hn
  | close hev hp hh hl hc => exact h.close (hdrive hp) _ _
  | leave hev hc hw =>
    refine h.leave hc fun id => ?_
    rcases hw with ⟨p, e, a, rfl⟩ | ⟨w', rfl⟩ <;> simp
  | leaveCall hev hc => exact h.leaveCall hc
  | @leavePass c n hev hc => exact (h.leave hc fun id e => by cases e).dropPass n
  | abandon hd => exact h.dropPass _
  | write hev =>
    exact h.keep rfl rfl rfl (fun _ _ _ => Iff.rfl) (fun n => List.mem_cons_of_mem _) fun c =>
      thread_cons_of_none rfl
  | clear hev hn =>
    refine h.keep rfl rfl rfl (fun _ _ _ => Iff.rfl) (fun n => List.mem_cons_of_mem _) fun c =>
      thread_cons_of_none ?_
    rcases hn with rfl | ⟨k, rfl⟩ <;> rfl

end Gatekeeper.Engine

import Gatekeeper.Engine.Step
import Mathlib

/-!
# Reading the journal

The journal of an engine is its history.  This file says how the history is read: which callers and
calls a note is about, what the cache holds according to the journal, and what a caller has to be
told when the call that it waited for ends.

* `Note.ids`, `Note.caller?`, `Note.call?`, `Note.remark` — what a note is about.
* `thread` — the notes of one caller or of one call.
* `source` — the set that was stored last for a principal, and where it came from.
* `Ending.verdict?`, `Ending.cause?`, `Ending.set?` — what the end of a call says.
* `Request.outcome` — what a caller with this request is told at the end of a call.
* `Waits`, `Makes`, `Fits` — what a request may wait for, which calls it makes, and which outcomes
  it may have.

Nothing in the engine depends on the journal, so it can hold whatever a statement may want to
refer to.  It is a list with the newest note first.  Statements about the past are about
membership, or about what stands behind a note; statements about a step are about what has been
added in front.
-/

set_option autoImplicit false

namespace Gatekeeper.Engine

/-! ## What a note is about

A note names callers, calls and workers by number.  Those that name neither a caller nor a call,
and do not tell of the cache, are remarks: they are there for whoever reads the log, and nothing
that follows depends on them. -/

/-- The note tells nothing of callers, calls and the cache. -/
def Note.remark : Note → Bool
  | .called .. | .returned .. | .cancelled _ | .joined .. | .began .. | .ended .. | .dropped ..
  | .stored .. | .invalidated _ | .cleared => false
  | _ => true

/-- Numbers in a note that have been drawn. -/
def Note.ids : Note → List Id
  | .called c _ | .returned c _ | .cancelled c | .joined c _ => [c]
  | .began id .. | .ended id .. | .dropped id _ | .stored _ _ (.call id _) => [id]
  | .passStarted n _ => [n]
  | _ => []

/-- The caller whose story the note is a part of. -/
def Note.caller? : Note → Option Id
  | .called c _ | .returned c _ | .cancelled c | .joined c _ => some c
  | _ => none

/-- The call whose story the note is a part of. -/
def Note.call? : Note → Option Id
  | .began id .. | .ended id .. | .dropped id _ => some id
  | _ => none

/-- The caller that made a call itself. -/
def Owner.caller? : Owner → Option Id
  | .update c | .direct c .. => some c
  | .fetch | .pass _ => none

theorem Note.caller?_of_remark {n : Note} (h : n.remark = true) : n.caller? = none := by
  cases n <;> simp_all [Note.remark, Note.caller?]

theorem Note.call?_of_remark {n : Note} (h : n.remark = true) : n.call? = none := by
  cases n <;> simp_all [Note.remark, Note.call?]

theorem Note.mem_ids_of_caller? {n : Note} {c : Id} (h : n.caller? = some c) : c ∈ n.ids := by
  cases n <;> simp_all [Note.caller?, Note.ids]

theorem Note.mem_ids_of_call? {n : Note} {id : Id} (h : n.call? = some id) : id ∈ n.ids := by
  cases n <;> simp_all [Note.call?, Note.ids]

/-! ## Threads

The notes of one caller or of one call, picked out of the journal, tell its story.  `k` says whose
story a note is a part of. -/

section Threads

variable {k : Note → Option Id} {i : Id} {n : Note} {l new : List Note}

/-- The notes of the one with the number `i`, newest first. -/
def thread (k : Note → Option Id) (i : Id) (l : List Note) : List Note :=
  l.filter fun n => k n == some i

theorem mem_thread : n ∈ thread k i l ↔ n ∈ l ∧ k n = some i := by
  rw [thread, List.mem_filter, beq_iff_eq]

theorem thread_cons_self (h : k n = some i) : thread k i (n :: l) = n :: thread k i l := by
  rw [thread, List.filter_cons_of_pos (by rw [h, beq_self_eq_true])]
  rfl

theorem thread_cons_of_ne (h : k n ≠ some i) : thread k i (n :: l) = thread k i l := by
  rw [thread, List.filter_cons_of_neg (by rwa [beq_iff_eq])]
  rfl

theorem thread_append_of_ne (h : ∀ n ∈ new, k n ≠ some i) :
    thread k i (new ++ l) = thread k i l := by
  have hnew : new.filter (fun n => k n == some i) = [] := by
    rw [List.filter_eq_nil_iff]
    intro n hn
    rw [beq_iff_eq]
    exact h n hn
  rw [thread, List.filter_append, hnew, List.nil_append]
  rfl

theorem thread_cons_of_none (h : k n = none) : thread k i (n :: l) = thread k i l :=
  thread_cons_of_ne (by simp [h])

theorem thread_append_of_none (h : ∀ n ∈ new, k n = none) :
    thread k i (new ++ l) = thread k i l :=
  thread_append_of_ne fun n hn => by simp [h n hn]

theorem thread_append {l' : List Note} : thread k i (l ++ l') = thread k i l ++ thread k i l' :=
  List.filter_append ..

theorem thread_suffix {l' : List Note} (h : l <:+ l') : thread k i l <:+ thread k i l' :=
  h.filter _

theorem thread_eq_nil (h : ∀ n ∈ l, k n ≠ some i) : thread k i l = [] := by
  have ht := thread_append_of_ne (l := []) h
  rwa [List.append_nil] at ht

/-- A list of notes about different ones has one note about each. -/
theorem thread_map_reverse {α : Type} {xs : List α} (key : α → Id) {f : α → Note}
    (hk : ∀ x, k (f x) = some (key x)) (hn : (xs.map key).Nodup) {x : α} (hx : x ∈ xs) :
    thread k (key x) (xs.map f).reverse = [f x] := by
  rw [thread, List.filter_reverse, List.filter_map]
  have hf : xs.filter ((fun n => k n == some (key x)) ∘ f) = [x] := by
    induction xs with
    | nil => cases hx
    | cons y ys ih =>
      rw [List.map_cons, List.nodup_cons] at hn
      rcases List.mem_cons.mp hx with rfl | hx
      · rw [List.filter_cons_of_pos (by simp [hk]), List.filter_eq_nil_iff.mpr]
        intro y hy hky
        have he : key y = key x := by simpa [hk] using hky
        exact hn.1 (he ▸ List.mem_map_of_mem hy)
      · rw [List.filter_cons_of_neg, ih hn.2 hx]
        intro hky
        have he : key y = key x := by simpa [hk] using hky
        exact hn.1 (he ▸ List.mem_map_of_mem hx)
  rw [hf]
  rfl

end Threads

/-! ## What the cache holds

The cache can be computed from the journal: the note that a set was stored for a principal, if it
is newer than the last clearing, says what is in the cache for it.  `source` does this
computation and keeps the origin of the set beside it. -/

/-- The set stored last for the principal since the cache was last cleared, with its origin. -/
def source (p : Principal) : List Note → Option (PrivilegeSet × Origin)
  | [] => none
  | .stored q privileges o :: l => if q = p then some (privileges, o) else source p l
  | .invalidated _ :: _ | .cleared :: _ => none
  | _ :: l => source p l

/-- The note tells of a change of the cache. -/
def Note.stores : Note → Bool
  | .stored .. | .invalidated _ | .cleared => true
  | _ => false

/-- The note tells neither of a change of the cache, nor of the end of a call, nor of a caller that
comes to wait for one. -/
def Note.plain : Note → Bool
  | .ended .. | .joined .. => false
  | n => !n.stores

theorem Note.plain_of_remark {n : Note} (h : n.remark = true) : n.plain = true := by
  cases n <;> simp_all [Note.remark, Note.plain, Note.stores]

theorem Note.stores_of_plain {n : Note} (h : n.plain = true) : n.stores = false := by
  cases n <;> simp_all [Note.plain, Note.stores]

theorem source_cons {n : Note} (h : n.stores = false) (p : Principal) (l : List Note) :
    source p (n :: l) = source p l := by
  cases n <;> simp_all [Note.stores, source]

theorem source_append {new : List Note} (h : ∀ n ∈ new, n.stores = false) (p : Principal)
    (l : List Note) : source p (new ++ l) = source p l := by
  induction new with
  | nil => rfl
  | cons n new ih =>
    rw [List.cons_append, source_cons (h n List.mem_cons_self)]
    exact ih fun m hm => h m (List.mem_cons_of_mem _ hm)

/-- Whatever the cache holds has been stored. -/
theorem stored_of_source {p : Principal} {l : List Note} {privileges : PrivilegeSet} {o : Origin}
    (h : source p l = some (privileges, o)) : .stored p privileges o ∈ l := by
  induction l with
  | nil => simp [source] at h
  | cons n l ih =>
    cases n with
    | stored q S o' =>
      rw [source] at h
      split at h
      · rename_i hq
        obtain ⟨rfl, rfl⟩ := Prod.mk.inj (Option.some_inj.mp h)
        rw [hq]
        exact List.mem_cons_self
      · exact List.mem_cons_of_mem _ (ih h)
    | invalidated _ | cleared => simp [source] at h
    | _ => exact List.mem_cons_of_mem _ (ih h)

/-! ## What callers are told

What comes of a call depends on who waits for it: an enforcement decides on the list or the
verdict, an update only wants to know that the list is there.  `Request.outcome` is this
translation, from the end of a call to what the one who made or joined it is told. -/

/-- What a caller with this request makes of a list. -/
def Request.answer : Request → Reply PrivilegeSet → Outcome
  | .enforce e p a, .value privileges => State.decision privileges e p a
  | _, .value _ => .updated
  | _, .failed cause => .failed (.backendUnavailable cause)
  | _, .crashed => .crashed

/-- What a caller with this request makes of a verdict. -/
def Request.verdict : Request → Reply Bool → Outcome
  | .enforce _ _ _, .value true => .allowed
  | .enforce e p a, .value false => .failed (.permissionDenied p e a)
  | _, .value _ => .updated
  | _, .failed cause => .failed (.backendUnavailable cause)
  | _, .crashed => .crashed

/-- What a caller with this request is told at the end of a call of this owner. -/
def Request.outcome (r : Request) (o : Owner) (limit : Span) : Ending → Outcome
  | .listed reply => r.answer reply
  | .checked reply => r.verdict reply
  | .timedOut => .failed (.backendUnavailable (.timedOut o.operation limit))

/-- A list is searched for the privilege that a check is about. -/
theorem verdict_map_mem (e : Entity) (p : Principal) (a : Action) (r : Reply PrivilegeSet) :
    (Request.enforce e p a).verdict (r.map fun privileges => decide (⟨e, a⟩ ∈ privileges))
      = (Request.enforce e p a).answer r := by
  cases r with
  | value privileges =>
    by_cases h : (⟨e, a⟩ : Privilege) ∈ privileges <;>
      simp [Reply.map, Request.verdict, Request.answer, State.decision, h]
  | failed cause => rfl
  | crashed => rfl

/-! ## What the end of a call says

Seen from the outside there are three questions to ask of the end of a call: does it allow the
action, has it failed and why, and did a list come back. -/

/-- What the end of a call says about an action on a resource, if it says anything. -/
def Ending.verdict? (e : Entity) (a : Action) : Ending → Option Bool
  | .listed (.value privileges) => some (decide (⟨e, a⟩ ∈ privileges))
  | .checked (.value b) => some b
  | _ => none

/-- Why a call has failed, if it has failed or come too late. -/
def Ending.cause? (operation : String) (limit : Span) : Ending → Option Cause
  | .listed (.failed cause) | .checked (.failed cause) => some cause
  | .timedOut => some (.timedOut operation limit)
  | _ => none

/-- The list that a call has come back with, if it has. -/
def Ending.set? : Ending → Option PrivilegeSet
  | .listed (.value privileges) => some privileges
  | _ => none

/-! ## Requests

A request fixes which calls can be made for it, what it can come to wait for, and what it can be
told.  These are relations and not functions, since the settings and the cache have their say as
well. -/

/-- A caller with the request may wait for this. -/
inductive Waits : Request → Waiting → Prop
  | fetch (e : Entity) (p : Principal) (a : Action) : Waits (.enforce e p a) (.fetch p e a)
  | check (e : Entity) (p : Principal) (a : Action) (id : Id) : Waits (.enforce e p a) (.call id)
  | update (p : Principal) (id : Id) : Waits (.update p) (.call id)
  | pass (n : Id) : Waits .iterate (.pass n)
  | shutdown (w : Id) : Waits .shutdown (.worker w)
  | stop (w : Id) : Waits (.stop w) (.worker w)

/-- Caller `c` with the request waits for such a call. -/
inductive Makes (c : Id) : Request → Principal → Question → Owner → Prop
  | fetch (e : Entity) (p : Principal) (a : Action) : Makes c (.enforce e p a) p .listing .fetch
  | list (e : Entity) (p : Principal) (a : Action) :
    Makes c (.enforce e p a) p .listing (.direct c e a)
  | check (e : Entity) (p : Principal) (a : Action) :
    Makes c (.enforce e p a) p (.check e a) (.direct c e a)
  | update (p : Principal) : Makes c (.update p) p .listing (.update c)

theorem Makes.of_update {c c' : Id} {r : Request} {p : Principal} {q : Question}
    (h : Makes c r p q (.update c')) : r = .update p := by
  cases h
  rfl

theorem Makes.listing_of_update {c c' : Id} {r : Request} {p : Principal} {q : Question}
    (h : Makes c r p q (.update c')) : q = .listing := by
  cases h
  rfl

theorem Makes.of_direct {c c' : Id} {r : Request} {p : Principal} {q : Question} {e : Entity}
    {a : Action} (h : Makes c r p q (.direct c' e a)) : r = .enforce e p a := by
  cases h <;> rfl

/-- The outcomes that a request can have. -/
def Fits (settings : Settings) : Request → Outcome → Prop
  | .enforce .., .allowed | .enforce .., .crashed => True
  | .enforce e p a, .failed error =>
    error = .permissionDenied p e a ∨ ∃ cause, error = .backendUnavailable cause
  | .update _, .updated | .update _, .crashed => True
  | .update _, .failed error => ∃ cause, error = .backendUnavailable cause
  | .iterate, .refreshed _ => True
  | .iterate, .crashed => State.maxParallelism < max 1 settings.refreshParallelism
  | .start, .started => True
  | .start, .failed error => ∃ fault, error = .configuration fault
  | .shutdown, .stopped | .stop _, .stopped => True
  | .spawn _, .spawned _ => True
  | .spawn _, .failed error => error = .configuration .zeroPeriod
  | _, _ => False

theorem fits_decision (settings : Settings) (privileges : PrivilegeSet) (e : Entity) (p : Principal)
    (a : Action) : Fits settings (.enforce e p a) (State.decision privileges e p a) := by
  rw [State.decision]
  split
  · trivial
  · exact Or.inl rfl

theorem Makes.fits {c : Id} {r : Request} {p : Principal} {q : Question} {o : Owner}
    (h : Makes c r p q o) (settings : Settings) (limit : Span) (ending : Ending) :
    Fits settings r (r.outcome o limit ending) := by
  have henforce : ∀ e a, Fits settings (.enforce e p a)
      ((Request.enforce e p a).outcome o limit ending) := by
    intro e a
    rcases ending with (S | cause | _) | (b | cause | _) | _
    · exact fits_decision settings S e p a
    · exact Or.inr ⟨cause, rfl⟩
    · trivial
    · cases b
      · exact Or.inl rfl
      · trivial
    · exact Or.inr ⟨cause, rfl⟩
    · trivial
    · exact Or.inr ⟨_, rfl⟩
  cases h with
  | fetch e p a => exact henforce e a
  | list e p a => exact henforce e a
  | check e p a => exact henforce e a
  | update p => rcases ending with (S | cause | _) | (b | cause | _) | _ <;> simp [Request.outcome,
      Request.answer, Request.verdict, Fits]

end Gatekeeper.Engine

import Gatekeeper.Proofs.Journal
import Gatekeeper.Proofs.Table

/-!
# What the parts of a step do

Some parts of a step work through a list: everybody who waits for a fetch is told, every call of a
pass is dropped.  This file says in closed form what such a loop leaves behind, so that nothing
after it has to go through the list again.

* `finishEach_eq` — the callers in the list are gone, and the journal says what each was told.
* `mem_fetchWaiters_iff`, `mem_workerWaiters_iff`, `mem_passCalls_iff` — who is in the list.
* `dropPass_eq` — a dropped pass is gone together with its calls.

None of these equations is about a run.  They are there so that the loops of the program are gone
through once, by induction on their lists, and appear afterwards as a table without some of its
entries and a journal with some more notes.
-/

set_option autoImplicit false

namespace Gatekeeper

namespace Table

variable {κ α : Type}

theorem filter_eq_self {t : Table κ α} {f : κ → α → Bool} (h : ∀ e ∈ t.entries, f e.1 e.2 = true) :
    t.filter f = t :=
  ext_entries (List.filter_eq_self.mpr h)

/-- To take away what is not there changes nothing. -/
theorem erase_eq_self [DecidableEq κ] {t : Table κ α} {k : κ} (h : t.get? k = none) :
    t.erase k = t := by
  refine filter_eq_self fun e he => decide_eq_true ?_
  rintro rfl
  exact get?_eq_none_iff.mp h (List.mem_map_of_mem he)

end Table

namespace Engine

/-! ## What a list changes

A list that comes back is stored, noted, and ends the fetch of the principal; a failure does none
of this.  The three effects are given as functions of the reply, so that one equation covers both
cases. -/

namespace Reply

/-- The cache after a list came back for a principal. -/
def put (r : Reply PrivilegeSet) (p : Principal) (t : Table Principal PrivilegeSet) :
    Table Principal PrivilegeSet :=
  match r with
  | .value privileges => t.put p privileges
  | .failed _ | .crashed => t

/-- What the journal says of storing a list that came back. -/
def notes (r : Reply PrivilegeSet) (p : Principal) (o : Origin) : List Note :=
  match r with
  | .value privileges => [.stored p privileges o]
  | .failed _ | .crashed => []

/-- The fetches after a list came back for one of them. -/
def unregister (r : Reply PrivilegeSet) (p : Principal) (t : Table Principal Fetch) :
    Table Principal Fetch :=
  match r with
  | .value _ | .failed _ => t.erase p
  | .crashed => t.put p .broken

theorem mem_notes_iff {r : Reply PrivilegeSet} {p : Principal} {o : Origin} {n : Note} :
    n ∈ r.notes p o ↔ ∃ privileges, r = .value privileges ∧ n = .stored p privileges o := by
  cases r <;> simp [notes]

theorem get?_put_of_ne {r : Reply PrivilegeSet} {p q : Principal}
    {t : Table Principal PrivilegeSet} (h : q ≠ p) : (r.put p t).get? q = t.get? q := by
  cases r with
  | value privileges => exact Table.get?_put_of_ne h
  | _ => rfl

theorem get?_unregister_of_ne {r : Reply PrivilegeSet} {p q : Principal}
    {t : Table Principal Fetch} (h : q ≠ p) : (r.unregister p t).get? q = t.get? q := by
  cases r with
  | crashed => exact Table.get?_put_of_ne h
  | _ => exact Table.get?_erase_of_ne h

/-- Once a list came back, no call is registered for the principal. -/
theorem get?_unregister_self {r : Reply PrivilegeSet} {p : Principal} {t : Table Principal Fetch} :
    (r.unregister p t).get? p = if r = .crashed then some .broken else none := by
  cases r <;> simp [unregister]

end Reply

/-- It is not the fetch of the principal that is waited for. -/
def Waiting.besides (p : Principal) : Waiting → Bool
  | .fetch q .. => decide (q ≠ p)
  | _ => true

theorem Waiting.besides_eq_true_iff {p : Principal} {w : Waiting} :
    w.besides p = true ↔ ∀ e a, w ≠ .fetch p e a := by
  cases w with
  | fetch q e a =>
    rw [besides, decide_eq_true_iff]
    constructor
    · rintro h e' a' ⟨⟩
      exact h rfl
    · rintro h rfl
      exact h e a rfl
  | _ => simp [besides]

namespace State

variable {s : State}

/-! ## Telling many callers

Callers are told one after the other, each in a step of a loop that takes it out of the table and
writes a note.  In the end everybody in the list is out of the table and the notes stand in the
journal in that order.  Who is in the list is said by membership, which is all that proofs ask
for. -/

/-- Tells the callers in a list, one after the other. -/
theorem finishEach_eq {α : Type} (k : α → Id) (o : α → Outcome) (l : List α) (s : State) :
    l.foldl (fun s x => s.finish (k x) (o x)) s =
      { s with
        callers := s.callers.filter fun c _ => decide (c ∉ l.map k)
        journal := (l.map fun x => Note.returned (k x) (o x)).reverse ++ s.journal } := by
  induction l generalizing s with
  | nil => simp [Table.filter_eq_self]
  | cons x l ih =>
    rw [List.foldl_cons, ih]
    have hc : (s.callers.erase (k x)).filter (fun c _ => decide (c ∉ l.map k))
        = s.callers.filter fun c _ => decide (c ∉ (x :: l).map k) := by
      rw [Table.erase_filter]
      congr 1
      funext c _
      simp [not_or]
    simp only [finish, note, hc, List.map_cons, List.reverse_cons, List.append_assoc,
      List.cons_append, List.nil_append]

theorem finishAll_eq (s : State) (cs : List Id) (o : Id → Outcome) :
    s.finishAll cs o =
      { s with
        callers := s.callers.filter fun c _ => decide (c ∉ cs)
        journal := (cs.map fun c => Note.returned c (o c)).reverse ++ s.journal } := by
  have h := finishEach_eq id o cs s
  simpa [finishAll] using h

theorem mem_fetchWaiters_iff {p : Principal} {c : Id} {e : Entity} {a : Action} :
    (c, e, a) ∈ s.fetchWaiters p ↔ s.callers.get? c = some (.fetch p e a) := by
  rw [fetchWaiters, List.mem_filterMap, ← Table.mem_entries_iff]
  constructor
  · rintro ⟨⟨c', w⟩, hm, h⟩
    cases w with
    | fetch q e' a' =>
      simp only [Option.ite_none_right_eq_some, Option.some_inj, Prod.mk.injEq] at h
      obtain ⟨rfl, rfl, rfl, rfl⟩ := h
      exact hm
    | _ => simp at h
  · intro hm
    exact ⟨_, hm, by simp⟩

theorem mem_workerWaiters_iff {w c : Id} :
    c ∈ s.workerWaiters w ↔ s.callers.get? c = some (.worker w) := by
  rw [workerWaiters, List.mem_filterMap, ← Table.mem_entries_iff]
  constructor
  · rintro ⟨⟨c', w'⟩, hm, h⟩
    cases w' with
    | worker w' =>
      simp only [Option.ite_none_right_eq_some, Option.some_inj] at h
      obtain ⟨rfl, rfl⟩ := h
      exact hm
    | _ => simp at h
  · intro hm
    exact ⟨_, hm, by simp⟩

theorem workerWaiters_nodup (s : State) (w : Id) : (s.workerWaiters w).Nodup := by
  have h := s.callers.nodup
  rw [List.Nodup, List.pairwise_map] at h
  rw [workerWaiters, List.Nodup, List.pairwise_filterMap]
  refine h.imp fun {x y} hne c hc c' hc' => ?_
  obtain ⟨c₁, w₁⟩ := x
  obtain ⟨c₂, w₂⟩ := y
  cases w₁ with
  | worker w₁ =>
    cases w₂ with
    | worker w₂ =>
      simp only [Option.ite_none_right_eq_some, Option.some_inj] at hc hc'
      rw [← hc.2, ← hc'.2]
      exact hne
    | _ => simp at hc'
  | _ => simp at hc

/-- Nobody waits twice for the fetch of the principal. -/
theorem fetchWaiters_nodup (s : State) (p : Principal) :
    ((s.fetchWaiters p).map fun x => x.1).Nodup := by
  have h := s.callers.nodup
  rw [List.Nodup, List.pairwise_map] at h
  rw [List.Nodup, List.pairwise_map, fetchWaiters, List.pairwise_filterMap]
  refine h.imp fun {x y} hne u hu v hv => ?_
  obtain ⟨c₁, w₁⟩ := x
  obtain ⟨c₂, w₂⟩ := y
  cases w₁ with
  | fetch p₁ e₁ a₁ =>
    cases w₂ with
    | fetch p₂ e₂ a₂ =>
      simp only [Option.ite_none_right_eq_some, Option.some_inj] at hu hv
      rw [← hu.2, ← hv.2]
      exact hne
    | _ => simp at hv
  | _ => simp at hu

theorem awaited_iff {p : Principal} :
    s.awaited p = true ↔ ∃ c e a, s.callers.get? c = some (.fetch p e a) := by
  rw [awaited, List.any_eq_true]
  constructor
  · rintro ⟨w, hw, h⟩
    obtain ⟨c, hc⟩ := Table.mem_values_iff.mp hw
    cases w with
    | fetch q e a =>
      obtain rfl : q = p := by simpa using h
      exact ⟨c, e, a, hc⟩
    | _ => simp at h
  · rintro ⟨c, e, a, hc⟩
    exact ⟨_, Table.mem_values_iff.mpr ⟨c, hc⟩, by simp⟩

/-- Nobody waits for the fetch of the principal any more, and everybody who did has been told. -/
theorem answerFetch_eq (s : State) (p : Principal) (o : Entity → Action → Outcome) :
    s.answerFetch p o =
      { s with
        callers := s.callers.filter fun _ w => w.besides p
        journal := ((s.fetchWaiters p).map fun x => Note.returned x.1 (o x.2.1 x.2.2)).reverse
          ++ s.journal } := by
  have h := finishEach_eq (fun x => x.1) (fun x => o x.2.1 x.2.2) (s.fetchWaiters p) s
  refine h.trans ?_
  congr 1
  refine Table.ext_entries (List.filter_congr fun x hx => ?_)
  obtain ⟨c, w⟩ := x
  have hw := Table.mem_entries_iff.mp hx
  cases w with
  | fetch q e a =>
    by_cases hq : q = p
    · subst hq
      have hm : c ∈ (s.fetchWaiters q).map fun x => x.1 :=
        List.mem_map.mpr ⟨(c, e, a), mem_fetchWaiters_iff.mpr hw, rfl⟩
      simp only [hm, Waiting.besides, not_true_eq_false, ne_eq, decide_false]
    · have hm : c ∉ (s.fetchWaiters p).map fun x => x.1 := by
        rw [List.mem_map]
        rintro ⟨⟨c', e', a'⟩, h, rfl⟩
        rw [mem_fetchWaiters_iff, hw] at h
        exact hq (by simp_all)
      simp only [hm, hq, Waiting.besides, not_false_eq_true, ne_eq, decide_true]
  | _ =>
    have hm : c ∉ (s.fetchWaiters p).map fun x => x.1 := by
      rw [List.mem_map]
      rintro ⟨⟨c', e', a'⟩, h, rfl⟩
      rw [mem_fetchWaiters_iff, hw] at h
      simp at h
    simp only [hm, Waiting.besides, not_false_eq_true, decide_true]

/-! ## When a call ends

There are four kinds of owners, and what the end of a call means to each is a loop over those who
wait, at most.  These are the equations that the moves of `Gatekeeper.Proofs.Move` are stated
with. -/

theorem settleDirect_eq (s : State) (c : Id) (e : Entity) (p : Principal) (a : Action)
    (r : Reply Bool) : s.settleDirect c e p a r =
      s.finish c ((Request.enforce e p a).verdict r) := by
  rcases r with (_ | _) | cause | _ <;> rfl

/-- A list that came back is stored, and the caller is told. -/
theorem settleUpdate_eq (s : State) (id c : Id) (p : Principal) (r : Reply PrivilegeSet) :
    s.settleUpdate id c p r =
      { s with
        cache := r.put p s.cache
        callers := s.callers.erase c
        journal := .returned c ((Request.update p).answer r)
          :: (r.notes p (.call id (.update c)) ++ s.journal) } := by
  cases r <;> rfl

/-- A list that came back is stored, the fetch is no longer registered or else broken, and everybody
who waited for it has been told. -/
theorem settleFetch_eq (s : State) (id : Id) (p : Principal) (r : Reply PrivilegeSet) :
    s.settleFetch id p r =
      { s with
        cache := r.put p s.cache
        fetches := r.unregister p s.fetches
        callers := s.callers.filter fun _ w => w.besides p
        journal := ((s.fetchWaiters p).map fun x =>
            Note.returned x.1 ((Request.enforce x.2.1 p x.2.2).answer r)).reverse
          ++ (r.notes p (.call id .fetch) ++ s.journal) } := by
  cases r with
  | value privileges =>
    rw [settleFetch, answerFetch_eq]
    rfl
  | failed cause =>
    rw [settleFetch, Error.shared_backendUnavailable, answerFetch_eq]
    rfl
  | crashed =>
    rw [settleFetch, answerFetch_eq]
    rfl

/-! ## Dropping a pass

A pass that is dropped takes its calls with it, which is again a loop.  The calls of a pass are
those that name it as their owner, and each is there once. -/

theorem mem_passCalls_iff {n id : Id} :
    id ∈ s.passCalls n ↔ ∃ call, s.calls.get? id = some call ∧ call.owner = .pass n := by
  rw [passCalls, List.mem_filterMap]
  constructor
  · rintro ⟨⟨id', call⟩, hm, h⟩
    simp only [Option.ite_none_right_eq_some, Option.some_inj] at h
    obtain ⟨ho, rfl⟩ := h
    exact ⟨call, Table.mem_entries_iff.mp hm, ho⟩
  · rintro ⟨call, hc, ho⟩
    exact ⟨(id, call), Table.mem_entries_iff.mpr hc, by simp [ho]⟩

theorem passCalls_nodup (s : State) (n : Id) : (s.passCalls n).Nodup := by
  have h := s.calls.nodup
  rw [List.Nodup, List.pairwise_map] at h
  rw [passCalls, List.Nodup, List.pairwise_filterMap]
  refine h.imp fun {x y} hne id hid id' hid' => ?_
  simp only [Option.ite_none_right_eq_some, Option.some_inj] at hid hid'
  rwa [← hid.2, ← hid'.2]

theorem dropCall_eq {s : State} {id : Id} {call : Call} (hid : s.calls.get? id = some call) :
    s.dropCall id = { s with calls := s.calls.erase id }.note (.dropped id call.owner) := by
  rw [dropCall, hid]

theorem dropEach_eq (o : Owner) (l : List Id) (hl : l.Nodup) (s : State)
    (h : ∀ id ∈ l, ∃ call, s.calls.get? id = some call ∧ call.owner = o) :
    l.foldl dropCall s =
      { s with
        calls := s.calls.filter fun id _ => decide (id ∉ l)
        journal := (l.map fun id => Note.dropped id o).reverse ++ s.journal } := by
  induction l generalizing s with
  | nil => simp [Table.filter_eq_self]
  | cons id l ih =>
    obtain ⟨call, hc, ho⟩ := h id List.mem_cons_self
    rw [List.nodup_cons] at hl
    rw [List.foldl_cons, dropCall_eq hc, ho, ih hl.2]
    · have hf : (s.calls.erase id).filter (fun id' _ => decide (id' ∉ l))
          = s.calls.filter fun id' _ => decide (id' ∉ id :: l) := by
        rw [Table.erase_filter]
        congr 1
        funext c _
        simp [not_or]
      simp only [note, hf, List.map_cons, List.reverse_cons, List.append_assoc, List.cons_append,
        List.nil_append]
    · intro id' hid'
      obtain ⟨call', hc', ho'⟩ := h id' (List.mem_cons_of_mem _ hid')
      have hne : id' ≠ id := fun e => hl.1 (e ▸ hid')
      exact ⟨call', by rw [note, Table.get?_erase_of_ne hne, hc'], ho'⟩

/-- A dropped pass is gone together with its calls. -/
theorem dropPass_eq (s : State) (n : Id) :
    s.dropPass n =
      { s with
        passes := s.passes.erase n
        calls := s.calls.filter fun _ call => decide (call.owner ≠ .pass n)
        journal := ((s.passCalls n).map fun id => Note.dropped id (.pass n)).reverse
          ++ s.journal } := by
  rw [dropPass, dropEach_eq (.pass n) _ (passCalls_nodup s n)]
  · congr 1
    refine Table.ext_entries (List.filter_congr fun x hx => ?_)
    have hw := Table.mem_entries_iff.mp hx
    rw [decide_eq_decide, mem_passCalls_iff]
    constructor
    · intro h ho
      exact h ⟨_, hw, ho⟩
    · rintro h ⟨call, hc, ho⟩
      rw [hw, Option.some_inj] at hc
      exact h (hc ▸ ho)
  · intro id hid
    exact mem_passCalls_iff.mp hid

end State

end Engine

end Gatekeeper

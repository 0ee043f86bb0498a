import Gatekeeper.Proofs.Move

/-!
# Views of an engine

Somebody who cares for certain privileges only does not see all that an engine holds: of a set he
sees those members, of what a caller is told whether such a privilege was denied.

* `Table.Alike` — the same keys, and values that look alike.
* `View` — which privileges of which principals are seen, and what this makes of sets, of what
  callers are told, and of the journal.
* `View.told_decision`, `View.told_answer`, `View.told_verdict` — what is seen of a decision needs
  no more than what is seen of what it is made from.
* `View.all_set` and the like — whoever sees all sees things as they are.

A view is given by a test on privileges, and everything that is seen is computed from that test.
So to look alike is an equation between what is seen on both sides, and can be rewritten with.
-/

set_option autoImplicit false

namespace Gatekeeper

/-! ## Tables that look alike

Tables are compared value by value under the same keys, in the same order. -/

namespace Table

variable {κ α β : Type} [DecidableEq κ] {f : κ → α → β} {t u w : Table κ α} {k : κ} {v v' : α}

/-- The keys are the same, and what is found under them looks alike. -/
structure Alike (f : κ → α → β) (t u : Table κ α) : Prop where
  keys : t.keys = u.keys
  get? : ∀ k, (t.get? k).map (f k) = (u.get? k).map (f k)

namespace Alike

theorem refl (f : κ → α → β) (t : Table κ α) : Alike f t t where
  keys := rfl
  get? _ := rfl

theorem size (h : Alike f t u) : t.size = u.size := by
  rw [← length_keys, ← length_keys, h.keys]

theorem isSome (h : Alike f t u) (k : κ) : (t.get? k).isSome = (u.get? k).isSome := by
  rw [← Option.isSome_map (f := f k), h.get? k, Option.isSome_map]

/-- What is found in one table looks like what is found in the other. -/
theorem of_get? (h : Alike f t u) (hk : t.get? k = some v) :
    ∃ v', u.get? k = some v' ∧ f k v = f k v' := by
  have hget := h.get? k
  rw [hk, Option.map_some] at hget
  obtain ⟨v', hv', he⟩ := Option.map_eq_some_iff.mp hget.symm
  exact ⟨v', hv', he.symm⟩

theorem of_get?_none (h : Alike f t u) (hk : t.get? k = none) : u.get? k = none := by
  have hsome := h.isSome k
  rw [hk] at hsome
  exact Option.isSome_eq_false_iff.mp hsome.symm |> Option.isNone_iff_eq_none.mp

theorem put (h : Alike f t u) (hv : f k v = f k v') : Alike f (t.put k v) (u.put k v') where
  keys := by
    show (Entries.put k v t.entries).map Prod.fst = (Entries.put k v' u.entries).map Prod.fst
    rw [Entries.keys_put, Entries.keys_put]
    exact congrArg (fun l => if k ∈ l then l else l ++ [k]) h.keys
  get? k' := by
    rw [get?_put, get?_put]
    split
    · rename_i he
      rw [he, Option.map_some, Option.map_some, hv]
    · exact h.get? k'

theorem erase (h : Alike f t u) (k : κ) : Alike f (t.erase k) (u.erase k) where
  keys := by
    have hkeys : ∀ t : Table κ α, (t.erase k).keys = t.keys.filter fun k' => decide (k' ≠ k) := by
      intro t
      simp only [Table.keys, Table.erase, Table.filter, List.filter_map, Function.comp_def]
    rw [hkeys, hkeys, h.keys]
  get? k' := by
    rw [get?_erase, get?_erase]
    split
    · rfl
    · exact h.get? k'

/-- If all is seen, tables that look alike are the same. -/
theorem eq (h : Alike f t u) (hf : ∀ k, Function.Injective (f k)) : t = u :=
  ext_get? h.keys fun k => Option.map_injective (hf k) (h.get? k)

end Alike

end Table

namespace Engine

/-! ## What is seen

The view is carried over from sets to everything that has a set in it: replies, endings, notes,
what has landed, passes.  What callers are told has no set in it, but it says whether a privilege
was denied, and that is seen only of privileges that are in view. -/

/-- Which privileges of which principals are seen. -/
structure View where
  sees : Principal → Privilege → Bool
  /-- How checks have ended is seen, whatever they were about. -/
  verdicts : Bool

namespace View

/-- All is seen. -/
def all : View := ⟨fun _ _ => true, true⟩

/-- One privilege of one principal is seen. -/
def one (e : Entity) (p : Principal) (a : Action) : View :=
  ⟨fun q x => decide (q = p ∧ x = ⟨e, a⟩), false⟩

variable (v : View)

/-- What is seen of a set. -/
def set (p : Principal) (S : PrivilegeSet) : PrivilegeSet := S.filter (v.sees p)

/-- What is seen of a list that came back. -/
def reply (p : Principal) (r : Reply PrivilegeSet) : Reply PrivilegeSet := r.map (v.set p)

/-- What is seen of a verdict on a privilege. -/
def verdict (p : Principal) (x : Privilege) (r : Reply Bool) : Reply Bool :=
  if v.sees p x then r else r.map fun _ => true

/-- What is seen of what a caller is told. -/
def told : Outcome → Outcome
  | .failed (.permissionDenied p e a) =>
    if v.sees p ⟨e, a⟩ then .failed (.permissionDenied p e a) else .allowed
  | o => o

def ending (p : Principal) : Ending → Ending
  | .listed r => .listed (v.reply p r)
  | .checked r => .checked (if v.verdicts then r else r.map fun _ => true)
  | .timedOut => .timedOut

def note : Note → Note
  | .returned c o => .returned c (v.told o)
  | .ended id p ending => .ended id p (v.ending p ending)
  | .stored p S o => .stored p (v.set p S) o
  | n => n

def landing (l : Landing) : Landing := { l with reply := v.reply l.principal l.reply }

def pass (pass : Pass) : Pass := { pass with landed := pass.landed.map v.landing }

variable {v} {p : Principal} {e : Entity} {a : Action} {r r' : Reply PrivilegeSet}

/-- A decision on a privilege that is seen needs no more than what is seen of the set. -/
theorem told_decision (S : PrivilegeSet) (e : Entity) (p : Principal) (a : Action) :
    v.told (State.decision (v.set p S) e p a) = v.told (State.decision S e p a) := by
  cases hs : v.sees p ⟨e, a⟩ with
  | true => simp [State.decision, set, hs]
  | false =>
    have hnot : ⟨e, a⟩ ∉ v.set p S := by simp [set, hs]
    rw [State.decision, if_neg hnot, State.decision]
    split <;> simp [told, hs]

theorem told_answer (h : v.reply p r = v.reply p r') (e : Entity) (a : Action) :
    v.told ((Request.enforce e p a).answer r) = v.told ((Request.enforce e p a).answer r') := by
  have hseen : ∀ r, v.told ((Request.enforce e p a).answer (v.reply p r))
      = v.told ((Request.enforce e p a).answer r) := by
    intro r
    cases r with
    | value S => exact told_decision S e p a
    | _ => rfl
  rw [← hseen r, h, hseen r']

theorem told_verdict {b b' : Reply Bool} (h : v.verdict p ⟨e, a⟩ b = v.verdict p ⟨e, a⟩ b') :
    v.told ((Request.enforce e p a).verdict b) = v.told ((Request.enforce e p a).verdict b') := by
  have hseen : ∀ b, v.told ((Request.enforce e p a).verdict (v.verdict p ⟨e, a⟩ b))
      = v.told ((Request.enforce e p a).verdict b) := by
    intro b
    cases hs : v.sees p ⟨e, a⟩ with
    | true => simp [verdict, hs]
    | false =>
      rcases b with (_ | _) | _ | _ <;> simp [verdict, Reply.map, Request.verdict, told, hs]
  rw [← hseen b, h, hseen b']

/-- Lists that look alike are told apart by nobody who looks at more than what they hold. -/
theorem reply_cases (h : v.reply p r = v.reply p r') :
    (∃ S S', r = .value S ∧ r' = .value S' ∧ v.set p S = v.set p S')
      ∨ r = r' ∧ ∀ S, r ≠ .value S := by
  cases r <;> cases r' <;> simp_all [reply, Reply.map]

theorem landing_eq_iff {l l' : Landing} : v.landing l = v.landing l' ↔ l.principal = l'.principal
    ∧ l.call = l'.call ∧ v.reply l.principal l.reply = v.reply l.principal l'.reply := by
  obtain ⟨p, id, r⟩ := l
  obtain ⟨p', id', r'⟩ := l'
  constructor
  · intro h
    injection h with hp hid hr
    dsimp only at hp hid hr ⊢
    subst hp
    exact ⟨rfl, hid, hr⟩
  · rintro ⟨hp, hid, hr⟩
    dsimp only at hp hid hr
    subst hp hid
    rw [landing, landing, hr]

theorem pass_eq_iff {x y : Pass} : v.pass x = v.pass y ↔ x.driver = y.driver ∧ x.queue = y.queue
    ∧ x.flying = y.flying ∧ x.landed.map v.landing = y.landed.map v.landing
    ∧ x.report = y.report := by
  rw [pass, pass]
  simp only [Pass.mk.injEq]

/-! ## All is seen

For the view that sees everything, nothing is hidden from sets, replies, notes and the like. -/

@[simp] theorem all_set (p : Principal) (S : PrivilegeSet) : all.set p S = S := by
  obtain ⟨l, h⟩ := S
  simp [set, all, PrivilegeSet.filter]

@[simp] theorem all_reply (p : Principal) (r : Reply PrivilegeSet) : all.reply p r = r := by
  cases r <;> simp [reply, Reply.map]

@[simp] theorem all_told (o : Outcome) : all.told o = o := by
  unfold told
  split <;> simp [all]

@[simp] theorem all_note (n : Note) : all.note n = n := by
  have hending : ∀ p ending, all.ending p ending = ending := by
    intro p ending
    cases ending with
    | listed r => rw [ending, all_reply]
    | _ => rfl
  cases n <;> simp [note, hending]

@[simp] theorem all_pass (x : Pass) : all.pass x = x := by
  have hl : all.landing = id := by
    funext l
    simp [landing]
  simp [pass, hl]

end View

end Engine

end Gatekeeper

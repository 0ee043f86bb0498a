import Gatekeeper.Store
import Gatekeeper.Proofs.Table

/-!
# What principals hold

What a store says of a principal is decided privilege by privilege: an operation changes whether a
principal holds a privilege only if it names that principal, that resource and that action.  A grant
on a resource says nothing of what lies inside it.

* `Store.Op.effect` — what an operation makes of whether a principal holds a privilege.
* `Store.mem_privileges_perform_iff` — while the store is available, that is what it does.
* `Store.Op.Beside` — the operation does not concern the privilege.

Three operations rewrite what has been granted: one adds, one takes from one principal, one takes
from everybody.  All of them come down to one function on whether a privilege is held.
-/

set_option autoImplicit false

namespace Gatekeeper.Store

/-- The operation changes what principals hold. -/
def Op.grants : Op → Bool
  | .grant .. | .revoke .. | .revokeAll _ => true
  | _ => false

/-- Whether the operation switches the store on or off. -/
def Op.switches? : Op → Option Bool
  | .setAvailable on => some on
  | _ => none

/-- Whether the principal holds the privilege after the operation, if it did or did not before. -/
def Op.effect (p : Principal) (x : Privilege) (held : Prop) : Op → Prop
  | .grant e q as => held ∨ p = q ∧ x.entity = e ∧ x.action ∈ as
  | .revoke e q as => held ∧ ¬ (p = q ∧ x.entity = e ∧ x.action ∈ as)
  | .revokeAll e => held ∧ x.entity ≠ e
  | _ => held

/-- The operation does not name the principal together with the privilege. -/
def Op.Beside (p : Principal) (x : Privilege) : Op → Prop
  | .grant e q as | .revoke e q as => ¬ (p = q ∧ x.entity = e ∧ x.action ∈ as)
  | .revokeAll e => x.entity ≠ e
  | _ => True

variable {s : Store} {p : Principal} {x : Privilege} {op : Op}

theorem Op.effect_of_beside (h : op.Beside p x) (held : Prop) : op.effect p x held ↔ held := by
  cases op <;> simp_all [Beside, effect]

theorem Op.effect_congr {held held' : Prop} (h : held ↔ held') :
    op.effect p x held ↔ op.effect p x held' := by
  cases op <;> simp [effect, h]

/-! ## The grants

An operation rewrites the sets of one principal, or of all of them, by adding privileges or by a
filter, and both are read off membership. -/

theorem privileges_of_put {t : Store} {q : Principal} {S : PrivilegeSet}
    (h : t.granted = s.granted.put q S) (p : Principal) :
    t.privileges p = if p = q then S else s.privileges p := by
  rw [privileges, h, Table.get?_put]
  split <;> rfl

theorem mem_map_entity {e : Entity} {as : List Action} :
    x ∈ as.map (⟨e, ·⟩) ↔ x.entity = e ∧ x.action ∈ as := by
  obtain ⟨e', a⟩ := x
  simp only [List.mem_map, Privilege.mk.injEq]
  constructor
  · rintro ⟨a', ha, rfl, rfl⟩
    exact ⟨rfl, ha⟩
  · rintro ⟨rfl, ha⟩
    exact ⟨a, ha, rfl, rfl⟩

theorem mem_privileges_of_update {t : Store} {q : Principal} {f : Privilege → Bool}
    (h : t.granted = s.granted.update q (·.filter f)) :
    x ∈ t.privileges p ↔ x ∈ s.privileges p ∧ (p = q → f x = true) := by
  rw [privileges, h, Table.get?_update, privileges]
  by_cases hp : p = q
  · subst hp
    cases s.granted.get? p <;> simp
  · simp [hp]

theorem mem_privileges_of_mapValues {t : Store} {f : Privilege → Bool}
    (h : t.granted = s.granted.mapValues (·.filter f)) :
    x ∈ t.privileges p ↔ x ∈ s.privileges p ∧ f x = true := by
  rw [privileges, h, Table.get?_mapValues, privileges]
  cases s.granted.get? p <;> simp

/-- **An operation on a store that is available changes what it names.** -/
theorem mem_privileges_perform_iff (h : s.available = true) (op : Op) :
    x ∈ (s.perform op).1.privileges p ↔ op.effect p x (x ∈ s.privileges p) := by
  cases op with
  | grant e q as =>
    simp only [perform, grant, change, h, if_true, commit, Op.effect]
    rw [privileges_of_put rfl]
    by_cases hp : p = q
    · subst hp
      rw [if_pos rfl, PrivilegeSet.mem_insertAll, mem_map_entity]
      simp
    · simp [hp]
  | revoke e q as =>
    simp only [perform, revoke, change, h, if_true, commit, Op.effect]
    rw [mem_privileges_of_update rfl]
    simp only [Bool.not_eq_true', Bool.and_eq_false_iff, beq_eq_false_iff_ne, ne_eq,
      List.contains_eq_mem, decide_eq_false_iff_not, not_and]
    tauto
  | revokeAll e =>
    simp only [perform, revokeAll, change, h, if_true, commit, Op.effect]
    rw [mem_privileges_of_mapValues rfl]
    simp
  | setAvailable on => rfl
  | list q =>
    simp only [perform, list, h, if_true]
    rfl
  | check e q a =>
    simp only [perform, check, list, h, if_true]
    rfl

/-- A store that is not available keeps what principals hold. -/
theorem privileges_perform_of_unavailable (h : s.available = false) (op : Op) :
    (s.perform op).1.privileges p = s.privileges p := by
  cases op <;> simp [perform, grant, revoke, revokeAll, change, h, commit, list, check, privileges,
    setAvailable, Except.map]

/-- A change of what principals hold changes nothing else. -/
theorem perform_of_grants (h : op.grants = true) :
    (s.perform op).1 = { s with granted := (s.perform op).1.granted } := by
  cases op with
  | grant | revoke | revokeAll =>
    simp only [perform, grant, revoke, revokeAll, change]
    split <;> rfl
  | _ => cases h

/-- A store stays as available as it is unless it is switched on or off. -/
theorem available_perform (s : Store) (op : Op) :
    (s.perform op).1.available = op.switches?.getD s.available := by
  cases op with
  | setAvailable on => rfl
  | grant | revoke | revokeAll =>
    rw [perform_of_grants rfl]
    rfl
  | list | check =>
    simp only [perform, check, list]
    cases s.available <;> rfl

/-- What is granted is of no account for the rest of a store. -/
theorem perform_granted (s : Store) (granted : Table Principal PrivilegeSet) (op : Op) :
    (perform { s with granted } op).1
      = { (s.perform op).1 with granted := (perform { s with granted } op).1.granted } := by
  cases op with
  | grant | revoke | revokeAll =>
    simp only [perform, grant, revoke, revokeAll, change]
    split <;> rfl
  | list | check =>
    simp only [perform, check, list]
    cases s.available <;> rfl
  | setAvailable => rfl

/-- An operation leaves alone what it does not name. -/
theorem mem_privileges_perform_of_beside (h : op.Beside p x) :
    x ∈ (s.perform op).1.privileges p ↔ x ∈ s.privileges p := by
  cases ha : s.available with
  | true => rw [mem_privileges_perform_iff ha, Op.effect_of_beside h]
  | false => rw [privileges_perform_of_unavailable ha]

end Gatekeeper.Store

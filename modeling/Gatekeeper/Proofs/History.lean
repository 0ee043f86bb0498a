import Gatekeeper.Proofs.Store

/-!
# What a store remembers

A store is asked for one thing after the other, through any of the hands that hold it; they hold the
same store, so a history is a list of operations.  What a principal holds after it is settled
privilege by privilege: by the last operation that succeeded among those that name the principal,
the resource and the action.  A store that is not available settles nothing and forgets nothing.

* `Store.performAll`, `Store.transcript` — what a history leaves behind, and what was answered.
* `Store.Op.settles`, `Store.settled?` — what an operation settles, and what a history has settled.
* `Store.mem_privileges_performAll_iff` — the grants are what the history has settled.
* `Store.Remembers`, `Store.last_event_store` — what is so after every history of a new store.

What has been settled is read off the transcript from its end and not off the store, so that the
two can be compared.  The comparison is an induction in which each operation is looked at once.
-/

set_option autoImplicit false

namespace Gatekeeper.Store

/-! ## Histories

What an operation settles about a privilege is true, false or nothing.  What a history has
settled is what the last operation did that succeeded and settled anything. -/

/-- The store after a history. -/
def performAll (s : Store) (ops : List Op) : Store := ops.foldl (fun s op => (s.perform op).1) s

/-- A history with what was answered, in the order in which it happened. -/
def transcript (s : Store) : List Op → List (Op × Result)
  | [] => []
  | op :: ops => (op, (s.perform op).2) :: (s.perform op).1.transcript ops

/-- Whether the principal holds the privilege after the operation, if that is for it to say: a grant
says that it does, a revocation that it does not. -/
def Op.settles (p : Principal) (x : Privilege) : Op → Option Bool
  | .grant e q as => if p = q ∧ x.entity = e ∧ x.action ∈ as then some true else none
  | .revoke e q as => if p = q ∧ x.entity = e ∧ x.action ∈ as then some false else none
  | .revokeAll e => if x.entity = e then some false else none
  | _ => none

/-- What the last operation has settled that succeeded and had anything to say of the principal and
the privilege. -/
def settled? (p : Principal) (x : Privilege) (history : List (Op × Result)) : Option Bool :=
  history.reverse.findSome? fun entry => if entry.2 = .done then entry.1.settles p x else none

/-- The operation lists privileges, if only to search them. -/
def Op.lists : Op → Bool
  | .list _ | .check .. => true
  | _ => false

variable {s : Store} {p : Principal} {x : Privilege} {op : Op} {ops : List Op}

theorem performAll_concat (s : Store) (ops : List Op) (op : Op) :
    s.performAll (ops ++ [op]) = ((s.performAll ops).perform op).1 :=
  List.foldl_append ..

theorem transcript_concat (s : Store) (ops : List Op) (op : Op) :
    s.transcript (ops ++ [op]) = s.transcript ops ++ [(op, ((s.performAll ops).perform op).2)] := by
  induction ops generalizing s with
  | nil => rfl
  | cons op' ops ih =>
    rw [List.cons_append, transcript, ih]
    rfl

theorem settled?_concat (history : List (Op × Result)) (op : Op) (r : Result) :
    settled? p x (history ++ [(op, r)])
      = (if r = .done then op.settles p x else none).or (settled? p x history) := by
  rw [settled?, List.reverse_concat, List.findSome?_cons]
  dsimp only
  cases (if r = .done then op.settles p x else none) <;> rfl

theorem Op.effect_iff (held : Prop) :
    op.effect p x held ↔ (op.settles p x).elim held (· = true) := by
  cases op with
  | grant | revoke | revokeAll =>
    simp only [effect, settles]
    split <;> simp_all
  | _ => rfl

/-! ## One operation

An operation on a store that is available does what it says, and says what it does; on any other
it fails. -/

/-- A change of what principals hold succeeds exactly if the store is available. -/
theorem perform_done_iff (h : op.grants = true) :
    (s.perform op).2 = .done ↔ s.available = true := by
  cases op with
  | grant | revoke | revokeAll =>
    simp only [perform, grant, revoke, revokeAll, change]
    cases s.available <;> simp [commit]
  | _ => cases h

/-- A store that is not available fails, and keeps what has been granted. -/
theorem perform_of_unavailable (h : s.available = false) (hop : op.switches? = none) :
    (s.perform op).2 = .failed unavailable ∧ (s.perform op).1.granted = s.granted := by
  cases op with
  | setAvailable on => cases hop
  | _ =>
    simp [perform, grant, revoke, revokeAll, change, commit, list, check, h, Except.map]

/-- An available store lists what the principal holds. -/
theorem perform_list (h : s.available = true) (p : Principal) :
    (s.perform (.list p)).2 = .listed (s.privileges p) := by
  simp [perform, list, h]

/-- And it checks a privilege by searching that list. -/
theorem perform_check (h : s.available = true) (e : Entity) (p : Principal) (a : Action) :
    (s.perform (.check e p a)).2 = .checked (decide (⟨e, a⟩ ∈ s.privileges p)) := by
  simp [perform, check, list, h, Except.map]

theorem listings_perform (s : Store) (op : Op) :
    (s.perform op).1.listings = s.listings + if op.lists then 1 else 0 := by
  cases op with
  | setAvailable on => rfl
  | grant | revoke | revokeAll =>
    rw [perform_of_grants rfl]
    rfl
  | list | check =>
    simp only [perform, check, list]
    cases s.available <;> rfl

/-- An operation that succeeds settles what it has to say, and nothing else changes. -/
theorem mem_privileges_perform_iff_settles :
    x ∈ (s.perform op).1.privileges p ↔
      (if (s.perform op).2 = .done then op.settles p x else none).elim (x ∈ s.privileges p)
        (· = true) := by
  by_cases hg : op.grants = true
  · cases ha : s.available with
    | true =>
      rw [if_pos ((perform_done_iff hg).mpr ha)]
      exact (mem_privileges_perform_iff ha op).trans (Op.effect_iff _)
    | false =>
      have hfails : (s.perform op).2 ≠ .done := fun hdone => by
        rw [(perform_done_iff hg).mp hdone] at ha
        cases ha
      rw [if_neg hfails, privileges_perform_of_unavailable ha]
      rfl
  · -- what is no change of the grants has nothing to say
    have hnone : op.settles p x = none := by
      cases op <;> simp_all [Op.grants, Op.settles]
    have hbeside : op.Beside p x := by
      cases op <;> simp_all [Op.grants, Op.Beside]
    rw [hnone, ite_self, mem_privileges_perform_of_beside hbeside]
    rfl

/-! ## Whole histories

Each of these is an induction on the history from its end, where the last operation stands. -/

/-- **What principals hold is what the history has settled**, and what it has not settled is as it
was before. -/
theorem mem_privileges_performAll_iff (s : Store) (ops : List Op) :
    x ∈ (s.performAll ops).privileges p ↔
      (settled? p x (s.transcript ops)).elim (x ∈ s.privileges p) (· = true) := by
  induction ops using List.reverseRecOn with
  | nil => rfl
  | append_singleton ops op ih =>
    rw [performAll_concat, transcript_concat, settled?_concat, mem_privileges_perform_iff_settles]
    cases (if ((s.performAll ops).perform op).2 = .done then op.settles p x else none) with
    | some held => rfl
    | none => exact ih

theorem available_performAll (s : Store) (ops : List Op) :
    (s.performAll ops).available = (ops.filterMap Op.switches?).getLastD s.available := by
  induction ops using List.reverseRecOn with
  | nil => rfl
  | append_singleton ops op ih =>
    rw [performAll_concat, available_perform, ih, List.filterMap_append]
    cases h : op.switches? <;> simp [h]

theorem listings_performAll (s : Store) (ops : List Op) :
    (s.performAll ops).listings = s.listings + ops.countP Op.lists := by
  induction ops using List.reverseRecOn with
  | nil => rfl
  | append_singleton ops op ih =>
    rw [performAll_concat, listings_perform, ih, List.countP_append, List.countP_singleton,
      Nat.add_assoc]

/-- As long as a store is not switched on again it stays off and keeps what has been granted. -/
theorem performAll_of_unavailable (h : s.available = false) (hops : .setAvailable true ∉ ops) :
    (s.performAll ops).available = false ∧ (s.performAll ops).granted = s.granted := by
  induction ops generalizing s with
  | nil => exact ⟨h, rfl⟩
  | cons op ops ih =>
    rw [List.mem_cons, not_or] at hops
    have hstep : (s.perform op).1.available = false ∧ (s.perform op).1.granted = s.granted := by
      rw [available_perform]
      cases op with
      | setAvailable on =>
        cases on with
        | true => exact absurd rfl hops.1
        | false => exact ⟨rfl, rfl⟩
      | _ => exact ⟨h, (perform_of_unavailable h rfl).2⟩
    exact ⟨(ih hstep.1 hops.2).1, (ih hstep.1 hops.2).2.trans hstep.2⟩

/-! ## A new store

A new store has nothing granted and is available, so after a history all that it holds has been
settled by the history. -/

/-- What is so of the store that a new store has become in a history. -/
structure Remembers (ops : List Op) (s : Store) : Prop where
  /-- It is available unless it was last switched off. -/
  available : s.available = (ops.filterMap Op.switches?).getLastD true
  /-- It lists the privileges that were last granted and not revoked. -/
  lists : s.available = true → ∀ p, ∃ S, (s.perform (.list p)).2 = .listed S
    ∧ ∀ x, x ∈ S ↔ settled? p x (transcript {} ops) = some true
  /-- A check is a search of that list. -/
  checks : s.available = true → ∀ e p a, ∃ S, (s.perform (.list p)).2 = .listed S
    ∧ (s.perform (.check e p a)).2 = .checked (decide (⟨e, a⟩ ∈ S))
  /-- Changes succeed while it is available. -/
  changes : s.available = true → ∀ op, op.grants = true → (s.perform op).2 = .done
  /-- While it is not, everything fails but to switch it on, and what has been granted stays. -/
  refuses : s.available = false → ∀ op, op.switches? = none →
    (s.perform op).2 = .failed unavailable ∧ (s.perform op).1.granted = s.granted
  /-- When it has been off for a while, and whatever was asked of it then, it lists what it would
  have listed had it been on. -/
  reappears : ∀ down, .setAvailable true ∉ down → ∀ p,
    ((s.performAll (.setAvailable false :: down ++ [.setAvailable true])).perform (.list p)).2
      = .listed (s.privileges p)
  /-- Every list and every check is counted, whether it succeeded or not. -/
  listings : s.listings = ops.countP Op.lists

/-- **A store remembers what happened last.**  After any history of a new store, it lists for a
principal exactly the privileges that the last successful operation with anything to say of them has
granted, and checks answer from that list; while it is not available everything fails, and nothing
is forgotten. -/
theorem last_event_store (ops : List Op) : Remembers ops (performAll {} ops) where
  available := available_performAll {} ops
  lists h p := ⟨_, perform_list h p, fun x => by
    rw [mem_privileges_performAll_iff]
    cases settled? p x (transcript {} ops) with
    | some held => simp
    | none => simp [privileges]⟩
  checks h e p a := ⟨_, perform_list h p, perform_check h e p a⟩
  changes h op hop := (perform_done_iff hop).mpr h
  refuses h op hop := perform_of_unavailable h hop
  reappears down hdown p := by
    have hkept := (performAll_of_unavailable
      (s := ((performAll {} ops).perform (.setAvailable false)).1) rfl hdown).2
    rw [performAll_concat, perform_list (by rfl), privileges, privileges]
    exact congrArg (fun t : Table Principal PrivilegeSet => Result.listed ((t.get? p).getD .empty))
      hkept
  listings := by
    rw [listings_performAll]
    exact Nat.zero_add _

end Gatekeeper.Store

import Gatekeeper.Identity.Entity

/-!
# Privileges

A privilege is an action on a resource.  What a principal may do is a set of privileges; the set
keeps them in the order in which they came in, each once.
-/

set_option autoImplicit false

namespace Gatekeeper

open Text

/-- The action in a text, in any case and with blanks around it. -/
def Action.parse (cs : List Char) : Except IdFault Action :=
  Vocabulary.ofText .unknownAction cs

/-- One thing that may be done to one resource. -/
structure Privilege where
  entity : Entity
  action : Action
  deriving DecidableEq

/-- The written form, `action on kind:name.name`. -/
def Privilege.text (p : Privilege) : String :=
  p.action.word ++ " on " ++ p.entity.text

/-- A set of privileges. -/
structure PrivilegeSet where
  members : List Privilege
  nodup : members.Nodup
  deriving DecidableEq

namespace PrivilegeSet

instance : Membership Privilege PrivilegeSet := ⟨fun s p => p ∈ s.members⟩

instance (p : Privilege) (s : PrivilegeSet) : Decidable (p ∈ s) :=
  inferInstanceAs (Decidable (p ∈ s.members))

/-- The set without a member. -/
def empty : PrivilegeSet := ⟨[], List.nodup_nil⟩

instance : Inhabited PrivilegeSet := ⟨empty⟩

theorem mem_def {p : Privilege} {s : PrivilegeSet} : p ∈ s ↔ p ∈ s.members := Iff.rfl

def size (s : PrivilegeSet) : Nat := s.members.length

/-- Adds a privilege, unless it is in the set already. -/
def insert (s : PrivilegeSet) (p : Privilege) : PrivilegeSet :=
  if h : p ∈ s.members then s
  else ⟨s.members ++ [p], List.nodup_append.mpr
    ⟨s.nodup, by simp, fun a ha b hb e => by simp_all⟩⟩

/-- Adds every privilege of a list. -/
def insertAll (s : PrivilegeSet) (ps : List Privilege) : PrivilegeSet := ps.foldl insert s

/-- The set of the members of a list. -/
def ofList (ps : List Privilege) : PrivilegeSet := empty.insertAll ps

/-- The members that a test accepts. -/
def filter (s : PrivilegeSet) (f : Privilege → Bool) : PrivilegeSet :=
  ⟨s.members.filter f, s.nodup.filter f⟩

/-- The written forms of the members, sorted. -/
def texts (s : PrivilegeSet) : List String :=
  (s.members.map Privilege.text).mergeSort fun a b => decide (a ≤ b)

@[simp] theorem not_mem_empty (p : Privilege) : p ∉ empty := by simp [mem_def, empty]

@[simp] theorem mem_insert {s : PrivilegeSet} {p q : Privilege} :
    q ∈ s.insert p ↔ q ∈ s ∨ q = p := by
  by_cases h : p ∈ s.members
  · simp only [insert, h, dite_true, mem_def]
    exact ⟨Or.inl, fun hq => hq.elim id (· ▸ h)⟩
  · simp [insert, h, mem_def]

@[simp] theorem mem_insertAll {s : PrivilegeSet} {ps : List Privilege} {q : Privilege} :
    q ∈ s.insertAll ps ↔ q ∈ s ∨ q ∈ ps := by
  induction ps generalizing s with
  | nil => simp [insertAll]
  | cons p ps ih =>
    have h := @ih (s.insert p)
    simpa [insertAll, or_assoc] using h

@[simp] theorem mem_ofList {ps : List Privilege} {q : Privilege} : q ∈ ofList ps ↔ q ∈ ps := by
  simp [ofList]

@[simp] theorem mem_filter {s : PrivilegeSet} {f : Privilege → Bool} {q : Privilege} :
    q ∈ s.filter f ↔ q ∈ s ∧ f q = true := by
  simp [filter, mem_def]

end PrivilegeSet

end Gatekeeper

import Gatekeeper.Identity.Name

/-!
# Principals

A principal is a kind and a name, written `kind:name`.  `Principal.parse` reads that text: blanks
around the whole, around the kind and around the name are dropped, the kind may be in any case, and
the name must be valid.  A `Principal` built directly may hold any name; `Principal.Valid` says that
its name is one that the reader accepts as it stands.
-/

set_option autoImplicit false

namespace Gatekeeper

open Text

/-- An identity that may be allowed to do something.  Two with the same kind and name are the same
principal. -/
structure Principal where
  kind : PrincipalKind
  name : String
  deriving DecidableEq

/-- The kind in a text, in any case and with blanks around it. -/
def PrincipalKind.parse (cs : List Char) : Except IdFault PrincipalKind :=
  Vocabulary.ofText .unknownPrincipalKind cs

namespace Principal

/-- The name of the principal is valid. -/
def Valid (p : Principal) : Prop := ValidName .principal p.name.toList

/-- A principal with a name that is trimmed and checked. -/
def new (kind : PrincipalKind) (name : String) : Except IdFault Principal :=
  (readName .principal name.toList).map fun n => ⟨kind, n⟩

def user (name : String) : Except IdFault Principal := new .user name
def group (name : String) : Except IdFault Principal := new .group name
def role (name : String) : Except IdFault Principal := new .role name

/-- The written form, `kind:name`. -/
def text (p : Principal) : String :=
  p.kind.word ++ ":" ++ p.name

/-- Reads `kind:name`.  The kind is looked at before the name. -/
def parse (s : String) : Except IdFault Principal :=
  match cutFirst? ':' (trim s.toList) with
  | none => .error .principalShape
  | some (kind, name) => do
    let kind ← PrincipalKind.parse kind
    new kind (String.ofList name)

/-- Whether the written form reads back as the principal. -/
def rereads (p : Principal) : Bool :=
  match parse p.text with
  | .ok q => q == p
  | .error _ => false

theorem rereads_iff {p : Principal} : p.rereads = true ↔ parse p.text = .ok p := by
  rw [rereads]
  cases h : parse p.text <;> simp

end Principal

end Gatekeeper

import Gatekeeper.Identity.Principal
import Gatekeeper.Identity.Privilege
import Gatekeeper.Wire.Data

/-!
# Identifiers as structured data

`encode` gives the one canonical form of a value, `decode?` reads that form and a few others:

* a word of a closed vocabulary is its text, exactly, or a record with that text as its only field
  and nothing in it;
* a principal or a privilege is a record of its two fields, in which other fields are passed over,
  or a list of exactly the two in order;
* a resource is a record with its kind under `entity` and its names each under the word of its role,
  or a list of the kind and then exactly the names;
* a set of privileges is a list, in which a repetition does no harm.

Names are not checked: what is decoded may hold any.
-/

set_option autoImplicit false

namespace Gatekeeper

open Wire

/-- The word that stands for a member of a closed vocabulary. -/
def Wire.word? : Data → Option String
  | .text s => some s
  | .record [(s, .null)] => some s
  | _ => none

/-- The text in a value. -/
def Wire.text? : Data → Option String
  | .text s => some s
  | _ => none

/-! ## Vocabularies

Kinds and actions are exchanged as their words. -/

def Vocabulary.encode {α : Type} [Vocabulary α] (a : α) : Data := .text (word a)

def Vocabulary.decode? {α : Type} [Vocabulary α] (d : Data) : Option α := (word? d).bind ofWord?

/-! ## Principals

A principal has a name and a kind. -/

def Principal.encode (p : Principal) : Data :=
  .record [("name", .text p.name), ("type", Vocabulary.encode p.kind)]

def Principal.decode? : Data → Option Principal
  | .record fields => do
    let name ← text? (← field? fields "name")
    let kind ← Vocabulary.decode? (← field? fields "type")
    return ⟨kind, name⟩
  | .list [name, kind] => do
    let name ← text? name
    let kind ← Vocabulary.decode? kind
    return ⟨kind, name⟩
  | _ => none

/-! ## Resources

Which fields a resource has depends on its kind. -/

/-- The fields that hold the names of a resource, from the outermost container inwards. -/
def EntityKind.nameFields (k : EntityKind) : List String :=
  k.roles.map NameRole.word

def Entity.encode (e : Entity) : Data :=
  .record (("entity", Vocabulary.encode e.kind) :: e.kind.nameFields.zip (e.names.map Data.text))

def Entity.decode? : Data → Option Entity
  | .record fields => do
    let kind ← Vocabulary.ofWord? (← text? (← field? fields "entity"))
    let names ← kind.nameFields.mapM fun name => do text? (← field? fields name)
    ofNames? kind names
  | .list (tag :: names) => do
    let kind ← Vocabulary.ofWord? (← text? tag)
    ofNames? kind (← names.mapM text?)
  | _ => none

/-! ## Privileges

A privilege has a resource and an action; a set of privileges is a list of them. -/

def Privilege.encode (p : Privilege) : Data :=
  .record [("entity", p.entity.encode), ("action", Vocabulary.encode p.action)]

def Privilege.decode? : Data → Option Privilege
  | .record fields => do
    let entity ← Entity.decode? (← field? fields "entity")
    let action ← Vocabulary.decode? (← field? fields "action")
    return ⟨entity, action⟩
  | .list [entity, action] => do
    let entity ← Entity.decode? entity
    let action ← Vocabulary.decode? action
    return ⟨entity, action⟩
  | _ => none

def PrivilegeSet.encode (s : PrivilegeSet) : Data := .list (s.members.map Privilege.encode)

def PrivilegeSet.decode? : Data → Option PrivilegeSet
  | .list items => (items.mapM Privilege.decode?).map ofList
  | _ => none

end Gatekeeper

import Gatekeeper.Identity.Name

/-!
# Resources

A resource is identified by its kind and by the names on the way down to it, at most three: a
namespace holds datasets, streams and applications, an application holds programs.  The written form
is `kind:name.name`.  There are two ways to a checked resource, reading its text (`Entity.parse`)
and growing it from its container (`Entity.newSpace` and `Entity.child`).

The hierarchy is informational: nothing else in this library looks at `Entity.parent`, and a
privilege on a namespace says nothing about what is inside it.
-/

set_option autoImplicit false

namespace Gatekeeper

open Text

/-- An addressable resource, with the names from the outermost container inwards. -/
inductive Entity where
  | space (space : String)
  | dataset (space name : String)
  | stream (space name : String)
  | application (space name : String)
  | program (space application name : String)
  deriving DecidableEq

/-- The kind in a text, in any case and with blanks around it. -/
def EntityKind.parse (cs : List Char) : Except IdFault EntityKind :=
  Vocabulary.ofText .unknownEntityKind cs

/-- The role of each name of a resource of the kind, from the outermost container inwards. -/
def EntityKind.roles : EntityKind → List NameRole
  | space => [.space]
  | dataset => [.space, .dataset]
  | stream => [.space, .stream]
  | application => [.space, .application]
  | program => [.space, .application, .program]

namespace Entity

def kind : Entity → EntityKind
  | space .. => .space
  | dataset .. => .dataset
  | stream .. => .stream
  | application .. => .application
  | program .. => .program

/-- The names from the outermost container inwards. -/
def names : Entity → List String
  | space s => [s]
  | dataset s n | stream s n | application s n => [s, n]
  | program s a n => [s, a, n]

/-- The namespace that the resource lives in, or is. -/
def spaceName : Entity → String
  | space s | dataset s _ | stream s _ | application s _ | program s _ _ => s

/-- The container, if there is one. -/
def parent : Entity → Option Entity
  | space _ => none
  | dataset s _ | stream s _ | application s _ => some (space s)
  | program s a _ => some (application s a)

/-- The resource of a kind with these names, whatever they are, if their number is right. -/
def ofNames? : EntityKind → List String → Option Entity
  | .space, [s] => some (space s)
  | .dataset, [s, n] => some (dataset s n)
  | .stream, [s, n] => some (stream s n)
  | .application, [s, n] => some (application s n)
  | .program, [s, a, n] => some (program s a n)
  | _, _ => none

/-- Every name of the resource is valid. -/
def Valid (e : Entity) : Prop :=
  ∀ p ∈ e.kind.roles.zip e.names, ValidName p.1 p.2.toList

theorem names_length (e : Entity) : e.names.length = e.kind.depth := by cases e <;> rfl

theorem ofNames?_names (e : Entity) : ofNames? e.kind e.names = some e := by cases e <;> rfl

/-- The written form, `kind:name.name`. -/
def text (e : Entity) : String :=
  e.kind.word ++ ":" ++ ".".intercalate e.names

/-! ## Growing a resource from its container

A resource is grown one name at a time, and each name is trimmed and checked for its role.  A
namespace is grown from nothing. -/

/-- A namespace with a name that is trimmed and checked. -/
def newSpace (name : String) : Except IdFault Entity :=
  (readName .space name.toList).map space

/-- The namespace that a resource of kind `child` is to be put in. -/
def spaceFor (child : EntityKind) : Entity → Except IdFault String
  | space s => .ok s
  | e => .error (.notInSpace child e.kind)

/-- The resource of the given kind and name inside `e`.  A container of the wrong kind is reported
before a bad name.  A namespace is inside nothing, so for it `e` does not matter. -/
def child (e : Entity) (kind : EntityKind) (name : String) : Except IdFault Entity :=
  match kind with
  | .space => newSpace name
  | .dataset => do
    let s ← spaceFor kind e
    return dataset s (← readName .dataset name.toList)
  | .stream => do
    let s ← spaceFor kind e
    return stream s (← readName .stream name.toList)
  | .application => do
    let s ← spaceFor kind e
    return application s (← readName .application name.toList)
  | .program => match e with
    | application s a => do
      return program s a (← readName .program name.toList)
    | e => .error (.notInApplication e.kind)

/-- Follows a path of kinds and names, each step inside the last resource that was reached; a step
that fails leaves that resource as it was.  A step that needs a container before there is one gives
`none`. -/
def follow (base : Option Entity) : List (EntityKind × String) →
    List (Option (Except IdFault Entity))
  | [] => []
  | (kind, name) :: path =>
    let made := if kind = .space then some (newSpace name)
      else base.map (·.child kind name)
    match made with
    | some (.ok e) => made :: follow (some e) path
    | _ => made :: follow base path

/-! ## Reading

The text of a resource is its kind, a colon, and its names with full stops between them. -/

/-- Reads `kind:name.name`.  The faults are looked for in the order colon, kind, number of names,
and then the names from left to right. -/
def parse (s : String) : Except IdFault Entity :=
  match cutFirst? ':' (trim s.toList) with
  | none => .error .entityShape
  | some (kind, path) => do
    let kind ← EntityKind.parse kind
    match kind, (cutAll '.' path).map String.ofList with
    | .space, [s] => newSpace s
    | .dataset, [s, n] | .stream, [s, n] | .application, [s, n] => do
      (← newSpace s).child kind n
    | .program, [s, a, n] => do
      (← (← newSpace s).child .application a).child .program n
    | _, _ => .error (.wrongDepth kind)

/-- Whether the written form reads back as the resource. -/
def rereads (e : Entity) : Bool :=
  match parse e.text with
  | .ok q => q == e
  | .error _ => false

theorem rereads_iff {e : Entity} : e.rereads = true ↔ parse e.text = .ok e := by
  rw [rereads]
  cases h : parse e.text <;> simp

end Entity

end Gatekeeper

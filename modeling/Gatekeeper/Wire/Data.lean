/-!
# Structured data

The values that identifiers and privileges are exchanged as: nothing, truth values, numbers, texts,
lists, and records of named fields.  A record has each name at most once in what is read, and its
order carries no meaning, so fields are found by name.
-/

set_option autoImplicit false

namespace Gatekeeper.Wire

/-- A structured value.  A number is `mantissa / 10 ^ places`. -/
inductive Data where
  | null
  | bool (b : Bool)
  | number (mantissa : Int) (places : Nat)
  | text (s : String)
  | list (items : List Data)
  | record (fields : List (String × Data))
  deriving Inhabited

/-- The value of a field. -/
def field? (fields : List (String × Data)) (name : String) : Option Data :=
  fields.lookup name

end Gatekeeper.Wire

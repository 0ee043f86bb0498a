import Gatekeeper.Text.Blank

/-!
# Closed vocabularies

A vocabulary is a type with finitely many members, each of which has a word of its own.  `ofWord?`
finds the member with exactly a given word, and `ofText` is lenient about case and about blanks
around the word; what it cannot find is reported as it was looked for, trimmed and in lower case.
-/

set_option autoImplicit false

namespace Gatekeeper

open Text

/-- A type whose members are words. -/
class Vocabulary (α : Type) where
  /-- The members in their order. -/
  all : List α
  word : α → String
  /-- The first member with the word of `a` is `a`, so that no two have the same word. -/
  find_word : ∀ a, all.find? (fun b => word b == word a) = some a

namespace Vocabulary

variable {α : Type} [Vocabulary α]

/-- The member with exactly this word. -/
def ofWord? (s : String) : Option α := all.find? fun a => word a == s

theorem ofWord?_word (a : α) : ofWord? (word a) = some a := find_word a

theorem ofWord?_eq_some_iff {s : String} {a : α} : ofWord? s = some a ↔ s = word a :=
  ⟨fun h => (beq_iff_eq.mp (List.find?_some h :)).symm, fun h => h ▸ ofWord?_word a⟩

theorem mem_all (a : α) : a ∈ (all : List α) := List.mem_of_find?_eq_some (find_word a)

theorem word_injective {a b : α} (h : word a = word b) : a = b :=
  Option.some.inj ((ofWord?_word a).symm.trans (h ▸ ofWord?_word b))

/-- The member whose word a text is, in any case and with blanks around it. -/
def ofText {ε : Type} (unknown : String → ε) (cs : List Char) : Except ε α :=
  let sought := String.ofList (lower (trim cs))
  match ofWord? sought with
  | some a => .ok a
  | none => .error (unknown sought)

end Vocabulary

end Gatekeeper

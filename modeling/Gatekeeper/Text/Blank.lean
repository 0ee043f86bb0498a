/-!
# Blanks, trimming and cutting

Texts are handled as lists of characters.  A *blank* is a character with the Unicode property
White_Space; a text is trimmed by dropping the blanks at both of its ends.  Cutting at a separator
comes in two forms: `cutFirst?` splits at the first occurrence only, `cutAll` at every one.
-/

set_option autoImplicit false

namespace Gatekeeper.Text

/-- The characters with the Unicode property White_Space. -/
def isBlank (c : Char) : Bool :=
  let n := c.toNat
  (9 ≤ n && n ≤ 13) || n == 0x20 || n == 0x85 || n == 0xA0 || n == 0x1680
    || (0x2000 ≤ n && n ≤ 0x200A) || n == 0x2028 || n == 0x2029 || n == 0x202F || n == 0x205F
    || n == 0x3000

/-- Drops the blanks at the end. -/
def trimEnd (cs : List Char) : List Char :=
  (cs.reverse.dropWhile isBlank).reverse

/-- Drops the blanks at both ends. -/
def trim (cs : List Char) : List Char :=
  trimEnd (cs.dropWhile isBlank)

/-- Upper-case ASCII letters become lower-case, all else stays. -/
def lower (cs : List Char) : List Char :=
  cs.map Char.toLower

/-- The number of bytes of the text in UTF-8. -/
def byteLength (cs : List Char) : Nat :=
  cs.foldr (fun c n => c.utf8Size + n) 0

/-- The parts before and after the first separator, if there is one. -/
def cutFirst? (sep : Char) : List Char → Option (List Char × List Char)
  | [] => none
  | c :: cs => if c = sep then some ([], cs) else (cutFirst? sep cs).map fun p => (c :: p.1, p.2)

/-- The parts between separators; a text without any is one part. -/
def cutAll (sep : Char) : List Char → List (List Char)
  | [] => [[]]
  | c :: cs =>
    if c = sep then [] :: cutAll sep cs
    else match cutAll sep cs with
      | [] => [[c]]
      | part :: parts => (c :: part) :: parts

/-- A text is cut at its first separator exactly when it is the two parts with the separator between
them and the first part is free of it. -/
theorem cutFirst?_eq_some_iff {sep : Char} {cs a b : List Char} :
    cutFirst? sep cs = some (a, b) ↔ cs = a ++ sep :: b ∧ sep ∉ a := by
  induction cs generalizing a with
  | nil => simp [cutFirst?]
  | cons c cs ih =>
    by_cases h : c = sep
    · subst h
      cases a with
      | nil => simp [cutFirst?, eq_comm]
      | cons x xs =>
        simp only [cutFirst?, if_true, Option.some.injEq, Prod.mk.injEq, List.nil_eq,
          reduceCtorEq, false_and, List.cons_append, List.cons.injEq, List.mem_cons, false_iff]
        grind
    · cases a with
      | nil => simp [cutFirst?, h]
      | cons x xs => simp [cutFirst?, h, ih]; grind

theorem cutAll_ne_nil (sep : Char) (cs : List Char) : cutAll sep cs ≠ [] := by
  cases cs with
  | nil => simp [cutAll]
  | cons c cs =>
    rw [cutAll]
    split
    · simp
    · split <;> simp

/-- Joining the parts with the separator gives the text back. -/
theorem intercalate_cutAll (sep : Char) (cs : List Char) :
    [sep].intercalate (cutAll sep cs) = cs := by
  induction cs with
  | nil => rfl
  | cons c cs ih =>
    have hne := cutAll_ne_nil sep cs
    rw [cutAll]
    match hp : cutAll sep cs, hne with
    | [part], _ => split <;> simp_all [List.intercalate]
    | part :: next :: parts, _ => split <;> simp_all [List.intercalate]

end Gatekeeper.Text

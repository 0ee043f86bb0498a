/-!
# Decimal numerals

`digits` writes a number in decimal without leading zeros, `value?` reads a run of digits of any
length.  A *word* is a number below `2 ^ 64`; `word?` reads one, with an optional plus sign in
front, and refuses everything else: blanks, underscores, a minus sign, a number that is too large.
-/

set_option autoImplicit false

namespace Gatekeeper.Text

/-- One more than the largest word. -/
def wordLimit : Nat := UInt64.size

/-- The value of an ASCII digit. -/
def digit? (c : Char) : Option Nat :=
  if '0' ≤ c ∧ c ≤ '9' then some (c.toNat - '0'.toNat) else none

/-- The character of a number below ten. -/
def digitChar (n : Nat) : Char :=
  Char.ofNat ('0'.toNat + n)

/-- A number in decimal. -/
def digits (n : Nat) : List Char :=
  if n < 10 then [digitChar n] else digits (n / 10) ++ [digitChar (n % 10)]

/-- The number that a run of digits writes after the number `acc`. -/
def valueFrom? (acc : Nat) : List Char → Option Nat
  | [] => some acc
  | c :: cs => match digit? c with
    | some d => valueFrom? (10 * acc + d) cs
    | none => none

/-- The number that a non-empty run of digits writes. -/
def value? : List Char → Option Nat
  | [] => none
  | cs => valueFrom? 0 cs

/-- A number below `2 ^ 64`, with or without a plus sign. -/
def word? (cs : List Char) : Option Nat :=
  let body := match cs with
    | '+' :: rest => rest
    | _ => cs
  (value? body).filter (· < wordLimit)

theorem digit?_digitChar {n : Nat} (h : n < 10) : digit? (digitChar n) = some n := by
  match n, h with
  | 0, _ | 1, _ | 2, _ | 3, _ | 4, _ | 5, _ | 6, _ | 7, _ | 8, _ | 9, _ => rfl

theorem valueFrom?_append (acc : Nat) (xs ys : List Char) :
    valueFrom? acc (xs ++ ys) = (valueFrom? acc xs).bind (valueFrom? · ys) := by
  induction xs generalizing acc with
  | nil => rfl
  | cons x xs ih =>
    simp only [List.cons_append, valueFrom?]
    split
    · exact ih _
    · rfl

theorem valueFrom?_digits (n : Nat) : valueFrom? 0 (digits n) = some n := by
  fun_induction digits n with
  | case1 n h => simp [valueFrom?, digit?_digitChar h]
  | case2 n h ih =>
    rw [valueFrom?_append, ih]
    simp only [Option.bind_some, valueFrom?, digit?_digitChar (Nat.mod_lt n (by decide))]
    congr 1
    omega

theorem digits_ne_nil (n : Nat) : digits n ≠ [] := by
  rw [digits]; split <;> simp

/-- What is written in decimal reads back. -/
theorem value?_digits (n : Nat) : value? (digits n) = some n := by
  have h := valueFrom?_digits n
  match hd : digits n, digits_ne_nil n with
  | c :: cs, _ => rw [value?, ← hd, h]; simp

end Gatekeeper.Text

import Gatekeeper.Identity.Fault
import Gatekeeper.Text.Blank

/-!
# Names

A valid name is not empty, has at most 128 bytes and consists of ASCII letters, digits, `_` and
`-`; the name of a principal may also have `.` and `@`.  `readName` trims a text and accepts what is
then a valid name; it reports the first fault in the order length zero, too long, bad character.
-/

set_option autoImplicit false

namespace Gatekeeper

open Text

/-- The characters that a name of the given role may have. -/
def NameRole.allows (role : NameRole) (c : Char) : Bool :=
  c.isAlphanum || c == '_' || c == '-' || (role == .principal && (c == '.' || c == '@'))

/-- What is wrong with a text as a name, without trimming it. -/
def nameFault? (role : NameRole) (cs : List Char) : Option NameFault :=
  if cs.isEmpty then some .empty
  else if nameLimit < byteLength cs then some .tooLong
  else if cs.all role.allows then none
  else some .badCharacter

/-- A valid name: not empty, short enough, and of allowed characters. -/
structure ValidName (role : NameRole) (cs : List Char) : Prop where
  ne_nil : cs ≠ []
  short : byteLength cs ≤ nameLimit
  allowed : ∀ c ∈ cs, role.allows c = true

theorem nameFault?_eq_none_iff {role : NameRole} {cs : List Char} :
    nameFault? role cs = none ↔ ValidName role cs := by
  refine ⟨fun h => ?_, fun ⟨h₁, h₂, h₃⟩ => ?_⟩
  · by_cases h₁ : cs = []
    · simp [nameFault?, h₁] at h
    by_cases h₂ : nameLimit < byteLength cs
    · simp [nameFault?, h₁, h₂] at h
    by_cases h₃ : cs.all role.allows = true
    · exact ⟨h₁, Nat.le_of_not_lt h₂, by simpa using h₃⟩
    · simp [nameFault?, h₁, h₂, h₃] at h
  · simp [nameFault?, h₁, Nat.not_lt.mpr h₂, List.all_eq_true.mpr h₃]

/-- The name in a text: what is left after trimming, if it is valid. -/
def readName (role : NameRole) (cs : List Char) : Except IdFault String :=
  let name := trim cs
  match nameFault? role name with
  | some fault => .error (.name role fault)
  | none => .ok (String.ofList name)

/-- No name has a blank, so that trimming leaves a valid name as it is. -/
theorem NameRole.not_allows_of_isBlank {role : NameRole} {c : Char} (h : isBlank c = true) :
    role.allows c = false := by
  have hn : ∀ d : Char, isBlank d = false → c ≠ d := fun d hd e => by simp [e, hd] at h
  have h₁ := hn '_' (by decide)
  have h₂ := hn '-' (by decide)
  have h₃ := hn '.' (by decide)
  have h₄ := hn '@' (by decide)
  have h₅ : c.isAlphanum = false := by
    have hv : c.val.toNat = c.toNat := rfl
    simp only [isBlank, Bool.or_eq_true, Bool.and_eq_true, decide_eq_true_eq, beq_iff_eq] at h
    delta Char.isAlphanum Char.isAlpha Char.isUpper Char.isLower Char.isDigit
    simp only [Bool.or_eq_false_iff, Bool.and_eq_false_iff, decide_eq_false_iff_not, ge_iff_le,
      UInt32.le_iff_toNat_le]
    simp
    omega
  simp [NameRole.allows, h₁, h₂, h₃, h₄, h₅]

end Gatekeeper

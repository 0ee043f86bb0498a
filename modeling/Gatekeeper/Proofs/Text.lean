import Gatekeeper.Text.Vocabulary
import Mathlib.Data.List.Basic
import Mathlib.Data.List.TakeWhile

/-!
# What trimming, cutting and spelling mean

The readers of names work by functions on texts: they trim, cut at separators and change case.  Here
is what each of these does, said without the function, so that a grammar can be stated in which none
of them occurs.

* `Trims` — a text between blanks; `trim_eq_iff` says that trimming finds it.
* `Joins` — parts with a separator between them; `cutAll_eq_iff` says that cutting finds them.
* `Spells` — a word in any case and between blanks; `ofText_eq_ok_iff` and `ofText_eq_error_iff` say
  what is found of it in a vocabulary.
* `byteLength_eq` — the length of a text is counted in bytes of UTF-8.

The relations are what a reader of the grammar has to know of texts.  Each is met by one function
of the program, and uniqueness is a part of that: there is one way to trim a text and one way to
cut it.
-/

set_option autoImplicit false

namespace Gatekeeper.Text

/-! ## Trimming

Blanks are cut off at both ends, and never inside.  What is left is characterised by what it is:
a piece of the text that neither begins nor ends with a blank, with nothing but blanks around it. -/

/-- `t` is what is left of `cs` without the blanks at its ends. -/
structure Trims (cs t : List Char) : Prop where
  padded : ∃ l r, cs = l ++ t ++ r ∧ (∀ c ∈ l, isBlank c = true) ∧ ∀ c ∈ r, isBlank c = true
  first : ∀ c ∈ t.head?, isBlank c = false
  last : ∀ c ∈ t.getLast?, isBlank c = false

section

variable {cs t : List Char}

theorem isBlank_of_mem_head?_dropWhile {c : Char} (h : c ∈ (cs.dropWhile isBlank).head?) :
    isBlank c = false := by
  have hhead := cs.head?_dropWhile_not isBlank
  rw [Option.mem_def.mp h] at hhead
  exact hhead

/-- What is trimmed at the end is blank. -/
theorem trimEnd_append (cs : List Char) :
    ∃ r, cs = trimEnd cs ++ r ∧ ∀ c ∈ r, isBlank c = true := by
  refine ⟨(cs.reverse.takeWhile isBlank).reverse, ?_, fun c hc => ?_⟩
  · rw [trimEnd, ← List.reverse_append, List.takeWhile_append_dropWhile, List.reverse_reverse]
  · exact List.mem_takeWhile_imp (List.mem_reverse.mp hc)

theorem trims_trim (cs : List Char) : Trims cs (trim cs) := by
  obtain ⟨r, hr, hblank⟩ := trimEnd_append (cs.dropWhile isBlank)
  refine ⟨⟨cs.takeWhile isBlank, r, ?_, fun c hc => List.mem_takeWhile_imp hc, hblank⟩,
    fun c hc => ?_, fun c hc => ?_⟩
  · rw [trim, List.append_assoc, ← hr, List.takeWhile_append_dropWhile]
  · have hhead : c ∈ (cs.dropWhile isBlank).head? := hr ▸ List.mem_head?_append_of_mem_head? hc
    exact isBlank_of_mem_head?_dropWhile hhead
  · rw [trim, trimEnd, List.getLast?_reverse] at hc
    exact isBlank_of_mem_head?_dropWhile hc

theorem dropWhile_append_of_blank {l t : List Char} (hl : ∀ c ∈ l, isBlank c = true)
    (ht : ∀ c ∈ t.head?, isBlank c = false) : (l ++ t).dropWhile isBlank = t := by
  rw [List.dropWhile_append_of_pos hl]
  cases t with
  | nil => rfl
  | cons c t => exact List.dropWhile_cons_of_neg (by simp [ht c rfl])

/-- **Trimming leaves what there is between the blanks at both ends**, and there is only one such
text. -/
theorem trim_eq_iff : trim cs = t ↔ Trims cs t := by
  refine ⟨fun h => h ▸ trims_trim cs, fun ⟨⟨l, r, hcs, hl, hr⟩, hfirst, hlast⟩ => ?_⟩
  have hend : trimEnd (t ++ r) = t := by
    rw [trimEnd, List.reverse_append, dropWhile_append_of_blank, List.reverse_reverse]
    · exact fun c hc => hr c (List.mem_reverse.mp hc)
    · exact fun c hc => hlast c (by rwa [List.head?_reverse] at hc)
  cases t with
  | nil =>
    have hblank : ∀ c ∈ cs, isBlank c = true := by
      rw [hcs, List.append_nil]
      exact List.forall_mem_append.mpr ⟨hl, hr⟩
    rw [trim, List.dropWhile_eq_nil_iff.mpr hblank]
    rfl
  | cons c t =>
    have hrest : ∀ d ∈ (c :: t ++ r).head?, isBlank d = false := hfirst
    rw [trim, hcs, List.append_assoc, dropWhile_append_of_blank hl hrest, hend]

/-- A text without blanks is left as it is. -/
theorem Trims.of_no_blank (h : ∀ c ∈ cs, isBlank c = false) : Trims cs cs where
  padded := ⟨[], [], by simp, by simp, by simp⟩
  first c hc := h c (List.mem_of_mem_head? hc)
  last c hc := h c (List.mem_of_mem_getLast? hc)

end

/-! ## Cutting

A text is cut at the first separator, or at every one.  The parts with the separator between them
are the text again, and have no separator in them. -/

/-- `cs` is the parts with the separator between them, and none of them has the separator in it. -/
structure Joins (sep : Char) (parts : List (List Char)) (cs : List Char) : Prop where
  joined : cs = [sep].intercalate parts
  ne_nil : parts ≠ []
  free : ∀ part ∈ parts, sep ∉ part

section

variable {sep : Char} {cs : List Char}

theorem cutFirst?_eq_none_iff : cutFirst? sep cs = none ↔ sep ∉ cs := by
  induction cs with
  | nil => simp [cutFirst?]
  | cons c cs ih =>
    by_cases h : c = sep
    · simp [cutFirst?, h]
    · simp [cutFirst?, h, ih, Ne.symm h]

/-- Cutting everywhere is the splitting of the library. -/
theorem cutAll_eq_splitOn (sep : Char) (cs : List Char) : cutAll sep cs = cs.splitOn sep := by
  induction cs with
  | nil => rfl
  | cons c cs ih =>
    rw [List.splitOn, List.splitOnP_cons_eq_if_modifyHead, ← List.splitOn, ← ih, cutAll]
    by_cases h : c = sep
    · simp [h]
    · cases hp : cutAll sep cs with
      | nil => exact absurd hp (cutAll_ne_nil sep cs)
      | cons part parts => simp [h]

theorem not_mem_of_mem_cutAll {part : List Char} (h : part ∈ cutAll sep cs) : sep ∉ part := by
  induction cs generalizing part with
  | nil => simp_all [cutAll]
  | cons c cs ih =>
    rw [cutAll] at h
    split at h
    · rcases List.mem_cons.mp h with rfl | h
      · exact List.not_mem_nil
      · exact ih h
    · rename_i hc
      split at h
      · exact absurd ‹_› (cutAll_ne_nil sep cs)
      · rename_i first rest hparts
        rcases List.mem_cons.mp h with rfl | h
        · have hfirst : sep ∉ first := ih (hparts ▸ List.mem_cons_self)
          exact fun hm => (List.mem_cons.mp hm).elim (fun e => hc e.symm) hfirst
        · exact ih (hparts ▸ List.mem_cons_of_mem _ h)

/-- **Cutting at every separator gives the parts between them**, and there is only one way to cut.
-/
theorem cutAll_eq_iff {parts : List (List Char)} : cutAll sep cs = parts ↔ Joins sep parts cs := by
  constructor
  · rintro rfl
    exact ⟨(intercalate_cutAll sep cs).symm, cutAll_ne_nil sep cs,
      fun part hpart => not_mem_of_mem_cutAll hpart⟩
  · rintro ⟨rfl, hne, hfree⟩
    rw [cutAll_eq_splitOn, List.splitOn_intercalate sep hfree hne]

end

/-! ## Spelling

A word is looked up with its blanks cut off and in lower case. -/

/-- `cs` is the word in any case, with blanks around it. -/
def Spells (cs : List Char) (word : String) : Prop :=
  ∃ t, Trims cs t ∧ word = String.ofList (lower t)

theorem spells_iff {cs : List Char} {word : String} :
    Spells cs word ↔ word = String.ofList (lower (trim cs)) :=
  ⟨fun ⟨_, ht, hw⟩ => trim_eq_iff.mpr ht ▸ hw, fun h => ⟨trim cs, trims_trim cs, h⟩⟩

section

variable {α ε : Type} [Vocabulary α] {unknown : String → ε} {cs : List Char}

theorem ofText_eq_ok_iff {a : α} :
    Vocabulary.ofText unknown cs = .ok a ↔ Spells cs (Vocabulary.word a) := by
  rw [spells_iff, @eq_comm _ (Vocabulary.word a), ← Vocabulary.ofWord?_eq_some_iff,
    Vocabulary.ofText]
  cases Vocabulary.ofWord? (α := α) (String.ofList (lower (trim cs))) <;> simp

theorem ofText_eq_error_iff {e : ε} : Vocabulary.ofText (α := α) unknown cs = .error e
    ↔ ∃ w, Spells cs w ∧ (∀ a : α, w ≠ Vocabulary.word a) ∧ e = unknown w := by
  simp only [spells_iff, exists_eq_left, Vocabulary.ofText]
  cases ha : Vocabulary.ofWord? (α := α) (String.ofList (lower (trim cs))) with
  | none =>
    have hno : ∀ a : α, String.ofList (lower (trim cs)) ≠ Vocabulary.word a := by
      intro a h
      rw [Vocabulary.ofWord?_eq_some_iff.mpr h] at ha
      cases ha
    simp [hno, eq_comm]
  | some a =>
    have hword := Vocabulary.ofWord?_eq_some_iff.mp ha
    exact iff_of_false (by simp) fun ⟨hno, _⟩ => hno a hword

end

/-! ## Length

The length of a name is limited in bytes and not in characters. -/

theorem byteLength_eq (cs : List Char) : byteLength cs = (String.ofList cs).utf8ByteSize := by
  induction cs with
  | nil => rfl
  | cons c cs ih =>
    rw [String.ofList_cons, String.utf8ByteSize_append, String.utf8ByteSize_singleton, ← ih]
    rfl

end Gatekeeper.Text

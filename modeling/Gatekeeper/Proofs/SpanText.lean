import Gatekeeper.Engine.Line
import Gatekeeper.Engine.Step
import Gatekeeper.Proofs.Properties
import Gatekeeper.Span.Printer
import Mathlib

/-!
# Written spans

Whatever this library writes of a span is read as that span.  The written form is a sum of counts of
units, from years down to nanoseconds; the reader adds up what it reads, each time looking that it
still has a span.  It always has: what has been added up so far is a part of the span that was
written.  A bare number of seconds is read without the reader of sums, and comes to the same as the
number with an `s` after it.

* `Cursor.run` — reading from where the reader stands.
* `run_intercalate` — a list of parts is read as their sum, by induction on the parts.
* `sum_parts` — the parts of a span come to the span.
* `read_chars`, `read_digits` — the written form of a span, and that of a number of seconds.
* `SpansReread`, `spans_reread` — all that is promised.

The reader is a machine that goes over the text once, and the proof goes with it: each stretch of
the text between two ends of items is read without adding anything, and each end of an item adds
one count.  That no addition overflows is the only thing that can go wrong, and it does not,
since a part of a span is a span.
-/

set_option autoImplicit false

namespace Gatekeeper

open Text

/-! ## Numbers

Counts are written in decimal without leading zeros and read digit by digit, with an upper limit. -/

namespace Text

/-- The decimal of a number is that of the library. -/
theorem digits_eq_toList (n : Nat) : digits n = (toString n).toList := by
  rw [Nat.toString_eq_repr, Nat.repr_eq_ofList_toDigits, String.toList_ofList]
  have hchar : ∀ d < 10, digitChar d = Nat.digitChar d := by decide
  fun_induction digits n with
  | case1 n h => rw [Nat.toDigits_of_lt_base h, hchar n h]
  | case2 n h ih =>
    rw [Nat.toDigits_of_base_le (by decide) (Nat.le_of_not_lt h), ih,
      hchar _ (Nat.mod_lt _ (by decide))]

theorem exists_of_mem_digits {n : Nat} {c : Char} (h : c ∈ digits n) :
    ∃ d < 10, c = digitChar d := by
  fun_induction digits n with
  | case1 n hn => exact ⟨n, hn, List.mem_singleton.mp h⟩
  | case2 n hn ih =>
    rcases List.mem_append.mp h with h | h
    · exact ih h
    · exact ⟨n % 10, Nat.mod_lt _ (by decide), List.mem_singleton.mp h⟩

theorem valueFrom?_eq_none {cs : List Char} {c : Char} (hc : c ∈ cs) (hd : digit? c = none)
    (acc : Nat) : valueFrom? acc cs = none := by
  induction cs generalizing acc with
  | nil => cases hc
  | cons d cs ih =>
    rw [valueFrom?]
    rcases List.mem_cons.mp hc with rfl | hc
    · rw [hd]
    · split
      · exact ih hc _
      · rfl

theorem value?_eq_none {cs : List Char} {c : Char} (hc : c ∈ cs) (hd : digit? c = none) :
    value? cs = none := by
  cases cs with
  | nil => cases hc
  | cons d cs => exact valueFrom?_eq_none hc hd 0

theorem word?_of_head {cs : List Char} (h : cs.head? ≠ some '+') :
    word? cs = (value? cs).filter (· < wordLimit) := by
  unfold word?
  split
  · exact absurd rfl h
  · rfl

/-- A text with anything but digits in it, a plus sign apart, is no number. -/
theorem word?_eq_none {cs : List Char} {c : Char} (hc : c ∈ cs) (hd : digit? c = none)
    (hp : c ≠ '+') : word? cs = none := by
  by_cases hplus : cs.head? = some '+'
  · obtain ⟨rest, rfl⟩ := List.head?_eq_some_iff.mp hplus
    have hrest : c ∈ rest := (List.mem_cons.mp hc).resolve_left hp
    show (value? rest).filter _ = none
    rw [value?_eq_none hrest hd]
    rfl
  · rw [word?_of_head hplus, value?_eq_none hc hd]
    rfl

theorem word?_digits {n : Nat} (h : n < wordLimit) : word? (digits n) = some n := by
  have hplus : (digits n).head? ≠ some '+' := by
    intro hplus
    obtain ⟨d, hd, he⟩ := exists_of_mem_digits (List.mem_of_mem_head? hplus)
    exact absurd he ((by decide : ∀ d < 10, '+' ≠ digitChar d) d hd)
  rw [word?_of_head hplus, value?_digits]
  exact if_pos (decide_eq_true h)

theorem byteLength_append (xs ys : List Char) :
    byteLength (xs ++ ys) = byteLength xs + byteLength ys := by
  simp only [byteLength_eq, String.ofList_append, String.utf8ByteSize_append]

end Text

namespace Span

/-! ## Adding

The reader checks for overflow at each addition.  Where there is a span for the sum there is one
for every part of it, so no check fails on the way. -/

theorem word_eq_ok {n : Nat} (h : n < wordLimit) : word n = .ok n := if_pos h

theorem ofNanos?_nanos (s : Span) : ofNanos? s.nanos = some s := dif_pos s.nanos_lt

/-- Adding comes to a span whenever there is one for the sum. -/
theorem add_eq_ok {s t : Span} {inSeconds : Bool} {n : Nat}
    (ht : t.nanos = s.nanos + if inSeconds then n * nanosPerSecond else n)
    (hn : inSeconds = false → n < nanosPerSecond) : s.add inSeconds n = .ok t := by
  have hlt := t.nanos_lt
  have hsub : s.subNanos < nanosPerSecond := Nat.mod_lt _ (by decide)
  have hlimit : nanosPerSecond + nanosPerSecond ≤ wordLimit := by decide
  have hword : n < wordLimit := by
    cases inSeconds with
    | true => exact Nat.lt_of_mul_lt_mul_right (Nat.lt_of_le_of_lt (ht ▸ Nat.le_add_left _ _) hlt)
    | false => exact (hn rfl).trans (by decide)
  have hsum : s.subNanos + (if inSeconds then 0 else n) < wordLimit := by
    cases inSeconds with
    | true => exact hsub.trans (by decide)
    | false => exact Nat.lt_of_lt_of_le (Nat.add_lt_add hsub (hn rfl)) hlimit
  refine Except.bind_eq_ok_iff.mpr ⟨n, word_eq_ok hword, ?_⟩
  refine Except.bind_eq_ok_iff.mpr ⟨_, word_eq_ok hsum, ?_⟩
  rw [← ht, ofNanos?_nanos]

/-! ## Items

An item is a count with its unit.  Units of a second and above are counted in seconds and the
others in nanoseconds, and `grains` says how many.  A label may be in the singular or the plural,
and both are among the spellings of the unit. -/

/-- What so many units come to, in nanoseconds. -/
def itemNanos (p : Nat × SpanUnit) : Nat := p.1 * p.2.nanos

/-- Units below the second are used for what is left of a second. -/
def Fits (p : Nat × SpanUnit) : Prop := p.2.countsSeconds = false → itemNanos p < nanosPerSecond

theorem label_mem_spellings (n : Nat) (unit : SpanUnit) : label n unit ∈ unit.spellings := by
  by_cases h : 1 < n <;> cases unit <;> simp [label, SpanUnit.spellings, h]

/-- No two units are spelled alike. -/
theorem ofSpelling?_of_mem {unit : SpanUnit} {s : String} (h : s ∈ unit.spellings) :
    SpanUnit.ofSpelling? s = some unit := by
  revert s
  cases unit <;> decide

theorem toNat_of_isUnitLetter {c : Char} (h : isUnitLetter c = true) :
    65 ≤ c.toNat ∧ c.toNat ≤ 90 ∨ 97 ≤ c.toNat ∧ c.toNat ≤ 122 ∨ c.toNat = 181 := by
  simp only [isUnitLetter, Char.isAlpha, Char.isUpper, Char.isLower, Bool.or_eq_true,
    Bool.and_eq_true, decide_eq_true_eq, beq_iff_eq, ge_iff_le, UInt32.le_iff_toNat_le] at h
  rcases h with (h | h) | rfl
  · exact Or.inl h
  · exact Or.inr (Or.inl h)
  · exact Or.inr (Or.inr rfl)

theorem digit?_of_isUnitLetter {c : Char} (h : isUnitLetter c = true) : digit? c = none := by
  have hc := toNat_of_isUnitLetter h
  refine if_neg fun ⟨_, hle⟩ => ?_
  have hnine : c.toNat ≤ 57 := hle
  omega

theorem isBlank_of_isUnitLetter {c : Char} (h : isUnitLetter c = true) : isBlank c = false := by
  have hc := toNat_of_isUnitLetter h
  simp only [isBlank, Bool.or_eq_false_iff, Bool.and_eq_false_iff, decide_eq_false_iff_not,
    beq_eq_false_iff_ne]
  omega

/-- Units are spelled with letters. -/
structure Letters (cs : List Char) : Prop where
  ne_nil : cs ≠ []
  letter : ∀ c ∈ cs, isUnitLetter c = true

theorem letters_of_mem {unit : SpanUnit} {s : String} (h : s ∈ unit.spellings) :
    Letters s.toList := by
  have hall : ∀ s ∈ unit.spellings, s.toList ≠ [] ∧ s.toList.all isUnitLetter = true := by
    cases unit <;> decide
  exact ⟨(hall s h).1, List.all_eq_true.mp (hall s h).2⟩

theorem letters_label (n : Nat) (unit : SpanUnit) : Letters (label n unit).toList :=
  letters_of_mem (label_mem_spellings n unit)

theorem grains_nanos (unit : SpanUnit) (n : Nat) :
    (if unit.countsSeconds then n * grains unit unit.countsSeconds * nanosPerSecond
      else n * grains unit unit.countsSeconds) = itemNanos (n, unit) := by
  have hunit : (if unit.countsSeconds then grains unit unit.countsSeconds * nanosPerSecond
      else grains unit unit.countsSeconds) = unit.nanos := by
    cases unit <;> decide
  rw [itemNanos, ← hunit]
  split
  · exact Nat.mul_assoc ..
  · rfl

theorem addItem_of_unit (s : Span) (n : Nat) {letters : List Char} {unit : SpanUnit}
    (hne : letters ≠ []) (h : SpanUnit.ofSpelling? (String.ofList letters) = some unit) :
    s.addItem n none letters = s.add unit.countsSeconds (n * grains unit unit.countsSeconds) := by
  cases letters with
  | nil => exact absurd rfl hne
  | cons c cs =>
    simp only [addItem, h]
    exact bind_pure _

/-- An item is added if there is a span for the sum. -/
theorem addItem_eq_ok {s t : Span} {p : Nat × SpanUnit} (ht : t.nanos = s.nanos + itemNanos p)
    (hp : Fits p) : s.addItem p.1 none (label p.1 p.2).toList = .ok t := by
  obtain ⟨n, unit⟩ := p
  have hunit : SpanUnit.ofSpelling? (String.ofList (label n unit).toList) = some unit := by
    rw [String.ofList_toList]
    exact ofSpelling?_of_mem (label_mem_spellings n unit)
  rw [addItem_of_unit s n (letters_label n unit).ne_nil hunit]
  have hgrains := grains_nanos unit n
  refine add_eq_ok (ht.trans (by rw [hgrains])) fun hsmall => ?_
  rw [hsmall, if_neg Bool.false_ne_true] at hgrains
  rw [hsmall, hgrains]
  exact hp hsmall

/-- Counts are words. -/
theorem lt_wordLimit {p : Nat × SpanUnit} (hp : Fits p)
    (h : itemNanos p < wordLimit * nanosPerSecond) : p.1 < wordLimit := by
  obtain ⟨n, unit⟩ := p
  cases hunit : unit.countsSeconds with
  | true =>
    have hlarge : ∀ unit : SpanUnit, unit.countsSeconds = true → nanosPerSecond ≤ unit.nanos := by
      intro unit
      cases unit <;> decide
    have hle : n * nanosPerSecond ≤ itemNanos (n, unit) := Nat.mul_le_mul_left n (hlarge unit hunit)
    exact Nat.lt_of_mul_lt_mul_right (Nat.lt_of_le_of_lt hle h)
  | false =>
    have hpos : 0 < unit.nanos := by cases unit <;> decide
    have hle : n ≤ itemNanos (n, unit) := Nat.le_mul_of_pos_right n hpos
    exact Nat.lt_of_le_of_lt hle ((hp hunit).trans (by decide))

/-! ## Reading from where the reader stands

The reader goes over the text character by character and ends an item when it meets a blank or
the end.  `Comes` describes a stretch of text in which no item ends; `run_intercalate` puts such
stretches together, by induction on the items. -/

namespace Cursor

/-- Where the reader stands when it has gone over the text and no item has ended on the way. -/
def past (r : Cursor) (cs : List Char) (reading : Reading) : Cursor :=
  ⟨r.offset + byteLength cs, r.sum, reading⟩

/-- Going over the text ends no item and comes to this reading. -/
def Comes (r : Cursor) (cs : List Char) (reading : Reading) : Prop :=
  cs.foldlM next r = .ok (r.past cs reading)

variable {r : Cursor} {xs ys cs : List Char} {a b : Reading} {c : Char} {since n d : Nat}
  {seen : Bool}

theorem Comes.append (hx : Comes r xs a) (hy : Comes (r.past xs a) ys b) :
    Comes r (xs ++ ys) b := by
  have hoffset : r.past (xs ++ ys) b = (r.past xs a).past ys b := by
    simp [past, byteLength_append, Nat.add_assoc]
  rw [Comes, List.foldlM_append, hoffset]
  exact Except.bind_eq_ok_iff.mpr ⟨_, hx, hy⟩

theorem Comes.single (h : next r c = .ok ⟨r.offset + c.utf8Size, r.sum, a⟩) : Comes r [c] a := by
  simp only [Comes, List.foldlM_cons, List.foldlM_nil, bind_pure]
  exact h

theorem comes_first_digit (hr : r.reading = .seek since seen) (hd : digit? c = some d) :
    Comes r [c] (.count d) :=
  .single (by simp only [next, hr, hd])

theorem comes_digit (hr : r.reading = .count n) (hd : digit? c = some d)
    (h : 10 * n + d < wordLimit) : Comes r [c] (.count (10 * n + d)) :=
  .single (by simp only [next, hr, hd, word_eq_ok h]; rfl)

/-- A number is read digit by digit. -/
theorem comes_digits (hr : r.reading = .seek since seen) (h : n < wordLimit) :
    Comes r (digits n) (.count n) := by
  fun_induction digits n with
  | case1 n hn => exact comes_first_digit hr (digit?_digitChar hn)
  | case2 n hn ih =>
    have hsum : 10 * (n / 10) + n % 10 = n := Nat.div_add_mod n 10
    have hlast := digit?_digitChar (Nat.mod_lt n (by decide : 0 < 10))
    have hmost := ih (Nat.lt_of_le_of_lt (Nat.div_le_self ..) h)
    have hall := hmost.append (comes_digit rfl hlast (hsum.symm ▸ h))
    rwa [hsum] at hall

theorem comes_letter {letters : List Char} (hr : r.reading = .unit n none letters)
    (hl : isUnitLetter c = true) : Comes r [c] (.unit n none (letters ++ [c])) :=
  .single (by simp only [next, hr, hl, if_true])

/-- The letters of a unit are collected. -/
theorem comes_letters {letters : List Char} (hr : r.reading = .unit n none letters)
    (h : ∀ c ∈ cs, isUnitLetter c = true) : Comes r cs (.unit n none (letters ++ cs)) := by
  induction cs generalizing r letters with
  | nil =>
    obtain ⟨offset, sum, reading⟩ := r
    obtain rfl : reading = _ := hr
    rw [List.append_nil]
    rfl
  | cons c cs ih =>
    rw [List.forall_mem_cons] at h
    have hall := (comes_letter hr h.1).append (ih rfl h.2)
    rwa [List.append_assoc, List.singleton_append] at hall

/-- The first letter after a number begins the unit. -/
theorem comes_unit (hr : r.reading = .count n) (h : Letters cs) : Comes r cs (.unit n none cs) := by
  cases cs with
  | nil => exact absurd rfl h.ne_nil
  | cons c cs =>
    have hfirst : Comes r [c] (.unit n none [c]) := by
      have hletter := h.letter c List.mem_cons_self
      refine .single ?_
      simp only [next, hr, digit?_of_isUnitLetter hletter, isBlank_of_isUnitLetter hletter,
        hletter, if_true, if_false, Bool.false_eq_true]
    have hreading : (r.past [c] (.unit n none [c])).reading = .unit n none [c] := rfl
    exact hfirst.append (comes_letters hreading fun c hc => h.letter c (List.mem_cons_of_mem _ hc))

/-- A count and its unit are read up to the end of the unit. -/
theorem comes_partText {p : Nat × SpanUnit} (hr : r.reading = .seek since seen)
    (h : p.1 < wordLimit) : Comes r (partText p) (.unit p.1 none (label p.1 p.2).toList) :=
  (comes_digits hr h).append (comes_unit rfl (letters_label p.1 p.2))

theorem next_unit_blank {letters : List Char} {t : Span} (hr : r.reading = .unit n none letters)
    (ht : r.sum.addItem n none letters = .ok t) :
    next r ' ' = .ok ⟨r.offset + 1, t, .seek (r.offset + 1) true⟩ := by
  have hletter : isUnitLetter ' ' = false := by decide
  have hdigit : digit? ' ' = none := by decide
  have hblank : isBlank ' ' = true := by decide
  simp only [next, hr, hletter, hdigit, hblank, if_true, if_false, Bool.false_eq_true, ht]
  rfl

/-- Reads a text to its end. -/
def run (r : Cursor) (cs : List Char) : Except SpanFault Span := do
  (← cs.foldlM next r).finish

theorem Comes.run_append (h : Comes r xs a) (ys : List Char) :
    r.run (xs ++ ys) = (r.past xs a).run ys := by
  rw [run, List.foldlM_append, h]
  rfl

theorem Comes.run_eq (h : Comes r xs a) : r.run xs = (r.past xs a).finish := by
  rw [run, h]
  rfl

/-- The last item ends with the text. -/
theorem run_partText {p : Nat × SpanUnit} (hr : r.reading = .seek since seen)
    (hword : p.1 < wordLimit) (hp : Fits p) {t : Span} (ht : t.nanos = r.sum.nanos + itemNanos p) :
    r.run (partText p) = .ok t :=
  (comes_partText hr hword).run_eq.trans (addItem_eq_ok ht hp)

/-- Any other item ends with the blank after it. -/
theorem run_partText_append {p : Nat × SpanUnit} (hr : r.reading = .seek since seen)
    (hword : p.1 < wordLimit) (hp : Fits p) {t : Span} (ht : t.nanos = r.sum.nanos + itemNanos p)
    (cs : List Char) : ∃ offset,
      r.run (partText p ++ ' ' :: cs) = run ⟨offset, t, .seek offset true⟩ cs := by
  have hpart := comes_partText hr hword
  have hnext := next_unit_blank (r := r.past (partText p) _) rfl (addItem_eq_ok ht hp)
  refine ⟨r.offset + byteLength (partText p) + 1, ?_⟩
  rw [hpart.run_append, run, List.foldlM_cons, hnext]
  rfl

/-- Items with blanks between them are read as their sum, as long as there is a span for it. -/
theorem run_intercalate {ps : List (Nat × SpanUnit)} (hne : ps ≠ []) (hps : ∀ p ∈ ps, Fits p)
    (hr : r.reading = .seek since seen) {t : Span}
    (ht : t.nanos = r.sum.nanos + (ps.map itemNanos).sum) :
    r.run ([' '].intercalate (ps.map partText)) = .ok t := by
  induction ps generalizing r since seen with
  | nil => exact absurd rfl hne
  | cons p ps ih =>
    rw [List.forall_mem_cons] at hps
    rw [List.map_cons, List.sum_cons, ← Nat.add_assoc] at ht
    -- What has been read so far is a part of the span that is read in the end.
    have hlt : r.sum.nanos + itemNanos p < wordLimit * nanosPerSecond :=
      Nat.lt_of_le_of_lt (ht ▸ Nat.le_add_right _ _) t.nanos_lt
    have hword := lt_wordLimit hps.1 (Nat.lt_of_le_of_lt (Nat.le_add_left _ _) hlt)
    cases ps with
    | nil =>
      rw [List.map_cons, List.map_nil, List.intercalate_singleton]
      exact run_partText hr hword hps.1 ht
    | cons q ps =>
      rw [List.map_cons, List.map_cons, List.intercalate_cons_cons, List.append_assoc,
        List.singleton_append]
      obtain ⟨offset, hrun⟩ := run_partText_append hr hword hps.1 (t := ⟨_, hlt⟩) rfl
        ([' '].intercalate ((q :: ps).map partText))
      rw [List.map_cons] at hrun
      rw [hrun]
      exact ih (List.cons_ne_nil _ _) hps.2 rfl ht

end Cursor

/-! ## The parts of a span

The writer takes a span apart into years, months, days and so on.  Each count is what is left
over of the unit above it, so the counts, weighed with their units, come to the span again. -/

/-- What is left out comes to nothing. -/
theorem sum_filter (ps : List (Nat × SpanUnit)) :
    ((ps.filter (·.1 ≠ 0)).map itemNanos).sum = (ps.map itemNanos).sum := by
  induction ps with
  | nil => rfl
  | cons p ps ih =>
    by_cases hp : p.1 = 0 <;> simp_all [itemNanos]

/-- The sum of the parts when each unit weighs what `w` says. -/
theorem sum_weights (s : Span) (w : SpanUnit → Nat) : (s.parts.map fun p => p.1 * w p.2).sum
    = s.secs / 31557600 * w .year + (s.secs % 31557600 / 2630016 * w .month
      + (s.secs % 31557600 % 2630016 / 86400 * w .day
      + (s.secs % 31557600 % 2630016 % 86400 / 3600 * w .hour
      + (s.secs % 31557600 % 2630016 % 86400 % 3600 / 60 * w .minute
      + (s.secs % 31557600 % 2630016 % 86400 % 60 * w .second
      + (s.subNanos / 1000000 * w .milli + (s.subNanos / 1000 % 1000 * w .micro
      + s.subNanos % 1000 * w .nano))))))) := by
  simp only [parts, List.map_cons, List.map_nil, List.sum_cons, List.sum_nil, Nat.add_zero]

/-- What is left over of each unit is counted in the next. -/
theorem weigh (a b : Nat) : a / 31557600 * SpanUnit.year.nanos
      + (a % 31557600 / 2630016 * SpanUnit.month.nanos
      + (a % 31557600 % 2630016 / 86400 * SpanUnit.day.nanos
      + (a % 31557600 % 2630016 % 86400 / 3600 * SpanUnit.hour.nanos
      + (a % 31557600 % 2630016 % 86400 % 3600 / 60 * SpanUnit.minute.nanos
      + (a % 31557600 % 2630016 % 86400 % 60 * SpanUnit.second.nanos
      + (b / 1000000 * SpanUnit.milli.nanos + (b / 1000 % 1000 * SpanUnit.micro.nanos
      + b % 1000 * SpanUnit.nano.nanos))))))) = a * nanosPerSecond + b := by
  simp only [SpanUnit.nanos, nanosPerSecond, nanosPerMilli]
  omega

/-- The parts of a span come to the span. -/
theorem sum_parts (s : Span) : (s.parts.map itemNanos).sum = s.nanos :=
  (sum_weights s SpanUnit.nanos).trans ((weigh s.secs s.subNanos).trans s.secs_mul_add_subNanos)

theorem fits_of_large (n : Nat) {unit : SpanUnit} (h : unit.countsSeconds = true) :
    Fits (n, unit) :=
  fun h' => absurd (h.symm.trans h') (by decide)

theorem fits_parts (s : Span) : ∀ p ∈ s.parts, Fits p := by
  have hsub : s.subNanos < nanosPerSecond := Nat.mod_lt _ (by decide)
  have hmilli : s.subNanos / 1000000 * SpanUnit.milli.nanos < nanosPerSecond := by
    simp only [SpanUnit.nanos, nanosPerSecond, nanosPerMilli] at hsub ⊢
    omega
  have hmicro : s.subNanos / 1000 % 1000 * SpanUnit.micro.nanos < nanosPerSecond := by
    simp only [SpanUnit.nanos, nanosPerSecond] at hsub ⊢
    omega
  have hnano : s.subNanos % 1000 * SpanUnit.nano.nanos < nanosPerSecond := by
    simp only [SpanUnit.nanos, nanosPerSecond] at hsub ⊢
    omega
  simp only [parts, List.forall_mem_cons]
  exact ⟨fits_of_large _ rfl, fits_of_large _ rfl, fits_of_large _ rfl, fits_of_large _ rfl,
    fits_of_large _ rfl, fits_of_large _ rfl, fun _ => hmilli, fun _ => hmicro, fun _ => hnano,
    fun _ hp => absurd hp List.not_mem_nil⟩

/-- A span is written as items that come to it. -/
theorem exists_items (s : Span) : ∃ ps, ps ≠ [] ∧ (∀ p ∈ ps, Fits p)
    ∧ (ps.map itemNanos).sum = s.nanos ∧ s.chars = [' '].intercalate (ps.map partText) := by
  by_cases hs : s.nanos = 0
  · refine ⟨[(0, .second)], List.cons_ne_nil _ _, ?_, ?_, ?_⟩
    · exact List.forall_mem_singleton.mpr (fits_of_large 0 rfl)
    · rw [hs]
      rfl
    · rw [chars, if_pos hs, List.map_singleton, List.intercalate_singleton, partText, digits]
      rfl
  · have hsum : ((s.parts.filter (·.1 ≠ 0)).map itemNanos).sum = s.nanos :=
      (sum_filter s.parts).trans (sum_parts s)
    refine ⟨s.parts.filter (·.1 ≠ 0), fun hnil => hs ?_, fun p hp => ?_, hsum, if_neg hs⟩
    · rw [← hsum, hnil]
      rfl
    · exact fits_parts s p (List.mem_of_mem_filter hp)

/-! ## Texts that end with a unit

A text that begins with no blank and ends with a letter is left alone when blanks are cut off its
ends, and it cannot be taken for a bare number. -/

/-- The text begins with no blank and ends with a letter of a unit. -/
structure Framed (cs : List Char) : Prop where
  first : ∀ c ∈ cs.head?, isBlank c = false
  last : ∃ c, cs.getLast? = some c ∧ isUnitLetter c = true

namespace Framed

variable {xs ys cs : List Char}

theorem ne_nil (h : Framed cs) : cs ≠ [] := by
  rintro rfl
  obtain ⟨c, hc, -⟩ := h.last
  cases hc

theorem append (hx : Framed xs) (hy : Framed ys) (zs : List Char) : Framed (xs ++ (zs ++ ys)) where
  first := by
    rw [List.head?_append_of_ne_nil _ hx.ne_nil]
    exact hx.first
  last := by
    rw [← List.append_assoc, List.getLast?_append_of_ne_nil _ hy.ne_nil]
    exact hy.last

theorem trims (h : Framed cs) : Trims cs cs where
  padded := ⟨[], [], by simp, by simp, by simp⟩
  first := h.first
  last c hc := by
    obtain ⟨d, hd, hletter⟩ := h.last
    obtain rfl := Option.some.inj (hd.symm.trans hc)
    exact isBlank_of_isUnitLetter hletter

/-- A text that ends with a unit is no bare number. -/
theorem word?_eq_none (h : Framed cs) : word? cs = none := by
  obtain ⟨c, hc, hletter⟩ := h.last
  refine Text.word?_eq_none (List.mem_of_getLast? hc) (digit?_of_isUnitLetter hletter) ?_
  rintro rfl
  exact absurd hletter (by decide)

end Framed

theorem digit_no_blank (n : Nat) : ∀ c ∈ digits n, isBlank c = false := by
  intro c hc
  obtain ⟨d, hd, rfl⟩ := exists_of_mem_digits hc
  exact (by decide : ∀ d < 10, isBlank (digitChar d) = false) d hd

theorem framed_partText (p : Nat × SpanUnit) : Framed (partText p) where
  first := by
    rw [partText, List.head?_append_of_ne_nil _ (digits_ne_nil p.1)]
    exact fun c hc => digit_no_blank p.1 c (List.mem_of_mem_head? hc)
  last := by
    have hletters := letters_label p.1 p.2
    rw [partText, List.getLast?_append_of_ne_nil _ hletters.ne_nil]
    have hlast := List.getLast_mem hletters.ne_nil
    exact ⟨_, List.getLast?_eq_some_getLast hletters.ne_nil, hletters.letter _ hlast⟩

theorem framed_intercalate {ps : List (Nat × SpanUnit)} (hne : ps ≠ []) :
    Framed ([' '].intercalate (ps.map partText)) := by
  induction ps with
  | nil => exact absurd rfl hne
  | cons p ps ih =>
    cases ps with
    | nil =>
      rw [List.map_cons, List.map_nil, List.intercalate_singleton]
      exact framed_partText p
    | cons q ps =>
      rw [List.map_cons, List.map_cons, List.intercalate_cons_cons, List.append_assoc]
      exact (framed_partText p).append (ih (List.cons_ne_nil _ _)) [' ']

/-! ## Reading what is written

The writer gives items with blanks between them, and the reader adds them up.  The one exception
is a span of zero, which is written as `0s`. -/

theorem read_of_word? {cs : List Char} {n : Nat} (hcs : word? cs = some n) (h : n < wordLimit) :
    read cs = .ok (seconds n h) := by
  unfold read
  split
  · rename_i m hm
    obtain rfl := Option.some.inj (hcs.symm.trans hm)
    rfl
  · rename_i hnone
    cases hcs.symm.trans hnone

theorem read_of_framed {cs : List Char} (h : Framed cs) : read cs = Cursor.start.run cs := by
  unfold read
  split
  · rename_i hn
    cases h.word?_eq_none.symm.trans hn
  · rfl

/-- Items with blanks between them are read as the span that they come to. -/
theorem read_intercalate {ps : List (Nat × SpanUnit)} {s : Span} (hne : ps ≠ [])
    (hps : ∀ p ∈ ps, Fits p) (hs : (ps.map itemNanos).sum = s.nanos) :
    read ([' '].intercalate (ps.map partText)) = .ok s := by
  rw [read_of_framed (framed_intercalate hne)]
  exact Cursor.run_intercalate hne hps rfl (hs.symm.trans (Nat.zero_add _).symm)

/-- **What is written of a span is read as the span.** -/
theorem read_chars (s : Span) : read s.chars = .ok s := by
  obtain ⟨ps, hne, hps, hsum, hchars⟩ := exists_items s
  rw [hchars]
  exact read_intercalate hne hps hsum

/-- The longest span there is. -/
example : text ⟨wordLimit * nanosPerSecond - 1, by decide⟩
    = "584542046090years 7months 15days 17h 5m 3s 999ms 999us 999ns" := by
  decide +kernel

theorem framed_chars (s : Span) : Framed s.chars := by
  obtain ⟨ps, hne, -, -, hchars⟩ := exists_items s
  rw [hchars]
  exact framed_intercalate hne

/-- A bare number is a number of seconds. -/
theorem read_digits {n : Nat} (h : n < wordLimit) : read (digits n) = .ok (seconds n h) :=
  read_of_word? (word?_digits h) h

/-- A number of seconds may have its unit after it. -/
theorem read_seconds {n : Nat} (h : n < wordLimit) :
    read (partText (n, .second)) = .ok (seconds n h) := by
  have hfits : ∀ p ∈ [(n, SpanUnit.second)], Fits p :=
    List.forall_mem_singleton.mpr (fits_of_large n rfl)
  have hread := read_intercalate (List.cons_ne_nil _ _) hfits (s := seconds n h) (Nat.add_zero _)
  rwa [List.map_singleton, List.intercalate_singleton] at hread

end Span

/-! ## Lists of pairs

Spans are read as settings, and there with blanks around them and among other pairs.  `Around`
says of the other pairs what is needed for the one in question to have its way. -/

namespace Settings

/-- The value is the text, with blanks around it. -/
def Padded (value text : String) : Prop :=
  ∃ l r, value.toList = l ++ text.toList ++ r ∧ (∀ c ∈ l, isBlank c = true)
    ∧ ∀ c ∈ r, isBlank c = true

theorem Padded.refl (text : String) : Padded text text := ⟨[], [], by simp, by simp, by simp⟩

theorem Padded.spanText {value text : String} {d : Span} (h : Padded value text)
    (ht : Trims text.toList text.toList) (hd : Span.read text.toList = .ok d) : SpanText value d :=
  ⟨text.toList, ⟨h, ht.first, ht.last⟩, hd⟩

/-- The written form of a span, with any blanks around it, is a text of the span. -/
theorem spanText_of_written {value : String} {d : Span} (h : Padded value d.text) :
    SpanText value d := by
  have hchars : d.text.toList = d.chars := String.toList_ofList
  refine h.spanText ?_ ?_
  · rw [hchars]
    exact d.framed_chars.trims
  · rw [hchars]
    exact d.read_chars

/-- So is a number of seconds, with its unit or without. -/
theorem spanText_of_count {n : Nat} (hn : n < wordLimit) {value : String}
    (h : Padded value (toString n) ∨ Padded value (toString n ++ "s")) :
    SpanText value (Span.seconds n hn) := by
  rcases h with h | h
  · refine h.spanText ?_ ?_ <;> rw [← digits_eq_toList]
    · exact .of_no_blank (Span.digit_no_blank n)
    · exact Span.read_digits hn
  · have hpart : (toString n ++ "s").toList = Span.partText (n, .second) := by
      rw [String.toList_append, ← digits_eq_toList]
      rfl
    refine h.spanText ?_ ?_ <;> rw [hpart]
    · exact (Span.framed_partText _).trims
    · exact Span.read_seconds hn

/-- The pairs before and after the place of a pair are in order, give the other keys what `s` says,
and leave the last word on the key to the pair. -/
structure Around (key : Key) (before after : List (String × String)) (s : Settings) : Prop where
  wellFormed : ∀ q ∈ before ++ after, WellFormed q
  final : ∀ k, Final (before ++ after) k (s.get k)
  nonzero : ∀ k, k ≠ key → k.kind.isZero (s.get k) = false
  last : ∀ q ∈ after, ¬Names q key

theorem Around.ofProperties_eq {key : Key} {before after : List (String × String)} {s : Settings}
    (h : Around key before after s) {pair : String × String} {v : key.kind.Value}
    (hv : Gives pair key v) : ofProperties (before ++ pair :: after)
      = if key.kind.isZero v = true then .error (.zero key) else .ok (s.set key v) :=
  ofProperties_of_gives (foldlM_eq_ok_iff.mpr ⟨h.wellFormed, h.final⟩) h.nonzero hv h.last

end Settings

/-! ## What is promised

Spans are written in two places, where a call that took too long shows its limit and where the start
of the background refresh logs its interval.  What is written there is read back, as is everything
else that the writer gives, by itself or as the value of a setting. -/

/-- The only interval that the start of the background refresh tells of is its own. -/
theorem Engine.State.syncStarting_mem_start {s : State} {scheduler : Bool} {d : Span}
    (h : Note.syncStarting d ∈ (s.start scheduler).journal) :
    Note.syncStarting d ∈ s.journal ∨ d = s.settings.refreshInterval := by
  have hnote : ∀ {t : State} {n : Note}, Note.syncStarting d ∈ (t.note n).journal →
      n ≠ .syncStarting d → Note.syncStarting d ∈ t.journal :=
    fun h hn => (List.mem_cons.mp h).resolve_left hn.symm
  have hfinish : ∀ {t : State} {c : Id} {o : Outcome},
      Note.syncStarting d ∈ (t.finish c o).journal → Note.syncStarting d ∈ t.journal :=
    fun h => hnote h nofun
  unfold start at h
  extract_lets c t u starting at h
  have hset : u.settings = s.settings := by
    unfold u
    split <;> rfl
  have hu : Note.syncStarting d ∈ u.journal → Note.syncStarting d ∈ s.journal := by
    intro h
    unfold u at h
    split at h
    · exact hnote (hnote h nofun) nofun
    · exact hnote h nofun
  have hstarting : Note.syncStarting d ∈ starting.journal →
      Note.syncStarting d ∈ s.journal ∨ d = s.settings.refreshInterval := by
    intro h
    rcases List.mem_cons.mp h with he | h
    · exact Or.inr (hset ▸ Note.syncStarting.inj he)
    · exact Or.inl (hu h)
  split at h
  · exact Or.inl (hu (hfinish h))
  split at h
  · exact Or.inl (hu (hfinish h))
  · exact Or.inl (hu (hfinish h))
  split at h
  · exact Or.inl (hu (hfinish h))
  split at h
  · exact hstarting (hfinish h)
  · have hspawned : Note.syncStarting d ∈ (starting.note (.syncSpawned starting.next)).journal :=
      hfinish h
    exact hstarting (hnote hspawned nofun)

open Settings in
/-- What is promised of spans that this library writes. -/
structure SpansReread : Prop where
  /-- The written form of a span, with any blanks around it, is read as the span. -/
  written : ∀ (d : Span) {value}, Padded value d.text → ∀ key, readSpan key value = .ok d
  /-- What a call that took too long shows as its limit is read as the limit. -/
  limit : ∀ operation d {shown}, (Cause.timedOut operation d).text
    = operation ++ " timed out after " ++ shown → ∀ key, readSpan key shown = .ok d
  /-- What the start of the background refresh logs as its interval is read as the interval. -/
  logged : ∀ (s : Engine.State) scheduler {d}, .syncStarting d ∈ (s.start scheduler).journal →
    .syncStarting d ∉ s.journal → ∃ shown, (Engine.Note.syncStarting d).line?
        = some ⟨.info, "starting privilege sync every " ++ shown⟩
      ∧ ∀ key, readSpan key shown = .ok s.settings.refreshInterval
  /-- Settings take the written form of a span for the interval between refreshes, if it is not
  zero. -/
  interval : ∀ {before after s pair} {d : Span}, Around .refreshInterval before after s →
    Names pair .refreshInterval → Padded pair.2 d.text → ofProperties (before ++ pair :: after)
      = if d.isZero = true then .error (.zero .refreshInterval)
        else .ok { s with refreshInterval := d }
  /-- They take it for the limit of a backend call as well. -/
  timeout : ∀ {before after s pair} {d : Span}, Around .backendTimeout before after s →
    Names pair .backendTimeout → Padded pair.2 d.text → ofProperties (before ++ pair :: after)
      = if d.isZero = true then .error (.zero .backendTimeout)
        else .ok { s with backendTimeout := d }
  /-- A number that is a word is read as so many seconds, with their unit or without. -/
  counted : ∀ {n} (h : n < wordLimit) {value}, Padded value (toString n)
    ∨ Padded value (toString n ++ "s") → ∀ key, readSpan key value = .ok (.seconds n h)

/-- **What this library writes of a span, it reads as the span.** -/
theorem spans_reread : SpansReread where
  written d value h key := Settings.readSpan_eq_ok_iff.mpr (Settings.spanText_of_written h)
  limit operation d shown h key := by
    obtain rfl : d.text = shown := by simpa [Cause.text] using h
    exact Settings.readSpan_eq_ok_iff.mpr (Settings.spanText_of_written (.refl _))
  logged s scheduler d h hnew := by
    obtain rfl := (Engine.State.syncStarting_mem_start h).resolve_left hnew
    refine ⟨_, rfl, fun key => ?_⟩
    exact Settings.readSpan_eq_ok_iff.mpr (Settings.spanText_of_written (.refl _))
  interval h hkey hd := h.ofProperties_eq ⟨hkey, Settings.spanText_of_written hd⟩
  timeout h hkey hd := h.ofProperties_eq ⟨hkey, Settings.spanText_of_written hd⟩
  counted hn value h key := Settings.readSpan_eq_ok_iff.mpr (Settings.spanText_of_count hn h)

/-- An interval as it is logged, with blanks around it. -/
example : Settings.ofProperties
      [("authorization.cache.refresh-interval", "\t1year 2months 30us\n")]
    = .ok { refreshInterval := ⟨36817632 * nanosPerSecond + 30000, by decide⟩ } := by
  decide +kernel

end Gatekeeper

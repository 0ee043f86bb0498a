import Gatekeeper.Proofs.Grammar
import Gatekeeper.Settings.Basic
import Mathlib.Data.List.Induction

/-!
# Settings from properties

Settings are read from a list of pairs of a key and a value.  The list may be that of a whole site:
pairs of other families are passed over.  Every other pair has to have a key of this library and a
value of the right form, and the first that has not is what the list is refused for.  Only when all
pairs are in order are the values looked at that come out of them, and of the pairs with one key
only the last then counts.

* `ValueKind`, `Settings.get`, `Settings.set` — the six settings as one family.
* `ValueKind.Text`, `ValueKind.Flaw` — which texts write a value, and what is wrong with any other.
* `WellFormed`, `PairFlaw` — the same of pairs; `assignPair_eq_ok_iff` and `assignPair_eq_error_iff`
  say that this is what a pair is looked at for.
* `Final`, `FirstFlaw` — what a list of pairs comes to.
* `LastValueWins`, `last_value_wins` — all that is promised.

Each of the statements is an equivalence, in both directions, for success as for failure.  A
reader that is characterised like that can be forgotten: what is proved of lists of pairs
afterwards is about which pairs give which values, and no longer about texts.
-/

set_option autoImplicit false

namespace Gatekeeper

open Text

namespace Settings

/-! ## Texts of values

There are three forms of values: truth, counts and spans.  For each, one statement says which
texts are read as which value, and one says what any other text is refused for, so that from here
on nobody has to look at how they are read. -/

/-- The text is `true` or `false` in any case, with blanks around it. -/
def TruthText (value : String) (b : Bool) : Prop :=
  Spells value.toList (if b then "true" else "false")

/-- The text is a number of 64 bits, with blanks around it. -/
def CountText (value : String) (n : Nat) : Prop :=
  ∃ t, Trims value.toList t ∧ word? t = some n

/-- The text is a span, with blanks around it. -/
def SpanText (value : String) (d : Span) : Prop :=
  ∃ t, Trims value.toList t ∧ Span.read t = .ok d

variable {key : Key} {value : String} {f : SettingsFault}

theorem readBool_eq_ok_iff {b : Bool} : readBool key value = .ok b ↔ TruthText value b := by
  rw [TruthText, spells_iff, readBool]
  split
  · rename_i h
    cases b <;> simp [h]
  · rename_i h
    cases b <;> simp [h]
  · rename_i htrue hfalse
    refine iff_of_false (by simp) fun h => ?_
    cases b
    · exact hfalse h.symm
    · exact htrue h.symm

theorem readBool_eq_error_iff : readBool key value = .error f
    ↔ (∀ b, ¬TruthText value b) ∧ f = .notBoolean key value := by
  simp only [← @readBool_eq_ok_iff key value]
  rw [readBool]
  split <;> simp [eq_comm]

theorem readCount_eq_ok_iff {n : Nat} : readCount key value = .ok n ↔ CountText value n := by
  simp only [CountText, ← trim_eq_iff, exists_eq_left', readCount]
  cases word? (trim value.toList) <;> simp

theorem readCount_eq_error_iff : readCount key value = .error f
    ↔ (∀ n, ¬CountText value n) ∧ f = .notInteger key value := by
  simp only [← @readCount_eq_ok_iff key value, readCount]
  cases word? (trim value.toList) <;> simp [eq_comm]

theorem readSpan_eq_ok_iff {d : Span} : readSpan key value = .ok d ↔ SpanText value d := by
  simp only [SpanText, ← trim_eq_iff, exists_eq_left', readSpan]
  cases Span.read (trim value.toList) <;> simp

theorem readSpan_eq_error_iff : readSpan key value = .error f
    ↔ ∃ t fault, Trims value.toList t ∧ Span.read t = .error fault
      ∧ f = .notSpan key (String.ofList t) fault := by
  simp only [← trim_eq_iff, exists_and_left, exists_eq_left', readSpan]
  cases Span.read (trim value.toList) <;> simp [eq_comm]

end Settings

/-! ## The family of settings

The six settings differ in the form of their values, in the field they fill, and in the text of
their key.  All else is the same, so they are treated as one family that is indexed by the key:
what can be read for a key, and how a setting is read off and replaced. -/

/-- What the value of a setting can be. -/
inductive ValueKind where
  | truth
  | count
  | span

namespace ValueKind

/-- The values of the kind. -/
def Value : ValueKind → Type
  | truth => Bool
  | count => Nat
  | span => Span

/-- Reads a value that is given for a key. -/
def read : (kind : ValueKind) → Key → String → Except SettingsFault kind.Value
  | truth => Settings.readBool
  | count => Settings.readCount
  | span => Settings.readSpan

/-- The text writes the value. -/
def Text : (kind : ValueKind) → String → kind.Value → Prop
  | truth => Settings.TruthText
  | count => Settings.CountText
  | span => Settings.SpanText

/-- What is wrong with a text that writes no value of the kind.  A bad span is shown without the
blanks around it. -/
inductive Flaw : ValueKind → Key → String → SettingsFault → Prop
  | truth {key : Key} {value : String} (h : ∀ b, ¬Settings.TruthText value b) :
    Flaw truth key value (.notBoolean key value)
  | count {key : Key} {value : String} (h : ∀ n, ¬Settings.CountText value n) :
    Flaw count key value (.notInteger key value)
  | span {key : Key} {value : String} {t : List Char} {fault : SpanFault}
    (h : Trims value.toList t) (hf : Span.read t = .error fault) :
    Flaw span key value (.notSpan key (String.ofList t) fault)

/-- The value is a number, or a length of time, of zero. -/
def isZero : (kind : ValueKind) → kind.Value → Bool
  | truth => fun _ => false
  | count => fun n : Nat => decide (n = 0)
  | span => Span.isZero

variable {kind : ValueKind} {key : Key} {value : String}

theorem read_eq_ok_iff {v : kind.Value} : kind.read key value = .ok v ↔ kind.Text value v := by
  cases kind <;> unfold read Text
  · exact Settings.readBool_eq_ok_iff
  · exact Settings.readCount_eq_ok_iff
  · exact Settings.readSpan_eq_ok_iff

theorem read_eq_error_iff {f : SettingsFault} :
    kind.read key value = .error f ↔ kind.Flaw key value f := by
  cases kind <;> unfold read
  case truth =>
    refine Settings.readBool_eq_error_iff.trans ⟨fun ⟨h, he⟩ => he ▸ .truth h, fun h => ?_⟩
    cases h with
    | truth h => exact ⟨h, rfl⟩
  case count =>
    refine Settings.readCount_eq_error_iff.trans ⟨fun ⟨h, he⟩ => he ▸ .count h, fun h => ?_⟩
    cases h with
    | count h => exact ⟨h, rfl⟩
  case span =>
    refine Settings.readSpan_eq_error_iff.trans
      ⟨fun ⟨t, fault, h, hf, he⟩ => he ▸ .span h hf, fun h => ?_⟩
    cases h with
    | span h hf => exact ⟨_, _, h, hf, rfl⟩

end ValueKind

/-- What the value of the setting can be. -/
def Key.kind : Key → ValueKind
  | authorization | caching | fetchOnMiss => .truth
  | refreshParallelism => .count
  | refreshInterval | backendTimeout => .span

namespace Settings

variable {s t : Settings} {key key' : Key} {v : key.kind.Value}

/-- The setting of a key. -/
def get (s : Settings) : (key : Key) → key.kind.Value
  | .authorization => s.authorization
  | .caching => s.caching
  | .refreshInterval => s.refreshInterval
  | .fetchOnMiss => s.fetchOnMiss
  | .refreshParallelism => s.refreshParallelism
  | .backendTimeout => s.backendTimeout

/-- The settings with another value for one key. -/
def set (s : Settings) : (key : Key) → key.kind.Value → Settings
  | .authorization, b => { s with authorization := b }
  | .caching, b => { s with caching := b }
  | .refreshInterval, d => { s with refreshInterval := d }
  | .fetchOnMiss, b => { s with fetchOnMiss := b }
  | .refreshParallelism, n => { s with refreshParallelism := n }
  | .backendTimeout, d => { s with backendTimeout := d }

@[simp] theorem get_set_self (s : Settings) (key : Key) (v : key.kind.Value) :
    (s.set key v).get key = v := by
  cases key <;> rfl

theorem get_set_of_ne (h : key' ≠ key) : (s.set key v).get key' = s.get key' := by
  cases key <;> cases key' <;> first | rfl | exact absurd rfl h

theorem set_set_of_ne (h : key' ≠ key) {v' : key'.kind.Value} :
    (s.set key v).set key' v' = (s.set key' v').set key v := by
  cases key <;> cases key' <;> first | rfl | exact absurd rfl h

/-- Settings are what they say for each key. -/
theorem ext_get (h : ∀ key, s.get key = t.get key) : s = t := by
  obtain ⟨a, c, i, f, p, b⟩ := s
  obtain ⟨a', c', i', f', p', b'⟩ := t
  obtain rfl : a = a' := h .authorization
  obtain rfl : c = c' := h .caching
  obtain rfl : i = i' := h .refreshInterval
  obtain rfl : f = f' := h .fetchOnMiss
  obtain rfl : p = p' := h .refreshParallelism
  obtain rfl : b = b' := h .backendTimeout
  rfl

/-- A key is given the value that is read for it. -/
theorem assign_eq (s : Settings) (key : Key) (value : String) :
    s.assign key value = (key.kind.read key value).map (s.set key) := by
  have hmap : ∀ {α : Type} (x : Except SettingsFault α) (f : α → Settings),
      (do return f (← x)) = x.map f := by
    intro α x f
    cases x <;> rfl
  cases key <;> exact hmap _ _

/-! ## Ranges

Three settings must not be zero.  The code looks at them in a fixed order and names the first
that is; `FirstZero` says this of the whole family, with the order of the keys. -/

/-- Nothing is zero that must not be. -/
def InRange (s : Settings) : Prop := ∀ key : Key, key.kind.isZero (s.get key) = false

/-- The key is the first, in the order of the keys, that has a value of zero. -/
def FirstZero (s : Settings) (key : Key) : Prop :=
  key.kind.isZero (s.get key) = true
    ∧ ∃ before after, Key.all = before ++ key :: after
      ∧ ∀ k ∈ before, k.kind.isZero (s.get k) = false

/-- The three keys whose values are looked at are the only ones that can be zero. -/
theorem zeroKey?_eq (s : Settings) :
    s.zeroKey? = Key.all.find? fun key => key.kind.isZero (s.get key) := by
  have htruth : ∀ b : Bool, ValueKind.truth.isZero b = false := fun _ => rfl
  have hcount : ∀ n : Nat, ValueKind.count.isZero n = decide (n = 0) := fun _ => rfl
  have hspan : ∀ d : Span, ValueKind.span.isZero d = d.isZero := fun _ => rfl
  simp only [Key.all, List.find?, Key.kind, get, htruth, hcount, hspan, zeroKey?]
  by_cases hp : s.refreshParallelism = 0 <;> cases s.refreshInterval.isZero <;>
    cases s.backendTimeout.isZero <;> simp [hp]

theorem zeroKey?_eq_some_iff : s.zeroKey? = some key ↔ s.FirstZero key := by
  rw [zeroKey?_eq, List.find?_eq_some_iff_append, FirstZero]
  simp only [Bool.not_eq_true']

theorem zeroKey?_eq_none_iff : s.zeroKey? = none ↔ s.InRange := by
  rw [zeroKey?_eq, List.find?_eq_none]
  simp only [Bool.not_eq_true]
  exact ⟨fun h key => h key (Vocabulary.mem_all key), fun h key _ => h key⟩

theorem check_eq_ok_iff : s.check = .ok () ↔ s.InRange := by
  rw [← zeroKey?_eq_none_iff, check]
  cases s.zeroKey? <;> simp

theorem check_eq_error_iff {f : SettingsFault} :
    s.check = .error f ↔ ∃ key, s.FirstZero key ∧ f = .zero key := by
  simp only [← zeroKey?_eq_some_iff, check]
  cases s.zeroKey? <;> simp [eq_comm]

/-! ## Pairs

A pair can be foreign, can give a value to a key, or is bad.  Which of these it is does not
depend on the settings that were read before, which is what makes the order of pairs with
different keys irrelevant. -/

/-- The pair has the key, with blanks around it. -/
def Names (pair : String × String) (key : Key) : Prop := Trims pair.1.toList key.text.toList

/-- The pair has a key of another family. -/
def Foreign (pair : String × String) : Prop :=
  ∃ t, Trims pair.1.toList t ∧ ¬Key.family.toList <+: t

/-- The pair gives the key this value. -/
def Gives (pair : String × String) (key : Key) (v : key.kind.Value) : Prop :=
  Names pair key ∧ key.kind.Text pair.2 v

/-- The pair is none of this library's, or it gives a key a value. -/
def WellFormed (pair : String × String) : Prop :=
  Foreign pair ∨ ∃ key v, Gives pair key v

/-- What is wrong with a pair. -/
inductive PairFlaw (pair : String × String) : SettingsFault → Prop
  | key {t : List Char} (h : Trims pair.1.toList t) (hf : Key.family.toList <+: t)
    (hn : ∀ key : Key, t ≠ key.text.toList) : PairFlaw pair (.unknownKey (String.ofList t))
  | value {key : Key} {f : SettingsFault} (h : Names pair key)
    (hf : key.kind.Flaw key pair.2 f) : PairFlaw pair f

section

variable {pair : String × String} {key key' : Key}

theorem names_iff : Names pair key ↔ trim pair.1.toList = key.text.toList := trim_eq_iff.symm

theorem Names.unique (h : Names pair key) (h' : Names pair key') : key = key' :=
  Vocabulary.word_injective
    (String.toList_inj.mp ((names_iff.mp h).symm.trans (names_iff.mp h')))

theorem foreign_iff : Foreign pair ↔ ¬Key.family.toList <+: trim pair.1.toList := by
  simp only [Foreign, ← trim_eq_iff, exists_eq_left']

theorem Names.not_foreign (h : Names pair key) : ¬Foreign pair := by
  rw [foreign_iff, names_iff.mp h, not_not]
  cases key <;> decide

theorem assignPair_of_names (s : Settings) (h : Names pair key) :
    s.assignPair pair = (key.kind.read key pair.2).map (s.set key) := by
  have hword : Vocabulary.ofWord? (String.ofList (trim pair.1.toList)) = some key := by
    rw [Vocabulary.ofWord?_eq_some_iff, names_iff.mp h, String.ofList_toList]
    rfl
  simp only [assignPair, hword, assign_eq]

theorem assignPair_of_unnamed (s : Settings) (h : ∀ key, ¬Names pair key) : s.assignPair pair
    = if Key.family.toList <+: trim pair.1.toList
      then .error (.unknownKey (String.ofList (trim pair.1.toList))) else .ok s := by
  have hnone : (Vocabulary.ofWord? (String.ofList (trim pair.1.toList)) : Option Key) = none := by
    rw [Option.eq_none_iff_forall_ne_some]
    intro key hkey
    refine h key (names_iff.mpr (String.ofList_injective ?_))
    rw [String.ofList_toList]
    exact Vocabulary.ofWord?_eq_some_iff.mp hkey
  simp only [assignPair, hnone, List.isPrefixOf_iff_prefix]

theorem assignPair_of_foreign (s : Settings) (h : Foreign pair) : s.assignPair pair = .ok s := by
  rw [assignPair_of_unnamed s fun key hk => hk.not_foreign h, if_neg (foreign_iff.mp h)]

/-- **A pair is refused for what is wrong with it**, whatever the settings were before. -/
theorem assignPair_eq_error_iff {s : Settings} {f : SettingsFault} :
    s.assignPair pair = .error f ↔ PairFlaw pair f := by
  constructor
  · intro h
    by_cases hnamed : ∃ key, Names pair key
    · obtain ⟨key, hkey⟩ := hnamed
      rw [assignPair_of_names s hkey] at h
      refine .value hkey (ValueKind.read_eq_error_iff.mp ?_)
      cases hread : key.kind.read key pair.2 <;> simp_all [Except.map]
    · rw [not_exists] at hnamed
      rw [assignPair_of_unnamed s hnamed] at h
      split at h
      · rename_i hfamily
        refine Except.error.inj h ▸ .key (trims_trim _) hfamily fun key hkey => ?_
        exact hnamed key (names_iff.mpr hkey)
      · cases h
  · intro h
    cases h with
    | key ht hf hn =>
      obtain rfl := trim_eq_iff.mpr ht
      rw [assignPair_of_unnamed s fun key hkey => hn key (names_iff.mp hkey), if_pos hf]
    | value hkey hf =>
      rw [assignPair_of_names s hkey, ValueKind.read_eq_error_iff.mpr hf]
      rfl

theorem assignPair_of_gives (s : Settings) {v : key.kind.Value} (h : Gives pair key v) :
    s.assignPair pair = .ok (s.set key v) := by
  rw [assignPair_of_names s h.1, ValueKind.read_eq_ok_iff.mpr h.2]
  rfl

/-- **A pair in order gives its key the value that it writes**, or is passed over. -/
theorem assignPair_eq_ok_iff {s t : Settings} : s.assignPair pair = .ok t
    ↔ Foreign pair ∧ t = s ∨ ∃ key v, Gives pair key v ∧ t = s.set key v := by
  constructor
  · intro h
    by_cases hnamed : ∃ key, Names pair key
    · obtain ⟨key, hkey⟩ := hnamed
      rw [assignPair_of_names s hkey] at h
      cases hread : key.kind.read key pair.2 with
      | error f =>
        rw [hread] at h
        cases h
      | ok v =>
        rw [hread] at h
        have hgives : Gives pair key v := ⟨hkey, ValueKind.read_eq_ok_iff.mp hread⟩
        exact Or.inr ⟨key, v, hgives, (Except.ok.inj h).symm⟩
    · rw [not_exists] at hnamed
      rw [assignPair_of_unnamed s hnamed] at h
      split at h
      · cases h
      · rename_i hfamily
        exact Or.inl ⟨foreign_iff.mpr hfamily, (Except.ok.inj h).symm⟩
  · rintro (⟨h, rfl⟩ | ⟨key, v, h, rfl⟩)
    · exact assignPair_of_foreign t h
    · exact assignPair_of_gives s h

theorem exists_assignPair_iff (s : Settings) :
    (∃ t, s.assignPair pair = .ok t) ↔ WellFormed pair := by
  simp only [assignPair_eq_ok_iff, WellFormed]
  constructor
  · rintro ⟨t, ⟨h, -⟩ | ⟨key, v, h, -⟩⟩
    · exact Or.inl h
    · exact Or.inr ⟨key, v, h⟩
  · rintro (h | ⟨key, v, h⟩)
    · exact ⟨s, Or.inl ⟨h, rfl⟩⟩
    · exact ⟨s.set key v, Or.inr ⟨key, v, h, rfl⟩⟩

/-- What a pair does to the setting of one key. -/
theorem get_assignPair {s t : Settings} (h : s.assignPair pair = .ok t) (key : Key) :
    Gives pair key (t.get key) ∨ ¬Names pair key ∧ t.get key = s.get key := by
  rcases assignPair_eq_ok_iff.mp h with ⟨hf, rfl⟩ | ⟨key', v, hg, rfl⟩
  · exact Or.inr ⟨fun hkey => hkey.not_foreign hf, rfl⟩
  · by_cases he : key = key'
    · subst he
      rw [get_set_self]
      exact Or.inl hg
    · exact Or.inr ⟨fun hkey => he (hkey.unique hg.1), get_set_of_ne he⟩

end

/-! ## Lists of pairs

The list is read from the front, and each pair replaces what was read for its key.  So the first
bad pair decides whether the list is refused and for what, and for each key the last pair that
names it decides the value.  Both are inductions on the list, from either end. -/

/-- The value of the key is that of the last pair with this key, or else the default. -/
def Final (pairs : List (String × String)) (key : Key) (v : key.kind.Value) : Prop :=
  (∃ before pair after, pairs = before ++ pair :: after ∧ Gives pair key v
    ∧ ∀ q ∈ after, ¬Names q key)
  ∨ (∀ q ∈ pairs, ¬Names q key) ∧ v = get {} key

/-- What is wrong with the first pair with which anything is. -/
def FirstFlaw (pairs : List (String × String)) (f : SettingsFault) : Prop :=
  ∃ before pair after, pairs = before ++ pair :: after ∧ (∀ q ∈ before, WellFormed q)
    ∧ PairFlaw pair f

section

variable {pairs : List (String × String)} {pair : String × String} {key : Key}

theorem Gives.unique {v v' : key.kind.Value} (h : Gives pair key v) (h' : Gives pair key v') :
    v = v' := by
  have hread : key.kind.read key pair.2 = .ok v := ValueKind.read_eq_ok_iff.mpr h.2
  rw [ValueKind.read_eq_ok_iff.mpr h'.2] at hread
  exact (Except.ok.inj hread).symm

/-- One more pair at the end has the last word on its key. -/
theorem final_concat_iff {v : key.kind.Value} : Final (pairs ++ [pair]) key v
    ↔ Gives pair key v ∨ ¬Names pair key ∧ Final pairs key v := by
  constructor
  · rintro (⟨before, p, after, he, hg, hafter⟩ | ⟨hnone, hv⟩)
    · rcases List.eq_nil_or_concat' after with rfl | ⟨after, q, rfl⟩
      · obtain ⟨-, rfl⟩ := List.append_singleton_inj.mp he
        exact Or.inl hg
      · rw [← List.cons_append, ← List.append_assoc] at he
        obtain ⟨rfl, rfl⟩ := List.append_singleton_inj.mp he
        rw [List.forall_mem_append, List.forall_mem_singleton] at hafter
        exact Or.inr ⟨hafter.2, Or.inl ⟨before, p, after, rfl, hg, hafter.1⟩⟩
    · rw [List.forall_mem_append, List.forall_mem_singleton] at hnone
      exact Or.inr ⟨hnone.2, Or.inr ⟨hnone.1, hv⟩⟩
  · rintro (hg | ⟨hn, ⟨before, p, after, rfl, hg, hafter⟩ | ⟨hnone, hv⟩⟩)
    · exact Or.inl ⟨pairs, pair, [], rfl, hg, fun _ h => absurd h List.not_mem_nil⟩
    · refine Or.inl ⟨before, p, after ++ [pair], by simp, hg, ?_⟩
      exact List.forall_mem_append.mpr ⟨hafter, List.forall_mem_singleton.mpr hn⟩
    · refine Or.inr ⟨?_, hv⟩
      exact List.forall_mem_append.mpr ⟨hnone, List.forall_mem_singleton.mpr hn⟩

theorem Final.unique {v v' : key.kind.Value} (h : Final pairs key v) (h' : Final pairs key v') :
    v = v' := by
  induction pairs using List.reverseRecOn with
  | nil =>
    obtain ⟨before, p, after, he, -⟩ | ⟨-, rfl⟩ := h
    · simp at he
    obtain ⟨before, p, after, he, -⟩ | ⟨-, rfl⟩ := h'
    · simp at he
    rfl
  | append_singleton pairs pair ih =>
    rcases final_concat_iff.mp h with hg | ⟨hn, h⟩ <;>
      rcases final_concat_iff.mp h' with hg' | ⟨hn', h'⟩
    · exact hg.unique hg'
    · exact absurd hg.1 hn'
    · exact absurd hg'.1 hn
    · exact ih h h'

theorem firstFlaw_cons_iff {f : SettingsFault} : FirstFlaw (pair :: pairs) f
    ↔ PairFlaw pair f ∨ WellFormed pair ∧ FirstFlaw pairs f := by
  constructor
  · rintro ⟨before, p, after, he, hbefore, hf⟩
    rcases List.cons_eq_append_iff.mp he with ⟨rfl, he⟩ | ⟨before, rfl, rfl⟩
    · obtain ⟨rfl, -⟩ := List.cons.inj he
      exact Or.inl hf
    · rw [List.forall_mem_cons] at hbefore
      exact Or.inr ⟨hbefore.1, before, p, after, rfl, hbefore.2, hf⟩
  · rintro (hf | ⟨hw, before, p, after, rfl, hbefore, hf⟩)
    · exact ⟨[], pair, pairs, rfl, fun _ h => absurd h List.not_mem_nil, hf⟩
    · exact ⟨pair :: before, p, after, rfl, List.forall_mem_cons.mpr ⟨hw, hbefore⟩, hf⟩

/-- A list is refused for its first bad pair, whatever the settings were before. -/
theorem foldlM_eq_error_iff {s : Settings} {f : SettingsFault} :
    pairs.foldlM assignPair s = .error f ↔ FirstFlaw pairs f := by
  induction pairs generalizing s with
  | nil => exact iff_of_false (by simp [pure, Except.pure]) (by simp [FirstFlaw])
  | cons pair pairs ih =>
    rw [List.foldlM_cons, Except.bind_eq_error_iff, assignPair_eq_error_iff, firstFlaw_cons_iff,
      ← exists_assignPair_iff s]
    simp only [ih, exists_and_right]

theorem exists_foldlM_iff (s : Settings) :
    (∃ t, pairs.foldlM assignPair s = .ok t) ↔ ∀ pair ∈ pairs, WellFormed pair := by
  induction pairs generalizing s with
  | nil => exact iff_of_true ⟨s, rfl⟩ (by simp)
  | cons pair pairs ih =>
    simp only [List.foldlM_cons, Except.bind_eq_ok_iff, List.forall_mem_cons]
    constructor
    · rintro ⟨t, u, hu, ht⟩
      exact ⟨(exists_assignPair_iff s).mp ⟨u, hu⟩, (ih u).mp ⟨t, ht⟩⟩
    · rintro ⟨hpair, hpairs⟩
      obtain ⟨u, hu⟩ := (exists_assignPair_iff s).mpr hpair
      obtain ⟨t, ht⟩ := (ih u).mpr hpairs
      exact ⟨t, u, hu, ht⟩

theorem final_of_foldlM {s : Settings} (h : pairs.foldlM assignPair {} = .ok s) (key : Key) :
    Final pairs key (s.get key) := by
  induction pairs using List.reverseRecOn generalizing s with
  | nil =>
    obtain rfl := Except.ok.inj h
    exact Or.inr ⟨fun _ hq => absurd hq List.not_mem_nil, rfl⟩
  | append_singleton pairs pair ih =>
    rw [List.foldlM_append, Except.bind_eq_ok_iff] at h
    obtain ⟨t, ht, h⟩ := h
    simp only [List.foldlM_cons, List.foldlM_nil, bind_pure] at h
    refine final_concat_iff.mpr ((get_assignPair h key).imp_right fun ⟨hn, he⟩ => ⟨hn, ?_⟩)
    rw [he]
    exact ih ht

/-- Settings are what a list of pairs makes of the defaults. -/
theorem foldlM_eq_ok_iff {s : Settings} : pairs.foldlM assignPair {} = .ok s
    ↔ (∀ pair ∈ pairs, WellFormed pair) ∧ ∀ key, Final pairs key (s.get key) := by
  constructor
  · exact fun h => ⟨(exists_foldlM_iff {}).mp ⟨s, h⟩, final_of_foldlM h⟩
  · rintro ⟨hwell, hfinal⟩
    obtain ⟨t, ht⟩ := (exists_foldlM_iff {}).mpr hwell
    rw [ht, ext_get fun key => (final_of_foldlM ht key).unique (hfinal key)]

/-! ### Checking what was read

Ranges are looked at when the whole list has been read, so that a later pair can still replace a
zero. -/

theorem ofProperties_eq_ok_iff {s : Settings} : ofProperties pairs = .ok s
    ↔ pairs.foldlM assignPair {} = .ok s ∧ s.InRange := by
  simp only [ofProperties, Except.bind_eq_ok_iff, ← check_eq_ok_iff]
  constructor
  · rintro ⟨t, ht, _, hcheck, he⟩
    obtain rfl := Except.ok.inj he
    exact ⟨ht, hcheck⟩
  · rintro ⟨ht, hcheck⟩
    exact ⟨s, ht, (), hcheck, rfl⟩

/-- The ranges are looked at when nothing else is wrong. -/
theorem ofProperties_eq_error_iff {f : SettingsFault} : ofProperties pairs = .error f
    ↔ pairs.foldlM assignPair {} = .error f
      ∨ ∃ s key, pairs.foldlM assignPair {} = .ok s ∧ s.FirstZero key ∧ f = .zero key := by
  simp only [ofProperties, Except.bind_eq_error_iff, check_eq_error_iff, exists_and_left]
  refine or_congr Iff.rfl (exists_congr fun s => and_congr Iff.rfl (or_iff_left ?_))
  rintro ⟨-, -, he⟩
  cases he

theorem ofProperties_congr {pairs' : List (String × String)}
    (h : pairs.foldlM assignPair {} = pairs'.foldlM assignPair {}) :
    ofProperties pairs = ofProperties pairs' := by
  rw [ofProperties, ofProperties, h]

/-- Pairs with other keys do not care for the setting of a key. -/
theorem foldlM_set {s t : Settings} (h : pairs.foldlM assignPair s = .ok t)
    (hn : ∀ q ∈ pairs, ¬Names q key) (v : key.kind.Value) :
    pairs.foldlM assignPair (s.set key v) = .ok (t.set key v) := by
  induction pairs generalizing s with
  | nil =>
    obtain rfl := Except.ok.inj h
    rfl
  | cons pair pairs ih =>
    rw [List.foldlM_cons, Except.bind_eq_ok_iff] at h ⊢
    rw [List.forall_mem_cons] at hn
    obtain ⟨u, hu, h⟩ := h
    refine ⟨u.set key v, ?_, ih h hn.2⟩
    rcases assignPair_eq_ok_iff.mp hu with ⟨hf, rfl⟩ | ⟨key', v', hg, rfl⟩
    · exact assignPair_of_foreign _ hf
    · have hkeys : key ≠ key' := fun he => hn.1 (he ▸ hg.1)
      rw [assignPair_of_gives _ hg, set_set_of_ne hkeys]

/-- The last pair with a key has its way, wherever it stands, unless it gives a zero where none must
be.  The settings `s` are what the other pairs make of the defaults. -/
theorem ofProperties_of_gives {before after : List (String × String)} {s : Settings}
    {v : key.kind.Value} (hs : (before ++ after).foldlM assignPair {} = .ok s)
    (hothers : ∀ k, k ≠ key → k.kind.isZero (s.get k) = false) (hg : Gives pair key v)
    (hlast : ∀ q ∈ after, ¬Names q key) : ofProperties (before ++ pair :: after)
      = if key.kind.isZero v = true then .error (.zero key) else .ok (s.set key v) := by
  have hfold : (before ++ pair :: after).foldlM assignPair {} = .ok (s.set key v) := by
    rw [List.foldlM_append, Except.bind_eq_ok_iff] at hs ⊢
    obtain ⟨u, hu, hs⟩ := hs
    refine ⟨u, hu, ?_⟩
    rw [List.foldlM_cons, assignPair_of_gives u hg]
    exact foldlM_set hs hlast v
  have hrest : ∀ k, k ≠ key → k.kind.isZero ((s.set key v).get k) = false := by
    intro k hk
    rw [get_set_of_ne hk]
    exact hothers k hk
  by_cases hz : key.kind.isZero v = true
  · obtain ⟨first, last, hall, hfirst⟩ := List.eq_append_cons_of_mem (Vocabulary.mem_all key)
    rw [if_pos hz, ofProperties_eq_error_iff]
    refine Or.inr ⟨_, key, hfold, ⟨?_, first, last, hall, fun k hk => hrest k ?_⟩, rfl⟩
    · rwa [get_set_self]
    · exact fun he => hfirst (he ▸ hk)
  · rw [if_neg hz, ofProperties_eq_ok_iff]
    refine ⟨hfold, fun k => ?_⟩
    by_cases hk : k = key
    · subst hk
      rw [get_set_self]
      exact Bool.not_eq_true _ ▸ hz
    · exact hrest k hk

/-! ### Pairs that make no difference

A foreign pair can stand anywhere, and pairs with different keys can change places. -/

/-- A pair of another family might as well not be there. -/
theorem ofProperties_insert (h : Foreign pair) (before after : List (String × String)) :
    ofProperties (before ++ pair :: after) = ofProperties (before ++ after) := by
  refine ofProperties_congr ?_
  rw [List.foldlM_append, List.foldlM_append]
  refine bind_congr fun s => ?_
  rw [List.foldlM_cons, assignPair_of_foreign s h]
  rfl

/-- Two pairs with different keys are looked at in either order. -/
theorem assignPair_comm {p q : String × String} (hp : WellFormed p) (hq : WellFormed q)
    (hne : trim p.1.toList ≠ trim q.1.toList) (s : Settings) :
    (s.assignPair p >>= (assignPair · q)) = (s.assignPair q >>= (assignPair · p)) := by
  rcases hp with hp | ⟨key, v, hp⟩
  · have hkeep : ∀ t : Settings, t.assignPair p = pure t := fun t => assignPair_of_foreign t hp
    simp only [hkeep, pure_bind, bind_pure]
  rcases hq with hq | ⟨key', v', hq⟩
  · have hkeep : ∀ t : Settings, t.assignPair q = pure t := fun t => assignPair_of_foreign t hq
    simp only [hkeep, pure_bind, bind_pure]
  have hkeys : key' ≠ key := by
    rintro rfl
    exact hne ((names_iff.mp hp.1).trans (names_iff.mp hq.1).symm)
  have hset : ∀ t : Settings, t.assignPair p = pure (t.set key v) :=
    fun t => assignPair_of_gives t hp
  have hset' : ∀ t : Settings, t.assignPair q = pure (t.set key' v') :=
    fun t => assignPair_of_gives t hq
  simp only [hset, hset', pure_bind, set_set_of_ne hkeys]

theorem ofProperties_swap {p q : String × String} (hp : WellFormed p) (hq : WellFormed q)
    (hne : trim p.1.toList ≠ trim q.1.toList) (before after : List (String × String)) :
    ofProperties (before ++ p :: q :: after) = ofProperties (before ++ q :: p :: after) := by
  refine ofProperties_congr ?_
  rw [List.foldlM_append, List.foldlM_append]
  refine bind_congr fun s => ?_
  simp only [List.foldlM_cons, ← bind_assoc]
  rw [assignPair_comm hp hq hne]

end

/-! ## What is promised

The statements above are put together, for lists as a whole. -/

/-- What is promised of settings that are read from a list of pairs. -/
structure LastValueWins : Prop where
  /-- A list is accepted if every pair is in order, also one that a later pair replaces, and nothing
  is zero in the end that must not be. -/
  accepts : ∀ pairs, (∃ s, ofProperties pairs = .ok s) ↔ (∀ pair ∈ pairs, WellFormed pair)
    ∧ ∀ (key : Key) v, Final pairs key v → key.kind.isZero v = false
  /-- Each setting is then that of the last pair with its key, or the default, and the settings pass
  the check. -/
  settles : ∀ {pairs s}, ofProperties pairs = .ok s →
    (∀ key, Final pairs key (s.get key)) ∧ s.check = .ok ()
  /-- Any other list is refused for the first pair that is not in order, or, if all are, for the
  first key that comes to zero. -/
  refuses : ∀ pairs f, ofProperties pairs = .error f ↔ FirstFlaw pairs f
    ∨ (∀ pair ∈ pairs, WellFormed pair) ∧ ∃ s : Settings, (∀ key, Final pairs key (s.get key))
      ∧ ∃ key, s.FirstZero key ∧ f = .zero key
  /-- Pairs of other families may come and go. -/
  ignores : ∀ {pair}, Foreign pair → ∀ before after,
    ofProperties (before ++ pair :: after) = ofProperties (before ++ after)
  /-- Neighbours that are in order and have different keys may change places. -/
  swaps : ∀ {p q}, WellFormed p → WellFormed q → trim p.1.toList ≠ trim q.1.toList →
    ∀ before after,
      ofProperties (before ++ p :: q :: after) = ofProperties (before ++ q :: p :: after)

/-- **Settings are read so that the last value of a key wins**, and that nothing wrong is passed
over. -/
theorem last_value_wins : LastValueWins where
  accepts pairs := by
    simp only [ofProperties_eq_ok_iff, foldlM_eq_ok_iff]
    constructor
    · rintro ⟨s, ⟨hwell, hfinal⟩, hrange⟩
      exact ⟨hwell, fun key v hv => (hfinal key).unique hv ▸ hrange key⟩
    · rintro ⟨hwell, hrange⟩
      obtain ⟨s, hs⟩ := (exists_foldlM_iff {}).mpr hwell
      have hfinal := final_of_foldlM hs
      exact ⟨s, ⟨hwell, hfinal⟩, fun key => hrange key _ (hfinal key)⟩
  settles h := by
    obtain ⟨hs, hrange⟩ := ofProperties_eq_ok_iff.mp h
    exact ⟨final_of_foldlM hs, check_eq_ok_iff.mpr hrange⟩
  refuses pairs f := by
    rw [ofProperties_eq_error_iff, foldlM_eq_error_iff]
    simp only [foldlM_eq_ok_iff, and_assoc, exists_and_left]
  ignores h := ofProperties_insert h
  swaps := ofProperties_swap

/-- A limit of zero does no harm if a later pair replaces it. -/
example : ofProperties [("authorization.backend.timeout", "0"), ("site.name", "maybe"),
      ("\tauthorization.backend.timeout", " 250ms ")]
    = .ok { backendTimeout := ⟨250 * nanosPerMilli, by decide⟩ } := by
  decide +kernel

/-- The second pair is told of, although the first leaves a limit at zero. -/
example : ofProperties [("authorization.backend.timeout", "0"), ("authorization.ttl", "5"),
      ("authorization.enabled", "perhaps")] = .error (.unknownKey "authorization.ttl") := by
  decide +kernel

end Settings

end Gatekeeper

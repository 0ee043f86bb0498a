import Gatekeeper.Identity.Privilege
import Gatekeeper.Proofs.Grammar

/-!
# Canonical written forms

An identifier is written in one way and read from many texts.  What is written of a valid identifier
is read as that identifier, and nothing else can be read of any identifier: one that was made
without the checks and has an invalid name, however odd, is written as a text that is refused or is
read as something else.  So the written form of what is read is a canonical form of the text, and
different valid identifiers are written differently.

* `ValidName.text`, `NamesText.valid` — the names that are read are the valid ones.
* `Principal.parse_text_iff`, `Entity.parse_text_iff` — what is written reads back exactly if it is
  valid.
* `Privilege.text_injective`, `PrivilegeSet.texts_eq_iff` — privileges on valid resources are told
  apart by what is written of them, and so are sets of such privileges.
* `Canonical`, `written_forms_canonical` — all that is promised.

Reading is known to accept exactly what the grammar writes (`Gatekeeper.Proofs.Grammar`), so
nothing has to be said of how texts are read.  What is left is that the written form is one of
the texts which the grammar writes for a valid identifier, and that it is no such text for an
invalid one.
-/

set_option autoImplicit false

namespace Gatekeeper

open Text

/-! ## Valid names

A valid name has no blanks in it, so it is what is left of its own text when the blanks are cut
off; and only a name of a principal may have full stops, so the names of a resource can be told
apart. -/

section

variable {role : NameRole} {cs : List Char} {name : String}

theorem ValidName.no_blank (h : ValidName role cs) : ∀ c ∈ cs, isBlank c = false := by
  intro c hc
  by_contra hblank
  have hallowed := h.allowed c hc
  rw [NameRole.not_allows_of_isBlank (Bool.not_eq_false _ ▸ hblank)] at hallowed
  cases hallowed

/-- Only names of principals have full stops in them. -/
theorem ValidName.no_stop (h : ValidName role cs) (hr : role ≠ .principal) : '.' ∉ cs := by
  intro hc
  have htakes := NameRole.allows_iff.mp (h.allowed '.' hc)
  rcases htakes with hc | hc | hc | ⟨hrole, -⟩
  · exact absurd hc (by decide)
  · exact absurd hc (by decide)
  · exact absurd hc (by decide)
  · exact hr hrole

/-- A valid name writes itself. -/
theorem ValidName.text (h : ValidName role name.toList) : NameText role name.toList name :=
  nameText_iff.mpr ⟨trim_eq_iff.mpr (.of_no_blank h.no_blank), h⟩

theorem NameText.valid (h : NameText role cs name) : ValidName role name.toList :=
  (nameText_iff.mp h).2

end

section

variable {roles : List NameRole} {parts : List (List Char)} {names : List String}

/-- What is read is valid, each name in its role. -/
theorem NamesText.valid (h : NamesText roles parts names) :
    ∀ p ∈ roles.zip names, ValidName p.1 p.2.toList := by
  induction h with
  | nil => simp
  | cons h _ ih =>
    rw [List.zip_cons_cons]
    exact List.forall_mem_cons.mpr ⟨h.valid, ih⟩

/-- Valid names write themselves. -/
theorem namesText_of_valid (hl : names.length = roles.length)
    (h : ∀ p ∈ roles.zip names, ValidName p.1 p.2.toList) :
    NamesText roles (names.map String.toList) names := by
  induction roles generalizing names with
  | nil =>
    obtain rfl := List.length_eq_zero_iff.mp hl
    exact .nil
  | cons role roles ih =>
    obtain ⟨name, names, rfl⟩ := List.exists_cons_of_length_eq_add_one hl
    rw [List.zip_cons_cons, List.forall_mem_cons] at h
    exact .cons h.1.text (ih (Nat.succ.inj hl) h.2)

/-- What is so of every valid name in one of the roles is so of every name that is read. -/
theorem NamesText.forall_names {P : String → Prop} (h : NamesText roles parts names)
    (hP : ∀ role ∈ roles, ∀ name : String, ValidName role name.toList → P name) :
    ∀ name ∈ names, P name := by
  induction h with
  | nil => simp
  | cons h _ ih =>
    rw [List.forall_mem_cons] at hP ⊢
    exact ⟨hP.1 _ h.valid, ih hP.2⟩

end

/-! ## Words

The words of kinds are in lower case and have neither blanks nor colons in them. -/

/-- The word of a kind spells itself, and there is no colon in it. -/
structure PlainWord (word : String) : Prop where
  spells : Spells word.toList word
  no_blank : ∀ c ∈ word.toList, isBlank c = false
  no_colon : ':' ∉ word.toList

theorem PlainWord.of {word : String} (h : word.toList.all fun c => c.toLower == c && !isBlank c
    && c != ':') : PlainWord word := by
  simp only [List.all_eq_true, Bool.and_eq_true, beq_iff_eq, Bool.not_eq_true', bne_iff_ne] at h
  have hblank : ∀ c ∈ word.toList, isBlank c = false := fun c hc => (h c hc).1.2
  have hlower : lower word.toList = word.toList :=
    (List.map_congr_left fun c hc => (h c hc).1.1).trans (List.map_id _)
  refine ⟨⟨_, .of_no_blank hblank, ?_⟩, hblank, fun hc => (h ':' hc).2 rfl⟩
  rw [hlower, String.ofList_toList]

theorem PrincipalKind.plain (kind : PrincipalKind) : PlainWord kind.word :=
  .of (by cases kind <;> decide)

theorem EntityKind.plain (kind : EntityKind) : PlainWord kind.word :=
  .of (by cases kind <;> decide)

/-- A label and a rest without blanks are found again. -/
theorem PlainWord.labels {word s : String} {rest : List Char} (h : PlainWord word)
    (hs : s.toList = word.toList ++ ':' :: rest) (hrest : ∀ c ∈ rest, isBlank c = false) :
    Labels s word.toList rest where
  trims := by
    rw [hs]
    refine .of_no_blank (List.forall_mem_append.mpr ⟨h.no_blank, ?_⟩)
    exact List.forall_mem_cons.mpr ⟨rfl, hrest⟩
  first := h.no_colon

/-! ## Canonical forms

For any reader and writer it is enough that what is written reads back exactly if it is valid,
and that what is read is valid.  Everything else that is asked of a canonical form follows. -/

/-- What is written is a canonical form of what is read. -/
structure Canonical {α : Type} (read : String → Except IdFault α) (write : α → String)
    (Valid : α → Prop) : Prop where
  /-- What is written of something is read as that thing exactly if it is valid. -/
  reread : ∀ a, read (write a) = .ok a ↔ Valid a
  /-- What is written of what has been read is read as the same. -/
  settled : ∀ {s a}, read s = .ok a → read (write a) = .ok a
  /-- Bringing a text into its canonical form changes nothing the second time. -/
  fixed : ∀ {s t}, (read s).map write = .ok t → (read t).map write = .ok t
  /-- Different valid things are written differently. -/
  injective : ∀ {a b}, Valid a → Valid b → write a = write b → a = b

theorem Canonical.of_reread {α : Type} {read : String → Except IdFault α} {write : α → String}
    {Valid : α → Prop} (reread : ∀ a, read (write a) = .ok a ↔ Valid a)
    (valid : ∀ {s a}, read s = .ok a → Valid a) : Canonical read write Valid where
  reread := reread
  settled h := (reread _).mpr (valid h)
  fixed {s t} h := by
    cases hs : read s with
    | error f =>
      rw [hs] at h
      cases h
    | ok a =>
      rw [hs] at h
      obtain rfl := Except.ok.inj h
      rw [(reread a).mpr (valid hs)]
      rfl
  injective {a b} ha hb h := by
    have hread := (reread a).mpr ha
    rw [h, (reread b).mpr hb] at hread
    exact (Except.ok.inj hread).symm

/-! ## Identifiers

Both kinds of identifiers meet this condition.  That an invalid name never reads back needs a
look at each way to be invalid: the text is refused, or its parts are cut elsewhere. -/

namespace Principal

variable {s : String} {p : Principal}

theorem valid_of_parse (h : parse s = .ok p) : p.Valid := by
  obtain ⟨-, -, hn⟩ := parse_eq_ok_iff.mp h
  exact hn.valid

/-- **What is written of a principal is read as this principal exactly if its name is valid.** -/
theorem parse_text_iff : parse p.text = .ok p ↔ p.Valid := by
  refine ⟨valid_of_parse, fun h => parse_eq_ok_iff.mpr ?_⟩
  have htext : p.text.toList = p.kind.word.toList ++ ':' :: p.name.toList := by
    simp [text, String.toList_append]
  exact ⟨p.kind.plain.labels htext h.no_blank, p.kind.plain.spells, h.text⟩

theorem canonical : Canonical parse text Valid :=
  .of_reread (fun _ => parse_text_iff) valid_of_parse

end Principal

namespace Entity

variable {s : String} {e : Entity}

theorem valid_of_parse (h : parse s = .ok e) : e.Valid := by
  obtain ⟨-, -, -, hn⟩ := parse_eq_ok_iff.mp h
  exact hn.valid

theorem mem_intercalate {sep c : Char} {parts : List (List Char)}
    (h : c ∈ [sep].intercalate parts) : c = sep ∨ ∃ part ∈ parts, c ∈ part := by
  induction parts with
  | nil => cases h
  | cons part parts ih =>
    cases parts with
    | nil => exact Or.inr ⟨part, List.mem_cons_self, by simpa using h⟩
    | cons next parts =>
      rw [List.intercalate_cons_cons, List.mem_append, List.mem_append, List.mem_singleton] at h
      rcases h with (h | h) | h
      · exact Or.inr ⟨part, List.mem_cons_self, h⟩
      · exact Or.inl h
      · exact (ih h).imp_right fun ⟨q, hq, hc⟩ => ⟨q, List.mem_cons_of_mem _ hq, hc⟩

theorem Valid.namesText (h : e.Valid) :
    NamesText e.kind.roles (e.names.map String.toList) e.names :=
  namesText_of_valid ((names_length e).trans (roles_length e.kind).symm) h

/-- **What is written of a resource is read as this resource exactly if its names are valid.** -/
theorem parse_text_iff : parse e.text = .ok e ↔ e.Valid := by
  refine ⟨valid_of_parse, fun h => parse_eq_ok_iff.mpr ?_⟩
  have hnames := h.namesText
  have hroles : ∀ role ∈ e.kind.roles, role ≠ .principal := by
    cases e.kind <;> decide
  have htext : e.text.toList
      = e.kind.word.toList ++ ':' :: ['.'].intercalate (e.names.map String.toList) := by
    simp [text, String.toList_append, String.toList_intercalate]
  have hblank : ∀ c ∈ ['.'].intercalate (e.names.map String.toList), isBlank c = false := by
    intro c hc
    rcases mem_intercalate hc with rfl | ⟨part, hpart, hc⟩
    · rfl
    · obtain ⟨name, hname, rfl⟩ := List.mem_map.mp hpart
      exact hnames.forall_names (fun _ _ _ h => h.no_blank) name hname c hc
  refine ⟨e.kind.plain.labels htext hblank, e.kind.plain.spells, ⟨rfl, ?_, ?_⟩, hnames⟩
  · rw [Ne, List.map_eq_nil_iff, ← List.length_eq_zero_iff, names_length]
    cases e.kind <;> decide
  · intro part hpart
    obtain ⟨name, hname, rfl⟩ := List.mem_map.mp hpart
    exact hnames.forall_names (fun role hrole _ h => h.no_stop (hroles role hrole)) name hname

theorem canonical : Canonical parse text Valid :=
  .of_reread (fun _ => parse_text_iff) valid_of_parse

end Entity

/-! ## Privileges

A privilege is written as its action and its resource with the word `on` between them.  The words
of actions have no blank in them, so both can be read off the text. -/

theorem cut_unique {sep : Char} {a a' b b' : List Char} (h : a ++ sep :: b = a' ++ sep :: b')
    (ha : sep ∉ a) (ha' : sep ∉ a') : a = a' ∧ b = b' := by
  have hcut := cutFirst?_eq_some_iff.mpr ⟨h, ha'⟩
  rw [cutFirst?_eq_some_iff.mpr ⟨rfl, ha⟩, Option.some.injEq, Prod.mk.injEq] at hcut
  exact hcut

/-- The action ends at the first blank, and what is left after `on` is the resource. -/
theorem Privilege.text_injective {x y : Privilege} (hx : x.entity.Valid) (hy : y.entity.Valid)
    (h : x.text = y.text) : x = y := by
  have htext : ∀ z : Privilege, z.text.toList
      = z.action.word.toList ++ ' ' :: ("on ".toList ++ z.entity.text.toList) := by
    intro z
    simp [Privilege.text, String.toList_append]
  have hword : ∀ a : Action, ' ' ∉ a.word.toList := by
    intro a
    cases a <;> decide
  have hlist := congrArg String.toList h
  rw [htext, htext] at hlist
  obtain ⟨haction, hrest⟩ := cut_unique hlist (hword _) (hword _)
  have hentity := Entity.canonical.injective hx hy
    (String.toList_inj.mp (List.append_cancel_left hrest))
  have haction' : x.action = y.action := Vocabulary.word_injective (String.toList_inj.mp haction)
  obtain ⟨e, a⟩ := x
  obtain ⟨e', a'⟩ := y
  simp_all

namespace PrivilegeSet

theorem texts_perm (s : PrivilegeSet) : s.texts.Perm (s.members.map Privilege.text) :=
  List.mergeSort_perm _ _

theorem texts_sorted (s : PrivilegeSet) : s.texts.Pairwise (· ≤ ·) := by
  have hsorted : s.texts.Pairwise fun a b => decide (a ≤ b) = true := by
    refine List.pairwise_mergeSort (fun a b c hab hbc => ?_) (fun a b => ?_) _
    · rw [decide_eq_true_eq] at hab hbc ⊢
      exact String.le_trans hab hbc
    · rw [Bool.or_eq_true, decide_eq_true_eq, decide_eq_true_eq]
      exact String.le_total a b
  exact hsorted.imp of_decide_eq_true

/-- **Sets of privileges on valid resources have the same members exactly if what is written of
them, sorted, is the same.** -/
theorem texts_eq_iff {s t : PrivilegeSet} (hs : ∀ x ∈ s, x.entity.Valid)
    (ht : ∀ x ∈ t, x.entity.Valid) : s.texts = t.texts ↔ ∀ x, x ∈ s ↔ x ∈ t := by
  have hmem : ∀ {s t : PrivilegeSet}, (∀ x ∈ s, x.entity.Valid) → (∀ x ∈ t, x.entity.Valid) →
      s.texts = t.texts → ∀ x ∈ s, x ∈ t := by
    intro s t hs ht htexts x hx
    have htext : x.text ∈ t.members.map Privilege.text := by
      rw [← t.texts_perm.mem_iff, ← htexts, s.texts_perm.mem_iff]
      exact List.mem_map_of_mem hx
    obtain ⟨y, hy, hxy⟩ := List.mem_map.mp htext
    exact Privilege.text_injective (ht y hy) (hs x hx) hxy ▸ hy
  constructor
  · exact fun h x => ⟨hmem hs ht h x, hmem ht hs h.symm x⟩
  · intro h
    have hperm : s.members.Perm t.members := (List.perm_ext_iff_of_nodup s.nodup t.nodup).mpr h
    refine List.Perm.eq_of_pairwise (fun _ _ _ _ => String.le_antisymm) s.texts_sorted
      t.texts_sorted ?_
    exact s.texts_perm.trans ((hperm.map _).trans t.texts_perm.symm)

end PrivilegeSet

/-! ## What is promised

The promise for all written forms. -/

/-- **Written forms are canonical**: those of principals and of resources, one by one, and those of
privileges on valid resources, also as the sorted list that shows a set of them. -/
theorem written_forms_canonical :
    Canonical Principal.parse Principal.text Principal.Valid
      ∧ Canonical Entity.parse Entity.text Entity.Valid
      ∧ (∀ x y : Privilege, x.entity.Valid → y.entity.Valid → x.text = y.text → x = y)
      ∧ ∀ s t : PrivilegeSet, (∀ x ∈ s, x.entity.Valid) → (∀ x ∈ t, x.entity.Valid) →
        (s.texts = t.texts ↔ ∀ x, x ∈ s ↔ x ∈ t) :=
  ⟨Principal.canonical, Entity.canonical, fun _ _ => Privilege.text_injective,
    fun _ _ => PrivilegeSet.texts_eq_iff⟩

/-- A name with a full stop in it is taken apart; two sets that were filled in another order are
shown by the same list. -/
theorem written_forms_canonical_of_two :
    let odd : Entity := .dataset "docs" "a.b"
    let deep : Entity := .program "docs" "app" "a-b"
    let s : PrivilegeSet := .ofList [⟨deep, .read⟩, ⟨.space "docs", .admin⟩]
    let t : PrivilegeSet := .ofList [⟨.space "docs", .admin⟩, ⟨deep, .read⟩]
    ¬odd.Valid ∧ deep.Valid ∧ s.texts = t.texts := by
  intro odd deep s t
  obtain ⟨-, hcanonical, -, htexts⟩ := written_forms_canonical
  have hdeep : deep.Valid := Entity.valid_of_parse (s := deep.text) (by decide +kernel)
  have hspace : (Entity.space "docs").Valid :=
    Entity.valid_of_parse (s := "namespace:docs") (by decide +kernel)
  have hodd : Entity.parse odd.text ≠ .ok odd := by decide +kernel
  refine ⟨fun h => hodd ((hcanonical.reread odd).mpr h), hdeep, (htexts s t ?_ ?_).mpr fun x => ?_⟩
  · intro x hx
    rcases List.mem_pair.mp (PrivilegeSet.mem_ofList.mp hx) with rfl | rfl
    · exact hdeep
    · exact hspace
  · intro x hx
    rcases List.mem_pair.mp (PrivilegeSet.mem_ofList.mp hx) with rfl | rfl
    · exact hspace
    · exact hdeep
  · simp only [s, t, PrivilegeSet.mem_ofList, List.mem_pair, or_comm]

end Gatekeeper

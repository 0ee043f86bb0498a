import Gatekeeper.Identity.Entity
import Gatekeeper.Identity.Principal
import Gatekeeper.Proofs.Text

/-!
# The grammar of identifiers

Which texts write a principal or a resource, and what is wrong with each of the others.  The grammar
is stated on its own: a text between blanks is a label and a rest with a colon between them, the
label is the word of a kind in any case, and the rest is one name, or names with full stops between
them.  Blanks may stand around each of these.

* `NameText`, `NameFlaw` — the text of a name, and what is first wrong with any other text.
* `NamesText`, `NamesFlaw` — the same of names one after the other.
* `PrincipalText`, `PrincipalFlaw`, `EntityText`, `EntityFlaw` — the same of identifiers.
* `read_iff_grammar` — **the readers accept what the grammar writes, and report the first fault of
  everything else.**

The readers are functions on lists of characters that trim, cut and look up words.  What these do
has been said without the functions in `Gatekeeper.Proofs.Text`; here the pieces are put together
in the way that the readers put them together, once for all kinds, so that principals and
resources differ only in what is read after the colon.
-/

set_option autoImplicit false

namespace Gatekeeper

open Text

theorem Except.bind_eq_ok_iff {ε α β : Type} {x : Except ε α} {f : α → Except ε β} {b : β} :
    x >>= f = .ok b ↔ ∃ a, x = .ok a ∧ f a = .ok b := by
  cases x <;> simp [bind, Except.bind]

theorem Except.bind_eq_error_iff {ε α β : Type} {x : Except ε α} {f : α → Except ε β} {e : ε} :
    x >>= f = .error e ↔ x = .error e ∨ ∃ a, x = .ok a ∧ f a = .error e := by
  cases x <;> simp [bind, Except.bind]

/-! ## Names

A name has a role, and the role says which characters it takes.  The reader cuts off the blanks
and then looks for three faults in turn, and that order is part of the grammar, since a text can
have several of them. -/

/-- The characters of a name: ASCII letters and digits, `_` and `-`, and in the name of a principal
also `.` and `@`. -/
def NameRole.Takes (role : NameRole) (c : Char) : Prop :=
  c.isAlphanum = true ∨ c = '_' ∨ c = '-' ∨ role = .principal ∧ (c = '.' ∨ c = '@')

/-- The text is a name of the role, with blanks around it. -/
structure NameText (role : NameRole) (cs : List Char) (name : String) : Prop where
  trims : Trims cs name.toList
  ne_empty : name ≠ ""
  short : name.utf8ByteSize ≤ 128
  takes : ∀ c ∈ name.toList, role.Takes c

/-- What is first wrong with a text that is not a name of the role. -/
inductive NameFlaw (role : NameRole) (cs : List Char) : IdFault → Prop
  | empty (h : Trims cs []) : NameFlaw role cs (.name role .empty)
  | tooLong {t : List Char} (h : Trims cs t) (hl : 128 < (String.ofList t).utf8ByteSize) :
    NameFlaw role cs (.name role .tooLong)
  | badCharacter {t : List Char} {c : Char} (h : Trims cs t)
    (hl : (String.ofList t).utf8ByteSize ≤ 128) (hc : c ∈ t) (hn : ¬role.Takes c) :
    NameFlaw role cs (.name role .badCharacter)

section

variable {role : NameRole} {cs : List Char}

theorem NameRole.allows_iff {c : Char} : role.allows c = true ↔ role.Takes c := by
  simp [NameRole.allows, NameRole.Takes, or_assoc]

theorem nameText_iff {name : String} :
    NameText role cs name ↔ trim cs = name.toList ∧ ValidName role name.toList := by
  have hsize : byteLength name.toList = name.utf8ByteSize := by
    rw [byteLength_eq, String.ofList_toList]
  constructor
  · rintro ⟨htrims, hne, hshort, htakes⟩
    refine ⟨trim_eq_iff.mpr htrims, ?_, ?_, fun c hc => NameRole.allows_iff.mpr (htakes c hc)⟩
    · exact fun h => hne (String.toList_eq_nil_iff.mp h)
    · rw [hsize]
      exact hshort
  · rintro ⟨htrim, hne, hshort, hallowed⟩
    refine ⟨trim_eq_iff.mp htrim, ?_, hsize ▸ hshort, fun c hc => ?_⟩
    · exact fun h => hne (String.toList_eq_nil_iff.mpr h)
    · exact NameRole.allows_iff.mp (hallowed c hc)

theorem readName_eq_ok_iff {name : String} :
    readName role cs = .ok name ↔ NameText role cs name := by
  rw [nameText_iff, readName]
  cases hf : nameFault? role (trim cs) with
  | none =>
    have hvalid := nameFault?_eq_none_iff.mp hf
    constructor
    · intro h
      obtain rfl := Except.ok.inj h
      rw [String.toList_ofList]
      exact ⟨rfl, hvalid⟩
    · rintro ⟨h, -⟩
      rw [h, String.ofList_toList]
  | some fault =>
    refine iff_of_false (by simp) ?_
    rintro ⟨h, hvalid⟩
    rw [← h, ← nameFault?_eq_none_iff, hf] at hvalid
    cases hvalid

/-- The fault that is found is the first in the order empty, too long, bad character. -/
theorem readName_eq_error_iff {f : IdFault} :
    readName role cs = .error f ↔ NameFlaw role cs f := by
  have hsize := byteLength_eq (trim cs)
  rw [readName, nameFault?]
  constructor
  · intro h
    by_cases hnil : trim cs = []
    · simp only [hnil, List.isEmpty_nil, if_true] at h
      exact Except.error.inj h ▸ .empty (trim_eq_iff.mp hnil)
    by_cases hlong : nameLimit < byteLength (trim cs)
    · simp only [List.isEmpty_iff, hnil, if_false, hlong, if_true] at h
      exact Except.error.inj h ▸ .tooLong (trims_trim cs) (hsize ▸ hlong)
    by_cases hall : (trim cs).all role.allows = true
    · simp [hnil, hlong, hall] at h
    · simp only [List.isEmpty_iff, hnil, if_false, hlong, hall, Bool.false_eq_true] at h
      obtain ⟨c, hc, hn⟩ : ∃ c ∈ trim cs, ¬role.allows c = true := by simpa using hall
      exact Except.error.inj h ▸ .badCharacter (trims_trim cs) (hsize ▸ Nat.le_of_not_lt hlong) hc
        fun ht => hn (NameRole.allows_iff.mpr ht)
  · intro h
    cases h with
    | empty ht => simp [trim_eq_iff.mpr ht]
    | @tooLong t ht hl =>
      obtain rfl := trim_eq_iff.mpr ht
      have hlong : nameLimit < byteLength (trim cs) := hsize ▸ hl
      have hnil : trim cs ≠ [] := by
        intro hnil
        rw [hnil] at hlong
        exact absurd hlong (by decide)
      simp [hnil, hlong]
    | @badCharacter t c ht hl hc hn =>
      obtain rfl := trim_eq_iff.mpr ht
      have hlong : ¬nameLimit < byteLength (trim cs) := Nat.not_lt.mpr (hsize ▸ hl)
      have hall : ¬(trim cs).all role.allows = true := by
        rw [List.all_eq_true]
        exact fun hall => hn (NameRole.allows_iff.mp (hall c hc))
      simp [List.ne_nil_of_mem hc, hlong, hall]

end

/-! ## Names one after the other

Names are read from left to right, and the first part that is no name is what is reported. -/

/-- The parts write the names, each in its role. -/
inductive NamesText : List NameRole → List (List Char) → List String → Prop
  | nil : NamesText [] [] []
  | cons {role : NameRole} {part : List Char} {name : String} {roles : List NameRole}
    {parts : List (List Char)} {names : List String} (h : NameText role part name)
    (hs : NamesText roles parts names) :
    NamesText (role :: roles) (part :: parts) (name :: names)

namespace NamesText

variable {roles : List NameRole} {parts : List (List Char)} {names : List String}

theorem length (h : NamesText roles parts names) : parts.length = roles.length := by
  induction h with
  | nil => rfl
  | cons _ _ ih => rw [List.length_cons, List.length_cons, ih]

theorem names_length (h : NamesText roles parts names) : names.length = roles.length := by
  induction h with
  | nil => rfl
  | cons _ _ ih => rw [List.length_cons, List.length_cons, ih]

end NamesText

/-- What is wrong with the first part that writes no name. -/
inductive NamesFlaw : List NameRole → List (List Char) → IdFault → Prop
  | here {role : NameRole} {part : List Char} {roles : List NameRole} {parts : List (List Char)}
    {f : IdFault} (h : NameFlaw role part f) : NamesFlaw (role :: roles) (part :: parts) f
  | later {role : NameRole} {part : List Char} {name : String} {roles : List NameRole}
    {parts : List (List Char)} {f : IdFault} (h : NameText role part name)
    (hs : NamesFlaw roles parts f) : NamesFlaw (role :: roles) (part :: parts) f

/-- Reads names in their roles, from left to right. -/
def readNames : List NameRole → List (List Char) → Except IdFault (List String)
  | role :: roles, part :: parts => do
    let name ← readName role part
    let names ← readNames roles parts
    return name :: names
  | _, _ => .ok []

section

variable {roles : List NameRole} {parts : List (List Char)}

theorem readNames_eq_ok_iff (hl : parts.length = roles.length) {names : List String} :
    readNames roles parts = .ok names ↔ NamesText roles parts names := by
  fun_induction readNames roles parts generalizing names with
  | case1 role roles part parts ih =>
    simp only [Except.bind_eq_ok_iff, readName_eq_ok_iff, ih (Nat.succ.inj hl)]
    constructor
    · rintro ⟨name, h, names', hs, he⟩
      exact Except.ok.inj he ▸ .cons h hs
    · rintro (_ | ⟨h, hs⟩)
      exact ⟨_, h, _, hs, rfl⟩
  | case2 roles parts hne =>
    cases roles <;> cases parts
    · exact ⟨fun h => Except.ok.inj h ▸ .nil, fun h => by cases h; rfl⟩
    · cases hl
    · cases hl
    · exact absurd rfl (hne _ _ _ _ rfl)

theorem readNames_eq_error_iff {f : IdFault} :
    readNames roles parts = .error f ↔ NamesFlaw roles parts f := by
  fun_induction readNames roles parts with
  | case1 role roles part parts ih =>
    simp only [Except.bind_eq_error_iff, readName_eq_error_iff, readName_eq_ok_iff, ih]
    constructor
    · rintro (h | ⟨name, h, hs | ⟨names, -, he⟩⟩)
      · exact .here h
      · exact .later h hs
      · cases he
    · rintro (h | ⟨h, hs⟩)
      · exact Or.inl h
      · exact Or.inr ⟨_, h, Or.inl hs⟩
  | case2 roles parts hne =>
    refine iff_of_false (by simp) fun h => ?_
    cases h <;> exact hne _ _ _ _ rfl rfl

end

/-! ## A label and a rest

Principals and resources are read alike as far as the colon.  What they have in common is stated
for any vocabulary of kinds and any reader of the rest. -/

/-- Between the blanks at the ends of the text there is a label, the first colon, and the rest. -/
structure Labels (s : String) (label rest : List Char) : Prop where
  trims : Trims s.toList (label ++ ':' :: rest)
  first : ':' ∉ label

/-- What is first wrong with a text that has to be the word of a kind, a colon, and a rest in which
nothing is wrong. -/
inductive LabelFlaw {κ : Type} [Vocabulary κ] (shape : IdFault) (unknown : String → IdFault)
    (RestFlaw : κ → List Char → IdFault → Prop) (s : String) : IdFault → Prop
  | shape {t : List Char} (h : Trims s.toList t) (hn : ':' ∉ t) :
    LabelFlaw shape unknown RestFlaw s shape
  | unknown {label rest : List Char} {word : String} (h : Labels s label rest)
    (hw : Spells label word) (hn : ∀ kind : κ, word ≠ Vocabulary.word kind) :
    LabelFlaw shape unknown RestFlaw s (unknown word)
  | rest {label rest : List Char} {kind : κ} {f : IdFault} (h : Labels s label rest)
    (hk : Spells label (Vocabulary.word kind)) (hf : RestFlaw kind rest f) :
    LabelFlaw shape unknown RestFlaw s f

/-- Reads the word of a kind, a colon, and a rest. -/
def readLabelled {κ α : Type} [Vocabulary κ] (shape : IdFault) (unknown : String → IdFault)
    (readRest : κ → List Char → Except IdFault α) (s : String) : Except IdFault α :=
  match cutFirst? ':' (trim s.toList) with
  | none => .error shape
  | some (label, rest) => Vocabulary.ofText unknown label >>= fun kind => readRest kind rest

theorem labels_iff {s : String} {label rest : List Char} :
    cutFirst? ':' (trim s.toList) = some (label, rest) ↔ Labels s label rest := by
  rw [cutFirst?_eq_some_iff, trim_eq_iff]
  exact ⟨fun ⟨h, hn⟩ => ⟨h, hn⟩, fun ⟨h, hn⟩ => ⟨h, hn⟩⟩

section

variable {κ α : Type} [Vocabulary κ] {shape : IdFault} {unknown : String → IdFault}
  {readRest : κ → List Char → Except IdFault α} {s : String}

theorem readLabelled_eq_ok_iff {a : α} : readLabelled shape unknown readRest s = .ok a
    ↔ ∃ label rest kind, Labels s label rest ∧ Spells label (Vocabulary.word kind)
      ∧ readRest kind rest = .ok a := by
  simp only [← labels_iff, readLabelled]
  cases cutFirst? ':' (trim s.toList) with
  | none => simp
  | some p =>
    obtain ⟨label, rest⟩ := p
    simp only [Except.bind_eq_ok_iff, ofText_eq_ok_iff, Option.some.injEq, Prod.mk.injEq]
    constructor
    · rintro ⟨kind, hk, hr⟩
      exact ⟨label, rest, kind, ⟨rfl, rfl⟩, hk, hr⟩
    · rintro ⟨_, _, kind, ⟨rfl, rfl⟩, hk, hr⟩
      exact ⟨kind, hk, hr⟩

/-- The colon is looked for first, then the kind, then what is wrong with the rest. -/
theorem readLabelled_eq_error_iff {RestFlaw : κ → List Char → IdFault → Prop}
    (hrest : ∀ kind rest f, readRest kind rest = .error f ↔ RestFlaw kind rest f) {f : IdFault} :
    readLabelled shape unknown readRest s = .error f ↔ LabelFlaw shape unknown RestFlaw s f := by
  rw [readLabelled]
  constructor
  · intro h
    cases hcut : cutFirst? ':' (trim s.toList) with
    | none =>
      rw [hcut] at h
      exact Except.error.inj h ▸ .shape (trims_trim s.toList) (cutFirst?_eq_none_iff.mp hcut)
    | some p =>
      obtain ⟨label, rest⟩ := p
      rw [hcut] at h
      have hlabels := labels_iff.mp hcut
      rcases Except.bind_eq_error_iff.mp h with h | ⟨kind, hk, hr⟩
      · obtain ⟨word, hw, hn, rfl⟩ := ofText_eq_error_iff.mp h
        exact .unknown hlabels hw hn
      · exact .rest hlabels (ofText_eq_ok_iff.mp hk) ((hrest kind rest f).mp hr)
  · intro h
    cases h with
    | @shape t ht hn => rw [cutFirst?_eq_none_iff.mpr (trim_eq_iff.mpr ht ▸ hn)]
    | unknown hlabels hw hn =>
      rw [labels_iff.mpr hlabels]
      exact Except.bind_eq_error_iff.mpr (Or.inl (ofText_eq_error_iff.mpr ⟨_, hw, hn, rfl⟩))
    | rest hlabels hk hf =>
      rw [labels_iff.mpr hlabels]
      exact Except.bind_eq_error_iff.mpr
        (Or.inr ⟨_, ofText_eq_ok_iff.mpr hk, (hrest _ _ _).mpr hf⟩)

end

/-! ## Principals

The rest of a principal is one name. -/

/-- The text writes the principal: its kind, a colon, and its name. -/
inductive PrincipalText (s : String) (p : Principal) : Prop
  | mk {label rest : List Char} (h : Labels s label rest) (hk : Spells label p.kind.word)
    (hn : NameText .principal rest p.name) : PrincipalText s p

/-- What is first wrong with a text that writes no principal. -/
def PrincipalFlaw (s : String) (f : IdFault) : Prop :=
  LabelFlaw (κ := PrincipalKind) .principalShape .unknownPrincipalKind
    (fun _ => NameFlaw .principal) s f

namespace Principal

variable {s : String}

theorem parse_eq_readLabelled (s : String) : parse s = readLabelled .principalShape
    .unknownPrincipalKind (fun kind name => new kind (String.ofList name)) s := by
  rw [parse, readLabelled]
  cases cutFirst? ':' (trim s.toList) <;> rfl

theorem new_eq_ok_iff {kind : PrincipalKind} {name : String} {p : Principal} :
    new kind name = .ok p ↔ p.kind = kind ∧ NameText .principal name.toList p.name := by
  rw [new, ← readName_eq_ok_iff]
  obtain ⟨k, n⟩ := p
  cases readName .principal name.toList <;> simp [Except.map, eq_comm]

theorem new_eq_error_iff {kind : PrincipalKind} {name : String} {f : IdFault} :
    new kind name = .error f ↔ NameFlaw .principal name.toList f := by
  rw [new, ← readName_eq_error_iff]
  cases readName .principal name.toList <;> simp [Except.map]

theorem parse_eq_ok_iff {p : Principal} : parse s = .ok p ↔ PrincipalText s p := by
  rw [parse_eq_readLabelled, readLabelled_eq_ok_iff]
  constructor
  · rintro ⟨label, rest, kind, h, hk, hr⟩
    obtain ⟨rfl, hn⟩ := new_eq_ok_iff.mp hr
    rw [String.toList_ofList] at hn
    exact ⟨h, hk, hn⟩
  · rintro ⟨h, hk, hn⟩
    refine ⟨_, _, p.kind, h, hk, new_eq_ok_iff.mpr ⟨rfl, ?_⟩⟩
    rwa [String.toList_ofList]

theorem parse_eq_error_iff {f : IdFault} : parse s = .error f ↔ PrincipalFlaw s f := by
  rw [parse_eq_readLabelled]
  refine readLabelled_eq_error_iff fun kind rest f => ?_
  rw [new_eq_error_iff, String.toList_ofList]

end Principal

/-! ## Resources

The rest of a resource is a path.  The number of its names is fixed by the kind, and it is looked
at before any name is, so a path of the wrong length is reported as such even if a name in it is
bad. -/

/-- The text writes the resource: its kind, a colon, and its names with full stops between them. -/
inductive EntityText (s : String) (e : Entity) : Prop
  | mk {label path : List Char} {parts : List (List Char)} (h : Labels s label path)
    (hk : Spells label e.kind.word) (hp : Joins '.' parts path)
    (hn : NamesText e.kind.roles parts e.names) : EntityText s e

/-- What is first wrong with the names of a resource of the kind. -/
inductive PathFlaw (kind : EntityKind) (path : List Char) : IdFault → Prop
  | depth {parts : List (List Char)} (hp : Joins '.' parts path)
    (hl : parts.length ≠ kind.depth) : PathFlaw kind path (.wrongDepth kind)
  | name {parts : List (List Char)} {f : IdFault} (hp : Joins '.' parts path)
    (hl : parts.length = kind.depth) (hf : NamesFlaw kind.roles parts f) : PathFlaw kind path f

/-- What is first wrong with a text that writes no resource. -/
def EntityFlaw (s : String) (f : IdFault) : Prop :=
  LabelFlaw .entityShape .unknownEntityKind PathFlaw s f

namespace Entity

/-- Reads the names of a resource of the kind. -/
def readPath (kind : EntityKind) (path : List Char) : Except IdFault Entity :=
  match kind, (cutAll '.' path).map String.ofList with
  | .space, [s] => newSpace s
  | .dataset, [s, n] | .stream, [s, n] | .application, [s, n] => do
    (← newSpace s).child kind n
  | .program, [s, a, n] => do
    (← (← newSpace s).child .application a).child .program n
  | _, _ => .error (.wrongDepth kind)

variable {s : String} {kind : EntityKind} {path : List Char}

theorem parse_eq_readLabelled (s : String) :
    parse s = readLabelled .entityShape .unknownEntityKind readPath s := by
  rw [parse, readLabelled]
  cases cutFirst? ':' (trim s.toList) <;> rfl

theorem roles_length (kind : EntityKind) : kind.roles.length = kind.depth := by
  cases kind <;> rfl

/-- The number of names is looked at before any of them is read. -/
theorem readPath_eq (kind : EntityKind) (path : List Char) :
    readPath kind path = if (cutAll '.' path).length = kind.depth then do
        let names ← readNames kind.roles (cutAll '.' path)
        match ofNames? kind names with
        | some e => .ok e
        | none => .error (.wrongDepth kind)
      else .error (.wrongDepth kind) := by
  unfold readPath
  generalize cutAll '.' path = parts
  cases kind with
  | space =>
    match parts with
    | [] | _ :: _ :: _ => rfl
    | [a] =>
      simp only [List.map, newSpace, String.toList_ofList, EntityKind.roles, readNames]
      cases readName .space a <;> rfl
  | dataset | stream | application =>
    match parts with
    | [] | [_] | _ :: _ :: _ :: _ => rfl
    | [a, b] =>
      simp only [List.map, newSpace, String.toList_ofList, EntityKind.roles, readNames, child]
      generalize readName .space a = x
      generalize readName _ b = y
      cases x <;> cases y <;> rfl
  | program =>
    match parts with
    | [] | [_] | [_, _] | _ :: _ :: _ :: _ :: _ => rfl
    | [a, b, c] =>
      simp only [List.map, newSpace, String.toList_ofList, EntityKind.roles, readNames, child]
      cases readName .space a <;> cases readName .application b <;>
        cases readName .program c <;> rfl

theorem ofNames?_eq_some_iff {names : List String} {e : Entity} :
    ofNames? kind names = some e ↔ e.kind = kind ∧ e.names = names := by
  constructor
  · intro h
    unfold ofNames? at h
    split at h <;> first | cases h; exact ⟨rfl, rfl⟩ | cases h
  · rintro ⟨rfl, rfl⟩
    exact ofNames?_names e

theorem exists_ofNames? {names : List String} (h : names.length = kind.depth) :
    ∃ e, ofNames? kind names = some e := by
  cases kind with
  | space =>
    obtain ⟨a, rfl⟩ := List.length_eq_one_iff.mp h
    exact ⟨_, rfl⟩
  | dataset | stream | application =>
    obtain ⟨a, b, rfl⟩ := List.length_eq_two.mp h
    exact ⟨_, rfl⟩
  | program =>
    obtain ⟨a, b, c, rfl⟩ := List.length_eq_three.mp h
    exact ⟨_, rfl⟩

theorem readPath_eq_ok_iff {e : Entity} : readPath kind path = .ok e ↔ e.kind = kind
    ∧ ∃ parts, Joins '.' parts path ∧ NamesText kind.roles parts e.names := by
  rw [readPath_eq]
  constructor
  · intro h
    split at h
    · rename_i hl
      obtain ⟨names, hnames, he⟩ := Except.bind_eq_ok_iff.mp h
      cases hof : ofNames? kind names with
      | none => simp [hof] at he
      | some e' =>
        rw [hof] at he
        obtain rfl := Except.ok.inj he
        obtain ⟨hk, rfl⟩ := ofNames?_eq_some_iff.mp hof
        rw [← roles_length] at hl
        exact ⟨hk, _, cutAll_eq_iff.mp rfl, (readNames_eq_ok_iff hl).mp hnames⟩
    · cases h
  · rintro ⟨rfl, parts, hp, hn⟩
    obtain rfl := cutAll_eq_iff.mpr hp
    rw [if_pos (hn.length.trans (roles_length _)), (readNames_eq_ok_iff hn.length).mpr hn]
    show (match ofNames? e.kind e.names with
      | some e => .ok e
      | none => .error (IdFault.wrongDepth e.kind)) = Except.ok e
    rw [ofNames?_names]

theorem readPath_eq_error_iff {f : IdFault} :
    readPath kind path = .error f ↔ PathFlaw kind path f := by
  rw [readPath_eq]
  constructor
  · intro h
    split at h
    · rename_i hl
      rcases Except.bind_eq_error_iff.mp h with h | ⟨names, hnames, he⟩
      · exact .name (cutAll_eq_iff.mp rfl) hl (readNames_eq_error_iff.mp h)
      · rw [← roles_length] at hl
        have hlength := ((readNames_eq_ok_iff hl).mp hnames).names_length
        obtain ⟨e, he'⟩ := exists_ofNames? (hlength.trans (roles_length kind))
        simp [he'] at he
    · rename_i hl
      exact Except.error.inj h ▸ .depth (cutAll_eq_iff.mp rfl) hl
  · intro h
    cases h with
    | depth hp hl => rw [cutAll_eq_iff.mpr hp, if_neg hl]
    | name hp hl hf =>
      rw [cutAll_eq_iff.mpr hp, if_pos hl, readNames_eq_error_iff.mpr hf]
      rfl

theorem parse_eq_ok_iff {e : Entity} : parse s = .ok e ↔ EntityText s e := by
  rw [parse_eq_readLabelled, readLabelled_eq_ok_iff]
  constructor
  · rintro ⟨label, path, kind, h, hk, hr⟩
    obtain ⟨rfl, parts, hp, hn⟩ := readPath_eq_ok_iff.mp hr
    exact ⟨h, hk, hp, hn⟩
  · rintro ⟨h, hk, hp, hn⟩
    exact ⟨_, _, e.kind, h, hk, readPath_eq_ok_iff.mpr ⟨rfl, _, hp, hn⟩⟩

theorem parse_eq_error_iff {f : IdFault} : parse s = .error f ↔ EntityFlaw s f := by
  rw [parse_eq_readLabelled]
  exact readLabelled_eq_error_iff fun kind path f => readPath_eq_error_iff

end Entity

/-! ## Both readers

Put together, for texts of every form. -/

/-- **The readers of identifiers accept what the grammar writes, with what it writes, and report the
first fault of everything else.** -/
theorem read_iff_grammar (s : String) :
    ((∀ e, Entity.parse s = .ok e ↔ EntityText s e)
        ∧ ∀ f, Entity.parse s = .error f ↔ EntityFlaw s f)
      ∧ (∀ p, Principal.parse s = .ok p ↔ PrincipalText s p)
        ∧ ∀ f, Principal.parse s = .error f ↔ PrincipalFlaw s f :=
  ⟨⟨fun _ => Entity.parse_eq_ok_iff, fun _ => Entity.parse_eq_error_iff⟩,
    fun _ => Principal.parse_eq_ok_iff, fun _ => Principal.parse_eq_error_iff⟩

example : Entity.parse "\u3000DataSet : docs .drafts\t" = .ok (.dataset "docs" "drafts") := by
  decide +kernel

/-- Of three faults the first is told: there are two names and not three. -/
example : Entity.parse "program: .n\u00e4me" = .error (.wrongDepth .program) := by
  decide +kernel

end Gatekeeper

import Gatekeeper.Proofs.Grammar
import Gatekeeper.Wire.Identity
import Mathlib.Data.List.Forall2

/-!
# Interchange

The same value may come in as several pieces of data: fields in any order and among others, lists
instead of records, words as records.  Which data stands for which value is told by one relation
for each type, in terms of what is in a record, not of where; the readers are met by it as long as
no record has a name twice.  All forms of a value are led back to the canonical one.

* `Wire.Data.Distinct` — no record has a name twice.
* `Wire.WordForm`, `Principal.Form`, `Entity.Form`, `Privilege.Form` — the data that stands for a
  value.
* `Exchanged` — what is promised of a type of values, and `Exchanged.of_form`, which obtains it;
  `SetsExchanged` for sets, where order means nothing.
* `Interchange`, `interchange` — all that is promised.

The forms of a value are a relation and not a function, since there are as many of them as there
are orders of fields and fields to be passed over.  For each type one shows that the decoder
finds exactly what the relation says, and this is an equivalence too: data that is not a form of
anything is refused.
-/

set_option autoImplicit false

namespace Gatekeeper

open Wire

/-! ## Records

Readers look for a field by its name.  In a record in which no name comes twice it makes no
difference where the field is, and what is found is what is there.  Words are read from a text,
or from a record with one field that is named by the word. -/

namespace Wire

/-- No record in the data has a name twice. -/
inductive Data.Distinct : Data → Prop
  | null : Distinct .null
  | bool (b : Bool) : Distinct (.bool b)
  | number (mantissa : Int) (places : Nat) : Distinct (.number mantissa places)
  | text (s : String) : Distinct (.text s)
  | list {items : List Data} (h : ∀ d ∈ items, Distinct d) : Distinct (.list items)
  | record {fields : List (String × Data)} (hnames : (fields.map Prod.fst).Nodup)
    (h : ∀ f ∈ fields, Distinct f.2) : Distinct (.record fields)

/-- Without a name that comes twice, what is found under a name is what is there. -/
theorem field?_eq_some_iff {fields : List (String × Data)} (h : (fields.map Prod.fst).Nodup)
    {name : String} {d : Data} : field? fields name = some d ↔ (name, d) ∈ fields := by
  induction fields with
  | nil => simp [field?]
  | cons f fields ih =>
    obtain ⟨name', d'⟩ := f
    rw [List.map_cons, List.nodup_cons] at h
    by_cases hname : name = name'
    · subst hname
      have hnot : (name, d) ∉ fields := fun hd => h.1 (List.mem_map.mpr ⟨_, hd, rfl⟩)
      simp [field?, hnot, eq_comm]
    · have hbeq : (name == name') = false := beq_eq_false_iff_ne.mpr hname
      have hrest := ih h.2
      simp only [field?] at hrest
      simp [field?, List.lookup_cons, hbeq, hname, hrest]

theorem text?_eq_some_iff {d : Data} {s : String} : text? d = some s ↔ d = .text s := by
  cases d <;> simp [text?]

/-- The data stands for a word: as its text, or as a record with nothing under the word. -/
inductive WordForm : Data → String → Prop
  | text (w : String) : WordForm (.text w) w
  | record (w : String) : WordForm (.record [(w, .null)]) w

theorem word?_eq_some_iff {d : Data} {w : String} : word? d = some w ↔ WordForm d w := by
  constructor
  · intro h
    unfold word? at h
    split at h <;> cases h
    · exact .text w
    · exact .record w
  · rintro (_ | _) <;> rfl

end Wire

theorem mapM_eq_some_iff {α β : Type} {f : α → Option β} {l : List α} {l' : List β} :
    l.mapM f = some l' ↔ List.Forall₂ (fun a b => f a = some b) l l' := by
  induction l generalizing l' with
  | nil => simp [eq_comm]
  | cons a l ih =>
    simp only [List.mapM_cons, Option.bind_eq_bind, Option.bind_eq_some_iff, ih,
      List.forall₂_cons_left_iff]
    grind

theorem mem_of_mapM {α β : Type} {f : α → Option β} {l : List α} {l' : List β}
    (h : l.mapM f = some l') {b : β} : b ∈ l' ↔ ∃ a ∈ l, f a = some b := by
  have hforall := mapM_eq_some_iff.mp h
  clear h
  induction hforall with
  | nil => simp
  | cons hab _ ih => simp [ih, hab, eq_comm]

theorem exists_mapM_iff {α β : Type} {f : α → Option β} {l : List α} :
    (∃ l', l.mapM f = some l') ↔ ∀ a ∈ l, ∃ b, f a = some b := by
  induction l with
  | nil => simp
  | cons a l ih =>
    simp only [List.mapM_cons, Option.bind_eq_bind, Option.bind_eq_some_iff, List.forall_mem_cons,
      ← ih]
    constructor
    · rintro ⟨_, b, hb, bs, hbs, -⟩
      exact ⟨⟨b, hb⟩, bs, hbs⟩
    · rintro ⟨⟨b, hb⟩, bs, hbs⟩
      exact ⟨_, b, hb, bs, hbs, rfl⟩

theorem mapM_text?_eq_some_iff {ds : List Data} {names : List String} :
    ds.mapM text? = some names ↔ ds = names.map .text := by
  simp only [mapM_eq_some_iff, text?_eq_some_iff]
  rw [← List.forall₂_eq_eq_eq, List.forall₂_map_right_iff]

/-! ## What is promised of a type of values

For each type there are an encoder, a decoder and a relation that says which data stands for
which value.  All that is promised follows from two facts: the decoder finds exactly the values
that the relation allows, and the encoder gives one of the forms. -/

section

variable {α : Type} {encode : α → Data} {decode? : Data → Option α} {Form : Data → α → Prop}

/-- What is promised of a type of values. -/
structure Exchanged (encode : α → Data) (decode? : Data → Option α) (Form : Data → α → Prop) :
    Prop where
  /-- Data is decoded exactly if it is a form of a value, and as this value. -/
  decodes : ∀ {d : Data}, d.Distinct → ∀ a, decode? d = some a ↔ Form d a
  /-- The canonical form has no name twice. -/
  distinct : ∀ a, (encode a).Distinct
  /-- The canonical form of a value is decoded as the value. -/
  rereads : ∀ a, decode? (encode a) = some a
  /-- To take the canonical form instead of what came in makes no difference. -/
  settles : ∀ {d a}, decode? d = some a → decode? (encode a) = decode? d
  /-- Values are equal exactly if their canonical forms are. -/
  agrees : ∀ {d d' a a'}, decode? d = some a → decode? d' = some a' →
    (a = a' ↔ encode a = encode a')

/-- All of it follows if the reader is met by the forms and the canonical form is one of them. -/
theorem Exchanged.of_form (hdecodes : ∀ {d : Data}, d.Distinct → ∀ a, decode? d = some a ↔ Form d a)
    (hdistinct : ∀ a, (encode a).Distinct) (hform : ∀ a, Form (encode a) a) :
    Exchanged encode decode? Form := by
  have hreread : ∀ a, decode? (encode a) = some a :=
    fun a => (hdecodes (hdistinct a) a).mpr (hform a)
  refine ⟨hdecodes, hdistinct, hreread, fun h => (hreread _).trans h.symm, fun {_ _ a a'} _ _ => ?_⟩
  refine ⟨fun h => h ▸ rfl, fun h => Option.some.inj ?_⟩
  rw [← hreread a, h, hreread a']

theorem Exchanged.form (h : Exchanged encode decode? Form) (a : α) : Form (encode a) a :=
  (h.decodes (h.distinct a) a).mp (h.rereads a)

theorem Exchanged.encode_inj (h : Exchanged encode decode? Form) {a a' : α} :
    encode a = encode a' ↔ a = a' :=
  (h.agrees (h.rereads a) (h.rereads a')).symm

/-- A reader finds the fields of a record by their names, and passes over all others. -/
def Unordered (decode? : Data → Option α) : Prop :=
  ∀ {fields fields' : List (String × Data)} {a}, (Data.record fields).Distinct →
    (Data.record fields').Distinct → fields ⊆ fields' → decode? (.record fields) = some a →
    decode? (.record fields') = some a

theorem Exchanged.unordered (h : Exchanged encode decode? Form)
    (hmono : ∀ {fields fields' a}, fields ⊆ fields' → Form (.record fields) a →
      Form (.record fields') a) : Unordered decode? :=
  fun hd hd' hsub ha => (h.decodes hd' _).mpr (hmono hsub ((h.decodes hd _).mp ha))

end

/-! ## Words

Kinds and actions are words of a vocabulary, which is treated once for all of them. -/

/-- The data stands for a member of a vocabulary. -/
def Vocabulary.Form {α : Type} [Vocabulary α] (d : Data) (a : α) : Prop := WordForm d (word a)

theorem Vocabulary.decode?_eq_some_iff {α : Type} [Vocabulary α] {d : Data} {a : α} :
    decode? d = some a ↔ Form d a := by
  simp [decode?, Form, Option.bind_eq_some_iff, word?_eq_some_iff, ofWord?_eq_some_iff]

theorem Vocabulary.exchanged (α : Type) [Vocabulary α] :
    Exchanged (encode : α → Data) decode? Form :=
  .of_form (fun _ _ => decode?_eq_some_iff) (fun _ => .text _) (fun _ => .text _)

/-! ## Principals

A principal is a record with a name and a kind, or a list of the two in this order. -/

namespace Principal

/-- The data stands for a principal. -/
inductive Form : Data → Principal → Prop
  | record {fields : List (String × Data)} {p : Principal} {kind : Data}
    (hname : ("name", .text p.name) ∈ fields) (hkind : ("type", kind) ∈ fields)
    (h : Vocabulary.Form kind p.kind) : Form (.record fields) p
  | list {p : Principal} {kind : Data} (h : Vocabulary.Form kind p.kind) :
    Form (.list [.text p.name, kind]) p

/-- **Principals are decoded from their forms, and from nothing else.** -/
theorem decode?_eq_some_iff {d : Data} (h : d.Distinct) (p : Principal) :
    decode? d = some p ↔ Form d p := by
  cases h with
  | record hnames =>
    simp only [decode?, Option.bind_eq_bind, Option.bind_eq_some_iff, field?_eq_some_iff hnames,
      text?_eq_some_iff, Vocabulary.decode?_eq_some_iff]
    constructor
    · rintro ⟨_, hname, name, rfl, _, hkind, kind, hform, he⟩
      cases he
      exact .record hname hkind hform
    · rintro ⟨hname, hkind, hform⟩
      exact ⟨_, hname, _, rfl, _, hkind, _, hform, rfl⟩
  | @list items =>
    constructor
    · intro hp
      match items, hp with
      | [_, _], hp =>
        simp only [decode?, Option.bind_eq_bind, Option.bind_eq_some_iff, text?_eq_some_iff,
          Vocabulary.decode?_eq_some_iff] at hp
        obtain ⟨name, rfl, kind, hform, he⟩ := hp
        cases he
        exact @Form.list ⟨kind, name⟩ _ hform
    · rintro (_ | hform)
      simp only [decode?, Option.bind_eq_bind, Option.bind_eq_some_iff, text?_eq_some_iff,
        Vocabulary.decode?_eq_some_iff]
      exact ⟨_, rfl, _, hform, rfl⟩
  | _ => exact ⟨nofun, nofun⟩

theorem exchanged : Exchanged encode decode? Form := by
  refine .of_form decode?_eq_some_iff (fun p => ?_) fun p => ?_
  · refine .record (show ["name", "type"].Nodup by decide) ?_
    simp only [List.forall_mem_cons]
    exact ⟨.text _, .text _, nofun⟩
  · exact .record List.mem_cons_self (List.mem_cons_of_mem _ List.mem_cons_self) (.text _)

theorem unordered : Unordered decode? :=
  exchanged.unordered fun hsub h => by
    cases h with
    | record hname hkind hform => exact .record (hsub hname) (hsub hkind) hform

end Principal

/-! ## Resources

A resource is a record whose fields depend on the kind, or a list of the kind and the names. -/

namespace Entity

/-- The data stands for a resource.  In a record the kind decides in which fields the names are. -/
inductive Form : Data → Entity → Prop
  | record {fields : List (String × Data)} {e : Entity}
    (hkind : ("entity", .text e.kind.word) ∈ fields)
    (hnames : List.Forall₂ (fun field name => (field, Data.text name) ∈ fields) e.kind.nameFields
      e.names) : Form (.record fields) e
  | list (e : Entity) : Form (.list (.text e.kind.word :: e.names.map .text)) e

theorem decode?_list_eq_some_iff {items : List Data} {e : Entity} :
    decode? (.list items) = some e ↔ items = .text e.kind.word :: e.names.map .text := by
  cases items with
  | nil => exact ⟨nofun, nofun⟩
  | cons tag items =>
    simp only [decode?, mapM_text?_eq_some_iff, Option.bind_eq_bind, Option.bind_eq_some_iff,
      text?_eq_some_iff, Vocabulary.ofWord?_eq_some_iff, ofNames?_eq_some_iff, List.cons.injEq]
    constructor
    · rintro ⟨_, rfl, _, rfl, _, rfl, rfl, rfl⟩
      exact ⟨rfl, rfl⟩
    · rintro ⟨rfl, rfl⟩
      exact ⟨_, rfl, _, rfl, _, rfl, rfl, rfl⟩

/-- **Resources are decoded from their forms, and from nothing else.** -/
theorem decode?_eq_some_iff {d : Data} (h : d.Distinct) (e : Entity) :
    decode? d = some e ↔ Form d e := by
  cases h with
  | @record fields hfields =>
    simp only [decode?, mapM_eq_some_iff, Option.bind_eq_bind, Option.bind_eq_some_iff,
      field?_eq_some_iff hfields, text?_eq_some_iff, exists_eq_right,
      Vocabulary.ofWord?_eq_some_iff, ofNames?_eq_some_iff]
    constructor
    · rintro ⟨_, hkind, _, rfl, _, rfl, _, hnames, rfl, rfl⟩
      exact .record hkind hnames
    · rintro ⟨hkind, hnames⟩
      exact ⟨_, hkind, _, rfl, _, rfl, _, hnames, rfl, rfl⟩
  | list =>
    rw [decode?_list_eq_some_iff]
    constructor
    · rintro rfl
      exact .list e
    · rintro ⟨⟩
      rfl
  | _ => exact ⟨nofun, nofun⟩

theorem nameFields_length (e : Entity) : e.kind.nameFields.length = e.names.length := by
  cases e <;> rfl

theorem exchanged : Exchanged encode decode? Form := by
  refine .of_form decode?_eq_some_iff (fun e => ?_) fun e => ?_
  · -- The names of the fields are `entity` and those of the roles, whatever is in the fields.
    have hnames : (e.kind.nameFields.zip (e.names.map Data.text)).map Prod.fst
        = e.kind.nameFields := by
      refine List.map_fst_zip ?_
      rw [List.length_map]
      exact e.nameFields_length.le
    refine .record ?_ ?_
    · rw [List.map_cons, hnames]
      cases e.kind <;> decide
    · rw [List.forall_mem_cons]
      refine ⟨.text _, fun f hf => ?_⟩
      obtain ⟨name, -, hname⟩ := List.mem_map.mp (List.of_mem_zip hf).2
      exact hname ▸ .text name
  · refine .record List.mem_cons_self (List.forall₂_iff_zip.mpr ⟨e.nameFields_length, ?_⟩)
    intro field name h
    rw [List.zip_map_right]
    exact List.mem_cons_of_mem _ (List.mem_map_of_mem h)

theorem unordered : Unordered decode? :=
  exchanged.unordered fun hsub h => by
    cases h with
    | record hkind hnames => exact .record (hsub hkind) (hnames.imp fun _ _ hf => hsub hf)

/-- Names are taken as they are, and the name of a stream is not looked for. -/
example : decode? (.record [("dataset", .text " a:b "), ("stream", .null),
      ("entity", .text "dataset"), ("namespace", .text "")])
    = some (.dataset "" " a:b ") := by
  decide

/-- A list is a resource if it is a kind and then exactly as many names as go with the kind. -/
theorem exists_decode?_list_iff {items : List Data} : (∃ e, decode? (.list items) = some e)
    ↔ ∃ (kind : EntityKind) (names : List String), names.length = kind.nameFields.length
      ∧ items = .text kind.word :: names.map .text := by
  simp only [decode?_list_eq_some_iff]
  constructor
  · rintro ⟨e, rfl⟩
    exact ⟨e.kind, e.names, e.nameFields_length.symm, rfl⟩
  · rintro ⟨kind, names, hlength, rfl⟩
    rw [EntityKind.nameFields, List.length_map, roles_length] at hlength
    obtain ⟨e, he⟩ := exists_ofNames? hlength
    obtain ⟨rfl, rfl⟩ := ofNames?_eq_some_iff.mp he
    exact ⟨e, rfl⟩

end Entity

/-! ## Privileges

A privilege is a resource and an action, as a record or as a list of the two. -/

namespace Privilege

/-- The data stands for a privilege. -/
inductive Form : Data → Privilege → Prop
  | record {fields : List (String × Data)} {p : Privilege} {entity action : Data}
    (hentity : ("entity", entity) ∈ fields) (haction : ("action", action) ∈ fields)
    (he : Entity.Form entity p.entity) (ha : Vocabulary.Form action p.action) :
    Form (.record fields) p
  | list {p : Privilege} {entity action : Data} (he : Entity.Form entity p.entity)
    (ha : Vocabulary.Form action p.action) : Form (.list [entity, action]) p

/-- **Privileges are decoded from their forms, and from nothing else.** -/
theorem decode?_eq_some_iff {d : Data} (h : d.Distinct) (p : Privilege) :
    decode? d = some p ↔ Form d p := by
  cases h with
  | @record fields hnames hfields =>
    simp only [decode?, Option.bind_eq_bind, Option.bind_eq_some_iff, field?_eq_some_iff hnames,
      Vocabulary.decode?_eq_some_iff]
    constructor
    · rintro ⟨_, hentity, entity, he, _, haction, action, ha, hp⟩
      cases hp
      rw [Entity.decode?_eq_some_iff (hfields _ hentity)] at he
      exact .record hentity haction he ha
    · rintro ⟨hentity, haction, he, ha⟩
      rw [← Entity.decode?_eq_some_iff (hfields _ hentity)] at he
      exact ⟨_, hentity, _, he, _, haction, _, ha, rfl⟩
  | @list items hitems =>
    constructor
    · intro hp
      match items, hitems, hp with
      | [_, _], hitems, hp =>
        simp only [decode?, Option.bind_eq_bind, Option.bind_eq_some_iff,
          Vocabulary.decode?_eq_some_iff] at hp
        obtain ⟨entity, he, action, ha, hp⟩ := hp
        cases hp
        rw [Entity.decode?_eq_some_iff (hitems _ List.mem_cons_self)] at he
        exact @Form.list ⟨entity, action⟩ _ _ he ha
    · rintro (_ | ⟨he, ha⟩)
      rw [← Entity.decode?_eq_some_iff (hitems _ List.mem_cons_self)] at he
      simp only [decode?, Option.bind_eq_bind, Option.bind_eq_some_iff,
        Vocabulary.decode?_eq_some_iff]
      exact ⟨_, he, _, ha, rfl⟩
  | _ => exact ⟨nofun, nofun⟩

theorem exchanged : Exchanged encode decode? Form := by
  refine .of_form decode?_eq_some_iff (fun p => ?_) fun p => ?_
  · refine .record (show ["entity", "action"].Nodup by decide) ?_
    simp only [List.forall_mem_cons]
    exact ⟨Entity.exchanged.distinct p.entity, .text _, nofun⟩
  · exact .record List.mem_cons_self (List.mem_cons_of_mem _ List.mem_cons_self)
      (Entity.exchanged.form p.entity) (.text _)

theorem unordered : Unordered decode? :=
  exchanged.unordered fun hsub h => by
    cases h with
    | record hentity haction he ha => exact .record (hsub hentity) (hsub haction) he ha

end Privilege

/-! ## Sets of privileges

A set is a list of privileges in which neither order nor repetition matters, so two sets are the
same if they are listed by the same items. -/

namespace PrivilegeSet

/-- The sets have the same members. -/
def Same (s t : PrivilegeSet) : Prop := ∀ p, p ∈ s ↔ p ∈ t

/-- The items are the canonical forms of the members, in any order, with or without repetitions. -/
def Listed (s : PrivilegeSet) (items : List Data) : Prop :=
  ∀ d, d ∈ items ↔ ∃ p ∈ s, p.encode = d

variable {items : List Data} {s t : PrivilegeSet}

theorem mem_of_decode? (h : decode? (.list items) = some t) {p : Privilege} :
    p ∈ t ↔ ∃ d ∈ items, Privilege.decode? d = some p := by
  obtain ⟨ps, hps, rfl⟩ := Option.map_eq_some_iff.mp h
  rw [mem_ofList, mem_of_mapM hps]

theorem exists_decode?_iff : (∃ t, decode? (.list items) = some t)
    ↔ ∀ d ∈ items, ∃ p, Privilege.decode? d = some p := by
  rw [← exists_mapM_iff]
  simp [decode?]

theorem listed_encode (s : PrivilegeSet) : s.Listed (s.members.map Privilege.encode) :=
  fun _ => List.mem_map

/-- What lists the members of a set is decoded as a set with these members. -/
theorem Listed.reread (h : s.Listed items) : ∃ t, decode? (.list items) = some t ∧ t.Same s := by
  have hitems : ∀ d ∈ items, ∃ p, Privilege.decode? d = some p := by
    intro d hd
    obtain ⟨p, -, rfl⟩ := (h d).mp hd
    exact ⟨p, Privilege.exchanged.rereads p⟩
  obtain ⟨t, ht⟩ := exists_decode?_iff.mpr hitems
  refine ⟨t, ht, fun p => (mem_of_decode? ht).trans ⟨?_, fun hp => ?_⟩⟩
  · rintro ⟨d, hd, hp⟩
    obtain ⟨q, hq, rfl⟩ := (h d).mp hd
    rw [Privilege.exchanged.rereads q] at hp
    exact Option.some.inj hp ▸ hq
  · exact ⟨p.encode, (h _).mpr ⟨p, hp, rfl⟩, Privilege.exchanged.rereads p⟩

theorem Listed.mem_iff (h : s.Listed items) {p : Privilege} : p.encode ∈ items ↔ p ∈ s := by
  rw [h]
  simp only [Privilege.exchanged.encode_inj, exists_eq_right]

/-- Sets have the same members if the same items list them. -/
theorem Listed.same_iff {items' : List Data} (h : s.Listed items) (h' : t.Listed items') :
    s.Same t ↔ ∀ d, d ∈ items ↔ d ∈ items' := by
  constructor
  · intro hst d
    simp only [h d, h' d, hst _]
  · intro hitems p
    rw [← h.mem_iff, hitems, h'.mem_iff]

end PrivilegeSet

/-- What is promised of sets of privileges.  The order of a set means nothing, and so sets are
compared by their members and lists by their items. -/
structure SetsExchanged : Prop where
  /-- Nothing but a list is decoded as a set. -/
  lists : ∀ {d s}, PrivilegeSet.decode? d = some s → ∃ items, d = .list items
  /-- A list is, if every item is a form of a privilege; -/
  decodes : ∀ {items}, (Data.list items).Distinct →
    ((∃ s, PrivilegeSet.decode? (.list items) = some s) ↔ ∀ d ∈ items, ∃ p, Privilege.Form d p)
  /-- and the members of the set are then the privileges of which there is a form. -/
  members : ∀ {items s}, (Data.list items).Distinct →
    PrivilegeSet.decode? (.list items) = some s → ∀ p, p ∈ s ↔ ∃ d ∈ items, Privilege.Form d p
  /-- The canonical form lists the members, and has no name twice. -/
  canonical : ∀ s : PrivilegeSet, s.encode.Distinct ∧ ∃ items, s.encode = .list items
    ∧ s.Listed items
  /-- Whatever lists the members is decoded as a set that has them; so to take the canonical form
  instead of what came in makes no difference. -/
  rereads : ∀ {s : PrivilegeSet} {items}, s.Listed items →
    ∃ t, PrivilegeSet.decode? (.list items) = some t ∧ t.Same s
  /-- Sets have the same members exactly if their canonical forms have the same items. -/
  agrees : ∀ {d d' s s' items items'}, PrivilegeSet.decode? d = some s →
    PrivilegeSet.decode? d' = some s' → s.Listed items → s'.Listed items' →
    (s.Same s' ↔ ∀ item, item ∈ items ↔ item ∈ items')

theorem PrivilegeSet.exchanged : SetsExchanged where
  lists {d s} h := by
    cases d with
    | list items => exact ⟨items, rfl⟩
    | _ => cases h
  decodes h := by
    cases h with
    | list hitems =>
      rw [exists_decode?_iff]
      exact forall₂_congr fun d hd =>
        exists_congr fun p => Privilege.decode?_eq_some_iff (hitems d hd) p
  members h hs p := by
    cases h with
    | list hitems =>
      rw [mem_of_decode? hs]
      exact exists_congr fun d => and_congr_right fun hd =>
        Privilege.decode?_eq_some_iff (hitems d hd) p
  canonical s := by
    refine ⟨.list fun d hd => ?_, _, rfl, s.listed_encode⟩
    obtain ⟨p, -, rfl⟩ := List.mem_map.mp hd
    exact Privilege.exchanged.distinct p
  rereads h := h.reread
  agrees _ _ h h' := h.same_iff h'

/-! ## What is promised

The promises for all types together. -/

/-- What is promised of all that is exchanged. -/
structure Interchange : Prop where
  principalKinds : Exchanged (Vocabulary.encode : PrincipalKind → Data) Vocabulary.decode?
    Vocabulary.Form
  entityKinds : Exchanged (Vocabulary.encode : EntityKind → Data) Vocabulary.decode? Vocabulary.Form
  actions : Exchanged (Vocabulary.encode : Action → Data) Vocabulary.decode? Vocabulary.Form
  principals : Exchanged Principal.encode Principal.decode? Principal.Form
  entities : Exchanged Entity.encode Entity.decode? Entity.Form
  privileges : Exchanged Privilege.encode Privilege.decode? Privilege.Form
  sets : SetsExchanged
  /-- Fields may come in any order, and among others. -/
  unordered : Unordered Principal.decode? ∧ Unordered Entity.decode? ∧ Unordered Privilege.decode?
  /-- A list is decoded as a resource exactly if it is a kind and then the names that go with it. -/
  entityLists : ∀ {items}, (∃ e, Entity.decode? (.list items) = some e)
    ↔ ∃ (kind : EntityKind) (names : List String), names.length = kind.nameFields.length
      ∧ items = .text kind.word :: names.map .text

/-- **All forms of a value are decoded as it, and its canonical form is one of them.** -/
theorem interchange : Interchange where
  principalKinds := Vocabulary.exchanged PrincipalKind
  entityKinds := Vocabulary.exchanged EntityKind
  actions := Vocabulary.exchanged Action
  principals := Principal.exchanged
  entities := Entity.exchanged
  privileges := Privilege.exchanged
  sets := PrivilegeSet.exchanged
  unordered := ⟨Principal.unordered, Entity.unordered, Privilege.unordered⟩
  entityLists := Entity.exists_decode?_list_iff

end Gatekeeper

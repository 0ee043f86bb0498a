import Gatekeeper.Proofs.Canonical

/-!
# One hierarchy of resources

There are three ways to a resource: growing it from its container, step by step from a namespace;
reading its text; and having valid names.  They lead to the same resources.  Growing and going back
to the container undo each other, also where the container was made without the checks, and whoever
goes on from container to container comes to the namespace.

* `EntityKind.container?`, `EntityKind.role`, `EntityKind.misplaced` — the hierarchy of the kinds.
* `Entity.child_eq_ok_iff`, `Entity.child_eq_error_iff` — when growing succeeds, and what is refused
  first.
* `Entity.Built`, `Entity.built_iff` — what can be grown is what is valid.
* `Entity.exists_follow_iff` — so is what a path of steps comes to of which some may fail.
* `OneHierarchy`, `one_hierarchy` — all that is promised.

Resources have five shapes, and each of the three ways treats the shapes one by one.  The
hierarchy of the *kinds* makes them one family: a kind has a container, or is that of namespaces,
and what is said of a resource is said of its last name and of the resource without it.
-/

set_option autoImplicit false

namespace Gatekeeper

open Text

namespace EntityKind

/-- The kind of what a resource of the kind is inside, if it is inside anything. -/
def container? : EntityKind → Option EntityKind
  | space => none
  | dataset | stream | application => some space
  | program => some application

/-- What the last name of a resource of the kind is the name of. -/
def role : EntityKind → NameRole
  | space => .space
  | dataset => .dataset
  | stream => .stream
  | application => .application
  | program => .program

/-- The fault of putting a resource of the kind into one of the wrong kind. -/
def misplaced (kind receiver : EntityKind) : IdFault :=
  match kind with
  | program => .notInApplication receiver
  | kind => .notInSpace kind receiver

theorem container?_eq_none_iff {kind : EntityKind} : kind.container? = none ↔ kind = .space := by
  cases kind <;> decide

theorem exists_container {kind : EntityKind} (h : kind ≠ .space) :
    ∃ c, kind.container? = some c :=
  Option.ne_none_iff_exists'.mp fun hnone => h (container?_eq_none_iff.mp hnone)

theorem depth_container {kind c : EntityKind} (h : kind.container? = some c) :
    kind.depth = c.depth + 1 := by
  cases kind <;> cases h <;> rfl

theorem roles_container {kind c : EntityKind} (h : kind.container? = some c) :
    kind.roles = c.roles ++ [kind.role] := by
  cases kind <;> cases h <;> rfl

end EntityKind

namespace Entity

variable {x y e : Entity} {kind c : EntityKind} {name : String} {f : IdFault}

/-! ## Containers

A resource and its container differ by the last name, and the kind of the one decides the kind of
the other. -/

/-- The container has all names but the last. -/
theorem parent_eq_some_iff : y.parent = some x
    ↔ y.kind.container? = some x.kind ∧ ∃ m, y.names = x.names ++ [m] := by
  cases y <;> cases x <;> simp [parent, kind, names, EntityKind.container?]

theorem spaceName_of_parent (h : y.parent = some x) : y.spaceName = x.spaceName := by
  cases y <;> cases h <;> rfl

theorem depth_of_parent (h : y.parent = some x) : y.kind.depth = x.kind.depth + 1 :=
  EntityKind.depth_container (parent_eq_some_iff.mp h).1

/-- There is a resource of any name inside a container of the right kind. -/
theorem exists_inside (hc : kind.container? = some x.kind) (m : String) :
    ∃ y, ofNames? kind (x.names ++ [m]) = some y :=
  exists_ofNames? <| by
    rw [List.length_append, names_length, EntityKind.depth_container hc, List.length_singleton]

/-- A resource is valid if its container and its last name are. -/
theorem valid_iff_of_names (hc : y.kind.container? = some x.kind) {m : String}
    (hm : y.names = x.names ++ [m]) : y.Valid ↔ x.Valid ∧ ValidName y.kind.role m.toList := by
  have hl : x.kind.roles.length = x.names.length := by rw [roles_length, names_length]
  rw [Valid, Valid, hm, EntityKind.roles_container hc, List.zip_append hl, List.forall_mem_append,
    List.zip_cons_cons, List.zip_nil_left, List.forall_mem_singleton]

/-! ## Growing

To grow a resource is to look at the kind of the container first and at the name second.  What
comes of it, and what is refused, is stated for every pair of a resource and a kind. -/

theorem newSpace_eq_ok_iff :
    newSpace name = .ok y ↔ ∃ m, NameText .space name.toList m ∧ y = space m := by
  simp only [← readName_eq_ok_iff, newSpace]
  cases readName .space name.toList <;> simp [Except.map, eq_comm]

/-- Inside a container of the right kind the name is read. -/
theorem child_eq_of_container (hc : kind.container? = some x.kind) (name : String) :
    x.child kind name = readName kind.role name.toList >>= fun m =>
      match ofNames? kind (x.names ++ [m]) with
      | some y => .ok y
      | none => .error (.wrongDepth kind) := by
  cases kind <;> cases x <;> first | cases hc; done | rfl

/-- A container of the wrong kind is refused whatever the name is. -/
theorem child_eq_of_not_container (hc : kind.container? = some c) (hx : x.kind ≠ c)
    (name : String) : x.child kind name = .error (kind.misplaced x.kind) := by
  cases kind <;> cases hc <;> cases x <;> first | rfl | exact absurd rfl hx

/-- **A resource grows from a container of the right kind by a valid name.** -/
theorem child_eq_ok_iff (hc : kind.container? = some c) : x.child kind name = .ok y
    ↔ x.kind = c ∧ y.kind = kind ∧ ∃ m, NameText kind.role name.toList m ∧ y.names = x.names ++ [m]
    := by
  by_cases hx : x.kind = c
  · subst hx
    simp only [child_eq_of_container hc, Except.bind_eq_ok_iff, readName_eq_ok_iff, true_and]
    constructor
    · rintro ⟨m, hm, hy⟩
      split at hy
      · rename_i y' hof
        obtain rfl := Except.ok.inj hy
        obtain ⟨hk, hn⟩ := ofNames?_eq_some_iff.mp hof
        exact ⟨hk, m, hm, hn⟩
      · cases hy
    · rintro ⟨rfl, m, hm, hn⟩
      refine ⟨m, hm, ?_⟩
      rw [← hn, ofNames?_names]
  · rw [child_eq_of_not_container hc hx]
    exact iff_of_false (by simp) fun h => hx h.1

/-- **A container of the wrong kind is refused first, and then a bad name.** -/
theorem child_eq_error_iff (hc : kind.container? = some c) : x.child kind name = .error f
    ↔ x.kind ≠ c ∧ f = kind.misplaced x.kind ∨ x.kind = c ∧ NameFlaw kind.role name.toList f := by
  by_cases hx : x.kind = c
  · subst hx
    rw [child_eq_of_container hc, Except.bind_eq_error_iff, readName_eq_error_iff]
    simp only [ne_eq, not_true_eq_false, false_and, false_or, true_and, or_iff_left_iff_imp]
    rintro ⟨m, -, hy⟩
    obtain ⟨y, hy'⟩ := exists_inside hc m
    rw [hy'] at hy
    cases hy
  · rw [child_eq_of_not_container hc hx]
    simp [hx, eq_comm]

theorem kind_of_child (hk : kind ≠ .space) (h : x.child kind name = .ok y) : y.kind = kind := by
  obtain ⟨c, hc⟩ := EntityKind.exists_container hk
  exact ((child_eq_ok_iff hc).mp h).2.1

/-- What grows from a resource has it as its container. -/
theorem parent_of_child (hk : kind ≠ .space) (h : x.child kind name = .ok y) :
    y.parent = some x := by
  obtain ⟨c, hc⟩ := EntityKind.exists_container hk
  obtain ⟨rfl, rfl, m, -, hn⟩ := (child_eq_ok_iff hc).mp h
  exact parent_eq_some_iff.mpr ⟨hc, m, hn⟩

/-- A valid resource grows from its container by its last name. -/
theorem exists_child (hy : y.Valid) (h : y.parent = some x) :
    ∃ kind name, kind ≠ .space ∧ x.child kind name = .ok y := by
  obtain ⟨hc, m, hn⟩ := parent_eq_some_iff.mp h
  refine ⟨y.kind, m, fun hk => ?_, (child_eq_ok_iff hc).mpr ⟨rfl, rfl, m, ?_, hn⟩⟩
  · rw [EntityKind.container?_eq_none_iff.mpr hk] at hc
    cases hc
  · exact ((valid_iff_of_names hc hn).mp hy).2.text

theorem valid_of_child (hx : x.Valid) (hk : kind ≠ .space) (h : x.child kind name = .ok y) :
    y.Valid := by
  obtain ⟨c, hc⟩ := EntityKind.exists_container hk
  obtain ⟨rfl, rfl, m, hm, hn⟩ := (child_eq_ok_iff hc).mp h
  exact (valid_iff_of_names hc hn).mpr ⟨hx, hm.valid⟩

theorem valid_space_iff {s : String} : (space s).Valid ↔ ValidName .space s.toList := by
  simp [Valid, kind, names, EntityKind.roles]

/-! ## All that can be grown

By induction, what has been grown is valid; and a valid resource can be grown, name by name. -/

/-- The resources that can be grown, beginning with namespaces. -/
inductive Built : Entity → Prop
  | space {name : String} {e : Entity} (h : newSpace name = .ok e) : Built e
  | child {x e : Entity} {kind : EntityKind} {name : String} (hx : Built x) (hk : kind ≠ .space)
    (h : x.child kind name = .ok e) : Built e

theorem Built.valid (h : Built e) : e.Valid := by
  induction h with
  | space h =>
    obtain ⟨m, hm, rfl⟩ := newSpace_eq_ok_iff.mp h
    exact valid_space_iff.mpr hm.valid
  | child _ hk h ih => exact valid_of_child ih hk h

theorem built_of_valid {e : Entity} (h : e.Valid) : Built e := by
  match hp : e.parent with
  | none =>
    obtain ⟨s, rfl⟩ : ∃ s, e = .space s := by cases e <;> first | exact ⟨_, rfl⟩ | cases hp
    exact .space (newSpace_eq_ok_iff.mpr ⟨s, (valid_space_iff.mp h).text, rfl⟩)
  | some x =>
    obtain ⟨hc, m, hn⟩ := parent_eq_some_iff.mp hp
    obtain ⟨kind, name, hk, hchild⟩ := exists_child h hp
    exact .child (built_of_valid ((valid_iff_of_names hc hn).mp h).1) hk hchild
termination_by e.kind.depth
decreasing_by
  rw [depth_of_parent hp]
  exact Nat.lt_succ_self _

/-- **What can be grown is what is valid.** -/
theorem built_iff : Built e ↔ e.Valid := ⟨Built.valid, built_of_valid⟩

/-! ## Paths of steps

A path may have steps that fail, which leave the place that was reached.  So paths come to
nothing that could not be grown without them. -/

theorem follow_cons_space (base : Option Entity) (h : newSpace name = .ok e)
    (path : List (EntityKind × String)) :
    follow base ((.space, name) :: path) = some (.ok e) :: follow (some e) path := by
  simp [follow, h]

theorem follow_cons_child (hk : kind ≠ .space) (h : x.child kind name = .ok e)
    (path : List (EntityKind × String)) :
    follow (some x) ((kind, name) :: path) = some (.ok e) :: follow (some e) path := by
  simp [follow, hk, h]

/-- What can be grown is reached by a path, from which one can go on. -/
theorem Built.exists_path (h : Built e) : ∃ path, ∀ rest, ∃ before,
    follow none (path ++ rest) = before ++ some (.ok e) :: follow (some e) rest := by
  induction h with
  | @space name e h => exact ⟨[(.space, name)], fun rest => ⟨[], follow_cons_space none h rest⟩⟩
  | @child x e kind name _ hk h ih =>
    obtain ⟨path, hpath⟩ := ih
    refine ⟨path ++ [(kind, name)], fun rest => ?_⟩
    obtain ⟨before, hbefore⟩ := hpath ((kind, name) :: rest)
    refine ⟨before ++ [some (.ok x)], ?_⟩
    rw [List.append_assoc, List.singleton_append, hbefore, follow_cons_child hk h,
      List.append_assoc, List.singleton_append]

/-- All that a path comes to has been grown, whichever of its steps fail. -/
theorem built_of_mem_follow {base : Option Entity} {path : List (EntityKind × String)}
    (hbase : ∀ x, base = some x → Built x) (h : some (.ok e) ∈ follow base path) : Built e := by
  induction path generalizing base with
  | nil => cases h
  | cons step path ih =>
    obtain ⟨kind, name⟩ := step
    have hmade : ∀ y, (if kind = .space then some (newSpace name)
        else base.map (·.child kind name)) = some (.ok y) → Built y := by
      intro y hy
      split_ifs at hy with hk
      · exact .space (Option.some.inj hy)
      · obtain ⟨x, hx, hxy⟩ := Option.map_eq_some_iff.mp hy
        exact .child (hbase x hx) hk hxy
    rw [follow] at h
    split at h
    · rename_i y hy
      rcases List.mem_cons.mp h with h | h
      · exact hmade e h.symm
      · exact ih (fun x hx => Option.some.inj hx ▸ hmade y hy) h
    · rcases List.mem_cons.mp h with h | h
      · exact hmade e h.symm
      · exact ih hbase h

/-- **A path of steps can come to what is valid**, and to nothing else. -/
theorem exists_follow_iff : (∃ path, some (.ok e) ∈ follow none path) ↔ e.Valid := by
  rw [← built_iff]
  constructor
  · rintro ⟨path, h⟩
    exact built_of_mem_follow (fun _ hx => by cases hx) h
  · intro h
    obtain ⟨path, hpath⟩ := h.exists_path
    obtain ⟨before, hbefore⟩ := hpath []
    refine ⟨path, ?_⟩
    rw [← List.append_nil path, hbefore]
    exact List.mem_append_right _ List.mem_cons_self

/-- **A text can be read as what is valid**, and as nothing else. -/
theorem exists_parse_iff : (∃ s, parse s = .ok e) ↔ e.Valid :=
  ⟨fun ⟨_, h⟩ => valid_of_parse h, fun h => ⟨e.text, parse_text_iff.mpr h⟩⟩

/-! ## The way out

Going from container to container ends at the namespace after as many steps as there are names
above it. -/

/-- What a number of steps from container to container leads to. -/
def ancestor : Nat → Entity → Option Entity
  | 0, e => some e
  | n + 1, e => e.parent.bind (ancestor n)

/-- Whoever goes on from container to container comes to the namespace, and no further. -/
theorem exists_ancestor (e : Entity) : ∃ n ≤ 2, e.ancestor n = some (space e.spaceName)
    ∧ e.ancestor (n + 1) = none := by
  refine ⟨e.kind.depth - 1, ?_, ?_, ?_⟩
  · cases e.kind <;> decide
  all_goals cases e <;> rfl

end Entity

/-! ## What is promised

The promises about the three ways to a resource. -/

open Entity in
/-- The three ways to a resource lead to the same resources, and containers are what resources have
been grown from. -/
structure OneHierarchy : Prop where
  /-- What can be grown is what is valid. -/
  built : ∀ e, Built e ↔ e.Valid
  /-- So is what paths come to of which some steps may fail. -/
  followed : ∀ e, (∃ path, some (.ok e) ∈ follow none path) ↔ e.Valid
  /-- So is what texts are read as. -/
  parsed : ∀ e, (∃ s, parse s = .ok e) ↔ e.Valid
  /-- Any valid name makes a namespace. -/
  space : ∀ name, (∃ y, newSpace name = .ok y) ↔ ∃ m, NameText .space name.toList m
  /-- Any other resource needs a container of the right kind as well, checked or not. -/
  succeeds : ∀ (x : Entity) {kind c : EntityKind} (name : String), kind.container? = some c →
    ((∃ y, x.child kind name = .ok y) ↔ x.kind = c ∧ ∃ m, NameText kind.role name.toList m)
  /-- A container of the wrong kind is refused whatever the name is. -/
  refused : ∀ (x : Entity) {kind c : EntityKind} (name : String) (f : IdFault),
    kind.container? = some c → (x.child kind name = .error f ↔
      x.kind ≠ c ∧ f = kind.misplaced x.kind ∨ x.kind = c ∧ NameFlaw kind.role name.toList f)
  /-- What has been grown has what it was grown from as its container, and stays in its
  namespace. -/
  placed : ∀ {x y : Entity} {kind : EntityKind} {name : String}, kind ≠ .space →
    x.child kind name = .ok y → y.kind = kind ∧ y.parent = some x ∧ y.spaceName = x.spaceName
  /-- What has a container can be grown from it. -/
  rebuilt : ∀ {x y : Entity}, y.Valid → y.parent = some x →
    ∃ kind name, kind ≠ .space ∧ x.child kind name = .ok y
  /-- All containers are in the end namespaces, which are inside nothing. -/
  rooted : ∀ e : Entity, ∃ n ≤ 2, e.ancestor n = some (.space e.spaceName)
    ∧ e.ancestor (n + 1) = none

/-- **There is one hierarchy of resources.** -/
theorem one_hierarchy : OneHierarchy where
  built _ := Entity.built_iff
  followed _ := Entity.exists_follow_iff
  parsed _ := Entity.exists_parse_iff
  space name := by
    simp only [Entity.newSpace_eq_ok_iff]
    exact ⟨fun ⟨_, m, hm, _⟩ => ⟨m, hm⟩, fun ⟨m, hm⟩ => ⟨_, m, hm, rfl⟩⟩
  succeeds x _ _ name hc := by
    simp only [Entity.child_eq_ok_iff hc]
    constructor
    · rintro ⟨y, hx, -, m, hm, -⟩
      exact ⟨hx, m, hm⟩
    · rintro ⟨rfl, m, hm⟩
      obtain ⟨y, hy⟩ := Entity.exists_inside hc m
      obtain ⟨hk, hn⟩ := Entity.ofNames?_eq_some_iff.mp hy
      exact ⟨y, rfl, hk, m, hm, hn⟩
  refused _ _ _ _ _ hc := Entity.child_eq_error_iff hc
  placed hk h := by
    have hp := Entity.parent_of_child hk h
    exact ⟨Entity.kind_of_child hk h, hp, Entity.spaceName_of_parent hp⟩
  rebuilt hy h := Entity.exists_child hy h
  rooted := Entity.exists_ancestor

end Gatekeeper

import NameResolution.Module.Tree
import NameResolution.Proofs.Tables.Definitions

/-! # Valid module trees

    A module lies in one that came before it, so every way outward ends at the
    root. Operations add modules and names, and change nothing that is there. -/

namespace NameResolution

theorem values_eq_map_snd {κ α : Type} [Ord κ] (map : Std.TreeMap κ α) :
    map.values = map.toList.map Prod.snd := by
  show map.inner.inner.values = (Std.DTreeMap.Internal.Impl.Const.toList map.inner.inner).map _
  rw [Std.DTreeMap.Internal.Impl.values_eq_map_snd,
    Std.DTreeMap.Internal.Impl.Const.toList_eq_toListModel_map]
  simp [List.map_map, Function.comp_def]

/-- Each value of a map stands under some key. -/
theorem exists_key_of_mem_values {κ α : Type} [Ord κ] [Std.TransOrd κ] [Std.LawfulEqOrd κ]
    {map : Std.TreeMap κ α} {a : α} (h : a ∈ map.values) : ∃ key : κ, map[key]? = some a := by
  rw [values_eq_map_snd] at h
  obtain ⟨⟨key, a⟩, mem, rfl⟩ := List.mem_map.mp h
  exact ⟨key, Std.TreeMap.mem_toList_iff_getElem?_eq_some.mp mem⟩

namespace ModuleTree

variable {tree tree' tree'' : ModuleTree}

/-! ## Reading -/

/-- The id of a module. -/
def Known (tree : ModuleTree) (id : ModuleId) : Prop := id.index < tree.size

/-- What a name is bound to in a module. -/
def bindingAt? (tree : ModuleTree) (id : ModuleId) (ns : Namespace) (name : String) :
    Option Binding :=
  (tree.find? id).bind (·.find? ns name)

theorem known_of_find? {id : ModuleId} {m : Module} (h : tree.find? id = some m) :
    tree.Known id := by
  obtain ⟨lt, -⟩ := Array.getElem?_eq_some_iff.mp h
  exact lt

theorem Known.find? {id : ModuleId} (h : tree.Known id) : ∃ m, tree.find? id = some m :=
  ⟨tree.modules[id.index], Array.getElem?_eq_getElem h⟩

theorem get_of_find? {id : ModuleId} {m : Module} (h : tree.find? id = some m) :
    tree.get id = .ok m := by
  rw [get, h]

theorem Known.get {id : ModuleId} (h : tree.Known id) :
    Yields False (tree.get id) fun m => tree.find? id = some m := by
  obtain ⟨m, found⟩ := h.find?
  rw [get_of_find? found]
  exact found

theorem bindingAt?_of_find? {id : ModuleId} {m : Module} (h : tree.find? id = some m)
    (ns : Namespace) (name : String) : tree.bindingAt? id ns name = m.find? ns name := by
  rw [bindingAt?, h, Option.bind_some]

theorem find?_of_get {id : ModuleId} {m : Module} (h : tree.get id = .ok m) :
    tree.find? id = some m := by
  unfold get at h
  split at h
  · next found => cases h; exact found
  · cases h

theorem get_bind_eq_ok {α : Type} {id : ModuleId} {f : Module → Except Fault α} {a : α} :
    tree.get id >>= f = .ok a ↔ ∃ m, tree.find? id = some m ∧ f m = .ok a := by
  rw [Except.bind_eq_ok]
  exact exists_congr fun m => and_congr_left fun _ => ⟨find?_of_get, get_of_find?⟩

theorem ancestors_eq_ok {id : ModuleId} {ms : List Module} : tree.ancestors id = .ok ms ↔
    ∃ m, tree.find? id = some m ∧ ms = tree.outward tree.size m := by
  rw [ancestors, get_bind_eq_ok]
  exact exists_congr fun m => and_congr_right fun _ => ⟨fun | rfl => rfl, fun | rfl => rfl⟩

theorem known_of_ancestors {id : ModuleId} {ms : List Module} (h : tree.ancestors id = .ok ms) :
    tree.Known id := by
  obtain ⟨m, found, -⟩ := ancestors_eq_ok.mp h
  exact known_of_find? found

theorem not_known_nextId : ¬ tree.Known tree.nextId := Nat.lt_irrefl _

theorem ne_nextId {id : ModuleId} (h : tree.Known id) : id ≠ tree.nextId := by
  rintro rfl
  exact not_known_nextId h

/-! ## Writing -/

@[simp] theorem size_modify (id : ModuleId) (change : Module → Module) :
    (tree.modify id change).size = tree.size := by
  simp [modify, size]

theorem find?_modify (id : ModuleId) (change : Module → Module) (other : ModuleId) :
    (tree.modify id change).find? other =
      if id = other then (tree.find? other).map change else tree.find? other := by
  have same : id = other ↔ id.index = other.index := by
    cases id; cases other; simp
  simp only [find?, modify, Array.getElem?_modify, same]

theorem find?_modify_self {id : ModuleId} {m : Module} (h : tree.find? id = some m)
    (change : Module → Module) : (tree.modify id change).find? id = some (change m) := by
  rw [find?_modify, if_pos rfl, h, Option.map_some]

theorem find?_modify_of_ne {id other : ModuleId} (h : id ≠ other) (change : Module → Module) :
    (tree.modify id change).find? other = tree.find? other := by
  rw [find?_modify, if_neg h]

@[simp] theorem size_push (parent : Module) (owner : ModuleOwner) :
    (tree.push parent owner).size = tree.size + 1 := by
  simp [push, size]

theorem find?_push_nextId (tree : ModuleTree) (parent : Module) (owner : ModuleOwner) :
    ∃ itemModule, (tree.push parent owner).find? tree.nextId =
      some (.new tree.nextId owner (some parent.id) itemModule) := by
  refine ⟨if owner.isBlock then parent.itemModule else tree.nextId, ?_⟩
  simp only [push, find?, nextId, size, Array.getElem?_push_size]

theorem find?_push_of_known {id : ModuleId} (h : tree.Known id) (parent : Module)
    (owner : ModuleOwner) : (tree.push parent owner).find? id = tree.find? id := by
  have ne : id.index ≠ tree.modules.size := Nat.ne_of_lt h
  simp [push, find?, Array.getElem?_push, ne]

/-! ## Validity -/

/-- What holds of a tree at any time. -/
structure Valid (tree : ModuleTree) : Prop where
  /-- A module knows its own id -/
  ids : ∀ {id : ModuleId} {m : Module}, tree.find? id = some m → m.id = id
  parents : ∀ {id parent : ModuleId} {m : Module}, tree.find? id = some m →
    m.parent = some parent → parent.index < id.index
  /-- The root belongs to the program -/
  root : ∃ m, tree.find? .root = some m ∧ m.owner = .definition .root ∧ m.parent = none
  named : ∀ {id child : ModuleId} {m : Module} {name : String}, tree.find? id = some m →
    m.child? name = some child → tree.Known child
  anonymous : ∀ {id child : ModuleId} {m : Module} {node : NodeId}, tree.find? id = some m →
    m.anonymousChild? node = some child → tree.Known child

theorem find?_new {id : ModuleId} {m : Module} (h : ModuleTree.new.find? id = some m) :
    id = .root ∧ m = .new .root (.definition .root) none .root := by
  obtain ⟨lt, eq⟩ := Array.getElem?_eq_some_iff.mp h
  have zero : id.index = 0 := Nat.lt_one_iff.mp lt
  obtain ⟨index⟩ := id
  cases zero
  exact ⟨rfl, eq.symm⟩

theorem bindingAt?_new (id : ModuleId) (ns : Namespace) (name : String) :
    ModuleTree.new.bindingAt? id ns name = none := by
  apply Option.eq_none_iff_forall_ne_some.mpr
  intro binding bound
  obtain ⟨m, found, held⟩ := Option.bind_eq_some_iff.mp bound
  obtain ⟨-, rfl⟩ := find?_new found
  simp [Module.new, Module.find?] at held

namespace Valid

theorem new : Valid .new where
  ids h := by
    obtain ⟨rfl, rfl⟩ := find?_new h
    rfl
  parents h inside := by
    obtain ⟨rfl, rfl⟩ := find?_new h
    cases inside
  root := ⟨.new .root (.definition .root) none .root, rfl, rfl, rfl⟩
  named h held := by
    obtain ⟨rfl, rfl⟩ := find?_new h
    simp [Module.new, Module.child?] at held
  anonymous h held := by
    obtain ⟨rfl, rfl⟩ := find?_new h
    simp [Module.new, Module.anonymousChild?] at held

theorem known_root (valid : tree.Valid) : tree.Known .root := by
  obtain ⟨m, found, -⟩ := valid.root
  exact known_of_find? found

theorem known_parent (valid : tree.Valid) {id parent : ModuleId} {m : Module}
    (h : tree.find? id = some m) (inside : m.parent = some parent) : tree.Known parent :=
  Nat.lt_trans (valid.parents h inside) (known_of_find? h)

theorem known_child (valid : tree.Valid) {id child : ModuleId} {m : Module}
    (h : tree.find? id = some m) (mem : child ∈ m.children) : tree.Known child := by
  rcases List.mem_append.mp mem with mem | mem
  · obtain ⟨name, held⟩ := exists_key_of_mem_values mem
    exact valid.named h held
  · obtain ⟨node, held⟩ := exists_key_of_mem_values mem
    exact valid.anonymous h held

end Valid

/-! ## The way outward -/

/-- A module and those around it are modules of the tree. -/
theorem Valid.find?_of_mem_outward (valid : tree.Valid) (steps : Nat) {m m' : Module}
    (h : tree.find? m.id = some m) (mem : m' ∈ tree.outward steps m) :
    tree.find? m'.id = some m' := by
  -- the way outward goes from parent to parent, one for each step
  induction steps generalizing m with
  | zero =>
    rw [outward, List.mem_singleton] at mem
    rw [mem]
    exact h
  | succ steps ih =>
    rw [outward] at mem
    rcases List.mem_cons.mp mem with rfl | mem
    · exact h
    · split at mem
      · next parent found =>
        obtain ⟨id, -, found⟩ := Option.bind_eq_some_iff.mp found
        refine ih ?_ mem
        rw [valid.ids found]
        exact found
      · cases mem

theorem Valid.ancestors (valid : tree.Valid) {id : ModuleId} {m : Module}
    (h : tree.find? id = some m) :
    Yields False (tree.ancestors id) fun ms =>
      ms = tree.outward tree.size m ∧ ∀ m' ∈ ms, tree.find? m'.id = some m' := by
  rw [ModuleTree.ancestors, get_of_find? h]
  refine ⟨rfl, fun m' mem => valid.find?_of_mem_outward _ ?_ mem⟩
  rw [valid.ids h]
  exact h

theorem Valid.isWithin (valid : tree.Valid) {inner outer : ModuleId} (known : tree.Known inner) :
    Yields False (tree.isWithin inner outer) fun _ => True := by
  obtain ⟨m, found⟩ := known.find?
  simp only [ModuleTree.isWithin, Yields.bind_iff, Yields.pure_iff]
  exact (valid.ancestors found).mono fun _ _ => trivial

/-! ## Larger trees -/

/-- A later tree: each module has kept its place. -/
structure Extends (tree tree' : ModuleTree) : Prop where
  module : ∀ {id : ModuleId} {m : Module}, tree.find? id = some m →
    ∃ m', tree'.find? id = some m' ∧ m'.owner = m.owner ∧ m'.parent = m.parent

namespace Extends

theorem refl (tree : ModuleTree) : tree.Extends tree := ⟨fun {_ m} h => ⟨m, h, rfl, rfl⟩⟩

theorem trans (h : tree.Extends tree') (h' : tree'.Extends tree'') : tree.Extends tree'' := by
  constructor
  intro id m found
  obtain ⟨m', found', owner, parent⟩ := h.module found
  obtain ⟨m'', found'', owner', parent'⟩ := h'.module found'
  exact ⟨m'', found'', owner'.trans owner, parent'.trans parent⟩

theorem known (h : tree.Extends tree') {id : ModuleId} (known : tree.Known id) :
    tree'.Known id := by
  obtain ⟨m, found⟩ := known.find?
  obtain ⟨m', found', -⟩ := h.module found
  exact known_of_find? found'

end Extends

/-- A tree of the same modules, in which more names may be bound. -/
structure Grows (tree tree' : ModuleTree) : Prop where
  size : tree'.size = tree.size
  module : ∀ {id : ModuleId} {m : Module}, tree.find? id = some m →
    ∃ names, tree'.find? id = some { m with names }

namespace Grows

theorem refl (tree : ModuleTree) : tree.Grows tree := ⟨rfl, fun {_ m} h => ⟨m.names, h⟩⟩

theorem trans (h : tree.Grows tree') (h' : tree'.Grows tree'') : tree.Grows tree'' := by
  refine ⟨h'.size.trans h.size, ?_⟩
  intro id m found
  obtain ⟨names, found'⟩ := h.module found
  obtain ⟨names', found''⟩ := h'.module found'
  exact ⟨names', found''⟩

theorem known_iff (h : tree.Grows tree') {id : ModuleId} : tree'.Known id ↔ tree.Known id := by
  unfold Known
  rw [h.size]

/-- Each module of the larger tree is one of the smaller. -/
theorem module_of (h : tree.Grows tree') {id : ModuleId} {m' : Module}
    (found' : tree'.find? id = some m') :
    ∃ m names, tree.find? id = some m ∧ m' = { m with names } := by
  obtain ⟨m, found⟩ := (h.known_iff.mp (known_of_find? found')).find?
  obtain ⟨names, eq⟩ := h.module found
  rw [found'] at eq
  cases eq
  exact ⟨m, names, found, rfl⟩

theorem toExtends (h : tree.Grows tree') : tree.Extends tree' := by
  constructor
  intro id m found
  obtain ⟨names, found'⟩ := h.module found
  exact ⟨_, found', rfl, rfl⟩

theorem valid (h : tree.Grows tree') (valid : tree.Valid) : tree'.Valid := by
  refine ⟨?_, ?_, ?_, ?_, ?_⟩
  · intro id m' found'
    obtain ⟨m, names, found, rfl⟩ := h.module_of found'
    exact valid.ids (m := m) found
  · intro id parent m' found' inside
    obtain ⟨m, names, found, rfl⟩ := h.module_of found'
    exact valid.parents (m := m) found inside
  · obtain ⟨m, found, owner, parent⟩ := valid.root
    obtain ⟨names, found'⟩ := h.module found
    exact ⟨_, found', owner, parent⟩
  · intro id child m' name found' held
    obtain ⟨m, names, found, rfl⟩ := h.module_of found'
    exact h.known_iff.mpr (valid.named (m := m) found held)
  · intro id child m' node found' held
    obtain ⟨m, names, found, rfl⟩ := h.module_of found'
    exact h.known_iff.mpr (valid.anonymous (m := m) found held)

end Grows

/-! ## Binding names -/

section

variable {id : ModuleId} {ns : Namespace} {name : String} {binding : Binding}

theorem grows_bind : tree.Grows (tree.modify id (·.bind ns name binding)) := by
  refine ⟨size_modify .., ?_⟩
  intro other m found
  rw [find?_modify]
  split
  · rw [found]
    exact ⟨_, rfl⟩
  · exact ⟨m.names, found⟩

theorem bindingAt?_bind_self (known : tree.Known id) :
    (tree.modify id (·.bind ns name binding)).bindingAt? id ns name = some binding := by
  obtain ⟨m, found⟩ := known.find?
  rw [bindingAt?_of_find? (find?_modify_self found _)]
  exact Module.find?_bind_self ..

/-- Other names are bound as before. -/
theorem bindingAt?_bind_of_ne {other : ModuleId} {ns' : Namespace} {name' : String}
    (h : (other, ns', name') ≠ (id, ns, name)) :
    (tree.modify id (·.bind ns name binding)).bindingAt? other ns' name' =
      tree.bindingAt? other ns' name' := by
  by_cases same : id = other
  · subst same
    cases found : tree.find? id with
    | none => rw [bindingAt?, find?_modify, if_pos rfl, found, bindingAt?, found]; rfl
    | some m =>
      rw [bindingAt?_of_find? (find?_modify_self found _), bindingAt?_of_find? found]
      -- in the same module the name differs, or else its namespace
      by_cases sameNs : ns' = ns
      · have ne : name ≠ name' := by
          rintro rfl
          exact h (by rw [sameNs])
        exact Module.find?_bind_of_ne_name _ _ _ ne _
      · exact Module.find?_bind_of_ne_namespace _ sameNs _ _ _
  · rw [bindingAt?, find?_modify_of_ne same, bindingAt?]

/-- A name of the larger tree is the new one, or it was bound before. -/
theorem bound_or_of_bind {other : ModuleId} {ns' : Namespace} {name' : String} {binding' : Binding}
    (bound : (tree.modify id (·.bind ns name binding)).bindingAt? other ns' name' =
      some binding') :
    (other, ns', name') = (id, ns, name) ∧ binding' = binding ∨
      tree.bindingAt? other ns' name' = some binding' := by
  by_cases same : (other, ns', name') = (id, ns, name)
  · cases same
    -- a name is bound only in a module that is there
    have known : tree.Known id := by
      obtain ⟨m, found, -⟩ := Option.bind_eq_some_iff.mp bound
      exact grows_bind.known_iff.mp (known_of_find? found)
    rw [bindingAt?_bind_self known] at bound
    exact .inl ⟨rfl, (Option.some.inj bound).symm⟩
  · rw [bindingAt?_bind_of_ne same] at bound
    exact .inr bound

/-- A name is bound where it is free. Only a lifetime in a block is refused. -/
theorem yields_bind {onFault : Prop} {post : Bound → Prop} :
    Yields onFault (tree.bind id ns name binding) post ↔
      Yields onFault (tree.get id) fun m =>
        if ns = .lifetime ∧ m.owner.isBlock then onFault
        else
          match m.find? ns name with
          | some first => post (.taken first)
          | none => post (.bound (tree.modify id (·.bind ns name binding))) := by
  unfold ModuleTree.bind
  rw [Yields.bind_iff]
  refine iff_of_eq (congrArg _ (funext fun m => propext ?_))
  by_cases refused : ns = .lifetime ∧ m.owner.isBlock
  · simp only [if_pos refused, Yields.bind_iff, Yields.throw_iff]
  · rw [if_neg refused, if_neg refused]
    cases m.find? ns name <;> rfl

/-- A name that has been bound was free, and it is no lifetime in a block. -/
theorem bind_eq_bound : tree.bind id ns name binding = .ok (.bound tree') ↔
    ∃ m, tree.find? id = some m ∧ ¬ (ns = .lifetime ∧ m.owner.isBlock) ∧
      m.find? ns name = none ∧ tree' = tree.modify id (·.bind ns name binding) := by
  rw [ModuleTree.bind, get_bind_eq_ok]
  refine exists_congr fun m => and_congr_right fun _ => ?_
  by_cases refused : ns = .lifetime ∧ m.owner.isBlock
  · rw [if_pos refused]
    exact iff_of_false (by rintro ⟨⟩) fun h => h.1 refused
  · rw [if_neg refused]
    cases m.find? ns name with
    | some first => exact iff_of_false (by rintro ⟨⟩) (by rintro ⟨-, ⟨⟩, -⟩)
    | none =>
      constructor
      · rintro ⟨⟩
        exact ⟨refused, rfl, rfl⟩
      · rintro ⟨-, -, rfl⟩
        rfl

end

/-! ## Adding modules -/

/-- No module has a child for a node. -/
def Free (tree : ModuleTree) (node : NodeId) : Prop :=
  ∀ {id : ModuleId} {m : Module}, tree.find? id = some m → m.anonymousChild? node = none

/-- A tree with one more module, a child of `parent` that may be known by `node`. -/
structure Adds (tree : ModuleTree) (parent : ModuleId) (owner : ModuleOwner) (node : NodeId)
    (tree' : ModuleTree) : Prop where
  size : tree'.size = tree.size + 1
  child : ∃ itemModule, tree'.find? tree.nextId =
    some (.new tree.nextId owner (some parent) itemModule)
  old : ∀ {id : ModuleId} {m : Module}, tree.find? id = some m →
    ∃ named anonymous, tree'.find? id = some { m with named, anonymous } ∧
      (∀ name child, named[name]? = some child →
        m.child? name = some child ∨ child = tree.nextId) ∧
      (∀ other child, anonymous[other]? = some child →
        m.anonymousChild? other = some child ∨ child = tree.nextId ∧ other = node)

section

variable {parent module : ModuleId} {owner : ModuleOwner} {m : Module}

/-- Adding a child that is known by its name goes through where the name is free. -/
theorem addNamed_eq_ok {name : String} {r : ModuleId × ModuleTree} :
    tree.addNamed parent name owner = .ok r ↔
      ∃ m, tree.find? parent = some m ∧ m.child? name = none ∧
        r = (tree.nextId, (tree.push m owner).modify parent fun m =>
          { m with named := m.named.insert name tree.nextId }) := by
  rw [addNamed, get_bind_eq_ok]
  refine exists_congr fun m => and_congr_right fun _ => ?_
  cases m.child? name with
  | some first => exact iff_of_false (by rintro ⟨⟩) (by rintro ⟨⟨⟩, -⟩)
  | none =>
    constructor
    · rintro ⟨⟩
      exact ⟨rfl, rfl⟩
    · rintro ⟨-, rfl⟩
      rfl

/-- Adding a child that is known by its node goes through where the node is free. -/
theorem addAnonymous_eq_ok {node : NodeId} {r : ModuleId × ModuleTree} :
    tree.addAnonymous parent node owner = .ok r ↔
      ∃ m, tree.find? parent = some m ∧ m.anonymousChild? node = none ∧
        r = (tree.nextId, (tree.push m owner).modify parent fun m =>
          { m with anonymous := m.anonymous.insert node tree.nextId }) := by
  rw [addAnonymous, get_bind_eq_ok]
  refine exists_congr fun m => and_congr_right fun _ => ?_
  cases m.anonymousChild? node with
  | some first => exact iff_of_false (by rintro ⟨⟩) (by rintro ⟨⟨⟩, -⟩)
  | none =>
    constructor
    · rintro ⟨⟩
      exact ⟨rfl, rfl⟩
    · rintro ⟨-, rfl⟩
      rfl

/-- A new module, of which its parent is told by a change to its children. -/
theorem adds_of_change (valid : tree.Valid) (found : tree.find? parent = some m) {node : NodeId}
    {change : Module → Module}
    (changes : ∃ named anonymous, change m = { m with named, anonymous } ∧
      (∀ name child, named[name]? = some child →
        m.child? name = some child ∨ child = tree.nextId) ∧
      (∀ other child, anonymous[other]? = some child →
        m.anonymousChild? other = some child ∨ child = tree.nextId ∧ other = node)) :
    tree.Adds parent owner node ((tree.push m owner).modify parent change) := by
  refine ⟨by simp, ?_, ?_⟩
  · obtain ⟨itemModule, new⟩ := tree.find?_push_nextId m owner
    rw [valid.ids found] at new
    refine ⟨itemModule, ?_⟩
    rw [find?_modify_of_ne (ne_nextId (known_of_find? found)), new]
  · intro id m' found'
    rw [find?_modify, find?_push_of_known (known_of_find? found')]
    split
    · next same =>
      subst same
      cases found.symm.trans found'
      obtain ⟨named, anonymous, changed, old, old'⟩ := changes
      exact ⟨named, anonymous, by rw [found, Option.map_some, changed], old, old'⟩
    · exact ⟨_, _, found', fun _ _ => .inl, fun _ _ => .inl⟩

theorem addNamed_adds {name : String} (valid : tree.Valid) (found : tree.find? parent = some m)
    (free : m.child? name = none) (node : NodeId) :
    ∃ tree', tree.addNamed parent name owner = .ok (tree.nextId, tree') ∧
      tree.Adds parent owner node tree' := by
  refine ⟨_, addNamed_eq_ok.mpr ⟨m, found, free, rfl⟩, adds_of_change valid found ?_⟩
  refine ⟨_, _, rfl, fun name' child held => ?_, fun _ _ => .inl⟩
  rw [Std.TreeMap.getElem?_insert] at held
  split at held
  · cases held
    exact .inr rfl
  · exact .inl held

theorem addAnonymous_adds {node : NodeId} (valid : tree.Valid)
    (found : tree.find? parent = some m) (free : m.anonymousChild? node = none)
    (owner : ModuleOwner) :
    ∃ tree', tree.addAnonymous parent node owner = .ok (tree.nextId, tree') ∧
      tree.Adds parent owner node tree' := by
  refine ⟨_, addAnonymous_eq_ok.mpr ⟨m, found, free, rfl⟩, adds_of_change valid found ?_⟩
  refine ⟨_, _, rfl, fun _ _ => .inl, fun other child held => ?_⟩
  rw [Std.TreeMap.getElem?_insert] at held
  split at held
  · next same =>
    cases held
    exact .inr ⟨rfl, (Std.LawfulEqOrd.eq_of_compare same).symm⟩
  · exact .inl held

/-- Whoever has been given a module has got a new one. -/
theorem adds_of_addNamed {name : String} (valid : tree.Valid)
    (made : tree.addNamed parent name owner = .ok (module, tree')) (node : NodeId) :
    module = tree.nextId ∧ tree.Adds parent owner node tree' := by
  obtain ⟨m, found, free, -⟩ := addNamed_eq_ok.mp made
  obtain ⟨_, made', adds⟩ := addNamed_adds valid found free node
  cases made.symm.trans made'
  exact ⟨rfl, adds⟩

theorem adds_of_addAnonymous {node : NodeId} (valid : tree.Valid)
    (made : tree.addAnonymous parent node owner = .ok (module, tree')) :
    module = tree.nextId ∧ tree.Adds parent owner node tree' := by
  obtain ⟨m, found, free, -⟩ := addAnonymous_eq_ok.mp made
  obtain ⟨_, made', adds⟩ := addAnonymous_adds valid found free owner
  cases made.symm.trans made'
  exact ⟨rfl, adds⟩

end

namespace Adds

variable {parent : ModuleId} {owner : ModuleOwner} {node : NodeId}

theorem toExtends (h : tree.Adds parent owner node tree') : tree.Extends tree' := by
  constructor
  intro id m found
  obtain ⟨named, anonymous, found', -⟩ := h.old found
  exact ⟨_, found', rfl, rfl⟩

theorem known_nextId (h : tree.Adds parent owner node tree') : tree'.Known tree.nextId := by
  obtain ⟨itemModule, found⟩ := h.child
  exact known_of_find? found

/-- A module of the larger tree is the new one, or an old one but for its children. -/
theorem cases (h : tree.Adds parent owner node tree') {id : ModuleId} {m : Module}
    (found : tree'.find? id = some m) :
    (id = tree.nextId ∧ ∃ itemModule, m = .new tree.nextId owner (some parent) itemModule) ∨
    ∃ m₀ named anonymous, tree.find? id = some m₀ ∧ m = { m₀ with named, anonymous } ∧
      (∀ name child, named[name]? = some child →
        m₀.child? name = some child ∨ child = tree.nextId) ∧
      (∀ other child, anonymous[other]? = some child →
        m₀.anonymousChild? other = some child ∨ child = tree.nextId ∧ other = node) := by
  have known : tree'.Known id := known_of_find? found
  unfold Known at known
  rw [h.size] at known
  -- ids are places in the table, so the new module is the one at the last place
  rcases Nat.lt_succ_iff_lt_or_eq.mp known with lt | eq
  · have old : tree.Known id := lt
    obtain ⟨m₀, found₀⟩ := old.find?
    obtain ⟨named, anonymous, found', children, others⟩ := h.old found₀
    rw [found] at found'
    cases found'
    exact .inr ⟨m₀, named, anonymous, found₀, rfl, children, others⟩
  · have isNew : id = tree.nextId := by
      cases id
      cases eq
      rfl
    subst isNew
    obtain ⟨itemModule, new⟩ := h.child
    rw [found] at new
    cases new
    exact .inl ⟨rfl, itemModule, rfl⟩

theorem valid (h : tree.Adds parent owner node tree') (valid : tree.Valid)
    (known : tree.Known parent) : tree'.Valid := by
  have grown : ∀ {id : ModuleId}, tree.Known id → tree'.Known id := fun known =>
    h.toExtends.known known
  refine ⟨?_, ?_, ?_, ?_, ?_⟩
  · intro id m found
    rcases h.cases found with ⟨rfl, itemModule, rfl⟩ | ⟨m₀, _, _, found₀, rfl, -⟩
    · rfl
    · exact valid.ids (m := m₀) found₀
  · intro id parent' m found inside
    rcases h.cases found with ⟨rfl, itemModule, rfl⟩ | ⟨m₀, _, _, found₀, rfl, -⟩
    · cases inside
      exact known
    · exact valid.parents (m := m₀) found₀ inside
  · obtain ⟨m, found, owner', parent'⟩ := valid.root
    obtain ⟨named, anonymous, found', -⟩ := h.old found
    exact ⟨_, found', owner', parent'⟩
  · intro id child m name found held
    rcases h.cases found with ⟨rfl, itemModule, rfl⟩ | ⟨m₀, _, _, found₀, rfl, children, -⟩
    · simp [Module.new, Module.child?] at held
    · rcases children name child held with held | rfl
      · exact grown (valid.named found₀ held)
      · exact h.known_nextId
  · intro id child m other found held
    rcases h.cases found with ⟨rfl, itemModule, rfl⟩ | ⟨m₀, _, _, found₀, rfl, -, children⟩
    · simp [Module.new, Module.anonymousChild?] at held
    · rcases children other child held with held | ⟨rfl, -⟩
      · exact grown (valid.anonymous found₀ held)
      · exact h.known_nextId

/-- Names are bound as before, and none in the new module. -/
theorem bindingAt? (h : tree.Adds parent owner node tree') {id : ModuleId} {ns : Namespace}
    {name : String} {binding : Binding} (bound : tree'.bindingAt? id ns name = some binding) :
    tree.bindingAt? id ns name = some binding := by
  obtain ⟨m, found, held⟩ := Option.bind_eq_some_iff.mp bound
  rcases h.cases found with ⟨rfl, itemModule, rfl⟩ | ⟨m₀, _, _, found₀, rfl, -⟩
  · simp [Module.new, Module.find?] at held
  · rw [bindingAt?_of_find? found₀]
    exact held

theorem bindingAt?_eq (h : tree.Adds parent owner node tree') (id : ModuleId) (ns : Namespace)
    (name : String) : tree'.bindingAt? id ns name = tree.bindingAt? id ns name := by
  apply Option.ext
  intro binding
  refine ⟨h.bindingAt?, fun bound => ?_⟩
  obtain ⟨m, found, held⟩ := Option.bind_eq_some_iff.mp bound
  obtain ⟨named, anonymous, found', -⟩ := h.old found
  rw [ModuleTree.bindingAt?_of_find? found']
  exact held

theorem free (h : tree.Adds parent owner node tree') {other : NodeId} (ne : other ≠ node)
    (free : tree.Free other) : tree'.Free other := by
  intro id m found
  rcases h.cases found with ⟨rfl, itemModule, rfl⟩ | ⟨m₀, _, _, found₀, rfl, -, children⟩
  · simp [Module.new, Module.anonymousChild?]
  · apply Option.eq_none_iff_forall_ne_some.mpr
    intro child held
    rcases children other child held with held | ⟨-, same⟩
    · rw [free found₀] at held
      cases held
    · exact ne same

end Adds

end ModuleTree

end NameResolution

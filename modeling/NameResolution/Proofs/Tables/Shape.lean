import NameResolution.Proofs.Tables.Modules
import Mathlib.Logic.Relation

/-! # The shape of a module tree

    A module says in which other one it lies, and that one has it in one of two
    child tables. The two are written one after the other, so that they agree is
    something to be kept: by every operation on a tree, whatever its arguments.
    Nothing is asked of the operations but that they go through. -/

namespace NameResolution

/-! ## Children -/

/-- What a module knows a child by. -/
inductive ChildKey where
  | name (name : String)
  | node (node : NodeId)
  deriving DecidableEq

namespace Module

variable {m : Module} {key key' : ChildKey} {child : ModuleId}

/-- The child that a module knows by a key. -/
def childAt? (m : Module) : ChildKey → Option ModuleId
  | .name name => m.child? name
  | .node node => m.anonymousChild? node

/-- One more child, in the table that its key belongs to. -/
def adopt (m : Module) (child : ModuleId) : ChildKey → Module
  | .name name => { m with named := m.named.insert name child }
  | .node node => { m with anonymous := m.anonymous.insert node child }

theorem adopt_eq (m : Module) (child : ModuleId) (key : ChildKey) :
    ∃ named anonymous, m.adopt child key = { m with named, anonymous } := by
  cases key <;> exact ⟨_, _, rfl⟩

theorem childAt?_adopt (m : Module) (child : ModuleId) (key key' : ChildKey) :
    (m.adopt child key).childAt? key' = if key = key' then some child else m.childAt? key' := by
  cases key <;> cases key' <;>
    simp [adopt, childAt?, child?, anonymousChild?, Std.TreeMap.getElem?_insert]

theorem childAt?_new (id : ModuleId) (owner : ModuleOwner) (parent : Option ModuleId)
    (itemModule : ModuleId) (key : ChildKey) :
    (Module.new id owner parent itemModule).childAt? key = none := by
  cases key <;> simp [childAt?, new, child?, anonymousChild?]

end Module

namespace ModuleTree

variable {tree tree' : ModuleTree}

/-- A module has another one in the child table of a key. -/
def Holds (tree : ModuleTree) (holder : ModuleId) (key : ChildKey) (child : ModuleId) : Prop :=
  ∃ m, tree.find? holder = some m ∧ m.childAt? key = some child

/-- More names are no children. -/
theorem Grows.holds_iff (grows : tree.Grows tree') {holder child : ModuleId} {key : ChildKey} :
    tree'.Holds holder key child ↔ tree.Holds holder key child := by
  constructor
  · rintro ⟨m', found', held⟩
    obtain ⟨m, names, found, rfl⟩ := grows.module_of found'
    exact ⟨m, found, by cases key <;> exact held⟩
  · rintro ⟨m, found, held⟩
    obtain ⟨names, found'⟩ := grows.module found
    exact ⟨_, found', by cases key <;> exact held⟩

/-! ## Operations -/

/-- An operation on a tree that goes through. A name that is taken leaves the tree as it is. -/
inductive Operation : ModuleTree → ModuleTree → Prop where
  | addNamed {tree tree' : ModuleTree} {parent module : ModuleId} {name : String}
      {owner : ModuleOwner} (made : tree.addNamed parent name owner = .ok (module, tree')) :
      Operation tree tree'
  | addAnonymous {tree tree' : ModuleTree} {parent module : ModuleId} {node : NodeId}
      {owner : ModuleOwner} (made : tree.addAnonymous parent node owner = .ok (module, tree')) :
      Operation tree tree'
  | bind {tree tree' : ModuleTree} {module : ModuleId} {ns : Namespace} {name : String}
      {binding : Binding} (made : tree.bind module ns name binding = .ok (.bound tree')) :
      Operation tree tree'
  | taken {tree : ModuleTree} {module : ModuleId} {ns : Namespace} {name : String}
      {binding first : Binding} (made : tree.bind module ns name binding = .ok (.taken first)) :
      Operation tree tree

/-- Operations one after another. -/
def Operations : ModuleTree → ModuleTree → Prop := Relation.ReflTransGen Operation

/-- The tree with a new module, which `parent` knows by a key. -/
def withChild (tree : ModuleTree) (parent : Module) (key : ChildKey) (owner : ModuleOwner) :
    ModuleTree :=
  (tree.push parent owner).modify parent.id (·.adopt tree.nextId key)

/-- The module that is new then. -/
def childOf (tree : ModuleTree) (parent : Module) (owner : ModuleOwner) : Module :=
  .new tree.nextId owner (some parent.id) (if owner.isBlock then parent.itemModule else tree.nextId)

theorem withChild_of_addNamed (valid : tree.Valid) {parent module : ModuleId} {name : String}
    {owner : ModuleOwner} (made : tree.addNamed parent name owner = .ok (module, tree')) :
    ∃ m, tree.find? parent = some m ∧ m.childAt? (.name name) = none ∧ module = tree.nextId ∧
      tree' = tree.withChild m (.name name) owner := by
  obtain ⟨m, found, free, eq⟩ := addNamed_eq_ok.mp made
  cases eq
  refine ⟨m, found, free, rfl, ?_⟩
  rw [withChild, valid.ids found]
  rfl

theorem withChild_of_addAnonymous (valid : tree.Valid) {parent module : ModuleId} {node : NodeId}
    {owner : ModuleOwner} (made : tree.addAnonymous parent node owner = .ok (module, tree')) :
    ∃ m, tree.find? parent = some m ∧ m.childAt? (.node node) = none ∧ module = tree.nextId ∧
      tree' = tree.withChild m (.node node) owner := by
  obtain ⟨m, found, free, eq⟩ := addAnonymous_eq_ok.mp made
  cases eq
  refine ⟨m, found, free, rfl, ?_⟩
  rw [withChild, valid.ids found]
  rfl

/-- All that an operation can do to a tree in which modules know their ids: nothing, bind a name,
    though no lifetime in a block, or add a module under a key that its parent does not have yet. -/
theorem Operation.cases (h : Operation tree tree') (valid : tree.Valid) :
    tree' = tree ∨
    (∃ module m ns name binding, tree.find? module = some m ∧
      (ns = .lifetime → m.owner.isBlock = false) ∧
      tree' = tree.modify module (·.bind ns name binding)) ∨
    ∃ parent m key owner, tree.find? parent = some m ∧ m.childAt? key = none ∧
      tree' = tree.withChild m key owner := by
  cases h with
  | @addNamed _ parent _ name owner made =>
    obtain ⟨m, found, free, -, eq⟩ := withChild_of_addNamed valid made
    exact .inr (.inr ⟨parent, m, .name name, owner, found, free, eq⟩)
  | @addAnonymous _ parent _ node owner made =>
    obtain ⟨m, found, free, -, eq⟩ := withChild_of_addAnonymous valid made
    exact .inr (.inr ⟨parent, m, .node node, owner, found, free, eq⟩)
  | @bind _ module ns name binding made =>
    obtain ⟨m, found, takes, -, eq⟩ := bind_eq_bound.mp made
    have noLifetime : ns = .lifetime → m.owner.isBlock = false := by simpa using takes
    exact .inr (.inl ⟨module, m, ns, name, binding, found, noLifetime, eq⟩)
  | taken made => exact .inl rfl

/-! ## The tree with a new module -/

section

variable {parent : ModuleId} {m : Module} {key : ChildKey} {owner : ModuleOwner}

theorem find?_withChild (h : tree.find? parent = some m) (isParent : m.id = parent)
    (id : ModuleId) : (tree.withChild m key owner).find? id =
      if id = tree.nextId then some (tree.childOf m owner)
      else if id = parent then some (m.adopt tree.nextId key)
      else tree.find? id := by
  have before : parent ≠ tree.nextId := ne_nextId (known_of_find? h)
  have pushed : ∀ id, (tree.push m owner).find? id =
      if id = tree.nextId then some (tree.childOf m owner) else tree.find? id := by
    intro id
    obtain ⟨index⟩ := id
    by_cases same : index = tree.modules.size
    · simp [find?, push, childOf, nextId, size, same]
    · simp [find?, push, Array.getElem?_push, nextId, size, same]
  rw [withChild, isParent, find?_modify, pushed]
  by_cases new : id = tree.nextId
  · rw [if_pos new, if_pos new, if_neg (fun same => before (same.trans new))]
  · rw [if_neg new, if_neg new]
    by_cases same : id = parent
    · rw [if_pos same, if_pos same.symm, same, h, Option.map_some]
    · rw [if_neg same, if_neg (Ne.symm same)]

theorem find?_nextId_withChild (h : tree.find? parent = some m) (isParent : m.id = parent) :
    (tree.withChild m key owner).find? tree.nextId = some (tree.childOf m owner) := by
  rw [find?_withChild h isParent, if_pos rfl]

/-- A module that was there before differs in its children at most. -/
theorem find?_withChild_of_find? (key : ChildKey) (owner : ModuleOwner)
    (h : tree.find? parent = some m) (isParent : m.id = parent)
    {id : ModuleId} {m₀ : Module} (found : tree.find? id = some m₀) :
    ∃ named anonymous,
      (tree.withChild m key owner).find? id = some { m₀ with named, anonymous } := by
  rw [find?_withChild h isParent, if_neg (ne_nextId (known_of_find? found))]
  by_cases same : id = parent
  · subst same
    rw [h] at found
    cases found
    obtain ⟨named, anonymous, eq⟩ := m.adopt_eq tree.nextId key
    exact ⟨named, anonymous, by rw [if_pos rfl, eq]⟩
  · exact ⟨m₀.named, m₀.anonymous, by rw [if_neg same, found]⟩

/-- A module of the larger tree is the new one, or was there before with other children at
    most. -/
theorem withChild_cases (h : tree.find? parent = some m) (isParent : m.id = parent)
    {id : ModuleId} {m' : Module} (found : (tree.withChild m key owner).find? id = some m') :
    (id = tree.nextId ∧ m' = tree.childOf m owner) ∨
    ∃ m₀ named anonymous, tree.find? id = some m₀ ∧ m' = { m₀ with named, anonymous } := by
  by_cases new : id = tree.nextId
  · subst new
    rw [find?_nextId_withChild h isParent] at found
    exact .inl ⟨rfl, (Option.some.inj found).symm⟩
  · cases before : tree.find? id with
    | some m₀ =>
      obtain ⟨named, anonymous, found'⟩ := find?_withChild_of_find? key owner h isParent before
      rw [found] at found'
      exact .inr ⟨m₀, named, anonymous, rfl, Option.some.inj found'⟩
    | none =>
      have ne : id ≠ parent := by
        rintro rfl
        rw [h] at before
        cases before
      rw [find?_withChild h isParent, if_neg new, if_neg ne, before] at found
      cases found

/-- The child tables say what they said before, and the new key leads to the new module. -/
theorem holds_withChild (h : tree.find? parent = some m) (isParent : m.id = parent)
    (free : m.childAt? key = none) {holder child : ModuleId} {key' : ChildKey} :
    (tree.withChild m key owner).Holds holder key' child ↔
      tree.Holds holder key' child ∨ holder = parent ∧ key' = key ∧ child = tree.nextId := by
  have before : parent ≠ tree.nextId := ne_nextId (known_of_find? h)
  unfold Holds
  rw [find?_withChild h isParent]
  by_cases new : holder = tree.nextId
  · -- the new module has no children, and there was none with its id
    subst new
    have unknown : tree.find? tree.nextId = none := by
      cases found : tree.find? tree.nextId with
      | none => rfl
      | some m₀ => exact absurd (known_of_find? found) not_known_nextId
    simp [unknown, childOf, Module.childAt?_new, Ne.symm before]
  · by_cases same : holder = parent
    · subst same
      rw [if_neg new, if_pos rfl, h]
      simp only [Option.some.injEq, exists_eq_left', Module.childAt?_adopt, true_and]
      by_cases sameKey : key = key'
      · subst sameKey
        simp [free, eq_comm]
      · simp [sameKey, Ne.symm sameKey]
    · simp [new, same]

end

/-! ## The shape -/

/-- What parents, child tables and names have to do with each other. -/
structure Shaped (tree : ModuleTree) : Prop where
  /-- A module knows its own id -/
  ids : ∀ {id : ModuleId} {m : Module}, tree.find? id = some m → m.id = id
  root : ∃ m, tree.find? .root = some m ∧ m.owner = .definition .root ∧ m.parent = none
  /-- A module lies in one that came before it and has it as a child -/
  inside : ∀ {id : ModuleId} {m : Module}, tree.find? id = some m → id ≠ .root →
    ∃ parent key, m.parent = some parent ∧ parent.index < id.index ∧ tree.Holds parent key id
  /-- A child lies in the module that has it -/
  held : ∀ {holder child : ModuleId} {key : ChildKey}, tree.Holds holder key child →
    ∃ m, tree.find? child = some m ∧ m.parent = some holder
  once : ∀ {holder child : ModuleId} {key key' : ChildKey}, tree.Holds holder key child →
    tree.Holds holder key' child → key = key'
  /-- The item module of a module that is not a block's is itself -/
  own : ∀ {id : ModuleId} {m : Module}, tree.find? id = some m → m.owner.isBlock = false →
    m.itemModule = id
  /-- A block shares that of the module around it -/
  shared : ∀ {id : ModuleId} {m : Module}, tree.find? id = some m → m.owner.isBlock = true →
    ∃ parent around, m.parent = some parent ∧ tree.find? parent = some around ∧
      m.itemModule = around.itemModule
  lifetimes : ∀ {id : ModuleId} {m : Module} {name : String}, tree.find? id = some m →
    m.owner.isBlock = true → m.find? .lifetime name = none

namespace Shaped

theorem new : Shaped .new where
  ids h := by
    obtain ⟨rfl, rfl⟩ := find?_new h
    rfl
  root := ⟨.new .root (.definition .root) none .root, rfl, rfl, rfl⟩
  inside h notRoot := absurd (find?_new h).1 notRoot
  held h := by
    obtain ⟨m, found, held⟩ := h
    obtain ⟨-, rfl⟩ := find?_new found
    rw [Module.childAt?_new] at held
    cases held
  once h := by
    obtain ⟨m, found, held⟩ := h
    obtain ⟨-, rfl⟩ := find?_new found
    rw [Module.childAt?_new] at held
    cases held
  own h _ := by
    obtain ⟨rfl, rfl⟩ := find?_new h
    rfl
  shared h isBlock := by
    obtain ⟨rfl, rfl⟩ := find?_new h
    cases isBlock
  lifetimes h isBlock := by
    obtain ⟨rfl, rfl⟩ := find?_new h
    cases isBlock

theorem ne_root (shaped : tree.Shaped) {id parent : ModuleId} {m : Module}
    (found : tree.find? id = some m) (inside : m.parent = some parent) : id ≠ .root := by
  rintro rfl
  obtain ⟨root, found', -, noParent⟩ := shaped.root
  rw [found] at found'
  cases found'
  rw [inside] at noParent
  cases noParent

theorem valid (shaped : tree.Shaped) : tree.Valid where
  ids := shaped.ids
  root := shaped.root
  parents {id parent m} found inside := by
    obtain ⟨parent', _, inside', lt, -⟩ := shaped.inside found (shaped.ne_root found inside)
    rw [inside] at inside'
    cases inside'
    exact lt
  named {id child m name} found held := by
    have holds : tree.Holds id (.name name) child := ⟨m, found, held⟩
    obtain ⟨m', found', -⟩ := shaped.held holds
    exact known_of_find? found'
  anonymous {id child m node} found held := by
    have holds : tree.Holds id (.node node) child := ⟨m, found, held⟩
    obtain ⟨m', found', -⟩ := shaped.held holds
    exact known_of_find? found'

/-- Binding a name moves no module. -/
theorem bind (shaped : tree.Shaped) {module : ModuleId} {m : Module} {ns : Namespace}
    {name : String} {binding : Binding} (there : tree.find? module = some m)
    (takes : ns = .lifetime → m.owner.isBlock = false) :
    (tree.modify module (·.bind ns name binding)).Shaped := by
  have grows : tree.Grows (tree.modify module (·.bind ns name binding)) := grows_bind
  refine ⟨fun found => (grows.valid shaped.valid).ids found, (grows.valid shaped.valid).root,
    ?inside, ?held, ?once, ?own, ?shared, ?lifetimes⟩
  case inside =>
    intro id m' found' notRoot
    obtain ⟨m₀, names, found, rfl⟩ := grows.module_of found'
    obtain ⟨parent, key, inside, lt, held⟩ := shaped.inside found notRoot
    exact ⟨parent, key, inside, lt, grows.holds_iff.mpr held⟩
  case held =>
    intro holder child key h
    obtain ⟨m₀, found, inside⟩ := shaped.held (grows.holds_iff.mp h)
    obtain ⟨names, found'⟩ := grows.module found
    exact ⟨_, found', inside⟩
  case once => exact fun h h' => shaped.once (grows.holds_iff.mp h) (grows.holds_iff.mp h')
  case own =>
    intro id m' found' notBlock
    obtain ⟨m₀, names, found, rfl⟩ := grows.module_of found'
    exact shaped.own (m := m₀) found notBlock
  case shared =>
    intro id m' found' isBlock
    obtain ⟨m₀, names, found, rfl⟩ := grows.module_of found'
    obtain ⟨parent, around, inside, foundAround, same⟩ :=
      shaped.shared (m := m₀) found isBlock
    obtain ⟨names', foundAround'⟩ := grows.module foundAround
    exact ⟨parent, _, inside, foundAround', same⟩
  case lifetimes =>
    intro id m' other found' isBlock
    -- only a module that is no block's can have got a lifetime
    rw [find?_modify] at found'
    split at found'
    · next same =>
      subst same
      rw [there, Option.map_some] at found'
      cases found'
      have ne : Namespace.lifetime ≠ ns := by
        rintro rfl
        rw [show m.owner.isBlock = true from isBlock] at takes
        exact absurd (takes rfl) (by decide)
      rw [Module.find?_bind_of_ne_namespace m ne]
      exact shaped.lifetimes there isBlock
    · exact shaped.lifetimes found' isBlock

/-- A new module is known to its parent, by a key that was free, and to nobody else. -/
theorem withChild (shaped : tree.Shaped) {parent : ModuleId} {m : Module} {key : ChildKey}
    (there : tree.find? parent = some m) (free : m.childAt? key = none) (owner : ModuleOwner) :
    (tree.withChild m key owner).Shaped := by
  have isParent : m.id = parent := shaped.ids there
  have new : (tree.withChild m key owner).find? tree.nextId = some (tree.childOf m owner) :=
    find?_nextId_withChild there isParent
  have old : ∀ {id : ModuleId} {m₀ : Module}, tree.find? id = some m₀ → ∃ named anonymous,
      (tree.withChild m key owner).find? id = some { m₀ with named, anonymous } :=
    find?_withChild_of_find? key owner there isParent
  have holds : ∀ {holder child : ModuleId} {key' : ChildKey},
      (tree.withChild m key owner).Holds holder key' child ↔
        tree.Holds holder key' child ∨ holder = parent ∧ key' = key ∧ child = tree.nextId :=
    holds_withChild there isParent free
  -- what a table has held before is not the new module
  have earlier : ∀ {holder : ModuleId} {key' : ChildKey}, ¬ tree.Holds holder key' tree.nextId := by
    intro holder key' h
    obtain ⟨m₀, found, -⟩ := shaped.held h
    exact not_known_nextId (known_of_find? found)
  refine ⟨?ids, ?root, ?inside, ?held, ?once, ?own, ?shared, ?lifetimes⟩
  case ids =>
    intro id m' found'
    rcases withChild_cases there isParent found' with ⟨rfl, rfl⟩ | ⟨m₀, _, _, found, rfl⟩
    · rfl
    · exact shaped.ids (m := m₀) found
  case root =>
    obtain ⟨root, found, owner, noParent⟩ := shaped.root
    obtain ⟨named, anonymous, found'⟩ := old found
    exact ⟨_, found', owner, noParent⟩
  case inside =>
    intro id m' found' notRoot
    rcases withChild_cases there isParent found' with ⟨rfl, rfl⟩ | ⟨m₀, _, _, found, rfl⟩
    · exact ⟨parent, key, congrArg some isParent, known_of_find? there,
        holds.mpr (.inr ⟨rfl, rfl, rfl⟩)⟩
    · obtain ⟨around, key', inside, lt, held⟩ := shaped.inside found notRoot
      exact ⟨around, key', inside, lt, holds.mpr (.inl held)⟩
  case held =>
    intro holder child key' h
    rcases holds.mp h with h | ⟨rfl, rfl, rfl⟩
    · obtain ⟨m₀, found, inside⟩ := shaped.held h
      obtain ⟨named, anonymous, found'⟩ := old found
      exact ⟨_, found', inside⟩
    · exact ⟨_, new, congrArg some isParent⟩
  case once =>
    intro holder child key₁ key₂ h₁ h₂
    rcases holds.mp h₁ with before₁ | ⟨-, new₁, isNew⟩ <;>
      rcases holds.mp h₂ with before₂ | ⟨-, new₂, isNew'⟩
    · exact shaped.once before₁ before₂
    · exact absurd (isNew' ▸ before₁) earlier
    · exact absurd (isNew ▸ before₂) earlier
    · rw [new₁, new₂]
  case own =>
    intro id m' found' notBlock
    rcases withChild_cases there isParent found' with ⟨rfl, rfl⟩ | ⟨m₀, _, _, found, rfl⟩
    · have notBlock : owner.isBlock = false := notBlock
      simp [childOf, Module.new, notBlock]
    · exact shaped.own (m := m₀) found notBlock
  case shared =>
    intro id m' found' isBlock
    rcases withChild_cases there isParent found' with ⟨rfl, rfl⟩ | ⟨m₀, _, _, found, rfl⟩
    · have isBlock : owner.isBlock = true := isBlock
      obtain ⟨named, anonymous, there'⟩ := old there
      exact ⟨parent, _, congrArg some isParent, there', by simp [childOf, Module.new, isBlock]⟩
    · obtain ⟨around, ma, inside, foundAround, same⟩ := shaped.shared (m := m₀) found isBlock
      obtain ⟨named, anonymous, foundAround'⟩ := old foundAround
      exact ⟨around, _, inside, foundAround', same⟩
  case lifetimes =>
    intro id m' name found' isBlock
    rcases withChild_cases there isParent found' with ⟨rfl, rfl⟩ | ⟨m₀, _, _, found, rfl⟩
    · simp [childOf, Module.new, Module.find?]
    · exact shaped.lifetimes (m := m₀) found isBlock

/-- No operation disturbs the shape. -/
theorem operation (shaped : tree.Shaped) (h : Operation tree tree') : tree'.Shaped := by
  rcases h.cases shaped.valid with rfl | ⟨module, m, ns, name, binding, found, takes, rfl⟩ |
    ⟨parent, m, key, owner, found, free, rfl⟩
  · exact shaped
  · exact shaped.bind found takes
  · exact shaped.withChild found free owner

theorem operations (shaped : tree.Shaped) (h : Operations tree tree') : tree'.Shaped := by
  induction h with
  | refl => exact shaped
  | tail _ last ih => exact ih.operation last

end Shaped

/-! ## The way outward -/

/-- A module and those around it, each followed by the one it lies in, up to one that lies in no
    other. -/
inductive WayOut (tree : ModuleTree) : ModuleId → List Module → Prop where
  | ends {id : ModuleId} {m : Module} (found : tree.find? id = some m) (noParent : m.parent = none) :
      WayOut tree id [m]
  | up {id parent : ModuleId} {m : Module} {around : List Module} (found : tree.find? id = some m)
      (inside : m.parent = some parent) (further : WayOut tree parent around) :
      WayOut tree id (m :: around)

namespace WayOut

variable {id outer : ModuleId} {ms around : List Module}

theorem head (h : tree.WayOut id ms) : ∃ m others, ms = m :: others ∧ tree.find? id = some m := by
  cases h with
  | ends found _ => exact ⟨_, [], rfl, found⟩
  | up found _ _ => exact ⟨_, _, rfl, found⟩

theorem unique (h : tree.WayOut id ms) (h' : tree.WayOut id around) : ms = around := by
  induction h generalizing around with
  | ends found noParent =>
    cases h' with
    | ends found' _ => rw [found] at found'; cases found'; rfl
    | up found' inside _ =>
      rw [found] at found'
      cases found'
      rw [noParent] at inside
      cases inside
  | up found inside _ ih =>
    cases h' with
    | ends found' noParent =>
      rw [found] at found'
      cases found'
      rw [noParent] at inside
      cases inside
    | up found' inside' further' =>
      rw [found] at found'
      cases found'
      rw [inside] at inside'
      cases inside'
      rw [ih further']

/-- It ends at the root. -/
theorem getLast? (h : tree.WayOut id ms) (shaped : tree.Shaped) :
    ms.getLast?.map (·.id) = some .root := by
  induction h with
  | @ends id m found noParent =>
    -- any other module has a parent
    by_cases isRoot : id = .root
    · simp [shaped.ids found, isRoot]
    · obtain ⟨parent, _, inside, -⟩ := shaped.inside found isRoot
      rw [noParent] at inside
      cases inside
  | up _ _ further ih =>
    obtain ⟨m', others, rfl, -⟩ := further.head
    rw [List.getLast?_cons_cons]
    exact ih

/-- The first module on it that is no block's is the item module. -/
theorem find?_notBlock (h : tree.WayOut id ms) (shaped : tree.Shaped) {m : Module}
    (there : tree.find? id = some m) :
    (ms.find? (!·.owner.isBlock)).map (·.id) = some m.itemModule := by
  induction h generalizing m with
  | @ends id m' found noParent =>
    rw [there] at found
    cases found
    cases isBlock : m'.owner.isBlock with
    | true =>
      obtain ⟨parent, _, inside, -⟩ := shaped.shared there isBlock
      rw [noParent] at inside
      cases inside
    | false => simp [isBlock, shaped.ids there, shaped.own there isBlock]
  | @up id parent m' around found inside _ ih =>
    rw [there] at found
    cases found
    cases isBlock : m'.owner.isBlock with
    | true =>
      obtain ⟨parent, around, inside', foundAround, same⟩ := shaped.shared there isBlock
      rw [inside] at inside'
      cases inside'
      rw [List.find?_cons_of_neg (by simp [isBlock]), same]
      exact ih foundAround
    | false =>
      rw [List.find?_cons_of_pos (by simp [isBlock]), Option.map_some, shaped.ids there,
        shaped.own there isBlock]

/-- From each module on it the way outward goes on as it does here. -/
theorem of_mem (h : tree.WayOut id ms) (shaped : tree.Shaped) {m : Module} (mem : m ∈ ms) :
    ∃ rest, tree.WayOut m.id rest ∧ rest <:+ ms := by
  induction h with
  | @ends id m' found noParent =>
    cases List.mem_singleton.mp mem
    rw [shaped.ids found]
    exact ⟨[m], .ends found noParent, List.suffix_rfl⟩
  | @up id parent m' around found inside further ih =>
    rcases List.mem_cons.mp mem with rfl | mem
    · rw [shaped.ids found]
      exact ⟨_, .up found inside further, List.suffix_rfl⟩
    · obtain ⟨rest, way, suffix⟩ := ih mem
      exact ⟨rest, way, suffix.trans (List.suffix_cons _ _)⟩

/-- Those around a module came before it. -/
theorem index_le (h : tree.WayOut id ms) (shaped : tree.Shaped) {m : Module} (mem : m ∈ ms) :
    m.id.index ≤ id.index := by
  induction h with
  | ends found _ =>
    cases List.mem_singleton.mp mem
    exact Nat.le_of_eq (congrArg _ (shaped.ids found))
  | up found inside _ ih =>
    rcases List.mem_cons.mp mem with rfl | mem
    · exact Nat.le_of_eq (congrArg _ (shaped.ids found))
    · exact Nat.le_trans (ih mem) (Nat.le_of_lt (shaped.valid.parents found inside))

end WayOut

/-- The steps that are allowed are enough for the whole way. -/
theorem Shaped.wayOut_outward (shaped : tree.Shaped) (steps : Nat) {id : ModuleId} {m : Module}
    (found : tree.find? id = some m) (enough : id.index ≤ steps) :
    tree.WayOut id (tree.outward steps m) := by
  -- ids get smaller on the way, and that of the root is the smallest
  induction steps generalizing id m with
  | zero =>
    obtain ⟨root, foundRoot, -, noParent⟩ := shaped.root
    have isRoot : id = .root := by
      obtain ⟨index⟩ := id
      cases Nat.le_zero.mp enough
      rfl
    subst isRoot
    rw [found] at foundRoot
    cases foundRoot
    exact .ends found noParent
  | succ steps ih =>
    rw [outward]
    cases inside : m.parent with
    | none => exact .ends found inside
    | some parent =>
      have lt : parent.index < id.index := shaped.valid.parents found inside
      obtain ⟨around, foundAround⟩ := (shaped.valid.known_parent found inside).find?
      rw [Option.bind_some, foundAround]
      exact .up found inside (ih foundAround (by omega))

theorem Shaped.ancestors (shaped : tree.Shaped) {id : ModuleId} {m : Module}
    (found : tree.find? id = some m) : ∃ ms, tree.ancestors id = .ok ms ∧ tree.WayOut id ms := by
  have enough : id.index ≤ tree.size := Nat.le_of_lt (known_of_find? found)
  refine ⟨tree.outward tree.size m, ?_, shaped.wayOut_outward tree.size found enough⟩
  rw [ModuleTree.ancestors, get_of_find? found]
  rfl

/-- A module lies within those on its way outward. -/
theorem WayOut.isWithin_iff {id outer : ModuleId} {ms : List Module} (h : tree.WayOut id ms)
    (shaped : tree.Shaped) :
    tree.isWithin id outer = .ok true ↔ ∃ m ∈ ms, m.id = outer := by
  obtain ⟨m, -, -, found⟩ := h.head
  obtain ⟨ms', ancestors, way⟩ := shaped.ancestors found
  cases h.unique way
  rw [ModuleTree.isWithin, ancestors]
  simp [Bind.bind, Except.bind, pure, Except.pure]

/-- Only of modules that are there something lies within. -/
theorem known_of_isWithin {inner outer : ModuleId} (h : tree.isWithin inner outer = .ok true) :
    tree.Known inner := by
  obtain ⟨ms, ancestors, -⟩ := Except.bind_eq_ok.mp h
  exact known_of_ancestors ancestors

namespace Shaped

variable {inner outer : ModuleId}

theorem isWithin_refl (shaped : tree.Shaped) {id : ModuleId} (known : tree.Known id) :
    tree.isWithin id id = .ok true := by
  obtain ⟨m, found⟩ := known.find?
  obtain ⟨ms, -, way⟩ := shaped.ancestors found
  obtain ⟨m', others, rfl, found'⟩ := way.head
  exact (way.isWithin_iff shaped).mpr ⟨m', List.mem_cons_self .., shaped.ids found'⟩

/-- The way outward from a module, and on it the module that it lies within. -/
theorem wayOut_of_isWithin (shaped : tree.Shaped) (h : tree.isWithin inner outer = .ok true) :
    ∃ ms, tree.WayOut inner ms ∧ ∃ m ∈ ms, m.id = outer := by
  obtain ⟨m, found⟩ := (known_of_isWithin h).find?
  obtain ⟨ms, -, way⟩ := shaped.ancestors found
  exact ⟨ms, way, (way.isWithin_iff shaped).mp h⟩

theorem isWithin_antisymm (shaped : tree.Shaped) (h : tree.isWithin inner outer = .ok true)
    (h' : tree.isWithin outer inner = .ok true) : inner = outer := by
  obtain ⟨ms, way, m, mem, rfl⟩ := shaped.wayOut_of_isWithin h
  obtain ⟨ms', way', m', mem', rfl⟩ := shaped.wayOut_of_isWithin h'
  have le : m.id.index ≤ m'.id.index := way.index_le shaped mem
  have ge : m'.id.index ≤ m.id.index := way'.index_le shaped mem'
  have same : m'.id.index = m.id.index := by omega
  cases eq : m.id
  cases eq' : m'.id
  rw [eq, eq'] at same
  exact congrArg ModuleId.mk same

theorem isWithin_trans (shaped : tree.Shaped) {middle : ModuleId}
    (h : tree.isWithin inner middle = .ok true) (h' : tree.isWithin middle outer = .ok true) :
    tree.isWithin inner outer = .ok true := by
  obtain ⟨ms, way, m, mem, rfl⟩ := shaped.wayOut_of_isWithin h
  obtain ⟨ms', way', m', mem', rfl⟩ := shaped.wayOut_of_isWithin h'
  -- the way outward from the middle module is the rest of that from the inner one
  obtain ⟨rest, wayOn, suffix⟩ := way.of_mem shaped mem
  cases way'.unique wayOn
  exact (way.isWithin_iff shaped).mpr ⟨m', suffix.subset mem', rfl⟩

theorem isWithin_root (shaped : tree.Shaped) {id : ModuleId} (known : tree.Known id) :
    tree.isWithin id .root = .ok true := by
  obtain ⟨m, found⟩ := known.find?
  obtain ⟨ms, -, way⟩ := shaped.ancestors found
  obtain ⟨root, last, isRoot⟩ := Option.map_eq_some_iff.mp (way.getLast? shaped)
  exact (way.isWithin_iff shaped).mpr ⟨root, List.mem_of_getLast? last, isRoot⟩

end Shaped

/-! ## What operations lead to -/

/-- Whatever operations have made a tree of a root alone: a module that is not the root has a
    parent with a smaller id, is in one child table of it under one key, and in no other child
    table, while the root is in none; the way outward from a module ends at the root, and the first
    module on it that is no block's is the item module; no block binds a lifetime; and to lie
    within is a partial order of the modules, in which the root is above all of them. -/
theorem shape_of_operations (reached : Operations .new tree) :
    (∀ id m, tree.find? id = some m → id ≠ .root → ∃ parent key,
      m.parent = some parent ∧ parent.index < id.index ∧ tree.Holds parent key id ∧
        ∀ holder key', tree.Holds holder key' id → holder = parent ∧ key' = key) ∧
    (∃ root, tree.find? .root = some root ∧ root.parent = none) ∧
    (∀ holder key, ¬ tree.Holds holder key .root) ∧
    (∀ id m, tree.find? id = some m → ∃ ms, tree.ancestors id = .ok ms ∧ tree.WayOut id ms ∧
      ms.getLast?.map (·.id) = some .root ∧
      (ms.find? (!·.owner.isBlock)).map (·.id) = some m.itemModule) ∧
    (∀ id m name, tree.find? id = some m → m.owner.isBlock = true →
      m.find? .lifetime name = none) ∧
    (∀ id, tree.Known id →
      tree.isWithin id id = .ok true ∧ tree.isWithin id .root = .ok true) ∧
    (∀ inner outer, tree.isWithin inner outer = .ok true →
      tree.isWithin outer inner = .ok true → inner = outer) ∧
    (∀ inner middle outer, tree.isWithin inner middle = .ok true →
      tree.isWithin middle outer = .ok true → tree.isWithin inner outer = .ok true) := by
  have shaped : tree.Shaped := Shaped.new.operations reached
  refine ⟨fun id m found notRoot => ?_, ?_, fun holder key held => ?_, fun id m found => ?_,
    fun id m name found isBlock => shaped.lifetimes found isBlock,
    fun id known => ⟨shaped.isWithin_refl known, shaped.isWithin_root known⟩,
    fun inner outer => shaped.isWithin_antisymm, fun inner middle outer => shaped.isWithin_trans⟩
  · obtain ⟨parent, key, inside, lt, held⟩ := shaped.inside found notRoot
    refine ⟨parent, key, inside, lt, held, fun holder key' held' => ?_⟩
    obtain ⟨m', found', inside'⟩ := shaped.held held'
    rw [found] at found'
    cases found'
    rw [inside] at inside'
    cases inside'
    exact ⟨rfl, shaped.once held' held⟩
  · obtain ⟨root, found, -, noParent⟩ := shaped.root
    exact ⟨root, found, noParent⟩
  · obtain ⟨m, found, inside⟩ := shaped.held held
    exact shaped.ne_root found inside rfl
  · obtain ⟨ms, ancestors, way⟩ := shaped.ancestors found
    exact ⟨ms, ancestors, way, way.getLast? shaped, way.find?_notBlock shaped found⟩

/-- A module of a definition, a block in it, and a block in the block. -/
def nested : ModuleTree :=
  let root : Module := .new .root (.definition .root) none .root
  let a : Module := .new ⟨1⟩ (.definition ⟨1⟩) (some .root) ⟨1⟩
  let block : Module := .new ⟨2⟩ (.block ⟨7⟩) (some ⟨1⟩) ⟨1⟩
  let inner : Module := .new ⟨3⟩ (.block ⟨9⟩) (some ⟨2⟩) ⟨1⟩
  ⟨#[root.adopt ⟨1⟩ (.name "a"), a.adopt ⟨2⟩ (.node ⟨7⟩), block.adopt ⟨3⟩ (.node ⟨9⟩), inner]⟩

theorem shape_of_operations_nested :
    Operations .new nested ∧
      (∃ ms, nested.ancestors ⟨3⟩ = .ok ms ∧ nested.WayOut ⟨3⟩ ms ∧
        ms.getLast?.map (·.id) = some .root ∧
        (ms.find? (!·.owner.isBlock)).map (·.id) = some ⟨1⟩) ∧
      nested.isWithin ⟨3⟩ .root = .ok true := by
  have reached : Operations .new nested :=
    ((Relation.ReflTransGen.single
      (@Operation.addNamed _ _ .root ⟨1⟩ "a" (.definition ⟨1⟩) rfl)).tail
      (@Operation.addAnonymous _ _ ⟨1⟩ ⟨2⟩ ⟨7⟩ (.block ⟨7⟩) rfl)).tail
      (@Operation.addAnonymous _ _ ⟨2⟩ ⟨3⟩ ⟨9⟩ (.block ⟨9⟩) rfl)
  obtain ⟨-, -, -, around, -, within, -⟩ := shape_of_operations reached
  have there : nested.find? ⟨3⟩ = some (.new ⟨3⟩ (.block ⟨9⟩) (some ⟨2⟩) ⟨1⟩) := rfl
  exact ⟨reached, around ⟨3⟩ _ there, (within ⟨3⟩ (known_of_find? there)).2⟩

end ModuleTree

end NameResolution

import NameResolution.Definition.Table

/-! # The module tree

    Every item that can hold named members owns a module, and so does every
    block that declares items. A module binds names in the three namespaces and
    has children, some by name and some by node. The root module belongs to the
    program and is always there. -/

namespace NameResolution

/-- What a module belongs to. -/
inductive ModuleOwner where
  | definition (id : DefId)
  | block (node : NodeId)
  deriving DecidableEq, Repr

namespace ModuleOwner

/-- The definition that owns a module, unless a block does. -/
def definition? : ModuleOwner → Option DefId
  | definition id => some id
  | block _ => none

/-- Whether the owner is a block. -/
def isBlock : ModuleOwner → Bool
  | definition _ => false
  | block _ => true

/-- The long form, for places that show whole values. -/
def longText : ModuleOwner → String
  | definition id => s!"Def({id.longText})"
  | block node => s!"Block({node.longText})"

end ModuleOwner

/-- What a name in a module refers to. -/
inductive Binding where
  | definition (id : DefId)
  /-- A definition that is an alias -/
  | imported (id : DefId)
  | overloads (id : OverloadId)
  deriving DecidableEq, Repr

/-- Whether a name stands for functions. -/
def Binding.isOverloads : Binding → Bool
  | overloads _ => true
  | _ => false

/-- A module with its place in the tree, its children and its names. -/
structure Module where
  id : ModuleId
  owner : ModuleOwner
  parent : Option ModuleId
  /-- The innermost module around that is not a block's: itself, unless it is one -/
  itemModule : ModuleId
  named : Std.TreeMap String ModuleId
  anonymous : Std.TreeMap NodeId ModuleId
  names : PerNamespace (Std.TreeMap String Binding)

namespace Module

/-- A module without children and names. -/
def new (id : ModuleId) (owner : ModuleOwner) (parent : Option ModuleId) (itemModule : ModuleId) :
    Module :=
  ⟨id, owner, parent, itemModule, ∅, ∅, .uniform ∅⟩

/-- The binding of a name in one namespace. -/
def find? (m : Module) (ns : Namespace) (name : String) : Option Binding := (m.names.get ns)[name]?

/-- Whether a name is bound in one namespace. -/
def has (m : Module) (ns : Namespace) (name : String) : Bool := (m.names.get ns).contains name

/-- The bindings of a name, namespace by namespace. -/
def findAll (m : Module) (name : String) : List (Namespace × Binding) :=
  Namespace.all.filterMap fun ns => (m.find? ns name).map (ns, ·)

/-- The bindings of one namespace, by name. -/
def bindings (m : Module) (ns : Namespace) : List (String × Binding) := (m.names.get ns).toList

/-- Binds a name in one namespace, in place of any other binding. -/
def bind (m : Module) (ns : Namespace) (name : String) (binding : Binding) : Module :=
  { m with names := m.names.set ns ((m.names.get ns).insert name binding) }

/-- The child with a name. -/
def child? (m : Module) (name : String) : Option ModuleId := m.named[name]?

/-- The child of a node. -/
def anonymousChild? (m : Module) (node : NodeId) : Option ModuleId := m.anonymous[node]?

/-- The named children by name, then the others by node. -/
def children (m : Module) : List ModuleId := m.named.values ++ m.anonymous.values

/-- The name of the owner. -/
def name (defs : Definitions) (m : Module) : Except Fault String :=
  match m.owner with
  | .definition id => return (← defs.get id).ident.name
  | .block _ => return "<block>"

@[simp] theorem find?_bind_self (m : Module) (ns : Namespace) (name : String) (binding : Binding) :
    (m.bind ns name binding).find? ns name = some binding := by
  simp [find?, bind]

theorem find?_bind_of_ne_name (m : Module) (ns other : Namespace) {name name' : String}
    (h : name ≠ name') (binding : Binding) :
    (m.bind ns name binding).find? other name' = m.find? other name' := by
  by_cases same : other = ns
  · subst same; simp [find?, bind, Std.TreeMap.getElem?_insert, h]
  · simp [find?, bind, PerNamespace.get_set_of_ne _ same]

theorem find?_bind_of_ne_namespace (m : Module) {ns other : Namespace} (h : other ≠ ns)
    (name name' : String) (binding : Binding) :
    (m.bind ns name binding).find? other name' = m.find? other name' := by
  simp [find?, bind, PerNamespace.get_set_of_ne _ h]

theorem has_eq_isSome_find? (m : Module) (ns : Namespace) (name : String) :
    m.has ns name = (m.find? ns name).isSome := by
  simp [has, find?]

end Module

/-- All modules in the order of their ids, the root first. -/
structure ModuleTree where
  modules : Array Module

namespace ModuleTree

/-- A tree that is only a root. -/
def new : ModuleTree := ⟨#[.new .root (.definition .root) none .root]⟩

/-! ## Reading -/

/-- How many modules there are. -/
def size (tree : ModuleTree) : Nat := tree.modules.size

/-- All modules in the order of their ids. -/
def toList (tree : ModuleTree) : List Module := tree.modules.toList

/-- The module with an id. -/
def find? (tree : ModuleTree) (id : ModuleId) : Option Module := tree.modules[id.index]?

/-- The module with an id that is known to be good. -/
def get (tree : ModuleTree) (id : ModuleId) : Except Fault Module :=
  match tree.find? id with
  | some m => .ok m
  | none => .error (.unknownModule id)

/-- A module and the modules around it, outward for at most `steps`. -/
def outward (tree : ModuleTree) : Nat → Module → List Module
  | 0, m => [m]
  | steps + 1, m =>
    m :: match m.parent.bind tree.find? with
      | some parent => outward tree steps parent
      | none => []

/-- A module and all modules around it, innermost first. Each has a smaller id than the one
    before, so there are no more of them than modules. -/
def ancestors (tree : ModuleTree) (id : ModuleId) : Except Fault (List Module) := do
  return tree.outward tree.size (← tree.get id)

/-- Whether `inner` is `outer` or lies inside it. -/
def isWithin (tree : ModuleTree) (inner outer : ModuleId) : Except Fault Bool := do
  return (← tree.ancestors inner).any (·.id == outer)

/-- Whether a module belongs to a `mod` or to the program. -/
def isMod (defs : Definitions) (m : Module) : Except Fault Bool :=
  match m.owner with
  | .definition id => return (← defs.get id).kind == .mod
  | .block _ => return false

/-- The innermost `mod` around, which `self` and `super` count from. -/
def enclosingMod (tree : ModuleTree) (defs : Definitions) (id : ModuleId) :
    Except Fault ModuleId := do
  match ← (← tree.ancestors id).findM? (isMod defs) with
  | some m => return m.id
  | none => return .root

/-! ## Writing -/

/-- The id the next module gets. -/
def nextId (tree : ModuleTree) : ModuleId := ⟨tree.size⟩

/-- Changes one module. -/
def modify (tree : ModuleTree) (id : ModuleId) (change : Module → Module) : ModuleTree :=
  ⟨tree.modules.modify id.index change⟩

/-- Adds a module below `parent` that no child table of it holds yet. -/
def push (tree : ModuleTree) (parent : Module) (owner : ModuleOwner) : ModuleTree :=
  let itemModule := if owner.isBlock then parent.itemModule else tree.nextId
  ⟨tree.modules.push (.new tree.nextId owner (some parent.id) itemModule)⟩

/-- Adds a child that is known by its name. -/
def addNamed (tree : ModuleTree) (parent : ModuleId) (name : String) (owner : ModuleOwner) :
    Except Fault (ModuleId × ModuleTree) := do
  let m ← tree.get parent
  match m.child? name with
  | some first => throw (.childNameTaken parent name first)
  | none =>
    let id := tree.nextId
    return (id,
      (tree.push m owner).modify parent fun m => { m with named := m.named.insert name id })

/-- Adds a child that is known by its node: of a block, an impl, or a name that is taken. -/
def addAnonymous (tree : ModuleTree) (parent : ModuleId) (node : NodeId) (owner : ModuleOwner) :
    Except Fault (ModuleId × ModuleTree) := do
  let m ← tree.get parent
  match m.anonymousChild? node with
  | some first => throw (.childNodeTaken parent node first)
  | none =>
    let id := tree.nextId
    return (id,
      (tree.push m owner).modify parent fun m => { m with anonymous := m.anonymous.insert node id })

/-- What came of binding a name. -/
inductive Bound where
  | bound (tree : ModuleTree)
  /-- The name already refers to `first`, and keeps doing so -/
  | taken (first : Binding)

/-- Binds a name unless it is bound already. A block has no lifetimes of its own. -/
def bind (tree : ModuleTree) (id : ModuleId) (ns : Namespace) (name : String)
    (binding : Binding) : Except Fault Bound := do
  let m ← tree.get id
  if ns = .lifetime ∧ m.owner.isBlock then
    throw (.lifetimeInBlock id name)
  match m.find? ns name with
  | some first => return .taken first
  | none => return .bound (tree.modify id (·.bind ns name binding))

end ModuleTree

end NameResolution

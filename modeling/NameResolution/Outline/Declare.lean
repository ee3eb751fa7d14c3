import NameResolution.Log
import NameResolution.Outline.Basic
import NameResolution.Module.Redefinition

/-! # The first pass

    Follows the outline of a program: defines what is declared, binds each name
    in the current module, opens and leaves modules, and collects imports for
    later. The first declaration of a name keeps it; a later one is reported and
    still gets a definition and, where it owns one, a module. -/

namespace NameResolution

/-- The state of the first pass. -/
structure DeclareState where
  defs : Definitions
  tree : ModuleTree
  /-- The module that names are bound in -/
  current : ModuleId
  directives : List Directive
  diagnostics : List Diagnostic

/-- A part of the first pass. -/
abbrev Declaring := StateT DeclareState Logged

namespace Declaring

/-- Goes on with a result, or ends with its fault. -/
def lift {α : Type} (result : Except Fault α) : Declaring α := Logged.lift result

/-- Adds a diagnostic. -/
def report (diagnostic : Diagnostic) : Declaring Unit :=
  modify fun s => { s with diagnostics := s.diagnostics ++ [diagnostic] }

/-- Reports that `name`, declared at `span`, already refers to `first`. -/
def reportTaken (name : String) (span : Span) (first : Binding) : Declaring Unit := do
  report (← lift (redefinition (← get).defs name span first))

/-- Notes the tables as they are now. -/
def noteTables : Declaring Unit := do
  let s ← get
  Logged.note (.written s.defs s.tree)

/-- Takes a larger table of definitions. -/
def setDefs (defs : Definitions) : Declaring Unit := do
  modify fun s => { s with defs }
  noteTables

/-- Takes a larger tree. -/
def setTree (tree : ModuleTree) : Declaring Unit := do
  modify fun s => { s with tree }
  noteTables

/-- Defines something at a node, without binding its name. -/
def define (isPub : Bool) (node : NodeId) (kind : DefKind) (ident : Ident) : Declaring DefId := do
  let s ← get
  Logged.emit (.defined ⟨s.defs.nextId, kind, ident, isPub, node, none⟩)
  let (id, defs) ← lift (s.defs.define isPub node kind ident)
  setDefs defs
  return id

/-- Binds a name in the current module, or returns what it already refers to. -/
def bind (ns : Namespace) (name : String) (binding : Binding) : Declaring (Option Binding) := do
  let s ← get
  match ← lift (s.tree.bind s.current ns name binding) with
  | .bound tree => setTree tree; return none
  | .taken first => return some first

/-- Defines something and binds its name in the namespace of its kind. -/
def declare (isPub : Bool) (node : NodeId) (kind : DefKind) (ident : Ident) : Declaring DefId := do
  let id ← define isPub node kind ident
  match kind.namespace? with
  | none => lift (.error (.notBoundByName kind))
  | some ns =>
    if let some first ← bind ns ident.name (.definition id) then
      reportTaken ident.name ident.span first
    return id

/-- Adds a function to an overload set, or to a fresh one. -/
def addFunction (id : DefId) (set : Option OverloadId) (suffix : String) :
    Declaring Definitions.Added := do
  let s ← get
  let (added, defs) ← lift (s.defs.addFunction id set suffix)
  setDefs defs
  return added

/-- Defines a function and adds it to the overload set of its name. Also tells whether its name
    and suffix were free. -/
def declareFunc (isPub : Bool) (node : NodeId) (kind : FuncKind) (ident : Ident)
    (suffix : String) : Declaring (DefId × Bool) := do
  let id ← define isPub node (match kind with | .func => .func | .init => .init) ident
  let s ← get
  match (← lift (s.tree.get s.current)).find? .value ident.name with
  | some (.overloads set) =>
    match ← addFunction id (some set) suffix with
    | .added _ => return (id, true)
    | .taken first =>
      reportTaken (ident.name ++ suffix) ident.span (.definition first)
      return (id, false)
  | some first =>
    reportTaken (ident.name ++ suffix) ident.span first
    return (id, false)
  | none =>
    match ← addFunction id none suffix with
    | .taken _ => lift (.error (.freshOverloadsTaken (ident.name ++ suffix)))
    | .added set =>
      if (← bind .value ident.name (.overloads set)).isSome then
        lift (.error (.bindingAppeared ident.name))
      return (id, true)

/-- Makes `module` the current one. -/
def moveTo (module : ModuleId) : Declaring Unit := modify fun s => { s with current := module }

/-- Opens the module of a definition. A child without a name, or whose name a sibling has, is
    known by its node. -/
def enter (id : DefId) (name : Option String) (node : NodeId) : Declaring Unit := do
  let s ← get
  let parent ← lift (s.tree.get s.current)
  let owner := ModuleOwner.definition id
  let free := name.filter fun name => (parent.child? name).isNone
  let (module, tree) ← lift <| match free with
    | some name => s.tree.addNamed s.current name owner
    | none => s.tree.addAnonymous s.current node owner
  setTree tree
  setDefs (← lift (s.defs.addModule id module))
  moveTo module

/-- Opens the module of a block. -/
def enterBlock (node : NodeId) : Declaring Unit := do
  let s ← get
  let (module, tree) ← lift (s.tree.addAnonymous s.current node (.block node))
  setTree tree
  setDefs (← lift (s.defs.addBlock node module))
  moveTo module

/-- Goes back to the module around the current one. -/
def leave : Declaring Unit := do
  let s ← get
  match (← lift (s.tree.get s.current)).parent with
  | some parent => moveTo parent
  | none => lift (.error .leftRootModule)

/-- Follows one step of an outline. -/
def step : OutlineStep → Declaring Unit
  | .declare isPub node kind ident => do
    let _ ← declare isPub node kind ident
  | .enterItem isPub node kind ident => do
    enter (← declare isPub node kind ident) (some ident.name) node
  | .enterImpl isPub node span => do
    enter (← define isPub node .impl ⟨"impl", span⟩) none node
  | .declareFunc isPub node kind ident suffix => do
    let _ ← declareFunc isPub node kind ident suffix
  | .enterFunc isPub node kind ident suffix => do
    let (id, free) ← declareFunc isPub node kind ident suffix
    enter id (if free then some (ident.name ++ suffix) else none) node
  | .enterBlock node => enterBlock node
  | .leave => leave
  | .imports i =>
    modify fun s => { s with directives := s.directives ++ [{ i with module := s.current }] }

/-- Follows an outline step by step. -/
def follow (outline : Outline) : Declaring Unit := outline.forM step

/-- Defines the program and everything in it. -/
def wholeProgram (program : Program) : Declaring Unit := do
  let s ← get
  if s.defs.size ≠ 0 ∨ s.tree.size ≠ 1 then
    lift (.error .tablesInUse)
  let root ← define true program.id .mod ⟨"[root]", program.span⟩
  setDefs (← lift ((← get).defs.addModule root .root))
  follow (.ofProgram program)
  let s ← get
  Logged.emit (.built s.defs.size s.tree.size s.directives.length)

end Declaring

/-- The state before the first step, over the given tables. -/
def DeclareState.start (defs : Definitions) (tree : ModuleTree) : DeclareState :=
  ⟨defs, tree, .root, [], []⟩

/-- Runs the first pass: the tables filled, the imports in the order of the text, and what was
    reported. -/
def declareProgram (defs : Definitions) (tree : ModuleTree) (program : Program) :
    Logged DeclareState := do
  let (_, s) ← (Declaring.wholeProgram program).run (.start defs tree)
  return s

end NameResolution

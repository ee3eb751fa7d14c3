import NameResolution.Log
import NameResolution.Path.Search
import NameResolution.Walk.Basic

/-! # The second pass

    Follows the walk through a program with the scopes around the current point,
    and records what each path, `self` value and matching pattern name refers
    to. The tables of the first pass are only read. -/

namespace NameResolution

/-- The state of the second pass. -/
structure ResolveState where
  scopes : ScopeStack
  resolutions : Std.TreeMap NodeId Resolution
  diagnostics : List Diagnostic

/-- A part of the second pass. -/
abbrev Resolving := StateT ResolveState Logged

namespace Resolving

/-- Goes on with a result, or ends with its fault. -/
def lift {α : Type} (result : Except Fault α) : Resolving α := Logged.lift result

/-- Adds diagnostics in order. -/
def report (diagnostics : List Diagnostic) : Resolving Unit :=
  modify fun s => { s with diagnostics := s.diagnostics ++ diagnostics }

/-- Records what a node refers to. Each node is recorded once. -/
def record (node : NodeId) (resolution : Resolution) : Resolving Unit := do
  let s ← get
  match s.resolutions[node]? with
  | some first => lift (.error (.nodeResolvedTwice node first resolution))
  | none => set { s with resolutions := s.resolutions.insert node resolution }

/-- Enters a scope. `Self` stands for what it stands for outside, unless an item says otherwise. -/
def enter (kind : ScopeKind) (module : Option ModuleId) : Resolving Unit :=
  modify fun s =>
    { s with scopes := s.scopes.push (.new kind module s.scopes.innermost.selfItem) }

/-- Leaves the innermost scope. -/
def leave : Resolving Unit := do
  let s ← get
  let (_, scopes) ← lift s.scopes.pop
  set { s with scopes }

/-- Binds a variable in the innermost scope. -/
def bindLocal (ident : Ident) (node : NodeId) : Resolving Unit := do
  Logged.emit (.localBound ident.name node)
  modify fun s => { s with scopes := s.scopes.define .value ident.name node }

/-- What `Self` stands for inside an item: structs, enums, traits and impls mean themselves, and
    a `mod` starts over. -/
def selfInside (definition : Definition) (outside : Option DefId) : Option DefId :=
  if definition.kind.isSelfItem then some definition.id
  else if definition.kind = .mod then none
  else outside

variable (tables : Tables)

/-- The definition that the first pass has made for a node. -/
def definitionAt (node : NodeId) : Resolving Definition :=
  match tables.defs.ofNode? node with
  | some id => lift (tables.defs.get id)
  | none => lift (.error (.noDefinition node))

/-- Enters the module of an item. -/
def enterItem (node : NodeId) : Resolving Unit := do
  let definition ← definitionAt tables node
  let module ← lift (tables.defs.module definition.id)
  modify fun s =>
    let selfItem := selfInside definition s.scopes.innermost.selfItem
    { s with scopes := s.scopes.push (.new .item (some module) selfItem) }

/-- Enters a block. -/
def enterBlock (kind : ScopeKind) (node : NodeId) (declaresItems : Bool) : Resolving Unit := do
  let module := tables.defs.blockModule? node
  if declaresItems && module.isNone then
    lift (.error (.blockWithoutModule node))
  enter kind module

/-- Resolves a path and records the outcome under its node. -/
def resolvePath (ns : Namespace) (path : Path) (suffix : Option String) : Resolving Unit := do
  let scopes := (← get).scopes
  if tables.config.traceScopes then
    Logged.emit (.resolving path.text ns (← lift (scopes.dump tables.tree)))
  let (result, warnings) ← lift ((tables.resolvePath scopes ns path suffix).run.run [])
  match result with
  | .ok resolution =>
    report warnings
    record path.id resolution
  | .error diagnostic =>
    Logged.emit (.unresolved path.text path.id diagnostic.message)
    -- the search ends with its error, so the warnings come first
    report (warnings ++ [diagnostic])
    record path.id .error

/-- Whether a path that stands as a generic argument names a value: a lone name that is no type
    in reach, but an item among the values. -/
def isValueArg (scopes : ScopeStack) (path : Path) : Except Fault Bool := do
  match path.loneIdent? with
  | none => return false
  | some ident =>
    -- where a name is both, the argument is the type
    if (← tables.lookup scopes .type ident.name).isSome then return false
    else
      match ← tables.lookup scopes .value ident.name with
      | some (.item _ _) => return true
      | _ => return false

/-- Follows one step of a walk. -/
def step : WalkStep → Resolving Unit
  | .enter kind => enter kind none
  | .enterBlock kind node declaresItems => enterBlock tables kind node declaresItems
  | .enterItem node => enterItem tables node
  | .enterFunc node => do
    let definition ← definitionAt tables node
    enter .func (tables.defs.module? definition.id)
  | .leave => leave
  | .path ns path suffix => resolvePath tables ns path suffix
  | .typeArg path => do
    let isValue ← lift (isValueArg tables (← get).scopes path)
    resolvePath tables (if isValue then .value else .type) path none
  | .selfValue node span => do
    match (← get).scopes.innermost.selfItem with
    | some id => record node (.definition id)
    | none =>
      report [.selfOutsideItem "self" span]
      record node .error
  | .bind ident node => bindLocal ident node
  | .bindOrMatch ident node => do
    match ← lift (tables.variantNamed (← get).scopes ident.name) with
    | some variant => record node (.definition variant)
    | none => bindLocal ident node

/-- Follows a walk step by step. -/
def follow (walk : Walk) : Resolving Unit := walk.forM (step tables)

/-- Resolves a program. In the end all scopes but the program's own have been left. -/
def wholeProgram (program : Program) : Resolving Unit := do
  follow tables (.ofProgram program)
  let s ← get
  unless s.scopes.inner.isEmpty do
    lift (.error (.scopesUnbalanced (← lift (s.scopes.dump tables.tree))))
  Logged.emit (.resolved s.resolutions.size s.diagnostics.length)

end Resolving

/-- The state before the first step. -/
def ResolveState.start : ResolveState := ⟨.new, ∅, []⟩

/-- Runs the second pass: what each node refers to, and what was reported. -/
def resolveNames (tables : Tables) (program : Program) : Logged ResolveState := do
  let (_, s) ← (Resolving.wholeProgram tables program).run .start
  return s

end NameResolution

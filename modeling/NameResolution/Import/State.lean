import NameResolution.Import.Directive
import NameResolution.Log
import NameResolution.Module.Redefinition

/-! # Imports in progress

    The import phase takes a fixed list of directives and gives each a status.
    A directive is opened once; what it did then stands. -/

namespace NameResolution

/-- Why the path of an import leads nowhere. -/
inductive ImportFailure where
  | notImportable (path : String)
  /-- The last name is missing from a place -/
  | noItem (name place : String)
  /-- A name on the way is missing from a place -/
  | noSegment (name place : String)
  | aboveRoot
  | notModule (name : String) (kind : DefKind)
  | misplaced (word : String)
  | globWithoutPath
  /-- It leads back to an import that is in progress; that one has been reported -/
  | cycle
  deriving DecidableEq, Repr

/-- What a diagnostic says of the cause. A cycle has a diagnostic of its own. -/
def ImportFailure.reason? : ImportFailure → Option String
  | notImportable path => some s!"`{path}` does not name an importable item"
  | noItem name place => some s!"no item named `{name}` in {place}"
  | noSegment name place => some s!"could not find `{name}` in {place}"
  | aboveRoot => some "there are no modules above the root"
  | notModule name kind => some s!"`{name}` is {kind.description}, not a module"
  | misplaced word => some s!"`{word}` is not allowed at this position in an import path"
  | globWithoutPath => some "a glob import needs a module path"
  | cycle => none

/-- What the import phase works from. -/
structure Imports (n : Nat) where
  directives : Vector Directive n
  lintPrivateAccess : Bool

namespace Imports

variable {n : Nat} (imports : Imports n)

/-- The directive with a number. -/
def get (i : Fin n) : Directive := imports.directives[i]

/-- The single imports that bind `name` in a module, in order. -/
def binders (module : ModuleId) (name : String) : List (Fin n) :=
  (List.finRange n).filter fun i =>
    (imports.get i).module == module
      && (imports.get i).target?.any (·.name.name == name)

/-- The globs of a module, in order. -/
def globsOf (module : ModuleId) : List (Fin n) :=
  (List.finRange n).filter fun i => (imports.get i).isGlob && (imports.get i).module == module

end Imports

/-- A part of the import phase. -/
abbrev Importing (n : Nat) := StateT (ImportState n) Logged

/-- A step of the import phase that may find that a path leads nowhere. What it did until then
    stands. -/
abbrev Attempt (n : Nat) := ExceptT ImportFailure (Importing n)

/-- Who asks for a name, and in the course of what. -/
structure Asker (n : Nat) where
  /-- The directive that needs the name -/
  index : Fin n
  /-- The directives in progress, the first opened first -/
  opened : List (Fin n)
  /-- The globs being searched for a name, the first asked first -/
  searched : List (Fin n)

namespace Importing

variable {n : Nat}

/-- Goes on with a result, or ends with its fault. -/
def lift {α : Type} (result : Except Fault α) : Importing n α := Logged.lift result

/-- The status of a directive. -/
def status (i : Fin n) : Importing n ImportStatus := return (← get).statuses[i]

/-- Notes what is about to be done in the course of some directives and searches. -/
def note (opened searched : List (Fin n)) (task : ImportTask n) : Importing n Unit := do
  Logged.note (.importing ⟨opened, searched, task, ← get⟩)

/-- Gives a directive another status. -/
def setStatus (opened searched : List (Fin n)) (i : Fin n) (status : ImportStatus) :
    Importing n Unit := do
  note opened searched (.setStatus i status)
  modify fun s => { s with statuses := s.statuses.set i status }

/-- Adds a diagnostic. -/
def report (diagnostic : Diagnostic) : Importing n Unit :=
  modify fun s => { s with diagnostics := s.diagnostics ++ [diagnostic] }

/-- Reports that `name`, imported at `span`, already refers to `first`. -/
def reportTaken (name : String) (span : Span) (first : Binding) : Importing n Unit := do
  report (← lift (redefinition (← get).defs name span first))

/-- Reports that an import leads nowhere, and gives the status it ends in. A cycle has been
    reported where it was met. -/
def reportFailure (directive : Directive) (failure : ImportFailure) :
    Importing n ImportStatus := do
  match failure.reason? with
  | some reason =>
    report (.unresolvedImport directive.pathText directive.span reason)
    return .failed
  | none => return .cycleFailed

/-- What a name refers to in a module. -/
def bindingOf (module : ModuleId) (ns : Namespace) (name : String) :
    Importing n (Option Binding) := do
  return (← lift ((← get).tree.get module)).find? ns name

/-- Notes the tables as they are now. -/
def noteTables : Importing n Unit := do
  let s ← get
  Logged.note (.written s.defs s.tree)

/-- Takes a larger table, and logs the definitions that are new in it. -/
def setDefs (defs : Definitions) : Importing n Unit := do
  (defs.since (← get).defs.size).forM fun definition => Logged.emit (.defined definition)
  modify fun s => { s with defs }
  noteTables

/-- Takes a tree with one more name. -/
def setTree (tree : ModuleTree) : Importing n Unit := do
  modify fun s => { s with tree }
  noteTables

/-- Binds a name, or returns what it already refers to. -/
def bind (module : ModuleId) (ns : Namespace) (name : String) (binding : Binding) :
    Importing n (Option Binding) := do
  match ← lift ((← get).tree.bind module ns name binding) with
  | .bound tree => setTree tree; return none
  | .taken first => return some first

/-- Whether a binding is visible outside its module: for an overload set, some member is. -/
def isPub (defs : Definitions) : Binding → Except Fault Bool
  | .definition id | .imported id => defs.isPub id
  | .overloads id => do (← defs.overloadSet id).toList.anyM fun (_, member) => defs.isPub member

/-- The definition that a binding of the type namespace finally names. -/
def definitionOf (defs : Definitions) : Binding → Except Fault DefId
  | .definition id => return id
  | .imported id => (defs.resolveAlias id).mapError .aliasLoop
  | .overloads id => throw (.overloadsAsType id)

/-- A module as failures speak of it. -/
def placeText (tree : ModuleTree) (defs : Definitions) (module : ModuleId) :
    Except Fault String := do
  match (← tree.get module).owner with
  | .definition id =>
    if id = .root then return "the root module"
    let definition ← defs.get id
    return s!"{definition.kind.keyword} `{definition.ident.name}`"
  | .block _ => return "this block"

/-- Binds what an import has found. Functions join those that the name has already; anything
    else needs the name to be free. A block takes no lifetimes. -/
def bindImport (directive : Directive) (ns : Namespace) (name : Ident) (binding : Binding)
    (publicOnly : Bool) : Importing n Unit := do
  let s ← get
  unless ns = .lifetime ∧ (← lift (s.tree.get directive.module)).owner.isBlock do
    match binding with
    | .definition target | .imported target =>
      let (id, defs) ←
        lift (s.defs.defineAlias directive.isPub directive.node name target)
      setDefs defs
      if let some first ← bind directive.module ns name.name (.imported id) then
        reportTaken name.name name.span first
    | .overloads source =>
      match ← bindingOf directive.module .value name.name with
      | some (.overloads existing) =>
        let (_, taken, defs) ← lift <|
          s.defs.importOverloads directive.isPub directive.node source (some existing) publicOnly
        setDefs defs
        taken.forM fun (suffix, first) =>
          reportTaken (name.name ++ suffix) name.span (.definition first)
      | some first => reportTaken name.name name.span first
      | none =>
        let (merged, _, defs) ← lift <|
          s.defs.importOverloads directive.isPub directive.node source none publicOnly
        setDefs defs
        if (← bind directive.module .value name.name (.overloads merged)).isSome then
          lift (.error (.importAppeared name.name))

/-- Warns when a single import takes something from a module it is outside of, and that is not
    `pub`. -/
def checkPrivate (imports : Imports n) (directive : Directive) (source : ModuleId)
    (binding : Binding) (name : String) : Importing n Unit := do
  if imports.lintPrivateAccess then
    let s ← get
    unless ← lift (s.tree.isWithin directive.module source) do
      unless ← lift (isPub s.defs binding) do
        let owner ← lift ((← lift (s.tree.get source)).name s.defs)
        report (.privateAccess name owner directive.span)

end Importing

/-- Goes on with a result, or ends with its fault. -/
def Attempt.lift {n : Nat} {α : Type} (result : Except Fault α) : Attempt n α :=
  ExceptT.lift (Importing.lift result)

end NameResolution

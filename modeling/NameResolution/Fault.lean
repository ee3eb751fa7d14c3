import NameResolution.Resolution

/-! # Faults

    A fault is a broken invariant of the resolver itself, never a mistake in the
    program it reads: those are diagnostics. A fault ends the run. -/

namespace NameResolution

/-- A broken invariant, with what was found instead. -/
inductive Fault where
  /-- An alias was declared without a target -/
  | aliasWithoutTarget
  | nodeDefinedTwice (node : NodeId) (first second : DefId)
  | notCallable (id : DefId) (kind : DefKind)
  | unknownDefinition (id : DefId)
  | unknownOverloads (id : OverloadId)
  | emptyOverloads (id : OverloadId)
  | definitionHasModule (id : DefId) (first : ModuleId)
  | definitionWithoutModule (id : DefId) (ident : Ident)
  | blockHasModule (node : NodeId) (first : ModuleId)
  | unknownModule (id : ModuleId)
  | childNameTaken (parent : ModuleId) (name : String) (first : ModuleId)
  | childNodeTaken (parent : ModuleId) (node : NodeId) (first : ModuleId)
  | lifetimeInBlock (module : ModuleId) (name : String)
  | poppedRootScope
  /-- The first pass started on tables that are not fresh -/
  | tablesInUse
  | notBoundByName (kind : DefKind)
  | freshOverloadsTaken (name : String)
  | bindingAppeared (name : String)
  | leftRootModule
  | importAppeared (name : String)
  | aliasLoop (chain : List DefId)
  | overloadsAsType (id : OverloadId)
  /-- Nested import lookups exceeded every bound the directives allow -/
  | lookupTooDeep
  | builtTwice
  | resolvedBeforeBuilt
  | resolvedTwice
  | scopesUnbalanced (dump : String)
  | noDefinition (node : NodeId)
  | emptyPath (node : NodeId)
  | moduleOfBlock (module : ModuleId)
  | blockWithoutModule (node : NodeId)
  | nodeResolvedTwice (node : NodeId) (first second : Resolution)
  deriving DecidableEq, Repr

namespace Fault

/-- What went wrong. -/
def reason : Fault → String
  | aliasWithoutTarget => "import aliases must be created through `define_import_alias`"
  | nodeDefinedTwice node first second =>
    s!"{node.text} defines both {first.text} and {second.text}"
  | notCallable id kind => s!"{id.text} is {kind.description}, not a function"
  | unknownDefinition id => s!"unknown definition {id.text}"
  | unknownOverloads id => s!"unknown overload set {id.text}"
  | emptyOverloads id => s!"overload set {id.text} is empty"
  | definitionHasModule id first => s!"{id.text} already has module {first.longText}"
  | definitionWithoutModule id ident => s!"{id.text} `{ident.name}` has no module"
  | blockHasModule node first => s!"block {node.text} already has module {first.longText}"
  | unknownModule id => s!"unknown module {id.longText}"
  | childNameTaken parent name first =>
    s!"module {parent.longText} already has a child named `{name}` ({first.longText})"
  | childNodeTaken parent node first =>
    s!"module {parent.longText} already has a child for {node.text} ({first.longText})"
  | lifetimeInBlock module name => s!"lifetime `{name}` bound in block module {module.longText}"
  | poppedRootScope => "popped the root rib"
  | tablesInUse => "module tree built twice in one session"
  | notBoundByName kind => s!"{kind.description} cannot be bound by name"
  | freshOverloadsTaken name => s!"fresh overload set for `{name}` already had a member"
  | bindingAppeared name => s!"`{name}` appeared in the value namespace while defining it"
  | leftRootModule => "left the root module"
  | importAppeared name => s!"`{name}` appeared while importing it"
  | aliasLoop chain =>
    "alias chain [" ++ ", ".intercalate (chain.map DefId.longText) ++ "] loops"
  | overloadsAsType id => s!"overload set {id.text} bound in the type namespace"
  | lookupTooDeep => "import lookups are nested too deeply"
  | builtTwice => "`build_module_tree` ran twice on one session"
  | resolvedBeforeBuilt => "`resolve_names` ran before `build_module_tree`"
  | resolvedTwice => "`resolve_names` ran twice on one session"
  | scopesUnbalanced dump => "unbalanced scopes after resolution:\n" ++ dump
  | noDefinition node => s!"no definition was created for {node.text}"
  | emptyPath node => s!"path {node.text} has no segments"
  | moduleOfBlock module => s!"module {module.longText} belongs to a block"
  | blockWithoutModule node => s!"block {node.text} declares items but has no module"
  | nodeResolvedTwice node first second =>
    s!"{node.text} resolved twice ({first.longText}, then {second.longText})"

/-- The whole message of a fault. -/
def message (fault : Fault) : String := "internal compiler error: " ++ fault.reason

end Fault

end NameResolution

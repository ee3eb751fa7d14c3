import NameResolution.Config.Basic
import NameResolution.Diagnostic
import NameResolution.Scope.Stack

/-! # What a path means at a point of a program

    The first segment of a path is looked up outward through the scopes, unless
    it is one of the words or the path is absolute. Each further segment is
    looked up in the module of what the path has come to. Where that is a type
    without such a member, the rest is left to type checking. -/

namespace NameResolution

/-- The tables that paths are resolved in. -/
structure Tables where
  defs : Definitions
  tree : ModuleTree
  config : Config

/-- What a single name was found to be. -/
inductive Found where
  | localVar (node : NodeId)
  | item (module : ModuleId) (binding : Binding)
  deriving DecidableEq, Repr

/-- The resolution of one path: it may give warnings on its way, and may end with an error. -/
abbrev PathSearch := ExceptT Diagnostic (StateT (List Diagnostic) (Except Fault))

namespace Tables

variable (tables : Tables)

/-! ## Single names -/

/-- Searches scopes from the innermost outward. With `hidden`, variables are out of reach. -/
def searchScopes (ns : Namespace) (name : String) (hidden : Bool) :
    List Scope → Except Fault (Option Found)
  | [] => return none
  | scope :: scopes => do
    match if hidden then none else scope.find? ns name with
    | some node => return some (.localVar node)
    | none =>
      let bound ← match scope.module with
        | some module => do
          pure (((← tables.tree.get module).find? ns name).map (Found.item module))
        | none => pure none
      match bound with
      | some found => return some found
      | none => searchScopes ns name (hidden || scope.kind.hidesOuterLocals) scopes

/-- Searches the modules around the nearest one that no scope is bound to. -/
def searchModules (stack : ScopeStack) (ns : Namespace) (name : String) :
    Except Fault (Option Found) := do
  -- a module that a scope is bound to has been searched, and its variables with it
  let searched := stack.toList.filterMap (·.module)
  let around ← tables.tree.ancestors stack.nearestModule
  return (around.filter (!searched.contains ·.id)).findSome? fun m =>
    (m.find? ns name).map (Found.item m.id)

/-- What a name refers to at a point: the scopes come first, then the modules around. -/
def lookup (stack : ScopeStack) (ns : Namespace) (name : String) :
    Except Fault (Option Found) := do
  match ← tables.searchScopes ns name false stack.toList with
  | some found => return some found
  | none => tables.searchModules stack ns name

/-- The definition behind a binding that is not a set of functions. -/
def finalDefinition? : Binding → Option DefId
  | .definition id => some id
  | .imported id => (tables.defs.resolveAlias id).toOption
  | .overloads _ => none

/-- Whether a binding is an enum variant, be it imported. -/
def isVariant (binding : Binding) : Except Fault Bool :=
  match tables.finalDefinition? binding with
  | some id => return (← tables.defs.get id).kind == .variant
  | none => return false

/-- The enum variant that a name refers to at a point. -/
def variantNamed (stack : ScopeStack) (name : String) : Except Fault (Option DefId) := do
  match ← tables.lookup stack .type name with
  | some (.item _ binding) =>
    return if ← tables.isVariant binding then tables.finalDefinition? binding else none
  | _ => return none

/-- What a name is bound to in a module. A variant also serves as a value. -/
def findMember (module : ModuleId) (ns : Namespace) (name : String) :
    Except Fault (Option Binding) := do
  let m ← tables.tree.get module
  match m.find? ns name with
  | some binding => return some binding
  | none =>
    match m.find? .type name with
    | some binding =>
      return if ns == .value && (← tables.isVariant binding) then some binding else none
    | none => return none

/-! ## Suggestions -/

/-- What a binding is, in words. -/
def describe (binding : Binding) : Except Fault String :=
  match binding with
  | .overloads _ => return DefKind.func.description
  | binding =>
    match tables.finalDefinition? binding with
    | some id => return (← tables.defs.get id).kind.description
    | none => return DefKind.importAlias.description

/-- What was found under a name, in words. -/
def describeFound : Found → Except Fault String
  | .localVar _ => return "a local variable"
  | .item _ binding => tables.describe binding

/-- The diagnostic for a name that is not there, given what it is in other namespaces. -/
def unresolved (ident : Ident) (ns : Namespace) (found : List (Namespace × String)) :
    Diagnostic :=
  let alternatives :=
    if tables.config.suggestAlternatives then
      (found.take tables.config.maxSuggestions).map fun (other, description) =>
        s!"{description} in the {other.text} namespace"
    else []
  let help :=
    if alternatives.isEmpty then none
    else some (s!"`{ident.name}` exists as " ++ " and as ".intercalate alternatives)
  .unresolvedName ident.name ns ident.span alternatives help

/-- The diagnostic for a name that is not in reach. -/
def unresolvedLexical (stack : ScopeStack) (ident : Ident) (ns : Namespace) :
    Except Fault Diagnostic := do
  let found ← (Namespace.all.filter (· != ns)).filterMapM fun other => do
    match ← tables.lookup stack other ident.name with
    | some found => return some (other, ← tables.describeFound found)
    | none => return none
  return tables.unresolved ident ns found

/-- The diagnostic for a name that a module does not bind. -/
def unresolvedMember (module : ModuleId) (ident : Ident) (ns : Namespace) :
    Except Fault Diagnostic := do
  let bound := ((← tables.tree.get module).findAll ident.name).filter (·.1 != ns)
  let found ← bound.mapM fun (other, binding) => do
    return (other, ← tables.describe binding)
  return tables.unresolved ident ns found

/-- The functions that could have been meant, as many as may be suggested. -/
def overloadsHelp (name : String) (suffixes : List String) : Option String :=
  let shown := (suffixes.take tables.config.maxSuggestions).map (name ++ ·)
  if shown.isEmpty then none
  else
    let more := suffixes.length - shown.length
    some ("available overloads: " ++ listNames shown
      ++ (if more > 0 then s!" and {more} more" else ""))

/-! ## Members of a module -/

/-- The definition a binding stands for, be it an alias. Of several functions the suffix picks
    one; without a suffix there must be only one. -/
def selectMember (binding : Binding) (ident : Ident) (suffix : Option String) :
    PathSearch DefId := do
  match binding with
  | .definition id | .imported id => return id
  | .overloads id =>
    let set ← tables.defs.overloadSet id
    let available := set.suffixes
    let help := tables.overloadsHelp ident.name available
    match suffix with
    | some suffix =>
      match set.get? suffix with
      | some member => return member
      | none => throw (.suffixMismatch ident.name suffix ident.span available help)
    | none =>
      match set.single? with
      | some member => return member
      | none => throw (.ambiguousOverload ident.name ident.span available help)

/-- What an alias finally names. -/
def followAlias (id : DefId) (ident : Ident) : PathSearch DefId := do
  match tables.defs.resolveAlias id with
  | .ok final => return final
  | .error chain =>
    let names ← chain.mapM fun link => do
      return (← tables.defs.get link).ident.name
    throw (.importCycle ident.name ident.span (cycleText names))

/-- Warns of a member that is not `pub` when `origin` is outside the module that binds it. -/
def checkPrivacy (origin owner : ModuleId) (member : DefId) (ident : Ident) :
    PathSearch Unit := do
  if tables.config.lintPrivateAccess then
    unless ← tables.tree.isWithin origin owner do
      unless ← tables.defs.isPub member do
        let name ← (← tables.tree.get owner).name tables.defs
        modify (· ++ [.privateAccess ident.name name ident.span])

/-! ## Paths -/

/-- The namespace of a segment: only the last one is looked up where the path is used. -/
def segmentNamespace (ns : Namespace) (rest : List Segment) : Namespace :=
  if rest.isEmpty then ns else .type

/-- Only the last segment can be the function that is called. -/
def segmentSuffix (suffix : Option String) (rest : List Segment) : Option String :=
  if rest.isEmpty then suffix else none

/-- Follows segments from a definition, each in the module of the one before. -/
def followMembers (origin : ModuleId) (ns : Namespace) (suffix : Option String) :
    DefId → List Segment → PathSearch Resolution
  | id, [] => return .definition id
  | id, segment :: rest => do
    match segment.ident? with
    | none =>
      let word := segment.kind.text
      throw (.unresolvedName word .type segment.span []
        (some s!"`{word}` is only allowed at the start of a path"))
    | some ident =>
      let ns' := segmentNamespace ns rest
      let definition ← tables.defs.get id
      let home := tables.defs.module? id
      let found ← match home with
        | some module => tables.findMember module ns' ident.name
        | none => pure none
      match home, found with
      | some module, some binding =>
        let member ← tables.selectMember binding ident (segmentSuffix suffix rest)
        tables.checkPrivacy origin module member ident
        followMembers origin ns suffix (← tables.followAlias member ident) rest
      | _, _ =>
        -- types may have members that only type checking knows
        if definition.kind.isTypeLike then
          return .typeRelative id (rest.length + 1)
        else
          match home with
          | some module => throw (← tables.unresolvedMember module ident ns')
          | none =>
            let owner := definition.ident.name
            let kind := definition.kind.description
            throw (.unresolvedName ident.name ns' ident.span []
              (some s!"`{owner}` is {kind}, which has no members"))

/-- The definition of a module that belongs to a `mod` or to the program. -/
def modDefinition (module : ModuleId) : Except Fault DefId := do
  match (← tables.tree.get module).owner with
  | .definition id => return id
  | .block _ => throw (.moduleOfBlock module)

/-- Climbs from a `mod` to the one around it for each leading `super`. Gives the definition it
    comes to, and the other segments. -/
def climb : ModuleId → List Segment → PathSearch (DefId × List Segment)
  | module, [] => return (← tables.modDefinition module, [])
  | module, segment :: rest => do
    if segment.kind = .super then
      match (← tables.tree.get module).parent with
      | some parent => climb (← tables.tree.enclosingMod tables.defs parent) rest
      | none =>
        throw (.unresolvedName "super" .type segment.span []
          (some "there are no modules above the root"))
    else return (← tables.modDefinition module, segment :: rest)

/-- Where a path starts: with a variable it ends there, otherwise it goes on from a definition
    with the segments that are left. -/
def resolveFirst (stack : ScopeStack) (ns : Namespace) (suffix : Option String)
    (first : Segment) (rest : List Segment) : PathSearch (Resolution ⊕ DefId × List Segment) := do
  match first.kind with
  | .selfType =>
    match stack.innermost.selfItem with
    | some id => return .inr (id, rest)
    | none => throw (.selfOutsideItem "Self" first.span)
  | .selfModule =>
    let module ← tables.tree.enclosingMod tables.defs stack.nearestModule
    return .inr (← tables.modDefinition module, rest)
  | .super =>
    let module ← tables.tree.enclosingMod tables.defs stack.nearestModule
    return .inr (← tables.climb module (first :: rest))
  | .name name =>
    let ident : Ident := ⟨name, first.span⟩
    let ns' := segmentNamespace ns rest
    match ← tables.lookup stack ns' name with
    | some (.localVar node) => return .inl (.localVar node)
    | some (.item _ binding) =>
      let member ← tables.selectMember binding ident (segmentSuffix suffix rest)
      return .inr (← tables.followAlias member ident, rest)
    | none =>
      let variant ←
        if rest.isEmpty && ns == .value then tables.variantNamed stack name else pure none
      match variant with
      | some id => return .inl (.definition id)
      | none => throw (← tables.unresolvedLexical stack ident ns')

/-- What a path refers to in a namespace. -/
def resolvePath (stack : ScopeStack) (ns : Namespace) (path : Path) (suffix : Option String) :
    PathSearch Resolution := do
  let origin := stack.nearestModule
  match path.segments with
  | [] => throwThe Fault (.emptyPath path.id)
  | first :: rest =>
    if path.global then
      tables.followMembers origin ns suffix .root (first :: rest)
    else
      match ← tables.resolveFirst stack ns suffix first rest with
      | .inl resolution => return resolution
      | .inr (id, rest) => tables.followMembers origin ns suffix id rest

end Tables

end NameResolution

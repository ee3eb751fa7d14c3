import NameResolution.Import.State

/-! # Looking names up while imports are resolved

    A name that a module does not bind yet may still be bound by one of its
    imports. So a lookup first resolves the pending single imports that would
    bind the name, and only then asks the module's globs. Each of these may look
    up further names, in turn.

    A step of this recursion is written over the lookup it relies on. It is
    tied by a bound on the nesting: a nested lookup has either opened one more
    directive, or is searching one more glob, so for `n` directives no lookup is
    nested deeper than `2 * n`. -/

namespace NameResolution

/-- A way to look up a name in one module. -/
abbrev Lookup (n : Nat) := Asker n → ModuleId → Namespace → String → Attempt n (Option Binding)

/-- Where the next segment of an import path stands. -/
inductive PathPosition where
  /-- In front of a path that is not absolute -/
  | start
  /-- Behind one `super` or more -/
  | climbing
  /-- Behind a name or `self`, or anywhere in an absolute path -/
  | inside
  deriving DecidableEq, Repr

namespace Lookup

variable {n : Nat} (imports : Imports n) (lookup : Lookup n)

/-! ## Paths -/

/-- The first of some modules that binds a name, with what it binds it to. -/
def inAnyOf (asker : Asker n) (ns : Namespace) (name : String) :
    List ModuleId → Attempt n (Option (ModuleId × Binding))
  | [] => return none
  | module :: modules => do
    match ← lookup asker module ns name with
    | some binding => return some (module, binding)
    | none => inAnyOf asker ns name modules

/-- The binding of a name in a module or else in the nearest module around it. -/
def outward (asker : Asker n) (module : ModuleId) (ns : Namespace) (name : String) :
    Attempt n (Option (ModuleId × Binding)) := do
  let around ← Attempt.lift ((← get).tree.ancestors module)
  inAnyOf lookup asker ns name (around.map (·.id))

/-- The innermost `mod` around a module. -/
def enclosingMod (module : ModuleId) : Attempt n ModuleId := do
  let s ← get
  Attempt.lift (s.tree.enclosingMod s.defs module)

/-- The `mod` around the one that encloses a module. -/
def outerMod (module : ModuleId) : Attempt n ModuleId := do
  let current ← enclosingMod module
  match (← Attempt.lift ((← get).tree.get current)).parent with
  | some parent => enclosingMod parent
  | none => throw .aboveRoot

/-- The module that a name on the way refers to, given what it is bound to in `module`. -/
def moduleOf (module : ModuleId) (name : String) (binding : Option Binding) :
    Attempt n ModuleId := do
  let s ← get
  match binding with
  | none => do
    let place ← Attempt.lift (Importing.placeText s.tree s.defs module)
    throw (.noSegment name place)
  | some binding => do
    let id ← Attempt.lift (Importing.definitionOf s.defs binding)
    match s.defs.module? id with
    | some next => return next
    | none => do
      let definition ← Attempt.lift (s.defs.get id)
      throw (.notModule name definition.kind)

/-- Follows segments from a module to a module. `self` may only come first, and `super` only
    before any other segment. -/
def followModules (asker : Asker n) : PathPosition → ModuleId → List Segment → Attempt n ModuleId
  | _, module, [] => return module
  | position, module, segment :: segments => do
    match segment.kind, position with
    | .selfModule, .start => followModules asker .inside (← enclosingMod module) segments
    | .super, .start | .super, .climbing =>
      followModules asker .climbing (← outerMod module) segments
    | .name name, .start => do
      let found ← outward lookup asker module .type name
      followModules asker .inside (← moduleOf module name (found.map (·.2))) segments
    | .name name, _ => do
      let found ← lookup asker module .type name
      followModules asker .inside (← moduleOf module name found) segments
    | word, _ => throw (.misplaced word.text)

/-- The module that segments lead to, from the root or from the importing module. -/
def modulePath (asker : Asker n) (home : ModuleId) (global : Bool) (segments : List Segment) :
    Attempt n ModuleId :=
  if global then followModules lookup asker .inside .root segments
  else followModules lookup asker .start home segments

/-! ## Single imports -/

/-- What a name refers to in each of some namespaces, with the module that binds it. A bare name
    is looked for outward from the importing module, any other in the module its path leads
    to. -/
def findTargets (asker : Asker n) (module : ModuleId) (bare : Bool) (name : String) :
    List Namespace → Attempt n (List (Namespace × ModuleId × Binding))
  | [] => return []
  | ns :: others => do
    let found ←
      if bare then outward lookup asker module ns name
      else do pure ((← lookup asker module ns name).map (module, ·))
    let rest ← findTargets asker module bare name others
    return found.toList.map (ns, ·) ++ rest

/-- Binds one thing that a single import has found. From outside, a set that has `pub` functions
    brings only these. -/
def bindTarget (directive : Directive) (target : ImportTarget) (bare : Bool) (ns : Namespace)
    (source : ModuleId) (binding : Binding) : Importing n Unit := do
  let s ← get
  let inside ← Importing.lift (s.tree.isWithin directive.module source)
  let isPub ← Importing.lift (Importing.isPub s.defs binding)
  unless bare do
    Importing.checkPrivate imports directive source binding target.last.name
  Importing.bindImport directive ns target.name binding (!inside && isPub)

/-- Binds everything that a single import has found, in order. -/
def bindTargets (directive : Directive) (target : ImportTarget) (bare : Bool) :
    List (Namespace × ModuleId × Binding) → Importing n Unit
  | [] => return
  | (ns, source, binding) :: others => do
    bindTarget imports directive target bare ns source binding
    bindTargets directive target bare others

/-- Resolves the path of a single import and binds what it finds. -/
def importSingle (asker : Asker n) : Attempt n Unit := do
  let directive := imports.get asker.index
  match directive.target? with
  | none => throw (.notImportable directive.pathText)
  | some target => do
    let bare := target.lead.isEmpty && !directive.path.global
    let module ←
      modulePath lookup asker directive.module directive.path.global target.lead
    let namespaces := if target.typesOnly then [.type] else Namespace.all
    let found ← findTargets lookup asker module bare target.last.name namespaces
    if found.isEmpty then do
      let s ← get
      let place ← Attempt.lift (Importing.placeText s.tree s.defs module)
      throw (.noItem target.last.name place)
    else bindTargets imports directive target bare found

/-- Opens a pending single import and closes it with its final status. -/
def resolveSingle (i : Fin n) (opened searched : List (Fin n)) : Importing n Unit := do
  Importing.setStatus opened searched i .inProgress
  match ← (importSingle imports lookup ⟨i, opened ++ [i], searched⟩).run with
  | .ok () => Importing.setStatus (opened ++ [i]) searched i (.done none)
  | .error failure =>
    let status ← Importing.reportFailure (imports.get i) failure
    Importing.setStatus (opened ++ [i]) searched i status

/-! ## Globs -/

/-- The module that the path of a glob leads to. -/
def globPath (asker : Asker n) : Attempt n ModuleId :=
  let directive := imports.get asker.index
  let path := directive.path
  if path.segments.isEmpty && !path.global then throw .globWithoutPath
  else modulePath lookup asker directive.module path.global path.segments

/-- The module a glob reads from. It is found once; a glob that is in progress has none yet. -/
def globSource (i : Fin n) (opened searched : List (Fin n)) : Importing n (Option ModuleId) := do
  Importing.note opened searched (.findSource i)
  match ← Importing.status i with
  | .done source => return source
  | .inProgress | .failed | .cycleFailed => return none
  | .pending =>
    Importing.setStatus opened searched i .inProgress
    match ← (globPath imports lookup ⟨i, opened ++ [i], searched⟩).run with
    | .ok source =>
      Importing.setStatus (opened ++ [i]) searched i (.done (some source))
      return some source
    | .error failure =>
      let status ← Importing.reportFailure (imports.get i) failure
      Importing.setStatus (opened ++ [i]) searched i status
      return none

/-- Binds a name that a glob brings in, unless the importing module has it already or cannot see
    it. Tells whether it did. -/
def globBind (i : Fin n) (source : ModuleId) (ns : Namespace) (name : String)
    (binding : Binding) : Importing n Bool := do
  let directive := imports.get i
  let s ← get
  let home ← Importing.lift (s.tree.get directive.module)
  if home.has ns name || (ns == .lifetime && home.owner.isBlock) then
    return false
  else
    let inside ← Importing.lift (s.tree.isWithin directive.module source)
    let isPub ← Importing.lift (Importing.isPub s.defs binding)
    if inside || isPub then
      Importing.bindImport directive ns ⟨name, directive.span⟩ binding (!inside)
      return true
    else return false

/-- Asks one glob for a name that its module does not bind yet. -/
def askGlob (asker : Asker n) (module : ModuleId) (ns : Namespace) (name : String) (i : Fin n) :
    Importing n Unit := do
  -- another glob may have bound the name meanwhile; and a glob asks neither itself nor twice
  if (← Importing.bindingOf module ns name).isNone && i != asker.index
      && !asker.searched.contains i then
    match ← globSource imports lookup i asker.opened asker.searched with
    | none => return
    | some source =>
      if source ≠ module then
        match ← (lookup ⟨i, asker.opened, asker.searched ++ [i]⟩ source ns name).run with
        | .ok (some binding) =>
          Logged.emit (.globProvides (imports.get i).pathText name module)
          let _ ← globBind imports i source ns name binding
        | _ => return

/-- Asks the globs of a module for a name, until one has it. -/
def askGlobs (asker : Asker n) (module : ModuleId) (ns : Namespace) (name : String) :
    Importing n Unit :=
  (imports.globsOf module).forM (askGlob imports lookup asker module ns name)

/-! ## Names -/

/-- Reports the cycle of imports that leads back to `i`. -/
def reportCycle (opened : List (Fin n)) (i : Fin n) : Importing n Unit := do
  let directive := imports.get i
  -- what was opened before `i` is not part of the cycle
  let way := opened.drop ((opened.idxOf? i).getD 0)
  let names := (way ++ [i]).map fun j => (imports.get j).boundName
  Logged.emit (.importCycle directive.pathText)
  Importing.report (.importCycle directive.boundName directive.span (cycleText names))

/-- Waits for one import that would bind the name asked for. Tells whether that leads into a
    cycle. -/
def awaitImport (asker : Asker n) (i : Fin n) : Importing n Bool := do
  if i = asker.index then return false
  else
    match ← Importing.status i with
    | .pending =>
      resolveSingle imports lookup i asker.opened asker.searched
      return (← Importing.status i) == .cycleFailed
    | .inProgress =>
      Importing.note asker.opened asker.searched (.reportCycle i)
      reportCycle imports asker.opened i
      return true
    | .cycleFailed => return true
    | .done _ | .failed => return false

/-- Waits for imports in order. Tells whether any leads into a cycle. -/
def awaitImports (asker : Asker n) : List (Fin n) → Importing n Bool
  | [] => return false
  | i :: others => do
    let first ← awaitImport imports lookup asker i
    let later ← awaitImports asker others
    return first || later

/-- Looks a name up in one module. A glob never supplies a name that the asking import binds
    there itself. -/
def step : Lookup n := fun asker module ns name => do
  Importing.note asker.opened asker.searched (.lookUp asker.index module ns name)
  match ← Importing.bindingOf (n := n) module ns name with
  | some binding => return some binding
  | none => do
    let binders := imports.binders module name
    let cycle ← awaitImports imports lookup asker binders
    -- what a glob supplies here would stand in the way of the import that binds the name
    if !cycle && !binders.contains asker.index then
      askGlobs imports lookup asker module ns name
    match ← Importing.bindingOf (n := n) module ns name with
    | some binding => return some binding
    | none => if cycle then throw .cycle else return none

/-- Lookups nested at most `depth` deep. -/
def upTo : Nat → Lookup n
  | 0 => fun _ _ _ _ => Attempt.lift (.error .lookupTooDeep)
  | depth + 1 => step imports (upTo depth)

/-- Lookups nested as deep as they can be: the outermost, one more for each directive that is
    opened and one more for each glob that is searched. -/
def full : Lookup n := upTo imports (2 * n + 1)

end Lookup

end NameResolution

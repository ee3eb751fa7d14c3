import NameResolution.Import.Lookup

/-! # The import phase

    Single imports are resolved in order, each with whatever it depends on.
    Globs come last: they are applied over and over until none of them binds
    anything new. -/

namespace NameResolution

namespace Importing

variable {n : Nat} (imports : Imports n)

/-- Resolves a single import, unless another one has done so on its way. -/
def resolvePending (i : Fin n) : Importing n Unit := do
  if !(imports.get i).isGlob && (← status i) == .pending then
    Lookup.resolveSingle imports (Lookup.full imports) i [] []

/-- The globs among some directives that lead to a module, with that module. -/
def globSources : List (Fin n) → Importing n (List (Fin n × ModuleId))
  | [] => return []
  | i :: others => do
    let source ←
      if (imports.get i).isGlob then Lookup.globSource imports (Lookup.full imports) i [] []
      else pure none
    let rest ← globSources others
    return source.toList.map (i, ·) ++ rest

/-- Binds names that a glob brings in. Tells whether any is new. -/
def importNames (i : Fin n) (source : ModuleId) (ns : Namespace) :
    List (String × Binding) → Importing n Bool
  | [] => return false
  | (name, binding) :: names => do
    let first ← Lookup.globBind imports i source ns name binding
    let later ← importNames i source ns names
    return first || later

/-- Binds all names of a module that a glob brings in, namespace by namespace. -/
def importNamespaces (i : Fin n) (source : ModuleId) : List Namespace → Importing n Bool
  | [] => return false
  | ns :: others => do
    let names := (← lift ((← get).tree.get source)).bindings ns
    let first ← importNames imports i source ns names
    let later ← importNamespaces i source others
    return first || later

/-- Applies a glob once. A module has nothing to import from itself. -/
def applyGlob (i : Fin n) (source : ModuleId) : Importing n Bool :=
  if source = (imports.get i).module then return false
  else importNamespaces imports i source Namespace.all

/-- Applies each glob once. Tells whether anything new was bound. -/
def applyGlobs : List (Fin n × ModuleId) → Importing n Bool
  | [] => return false
  | (i, source) :: globs => do
    let first ← applyGlob imports i source
    let later ← applyGlobs globs
    return first || later

/-- Applies all globs until nothing new is bound, at most `rounds` times. -/
def saturate (globs : List (Fin n × ModuleId)) : Nat → Importing n Unit
  | 0 => return
  | rounds + 1 => do
    if ← applyGlobs imports globs then
      saturate globs rounds

/-- How many names are bound in all modules. -/
def boundNames (tree : ModuleTree) : Nat :=
  (tree.toList.flatMap fun m => Namespace.all.flatMap m.bindings).length

/-- Each round but the last binds a name in a module that did not bind it, and globs bring no
    names that are not bound somewhere already. -/
def roundBound (tree : ModuleTree) : Nat := 3 * tree.size * boundNames tree + 1

/-- Resolves all imports. -/
def allDirectives : Importing n Unit := do
  (List.finRange n).forM (resolvePending imports)
  let globs ← globSources imports (List.finRange n)
  saturate imports globs (roundBound (← get).tree)
  Logged.emit (.importsResolved n (← get).diagnostics.length)

end Importing

/-- The state before the first import is opened. -/
def ImportState.start (n : Nat) (defs : Definitions) (tree : ModuleTree) : ImportState n :=
  ⟨defs, tree, Vector.replicate n .pending, []⟩

/-- Runs the import phase for directives in the given order. -/
def resolveImports (defs : Definitions) (tree : ModuleTree) (lintPrivateAccess : Bool)
    (directives : List Directive) : Logged (ImportState directives.length) := do
  let imports : Imports directives.length := ⟨⟨directives.toArray, by simp⟩, lintPrivateAccess⟩
  let (_, s) ← (Importing.allDirectives imports).run (.start _ defs tree)
  return s

end NameResolution

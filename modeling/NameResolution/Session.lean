import NameResolution.Outline.Declare
import NameResolution.Config.Reader
import NameResolution.Import.Phase
import NameResolution.Walk.Resolve

/-! # Sessions

    A session runs the passes over one program: first the module tree is built
    and imports are resolved, then names. Each pass runs once. -/

namespace NameResolution

/-- Reads a configuration, and logs it. -/
def Config.load (text : String) : Logged (Except ConfigError Config) := do
  let result := Config.parse text
  if let .ok config := result then
    Logged.emit (.configLoaded config)
  return result

/-- What the passes share. -/
structure Session where
  config : Config
  defs : Definitions
  tree : ModuleTree
  resolutions : Std.TreeMap NodeId Resolution
  treeBuilt : Bool
  namesResolved : Bool

namespace Session

/-- A session before any pass. -/
def new (config : Config) : Session := ⟨config, .empty, .new, ∅, false, false⟩

/-- Runs the first pass and then the import phase. Gives what they reported. -/
def build (session : Session) (program : Program) : Logged (List Diagnostic × Session) := do
  if session.treeBuilt then
    throw .builtTwice
  Logged.emit .buildStarted
  let built ← declareProgram session.defs session.tree program
  let imported ←
    resolveImports built.defs built.tree session.config.lintPrivateAccess built.directives
  if session.config.printModuleTree then
    Logged.emit (.moduleTree (← Logged.lift (imported.tree.print imported.defs)))
  let session :=
    { session with defs := imported.defs, tree := imported.tree, treeBuilt := true }
  return (built.diagnostics ++ imported.diagnostics, session)

/-- Runs the second pass, over the same program. Gives what it reported. -/
def resolve (session : Session) (program : Program) : Logged (List Diagnostic × Session) := do
  if !session.treeBuilt then
    throw .resolvedBeforeBuilt
  if session.namesResolved then
    throw .resolvedTwice
  Logged.emit .resolveStarted
  let s ← resolveNames ⟨session.defs, session.tree, session.config⟩ program
  return (s.diagnostics, { session with resolutions := s.resolutions, namesResolved := true })

end Session

end NameResolution

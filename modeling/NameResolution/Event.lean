import NameResolution.Config.Basic
import NameResolution.Definition.Table

/-! # Records

    What the passes tell about their work as they go, each record with a level.
    A reader asks for the records up to some level. -/

namespace NameResolution

/-- Levels from the gravest to the most detailed. -/
inductive Level where
  | error
  | info
  | debug
  | trace
  deriving DecidableEq, Repr

namespace Level

/-- The word for a level. -/
def text : Level → String
  | error => "ERROR"
  | info => "INFO"
  | debug => "DEBUG"
  | trace => "TRACE"

/-- How detailed a level is. -/
def rank : Level → Nat
  | error => 0
  | info => 1
  | debug => 2
  | trace => 3

end Level

/-- A record of the log. -/
inductive Event where
  | fault (fault : Fault)
  | configLoaded (config : Config)
  | buildStarted
  | defined (definition : Definition)
  | built (definitions modules directives : Nat)
  | importCycle (path : String)
  | globProvides (glob name : String) (module : ModuleId)
  | importsResolved (directives diagnostics : Nat)
  | moduleTree (outline : String)
  | resolveStarted
  | resolving (path : String) (ns : Namespace) (scopes : String)
  | localBound (name : String) (node : NodeId)
  | unresolved (path : String) (node : NodeId) (message : String)
  | resolved (resolutions diagnostics : Nat)
  deriving DecidableEq, Repr

namespace Event

/-- The level of a record. Only a fault is an error of the resolver. -/
def level : Event → Level
  | fault _ => .error
  | moduleTree _ => .info
  | defined _ | globProvides .. | resolving .. | localBound .. => .trace
  | configLoaded _ | buildStarted | built .. | importCycle _ | importsResolved .. | resolveStarted
  | unresolved .. | resolved .. => .debug

/-- What the record says. -/
def text : Event → String
  | .fault cause => cause.message
  | configLoaded config => s!"loaded session config: {config.longText}"
  | buildStarted => "building the module tree"
  | defined d => s!"define {d.kind.keyword} {d.id.text} `{d.ident.name}` for {d.node.text}"
  | built definitions modules directives =>
    s!"module tree built: {definitions} definitions, {modules} modules, " ++
      s!"{directives} imports pending"
  | importCycle path => s!"import cycle through {path}"
  | globProvides glob name module => s!"glob {glob} provides `{name}` to {module.longText}"
  | importsResolved directives diagnostics =>
    s!"imports resolved: {directives} directives, {diagnostics} diagnostics"
  | moduleTree outline => "module tree:\n" ++ outline
  | resolveStarted => "resolving names"
  | resolving path ns scopes => s!"resolving `{path}` in the {ns.text} namespace\n" ++ scopes
  | localBound name node => s!"local `{name}` bound by {node.text}"
  | unresolved path node message => s!"failed to resolve `{path}` ({node.text}): {message}"
  | resolved resolutions diagnostics =>
    s!"names resolved: {resolutions} resolutions, {diagnostics} diagnostics"

end Event

/-- The records a reader who asks for `level` sees. -/
def recordsUpTo (level : Level) (events : List Event) : List Event :=
  events.filter (·.level.rank ≤ level.rank)

end NameResolution

import NameResolution.Diagnostic
import NameResolution.Module.Tree

/-! # Moments of the import phase

    How far each directive has come, and what the import phase is about to do.
    A journal of the phase is made of such moments. -/

namespace NameResolution

/-- How far a directive has come. -/
inductive ImportStatus where
  | pending
  | inProgress
  /-- Finished; a glob has found the module it reads from -/
  | done (source : Option ModuleId)
  | failed
  /-- Failed because it depends on itself -/
  | cycleFailed
  deriving DecidableEq, Repr

/-- The state of the import phase. -/
structure ImportState (n : Nat) where
  defs : Definitions
  tree : ModuleTree
  statuses : Vector ImportStatus n
  diagnostics : List Diagnostic

/-- What the import phase is about to do. -/
inductive ImportTask (n : Nat) where
  /-- Look a name up, for the directive that asks -/
  | lookUp (asking : Fin n) (module : ModuleId) (ns : Namespace) (name : String)
  /-- Find the module that a glob reads from -/
  | findSource (i : Fin n)
  /-- Report that a directive is met again while it is in progress -/
  | reportCycle (i : Fin n)
  | setStatus (i : Fin n) (status : ImportStatus)
  deriving DecidableEq, Repr

/-- A moment of the import phase: what it is about to do, and in the course of what. -/
structure ImportMoment (n : Nat) where
  /-- The directives in progress, the first opened first -/
  opened : List (Fin n)
  /-- The globs being searched for a name, the first asked first -/
  searched : List (Fin n)
  task : ImportTask n
  state : ImportState n

end NameResolution

import NameResolution.Event
import NameResolution.Import.Moment

/-! # The log

    What the passes leave behind as they go, whether or not they go through:
    their records, and for who wants to look at the tables in the making a
    journal of the moments they have gone through. A session keeps no journal. -/

namespace NameResolution

/-- A moment in the making of the tables. -/
inductive Moment where
  /-- The tables have just been written to -/
  | written (defs : Definitions) (tree : ModuleTree)
  /-- The import phase is about to do something -/
  | importing {n : Nat} (moment : ImportMoment n)

/-- The tables at a moment. -/
def Moment.tables : Moment → Definitions × ModuleTree
  | written defs tree => (defs, tree)
  | importing moment => (moment.state.defs, moment.state.tree)

structure Log where
  events : Array Event
  /-- The moments so far, if a journal is kept -/
  journal : Option (List Moment)

namespace Log

/-- A log without records, and without a journal. -/
def empty : Log := ⟨#[], none⟩

/-- A log with one more record. -/
def push (log : Log) (event : Event) : Log := { log with events := log.events.push event }

/-- A log with one more moment, if it keeps a journal. -/
def note (log : Log) (moment : Moment) : Log :=
  { log with journal := log.journal.map (· ++ [moment]) }

end Log

/-- A computation that writes a log and may end with a fault. The log up to the fault stays. -/
abbrev Logged := EStateM Fault Log

namespace Logged

/-- Adds a record to the log. -/
def emit (event : Event) : Logged Unit := modify (·.push event)

/-- Notes a moment in the journal. -/
def note (moment : Moment) : Logged Unit := modify (·.note moment)

/-- Goes on with a result, or ends with its fault. -/
def lift {α : Type} : Except Fault α → Logged α
  | .ok a => pure a
  | .error fault => throw fault

/-- Runs from an empty log. A fault is the last record. -/
def run {α : Type} (action : Logged α) : Except Fault α × List Event :=
  match EStateM.run action .empty with
  | .ok a log => (.ok a, log.events.toList)
  | .error fault log => (.error fault, log.events.toList ++ [.fault fault])

end Logged

end NameResolution

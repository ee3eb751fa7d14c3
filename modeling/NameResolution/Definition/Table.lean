import NameResolution.Definition.Basic
import NameResolution.Fault

/-! # The table of definitions

    Every definition of a program with what is known about it: the module it
    owns and, for functions, the overload set it belongs to. Definitions are
    never removed or changed, so an id once handed out stays good. -/

namespace NameResolution

/-- The functions of one name in one scope, by their label suffix. -/
structure OverloadSet where
  members : Std.TreeMap String DefId

namespace OverloadSet

/-- A set without functions. -/
def empty : OverloadSet := ⟨∅⟩

/-- The function with this suffix. -/
def get? (set : OverloadSet) (suffix : String) : Option DefId := set.members[suffix]?

/-- Puts a function under a suffix, in place of any other. -/
def insert (set : OverloadSet) (suffix : String) (id : DefId) : OverloadSet :=
  ⟨set.members.insert suffix id⟩

/-- How many functions there are. -/
def size (set : OverloadSet) : Nat := set.members.size

/-- Whether there is no function. -/
def isEmpty (set : OverloadSet) : Bool := set.members.isEmpty

/-- Members in the order of their suffixes. -/
def toList (set : OverloadSet) : List (String × DefId) := set.members.toList

/-- All suffixes in order. -/
def suffixes (set : OverloadSet) : List String := set.members.keys

/-- The only member of a set that has just one. -/
def single? (set : OverloadSet) : Option DefId :=
  match set.toList with
  | [(_, id)] => some id
  | _ => none

@[simp] theorem get?_empty (suffix : String) : empty.get? suffix = none := by
  simp [empty, get?]

@[simp] theorem get?_insert_self (set : OverloadSet) (suffix : String) (id : DefId) :
    (set.insert suffix id).get? suffix = some id := by
  simp [get?, insert]

theorem get?_insert_of_ne (set : OverloadSet) {suffix other : String} (h : suffix ≠ other)
    (id : DefId) : (set.insert suffix id).get? other = set.get? other := by
  simp [get?, insert, Std.TreeMap.getElem?_insert, h]

end OverloadSet

/-- Every definition, with the tables keyed by definitions and their nodes. -/
structure Definitions where
  entries : Array Definition
  /-- Declared definitions by node; aliases are left out -/
  byNode : Std.TreeMap NodeId DefId
  modules : Std.TreeMap DefId ModuleId
  blocks : Std.TreeMap NodeId ModuleId
  overloads : Array OverloadSet

namespace Definitions

/-- Tables without definitions. -/
def empty : Definitions := ⟨#[], ∅, ∅, ∅, #[]⟩

/-! ## Reading -/

/-- How many definitions there are. -/
def size (defs : Definitions) : Nat := defs.entries.size

/-- All definitions in the order of their ids. -/
def toList (defs : Definitions) : List Definition := defs.entries.toList

/-- The definitions that have come after the first `count`. -/
def since (defs : Definitions) (count : Nat) : List Definition :=
  (defs.entries.extract count).toList

theorem since_eq_drop (defs : Definitions) (count : Nat) :
    defs.since count = defs.toList.drop count := by
  have enough : (defs.entries.toList.drop count).length ≤ defs.entries.size - count := by simp
  simp [since, toList, List.take_of_length_le enough]

/-- The definition with an id. -/
def find? (defs : Definitions) (id : DefId) : Option Definition := defs.entries[id.index]?

/-- The definition with an id that is known to be good. -/
def get (defs : Definitions) (id : DefId) : Except Fault Definition :=
  match defs.find? id with
  | some definition => .ok definition
  | none => .error (.unknownDefinition id)

/-- Whether a definition is visible outside its module. -/
def isPub (defs : Definitions) (id : DefId) : Except Fault Bool := do
  return (← defs.get id).isPub

/-- The definition declared at a node. -/
def ofNode? (defs : Definitions) (node : NodeId) : Option DefId := defs.byNode[node]?

/-- What an alias names directly. -/
def target? (defs : Definitions) (id : DefId) : Option DefId := (defs.find? id).bind (·.target)

/-- The module of a definition. -/
def module? (defs : Definitions) (id : DefId) : Option ModuleId := defs.modules[id]?

/-- The module of a definition that is known to own one. -/
def module (defs : Definitions) (id : DefId) : Except Fault ModuleId :=
  match defs.module? id with
  | some module => .ok module
  | none => do throw (.definitionWithoutModule id (← defs.get id).ident)

/-- The module of a block. -/
def blockModule? (defs : Definitions) (node : NodeId) : Option ModuleId := defs.blocks[node]?

/-- The overload set with an id that is known to be good. -/
def overloadSet (defs : Definitions) (id : OverloadId) : Except Fault OverloadSet :=
  match defs.overloads[id.index]? with
  | some set => .ok set
  | none => .error (.unknownOverloads id)

/-- Where the first function of an overload set is named. -/
def overloadSpan (defs : Definitions) (id : OverloadId) : Except Fault Span := do
  match (← defs.overloadSet id).toList with
  | [] => throw (.emptyOverloads id)
  | (_, first) :: _ => return (← defs.get first).ident.span

/-- The module of the function with this suffix. -/
def overloadModule? (defs : Definitions) (id : OverloadId) (suffix : String) :
    Except Fault (Option ModuleId) := do
  return ((← defs.overloadSet id).get? suffix).bind defs.module?

/-- Follows targets from `id`, with the aliases passed so far. Coming back to one of them is
    an error that shows the way; `steps` bounds the walk and never runs out before that. -/
def followTargets (defs : Definitions) : Nat → List DefId → DefId → Except (List DefId) DefId
  | steps, passed, id =>
    match defs.target? id with
    | none => .ok id
    | some target =>
      if id ∈ passed then .error (passed ++ [id])
      else
        match steps with
        | 0 => .error (passed ++ [id])
        | steps + 1 => followTargets defs steps (passed ++ [id]) target

/-- What an alias finally names. Any other definition names itself. -/
def resolveAlias (defs : Definitions) (id : DefId) : Except (List DefId) DefId :=
  defs.followTargets defs.size [] id

/-! ## Writing -/

/-- The id the next definition gets. -/
def nextId (defs : Definitions) : DefId := ⟨defs.size⟩

/-- Adds a definition under the next id, in no index yet. -/
def push (defs : Definitions) (isPub : Bool) (node : NodeId) (kind : DefKind) (ident : Ident)
    (target : Option DefId) : Definitions :=
  { defs with entries := defs.entries.push ⟨defs.nextId, kind, ident, isPub, node, target⟩ }

@[simp] theorem size_push (defs : Definitions) (isPub : Bool) (node : NodeId) (kind : DefKind)
    (ident : Ident) (target : Option DefId) :
    (defs.push isPub node kind ident target).size = defs.size + 1 := by
  simp [push, size]

@[simp] theorem find?_push_self (defs : Definitions) (isPub : Bool) (node : NodeId)
    (kind : DefKind) (ident : Ident) (target : Option DefId) :
    (defs.push isPub node kind ident target).find? defs.nextId =
      some ⟨defs.nextId, kind, ident, isPub, node, target⟩ := by
  simp [push, find?, nextId, size]

theorem find?_push_of_lt (defs : Definitions) {id : DefId} (h : id.index < defs.size)
    (isPub : Bool) (node : NodeId) (kind : DefKind) (ident : Ident) (target : Option DefId) :
    (defs.push isPub node kind ident target).find? id = defs.find? id := by
  have hne : id.index ≠ defs.entries.size := Nat.ne_of_lt h
  simp [push, find?, Array.getElem?_push, hne]

/-- Declares a definition at a node. Whether its name is free is a matter of the scope it is
    bound in. -/
def define (defs : Definitions) (isPub : Bool) (node : NodeId) (kind : DefKind) (ident : Ident) :
    Except Fault (DefId × Definitions) :=
  if kind = .importAlias then .error .aliasWithoutTarget
  else
    match defs.ofNode? node with
    | some first => .error (.nodeDefinedTwice node first defs.nextId)
    | none =>
      let pushed := defs.push isPub node kind ident none
      .ok (defs.nextId, { pushed with byNode := defs.byNode.insert node defs.nextId })

/-- Makes another name for `target`, which may itself be an alias. -/
def defineAlias (defs : Definitions) (isPub : Bool) (node : NodeId) (ident : Ident)
    (target : DefId) : Except Fault (DefId × Definitions) := do
  let _ ← defs.get target
  return (defs.nextId, defs.push isPub node .importAlias ident target)

/-- Opens an empty overload set. -/
def newOverloads (defs : Definitions) : OverloadId × Definitions :=
  (⟨defs.overloads.size⟩, { defs with overloads := defs.overloads.push .empty })

/-- The set that new members go to: the given one, else a fresh one. -/
def overloadsOrNew (defs : Definitions) : Option OverloadId → OverloadId × Definitions
  | some id => (id, defs)
  | none => defs.newOverloads

/-- Puts a function under a suffix of an overload set. -/
def insertOverload (defs : Definitions) (id : OverloadId) (suffix : String) (member : DefId) :
    Definitions :=
  { defs with overloads := defs.overloads.modify id.index (·.insert suffix member) }

/-- What came of adding a function to an overload set. -/
inductive Added where
  | added (set : OverloadId)
  /-- The suffix was taken by `first`; nothing has changed -/
  | taken (first : DefId)
  deriving DecidableEq, Repr

/-- Adds a function under its suffix to an overload set, or to a fresh one. -/
def addFunction (defs : Definitions) (id : DefId) (set : Option OverloadId) (suffix : String) :
    Except Fault (Added × Definitions) := do
  let definition ← defs.get id
  unless definition.kind.isCallable do
    throw (.notCallable id definition.kind)
  let (set, defs) := defs.overloadsOrNew set
  match (← defs.overloadSet set).get? suffix with
  | some first => return (.taken first, defs)
  | none => return (.added set, defs.insertOverload set suffix id)

/-- Members that an import may take: all, or the `pub` ones. -/
def importable (defs : Definitions) (set : OverloadSet) (publicOnly : Bool) :
    Except Fault (List (String × DefId)) :=
  if publicOnly then set.toList.filterM fun (_, id) => defs.isPub id
  else return set.toList

/-- Imports members one by one, each through a fresh alias. Those whose suffix is taken stay
    out and are returned with the function that took it. -/
def importMembers (isPub : Bool) (node : NodeId) (into : OverloadId) :
    List (String × DefId) → Definitions → Except Fault (List (String × DefId) × Definitions)
  | [], defs => .ok ([], defs)
  | (suffix, target) :: members, defs => do
    match (← defs.overloadSet into).get? suffix with
    | some first =>
      let (taken, defs) ← importMembers isPub node into members defs
      return ((suffix, first) :: taken, defs)
    | none =>
      let ident := (← defs.get target).ident
      let (id, defs) ← defs.defineAlias isPub node ident target
      importMembers isPub node into members (defs.insertOverload into suffix id)

/-- Imports the members of one overload set into another, or into a fresh one. A set has
    nothing to import from itself. -/
def importOverloads (defs : Definitions) (isPub : Bool) (node : NodeId) (source : OverloadId)
    (into : Option OverloadId) (publicOnly : Bool) :
    Except Fault (OverloadId × List (String × DefId) × Definitions) := do
  let (into, defs) := defs.overloadsOrNew into
  if into = source then
    return (into, [], defs)
  else
    let members ← defs.importable (← defs.overloadSet source) publicOnly
    let (taken, defs) ← importMembers isPub node into members defs
    return (into, taken, defs)

/-- Records the module a definition owns. -/
def addModule (defs : Definitions) (id : DefId) (module : ModuleId) : Except Fault Definitions :=
  match defs.module? id with
  | some first => .error (.definitionHasModule id first)
  | none => .ok { defs with modules := defs.modules.insert id module }

/-- Records the module a block owns. -/
def addBlock (defs : Definitions) (node : NodeId) (module : ModuleId) : Except Fault Definitions :=
  match defs.blockModule? node with
  | some first => .error (.blockHasModule node first)
  | none => .ok { defs with blocks := defs.blocks.insert node module }

end Definitions

end NameResolution

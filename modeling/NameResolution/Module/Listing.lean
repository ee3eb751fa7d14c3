import NameResolution.Module.Tree

/-! # The outline of a module tree

    One line per module, indented by two spaces for each module around it, with
    the names it binds below it and then its children:

        root
          value: main()
          type: a
          mod a #1
            type: Foo
            struct Foo #2
          func main #3 -/

namespace NameResolution

/-- Blanks in front of a line at a depth. -/
def indent (depth : Nat) : String := String.ofList (List.replicate (2 * depth) ' ')

namespace ModuleTree

/-- The line of a module itself. -/
def header (defs : Definitions) (m : Module) : Except Fault String :=
  match m.owner with
  | .definition id =>
    if id = .root then return "root"
    else do
      let definition ← defs.get id
      return s!"{definition.kind.keyword} {definition.ident.name} {id.text}"
  | .block node => return s!"block {node.text}"

/-- How a bound name is listed. Each function of an overload set is listed by itself. -/
def entries (defs : Definitions) (name : String) : Binding → Except Fault (List String)
  | .definition _ => return [name]
  | .imported _ => return [s!"use {name}"]
  | .overloads id => do
    let set ← defs.overloadSet id
    return set.toList.map fun (suffix, member) =>
      if (defs.target? member).isSome then s!"use {name}{suffix}" else name ++ suffix

/-- The line of the names bound in one namespace, where there are any. -/
def namesLine (defs : Definitions) (m : Module) (ns : Namespace) : Except Fault (List String) := do
  let listed := (← (m.bindings ns).mapM fun (name, binding) => entries defs name binding).flatten
  return if listed.isEmpty then [] else [s!"{ns.text}: " ++ ", ".intercalate listed]

/-- The line of a module itself and below it those of its names, each with its depth. -/
def moduleLines (defs : Definitions) (depth : Nat) (m : Module) :
    Except Fault (List (Nat × String)) := do
  let top ← header defs m
  let names := (← Namespace.all.mapM (namesLine defs m)).flatten
  return (depth, top) :: names.map (depth + 1, ·)

/-- A module and everything in it in the order of a listing, each with its depth. Children have
    greater ids than their parent, so `steps` of the size of the tree never runs out. -/
def preorder (tree : ModuleTree) : Nat → Nat → ModuleId → Except Fault (List (Nat × Module))
  | 0, _, _ => return []
  | steps + 1, depth, id => do
    let m ← tree.get id
    let below := (← m.children.mapM (preorder tree steps (depth + 1))).flatten
    return (depth, m) :: below

/-- All modules in the order of a listing. -/
def visits (tree : ModuleTree) : Except Fault (List (Nat × Module)) :=
  tree.preorder tree.size 0 .root

/-- The outline of the whole tree. -/
def print (tree : ModuleTree) (defs : Definitions) : Except Fault String := do
  let lines := (← (← tree.visits).mapM fun (depth, m) => moduleLines defs depth m).flatten
  return String.join (lines.map fun (depth, text) => indent depth ++ text ++ "\n")

end ModuleTree

end NameResolution

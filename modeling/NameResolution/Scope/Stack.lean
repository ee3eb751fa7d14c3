import NameResolution.Module.Listing

/-! # Lexical scopes

    While the bodies of a program are walked, scopes are entered and left. A
    scope may be bound to a module, whose names are then in reach, and holds the
    local variables bound in it so far. The scope of the program is always
    there. -/

namespace NameResolution

/-- What opens a scope. -/
inductive ScopeKind where
  /-- The program -/
  | root
  /-- The members of a mod, struct, enum, trait or impl -/
  | item
  /-- A function with its parameters -/
  | func
  /-- A lambda with its parameters -/
  | lambda
  | block
  | loop
  | matchArm
  /-- The value of a constant, of an array size or of a const argument -/
  | const
  deriving DecidableEq, Repr

namespace ScopeKind

/-- All kinds. -/
def all : List ScopeKind := [root, item, func, lambda, block, loop, matchArm, const]

/-- The word for a kind. -/
def text : ScopeKind → String
  | root => "Root"
  | item => "Item"
  | func => "Func"
  | lambda => "Lambda"
  | block => "Block"
  | loop => "Loop"
  | matchArm => "MatchArm"
  | const => "Const"

/-- The kind a word of `text` stands for. -/
def ofText? (word : String) : Option ScopeKind := all.find? (·.text == word)

@[simp] theorem ofText?_text (kind : ScopeKind) : ofText? kind.text = some kind := by
  cases kind <;> decide

/-- Whether variables bound around such a scope are out of reach inside it. -/
def hidesOuterLocals : ScopeKind → Bool
  | item | func | const => true
  | _ => false

end ScopeKind

/-- A scope with the variables bound in it so far. -/
structure Scope where
  kind : ScopeKind
  /-- The module whose names are in reach -/
  module : Option ModuleId
  /-- What `Self` stands for -/
  selfItem : Option DefId
  locals : PerNamespace (Std.TreeMap String NodeId)

namespace Scope

/-- A scope without variables. -/
def new (kind : ScopeKind) (module : Option ModuleId) (selfItem : Option DefId) : Scope :=
  ⟨kind, module, selfItem, .uniform ∅⟩

/-- The node that binds a variable. -/
def find? (scope : Scope) (ns : Namespace) (name : String) : Option NodeId :=
  (scope.locals.get ns)[name]?

/-- Binds a variable; an earlier one of its name is no longer seen. -/
def define (scope : Scope) (ns : Namespace) (name : String) (node : NodeId) : Scope :=
  { scope with locals := scope.locals.set ns ((scope.locals.get ns).insert name node) }

@[simp] theorem find?_define_self (scope : Scope) (ns : Namespace) (name : String)
    (node : NodeId) : (scope.define ns name node).find? ns name = some node := by
  simp [find?, define]

theorem find?_define_of_ne (scope : Scope) (ns other : Namespace) {name name' : String}
    (h : name ≠ name') (node : NodeId) :
    (scope.define ns name node).find? other name' = scope.find? other name' := by
  by_cases same : other = ns
  · subst same; simp [find?, define, Std.TreeMap.getElem?_insert, h]
  · simp [find?, define, PerNamespace.get_set_of_ne _ same]

end Scope

/-- The scopes around a point of a program: the program's own, and those inside it, innermost
    first. -/
structure ScopeStack where
  inner : List Scope
  root : Scope

namespace ScopeStack

/-- Only the scope of the program. -/
def new : ScopeStack := ⟨[], .new .root (some .root) none⟩

/-- All scopes, innermost first. -/
def toList (stack : ScopeStack) : List Scope := stack.inner ++ [stack.root]

/-- How many scopes there are, the program's own included. -/
def depth (stack : ScopeStack) : Nat := stack.toList.length

/-- The scope that variables are bound in. -/
def innermost (stack : ScopeStack) : Scope := stack.inner.headD stack.root

/-- Enters a scope. -/
def push (stack : ScopeStack) (scope : Scope) : ScopeStack :=
  { stack with inner := scope :: stack.inner }

/-- Leaves the innermost scope. The program's own is never left. -/
def pop (stack : ScopeStack) : Except Fault (Scope × ScopeStack) :=
  match stack.inner with
  | [] => .error .poppedRootScope
  | scope :: inner => .ok (scope, { stack with inner })

/-- Binds a variable in the innermost scope. -/
def define (stack : ScopeStack) (ns : Namespace) (name : String) (node : NodeId) : ScopeStack :=
  match stack.inner with
  | [] => { stack with root := stack.root.define ns name node }
  | scope :: inner => { stack with inner := scope.define ns name node :: inner }

/-- The innermost module that a scope is bound to. -/
def nearestModule (stack : ScopeStack) : ModuleId :=
  (stack.toList.findSome? (·.module)).getD .root

@[simp] theorem toList_push (stack : ScopeStack) (scope : Scope) :
    (stack.push scope).toList = scope :: stack.toList := rfl

@[simp] theorem pop_push (stack : ScopeStack) (scope : Scope) :
    (stack.push scope).pop = .ok (scope, stack) := rfl

@[simp] theorem innermost_push (stack : ScopeStack) (scope : Scope) :
    (stack.push scope).innermost = scope := rfl

@[simp] theorem innermost_define (stack : ScopeStack) (ns : Namespace) (name : String)
    (node : NodeId) :
    (stack.define ns name node).innermost = stack.innermost.define ns name node := by
  unfold define innermost
  cases stack.inner <;> rfl

@[simp] theorem depth_define (stack : ScopeStack) (ns : Namespace) (name : String)
    (node : NodeId) : (stack.define ns name node).depth = stack.depth := by
  unfold define depth toList
  cases h : stack.inner <;> simp

/-! ## Listing -/

/-- One scope of a listing: its depth, kind and module, and its variables by name. -/
def line (tree : ModuleTree) (depth : Nat) (scope : Scope) : Except Fault String := do
  let owner ← match scope.module with
    | some id => do pure (" module " ++ (← tree.get id).owner.longText)
    | none => pure ""
  let locals := Namespace.all.map fun ns =>
    let names := (scope.locals.get ns).keys
    if names.isEmpty then "" else s!" {ns.text}: " ++ ", ".intercalate names
  return indent depth ++ s!"[{depth}] {scope.kind.text}" ++ owner ++ String.join locals ++ "\n"

/-- All scopes from the program's own inward, a line each. -/
def dump (tree : ModuleTree) (stack : ScopeStack) : Except Fault String := do
  let lines ← stack.toList.reverse.zipIdx.mapM fun (scope, depth) => line tree depth scope
  return String.join lines

end ScopeStack

end NameResolution

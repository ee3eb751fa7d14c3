import NameResolution.Syntax.Basic

/-! # Definitions

    Everything a program can declare gets a definition with a number of its
    own. Names live in three independent namespaces; the kind of a definition
    says which of them its name is bound in. -/

namespace NameResolution

/-- The number of a definition: its position among all of them. -/
structure DefId where
  index : Nat
  deriving DecidableEq, Repr

namespace DefId

instance : Ord DefId := ⟨compareOn index⟩

instance : Std.TransOrd DefId := inferInstanceAs (Std.TransCmp (compareOn index))

instance : Std.LawfulEqOrd DefId where
  eq_of_compare {a b} h := by
    cases a; cases b
    exact congrArg mk (Std.LawfulEqOrd.eq_of_compare h)

/-- The program itself is the first definition. -/
def root : DefId := ⟨0⟩

/-- How a definition is written in messages. -/
def text (id : DefId) : String := s!"#{id.index}"

/-- The long form, for places that show whole values. -/
def longText (id : DefId) : String := s!"DefId \x7b index: DefIndex({id.index}) \x7d"

end DefId

/-- The number of a set of overloaded functions. -/
structure OverloadId where
  index : Nat
  deriving DecidableEq, Repr

/-- How an overload set is written in messages. -/
def OverloadId.text (id : OverloadId) : String := s!"fos#{id.index}"

/-- The number of a module: its position among all of them. -/
structure ModuleId where
  index : Nat
  deriving DecidableEq, Repr

namespace ModuleId

/-- The module of the program itself. -/
def root : ModuleId := ⟨0⟩

/-- How a module is written in messages. -/
def longText (id : ModuleId) : String := s!"ModuleId({id.index})"

end ModuleId

/-- The three independent tables of names. -/
inductive Namespace where
  | value
  | type
  | lifetime
  deriving DecidableEq, Repr

namespace Namespace

/-- All namespaces in the order in which they are searched and listed. -/
def all : List Namespace := [value, type, lifetime]

@[simp] theorem mem_all (ns : Namespace) : ns ∈ all := by cases ns <;> decide

/-- The word for a namespace. -/
def text : Namespace → String
  | value => "value"
  | type => "type"
  | lifetime => "lifetime"

end Namespace

/-- One thing per namespace. -/
structure PerNamespace (α : Type) where
  value : α
  type : α
  lifetime : α

namespace PerNamespace

variable {α : Type}

/-- The same thing in each namespace. -/
def uniform (a : α) : PerNamespace α := ⟨a, a, a⟩

/-- The thing of one namespace. -/
def get (p : PerNamespace α) : Namespace → α
  | .value => p.value
  | .type => p.type
  | .lifetime => p.lifetime

/-- Puts another thing in one namespace. -/
def set (p : PerNamespace α) (ns : Namespace) (a : α) : PerNamespace α :=
  match ns with
  | .value => { p with value := a }
  | .type => { p with type := a }
  | .lifetime => { p with lifetime := a }

@[simp] theorem get_uniform (a : α) (ns : Namespace) : (uniform a).get ns = a := by
  cases ns <;> rfl

@[simp] theorem get_set_self (p : PerNamespace α) (ns : Namespace) (a : α) :
    (p.set ns a).get ns = a := by
  cases ns <;> rfl

theorem get_set_of_ne (p : PerNamespace α) {ns other : Namespace} (h : other ≠ ns) (a : α) :
    (p.set ns a).get other = p.get other := by
  cases ns <;> cases other <;> first | rfl | exact absurd rfl h

end PerNamespace

/-- What a definition declares. -/
inductive DefKind where
  | const
  | constParam
  | enum
  | func
  | impl
  | init
  | lifetime
  | mod
  | struct
  | trait
  | typeAlias
  | typeParam
  | variant
  /-- Made by a `use` declaration: another name for its target -/
  | importAlias
  deriving DecidableEq, Repr

namespace DefKind

/-- All kinds. -/
def all : List DefKind :=
  [const, constParam, enum, func, impl, init, lifetime, mod, struct, trait, typeAlias, typeParam,
    variant, importAlias]

/-- The namespace a kind is bound in. An alias lives where its target does, and an impl has no
    name to bind. -/
def namespace? : DefKind → Option Namespace
  | const | constParam | func | init => some .value
  | enum | mod | struct | trait | typeAlias | typeParam | variant => some .type
  | lifetime => some .lifetime
  | impl | importAlias => none

/-- The word for a kind in listings. -/
def keyword : DefKind → String
  | const => "const"
  | constParam => "const-param"
  | enum => "enum"
  | func => "func"
  | impl => "impl"
  | init => "init"
  | lifetime => "lifetime"
  | mod => "mod"
  | struct => "struct"
  | trait => "trait"
  | typeAlias => "type"
  | typeParam => "type-param"
  | variant => "variant"
  | importAlias => "use"

/-- The words for a kind in diagnostics. -/
def description : DefKind → String
  | const => "a constant"
  | constParam => "a const parameter"
  | enum => "an enum"
  | func => "a function"
  | impl => "an impl"
  | init => "an initializer"
  | lifetime => "a lifetime"
  | mod => "a module"
  | struct => "a struct"
  | trait => "a trait"
  | typeAlias => "a type alias"
  | typeParam => "a type parameter"
  | variant => "an enum variant"
  | importAlias => "an import"

/-- Kinds that `Self` can stand for. -/
def isSelfItem : DefKind → Bool
  | struct | enum | trait | impl => true
  | _ => false

/-- Kinds that are called, and so told apart by argument labels. An alias may name one. -/
def isCallable : DefKind → Bool
  | func | init | importAlias => true
  | _ => false

/-- Kinds whose unknown members are left to type checking. -/
def isTypeLike : DefKind → Bool
  | struct | enum | trait | typeAlias | typeParam | impl => true
  | _ => false

/-- The kind a word of `keyword` stands for. -/
def ofKeyword? (word : String) : Option DefKind := all.find? (·.keyword == word)

@[simp] theorem ofKeyword?_keyword (kind : DefKind) : ofKeyword? kind.keyword = some kind := by
  cases kind <;> decide

end DefKind

/-- A definition. -/
structure Definition where
  id : DefId
  kind : DefKind
  ident : Ident
  isPub : Bool
  /-- The node it is declared at; for an alias, the `use` tree it comes from -/
  node : NodeId
  /-- What an alias names; nothing for any other kind -/
  target : Option DefId
  deriving DecidableEq, Repr

end NameResolution

import NameResolution.Import.Directive
import NameResolution.Scope.Stack

/-! # Occurrences

    Every node of a program with the regions of the text around it. A region is
    a piece of the text that opens a scope: it may own a module, and names are
    bound in it. Regions are handed down the syntax tree as they are in the
    text, so nothing is ever left or taken back: what a construct binds is
    handed to the parts that see it, and to no other.

    Both passes go through the same nodes in ways of their own. What they have
    in common is said by the occurrences of a program. -/

namespace NameResolution

/-! ## Regions -/

/-- What owns the module of a region, if it has one. -/
inductive RegionOwner where
  | none
  /-- The definition made at a node -/
  | item (node : NodeId)
  | block (node : NodeId)
  deriving DecidableEq, Repr

/-- Whether the owner is a block. -/
def RegionOwner.isBlock : RegionOwner → Bool
  | block _ => true
  | _ => false

/-- A name that a pattern binds. -/
structure Binder where
  name : String
  node : NodeId
  /-- The name stands alone where a variant may be meant -/
  bare : Bool
  deriving DecidableEq, Repr

/-- A piece of the text that opens a scope, with the names bound in it so far. -/
structure Region where
  kind : ScopeKind
  owner : RegionOwner
  /-- The latest comes first -/
  binders : List Binder
  deriving DecidableEq, Repr

/-- The regions around a point of the text, innermost first. -/
abbrev Regions := List Region

namespace Regions

/-- Enters a region that owns no module. -/
def plain (kind : ScopeKind) (around : Regions) : Regions := ⟨kind, .none, []⟩ :: around

/-- Enters the members of an item. -/
def item (node : NodeId) (around : Regions) : Regions := ⟨.item, .item node, []⟩ :: around

/-- Enters a function, which owns a module if it can declare something. -/
def func (node : NodeId) (owns : Bool) (around : Regions) : Regions :=
  ⟨.func, if owns then .item node else .none, []⟩ :: around

/-- Enters a block, which owns a module if it declares items. -/
def block (kind : ScopeKind) (node : NodeId) (owns : Bool) (around : Regions) : Regions :=
  ⟨kind, if owns then .block node else .none, []⟩ :: around

/-- Binds names in the innermost region, one after the other. -/
def binding (binders : List Binder) : Regions → Regions
  | [] => []
  | region :: around => { region with binders := binders.reverse ++ region.binders } :: around

/-- The innermost owner of a module. -/
def home : Regions → RegionOwner
  | [] => .none
  | region :: around => if region.owner = .none then home around else region.owner

@[simp] theorem binding_nil (around : Regions) : around.binding [] = around := by
  cases around <;> rfl

@[simp] theorem binding_binding (first second : List Binder) (around : Regions) :
    (around.binding first).binding second = around.binding (first ++ second) := by
  cases around <;> simp [binding]

@[simp] theorem home_binding (binders : List Binder) (around : Regions) :
    (around.binding binders).home = around.home := by
  cases around <;> simp [binding, home]

@[simp] theorem home_plain (kind : ScopeKind) (around : Regions) :
    (around.plain kind).home = around.home := by
  simp [plain, home]

@[simp] theorem home_item (node : NodeId) (around : Regions) :
    (around.item node).home = .item node := by
  simp [item, home]

@[simp] theorem home_func (node : NodeId) (owns : Bool) (around : Regions) :
    (around.func node owns).home = if owns then .item node else around.home := by
  cases owns <;> simp [func, home]

@[simp] theorem home_block (kind : ScopeKind) (node : NodeId) (owns : Bool) (around : Regions) :
    (around.block kind node owns).home = if owns then .block node else around.home := by
  cases owns <;> simp [block, home]

end Regions

/-! ## Names bound by patterns -/

mutual

/-- The names a pattern binds from left to right. With `variants`, a bare name may stand for a
    variant. -/
def Pat.binders (variants : Bool) : Pat → List Binder
  | .ident id name none => [⟨name.name, id, variants⟩]
  | .ident id name (some sub) => ⟨name.name, id, false⟩ :: sub.binders variants
  | .borrow inner | .paren inner => inner.binders variants
  | .struct _ _ fields => bindersOfFields variants fields
  | .tuple pats => bindersOfPats variants pats
  | .path _ _ | .literal | .rest | .wildcard => []

def bindersOfPats (variants : Bool) : List Pat → List Binder
  | [] => []
  | pat :: pats => pat.binders variants ++ bindersOfPats variants pats

def bindersOfFields (variants : Bool) : List FieldPat → List Binder
  | [] => []
  | .mk id name none :: fields => ⟨name.name, id, false⟩ :: bindersOfFields variants fields
  | .mk _ _ (some pat) :: fields => pat.binders variants ++ bindersOfFields variants fields

end

/-- The names that parameters bind. They are always new. -/
def bindersOfParams : List Param → List Binder
  | [] => []
  | .mk _ pat _ _ :: params => pat.binders false ++ bindersOfParams params

/-- The names a statement binds for those behind it in its block. -/
def Stmt.binders : Stmt → List Binder
  | .letBind pat _ _ => pat.binders true
  | _ => []

/-! ## Roles -/

/-- What a node of the syntax tree is for. -/
inductive Role where
  /-- Something that owns no module is declared -/
  | declared
  /-- An item with its members, other than a function -/
  | item
  | func (owns : Bool)
  | block (owns : Bool)
  /-- A leaf of a `use` declaration -/
  | imported
  /-- A name that is always new -/
  | binder
  /-- A name that is new unless it is a variant in reach -/
  | bareName (name : Ident)
  /-- A path expression, be it a callee -/
  | expr (path : Path)
  /-- A field of a struct expression that reads the variable of its name -/
  | field (name : Ident)
  | pattern (path : Path)
  | type (path : Path)
  /-- A path as a generic argument -/
  | typeArg (path : Path)
  | lifetime (name : Ident)
  | selfValue (span : Span)
  deriving DecidableEq, Repr

/-- A node with the regions around it. -/
structure Occurrence where
  node : NodeId
  role : Role
  around : Regions
  deriving DecidableEq, Repr

namespace Occurrence

mutual

def ofGenericArg (around : Regions) : GenericArg → List Occurrence
  | .type (.path path args) => ⟨path.id, .typeArg path, around⟩ :: ofGenericArgs around args
  | .type ty => ofTy around ty
  | .lifetime id name => [⟨id, .lifetime name, around⟩]
  | .const value => ofExpr (around.plain .const) value

def ofGenericArgs (around : Regions) : List GenericArg → List Occurrence
  | [] => []
  | arg :: args => ofGenericArg around arg ++ ofGenericArgs around args

def ofTy (around : Regions) : Ty → List Occurrence
  | .path path args => ⟨path.id, .type path, around⟩ :: ofGenericArgs around args
  | .array elem size => ofTy around elem ++ ofExpr (around.plain .const) size
  | .compound _ parts => ofTys around parts

def ofTys (around : Regions) : List Ty → List Occurrence
  | [] => []
  | ty :: tys => ofTy around ty ++ ofTys around tys

def ofTy? (around : Regions) : Option Ty → List Occurrence
  | none => []
  | some ty => ofTy around ty

/-- The parameters of a lambda are seen in its body only, and the names of a match arm in that
    arm only. -/
def ofExpr (around : Regions) : Expr → List Occurrence
  | .path path args => ⟨path.id, .expr path, around⟩ :: ofGenericArgs around args
  | .selfValue id span => [⟨id, .selfValue span, around⟩]
  | .operation _ operands => ofExprs around operands
  | .block .plain block => ofBlock .block around block
  | .block .loop block => ofBlock .loop around block
  | .ifElse cond thenBlock elseBlock =>
    ofExpr around cond ++ ofBlock? around thenBlock ++ ofBlock? around elseBlock
  | .invoke callee args => ofExpr around callee ++ ofArgs around args
  | .lambda params ret body =>
    ofParamTypes around params ++ ofTy? around ret
      ++ (ofParamPats (around.plain .lambda) params
        ++ ofExpr ((around.plain .lambda).binding (bindersOfParams params)) body)
  | .matchOn subject arms => ofExpr around subject ++ ofArms around arms
  | .struct path args fields =>
    ⟨path.id, .type path, around⟩ :: ofGenericArgs around args ++ ofFieldInits around fields

def ofExprs (around : Regions) : List Expr → List Occurrence
  | [] => []
  | expr :: exprs => ofExpr around expr ++ ofExprs around exprs

def ofExpr? (around : Regions) : Option Expr → List Occurrence
  | none => []
  | some expr => ofExpr around expr

def ofArgs (around : Regions) : List Arg → List Occurrence
  | [] => []
  | .mk _ value :: args => ofExpr around value ++ ofArgs around args

def ofFieldInits (around : Regions) : List FieldInit → List Occurrence
  | [] => []
  | .mk id name none :: fields => ⟨id, .field name, around⟩ :: ofFieldInits around fields
  | .mk _ _ (some value) :: fields => ofExpr around value ++ ofFieldInits around fields

def ofArms (around : Regions) : List Arm → List Occurrence
  | [] => []
  | .mk pat body :: arms =>
    (ofPat true (around.plain .matchArm) pat
        ++ ofExpr ((around.plain .matchArm).binding (pat.binders true)) body)
      ++ ofArms around arms

/-- The types and defaults of parameters. -/
def ofParamTypes (around : Regions) : List Param → List Occurrence
  | [] => []
  | .mk _ _ ty default :: params =>
    ofTy? around ty ++ ofExpr? around default ++ ofParamTypes around params

def ofParamPats (around : Regions) : List Param → List Occurrence
  | [] => []
  | .mk _ pat _ _ :: params =>
    ofPat false around pat ++ ofParamPats (around.binding (pat.binders false)) params

def ofBlock (kind : ScopeKind) (around : Regions) : Block → List Occurrence
  | .mk id stmts =>
    ⟨id, .block (stmts.any Stmt.isItem), around⟩
      :: ofStmts (around.block kind id (stmts.any Stmt.isItem)) stmts

def ofBlock? (around : Regions) : Option Block → List Occurrence
  | none => []
  | some block => ofBlock .block around block

/-- A `let` is not seen in its own type and value, and a `for` only in its body. -/
def ofStmt (around : Regions) : Stmt → List Occurrence
  | .expr value => ofExpr around value
  | .item item => ofItem around item
  | .letBind pat ty value => ofTy? around ty ++ ofExpr? around value ++ ofPat true around pat
  | .forLoop pat iter body =>
    ofExpr around iter
      ++ (ofPat true (around.plain .loop) pat
        ++ ofBlock .block ((around.plain .loop).binding (pat.binders true)) body)
  | .whileLoop cond body => ofExpr around cond ++ ofBlock .loop around body

/-- What a statement binds is seen by those behind it. -/
def ofStmts (around : Regions) : List Stmt → List Occurrence
  | [] => []
  | stmt :: stmts => ofStmt around stmt ++ ofStmts (around.binding stmt.binders) stmts

def ofPat (variants : Bool) (around : Regions) : Pat → List Occurrence
  | .ident id name none => [⟨id, if variants then .bareName name else .binder, around⟩]
  | .ident id name (some sub) =>
    ⟨id, .binder, around⟩ :: ofPat variants (around.binding [⟨name.name, id, false⟩]) sub
  | .path path args => ⟨path.id, .pattern path, around⟩ :: ofGenericArgs around args
  | .struct path args fields =>
    ⟨path.id, .type path, around⟩ :: ofGenericArgs around args
      ++ ofFieldPats variants around fields
  | .borrow inner | .paren inner => ofPat variants around inner
  | .tuple pats => ofPats variants around pats
  | .literal | .rest | .wildcard => []

def ofPats (variants : Bool) (around : Regions) : List Pat → List Occurrence
  | [] => []
  | pat :: pats =>
    ofPat variants around pat ++ ofPats variants (around.binding (pat.binders variants)) pats

def ofFieldPats (variants : Bool) (around : Regions) : List FieldPat → List Occurrence
  | [] => []
  | .mk id name none :: fields =>
    ⟨id, .binder, around⟩
      :: ofFieldPats variants (around.binding [⟨name.name, id, false⟩]) fields
  | .mk _ _ (some pat) :: fields =>
    ofPat variants around pat
      ++ ofFieldPats variants (around.binding (pat.binders variants)) fields

def ofGenericParam (around : Regions) : GenericParam → List Occurrence
  | .type id _ bound => ⟨id, .declared, around⟩ :: ofTy? around bound
  | .lifetime id _ => [⟨id, .declared, around⟩]
  | .const id _ ty default => ⟨id, .declared, around⟩ :: ofTy around ty ++ ofExpr? around default

def ofGenericParams (around : Regions) : List GenericParam → List Occurrence
  | [] => []
  | param :: params => ofGenericParam around param ++ ofGenericParams around params

def ofVariants (around : Regions) : List Variant → List Occurrence
  | [] => []
  | .mk id _ types :: variants =>
    ⟨id, .declared, around⟩ :: ofTys around types ++ ofVariants around variants

/-- The parameters of a function are seen in its body only. -/
def ofItem (around : Regions) : Item → List Occurrence
  | .const head _ ty value =>
    ⟨head.id, .declared, around⟩ :: ofTy? around ty ++ ofExpr? (around.plain .const) value
  | .enum head _ generics variants =>
    ⟨head.id, .item, around⟩ :: ofGenericParams (around.item head.id) generics
      ++ ofVariants (around.item head.id) variants
  | .func head _ _ generics params ret body =>
    let owns := body.isSome || !generics.isEmpty
    let inside := around.func head.id owns
    ⟨head.id, .func owns, around⟩ :: ofGenericParams inside generics ++ ofParamTypes inside params
      ++ ofTy? inside ret ++ ofParamPats inside params
      ++ ofExpr? (inside.binding (bindersOfParams params)) body
  | .impl head generics ofTrait forTy members =>
    ⟨head.id, .item, around⟩ :: ofGenericParams (around.item head.id) generics
      ++ ofTy? (around.item head.id) ofTrait ++ ofTy (around.item head.id) forTy
      ++ ofItems (around.item head.id) members
  | .mod head _ items => ⟨head.id, .item, around⟩ :: ofItems (around.item head.id) items
  | .struct head _ generics fields =>
    ⟨head.id, .item, around⟩ :: ofGenericParams (around.item head.id) generics
      ++ ofTys (around.item head.id) fields
  | .trait head _ generics supers members =>
    ⟨head.id, .item, around⟩ :: ofGenericParams (around.item head.id) generics
      ++ ofTys (around.item head.id) supers ++ ofItems (around.item head.id) members
  | .typeAlias head _ ty => ⟨head.id, .declared, around⟩ :: ofTy? around ty
  | .useDecl head tree => (tree.imports head.isPub).map fun i => ⟨i.node, .imported, around⟩

def ofItems (around : Regions) : List Item → List Occurrence
  | [] => []
  | item :: items => ofItem around item ++ ofItems around items

end

end Occurrence

namespace Program

/-- The region of the whole program. -/
def region (program : Program) : Region := ⟨.root, .item program.id, []⟩

/-- Every node of a program but its own, in the order in which names come into reach. -/
def occurrences (program : Program) : List Occurrence :=
  Occurrence.ofItems [program.region] program.items

/-- Every node of a program. -/
def nodes (program : Program) : List NodeId := program.id :: program.occurrences.map (·.node)

end Program

end NameResolution

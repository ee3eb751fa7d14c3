import NameResolution.Syntax.Basic

/-! # The syntax tree

    What the parser hands over, kept as far as name resolution can look at it.
    Forms that only hold other expressions, types or patterns share one
    constructor and carry a tag: their parts are resolved from left to right
    and nothing else. The generic arguments of all segments of a path stand in
    one list, in the order they are written in. Names of fields, and
    literals, belong to type checking and are left out. -/

namespace NameResolution

/-- Expressions that bind nothing and open no scope: their operands are resolved in order. -/
inductive Operation where
  | assign | borrow | break | continue | deref | field | binary | list | literal | paren
  | unary | question | return | spread | subscript | tuple | unit
  deriving DecidableEq, Repr

/-- Types built of other types. The result of a function type is its last part. -/
inductive TyForm where
  | func | paren | slice | tuple | unit
  deriving DecidableEq, Repr

/-- A function is called by its name, an initializer by the name of its type. -/
inductive FuncKind where
  | func | init
  deriving DecidableEq, Repr

/-- A block is run once, or again and again after `loop`. -/
inductive BlockKind where
  | plain | loop
  deriving DecidableEq, Repr

/-- What every item has in front. -/
structure ItemHead where
  id : NodeId
  isPub : Bool
  span : Span
  deriving DecidableEq, Repr

/-- What a `use` declaration names. A group sets its lead in front of every tree inside. -/
inductive UseTree where
  | path (id : NodeId) (span : Span) (path : UsePath) (rebind : Option Ident)
  | group (lead : Option UsePath) (trees : List UseTree)
  | glob (id : NodeId) (span : Span) (lead : Option UsePath)

mutual

/-- A generic argument of a path segment. -/
inductive GenericArg where
  | type (ty : Ty)
  | lifetime (id : NodeId) (name : Ident)
  | const (value : Expr)

/-- A type as written. -/
inductive Ty where
  | path (path : Path) (args : List GenericArg)
  | array (elem : Ty) (size : Expr)
  | compound (form : TyForm) (parts : List Ty)

/-- An expression. -/
inductive Expr where
  | path (path : Path) (args : List GenericArg)
  /-- The `self` value -/
  | selfValue (id : NodeId) (span : Span)
  | operation (form : Operation) (operands : List Expr)
  | block (kind : BlockKind) (block : Block)
  | ifElse (cond : Expr) (thenBlock elseBlock : Option Block)
  | invoke (callee : Expr) (args : List Arg)
  | lambda (params : List Param) (ret : Option Ty) (body : Expr)
  | matchOn (subject : Expr) (arms : List Arm)
  | struct (path : Path) (args : List GenericArg) (fields : List FieldInit)

/-- An argument of a call. -/
inductive Arg where
  | mk (label : Option Ident) (value : Expr)

/-- A field of a struct expression. Without a value it reads the variable of its name. -/
inductive FieldInit where
  | mk (id : NodeId) (name : Ident) (value : Option Expr)

/-- An arm of a match. -/
inductive Arm where
  | mk (pat : Pat) (body : Expr)

/-- A parameter of a function, an initializer or a lambda. A lambda's has neither label nor
    default. -/
inductive Param where
  | mk (label : Option Ident) (pat : Pat) (ty : Option Ty) (default : Option Expr)

/-- Statements in braces. -/
inductive Block where
  | mk (id : NodeId) (stmts : List Stmt)

/-- A statement. -/
inductive Stmt where
  | expr (value : Expr)
  | item (item : Item)
  | letBind (pat : Pat) (ty : Option Ty) (value : Option Expr)
  | forLoop (pat : Pat) (iter : Expr) (body : Block)
  | whileLoop (cond : Expr) (body : Block)

/-- A pattern. -/
inductive Pat where
  | ident (id : NodeId) (name : Ident) (sub : Option Pat)
  | path (path : Path) (args : List GenericArg)
  | struct (path : Path) (args : List GenericArg) (fields : List FieldPat)
  | borrow (inner : Pat)
  | paren (inner : Pat)
  | tuple (pats : List Pat)
  | literal
  | rest
  | wildcard

/-- A field of a struct pattern. Without a pattern it binds its own name. -/
inductive FieldPat where
  | mk (id : NodeId) (name : Ident) (pat : Option Pat)

/-- A generic parameter of an item. -/
inductive GenericParam where
  | type (id : NodeId) (name : Ident) (bound : Option Ty)
  | lifetime (id : NodeId) (name : Ident)
  | const (id : NodeId) (name : Ident) (ty : Ty) (default : Option Expr)

/-- A variant of an enum with the types of its fields. -/
inductive Variant where
  | mk (id : NodeId) (name : Ident) (types : List Ty)

/-- An item. The trait of an impl and the supertraits of a trait are types written as paths. -/
inductive Item where
  | const (head : ItemHead) (name : Ident) (ty : Option Ty) (value : Option Expr)
  | enum (head : ItemHead) (name : Ident) (generics : List GenericParam) (variants : List Variant)
  | func (head : ItemHead) (kind : FuncKind) (name : Ident) (generics : List GenericParam)
      (params : List Param) (ret : Option Ty) (body : Option Expr)
  | impl (head : ItemHead) (generics : List GenericParam) (ofTrait : Option Ty) (forTy : Ty)
      (members : List Item)
  | mod (head : ItemHead) (name : Ident) (items : List Item)
  | struct (head : ItemHead) (name : Ident) (generics : List GenericParam) (fields : List Ty)
  | trait (head : ItemHead) (name : Ident) (generics : List GenericParam) (supers : List Ty)
      (members : List Item)
  | typeAlias (head : ItemHead) (name : Ident) (ty : Option Ty)
  | useDecl (head : ItemHead) (tree : UseTree)

end

/-- A whole program: the items of its entry file. -/
structure Program where
  id : NodeId
  span : Span
  items : List Item

namespace Item

/-- What stands in front of the item. -/
def head : Item → ItemHead
  | const head .. | enum head .. | func head .. | impl head .. | mod head .. | struct head ..
  | trait head .. | typeAlias head .. | useDecl head .. => head

/-- The declared name. Impls and `use` declarations have none. -/
def name? : Item → Option Ident
  | const _ name .. | enum _ name .. | func _ _ name .. | mod _ name _ | struct _ name ..
  | trait _ name .. | typeAlias _ name _ => some name
  | impl .. | useDecl .. => none

end Item

/-- Whether a type is a path. -/
def Ty.isPath : Ty → Bool
  | .path .. => true
  | _ => false

namespace Pat

/-- The name of a pattern that is that name alone, parentheses aside. -/
def asIdent : Pat → Option Ident
  | .ident _ name none => some name
  | .paren inner => inner.asIdent
  | _ => none

/-- Whether a pattern is `_`. -/
def isWildcard : Pat → Bool
  | .wildcard => true
  | _ => false

end Pat

/-- Whether a statement is an item. -/
def Stmt.isItem : Stmt → Bool
  | .item _ => true
  | _ => false

/-- Whether an item is declared directly inside the block. -/
def Block.declaresItems : Block → Bool
  | .mk _ stmts => stmts.any Stmt.isItem

end NameResolution

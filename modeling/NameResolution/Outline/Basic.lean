import NameResolution.Import.Directive
import NameResolution.Syntax.Label

/-! # What a program declares

    The first pass sees a program as a list of steps: what is declared, in the
    order of the text, and where modules begin and end. Expressions, types and
    patterns take part because blocks inside them can declare items, be it in
    an array size or a const argument. -/

namespace NameResolution

/-- A step through the declarations of a program. -/
inductive OutlineStep where
  /-- A name that owns no module -/
  | declare (isPub : Bool) (node : NodeId) (kind : DefKind) (ident : Ident)
  /-- A name and the module of its members, up to the matching `leave` -/
  | enterItem (isPub : Bool) (node : NodeId) (kind : DefKind) (ident : Ident)
  /-- An impl: it owns a module but binds no name -/
  | enterImpl (isPub : Bool) (node : NodeId) (span : Span)
  /-- A function without a module: it has neither body nor generics -/
  | declareFunc (isPub : Bool) (node : NodeId) (kind : FuncKind) (ident : Ident) (suffix : String)
  /-- A function with its module -/
  | enterFunc (isPub : Bool) (node : NodeId) (kind : FuncKind) (ident : Ident) (suffix : String)
  /-- A block that declares items -/
  | enterBlock (node : NodeId)
  | leave
  | imports (i : Import)
  deriving DecidableEq, Repr

/-- The outline of a program: all its declarations, nested as their modules are. -/
abbrev Outline := List OutlineStep

namespace Outline

mutual

def ofGenericArg : GenericArg → Outline
  | .type ty => ofTy ty
  | .lifetime _ _ => []
  | .const value => ofExpr value

def ofGenericArgs : List GenericArg → Outline
  | [] => []
  | arg :: args => ofGenericArg arg ++ ofGenericArgs args

def ofTy : Ty → Outline
  | .path _ args => ofGenericArgs args
  | .array elem size => ofTy elem ++ ofExpr size
  | .compound _ parts => ofTys parts

def ofTys : List Ty → Outline
  | [] => []
  | ty :: tys => ofTy ty ++ ofTys tys

def ofTy? : Option Ty → Outline
  | none => []
  | some ty => ofTy ty

def ofExpr : Expr → Outline
  | .path _ args => ofGenericArgs args
  | .selfValue _ _ => []
  | .operation _ operands => ofExprs operands
  | .block _ block => ofBlock block
  | .ifElse cond thenBlock elseBlock => ofExpr cond ++ ofBlock? thenBlock ++ ofBlock? elseBlock
  | .invoke callee args => ofExpr callee ++ ofArgs args
  | .lambda params ret body => ofParams params ++ ofTy? ret ++ ofExpr body
  | .matchOn subject arms => ofExpr subject ++ ofArms arms
  | .struct _ args fields => ofGenericArgs args ++ ofFieldInits fields

def ofExprs : List Expr → Outline
  | [] => []
  | expr :: exprs => ofExpr expr ++ ofExprs exprs

def ofExpr? : Option Expr → Outline
  | none => []
  | some expr => ofExpr expr

def ofArgs : List Arg → Outline
  | [] => []
  | .mk _ value :: args => ofExpr value ++ ofArgs args

def ofFieldInits : List FieldInit → Outline
  | [] => []
  | .mk _ _ value :: fields => ofExpr? value ++ ofFieldInits fields

def ofArms : List Arm → Outline
  | [] => []
  | .mk pat body :: arms => ofPat pat ++ ofExpr body ++ ofArms arms

def ofParams : List Param → Outline
  | [] => []
  | .mk _ pat ty default :: params => ofPat pat ++ ofTy? ty ++ ofExpr? default ++ ofParams params

/-- Only a block that declares items has a module of its own. -/
def ofBlock : Block → Outline
  | .mk id stmts =>
    if stmts.any Stmt.isItem then .enterBlock id :: ofStmts stmts ++ [.leave] else ofStmts stmts

def ofBlock? : Option Block → Outline
  | none => []
  | some block => ofBlock block

def ofStmt : Stmt → Outline
  | .expr value => ofExpr value
  | .item item => ofItem item
  | .letBind pat ty value => ofPat pat ++ ofTy? ty ++ ofExpr? value
  | .forLoop pat iter body => ofPat pat ++ ofExpr iter ++ ofBlock body
  | .whileLoop cond body => ofExpr cond ++ ofBlock body

def ofStmts : List Stmt → Outline
  | [] => []
  | stmt :: stmts => ofStmt stmt ++ ofStmts stmts

def ofPat : Pat → Outline
  | .ident _ _ sub => ofPat? sub
  | .path _ args => ofGenericArgs args
  | .struct _ args fields => ofGenericArgs args ++ ofFieldPats fields
  | .borrow inner | .paren inner => ofPat inner
  | .tuple pats => ofPats pats
  | .literal | .rest | .wildcard => []

def ofPats : List Pat → Outline
  | [] => []
  | pat :: pats => ofPat pat ++ ofPats pats

def ofPat? : Option Pat → Outline
  | none => []
  | some pat => ofPat pat

def ofFieldPats : List FieldPat → Outline
  | [] => []
  | .mk _ _ pat :: fields => ofPat? pat ++ ofFieldPats fields

def ofGenericParam : GenericParam → Outline
  | .type id name bound => .declare false id .typeParam name :: ofTy? bound
  | .lifetime id name => [.declare false id .lifetime name]
  | .const id name ty default =>
    .declare false id .constParam name :: ofTy ty ++ ofExpr? default

def ofGenericParams : List GenericParam → Outline
  | [] => []
  | param :: params => ofGenericParam param ++ ofGenericParams params

/-- Variants are as visible as their enum. -/
def ofVariants : List Variant → Outline
  | [] => []
  | .mk id name types :: variants =>
    .declare true id .variant name :: ofTys types ++ ofVariants variants

def ofItem : Item → Outline
  | .const head name ty value =>
    .declare head.isPub head.id .const name :: ofTy? ty ++ ofExpr? value
  | .enum head name generics variants =>
    .enterItem head.isPub head.id .enum name :: ofGenericParams generics ++ ofVariants variants
      ++ [.leave]
  | .func head kind name generics params ret body =>
    let inner := ofGenericParams generics ++ ofParams params ++ ofTy? ret ++ ofExpr? body
    let suffix := Param.suffix params
    if body.isSome || !generics.isEmpty then
      .enterFunc head.isPub head.id kind name suffix :: inner ++ [.leave]
    else .declareFunc head.isPub head.id kind name suffix :: inner
  | .impl head generics ofTrait forTy members =>
    .enterImpl head.isPub head.id head.span :: ofGenericParams generics ++ ofTy? ofTrait
      ++ ofTy forTy ++ ofItems members ++ [.leave]
  | .mod head name items => .enterItem head.isPub head.id .mod name :: ofItems items ++ [.leave]
  | .struct head name generics fields =>
    .enterItem head.isPub head.id .struct name :: ofGenericParams generics ++ ofTys fields
      ++ [.leave]
  | .trait head name generics supers members =>
    .enterItem head.isPub head.id .trait name :: ofGenericParams generics ++ ofTys supers
      ++ ofItems members ++ [.leave]
  | .typeAlias head name ty => .declare head.isPub head.id .typeAlias name :: ofTy? ty
  | .useDecl head tree => (tree.imports head.isPub).map .imports

def ofItems : List Item → Outline
  | [] => []
  | item :: items => ofItem item ++ ofItems items

end

/-- The outline of a program, its root module aside. -/
def ofProgram (program : Program) : Outline := ofItems program.items

end Outline

end NameResolution

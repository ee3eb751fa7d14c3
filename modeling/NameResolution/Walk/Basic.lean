import NameResolution.Scope.Stack
import NameResolution.Syntax.Label

/-! # What a program refers to

    The second pass sees a program as a walk: a list of steps that enter and
    leave scopes, bind variables and come upon what is to be resolved, in the
    order in which names come into reach. A variable is bound behind its own
    initializer; parameters are bound behind all types and defaults. -/

namespace NameResolution

/-- A step of the walk through a program. -/
inductive WalkStep where
  /-- A scope without a module, up to the matching `leave` -/
  | enter (kind : ScopeKind)
  /-- A block, with its module if it declares items -/
  | enterBlock (kind : ScopeKind) (node : NodeId) (declaresItems : Bool)
  /-- The members of an item that owns a module -/
  | enterItem (node : NodeId)
  /-- A function, with its module if it owns one -/
  | enterFunc (node : NodeId)
  | leave
  /-- A path in a namespace; the callee of a call with the suffix of its labels -/
  | path (ns : Namespace) (path : Path) (suffix : Option String)
  /-- A path as a generic argument: a type, or else a value -/
  | typeArg (path : Path)
  | selfValue (node : NodeId) (span : Span)
  /-- A name that is always new -/
  | bind (ident : Ident) (node : NodeId)
  /-- A name that is new unless it is a variant in reach -/
  | bindOrMatch (ident : Ident) (node : NodeId)
  deriving DecidableEq, Repr

/-- The walk through a program: all its scopes, and what is to be resolved in them. -/
abbrev Walk := List WalkStep

namespace Walk

/-- The lifetime that is always in reach and never declared. -/
def staticLifetime : String := "'static"

/-- Steps inside a scope of their own. -/
def within (first : WalkStep) (inner : Walk) : Walk := first :: inner ++ [.leave]

mutual

/-- A generic argument that is a path may turn out to be a value. -/
def ofGenericArg : GenericArg → Walk
  | .type (.path path args) => .typeArg path :: ofGenericArgs args
  | .type ty => ofTy ty
  | .lifetime id name =>
    if name.name = staticLifetime then [] else [.path .lifetime (.ofIdent id name) none]
  | .const value => within (.enter .const) (ofExpr value)

def ofGenericArgs : List GenericArg → Walk
  | [] => []
  | arg :: args => ofGenericArg arg ++ ofGenericArgs args

def ofTy : Ty → Walk
  | .path path args => .path .type path none :: ofGenericArgs args
  | .array elem size => ofTy elem ++ within (.enter .const) (ofExpr size)
  | .compound _ parts => ofTys parts

def ofTys : List Ty → Walk
  | [] => []
  | ty :: tys => ofTy ty ++ ofTys tys

def ofTy? : Option Ty → Walk
  | none => []
  | some ty => ofTy ty

/-- The callee of a call is chosen by the labels of the arguments where it is a path. -/
def ofExpr : Expr → Walk
  | .path path args => .path .value path none :: ofGenericArgs args
  | .selfValue id span => [.selfValue id span]
  | .operation _ operands => ofExprs operands
  | .block .plain block => ofBlock .block block
  | .block .loop block => ofBlock .loop block
  | .ifElse cond thenBlock elseBlock => ofExpr cond ++ ofBlock? thenBlock ++ ofBlock? elseBlock
  | .invoke (.path path generics) args =>
    .path .value path (some (Arg.suffix args)) :: ofGenericArgs generics ++ ofArgs args
  | .invoke callee args => ofExpr callee ++ ofArgs args
  | .lambda params ret body =>
    ofParamTypes params ++ ofTy? ret ++ within (.enter .lambda) (ofParamPats params ++ ofExpr body)
  | .matchOn subject arms => ofExpr subject ++ ofArms arms
  | .struct path args fields => .path .type path none :: ofGenericArgs args ++ ofFieldInits fields

def ofExprs : List Expr → Walk
  | [] => []
  | expr :: exprs => ofExpr expr ++ ofExprs exprs

def ofExpr? : Option Expr → Walk
  | none => []
  | some expr => ofExpr expr

def ofArgs : List Arg → Walk
  | [] => []
  | .mk _ value :: args => ofExpr value ++ ofArgs args

def ofFieldInits : List FieldInit → Walk
  | [] => []
  | .mk id name none :: fields => .path .value (.ofIdent id name) none :: ofFieldInits fields
  | .mk _ _ (some value) :: fields => ofExpr value ++ ofFieldInits fields

def ofArms : List Arm → Walk
  | [] => []
  | .mk pat body :: arms => within (.enter .matchArm) (ofPat true pat ++ ofExpr body) ++ ofArms arms

/-- The types and defaults of parameters, which do not see the parameters. -/
def ofParamTypes : List Param → Walk
  | [] => []
  | .mk _ _ ty default :: params => ofTy? ty ++ ofExpr? default ++ ofParamTypes params

/-- The names of parameters, which are new even where a variant has the same name. -/
def ofParamPats : List Param → Walk
  | [] => []
  | .mk _ pat _ _ :: params => ofPat false pat ++ ofParamPats params

def ofBlock (kind : ScopeKind) : Block → Walk
  | .mk id stmts => within (.enterBlock kind id (stmts.any Stmt.isItem)) (ofStmts stmts)

def ofBlock? : Option Block → Walk
  | none => []
  | some block => ofBlock .block block

/-- A `let` binds behind its own type and value, a `for` only inside its body. -/
def ofStmt : Stmt → Walk
  | .expr value => ofExpr value
  | .item item => ofItem item
  | .letBind pat ty value => ofTy? ty ++ ofExpr? value ++ ofPat true pat
  | .forLoop pat iter body =>
    ofExpr iter ++ within (.enter .loop) (ofPat true pat ++ ofBlock .block body)
  | .whileLoop cond body => ofExpr cond ++ ofBlock .loop body

def ofStmts : List Stmt → Walk
  | [] => []
  | stmt :: stmts => ofStmt stmt ++ ofStmts stmts

/-- With `variants`, a bare name may stand for a variant in reach. -/
def ofPat (variants : Bool) : Pat → Walk
  | .ident id name none => [if variants then .bindOrMatch name id else .bind name id]
  | .ident id name (some sub) => .bind name id :: ofPat variants sub
  | .path path args => .path .value path none :: ofGenericArgs args
  | .struct path args fields =>
    .path .type path none :: ofGenericArgs args ++ ofFieldPats variants fields
  | .borrow inner | .paren inner => ofPat variants inner
  | .tuple pats => ofPats variants pats
  | .literal | .rest | .wildcard => []

def ofPats (variants : Bool) : List Pat → Walk
  | [] => []
  | pat :: pats => ofPat variants pat ++ ofPats variants pats

def ofFieldPats (variants : Bool) : List FieldPat → Walk
  | [] => []
  | .mk id name none :: fields => .bind name id :: ofFieldPats variants fields
  | .mk _ _ (some pat) :: fields => ofPat variants pat ++ ofFieldPats variants fields

def ofGenericParam : GenericParam → Walk
  | .type _ _ bound => ofTy? bound
  | .lifetime _ _ => []
  | .const _ _ ty default => ofTy ty ++ ofExpr? default

def ofGenericParams : List GenericParam → Walk
  | [] => []
  | param :: params => ofGenericParam param ++ ofGenericParams params

def ofVariants : List Variant → Walk
  | [] => []
  | .mk _ _ types :: variants => ofTys types ++ ofVariants variants

def ofItem : Item → Walk
  | .const _ _ ty none => ofTy? ty
  | .const _ _ ty (some value) => ofTy? ty ++ within (.enter .const) (ofExpr value)
  | .enum head _ generics variants =>
    within (.enterItem head.id) (ofGenericParams generics ++ ofVariants variants)
  | .func head _ _ generics params ret body =>
    within (.enterFunc head.id)
      (ofGenericParams generics ++ ofParamTypes params ++ ofTy? ret ++ ofParamPats params
        ++ ofExpr? body)
  | .impl head generics ofTrait forTy members =>
    within (.enterItem head.id)
      (ofGenericParams generics ++ ofTy? ofTrait ++ ofTy forTy ++ ofItems members)
  | .mod head _ items => within (.enterItem head.id) (ofItems items)
  | .struct head _ generics fields =>
    within (.enterItem head.id) (ofGenericParams generics ++ ofTys fields)
  | .trait head _ generics supers members =>
    within (.enterItem head.id) (ofGenericParams generics ++ ofTys supers ++ ofItems members)
  | .typeAlias _ _ ty => ofTy? ty
  | .useDecl _ _ => []

def ofItems : List Item → Walk
  | [] => []
  | item :: items => ofItem item ++ ofItems items

end

/-- The walk through a whole program. -/
def ofProgram (program : Program) : Walk := ofItems program.items

end Walk

end NameResolution

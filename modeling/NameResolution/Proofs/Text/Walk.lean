import NameResolution.Proofs.Text.Occurrence
import NameResolution.Walk.Basic

/-! # Walks and occurrences

    The walk through a piece of the text enters and leaves scopes as the regions
    of its occurrences say, and comes upon what they refer to in their order. -/

namespace NameResolution

/-- What a step of a walk resolves at a node with a role. -/
inductive Refers : WalkStep → NodeId → Role → Prop where
  | expr {path : Path} {suffix : Option String} :
      Refers (.path .value path suffix) path.id (.expr path)
  | field {node : NodeId} {name : Ident} :
      Refers (.path .value (.ofIdent node name) none) node (.field name)
  | pattern {path : Path} : Refers (.path .value path none) path.id (.pattern path)
  | type {path : Path} : Refers (.path .type path none) path.id (.type path)
  | typeArg {path : Path} : Refers (.typeArg path) path.id (.typeArg path)
  | lifetime {node : NodeId} {name : Ident} (h : name.name ≠ Walk.staticLifetime) :
      Refers (.path .lifetime (.ofIdent node name) none) node (.lifetime name)
  | selfValue {node : NodeId} {span : Span} : Refers (.selfValue node span) node (.selfValue span)

/-- A node of this role has no step in a walk. -/
inductive Role.Silent : Role → Prop where
  | declared : Silent .declared
  | imported : Silent .imported
  | lifetime {name : Ident} (h : name.name = Walk.staticLifetime) : Silent (.lifetime name)

/-- A step that opens a scope at a node with a role, and the regions inside it. -/
inductive Opens (around : Regions) : WalkStep → NodeId → Role → Regions → Prop where
  | item {node : NodeId} : Opens around (.enterItem node) node .item (around.item node)
  | func {node : NodeId} {owns : Bool} :
      Opens around (.enterFunc node) node (.func owns) (around.func node owns)
  | block {kind : ScopeKind} {node : NodeId} {owns : Bool} :
      Opens around (.enterBlock kind node owns) node (.block owns) (around.block kind node owns)

/-- A walk that starts in the first regions comes upon the occurrences in order. It ends in the
    other regions, which are the first with what has been bound in the innermost. -/
inductive Traces : Regions → Walk → List Occurrence → Regions → Prop where
  | nothing {around : Regions} : Traces around [] [] around
  | silent {around : Regions} {node : NodeId} {role : Role} (h : role.Silent) :
      Traces around [] [⟨node, role, around⟩] around
  | refer {around : Regions} {step : WalkStep} {node : NodeId} {role : Role}
      (h : Refers step node role) : Traces around [step] [⟨node, role, around⟩] around
  | bind {around : Regions} {ident : Ident} {node : NodeId} :
      Traces around [.bind ident node] [⟨node, .binder, around⟩]
        (around.binding [⟨ident.name, node, false⟩])
  | bareName {around : Regions} {ident : Ident} {node : NodeId} :
      Traces around [.bindOrMatch ident node] [⟨node, .bareName ident, around⟩]
        (around.binding [⟨ident.name, node, true⟩])
  | plain {around : Regions} {kind : ScopeKind} {walk : Walk} {occs : List Occurrence}
      (binders : List Binder)
      (inner : Traces (around.plain kind) walk occs ((around.plain kind).binding binders)) :
      Traces around (Walk.within (.enter kind) walk) occs around
  | within {around inside : Regions} {step : WalkStep} {node : NodeId} {role : Role} {walk : Walk}
      {occs : List Occurrence} (binders : List Binder) (h : Opens around step node role inside)
      (inner : Traces inside walk occs (inside.binding binders)) :
      Traces around (Walk.within step walk) (⟨node, role, around⟩ :: occs) around
  | append {around middle after : Regions} {first second : Walk} {occs others : List Occurrence}
      (h : Traces around first occs middle) (h' : Traces middle second others after) :
      Traces around (first ++ second) (occs ++ others) after

namespace Traces

/-- A reference in front of what follows it. -/
theorem cons {around after : Regions} {step : WalkStep} {node : NodeId} {role : Role}
    {walk : Walk} {occs : List Occurrence} (h : Refers step node role)
    (rest : Traces around walk occs after) :
    Traces around (step :: walk) (⟨node, role, around⟩ :: occs) after :=
  append (refer h) rest

/-- A node without a step in front of what follows it. -/
theorem skip {around after : Regions} {node : NodeId} {role : Role} {walk : Walk}
    {occs : List Occurrence} (h : role.Silent) (rest : Traces around walk occs after) :
    Traces around walk (⟨node, role, around⟩ :: occs) after :=
  append (silent h) rest

/-- A scope without a node in which nothing stays bound. -/
theorem plain_of_unbound {around : Regions} {kind : ScopeKind} {walk : Walk}
    {occs : List Occurrence} (inner : Traces (around.plain kind) walk occs (around.plain kind)) :
    Traces around (Walk.within (.enter kind) walk) occs around := by
  refine plain [] ?_
  rw [Regions.binding_nil]
  exact inner

/-- The members of an item bind nothing in their scope. -/
theorem members {around : Regions} {node : NodeId} {walk : Walk} {occs : List Occurrence}
    (inner : Traces (around.item node) walk occs (around.item node)) :
    Traces around (Walk.within (.enterItem node) walk) (⟨node, .item, around⟩ :: occs) around := by
  refine within [] .item ?_
  rw [Regions.binding_nil]
  exact inner

/-- Nodes without steps. -/
theorem silents {α : Type} {around : Regions} {role : Role} (h : role.Silent)
    (node : α → NodeId) (xs : List α) :
    Traces around [] (xs.map fun x => ⟨node x, role, around⟩) around := by
  induction xs with
  | nil => exact nothing
  | cons x xs ih => exact skip h ih

end Traces

/-! ## The walk through each piece of the text -/

mutual

theorem traces_genericArg (around : Regions) : (arg : GenericArg) →
    Traces around (Walk.ofGenericArg arg) (Occurrence.ofGenericArg around arg) around
  | .type (.path path args) => by
    rw [Walk.ofGenericArg, Occurrence.ofGenericArg]
    exact .cons .typeArg (traces_genericArgs around args)
  | .type (.array elem size) => by
    rw [Walk.ofGenericArg, Occurrence.ofGenericArg]
    · exact traces_ty around (.array elem size)
    all_goals simp
  | .type (.compound form parts) => by
    rw [Walk.ofGenericArg, Occurrence.ofGenericArg]
    · exact traces_ty around (.compound form parts)
    all_goals simp
  | .lifetime id name => by
    rw [Walk.ofGenericArg, Occurrence.ofGenericArg]
    split
    · next static => exact .silent (.lifetime static)
    · next other => exact .refer (.lifetime other)
  | .const value => by
    rw [Walk.ofGenericArg, Occurrence.ofGenericArg]
    exact .plain_of_unbound (traces_expr _ value)

theorem traces_genericArgs (around : Regions) : (args : List GenericArg) →
    Traces around (Walk.ofGenericArgs args) (Occurrence.ofGenericArgs around args) around
  | [] => by
    rw [Walk.ofGenericArgs, Occurrence.ofGenericArgs]
    exact .nothing
  | arg :: args => by
    rw [Walk.ofGenericArgs, Occurrence.ofGenericArgs]
    exact .append (traces_genericArg around arg) (traces_genericArgs around args)

theorem traces_ty (around : Regions) : (ty : Ty) →
    Traces around (Walk.ofTy ty) (Occurrence.ofTy around ty) around
  | .path path args => by
    rw [Walk.ofTy, Occurrence.ofTy]
    exact .cons .type (traces_genericArgs around args)
  | .array elem size => by
    rw [Walk.ofTy, Occurrence.ofTy]
    exact .append (traces_ty around elem) (.plain_of_unbound (traces_expr _ size))
  | .compound _ parts => by
    rw [Walk.ofTy, Occurrence.ofTy]
    exact traces_tys around parts

theorem traces_tys (around : Regions) : (tys : List Ty) →
    Traces around (Walk.ofTys tys) (Occurrence.ofTys around tys) around
  | [] => by
    rw [Walk.ofTys, Occurrence.ofTys]
    exact .nothing
  | ty :: tys => by
    rw [Walk.ofTys, Occurrence.ofTys]
    exact .append (traces_ty around ty) (traces_tys around tys)

theorem traces_ty? (around : Regions) : (ty : Option Ty) →
    Traces around (Walk.ofTy? ty) (Occurrence.ofTy? around ty) around
  | none => by
    rw [Walk.ofTy?, Occurrence.ofTy?]
    exact .nothing
  | some ty => by
    rw [Walk.ofTy?, Occurrence.ofTy?]
    exact traces_ty around ty

theorem traces_expr (around : Regions) : (expr : Expr) →
    Traces around (Walk.ofExpr expr) (Occurrence.ofExpr around expr) around
  | .path path args => by
    rw [Walk.ofExpr, Occurrence.ofExpr]
    exact .cons .expr (traces_genericArgs around args)
  | .selfValue id span => by
    rw [Walk.ofExpr, Occurrence.ofExpr]
    exact .refer .selfValue
  | .operation _ operands => by
    rw [Walk.ofExpr, Occurrence.ofExpr]
    exact traces_exprs around operands
  | .block .plain block => by
    rw [Walk.ofExpr, Occurrence.ofExpr]
    exact traces_block .block around block
  | .block .loop block => by
    rw [Walk.ofExpr, Occurrence.ofExpr]
    exact traces_block .loop around block
  | .ifElse cond thenBlock elseBlock => by
    rw [Walk.ofExpr, Occurrence.ofExpr]
    exact .append (.append (traces_expr around cond) (traces_block? around thenBlock))
      (traces_block? around elseBlock)
  | .invoke callee args => by
    -- a callee that is a path is read with the labels of the arguments, any other by itself
    cases callee with
    | path path generics =>
      rw [Walk.ofExpr, Occurrence.ofExpr, Occurrence.ofExpr]
      exact .append (.cons .expr (traces_genericArgs around generics)) (traces_args around args)
    | _ =>
      rw [Walk.ofExpr, Occurrence.ofExpr]
      · exact .append (traces_expr around _) (traces_args around args)
      all_goals simp
  | .lambda params ret body => by
    rw [Walk.ofExpr, Occurrence.ofExpr]
    refine .append (.append (traces_paramTypes around params) (traces_ty? around ret)) ?_
    -- only patterns and body are inside the scope of the lambda
    exact .plain _ (.append (traces_paramPats _ params) (traces_expr _ body))
  | .matchOn subject arms => by
    rw [Walk.ofExpr, Occurrence.ofExpr]
    exact .append (traces_expr around subject) (traces_arms around arms)
  | .struct path args fields => by
    rw [Walk.ofExpr, Occurrence.ofExpr]
    exact .append (.cons .type (traces_genericArgs around args)) (traces_fieldInits around fields)

theorem traces_exprs (around : Regions) : (exprs : List Expr) →
    Traces around (Walk.ofExprs exprs) (Occurrence.ofExprs around exprs) around
  | [] => by
    rw [Walk.ofExprs, Occurrence.ofExprs]
    exact .nothing
  | expr :: exprs => by
    rw [Walk.ofExprs, Occurrence.ofExprs]
    exact .append (traces_expr around expr) (traces_exprs around exprs)

theorem traces_expr? (around : Regions) : (expr : Option Expr) →
    Traces around (Walk.ofExpr? expr) (Occurrence.ofExpr? around expr) around
  | none => by
    rw [Walk.ofExpr?, Occurrence.ofExpr?]
    exact .nothing
  | some expr => by
    rw [Walk.ofExpr?, Occurrence.ofExpr?]
    exact traces_expr around expr

theorem traces_args (around : Regions) : (args : List Arg) →
    Traces around (Walk.ofArgs args) (Occurrence.ofArgs around args) around
  | [] => by
    rw [Walk.ofArgs, Occurrence.ofArgs]
    exact .nothing
  | .mk _ value :: args => by
    rw [Walk.ofArgs, Occurrence.ofArgs]
    exact .append (traces_expr around value) (traces_args around args)

theorem traces_fieldInits (around : Regions) : (fields : List FieldInit) →
    Traces around (Walk.ofFieldInits fields) (Occurrence.ofFieldInits around fields) around
  | [] => by
    rw [Walk.ofFieldInits, Occurrence.ofFieldInits]
    exact .nothing
  | .mk id name none :: fields => by
    rw [Walk.ofFieldInits, Occurrence.ofFieldInits]
    exact .cons .field (traces_fieldInits around fields)
  | .mk _ _ (some value) :: fields => by
    rw [Walk.ofFieldInits, Occurrence.ofFieldInits]
    exact .append (traces_expr around value) (traces_fieldInits around fields)

theorem traces_arms (around : Regions) : (arms : List Arm) →
    Traces around (Walk.ofArms arms) (Occurrence.ofArms around arms) around
  | [] => by
    rw [Walk.ofArms, Occurrence.ofArms]
    exact .nothing
  | .mk pat body :: arms => by
    rw [Walk.ofArms, Occurrence.ofArms]
    exact .append (.plain _ (.append (traces_pat true _ pat) (traces_expr _ body)))
      (traces_arms around arms)

theorem traces_paramTypes (around : Regions) : (params : List Param) →
    Traces around (Walk.ofParamTypes params) (Occurrence.ofParamTypes around params) around
  | [] => by
    rw [Walk.ofParamTypes, Occurrence.ofParamTypes]
    exact .nothing
  | .mk _ _ ty default :: params => by
    rw [Walk.ofParamTypes, Occurrence.ofParamTypes]
    exact .append (.append (traces_ty? around ty) (traces_expr? around default))
      (traces_paramTypes around params)

theorem traces_paramPats (around : Regions) : (params : List Param) →
    Traces around (Walk.ofParamPats params) (Occurrence.ofParamPats around params)
      (around.binding (bindersOfParams params))
  | [] => by
    rw [Walk.ofParamPats, Occurrence.ofParamPats, bindersOfParams, Regions.binding_nil]
    exact .nothing
  | .mk _ pat _ _ :: params => by
    rw [Walk.ofParamPats, Occurrence.ofParamPats, bindersOfParams, ← Regions.binding_binding]
    exact .append (traces_pat false around pat) (traces_paramPats _ params)

theorem traces_block (kind : ScopeKind) (around : Regions) : (block : Block) →
    Traces around (Walk.ofBlock kind block) (Occurrence.ofBlock kind around block) around
  | .mk id stmts => by
    rw [Walk.ofBlock, Occurrence.ofBlock]
    -- what the statements bind is gone with the scope, so it need not be named
    obtain ⟨binders, inner⟩ := traces_stmts (around.block kind id (stmts.any Stmt.isItem)) stmts
    exact .within binders .block inner

theorem traces_block? (around : Regions) : (block : Option Block) →
    Traces around (Walk.ofBlock? block) (Occurrence.ofBlock? around block) around
  | none => by
    rw [Walk.ofBlock?, Occurrence.ofBlock?]
    exact .nothing
  | some block => by
    rw [Walk.ofBlock?, Occurrence.ofBlock?]
    exact traces_block .block around block

theorem traces_stmt (around : Regions) : (stmt : Stmt) →
    Traces around (Walk.ofStmt stmt) (Occurrence.ofStmt around stmt)
      (around.binding stmt.binders)
  | .expr value => by
    rw [Walk.ofStmt, Occurrence.ofStmt, Stmt.binders, Regions.binding_nil]
    · exact traces_expr around value
    · simp
  | .item item => by
    rw [Walk.ofStmt, Occurrence.ofStmt, Stmt.binders, Regions.binding_nil]
    · exact traces_item around item
    · simp
  | .letBind pat ty value => by
    rw [Walk.ofStmt, Occurrence.ofStmt, Stmt.binders]
    -- the pattern comes last, so type and value are traced before it binds anything
    exact .append (.append (traces_ty? around ty) (traces_expr? around value))
      (traces_pat true around pat)
  | .forLoop pat iter body => by
    rw [Walk.ofStmt, Occurrence.ofStmt, Stmt.binders, Regions.binding_nil]
    · exact .append (traces_expr around iter)
        (.plain _ (.append (traces_pat true _ pat) (traces_block .block _ body)))
    · simp
  | .whileLoop cond body => by
    rw [Walk.ofStmt, Occurrence.ofStmt, Stmt.binders, Regions.binding_nil]
    · exact .append (traces_expr around cond) (traces_block .loop around body)
    · simp

theorem traces_stmts (around : Regions) : (stmts : List Stmt) →
    ∃ binders, Traces around (Walk.ofStmts stmts) (Occurrence.ofStmts around stmts)
      (around.binding binders)
  | [] => by
    rw [Walk.ofStmts, Occurrence.ofStmts]
    exact ⟨[], by rw [Regions.binding_nil]; exact .nothing⟩
  | stmt :: stmts => by
    rw [Walk.ofStmts, Occurrence.ofStmts]
    obtain ⟨binders, rest⟩ := traces_stmts (around.binding stmt.binders) stmts
    rw [Regions.binding_binding] at rest
    exact ⟨_, .append (traces_stmt around stmt) rest⟩

theorem traces_pat (variants : Bool) (around : Regions) : (pat : Pat) →
    Traces around (Walk.ofPat variants pat) (Occurrence.ofPat variants around pat)
      (around.binding (pat.binders variants))
  | .ident id name none => by
    rw [Walk.ofPat, Occurrence.ofPat, Pat.binders]
    -- where no variant can be meant, as in a parameter, the name is always new
    cases variants
    · exact .bind
    · exact .bareName
  | .ident id name (some sub) => by
    rw [Walk.ofPat, Occurrence.ofPat, Pat.binders]
    have inner := traces_pat variants (around.binding [⟨name.name, id, false⟩]) sub
    rw [Regions.binding_binding] at inner
    exact .append .bind inner
  | .path path args => by
    rw [Walk.ofPat, Occurrence.ofPat, Pat.binders, Regions.binding_nil]
    exact .cons .pattern (traces_genericArgs around args)
  | .struct path args fields => by
    rw [Walk.ofPat, Occurrence.ofPat, Pat.binders]
    exact .append (.cons .type (traces_genericArgs around args))
      (traces_fieldPats variants around fields)
  | .borrow inner | .paren inner => by
    rw [Walk.ofPat, Occurrence.ofPat, Pat.binders]
    exact traces_pat variants around inner
  | .tuple pats => by
    rw [Walk.ofPat, Occurrence.ofPat, Pat.binders]
    exact traces_pats variants around pats
  | .literal | .rest | .wildcard => by
    rw [Walk.ofPat, Occurrence.ofPat, Pat.binders, Regions.binding_nil]
    exact .nothing

theorem traces_pats (variants : Bool) (around : Regions) : (pats : List Pat) →
    Traces around (Walk.ofPats variants pats) (Occurrence.ofPats variants around pats)
      (around.binding (bindersOfPats variants pats))
  | [] => by
    rw [Walk.ofPats, Occurrence.ofPats, bindersOfPats, Regions.binding_nil]
    exact .nothing
  | pat :: pats => by
    rw [Walk.ofPats, Occurrence.ofPats, bindersOfPats, ← Regions.binding_binding]
    exact .append (traces_pat variants around pat) (traces_pats variants _ pats)

theorem traces_fieldPats (variants : Bool) (around : Regions) : (fields : List FieldPat) →
    Traces around (Walk.ofFieldPats variants fields) (Occurrence.ofFieldPats variants around fields)
      (around.binding (bindersOfFields variants fields))
  | [] => by
    rw [Walk.ofFieldPats, Occurrence.ofFieldPats, bindersOfFields, Regions.binding_nil]
    exact .nothing
  | .mk id name none :: fields => by
    rw [Walk.ofFieldPats, Occurrence.ofFieldPats, bindersOfFields]
    have rest := traces_fieldPats variants (around.binding [⟨name.name, id, false⟩]) fields
    rw [Regions.binding_binding] at rest
    exact .append .bind rest
  | .mk _ _ (some pat) :: fields => by
    rw [Walk.ofFieldPats, Occurrence.ofFieldPats, bindersOfFields, ← Regions.binding_binding]
    exact .append (traces_pat variants around pat) (traces_fieldPats variants _ fields)

theorem traces_genericParam (around : Regions) : (param : GenericParam) →
    Traces around (Walk.ofGenericParam param) (Occurrence.ofGenericParam around param) around
  | .type id name bound => by
    rw [Walk.ofGenericParam, Occurrence.ofGenericParam]
    exact .skip .declared (traces_ty? around bound)
  | .lifetime id name => by
    rw [Walk.ofGenericParam, Occurrence.ofGenericParam]
    exact .silent .declared
  | .const id name ty default => by
    rw [Walk.ofGenericParam, Occurrence.ofGenericParam]
    exact .skip .declared (.append (traces_ty around ty) (traces_expr? around default))

theorem traces_genericParams (around : Regions) : (params : List GenericParam) →
    Traces around (Walk.ofGenericParams params) (Occurrence.ofGenericParams around params) around
  | [] => by
    rw [Walk.ofGenericParams, Occurrence.ofGenericParams]
    exact .nothing
  | param :: params => by
    rw [Walk.ofGenericParams, Occurrence.ofGenericParams]
    exact .append (traces_genericParam around param) (traces_genericParams around params)

theorem traces_variants (around : Regions) : (variants : List Variant) →
    Traces around (Walk.ofVariants variants) (Occurrence.ofVariants around variants) around
  | [] => by
    rw [Walk.ofVariants, Occurrence.ofVariants]
    exact .nothing
  | .mk id name types :: variants => by
    rw [Walk.ofVariants, Occurrence.ofVariants]
    exact .skip .declared (.append (traces_tys around types) (traces_variants around variants))

theorem traces_item (around : Regions) : (item : Item) →
    Traces around (Walk.ofItem item) (Occurrence.ofItem around item) around
  | .const head name ty none => by
    -- without a value no scope is entered
    rw [Walk.ofItem, Occurrence.ofItem, Occurrence.ofExpr?, List.append_nil]
    exact .skip .declared (traces_ty? around ty)
  | .const head name ty (some value) => by
    rw [Walk.ofItem, Occurrence.ofItem, Occurrence.ofExpr?]
    exact .skip .declared (.append (traces_ty? around ty) (.plain_of_unbound (traces_expr _ value)))
  | .enum head name generics variants => by
    rw [Walk.ofItem, Occurrence.ofItem]
    exact .members (.append (traces_genericParams _ generics) (traces_variants _ variants))
  | .func head kind name generics params ret body => by
    rw [Walk.ofItem, Occurrence.ofItem]
    exact .within (bindersOfParams params) .func
      (.append (.append (.append (.append (traces_genericParams _ generics)
        (traces_paramTypes _ params)) (traces_ty? _ ret)) (traces_paramPats _ params))
        (traces_expr? _ body))
  | .impl head generics ofTrait forTy members => by
    rw [Walk.ofItem, Occurrence.ofItem]
    exact .members (.append (.append (.append (traces_genericParams _ generics)
      (traces_ty? _ ofTrait)) (traces_ty _ forTy)) (traces_items _ members))
  | .mod head name items => by
    rw [Walk.ofItem, Occurrence.ofItem]
    exact .members (traces_items _ items)
  | .struct head name generics fields => by
    rw [Walk.ofItem, Occurrence.ofItem]
    exact .members (.append (traces_genericParams _ generics) (traces_tys _ fields))
  | .trait head name generics supers members => by
    rw [Walk.ofItem, Occurrence.ofItem]
    exact .members (.append (.append (traces_genericParams _ generics) (traces_tys _ supers))
      (traces_items _ members))
  | .typeAlias head name ty => by
    rw [Walk.ofItem, Occurrence.ofItem]
    exact .skip .declared (traces_ty? around ty)
  | .useDecl head tree => by
    rw [Walk.ofItem, Occurrence.ofItem]
    exact .silents .imported (·.node) (tree.imports head.isPub)

theorem traces_items (around : Regions) : (items : List Item) →
    Traces around (Walk.ofItems items) (Occurrence.ofItems around items) around
  | [] => by
    rw [Walk.ofItems, Occurrence.ofItems]
    exact .nothing
  | item :: items => by
    rw [Walk.ofItems, Occurrence.ofItems]
    exact .append (traces_item around item) (traces_items around items)

end

/-- The walk through a program comes upon its occurrences in order. -/
theorem Program.traces_walk (program : Program) :
    Traces [program.region] (.ofProgram program) program.occurrences [program.region] :=
  traces_items _ program.items

end NameResolution

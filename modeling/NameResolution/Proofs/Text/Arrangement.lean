import NameResolution.Proofs.Text.Walk

/-! # Rearranged programs

    The items of a program and of its mods may stand in any order. A program
    with its items in another order has the same occurrences and is gone through
    in the same steps, if only in another order: what is around each of them
    does not change. -/

namespace NameResolution

/-- An order for the items of a program and for those of each of its mods, told apart by their
    nodes. -/
structure Arrangement where
  order : NodeId → List Item → List Item
  perm : ∀ node items, (order node items).Perm items

namespace Arrangement

/-! ## The same text with its items in another order -/

mutual

def ofGenericArg (a : Arrangement) : GenericArg → GenericArg
  | .type ty => .type (a.ofTy ty)
  | .lifetime id name => .lifetime id name
  | .const value => .const (a.ofExpr value)

def ofGenericArgs (a : Arrangement) : List GenericArg → List GenericArg
  | [] => []
  | arg :: args => a.ofGenericArg arg :: a.ofGenericArgs args

def ofTy (a : Arrangement) : Ty → Ty
  | .path path args => .path path (a.ofGenericArgs args)
  | .array elem size => .array (a.ofTy elem) (a.ofExpr size)
  | .compound form parts => .compound form (a.ofTys parts)

def ofTys (a : Arrangement) : List Ty → List Ty
  | [] => []
  | ty :: tys => a.ofTy ty :: a.ofTys tys

def ofTy? (a : Arrangement) : Option Ty → Option Ty
  | none => none
  | some ty => some (a.ofTy ty)

def ofExpr (a : Arrangement) : Expr → Expr
  | .path path args => .path path (a.ofGenericArgs args)
  | .selfValue id span => .selfValue id span
  | .operation form operands => .operation form (a.ofExprs operands)
  | .block kind block => .block kind (a.ofBlock block)
  | .ifElse cond thenBlock elseBlock =>
    .ifElse (a.ofExpr cond) (a.ofBlock? thenBlock) (a.ofBlock? elseBlock)
  | .invoke callee args => .invoke (a.ofExpr callee) (a.ofArgs args)
  | .lambda params ret body => .lambda (a.ofParams params) (a.ofTy? ret) (a.ofExpr body)
  | .matchOn subject arms => .matchOn (a.ofExpr subject) (a.ofArms arms)
  | .struct path args fields => .struct path (a.ofGenericArgs args) (a.ofFieldInits fields)

def ofExprs (a : Arrangement) : List Expr → List Expr
  | [] => []
  | expr :: exprs => a.ofExpr expr :: a.ofExprs exprs

def ofExpr? (a : Arrangement) : Option Expr → Option Expr
  | none => none
  | some expr => some (a.ofExpr expr)

def ofArg (a : Arrangement) : Arg → Arg
  | .mk label value => .mk label (a.ofExpr value)

def ofArgs (a : Arrangement) : List Arg → List Arg
  | [] => []
  | arg :: args => a.ofArg arg :: a.ofArgs args

def ofFieldInit (a : Arrangement) : FieldInit → FieldInit
  | .mk id name value => .mk id name (a.ofExpr? value)

def ofFieldInits (a : Arrangement) : List FieldInit → List FieldInit
  | [] => []
  | field :: fields => a.ofFieldInit field :: a.ofFieldInits fields

def ofArm (a : Arrangement) : Arm → Arm
  | .mk pat body => .mk (a.ofPat pat) (a.ofExpr body)

def ofArms (a : Arrangement) : List Arm → List Arm
  | [] => []
  | arm :: arms => a.ofArm arm :: a.ofArms arms

def ofParam (a : Arrangement) : Param → Param
  | .mk label pat ty default => .mk label (a.ofPat pat) (a.ofTy? ty) (a.ofExpr? default)

def ofParams (a : Arrangement) : List Param → List Param
  | [] => []
  | param :: params => a.ofParam param :: a.ofParams params

def ofBlock (a : Arrangement) : Block → Block
  | .mk id stmts => .mk id (a.ofStmts stmts)

def ofBlock? (a : Arrangement) : Option Block → Option Block
  | none => none
  | some block => some (a.ofBlock block)

def ofStmt (a : Arrangement) : Stmt → Stmt
  | .expr value => .expr (a.ofExpr value)
  | .item item => .item (a.ofItem item)
  | .letBind pat ty value => .letBind (a.ofPat pat) (a.ofTy? ty) (a.ofExpr? value)
  | .forLoop pat iter body => .forLoop (a.ofPat pat) (a.ofExpr iter) (a.ofBlock body)
  | .whileLoop cond body => .whileLoop (a.ofExpr cond) (a.ofBlock body)

/-- The statements of a block keep their places, items among them. -/
def ofStmts (a : Arrangement) : List Stmt → List Stmt
  | [] => []
  | stmt :: stmts => a.ofStmt stmt :: a.ofStmts stmts

def ofPat (a : Arrangement) : Pat → Pat
  | .ident id name sub => .ident id name (a.ofPat? sub)
  | .path path args => .path path (a.ofGenericArgs args)
  | .struct path args fields => .struct path (a.ofGenericArgs args) (a.ofFieldPats fields)
  | .borrow inner => .borrow (a.ofPat inner)
  | .paren inner => .paren (a.ofPat inner)
  | .tuple pats => .tuple (a.ofPats pats)
  | .literal => .literal
  | .rest => .rest
  | .wildcard => .wildcard

def ofPats (a : Arrangement) : List Pat → List Pat
  | [] => []
  | pat :: pats => a.ofPat pat :: a.ofPats pats

def ofPat? (a : Arrangement) : Option Pat → Option Pat
  | none => none
  | some pat => some (a.ofPat pat)

def ofFieldPat (a : Arrangement) : FieldPat → FieldPat
  | .mk id name pat => .mk id name (a.ofPat? pat)

def ofFieldPats (a : Arrangement) : List FieldPat → List FieldPat
  | [] => []
  | field :: fields => a.ofFieldPat field :: a.ofFieldPats fields

def ofGenericParam (a : Arrangement) : GenericParam → GenericParam
  | .type id name bound => .type id name (a.ofTy? bound)
  | .lifetime id name => .lifetime id name
  | .const id name ty default => .const id name (a.ofTy ty) (a.ofExpr? default)

def ofGenericParams (a : Arrangement) : List GenericParam → List GenericParam
  | [] => []
  | param :: params => a.ofGenericParam param :: a.ofGenericParams params

def ofVariant (a : Arrangement) : Variant → Variant
  | .mk id name types => .mk id name (a.ofTys types)

def ofVariants (a : Arrangement) : List Variant → List Variant
  | [] => []
  | variant :: variants => a.ofVariant variant :: a.ofVariants variants

/-- Only the items of a mod change places. The members of traits and impls keep theirs. -/
def ofItem (a : Arrangement) : Item → Item
  | .const head name ty value => .const head name (a.ofTy? ty) (a.ofExpr? value)
  | .enum head name generics variants =>
    .enum head name (a.ofGenericParams generics) (a.ofVariants variants)
  | .func head kind name generics params ret body =>
    .func head kind name (a.ofGenericParams generics) (a.ofParams params) (a.ofTy? ret)
      (a.ofExpr? body)
  | .impl head generics ofTrait forTy members =>
    .impl head (a.ofGenericParams generics) (a.ofTy? ofTrait) (a.ofTy forTy) (a.ofItems members)
  | .mod head name items => .mod head name (a.order head.id (a.ofItems items))
  | .struct head name generics fields =>
    .struct head name (a.ofGenericParams generics) (a.ofTys fields)
  | .trait head name generics supers members =>
    .trait head name (a.ofGenericParams generics) (a.ofTys supers) (a.ofItems members)
  | .typeAlias head name ty => .typeAlias head name (a.ofTy? ty)
  | .useDecl head tree => .useDecl head tree

def ofItems (a : Arrangement) : List Item → List Item
  | [] => []
  | item :: items => a.ofItem item :: a.ofItems items

end

/-- The program with its items and those of all its mods in the order of the arrangement. -/
def ofProgram (a : Arrangement) (program : Program) : Program :=
  { program with items := a.order program.id (a.ofItems program.items) }

variable (a : Arrangement)

/-! ## What stays as it is -/

theorem isSome_ofExpr? (expr : Option Expr) : (a.ofExpr? expr).isSome = expr.isSome := by
  cases expr <;> rfl

theorem isEmpty_ofGenericParams (params : List GenericParam) :
    (a.ofGenericParams params).isEmpty = params.isEmpty := by
  cases params <;> rfl

theorem any_isItem_ofStmts (stmts : List Stmt) :
    (a.ofStmts stmts).any Stmt.isItem = stmts.any Stmt.isItem := by
  induction stmts with
  | nil => rfl
  | cons stmt stmts ih =>
    have first : (a.ofStmt stmt).isItem = stmt.isItem := by cases stmt <;> rfl
    rw [ofStmts, List.any_cons, List.any_cons, first, ih]

/-- No pattern becomes another name. -/
theorem asIdent_ofPat : (pat : Pat) → (a.ofPat pat).asIdent = pat.asIdent
  | .ident _ _ none => rfl
  | .ident _ _ (some _) => rfl
  | .paren inner => by
    rw [ofPat, Pat.asIdent, Pat.asIdent, asIdent_ofPat inner]
  | .path _ _ | .struct _ _ _ | .borrow _ | .tuple _ | .literal | .rest | .wildcard => rfl

mutual

theorem binders_ofPat (variants : Bool) : (pat : Pat) →
    (a.ofPat pat).binders variants = pat.binders variants
  | .ident _ _ none => rfl
  | .ident _ _ (some sub) => by
    rw [ofPat, ofPat?, Pat.binders, Pat.binders, binders_ofPat variants sub]
  | .borrow inner => by
    rw [ofPat, Pat.binders, Pat.binders, binders_ofPat variants inner]
  | .paren inner => by
    rw [ofPat, Pat.binders, Pat.binders, binders_ofPat variants inner]
  | .struct _ _ fields => by
    rw [ofPat, Pat.binders, Pat.binders, binders_ofFieldPats variants fields]
  | .tuple pats => by
    rw [ofPat, Pat.binders, Pat.binders, binders_ofPats variants pats]
  | .path _ _ | .literal | .rest | .wildcard => rfl

theorem binders_ofPats (variants : Bool) : (pats : List Pat) →
    bindersOfPats variants (a.ofPats pats) = bindersOfPats variants pats
  | [] => rfl
  | pat :: pats => by
    rw [ofPats, bindersOfPats, bindersOfPats, binders_ofPat variants pat,
      binders_ofPats variants pats]

theorem binders_ofFieldPats (variants : Bool) : (fields : List FieldPat) →
    bindersOfFields variants (a.ofFieldPats fields) = bindersOfFields variants fields
  | [] => rfl
  | .mk _ _ none :: fields => by
    rw [ofFieldPats, ofFieldPat, ofPat?, bindersOfFields, bindersOfFields,
      binders_ofFieldPats variants fields]
  | .mk _ _ (some pat) :: fields => by
    rw [ofFieldPats, ofFieldPat, ofPat?, bindersOfFields, bindersOfFields,
      binders_ofPat variants pat, binders_ofFieldPats variants fields]

end

theorem binders_ofParams (params : List Param) :
    bindersOfParams (a.ofParams params) = bindersOfParams params := by
  induction params with
  | nil => rfl
  | cons param params ih =>
    obtain ⟨label, pat, ty, default⟩ := param
    rw [ofParams, ofParam, bindersOfParams, bindersOfParams, binders_ofPat, ih]

theorem binders_ofStmt (stmt : Stmt) : (a.ofStmt stmt).binders = stmt.binders := by
  cases stmt with
  | letBind pat ty value => exact a.binders_ofPat true pat
  | _ => rfl

/-- Parameters keep the labels that callers use. -/
theorem suffix_ofParams (params : List Param) :
    Param.suffix (a.ofParams params) = Param.suffix params := by
  have labels : (a.ofParams params).map Param.labelName = params.map Param.labelName := by
    induction params with
    | nil => rfl
    | cons param params ih =>
      obtain ⟨label, pat, ty, default⟩ := param
      have first : (a.ofParam (.mk label pat ty default)).labelName =
          (Param.mk label pat ty default).labelName := by
        cases label with
        | none => rw [ofParam, Param.labelName, Param.labelName, asIdent_ofPat]
        | some label => rfl
      rw [ofParams, List.map_cons, List.map_cons, first, ih]
  rw [Param.suffix, Param.suffix, labels]

theorem suffix_ofArgs (args : List Arg) : Arg.suffix (a.ofArgs args) = Arg.suffix args := by
  have labels : (a.ofArgs args).map Arg.labelName = args.map Arg.labelName := by
    induction args with
    | nil => rfl
    | cons arg args ih =>
      obtain ⟨label, value⟩ := arg
      rw [ofArgs, List.map_cons, List.map_cons, ih]
      rfl
  rw [Arg.suffix, Arg.suffix, labels]

end Arrangement

/-! ## Steps and occurrences in another order -/

/-- Two pieces of the text that are gone through in the same steps and have the same occurrences,
    in whatever order. -/
structure Shuffled (walk walk' : Walk) (occs occs' : List Occurrence) : Prop where
  walk : walk.Perm walk'
  occurrences : occs.Perm occs'

namespace Shuffled

variable {walk walk' others others' : Walk} {occs occs' rest rest' : List Occurrence}

theorem refl (walk : Walk) (occs : List Occurrence) : Shuffled walk walk occs occs :=
  ⟨.refl _, .refl _⟩

theorem trans {walk'' : Walk} {occs'' : List Occurrence} (h : Shuffled walk walk' occs occs')
    (h' : Shuffled walk' walk'' occs' occs'') : Shuffled walk walk'' occs occs'' :=
  ⟨h.walk.trans h'.walk, h.occurrences.trans h'.occurrences⟩

theorem append (h : Shuffled walk walk' occs occs') (h' : Shuffled others others' rest rest') :
    Shuffled (walk ++ others) (walk' ++ others') (occs ++ rest) (occs' ++ rest') :=
  ⟨h.walk.append h'.walk, h.occurrences.append h'.occurrences⟩

/-- The same step for the same occurrence in front. -/
theorem cons (step : WalkStep) (occ : Occurrence) (h : Shuffled walk walk' occs occs') :
    Shuffled (step :: walk) (step :: walk') (occ :: occs) (occ :: occs') :=
  ⟨h.walk.cons step, h.occurrences.cons occ⟩

/-- An occurrence without a step of its own in front. -/
theorem skip (occ : Occurrence) (h : Shuffled walk walk' occs occs') :
    Shuffled walk walk' (occ :: occs) (occ :: occs') :=
  ⟨h.walk, h.occurrences.cons occ⟩

/-- The same scope around both. -/
theorem plain (first : WalkStep) (h : Shuffled walk walk' occs occs') :
    Shuffled (Walk.within first walk) (Walk.within first walk') occs occs' :=
  ⟨(h.walk.append_right _).cons first, h.occurrences⟩

/-- The same scope around both, with an occurrence of its own. -/
theorem within (first : WalkStep) (occ : Occurrence) (h : Shuffled walk walk' occs occs') :
    Shuffled (Walk.within first walk) (Walk.within first walk') (occ :: occs) (occ :: occs') :=
  (h.plain first).skip occ

end Shuffled

theorem Walk.ofItems_eq_flatMap (items : List Item) :
    Walk.ofItems items = items.flatMap Walk.ofItem := by
  induction items with
  | nil => rfl
  | cons item items ih => rw [Walk.ofItems, List.flatMap_cons, ih]

theorem Occurrence.ofItems_eq_flatMap (around : Regions) (items : List Item) :
    Occurrence.ofItems around items = items.flatMap (Occurrence.ofItem around) := by
  induction items with
  | nil => rfl
  | cons item items ih => rw [Occurrence.ofItems, List.flatMap_cons, ih]

/-- Items in another order. -/
theorem Shuffled.of_perm {items items' : List Item} (h : items.Perm items') (around : Regions) :
    Shuffled (Walk.ofItems items) (Walk.ofItems items') (Occurrence.ofItems around items)
      (Occurrence.ofItems around items') := by
  simp only [Walk.ofItems_eq_flatMap, Occurrence.ofItems_eq_flatMap]
  exact ⟨h.flatMap_right _, h.flatMap_right _⟩

namespace Arrangement

variable (a : Arrangement)

mutual

theorem shuffled_genericArg (around : Regions) : (arg : GenericArg) →
    Shuffled (Walk.ofGenericArg (a.ofGenericArg arg)) (Walk.ofGenericArg arg)
      (Occurrence.ofGenericArg around (a.ofGenericArg arg)) (Occurrence.ofGenericArg around arg)
  | .type (.path path args) => by
    simp only [ofGenericArg, ofTy, Walk.ofGenericArg, Occurrence.ofGenericArg]
    exact .cons _ _ (shuffled_genericArgs around args)
  | .type (.array elem size) => by
    have inside := shuffled_ty around (.array elem size)
    simp only [ofGenericArg, ofTy, Walk.ofGenericArg, Occurrence.ofGenericArg] at inside ⊢
    exact inside
  | .type (.compound form parts) => by
    have inside := shuffled_ty around (.compound form parts)
    simp only [ofGenericArg, ofTy, Walk.ofGenericArg, Occurrence.ofGenericArg] at inside ⊢
    exact inside
  | .lifetime id name => by
    rw [ofGenericArg]
    exact .refl _ _
  | .const value => by
    simp only [ofGenericArg, Walk.ofGenericArg, Occurrence.ofGenericArg]
    exact (shuffled_expr _ value).plain _

theorem shuffled_genericArgs (around : Regions) : (args : List GenericArg) →
    Shuffled (Walk.ofGenericArgs (a.ofGenericArgs args)) (Walk.ofGenericArgs args)
      (Occurrence.ofGenericArgs around (a.ofGenericArgs args))
      (Occurrence.ofGenericArgs around args)
  | [] => .refl _ _
  | arg :: args => by
    simp only [ofGenericArgs, Walk.ofGenericArgs, Occurrence.ofGenericArgs]
    exact (shuffled_genericArg around arg).append (shuffled_genericArgs around args)

theorem shuffled_ty (around : Regions) : (ty : Ty) →
    Shuffled (Walk.ofTy (a.ofTy ty)) (Walk.ofTy ty) (Occurrence.ofTy around (a.ofTy ty))
      (Occurrence.ofTy around ty)
  | .path path args => by
    simp only [ofTy, Walk.ofTy, Occurrence.ofTy]
    exact .cons _ _ (shuffled_genericArgs around args)
  | .array elem size => by
    simp only [ofTy, Walk.ofTy, Occurrence.ofTy]
    exact (shuffled_ty around elem).append ((shuffled_expr _ size).plain _)
  | .compound form parts => by
    simp only [ofTy, Walk.ofTy, Occurrence.ofTy]
    exact shuffled_tys around parts

theorem shuffled_tys (around : Regions) : (tys : List Ty) →
    Shuffled (Walk.ofTys (a.ofTys tys)) (Walk.ofTys tys) (Occurrence.ofTys around (a.ofTys tys))
      (Occurrence.ofTys around tys)
  | [] => .refl _ _
  | ty :: tys => by
    simp only [ofTys, Walk.ofTys, Occurrence.ofTys]
    exact (shuffled_ty around ty).append (shuffled_tys around tys)

theorem shuffled_ty? (around : Regions) : (ty : Option Ty) →
    Shuffled (Walk.ofTy? (a.ofTy? ty)) (Walk.ofTy? ty) (Occurrence.ofTy? around (a.ofTy? ty))
      (Occurrence.ofTy? around ty)
  | none => .refl _ _
  | some ty => by
    simp only [ofTy?, Walk.ofTy?, Occurrence.ofTy?]
    exact shuffled_ty around ty

theorem shuffled_expr (around : Regions) : (expr : Expr) →
    Shuffled (Walk.ofExpr (a.ofExpr expr)) (Walk.ofExpr expr)
      (Occurrence.ofExpr around (a.ofExpr expr)) (Occurrence.ofExpr around expr)
  | .path path args => by
    simp only [ofExpr, Walk.ofExpr, Occurrence.ofExpr]
    exact .cons _ _ (shuffled_genericArgs around args)
  | .selfValue id span => .refl _ _
  | .operation form operands => by
    simp only [ofExpr, Walk.ofExpr, Occurrence.ofExpr]
    exact shuffled_exprs around operands
  | .block .plain block => by
    simp only [ofExpr, Walk.ofExpr, Occurrence.ofExpr]
    exact shuffled_block .block around block
  | .block .loop block => by
    simp only [ofExpr, Walk.ofExpr, Occurrence.ofExpr]
    exact shuffled_block .loop around block
  | .ifElse cond thenBlock elseBlock => by
    simp only [ofExpr, Walk.ofExpr, Occurrence.ofExpr]
    exact ((shuffled_expr around cond).append (shuffled_block? around thenBlock)).append
      (shuffled_block? around elseBlock)
  | .invoke callee args => by
    have others := shuffled_args around args
    -- a callee that is a path stays one, and is called with the same labels
    cases callee with
    | path path generics =>
      simp only [ofExpr, Walk.ofExpr, Occurrence.ofExpr, suffix_ofArgs]
      exact .append (.cons _ _ (shuffled_genericArgs around generics)) others
    | _ => exact (shuffled_expr around _).append others
  | .lambda params ret body => by
    simp only [ofExpr, Walk.ofExpr, Occurrence.ofExpr, binders_ofParams]
    exact ((shuffled_paramTypes around params).append (shuffled_ty? around ret)).append
      (((shuffled_paramPats _ params).append (shuffled_expr _ body)).plain _)
  | .matchOn subject arms => by
    simp only [ofExpr, Walk.ofExpr, Occurrence.ofExpr]
    exact (shuffled_expr around subject).append (shuffled_arms around arms)
  | .struct path args fields => by
    simp only [ofExpr, Walk.ofExpr, Occurrence.ofExpr]
    exact .append (.cons _ _ (shuffled_genericArgs around args)) (shuffled_fieldInits around fields)

theorem shuffled_exprs (around : Regions) : (exprs : List Expr) →
    Shuffled (Walk.ofExprs (a.ofExprs exprs)) (Walk.ofExprs exprs)
      (Occurrence.ofExprs around (a.ofExprs exprs)) (Occurrence.ofExprs around exprs)
  | [] => .refl _ _
  | expr :: exprs => by
    simp only [ofExprs, Walk.ofExprs, Occurrence.ofExprs]
    exact (shuffled_expr around expr).append (shuffled_exprs around exprs)

theorem shuffled_expr? (around : Regions) : (expr : Option Expr) →
    Shuffled (Walk.ofExpr? (a.ofExpr? expr)) (Walk.ofExpr? expr)
      (Occurrence.ofExpr? around (a.ofExpr? expr)) (Occurrence.ofExpr? around expr)
  | none => .refl _ _
  | some expr => by
    simp only [ofExpr?, Walk.ofExpr?, Occurrence.ofExpr?]
    exact shuffled_expr around expr

theorem shuffled_args (around : Regions) : (args : List Arg) →
    Shuffled (Walk.ofArgs (a.ofArgs args)) (Walk.ofArgs args)
      (Occurrence.ofArgs around (a.ofArgs args)) (Occurrence.ofArgs around args)
  | [] => .refl _ _
  | .mk label value :: args => by
    simp only [ofArgs, ofArg, Walk.ofArgs, Occurrence.ofArgs]
    exact (shuffled_expr around value).append (shuffled_args around args)

theorem shuffled_fieldInits (around : Regions) : (fields : List FieldInit) →
    Shuffled (Walk.ofFieldInits (a.ofFieldInits fields)) (Walk.ofFieldInits fields)
      (Occurrence.ofFieldInits around (a.ofFieldInits fields))
      (Occurrence.ofFieldInits around fields)
  | [] => .refl _ _
  | .mk id name none :: fields => by
    simp only [ofFieldInits, ofFieldInit, ofExpr?, Walk.ofFieldInits, Occurrence.ofFieldInits]
    exact .cons _ _ (shuffled_fieldInits around fields)
  | .mk id name (some value) :: fields => by
    simp only [ofFieldInits, ofFieldInit, ofExpr?, Walk.ofFieldInits, Occurrence.ofFieldInits]
    exact (shuffled_expr around value).append (shuffled_fieldInits around fields)

theorem shuffled_arms (around : Regions) : (arms : List Arm) →
    Shuffled (Walk.ofArms (a.ofArms arms)) (Walk.ofArms arms)
      (Occurrence.ofArms around (a.ofArms arms)) (Occurrence.ofArms around arms)
  | [] => .refl _ _
  | .mk pat body :: arms => by
    simp only [ofArms, ofArm, Walk.ofArms, Occurrence.ofArms, binders_ofPat]
    exact (((shuffled_pat true _ pat).append (shuffled_expr _ body)).plain _).append
      (shuffled_arms around arms)

theorem shuffled_paramTypes (around : Regions) : (params : List Param) →
    Shuffled (Walk.ofParamTypes (a.ofParams params)) (Walk.ofParamTypes params)
      (Occurrence.ofParamTypes around (a.ofParams params)) (Occurrence.ofParamTypes around params)
  | [] => .refl _ _
  | .mk label pat ty default :: params => by
    simp only [ofParams, ofParam, Walk.ofParamTypes, Occurrence.ofParamTypes]
    exact ((shuffled_ty? around ty).append (shuffled_expr? around default)).append
      (shuffled_paramTypes around params)

theorem shuffled_paramPats (around : Regions) : (params : List Param) →
    Shuffled (Walk.ofParamPats (a.ofParams params)) (Walk.ofParamPats params)
      (Occurrence.ofParamPats around (a.ofParams params)) (Occurrence.ofParamPats around params)
  | [] => .refl _ _
  | .mk label pat ty default :: params => by
    simp only [ofParams, ofParam, Walk.ofParamPats, Occurrence.ofParamPats, binders_ofPat]
    exact (shuffled_pat false around pat).append (shuffled_paramPats _ params)

theorem shuffled_block (kind : ScopeKind) (around : Regions) : (block : Block) →
    Shuffled (Walk.ofBlock kind (a.ofBlock block)) (Walk.ofBlock kind block)
      (Occurrence.ofBlock kind around (a.ofBlock block)) (Occurrence.ofBlock kind around block)
  | .mk id stmts => by
    simp only [ofBlock, Walk.ofBlock, Occurrence.ofBlock, any_isItem_ofStmts]
    exact (shuffled_stmts _ stmts).within _ _

theorem shuffled_block? (around : Regions) : (block : Option Block) →
    Shuffled (Walk.ofBlock? (a.ofBlock? block)) (Walk.ofBlock? block)
      (Occurrence.ofBlock? around (a.ofBlock? block)) (Occurrence.ofBlock? around block)
  | none => .refl _ _
  | some block => by
    simp only [ofBlock?, Walk.ofBlock?, Occurrence.ofBlock?]
    exact shuffled_block .block around block

theorem shuffled_stmt (around : Regions) : (stmt : Stmt) →
    Shuffled (Walk.ofStmt (a.ofStmt stmt)) (Walk.ofStmt stmt)
      (Occurrence.ofStmt around (a.ofStmt stmt)) (Occurrence.ofStmt around stmt)
  | .expr value => by
    simp only [ofStmt, Walk.ofStmt, Occurrence.ofStmt]
    exact shuffled_expr around value
  | .item item => by
    simp only [ofStmt, Walk.ofStmt, Occurrence.ofStmt]
    exact shuffled_item around item
  | .letBind pat ty value => by
    simp only [ofStmt, Walk.ofStmt, Occurrence.ofStmt]
    exact ((shuffled_ty? around ty).append (shuffled_expr? around value)).append
      (shuffled_pat true around pat)
  | .forLoop pat iter body => by
    simp only [ofStmt, Walk.ofStmt, Occurrence.ofStmt, binders_ofPat]
    exact (shuffled_expr around iter).append
      (((shuffled_pat true _ pat).append (shuffled_block .block _ body)).plain _)
  | .whileLoop cond body => by
    simp only [ofStmt, Walk.ofStmt, Occurrence.ofStmt]
    exact (shuffled_expr around cond).append (shuffled_block .loop around body)

theorem shuffled_stmts (around : Regions) : (stmts : List Stmt) →
    Shuffled (Walk.ofStmts (a.ofStmts stmts)) (Walk.ofStmts stmts)
      (Occurrence.ofStmts around (a.ofStmts stmts)) (Occurrence.ofStmts around stmts)
  | [] => .refl _ _
  | stmt :: stmts => by
    simp only [ofStmts, Walk.ofStmts, Occurrence.ofStmts, binders_ofStmt]
    exact (shuffled_stmt around stmt).append (shuffled_stmts _ stmts)

theorem shuffled_pat (variants : Bool) (around : Regions) : (pat : Pat) →
    Shuffled (Walk.ofPat variants (a.ofPat pat)) (Walk.ofPat variants pat)
      (Occurrence.ofPat variants around (a.ofPat pat)) (Occurrence.ofPat variants around pat)
  | .ident id name none => .refl _ _
  | .ident id name (some sub) => by
    simp only [ofPat, ofPat?, Walk.ofPat, Occurrence.ofPat]
    exact .cons _ _ (shuffled_pat variants _ sub)
  | .path path args => by
    simp only [ofPat, Walk.ofPat, Occurrence.ofPat]
    exact .cons _ _ (shuffled_genericArgs around args)
  | .struct path args fields => by
    simp only [ofPat, Walk.ofPat, Occurrence.ofPat]
    exact .append (.cons _ _ (shuffled_genericArgs around args))
      (shuffled_fieldPats variants around fields)
  | .borrow inner => by
    simp only [ofPat, Walk.ofPat, Occurrence.ofPat]
    exact shuffled_pat variants around inner
  | .paren inner => by
    simp only [ofPat, Walk.ofPat, Occurrence.ofPat]
    exact shuffled_pat variants around inner
  | .tuple pats => by
    simp only [ofPat, Walk.ofPat, Occurrence.ofPat]
    exact shuffled_pats variants around pats
  | .literal | .rest | .wildcard => .refl _ _

theorem shuffled_pats (variants : Bool) (around : Regions) : (pats : List Pat) →
    Shuffled (Walk.ofPats variants (a.ofPats pats)) (Walk.ofPats variants pats)
      (Occurrence.ofPats variants around (a.ofPats pats)) (Occurrence.ofPats variants around pats)
  | [] => .refl _ _
  | pat :: pats => by
    simp only [ofPats, Walk.ofPats, Occurrence.ofPats, binders_ofPat]
    exact (shuffled_pat variants around pat).append (shuffled_pats variants _ pats)

theorem shuffled_fieldPats (variants : Bool) (around : Regions) : (fields : List FieldPat) →
    Shuffled (Walk.ofFieldPats variants (a.ofFieldPats fields)) (Walk.ofFieldPats variants fields)
      (Occurrence.ofFieldPats variants around (a.ofFieldPats fields))
      (Occurrence.ofFieldPats variants around fields)
  | [] => .refl _ _
  | .mk id name none :: fields => by
    simp only [ofFieldPats, ofFieldPat, ofPat?, Walk.ofFieldPats, Occurrence.ofFieldPats]
    exact .cons _ _ (shuffled_fieldPats variants _ fields)
  | .mk id name (some pat) :: fields => by
    simp only [ofFieldPats, ofFieldPat, ofPat?, Walk.ofFieldPats, Occurrence.ofFieldPats,
      binders_ofPat]
    exact (shuffled_pat variants around pat).append (shuffled_fieldPats variants _ fields)

theorem shuffled_genericParam (around : Regions) : (param : GenericParam) →
    Shuffled (Walk.ofGenericParam (a.ofGenericParam param)) (Walk.ofGenericParam param)
      (Occurrence.ofGenericParam around (a.ofGenericParam param))
      (Occurrence.ofGenericParam around param)
  | .type id name bound => by
    simp only [ofGenericParam, Walk.ofGenericParam, Occurrence.ofGenericParam]
    exact (shuffled_ty? around bound).skip _
  | .lifetime id name => .refl _ _
  | .const id name ty default => by
    simp only [ofGenericParam, Walk.ofGenericParam, Occurrence.ofGenericParam]
    exact ((shuffled_ty around ty).append (shuffled_expr? around default)).skip _

theorem shuffled_genericParams (around : Regions) : (params : List GenericParam) →
    Shuffled (Walk.ofGenericParams (a.ofGenericParams params)) (Walk.ofGenericParams params)
      (Occurrence.ofGenericParams around (a.ofGenericParams params))
      (Occurrence.ofGenericParams around params)
  | [] => .refl _ _
  | param :: params => by
    simp only [ofGenericParams, Walk.ofGenericParams, Occurrence.ofGenericParams]
    exact (shuffled_genericParam around param).append (shuffled_genericParams around params)

theorem shuffled_variants (around : Regions) : (variants : List Variant) →
    Shuffled (Walk.ofVariants (a.ofVariants variants)) (Walk.ofVariants variants)
      (Occurrence.ofVariants around (a.ofVariants variants)) (Occurrence.ofVariants around variants)
  | [] => .refl _ _
  | .mk id name types :: variants => by
    simp only [ofVariants, ofVariant, Walk.ofVariants, Occurrence.ofVariants]
    exact ((shuffled_tys around types).append (shuffled_variants around variants)).skip _

theorem shuffled_item (around : Regions) : (item : Item) →
    Shuffled (Walk.ofItem (a.ofItem item)) (Walk.ofItem item)
      (Occurrence.ofItem around (a.ofItem item)) (Occurrence.ofItem around item)
  | .const head name ty none => by
    simp only [ofItem, ofExpr?, Walk.ofItem, Occurrence.ofItem, Occurrence.ofExpr?, List.append_nil]
    exact (shuffled_ty? around ty).skip _
  | .const head name ty (some value) => by
    simp only [ofItem, ofExpr?, Walk.ofItem, Occurrence.ofItem, Occurrence.ofExpr?]
    exact ((shuffled_ty? around ty).append ((shuffled_expr _ value).plain _)).skip _
  | .enum head name generics variants => by
    simp only [ofItem, Walk.ofItem, Occurrence.ofItem]
    exact ((shuffled_genericParams _ generics).append (shuffled_variants _ variants)).within _ _
  | .func head kind name generics params ret body => by
    simp only [ofItem, Walk.ofItem, Occurrence.ofItem, isSome_ofExpr?, isEmpty_ofGenericParams,
      binders_ofParams]
    exact (((((shuffled_genericParams _ generics).append (shuffled_paramTypes _ params)).append
      (shuffled_ty? _ ret)).append (shuffled_paramPats _ params)).append
      (shuffled_expr? _ body)).within _ _
  | .impl head generics ofTrait forTy members => by
    simp only [ofItem, Walk.ofItem, Occurrence.ofItem]
    exact ((((shuffled_genericParams _ generics).append (shuffled_ty? _ ofTrait)).append
      (shuffled_ty _ forTy)).append (shuffled_items _ members)).within _ _
  | .mod head name items => by
    simp only [ofItem, Walk.ofItem, Occurrence.ofItem]
    exact ((Shuffled.of_perm (a.perm _ _) _).trans (shuffled_items _ items)).within _ _
  | .struct head name generics fields => by
    simp only [ofItem, Walk.ofItem, Occurrence.ofItem]
    exact ((shuffled_genericParams _ generics).append (shuffled_tys _ fields)).within _ _
  | .trait head name generics supers members => by
    simp only [ofItem, Walk.ofItem, Occurrence.ofItem]
    exact (((shuffled_genericParams _ generics).append (shuffled_tys _ supers)).append
      (shuffled_items _ members)).within _ _
  | .typeAlias head name ty => by
    simp only [ofItem, Walk.ofItem, Occurrence.ofItem]
    exact (shuffled_ty? around ty).skip _
  | .useDecl head tree => .refl _ _

theorem shuffled_items (around : Regions) : (items : List Item) →
    Shuffled (Walk.ofItems (a.ofItems items)) (Walk.ofItems items)
      (Occurrence.ofItems around (a.ofItems items)) (Occurrence.ofItems around items)
  | [] => .refl _ _
  | item :: items => by
    simp only [ofItems, Walk.ofItems, Occurrence.ofItems]
    exact (shuffled_item around item).append (shuffled_items around items)

end

/-- A rearranged program is gone through in the same steps and has the same occurrences, with the
    same regions around them. -/
theorem shuffled_program (program : Program) :
    Shuffled (Walk.ofProgram (a.ofProgram program)) (Walk.ofProgram program)
      (a.ofProgram program).occurrences program.occurrences :=
  (Shuffled.of_perm (a.perm _ _) _).trans (a.shuffled_items _ program.items)

end Arrangement

end NameResolution

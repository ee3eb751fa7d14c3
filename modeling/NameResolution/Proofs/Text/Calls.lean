import NameResolution.Proofs.Text.Walk

/-! # Calls

    A call asks for a function by the labels of its arguments. Where the callee
    is directly a path, the labels go with the path into the walk, and no other
    path comes with labels. -/

namespace NameResolution

/-- A call whose callee is a path. -/
structure Call where
  callee : Path
  args : List Arg

namespace Call

/-- A call of some callee, if it is a path. -/
def of? (args : List Arg) : Expr → List Call
  | .path path _ => [⟨path, args⟩]
  | _ => []

mutual

def ofGenericArg : GenericArg → List Call
  | .type ty => ofTy ty
  | .lifetime _ _ => []
  | .const value => ofExpr value

def ofGenericArgs : List GenericArg → List Call
  | [] => []
  | arg :: args => ofGenericArg arg ++ ofGenericArgs args

def ofTy : Ty → List Call
  | .path _ args => ofGenericArgs args
  | .array elem size => ofTy elem ++ ofExpr size
  | .compound _ parts => ofTys parts

def ofTys : List Ty → List Call
  | [] => []
  | ty :: tys => ofTy ty ++ ofTys tys

def ofTy? : Option Ty → List Call
  | none => []
  | some ty => ofTy ty

def ofExpr : Expr → List Call
  | .path _ args => ofGenericArgs args
  | .selfValue _ _ => []
  | .operation _ operands => ofExprs operands
  | .block _ block => ofBlock block
  | .ifElse cond thenBlock elseBlock => ofExpr cond ++ ofBlock? thenBlock ++ ofBlock? elseBlock
  | .invoke callee args => of? args callee ++ ofExpr callee ++ ofArgs args
  | .lambda params ret body =>
    ofParamTypes params ++ ofTy? ret ++ (ofParamPats params ++ ofExpr body)
  | .matchOn subject arms => ofExpr subject ++ ofArms arms
  | .struct _ args fields => ofGenericArgs args ++ ofFieldInits fields

def ofExprs : List Expr → List Call
  | [] => []
  | expr :: exprs => ofExpr expr ++ ofExprs exprs

def ofExpr? : Option Expr → List Call
  | none => []
  | some expr => ofExpr expr

def ofArgs : List Arg → List Call
  | [] => []
  | .mk _ value :: args => ofExpr value ++ ofArgs args

def ofFieldInits : List FieldInit → List Call
  | [] => []
  | .mk _ _ value :: fields => ofExpr? value ++ ofFieldInits fields

def ofArms : List Arm → List Call
  | [] => []
  | .mk pat body :: arms => ofPat pat ++ ofExpr body ++ ofArms arms

/-- Those in the types and defaults of parameters. -/
def ofParamTypes : List Param → List Call
  | [] => []
  | .mk _ _ ty default :: params => ofTy? ty ++ ofExpr? default ++ ofParamTypes params

def ofParamPats : List Param → List Call
  | [] => []
  | .mk _ pat _ _ :: params => ofPat pat ++ ofParamPats params

def ofBlock : Block → List Call
  | .mk _ stmts => ofStmts stmts

def ofBlock? : Option Block → List Call
  | none => []
  | some block => ofBlock block

def ofStmt : Stmt → List Call
  | .expr value => ofExpr value
  | .item item => ofItem item
  | .letBind pat ty value => ofTy? ty ++ ofExpr? value ++ ofPat pat
  | .forLoop pat iter body => ofExpr iter ++ (ofPat pat ++ ofBlock body)
  | .whileLoop cond body => ofExpr cond ++ ofBlock body

def ofStmts : List Stmt → List Call
  | [] => []
  | stmt :: stmts => ofStmt stmt ++ ofStmts stmts

def ofPat : Pat → List Call
  | .ident _ _ sub => ofPat? sub
  | .path _ args => ofGenericArgs args
  | .struct _ args fields => ofGenericArgs args ++ ofFieldPats fields
  | .borrow inner | .paren inner => ofPat inner
  | .tuple pats => ofPats pats
  | .literal | .rest | .wildcard => []

def ofPat? : Option Pat → List Call
  | none => []
  | some pat => ofPat pat

def ofPats : List Pat → List Call
  | [] => []
  | pat :: pats => ofPat pat ++ ofPats pats

def ofFieldPats : List FieldPat → List Call
  | [] => []
  | .mk _ _ pat :: fields => ofPat? pat ++ ofFieldPats fields

def ofGenericParam : GenericParam → List Call
  | .type _ _ bound => ofTy? bound
  | .lifetime _ _ => []
  | .const _ _ ty default => ofTy ty ++ ofExpr? default

def ofGenericParams : List GenericParam → List Call
  | [] => []
  | param :: params => ofGenericParam param ++ ofGenericParams params

def ofVariants : List Variant → List Call
  | [] => []
  | .mk _ _ types :: variants => ofTys types ++ ofVariants variants

def ofItem : Item → List Call
  | .const _ _ ty value => ofTy? ty ++ ofExpr? value
  | .enum _ _ generics variants => ofGenericParams generics ++ ofVariants variants
  | .func _ _ _ generics params ret body =>
    ofGenericParams generics ++ ofParamTypes params ++ ofTy? ret ++ ofParamPats params
      ++ ofExpr? body
  | .impl _ generics ofTrait forTy members =>
    ofGenericParams generics ++ ofTy? ofTrait ++ ofTy forTy ++ ofItems members
  | .mod _ _ items => ofItems items
  | .struct _ _ generics fields => ofGenericParams generics ++ ofTys fields
  | .trait _ _ generics supers members =>
    ofGenericParams generics ++ ofTys supers ++ ofItems members
  | .typeAlias _ _ ty => ofTy? ty
  | .useDecl _ _ => []

def ofItems : List Item → List Call
  | [] => []
  | item :: items => ofItem item ++ ofItems items

end

/-- The step of the walk that comes upon the callee. -/
def step (call : Call) : WalkStep := .path .value call.callee (some (Arg.suffix call.args))

end Call

/-- The calls in a program whose callee is a path. -/
def Program.calls (program : Program) : List Call := Call.ofItems program.items

/-! ## Calls in the walk -/

/-- Whether a step comes with the labels of a call. -/
def WalkStep.hasLabels : WalkStep → Bool
  | path _ _ (some _) => true
  | _ => false

/-- The steps with labels in a walk are those of some calls, in their order. -/
def Labels (walk : Walk) (calls : List Call) : Prop :=
  walk.filter WalkStep.hasLabels = calls.map Call.step

namespace Labels

variable {walk first second : Walk} {calls others : List Call}

theorem nothing : Labels [] [] := rfl

theorem append (h : Labels first calls) (h' : Labels second others) :
    Labels (first ++ second) (calls ++ others) := by
  unfold Labels at *
  rw [List.filter_append, List.map_append, h, h']

/-- A step without labels in front of what follows it. -/
theorem skip {step : WalkStep} (silent : step.hasLabels = false) (rest : Labels walk calls) :
    Labels (step :: walk) calls := by
  unfold Labels at *
  rw [List.filter_cons_of_neg (by simp [silent]), rest]

/-- To enter and leave a scope takes no labels. -/
theorem within {step : WalkStep} (silent : step.hasLabels = false) (inner : Labels walk calls) :
    Labels (Walk.within step walk) calls := by
  have closed := inner.append (.skip rfl .nothing : Labels [.leave] [])
  rw [List.append_nil] at closed
  exact closed.skip silent

/-- The callee of a call in front of what follows it. -/
theorem call {path : Path} {args : List Arg} (rest : Labels walk calls) :
    Labels (.path .value path (some (Arg.suffix args)) :: walk) (⟨path, args⟩ :: calls) :=
  congrArg (List.cons _) rest

end Labels

mutual

theorem labels_genericArg : (arg : GenericArg) →
    Labels (Walk.ofGenericArg arg) (Call.ofGenericArg arg)
  | .type (.path path args) => by
    rw [Walk.ofGenericArg, Call.ofGenericArg, Call.ofTy]
    exact .skip rfl (labels_genericArgs args)
  | .type (.array elem size) => by
    rw [Walk.ofGenericArg, Call.ofGenericArg]
    · exact labels_ty (.array elem size)
    · simp
  | .type (.compound form parts) => by
    rw [Walk.ofGenericArg, Call.ofGenericArg]
    · exact labels_ty (.compound form parts)
    · simp
  | .lifetime id name => by
    rw [Walk.ofGenericArg, Call.ofGenericArg]
    split
    · exact .nothing
    · exact .skip rfl .nothing
  | .const value => by
    rw [Walk.ofGenericArg, Call.ofGenericArg]
    exact .within rfl (labels_expr value)

theorem labels_genericArgs : (args : List GenericArg) →
    Labels (Walk.ofGenericArgs args) (Call.ofGenericArgs args)
  | [] => by
    rw [Walk.ofGenericArgs, Call.ofGenericArgs]
    exact .nothing
  | arg :: args => by
    rw [Walk.ofGenericArgs, Call.ofGenericArgs]
    exact .append (labels_genericArg arg) (labels_genericArgs args)

theorem labels_ty : (ty : Ty) → Labels (Walk.ofTy ty) (Call.ofTy ty)
  | .path path args => by
    rw [Walk.ofTy, Call.ofTy]
    exact .skip rfl (labels_genericArgs args)
  | .array elem size => by
    rw [Walk.ofTy, Call.ofTy]
    exact .append (labels_ty elem) (.within rfl (labels_expr size))
  | .compound _ parts => by
    rw [Walk.ofTy, Call.ofTy]
    exact labels_tys parts

theorem labels_tys : (tys : List Ty) → Labels (Walk.ofTys tys) (Call.ofTys tys)
  | [] => by
    rw [Walk.ofTys, Call.ofTys]
    exact .nothing
  | ty :: tys => by
    rw [Walk.ofTys, Call.ofTys]
    exact .append (labels_ty ty) (labels_tys tys)

theorem labels_ty? : (ty : Option Ty) → Labels (Walk.ofTy? ty) (Call.ofTy? ty)
  | none => by
    rw [Walk.ofTy?, Call.ofTy?]
    exact .nothing
  | some ty => by
    rw [Walk.ofTy?, Call.ofTy?]
    exact labels_ty ty

theorem labels_expr : (expr : Expr) → Labels (Walk.ofExpr expr) (Call.ofExpr expr)
  | .path path args => by
    rw [Walk.ofExpr, Call.ofExpr]
    exact .skip rfl (labels_genericArgs args)
  | .selfValue id span => by
    rw [Walk.ofExpr, Call.ofExpr]
    exact .skip rfl .nothing
  | .operation _ operands => by
    rw [Walk.ofExpr, Call.ofExpr]
    exact labels_exprs operands
  | .block .plain block => by
    rw [Walk.ofExpr, Call.ofExpr]
    exact labels_block .block block
  | .block .loop block => by
    rw [Walk.ofExpr, Call.ofExpr]
    exact labels_block .loop block
  | .ifElse cond thenBlock elseBlock => by
    rw [Walk.ofExpr, Call.ofExpr]
    exact .append (.append (labels_expr cond) (labels_block? thenBlock)) (labels_block? elseBlock)
  | .invoke callee args => by
    rw [Call.ofExpr]
    -- the labels are those of a callee that is a path; any other callee is read by itself
    cases callee with
    | path path generics =>
      rw [Walk.ofExpr, Call.ofExpr]
      exact .append (.call (labels_genericArgs generics)) (labels_args args)
    | _ =>
      rw [Walk.ofExpr]
      · exact .append (labels_expr _) (labels_args args)
      · simp
  | .lambda params ret body => by
    rw [Walk.ofExpr, Call.ofExpr]
    exact .append (.append (labels_paramTypes params) (labels_ty? ret))
      (.within rfl (.append (labels_paramPats params) (labels_expr body)))
  | .matchOn subject arms => by
    rw [Walk.ofExpr, Call.ofExpr]
    exact .append (labels_expr subject) (labels_arms arms)
  | .struct path args fields => by
    rw [Walk.ofExpr, Call.ofExpr]
    exact .append (.skip rfl (labels_genericArgs args)) (labels_fieldInits fields)

theorem labels_exprs : (exprs : List Expr) → Labels (Walk.ofExprs exprs) (Call.ofExprs exprs)
  | [] => by
    rw [Walk.ofExprs, Call.ofExprs]
    exact .nothing
  | expr :: exprs => by
    rw [Walk.ofExprs, Call.ofExprs]
    exact .append (labels_expr expr) (labels_exprs exprs)

theorem labels_expr? : (expr : Option Expr) → Labels (Walk.ofExpr? expr) (Call.ofExpr? expr)
  | none => by
    rw [Walk.ofExpr?, Call.ofExpr?]
    exact .nothing
  | some expr => by
    rw [Walk.ofExpr?, Call.ofExpr?]
    exact labels_expr expr

theorem labels_args : (args : List Arg) → Labels (Walk.ofArgs args) (Call.ofArgs args)
  | [] => by
    rw [Walk.ofArgs, Call.ofArgs]
    exact .nothing
  | .mk _ value :: args => by
    rw [Walk.ofArgs, Call.ofArgs]
    exact .append (labels_expr value) (labels_args args)

theorem labels_fieldInits : (fields : List FieldInit) →
    Labels (Walk.ofFieldInits fields) (Call.ofFieldInits fields)
  | [] => by
    rw [Walk.ofFieldInits, Call.ofFieldInits]
    exact .nothing
  | .mk id name none :: fields => by
    rw [Walk.ofFieldInits, Call.ofFieldInits, Call.ofExpr?]
    exact .skip rfl (labels_fieldInits fields)
  | .mk _ _ (some value) :: fields => by
    rw [Walk.ofFieldInits, Call.ofFieldInits, Call.ofExpr?]
    exact .append (labels_expr value) (labels_fieldInits fields)

theorem labels_arms : (arms : List Arm) → Labels (Walk.ofArms arms) (Call.ofArms arms)
  | [] => by
    rw [Walk.ofArms, Call.ofArms]
    exact .nothing
  | .mk pat body :: arms => by
    rw [Walk.ofArms, Call.ofArms]
    exact .append (.within rfl (.append (labels_pat true pat) (labels_expr body)))
      (labels_arms arms)

theorem labels_paramTypes : (params : List Param) →
    Labels (Walk.ofParamTypes params) (Call.ofParamTypes params)
  | [] => by
    rw [Walk.ofParamTypes, Call.ofParamTypes]
    exact .nothing
  | .mk _ _ ty default :: params => by
    rw [Walk.ofParamTypes, Call.ofParamTypes]
    exact .append (.append (labels_ty? ty) (labels_expr? default)) (labels_paramTypes params)

theorem labels_paramPats : (params : List Param) →
    Labels (Walk.ofParamPats params) (Call.ofParamPats params)
  | [] => by
    rw [Walk.ofParamPats, Call.ofParamPats]
    exact .nothing
  | .mk _ pat _ _ :: params => by
    rw [Walk.ofParamPats, Call.ofParamPats]
    exact .append (labels_pat false pat) (labels_paramPats params)

theorem labels_block (kind : ScopeKind) : (block : Block) →
    Labels (Walk.ofBlock kind block) (Call.ofBlock block)
  | .mk id stmts => by
    rw [Walk.ofBlock, Call.ofBlock]
    exact .within rfl (labels_stmts stmts)

theorem labels_block? : (block : Option Block) →
    Labels (Walk.ofBlock? block) (Call.ofBlock? block)
  | none => by
    rw [Walk.ofBlock?, Call.ofBlock?]
    exact .nothing
  | some block => by
    rw [Walk.ofBlock?, Call.ofBlock?]
    exact labels_block .block block

theorem labels_stmt : (stmt : Stmt) → Labels (Walk.ofStmt stmt) (Call.ofStmt stmt)
  | .expr value => by
    rw [Walk.ofStmt, Call.ofStmt]
    exact labels_expr value
  | .item item => by
    rw [Walk.ofStmt, Call.ofStmt]
    exact labels_item item
  | .letBind pat ty value => by
    rw [Walk.ofStmt, Call.ofStmt]
    exact .append (.append (labels_ty? ty) (labels_expr? value)) (labels_pat true pat)
  | .forLoop pat iter body => by
    rw [Walk.ofStmt, Call.ofStmt]
    exact .append (labels_expr iter)
      (.within rfl (.append (labels_pat true pat) (labels_block .block body)))
  | .whileLoop cond body => by
    rw [Walk.ofStmt, Call.ofStmt]
    exact .append (labels_expr cond) (labels_block .loop body)

theorem labels_stmts : (stmts : List Stmt) → Labels (Walk.ofStmts stmts) (Call.ofStmts stmts)
  | [] => by
    rw [Walk.ofStmts, Call.ofStmts]
    exact .nothing
  | stmt :: stmts => by
    rw [Walk.ofStmts, Call.ofStmts]
    exact .append (labels_stmt stmt) (labels_stmts stmts)

theorem labels_pat (variants : Bool) : (pat : Pat) →
    Labels (Walk.ofPat variants pat) (Call.ofPat pat)
  | .ident id name none => by
    rw [Walk.ofPat, Call.ofPat, Call.ofPat?]
    -- a name is bound without labels, be it matched or not
    cases variants <;> exact .skip rfl .nothing
  | .ident id name (some sub) => by
    rw [Walk.ofPat, Call.ofPat, Call.ofPat?]
    exact .skip rfl (labels_pat variants sub)
  | .path path args => by
    rw [Walk.ofPat, Call.ofPat]
    exact .skip rfl (labels_genericArgs args)
  | .struct path args fields => by
    rw [Walk.ofPat, Call.ofPat]
    exact .append (.skip rfl (labels_genericArgs args)) (labels_fieldPats variants fields)
  | .borrow inner | .paren inner => by
    rw [Walk.ofPat, Call.ofPat]
    exact labels_pat variants inner
  | .tuple pats => by
    rw [Walk.ofPat, Call.ofPat]
    exact labels_pats variants pats
  | .literal | .rest | .wildcard => by
    rw [Walk.ofPat, Call.ofPat]
    exact .nothing

theorem labels_pats (variants : Bool) : (pats : List Pat) →
    Labels (Walk.ofPats variants pats) (Call.ofPats pats)
  | [] => by
    rw [Walk.ofPats, Call.ofPats]
    exact .nothing
  | pat :: pats => by
    rw [Walk.ofPats, Call.ofPats]
    exact .append (labels_pat variants pat) (labels_pats variants pats)

theorem labels_fieldPats (variants : Bool) : (fields : List FieldPat) →
    Labels (Walk.ofFieldPats variants fields) (Call.ofFieldPats fields)
  | [] => by
    rw [Walk.ofFieldPats, Call.ofFieldPats]
    exact .nothing
  | .mk id name none :: fields => by
    rw [Walk.ofFieldPats, Call.ofFieldPats, Call.ofPat?]
    exact .skip rfl (labels_fieldPats variants fields)
  | .mk _ _ (some pat) :: fields => by
    rw [Walk.ofFieldPats, Call.ofFieldPats, Call.ofPat?]
    exact .append (labels_pat variants pat) (labels_fieldPats variants fields)

theorem labels_genericParam : (param : GenericParam) →
    Labels (Walk.ofGenericParam param) (Call.ofGenericParam param)
  | .type id name bound => by
    rw [Walk.ofGenericParam, Call.ofGenericParam]
    exact labels_ty? bound
  | .lifetime id name => by
    rw [Walk.ofGenericParam, Call.ofGenericParam]
    exact .nothing
  | .const id name ty default => by
    rw [Walk.ofGenericParam, Call.ofGenericParam]
    exact .append (labels_ty ty) (labels_expr? default)

theorem labels_genericParams : (params : List GenericParam) →
    Labels (Walk.ofGenericParams params) (Call.ofGenericParams params)
  | [] => by
    rw [Walk.ofGenericParams, Call.ofGenericParams]
    exact .nothing
  | param :: params => by
    rw [Walk.ofGenericParams, Call.ofGenericParams]
    exact .append (labels_genericParam param) (labels_genericParams params)

theorem labels_variants : (variants : List Variant) →
    Labels (Walk.ofVariants variants) (Call.ofVariants variants)
  | [] => by
    rw [Walk.ofVariants, Call.ofVariants]
    exact .nothing
  | .mk id name types :: variants => by
    rw [Walk.ofVariants, Call.ofVariants]
    exact .append (labels_tys types) (labels_variants variants)

theorem labels_item : (item : Item) → Labels (Walk.ofItem item) (Call.ofItem item)
  | .const head name ty none => by
    rw [Walk.ofItem, Call.ofItem, Call.ofExpr?, List.append_nil]
    exact labels_ty? ty
  | .const head name ty (some value) => by
    rw [Walk.ofItem, Call.ofItem, Call.ofExpr?]
    exact .append (labels_ty? ty) (.within rfl (labels_expr value))
  | .enum head name generics variants => by
    rw [Walk.ofItem, Call.ofItem]
    exact .within rfl (.append (labels_genericParams generics) (labels_variants variants))
  | .func head kind name generics params ret body => by
    rw [Walk.ofItem, Call.ofItem]
    exact .within rfl
      (.append (.append (.append (.append (labels_genericParams generics)
        (labels_paramTypes params)) (labels_ty? ret)) (labels_paramPats params))
        (labels_expr? body))
  | .impl head generics ofTrait forTy members => by
    rw [Walk.ofItem, Call.ofItem]
    exact .within rfl (.append (.append (.append (labels_genericParams generics)
      (labels_ty? ofTrait)) (labels_ty forTy)) (labels_items members))
  | .mod head name items => by
    rw [Walk.ofItem, Call.ofItem]
    exact .within rfl (labels_items items)
  | .struct head name generics fields => by
    rw [Walk.ofItem, Call.ofItem]
    exact .within rfl (.append (labels_genericParams generics) (labels_tys fields))
  | .trait head name generics supers members => by
    rw [Walk.ofItem, Call.ofItem]
    exact .within rfl (.append (.append (labels_genericParams generics) (labels_tys supers))
      (labels_items members))
  | .typeAlias head name ty => by
    rw [Walk.ofItem, Call.ofItem]
    exact labels_ty? ty
  | .useDecl head tree => by
    rw [Walk.ofItem, Call.ofItem]
    exact .nothing

theorem labels_items : (items : List Item) → Labels (Walk.ofItems items) (Call.ofItems items)
  | [] => by
    rw [Walk.ofItems, Call.ofItems]
    exact .nothing
  | item :: items => by
    rw [Walk.ofItems, Call.ofItems]
    exact .append (labels_item item) (labels_items items)

end

/-- In the walk through a program, exactly the callees of its calls come with labels. -/
theorem Program.labels_walk (program : Program) : Labels (.ofProgram program) program.calls :=
  labels_items program.items

/-- The walk comes by each callee. -/
theorem Call.step_mem_walk {program : Program} {call : Call} (mem : call ∈ program.calls) :
    call.step ∈ Walk.ofProgram program :=
  (List.mem_filter.mp (program.labels_walk.symm ▸ List.mem_map_of_mem mem)).1

end NameResolution

import NameResolution.Proofs.Text.Outline

/-! # The way of the first pass

    An outline leaves out all nodes for which nothing is declared. The tour of a
    piece of the text is the whole way of the first pass through it: the steps of
    the outline, and between them the nodes that it goes by. Wherever it goes by
    an occurrence, the innermost open module is that of the regions around it. -/

namespace NameResolution

/-- A step on the way of the first pass. -/
inductive TourStep where
  | declare (step : OutlineStep)
  /-- A node for which nothing is declared -/
  | pass (node : NodeId)
  deriving DecidableEq, Repr

/-- The step of the outline, if it is one. -/
def TourStep.outline? : TourStep → Option OutlineStep
  | declare step => some step
  | pass _ => none

/-- The way of the first pass through a piece of the text. -/
abbrev Tour := List TourStep

namespace Tour

/-- The steps of the outline on the way. -/
def outline (tour : Tour) : Outline := tour.filterMap TourStep.outline?

/-- The way through a module, from the step that opens it to the one that leaves it. -/
def within (first : OutlineStep) (inner : Tour) : Tour :=
  .declare first :: (inner ++ [.declare .leave])

mutual

def ofGenericArg : GenericArg → Tour
  | .type ty => ofTy ty
  | .lifetime id _ => [.pass id]
  | .const value => ofExpr value

def ofGenericArgs : List GenericArg → Tour
  | [] => []
  | arg :: args => ofGenericArg arg ++ ofGenericArgs args

def ofTy : Ty → Tour
  | .path path args => .pass path.id :: ofGenericArgs args
  | .array elem size => ofTy elem ++ ofExpr size
  | .compound _ parts => ofTys parts

def ofTys : List Ty → Tour
  | [] => []
  | ty :: tys => ofTy ty ++ ofTys tys

def ofTy? : Option Ty → Tour
  | none => []
  | some ty => ofTy ty

def ofExpr : Expr → Tour
  | .path path args => .pass path.id :: ofGenericArgs args
  | .selfValue id _ => [.pass id]
  | .operation _ operands => ofExprs operands
  | .block _ block => ofBlock block
  | .ifElse cond thenBlock elseBlock => ofExpr cond ++ ofBlock? thenBlock ++ ofBlock? elseBlock
  | .invoke callee args => ofExpr callee ++ ofArgs args
  | .lambda params ret body => ofParams params ++ ofTy? ret ++ ofExpr body
  | .matchOn subject arms => ofExpr subject ++ ofArms arms
  | .struct path args fields => .pass path.id :: (ofGenericArgs args ++ ofFieldInits fields)

def ofExprs : List Expr → Tour
  | [] => []
  | expr :: exprs => ofExpr expr ++ ofExprs exprs

def ofExpr? : Option Expr → Tour
  | none => []
  | some expr => ofExpr expr

def ofArgs : List Arg → Tour
  | [] => []
  | .mk _ value :: args => ofExpr value ++ ofArgs args

def ofFieldInits : List FieldInit → Tour
  | [] => []
  | .mk id _ none :: fields => .pass id :: ofFieldInits fields
  | .mk _ _ (some value) :: fields => ofExpr value ++ ofFieldInits fields

def ofArms : List Arm → Tour
  | [] => []
  | .mk pat body :: arms => ofPat pat ++ ofExpr body ++ ofArms arms

/-- Each parameter is gone through as a whole, its pattern first. -/
def ofParams : List Param → Tour
  | [] => []
  | .mk _ pat ty default :: params => ofPat pat ++ ofTy? ty ++ ofExpr? default ++ ofParams params

def ofBlock : Block → Tour
  | .mk id stmts =>
    if stmts.any Stmt.isItem then within (.enterBlock id) (ofStmts stmts)
    else .pass id :: ofStmts stmts

def ofBlock? : Option Block → Tour
  | none => []
  | some block => ofBlock block

/-- A pattern comes in front of its type and its value. -/
def ofStmt : Stmt → Tour
  | .expr value => ofExpr value
  | .item item => ofItem item
  | .letBind pat ty value => ofPat pat ++ ofTy? ty ++ ofExpr? value
  | .forLoop pat iter body => ofPat pat ++ ofExpr iter ++ ofBlock body
  | .whileLoop cond body => ofExpr cond ++ ofBlock body

def ofStmts : List Stmt → Tour
  | [] => []
  | stmt :: stmts => ofStmt stmt ++ ofStmts stmts

def ofPat : Pat → Tour
  | .ident id _ none => [.pass id]
  | .ident id _ (some sub) => .pass id :: ofPat sub
  | .path path args => .pass path.id :: ofGenericArgs args
  | .struct path args fields => .pass path.id :: (ofGenericArgs args ++ ofFieldPats fields)
  | .borrow inner | .paren inner => ofPat inner
  | .tuple pats => ofPats pats
  | .literal | .rest | .wildcard => []

def ofPats : List Pat → Tour
  | [] => []
  | pat :: pats => ofPat pat ++ ofPats pats

def ofFieldPats : List FieldPat → Tour
  | [] => []
  | .mk id _ none :: fields => .pass id :: ofFieldPats fields
  | .mk _ _ (some pat) :: fields => ofPat pat ++ ofFieldPats fields

def ofGenericParam : GenericParam → Tour
  | .type id name bound => .declare (.declare false id .typeParam name) :: ofTy? bound
  | .lifetime id name => [.declare (.declare false id .lifetime name)]
  | .const id name ty default =>
    .declare (.declare false id .constParam name) :: (ofTy ty ++ ofExpr? default)

def ofGenericParams : List GenericParam → Tour
  | [] => []
  | param :: params => ofGenericParam param ++ ofGenericParams params

def ofVariants : List Variant → Tour
  | [] => []
  | .mk id name types :: variants =>
    .declare (.declare true id .variant name) :: (ofTys types ++ ofVariants variants)

def ofItem : Item → Tour
  | .const head name ty value =>
    .declare (.declare head.isPub head.id .const name) :: (ofTy? ty ++ ofExpr? value)
  | .enum head name generics variants =>
    within (.enterItem head.isPub head.id .enum name)
      (ofGenericParams generics ++ ofVariants variants)
  | .func head kind name generics params ret body =>
    let inner := ofGenericParams generics ++ ofParams params ++ ofTy? ret ++ ofExpr? body
    let suffix := Param.suffix params
    if body.isSome || !generics.isEmpty then
      within (.enterFunc head.isPub head.id kind name suffix) inner
    else .declare (.declareFunc head.isPub head.id kind name suffix) :: inner
  | .impl head generics ofTrait forTy members =>
    within (.enterImpl head.isPub head.id head.span)
      (ofGenericParams generics ++ ofTy? ofTrait ++ ofTy forTy ++ ofItems members)
  | .mod head name items => within (.enterItem head.isPub head.id .mod name) (ofItems items)
  | .struct head name generics fields =>
    within (.enterItem head.isPub head.id .struct name) (ofGenericParams generics ++ ofTys fields)
  | .trait head name generics supers members =>
    within (.enterItem head.isPub head.id .trait name)
      (ofGenericParams generics ++ ofTys supers ++ ofItems members)
  | .typeAlias head name ty => .declare (.declare head.isPub head.id .typeAlias name) :: ofTy? ty
  | .useDecl head tree => (tree.imports head.isPub).map fun i => .declare (.imports i)

def ofItems : List Item → Tour
  | [] => []
  | item :: items => ofItem item ++ ofItems items

end

/-- The way of the first pass through the items of a program. -/
def ofProgram (program : Program) : Tour := ofItems program.items

/-! ## What is gone by -/

/-- The nodes that are gone by, each with the owner of the innermost module that is open there. -/
def passed : List RegionOwner → Tour → List (NodeId × RegionOwner)
  | _, [] => []
  | homes, .declare step :: tour => passed (step.homes homes) tour
  | homes, .pass node :: tour => (node, homes.headD .none) :: passed homes tour

@[simp] theorem outline_append (first second : Tour) :
    (first ++ second).outline = first.outline ++ second.outline :=
  List.filterMap_append

theorem passed_append (homes : List RegionOwner) (first second : Tour) :
    (first ++ second).passed homes =
      first.passed homes ++ second.passed (first.outline.homes homes) := by
  induction first generalizing homes with
  | nil => rfl
  | cons step first ih =>
    cases step with
    | declare step => exact ih (step.homes homes)
    | pass node =>
      rw [List.cons_append, passed, passed, ih homes]
      rfl

/-- A node is gone by with the module that is open behind all steps in front of it. -/
theorem mem_passed (homes : List RegionOwner) (before after : Tour) (node : NodeId) :
    (node, (before.outline.homes homes).headD .none) ∈
      (before ++ .pass node :: after).passed homes := by
  rw [passed_append, passed]
  exact List.mem_append_right _ (List.mem_cons_self ..)

/-- Where a node is gone by, there is a step that does so. -/
theorem exists_pass {homes : List RegionOwner} {tour : Tour} {node : NodeId} {home : RegionOwner}
    (mem : (node, home) ∈ tour.passed homes) :
    ∃ before after, tour = before ++ .pass node :: after := by
  induction tour generalizing homes with
  | nil => cases mem
  | cons step tour ih =>
    cases step with
    | declare step =>
      obtain ⟨before, after, rfl⟩ := ih mem
      exact ⟨.declare step :: before, after, rfl⟩
    | pass first =>
      rcases List.mem_cons.mp mem with here | mem
      · cases here
        exact ⟨[], tour, rfl⟩
      · obtain ⟨before, after, rfl⟩ := ih mem
        exact ⟨.pass first :: before, after, rfl⟩

end Tour

/-- The nodes for which nothing is declared, each with the owner of the module around it. -/
def Occurrence.passed (occs : List Occurrence) : List (NodeId × RegionOwner) :=
  (occs.filter (·.role.declaresNothing)).map fun occ => (occ.node, occ.around.home)

/-- Below the module of the owner, the steps of a tour make the declarations of some occurrences,
    and it goes by the others, each in the module of the regions around it. -/
structure Charts (home : RegionOwner) (tour : Tour) (outline : Outline)
    (occs : List Occurrence) : Prop where
  outline_eq : tour.outline = outline
  declares : Declares home outline occs
  passed : ∀ others, (tour.passed (home :: others)).Perm (Occurrence.passed occs)

namespace Charts

variable {home : RegionOwner} {tour tour' : Tour} {outline outline' : Outline}
  {occs occs' : List Occurrence}

theorem nothing : Charts home [] [] [] := ⟨rfl, .nothing, fun _ => .nil⟩

theorem append (h : Charts home tour outline occs) (h' : Charts home tour' outline' occs') :
    Charts home (tour ++ tour') (outline ++ outline') (occs ++ occs') where
  outline_eq := by rw [Tour.outline_append, h.outline_eq, h'.outline_eq]
  declares := .append h.declares h'.declares
  passed others := by
    rw [Tour.passed_append, h.outline_eq, h.declares.homes_eq, Occurrence.passed,
      List.filter_append, List.map_append]
    exact (h.passed others).append (h'.passed others)

theorem perm (h : Charts home tour outline occs) (same : occs.Perm occs') :
    Charts home tour outline occs' :=
  ⟨h.outline_eq, .perm h.declares same,
    fun others => (h.passed others).trans ((same.filter _).map _)⟩

/-- A node that is gone by. -/
theorem passing {node : NodeId} {role : Role} {around : Regions} (h : role.declaresNothing)
    (here : around.home = home) : Charts home [.pass node] [] [⟨node, role, around⟩] := by
  refine ⟨rfl, .skip h, fun others => ?_⟩
  simp [Occurrence.passed, Tour.passed, h, here]

/-- A node that is gone by, in front of what follows it. -/
theorem pass {node : NodeId} {role : Role} {around : Regions} (h : role.declaresNothing)
    (here : around.home = home) (rest : Charts home tour outline occs) :
    Charts home (.pass node :: tour) outline (⟨node, role, around⟩ :: occs) :=
  append (passing h here) rest

/-- A declaration by itself goes by no node. -/
theorem only {step : OutlineStep} {node : NodeId} {role : Role} {around : Regions}
    (declares : Declares home [step] [⟨node, role, around⟩])
    (declared : role.declaresNothing = false) :
    Charts home [.declare step] [step] [⟨node, role, around⟩] := by
  refine ⟨rfl, declares, fun others => ?_⟩
  simp [Occurrence.passed, Tour.passed, declared]

/-- A declaration in front of what follows it. -/
theorem declare {isPub : Bool} {node : NodeId} {kind : DefKind} {ident : Ident} {ns : Namespace}
    {around : Regions} (hns : kind.namespace? = some ns) (hcall : kind.isCallable = false)
    (hblock : ns = .lifetime → home.isBlock = false) (rest : Charts home tour outline occs) :
    Charts home (.declare (.declare isPub node kind ident) :: tour)
      (.declare isPub node kind ident :: outline) (⟨node, .declared, around⟩ :: occs) :=
  append (only (.declare hns hcall hblock) rfl) rest

/-- A module is left behind all that is inside. -/
theorem within {first : OutlineStep} {owner : RegionOwner} {node : NodeId} {role : Role}
    {around : Regions}
    (declares : Declares owner outline occs →
      Declares home (first :: (outline ++ [.leave])) (⟨node, role, around⟩ :: occs))
    (opens : ∀ homes, first.homes homes = owner :: homes)
    (declared : role.declaresNothing = false) (inner : Charts owner tour outline occs) :
    Charts home (Tour.within first tour) (first :: (outline ++ [.leave]))
      (⟨node, role, around⟩ :: occs) where
  outline_eq := by
    rw [Tour.within, ← inner.outline_eq]
    exact congrArg (first :: ·) (Tour.outline_append tour [.declare .leave])
  declares := declares inner.declares
  passed others := by
    have leaving (homes : List RegionOwner) : Tour.passed homes [.declare .leave] = [] := rfl
    rw [Tour.within, Tour.passed, Tour.passed_append, opens, leaving, List.append_nil,
      Occurrence.passed, List.filter_cons_of_neg (by simp [declared])]
    exact inner.passed (home :: others)

/-- An item other than an impl or a function, with its members. -/
theorem item {isPub : Bool} {node : NodeId} {kind : DefKind} {ident : Ident} {around : Regions}
    (hkind : kind.namespace? = some .type) (inner : Charts (.item node) tour outline occs) :
    Charts around.home (Tour.within (.enterItem isPub node kind ident) tour)
      (.enterItem isPub node kind ident :: (outline ++ [.leave]))
      (⟨node, .item, around⟩ :: occs) :=
  within (.item hkind rfl) (fun _ => rfl) rfl inner

/-- The leaves of a `use` declaration. -/
theorem imports_map {around : Regions} (is : List Import) :
    Charts home (is.map fun i => TourStep.declare (.imports i)) (is.map .imports)
      (is.map fun i => ⟨i.node, .imported, around⟩) := by
  induction is with
  | nil => exact nothing
  | cons i is ih => exact append (only .imports rfl) ih

/-- What stands in the scope of a function. The patterns of its parameters move behind its result
    type. -/
theorem signature {generics params ret body : Tour} {generics' params' ret' body' : Outline}
    {ofGenerics ofTypes ofPats ofRet ofBody : List Occurrence}
    (hgenerics : Charts home generics generics' ofGenerics)
    (hparams : Charts home params params' (ofTypes ++ ofPats)) (hret : Charts home ret ret' ofRet)
    (hbody : Charts home body body' ofBody) :
    Charts home (generics ++ params ++ ret ++ body) (generics' ++ params' ++ ret' ++ body')
      (ofGenerics ++ ofTypes ++ ofRet ++ ofPats ++ ofBody) := by
  -- the order in which declarations are made, and from it that in which names come into reach
  refine (((hgenerics.append hparams).append hret).append hbody).perm ?_
  simp only [List.append_assoc]
  refine List.Perm.append_left _ (List.Perm.append_left _ ?_)
  exact List.perm_append_comm_assoc _ _ _

end Charts

/-! ## The tour of each piece of the text -/

mutual

theorem charts_genericArg (around : Regions) : (arg : GenericArg) →
    Charts around.home (Tour.ofGenericArg arg) (Outline.ofGenericArg arg)
      (Occurrence.ofGenericArg around arg)
  | .type (.path path args) => by
    rw [Tour.ofGenericArg, Outline.ofGenericArg, Tour.ofTy, Outline.ofTy, Occurrence.ofGenericArg]
    exact .pass rfl rfl (charts_genericArgs around args)
  | .type (.array elem size) => by
    rw [Tour.ofGenericArg, Outline.ofGenericArg, Occurrence.ofGenericArg]
    · exact charts_ty around (.array elem size)
    · simp
  | .type (.compound form parts) => by
    rw [Tour.ofGenericArg, Outline.ofGenericArg, Occurrence.ofGenericArg]
    · exact charts_ty around (.compound form parts)
    · simp
  | .lifetime id name => by
    rw [Tour.ofGenericArg, Outline.ofGenericArg, Occurrence.ofGenericArg]
    exact .passing rfl rfl
  | .const value => by
    rw [Tour.ofGenericArg, Outline.ofGenericArg, Occurrence.ofGenericArg]
    exact charts_expr (around.plain .const) value

theorem charts_genericArgs (around : Regions) : (args : List GenericArg) →
    Charts around.home (Tour.ofGenericArgs args) (Outline.ofGenericArgs args)
      (Occurrence.ofGenericArgs around args)
  | [] => by
    rw [Tour.ofGenericArgs, Outline.ofGenericArgs, Occurrence.ofGenericArgs]
    exact .nothing
  | arg :: args => by
    rw [Tour.ofGenericArgs, Outline.ofGenericArgs, Occurrence.ofGenericArgs]
    exact .append (charts_genericArg around arg) (charts_genericArgs around args)

theorem charts_ty (around : Regions) : (ty : Ty) →
    Charts around.home (Tour.ofTy ty) (Outline.ofTy ty) (Occurrence.ofTy around ty)
  | .path path args => by
    rw [Tour.ofTy, Outline.ofTy, Occurrence.ofTy]
    exact .pass rfl rfl (charts_genericArgs around args)
  | .array elem size => by
    rw [Tour.ofTy, Outline.ofTy, Occurrence.ofTy]
    exact .append (charts_ty around elem) (charts_expr (around.plain .const) size)
  | .compound _ parts => by
    rw [Tour.ofTy, Outline.ofTy, Occurrence.ofTy]
    exact charts_tys around parts

theorem charts_tys (around : Regions) : (tys : List Ty) →
    Charts around.home (Tour.ofTys tys) (Outline.ofTys tys) (Occurrence.ofTys around tys)
  | [] => by
    rw [Tour.ofTys, Outline.ofTys, Occurrence.ofTys]
    exact .nothing
  | ty :: tys => by
    rw [Tour.ofTys, Outline.ofTys, Occurrence.ofTys]
    exact .append (charts_ty around ty) (charts_tys around tys)

theorem charts_ty? (around : Regions) : (ty : Option Ty) →
    Charts around.home (Tour.ofTy? ty) (Outline.ofTy? ty) (Occurrence.ofTy? around ty)
  | none => by
    rw [Tour.ofTy?, Outline.ofTy?, Occurrence.ofTy?]
    exact .nothing
  | some ty => by
    rw [Tour.ofTy?, Outline.ofTy?, Occurrence.ofTy?]
    exact charts_ty around ty

theorem charts_expr (around : Regions) : (expr : Expr) →
    Charts around.home (Tour.ofExpr expr) (Outline.ofExpr expr) (Occurrence.ofExpr around expr)
  | .path path args => by
    rw [Tour.ofExpr, Outline.ofExpr, Occurrence.ofExpr]
    exact .pass rfl rfl (charts_genericArgs around args)
  | .selfValue id span => by
    rw [Tour.ofExpr, Outline.ofExpr, Occurrence.ofExpr]
    exact .passing rfl rfl
  | .operation _ operands => by
    rw [Tour.ofExpr, Outline.ofExpr, Occurrence.ofExpr]
    exact charts_exprs around operands
  | .block .plain block => by
    rw [Tour.ofExpr, Outline.ofExpr, Occurrence.ofExpr]
    exact charts_block .block around block
  | .block .loop block => by
    rw [Tour.ofExpr, Outline.ofExpr, Occurrence.ofExpr]
    exact charts_block .loop around block
  | .ifElse cond thenBlock elseBlock => by
    rw [Tour.ofExpr, Outline.ofExpr, Occurrence.ofExpr]
    exact .append (.append (charts_expr around cond) (charts_block? around thenBlock))
      (charts_block? around elseBlock)
  | .invoke callee args => by
    rw [Tour.ofExpr, Outline.ofExpr, Occurrence.ofExpr]
    exact .append (charts_expr around callee) (charts_args around args)
  | .lambda params ret body => by
    rw [Tour.ofExpr, Outline.ofExpr, Occurrence.ofExpr]
    have header := charts_params around (around.plain .lambda) (Regions.home_plain _ _) params
    have inside := charts_expr ((around.plain .lambda).binding (bindersOfParams params)) body
    rw [Regions.home_binding, Regions.home_plain] at inside
    refine ((header.append (charts_ty? around ret)).append inside).perm ?_
    -- the patterns move behind the result type
    simp only [List.append_assoc]
    exact List.Perm.append_left _ (List.perm_append_comm_assoc _ _ _)
  | .matchOn subject arms => by
    rw [Tour.ofExpr, Outline.ofExpr, Occurrence.ofExpr]
    exact .append (charts_expr around subject) (charts_arms around arms)
  | .struct path args fields => by
    rw [Tour.ofExpr, Outline.ofExpr, Occurrence.ofExpr]
    exact .pass rfl rfl
      (.append (charts_genericArgs around args) (charts_fieldInits around fields))

theorem charts_exprs (around : Regions) : (exprs : List Expr) →
    Charts around.home (Tour.ofExprs exprs) (Outline.ofExprs exprs)
      (Occurrence.ofExprs around exprs)
  | [] => by
    rw [Tour.ofExprs, Outline.ofExprs, Occurrence.ofExprs]
    exact .nothing
  | expr :: exprs => by
    rw [Tour.ofExprs, Outline.ofExprs, Occurrence.ofExprs]
    exact .append (charts_expr around expr) (charts_exprs around exprs)

theorem charts_expr? (around : Regions) : (expr : Option Expr) →
    Charts around.home (Tour.ofExpr? expr) (Outline.ofExpr? expr) (Occurrence.ofExpr? around expr)
  | none => by
    rw [Tour.ofExpr?, Outline.ofExpr?, Occurrence.ofExpr?]
    exact .nothing
  | some expr => by
    rw [Tour.ofExpr?, Outline.ofExpr?, Occurrence.ofExpr?]
    exact charts_expr around expr

theorem charts_args (around : Regions) : (args : List Arg) →
    Charts around.home (Tour.ofArgs args) (Outline.ofArgs args) (Occurrence.ofArgs around args)
  | [] => by
    rw [Tour.ofArgs, Outline.ofArgs, Occurrence.ofArgs]
    exact .nothing
  | .mk _ value :: args => by
    rw [Tour.ofArgs, Outline.ofArgs, Occurrence.ofArgs]
    exact .append (charts_expr around value) (charts_args around args)

theorem charts_fieldInits (around : Regions) : (fields : List FieldInit) →
    Charts around.home (Tour.ofFieldInits fields) (Outline.ofFieldInits fields)
      (Occurrence.ofFieldInits around fields)
  | [] => by
    rw [Tour.ofFieldInits, Outline.ofFieldInits, Occurrence.ofFieldInits]
    exact .nothing
  | .mk id name none :: fields => by
    rw [Tour.ofFieldInits, Outline.ofFieldInits, Outline.ofExpr?, Occurrence.ofFieldInits]
    exact .pass rfl rfl (charts_fieldInits around fields)
  | .mk _ _ (some value) :: fields => by
    rw [Tour.ofFieldInits, Outline.ofFieldInits, Outline.ofExpr?, Occurrence.ofFieldInits]
    exact .append (charts_expr around value) (charts_fieldInits around fields)

theorem charts_arms (around : Regions) : (arms : List Arm) →
    Charts around.home (Tour.ofArms arms) (Outline.ofArms arms) (Occurrence.ofArms around arms)
  | [] => by
    rw [Tour.ofArms, Outline.ofArms, Occurrence.ofArms]
    exact .nothing
  | .mk pat body :: arms => by
    rw [Tour.ofArms, Outline.ofArms, Occurrence.ofArms]
    have names := charts_pat true (around.plain .matchArm) pat
    have inside := charts_expr ((around.plain .matchArm).binding (pat.binders true)) body
    rw [Regions.home_binding] at inside
    exact .append (.append names inside) (charts_arms around arms)

/-- An outline takes the parameters one by one, each with its pattern, type and default. -/
theorem charts_params (around inside : Regions) (same : inside.home = around.home) :
    (params : List Param) → Charts around.home (Tour.ofParams params) (Outline.ofParams params)
      (Occurrence.ofParamTypes around params ++ Occurrence.ofParamPats inside params)
  | [] => by
    rw [Tour.ofParams, Outline.ofParams, Occurrence.ofParamTypes, Occurrence.ofParamPats]
    exact .nothing
  | .mk _ pat ty default :: params => by
    rw [Tour.ofParams, Outline.ofParams, Occurrence.ofParamTypes, Occurrence.ofParamPats]
    have names := charts_pat false inside pat
    rw [same] at names
    have rest := charts_params around (inside.binding (pat.binders false))
      ((Regions.home_binding _ _).trans same) params
    refine (((names.append (charts_ty? around ty)).append (charts_expr? around default)).append
      rest).perm ?_
    -- the pattern moves behind all types and defaults
    simp only [List.append_assoc]
    refine List.perm_append_comm.trans ?_
    simp only [List.append_assoc]
    refine List.Perm.append_left _ (List.Perm.append_left _ (List.Perm.append_left _ ?_))
    exact List.perm_append_comm

theorem charts_block (kind : ScopeKind) (around : Regions) : (block : Block) →
    Charts around.home (Tour.ofBlock block) (Outline.ofBlock block)
      (Occurrence.ofBlock kind around block)
  | .mk id stmts => by
    rw [Tour.ofBlock, Outline.ofBlock, Occurrence.ofBlock]
    -- a block without items opens no module, and its inside is declared around it
    have inside := charts_stmts (around.block kind id (stmts.any Stmt.isItem)) stmts
    rw [Regions.home_block] at inside
    cases owns : stmts.any Stmt.isItem
    · rw [owns] at inside
      exact .pass rfl rfl inside
    · rw [owns] at inside
      exact .within (.block rfl) (fun _ => rfl) rfl inside

theorem charts_block? (around : Regions) : (block : Option Block) →
    Charts around.home (Tour.ofBlock? block) (Outline.ofBlock? block)
      (Occurrence.ofBlock? around block)
  | none => by
    rw [Tour.ofBlock?, Outline.ofBlock?, Occurrence.ofBlock?]
    exact .nothing
  | some block => by
    rw [Tour.ofBlock?, Outline.ofBlock?, Occurrence.ofBlock?]
    exact charts_block .block around block

theorem charts_stmt (around : Regions) : (stmt : Stmt) →
    Charts around.home (Tour.ofStmt stmt) (Outline.ofStmt stmt) (Occurrence.ofStmt around stmt)
  | .expr value => by
    rw [Tour.ofStmt, Outline.ofStmt, Occurrence.ofStmt]
    exact charts_expr around value
  | .item item => by
    rw [Tour.ofStmt, Outline.ofStmt, Occurrence.ofStmt]
    exact charts_item around item
  | .letBind pat ty value => by
    rw [Tour.ofStmt, Outline.ofStmt, Occurrence.ofStmt, List.append_assoc, List.append_assoc]
    -- the pattern moves behind type and value
    have rest := (charts_ty? around ty).append (charts_expr? around value)
    exact ((charts_pat true around pat).append rest).perm List.perm_append_comm
  | .forLoop pat iter body => by
    rw [Tour.ofStmt, Outline.ofStmt, Occurrence.ofStmt]
    have names := charts_pat true (around.plain .loop) pat
    have inside := charts_block .block ((around.plain .loop).binding (pat.binders true)) body
    rw [Regions.home_binding] at inside
    refine ((names.append (charts_expr around iter)).append inside).perm ?_
    rw [List.append_assoc]
    exact List.perm_append_comm_assoc _ _ _
  | .whileLoop cond body => by
    rw [Tour.ofStmt, Outline.ofStmt, Occurrence.ofStmt]
    exact .append (charts_expr around cond) (charts_block .loop around body)

theorem charts_stmts (around : Regions) : (stmts : List Stmt) →
    Charts around.home (Tour.ofStmts stmts) (Outline.ofStmts stmts)
      (Occurrence.ofStmts around stmts)
  | [] => by
    rw [Tour.ofStmts, Outline.ofStmts, Occurrence.ofStmts]
    exact .nothing
  | stmt :: stmts => by
    rw [Tour.ofStmts, Outline.ofStmts, Occurrence.ofStmts]
    have rest := charts_stmts (around.binding stmt.binders) stmts
    rw [Regions.home_binding] at rest
    exact .append (charts_stmt around stmt) rest

theorem charts_pat (variants : Bool) (around : Regions) : (pat : Pat) →
    Charts around.home (Tour.ofPat pat) (Outline.ofPat pat) (Occurrence.ofPat variants around pat)
  | .ident id name none => by
    rw [Tour.ofPat, Outline.ofPat, Outline.ofPat?, Occurrence.ofPat]
    refine .passing ?_ rfl
    cases variants <;> rfl
  | .ident id name (some sub) => by
    rw [Tour.ofPat, Outline.ofPat, Outline.ofPat?, Occurrence.ofPat]
    have inner := charts_pat variants (around.binding [⟨name.name, id, false⟩]) sub
    rw [Regions.home_binding] at inner
    exact .pass rfl rfl inner
  | .path path args => by
    rw [Tour.ofPat, Outline.ofPat, Occurrence.ofPat]
    exact .pass rfl rfl (charts_genericArgs around args)
  | .struct path args fields => by
    rw [Tour.ofPat, Outline.ofPat, Occurrence.ofPat]
    exact .pass rfl rfl
      (.append (charts_genericArgs around args) (charts_fieldPats variants around fields))
  | .borrow inner | .paren inner => by
    rw [Tour.ofPat, Outline.ofPat, Occurrence.ofPat]
    exact charts_pat variants around inner
  | .tuple pats => by
    rw [Tour.ofPat, Outline.ofPat, Occurrence.ofPat]
    exact charts_pats variants around pats
  | .literal | .rest | .wildcard => by
    rw [Tour.ofPat, Outline.ofPat, Occurrence.ofPat]
    exact .nothing

theorem charts_pats (variants : Bool) (around : Regions) : (pats : List Pat) →
    Charts around.home (Tour.ofPats pats) (Outline.ofPats pats)
      (Occurrence.ofPats variants around pats)
  | [] => by
    rw [Tour.ofPats, Outline.ofPats, Occurrence.ofPats]
    exact .nothing
  | pat :: pats => by
    rw [Tour.ofPats, Outline.ofPats, Occurrence.ofPats]
    have rest := charts_pats variants (around.binding (pat.binders variants)) pats
    rw [Regions.home_binding] at rest
    exact .append (charts_pat variants around pat) rest

theorem charts_fieldPats (variants : Bool) (around : Regions) : (fields : List FieldPat) →
    Charts around.home (Tour.ofFieldPats fields) (Outline.ofFieldPats fields)
      (Occurrence.ofFieldPats variants around fields)
  | [] => by
    rw [Tour.ofFieldPats, Outline.ofFieldPats, Occurrence.ofFieldPats]
    exact .nothing
  | .mk id name none :: fields => by
    rw [Tour.ofFieldPats, Outline.ofFieldPats, Outline.ofPat?, Occurrence.ofFieldPats]
    have rest := charts_fieldPats variants (around.binding [⟨name.name, id, false⟩]) fields
    rw [Regions.home_binding] at rest
    exact .pass rfl rfl rest
  | .mk _ _ (some pat) :: fields => by
    rw [Tour.ofFieldPats, Outline.ofFieldPats, Outline.ofPat?, Occurrence.ofFieldPats]
    have rest := charts_fieldPats variants (around.binding (pat.binders variants)) fields
    rw [Regions.home_binding] at rest
    exact .append (charts_pat variants around pat) rest

/-- Generic parameters stand directly in the module of their item, where lifetimes may be. -/
theorem charts_genericParam (around : Regions) (item : around.home.isBlock = false) :
    (param : GenericParam) → Charts around.home (Tour.ofGenericParam param)
      (Outline.ofGenericParam param) (Occurrence.ofGenericParam around param)
  | .type id name bound => by
    rw [Tour.ofGenericParam, Outline.ofGenericParam, Occurrence.ofGenericParam]
    exact .declare rfl rfl (by simp) (charts_ty? around bound)
  | .lifetime id name => by
    rw [Tour.ofGenericParam, Outline.ofGenericParam, Occurrence.ofGenericParam]
    exact .only (.declare rfl rfl fun _ => item) rfl
  | .const id name ty default => by
    rw [Tour.ofGenericParam, Outline.ofGenericParam, Occurrence.ofGenericParam]
    exact .declare rfl rfl (by simp) (.append (charts_ty around ty) (charts_expr? around default))

theorem charts_genericParams (around : Regions) : (params : List GenericParam) →
    (params ≠ [] → around.home.isBlock = false) →
    Charts around.home (Tour.ofGenericParams params) (Outline.ofGenericParams params)
      (Occurrence.ofGenericParams around params)
  | [], _ => by
    rw [Tour.ofGenericParams, Outline.ofGenericParams, Occurrence.ofGenericParams]
    exact .nothing
  | param :: params, item => by
    rw [Tour.ofGenericParams, Outline.ofGenericParams, Occurrence.ofGenericParams]
    exact .append (charts_genericParam around (item (by simp)) param)
      (charts_genericParams around params fun _ => item (by simp))

theorem charts_variants (around : Regions) : (variants : List Variant) →
    Charts around.home (Tour.ofVariants variants) (Outline.ofVariants variants)
      (Occurrence.ofVariants around variants)
  | [] => by
    rw [Tour.ofVariants, Outline.ofVariants, Occurrence.ofVariants]
    exact .nothing
  | .mk id name types :: variants => by
    rw [Tour.ofVariants, Outline.ofVariants, Occurrence.ofVariants]
    exact .declare rfl rfl (by simp)
      (.append (charts_tys around types) (charts_variants around variants))

theorem charts_item (around : Regions) : (item : Item) →
    Charts around.home (Tour.ofItem item) (Outline.ofItem item) (Occurrence.ofItem around item)
  | .const head name ty value => by
    rw [Tour.ofItem, Outline.ofItem, Occurrence.ofItem]
    exact .declare rfl rfl (by simp)
      (.append (charts_ty? around ty) (charts_expr? (around.plain .const) value))
  | .enum head name generics variants => by
    rw [Tour.ofItem, Outline.ofItem, Occurrence.ofItem]
    have params := charts_genericParams (around.item head.id) generics
      (by simp [RegionOwner.isBlock])
    exact .item rfl (params.append (charts_variants (around.item head.id) variants))
  | .func head kind name generics params ret body => by
    rw [Tour.ofItem, Outline.ofItem, Occurrence.ofItem]
    let inside := around.func head.id (body.isSome || !generics.isEmpty)
    have params' := charts_params inside inside rfl params
    have value := charts_expr? (inside.binding (bindersOfParams params)) body
    rw [Regions.home_binding] at value
    -- generics make the function own a module, and that is no block's
    have item : generics ≠ [] → inside.home.isBlock = false := by
      intro h
      simp [inside, h, RegionOwner.isBlock]
    have inner := (charts_genericParams inside generics item).signature params'
      (charts_ty? inside ret) value
    simp only [inside, Regions.home_func] at inner
    -- a function that owns no module is not entered, so what is inside is declared around it
    cases owns : body.isSome || !generics.isEmpty
    · rw [owns] at inner
      exact .append (.only .declareFunc rfl) inner
    · rw [owns] at inner
      exact .within (.func rfl) (fun _ => rfl) rfl inner
  | .impl head generics ofTrait forTy members => by
    rw [Tour.ofItem, Outline.ofItem, Occurrence.ofItem]
    have params := charts_genericParams (around.item head.id) generics
      (by simp [RegionOwner.isBlock])
    have inner := ((params.append (charts_ty? _ ofTrait)).append (charts_ty _ forTy)).append
      (charts_items _ members)
    exact .within (.impl rfl) (fun _ => rfl) rfl inner
  | .mod head name items => by
    rw [Tour.ofItem, Outline.ofItem, Occurrence.ofItem]
    exact .item rfl (charts_items (around.item head.id) items)
  | .struct head name generics fields => by
    rw [Tour.ofItem, Outline.ofItem, Occurrence.ofItem]
    have params := charts_genericParams (around.item head.id) generics
      (by simp [RegionOwner.isBlock])
    exact .item rfl (params.append (charts_tys (around.item head.id) fields))
  | .trait head name generics supers members => by
    rw [Tour.ofItem, Outline.ofItem, Occurrence.ofItem]
    have params := charts_genericParams (around.item head.id) generics
      (by simp [RegionOwner.isBlock])
    exact .item rfl ((params.append (charts_tys _ supers)).append (charts_items _ members))
  | .typeAlias head name ty => by
    rw [Tour.ofItem, Outline.ofItem, Occurrence.ofItem]
    exact .declare rfl rfl (by simp) (charts_ty? around ty)
  | .useDecl head tree => by
    rw [Tour.ofItem, Outline.ofItem, Occurrence.ofItem]
    exact .imports_map (tree.imports head.isPub)

theorem charts_items (around : Regions) : (items : List Item) →
    Charts around.home (Tour.ofItems items) (Outline.ofItems items)
      (Occurrence.ofItems around items)
  | [] => by
    rw [Tour.ofItems, Outline.ofItems, Occurrence.ofItems]
    exact .nothing
  | item :: items => by
    rw [Tour.ofItems, Outline.ofItems, Occurrence.ofItems]
    exact .append (charts_item around item) (charts_items around items)

end

/-- The way of the first pass through a program is charted by its occurrences. -/
theorem Program.charts_tour (program : Program) : Charts (.item program.id)
    (.ofProgram program) (.ofProgram program) program.occurrences :=
  charts_items [program.region] program.items

/-- The outline of a program makes the declarations of its occurrences. -/
theorem Program.declares_outline (program : Program) :
    Declares (.item program.id) (.ofProgram program) program.occurrences :=
  program.charts_tour.declares

/-- No two steps of an outline are made for one node. -/
theorem Program.nodup_outline {program : Program} (distinct : program.nodes.Nodup) :
    (Outline.ofProgram program).nodes.Nodup := by
  obtain ⟨others, same, sublist⟩ := program.declares_outline.nodes_subperm
  exact same.nodup_iff.mp ((List.nodup_cons.mp distinct).2.sublist sublist)

end NameResolution

import NameResolution.Proofs.Text.Outline

/-! # Pieces of the text

    A program is a tree of pieces: items, expressions, types, patterns and what
    they are made of. What is to be defined for a piece, and whether it owns a
    module, can be told from the piece alone; where that module lies follows from
    the pieces around it. None of this depends on the way that a pass takes
    through the text, and the outline comes to the same. -/

namespace NameResolution

/-- A piece of the text. -/
inductive Piece where
  | genericArg (arg : GenericArg)
  | ty (ty : Ty)
  | expr (expr : Expr)
  | arg (arg : Arg)
  | fieldInit (field : FieldInit)
  | arm (arm : Arm)
  | param (param : Param)
  | block (block : Block)
  | stmt (stmt : Stmt)
  | pat (pat : Pat)
  | fieldPat (field : FieldPat)
  | genericParam (param : GenericParam)
  | variant (variant : Variant)
  | item (item : Item)

namespace Piece

/-- The pieces that a piece is directly made of, from left to right. -/
def children : Piece → List Piece
  | genericArg (.type t) => [ty t]
  | genericArg (.lifetime _ _) => []
  | genericArg (.const value) => [expr value]
  | ty (.path _ args) => args.map genericArg
  | ty (.array elem size) => [ty elem, expr size]
  | ty (.compound _ parts) => parts.map ty
  | expr (.path _ args) => args.map genericArg
  | expr (.selfValue _ _) => []
  | expr (.operation _ operands) => operands.map expr
  | expr (.block _ b) => [block b]
  | expr (.ifElse cond thenBlock elseBlock) =>
    expr cond :: (thenBlock.toList.map block ++ elseBlock.toList.map block)
  | expr (.invoke callee args) => expr callee :: args.map arg
  | expr (.lambda params ret body) => params.map param ++ ret.toList.map ty ++ [expr body]
  | expr (.matchOn subject arms) => expr subject :: arms.map arm
  | expr (.struct _ args fields) => args.map genericArg ++ fields.map fieldInit
  | arg (.mk _ value) => [expr value]
  | fieldInit (.mk _ _ value) => value.toList.map expr
  | arm (.mk p body) => [pat p, expr body]
  | param (.mk _ p t default) => pat p :: (t.toList.map ty ++ default.toList.map expr)
  | block (.mk _ stmts) => stmts.map stmt
  | stmt (.expr value) => [expr value]
  | stmt (.item i) => [item i]
  | stmt (.letBind p t value) => pat p :: (t.toList.map ty ++ value.toList.map expr)
  | stmt (.forLoop p iter body) => [pat p, expr iter, block body]
  | stmt (.whileLoop cond body) => [expr cond, block body]
  | pat (.ident _ _ sub) => sub.toList.map pat
  | pat (.path _ args) => args.map genericArg
  | pat (.struct _ args fields) => args.map genericArg ++ fields.map fieldPat
  | pat (.borrow inner) | pat (.paren inner) => [pat inner]
  | pat (.tuple pats) => pats.map pat
  | pat .literal | pat .rest | pat .wildcard => []
  | fieldPat (.mk _ _ p) => p.toList.map pat
  | genericParam (.type _ _ bound) => bound.toList.map ty
  | genericParam (.lifetime _ _) => []
  | genericParam (.const _ _ t default) => ty t :: default.toList.map expr
  | variant (.mk _ _ types) => types.map ty
  | item (.const _ _ t value) => t.toList.map ty ++ value.toList.map expr
  | item (.enum _ _ generics variants) => generics.map genericParam ++ variants.map variant
  | item (.func _ _ _ generics params ret body) =>
    generics.map genericParam ++ params.map param ++ ret.toList.map ty ++ body.toList.map expr
  | item (.impl _ generics ofTrait forTy members) =>
    generics.map genericParam ++ ofTrait.toList.map ty ++ [ty forTy] ++ members.map item
  | item (.mod _ _ items) => items.map item
  | item (.struct _ _ generics fields) => generics.map genericParam ++ fields.map ty
  | item (.trait _ _ generics supers members) =>
    generics.map genericParam ++ supers.map ty ++ members.map item
  | item (.typeAlias _ _ t) => t.toList.map ty
  | item (.useDecl _ _) => []

/-- A piece is larger than the pieces it is made of. -/
theorem sizeOf_lt_of_mem_children {piece : Piece} :
    ∀ part ∈ piece.children, sizeOf part < sizeOf piece := by
  cases piece <;> rename_i x <;> cases x <;>
    simp only [children, List.forall_mem_cons, List.forall_mem_append, List.forall_mem_map]
  all_goals simp
  all_goals grind [→ List.sizeOf_lt_of_mem]

/-- What holds of a piece as soon as it holds of its parts holds of every piece. -/
theorem induct {motive : Piece → Prop}
    (step : ∀ piece, (∀ part ∈ piece.children, motive part) → motive piece) (piece : Piece) :
    motive piece :=
  step piece fun part _ => induct step part
termination_by sizeOf piece
decreasing_by exact sizeOf_lt_of_mem_children part ‹_›

end Piece

/-! ## Definitions and modules -/

/-- What the definition of a piece says about it. -/
structure Entry where
  isPub : Bool
  node : NodeId
  kind : DefKind
  ident : Ident
  deriving DecidableEq, Repr

/-- A module of a program: whose it is, and whose module it lies in. -/
structure Site where
  owner : RegionOwner
  home : RegionOwner
  deriving DecidableEq, Repr

/-- What is to be defined for an item. An impl has no name and goes by the word for it. -/
def Item.declared? : Item → Option Entry
  | .const head name _ _ => some ⟨head.isPub, head.id, .const, name⟩
  | .enum head name _ _ => some ⟨head.isPub, head.id, .enum, name⟩
  | .func head .func name _ _ _ _ => some ⟨head.isPub, head.id, .func, name⟩
  | .func head .init name _ _ _ _ => some ⟨head.isPub, head.id, .init, name⟩
  | .impl head _ _ _ _ => some ⟨head.isPub, head.id, .impl, ⟨"impl", head.span⟩⟩
  | .mod head name _ => some ⟨head.isPub, head.id, .mod, name⟩
  | .struct head name _ _ => some ⟨head.isPub, head.id, .struct, name⟩
  | .trait head name _ _ _ => some ⟨head.isPub, head.id, .trait, name⟩
  | .typeAlias head name _ => some ⟨head.isPub, head.id, .typeAlias, name⟩
  | .useDecl _ _ => none

/-- Whether an item owns a module. A function does if it has a body or generics. -/
def Item.ownsModule : Item → Bool
  | .enum .. | .impl .. | .mod .. | .struct .. | .trait .. => true
  | .func _ _ _ generics _ _ body => body.isSome || !generics.isEmpty
  | .const .. | .typeAlias .. | .useDecl .. => false

namespace Piece

/-- What is to be defined for a piece. -/
def declared? : Piece → Option Entry
  | item i => i.declared?
  | variant (.mk id name _) => some ⟨true, id, .variant, name⟩
  | genericParam (.type id name _) => some ⟨false, id, .typeParam, name⟩
  | genericParam (.lifetime id name) => some ⟨false, id, .lifetime, name⟩
  | genericParam (.const id name _ _) => some ⟨false, id, .constParam, name⟩
  | _ => none

/-- The owner of a module that belongs to a piece. -/
def owner? : Piece → Option RegionOwner
  | item i => if i.ownsModule then some (.item i.head.id) else none
  | block (.mk id stmts) => if (Block.mk id stmts).declaresItems then some (.block id) else none
  | _ => none

/-- The module of a piece, below that of `home`. -/
def site? (home : RegionOwner) (piece : Piece) : Option Site :=
  piece.owner?.map fun owner => ⟨owner, home⟩

/-- A piece and everything in it, each with the innermost owner of a module around it. -/
def within (home : RegionOwner) (piece : Piece) : List (RegionOwner × Piece) :=
  (home, piece) ::
    piece.children.attach.flatMap fun part => part.1.within (piece.owner?.getD home)
termination_by sizeOf piece
decreasing_by exact sizeOf_lt_of_mem_children part.1 part.2

theorem within_eq (home : RegionOwner) (piece : Piece) : piece.within home =
    (home, piece) :: piece.children.flatMap fun part => part.within (piece.owner?.getD home) := by
  rw [within]
  simp

/-! ## Outlines -/

/-- The part that the outline of a program has for a piece. -/
def outline : Piece → Outline
  | genericArg a => .ofGenericArg a
  | ty t => .ofTy t
  | expr e => .ofExpr e
  | arg a => .ofArgs [a]
  | fieldInit f => .ofFieldInits [f]
  | arm a => .ofArms [a]
  | param p => .ofParams [p]
  | block b => .ofBlock b
  | stmt s => .ofStmt s
  | pat p => .ofPat p
  | fieldPat f => .ofFieldPats [f]
  | genericParam p => .ofGenericParam p
  | variant v => .ofVariants [v]
  | item i => .ofItem i

/-- The steps made for a piece itself, in front of its parts. -/
def opening : Piece → Outline
  | block (.mk id stmts) => if (Block.mk id stmts).declaresItems then [.enterBlock id] else []
  | genericParam (.type id name _) => [.declare false id .typeParam name]
  | genericParam (.lifetime id name) => [.declare false id .lifetime name]
  | genericParam (.const id name _ _) => [.declare false id .constParam name]
  | variant (.mk id name _) => [.declare true id .variant name]
  | item (.const head name _ _) => [.declare head.isPub head.id .const name]
  | item (.enum head name _ _) => [.enterItem head.isPub head.id .enum name]
  | item (.func head kind name generics params ret body) =>
    let suffix := Param.suffix params
    if (Item.func head kind name generics params ret body).ownsModule then
      [.enterFunc head.isPub head.id kind name suffix]
    else [.declareFunc head.isPub head.id kind name suffix]
  | item (.impl head _ _ _ _) => [.enterImpl head.isPub head.id head.span]
  | item (.mod head name _) => [.enterItem head.isPub head.id .mod name]
  | item (.struct head name _ _) => [.enterItem head.isPub head.id .struct name]
  | item (.trait head name _ _ _) => [.enterItem head.isPub head.id .trait name]
  | item (.typeAlias head name _) => [.declare head.isPub head.id .typeAlias name]
  | item (.useDecl head tree) => (tree.imports head.isPub).map .imports
  | _ => []

/-- Who owns a module leaves it behind its parts. -/
def closing (piece : Piece) : Outline := if piece.owner?.isSome then [.leave] else []

section

variable {α : Type} {f : α → Piece}

/-- Parts of one kind are gone through one after another. -/
theorem outlines_of_cons {outlines : List α → Outline} (nil : outlines [] = [])
    (cons : ∀ x xs, outlines (x :: xs) = (f x).outline ++ outlines xs) (xs : List α) :
    outlines xs = (xs.map f).flatMap outline := by
  induction xs with
  | nil => exact nil
  | cons x xs ih => rw [cons, ih, List.map_cons, List.flatMap_cons]

theorem outlines_of_option {outlines : Option α → Outline} (none : outlines none = [])
    (some : ∀ x, outlines (some x) = (f x).outline) (x? : Option α) :
    outlines x? = (x?.toList.map f).flatMap outline := by
  cases x? with
  | none => exact none
  | some x => rw [some, Option.toList_some, List.map_singleton, List.flatMap_singleton]

end

section

open Outline

theorem ofGenericArgs_eq (args : List GenericArg) :
    ofGenericArgs args = (args.map genericArg).flatMap outline :=
  outlines_of_cons rfl (fun _ _ => rfl) args

theorem ofTys_eq (tys : List Ty) :
    ofTys tys = (tys.map ty).flatMap outline :=
  outlines_of_cons rfl (fun _ _ => rfl) tys

theorem ofExprs_eq (exprs : List Expr) :
    ofExprs exprs = (exprs.map expr).flatMap outline :=
  outlines_of_cons rfl (fun _ _ => rfl) exprs

theorem ofArgs_eq (args : List Arg) :
    ofArgs args = (args.map arg).flatMap outline :=
  outlines_of_cons rfl (fun ⟨_, _⟩ _ => by simp [ofArgs, outline]) args

theorem ofFieldInits_eq (fields : List FieldInit) :
    ofFieldInits fields = (fields.map fieldInit).flatMap outline :=
  outlines_of_cons rfl (fun ⟨_, _, _⟩ _ => by simp [ofFieldInits, outline]) fields

theorem ofArms_eq (arms : List Arm) :
    ofArms arms = (arms.map arm).flatMap outline :=
  outlines_of_cons rfl (fun ⟨_, _⟩ _ => by simp [ofArms, outline]) arms

theorem ofParams_eq (params : List Param) :
    ofParams params = (params.map param).flatMap outline :=
  outlines_of_cons rfl (fun ⟨_, _, _, _⟩ _ => by simp [ofParams, outline]) params

theorem ofStmts_eq (stmts : List Stmt) :
    ofStmts stmts = (stmts.map stmt).flatMap outline :=
  outlines_of_cons rfl (fun _ _ => rfl) stmts

theorem ofPats_eq (pats : List Pat) :
    ofPats pats = (pats.map pat).flatMap outline :=
  outlines_of_cons rfl (fun _ _ => rfl) pats

theorem ofFieldPats_eq (fields : List FieldPat) :
    ofFieldPats fields = (fields.map fieldPat).flatMap outline :=
  outlines_of_cons rfl (fun ⟨_, _, _⟩ _ => by simp [ofFieldPats, outline]) fields

theorem ofGenericParams_eq (params : List GenericParam) :
    ofGenericParams params = (params.map genericParam).flatMap outline :=
  outlines_of_cons rfl (fun _ _ => rfl) params

theorem ofVariants_eq (variants : List Variant) :
    ofVariants variants = (variants.map variant).flatMap outline :=
  outlines_of_cons rfl (fun ⟨_, _, _⟩ _ => by simp [ofVariants, outline]) variants

theorem ofItems_eq (items : List Item) :
    ofItems items = (items.map item).flatMap outline :=
  outlines_of_cons rfl (fun _ _ => rfl) items

theorem ofTy?_eq (ty? : Option Ty) :
    ofTy? ty? = (ty?.toList.map ty).flatMap outline :=
  outlines_of_option rfl (fun _ => rfl) ty?

theorem ofExpr?_eq (expr? : Option Expr) :
    ofExpr? expr? = (expr?.toList.map expr).flatMap outline :=
  outlines_of_option rfl (fun _ => rfl) expr?

theorem ofBlock?_eq (block? : Option Block) :
    ofBlock? block? = (block?.toList.map block).flatMap outline :=
  outlines_of_option rfl (fun _ => rfl) block?

theorem ofPat?_eq (pat? : Option Pat) :
    ofPat? pat? = (pat?.toList.map pat).flatMap outline :=
  outlines_of_option rfl (fun _ => rfl) pat?

/-- A piece is gone through from its own steps over its parts to the end of its module. -/
theorem outline_eq (piece : Piece) :
    piece.outline = piece.opening ++ piece.children.flatMap outline ++ piece.closing := by
  cases piece <;> rename_i x <;> cases x <;>
    simp [outline, opening, children, closing, owner?, Item.ownsModule, Block.declaresItems,
      ofGenericArg, ofTy, ofExpr, ofArgs, ofFieldInits, ofArms, ofParams, ofBlock, ofStmt, ofPat,
      ofFieldPats, ofGenericParam, ofVariants, ofItem, ofGenericArgs_eq, ofTys_eq, ofExprs_eq,
      ofArgs_eq, ofFieldInits_eq, ofArms_eq, ofParams_eq, ofStmts_eq, ofPats_eq, ofFieldPats_eq,
      ofGenericParams_eq, ofVariants_eq, ofItems_eq, ofTy?_eq, ofExpr?_eq, ofBlock?_eq, ofPat?_eq]
  -- only a block and a function may or may not own a module
  all_goals split <;> simp

end

end Piece

/-! ## What an outline is for -/

namespace OutlineStep

/-- What a step defines. -/
def declared? : OutlineStep → Option Entry
  | declare isPub node kind ident | enterItem isPub node kind ident =>
    some ⟨isPub, node, kind, ident⟩
  | enterImpl isPub node span => some ⟨isPub, node, .impl, ⟨"impl", span⟩⟩
  | declareFunc isPub node .func ident _ | enterFunc isPub node .func ident _ =>
    some ⟨isPub, node, .func, ident⟩
  | declareFunc isPub node .init ident _ | enterFunc isPub node .init ident _ =>
    some ⟨isPub, node, .init, ident⟩
  | enterBlock _ | leave | imports _ => none

/-- The owner of the module that a step opens. -/
def owner? : OutlineStep → Option RegionOwner
  | enterItem _ node _ _ | enterImpl _ node _ | enterFunc _ node _ _ _ => some (.item node)
  | enterBlock node => some (.block node)
  | declare .. | declareFunc .. | leave | imports _ => none

/-- The module that a step opens below the innermost of those that are open. -/
def site? (homes : List RegionOwner) (step : OutlineStep) : Option Site :=
  step.owner?.map fun owner => ⟨owner, homes.headD .none⟩

/-- Only at its end a module is no longer open. -/
theorem homes_of_ne_leave {step : OutlineStep} (h : step ≠ .leave) (homes : List RegionOwner) :
    step.homes homes = step.owner?.toList ++ homes := by
  cases step <;> first | rfl | exact absurd rfl h

end OutlineStep

namespace Outline

/-- What the steps of an outline define. -/
def entries (outline : Outline) : List Entry := outline.filterMap OutlineStep.declared?

/-- The modules that the steps of an outline open, below those that are open before it. -/
def sites : List RegionOwner → Outline → List Site
  | _, [] => []
  | homes, step :: outline => (step.site? homes).toList ++ sites (step.homes homes) outline

theorem entries_cons (step : OutlineStep) (outline : Outline) :
    entries (step :: outline) = step.declared?.toList ++ outline.entries := by
  cases h : step.declared? <;> simp [entries, h]

theorem entries_append (first second : Outline) :
    (first ++ second).entries = first.entries ++ second.entries := List.filterMap_append

theorem entries_flatMap {α : Type} (parts : List α) (f : α → Outline) :
    entries (parts.flatMap f) = parts.flatMap fun part => (f part).entries :=
  List.filterMap_flatMap

theorem sites_append (homes : List RegionOwner) (first second : Outline) :
    sites homes (first ++ second) = sites homes first ++ sites (first.homes homes) second := by
  induction first generalizing homes with
  | nil => rfl
  | cons step first ih =>
    rw [List.cons_append, sites, sites, ih, List.append_assoc]
    rfl

section

variable {α : Type} {parts : List α} {f : α → Outline} {homes : List RegionOwner}
  (closed : ∀ part ∈ parts, (f part).homes homes = homes)

include closed

/-- Parts that leave no module open leave none open together. -/
theorem homes_flatMap : Outline.homes homes (parts.flatMap f) = homes := by
  induction parts with
  | nil => rfl
  | cons part parts ih =>
    obtain ⟨first, others⟩ := List.forall_mem_cons.mp closed
    rw [List.flatMap_cons, homes_append, first, ih others]

/-- Their modules lie side by side. -/
theorem sites_flatMap :
    sites homes (parts.flatMap f) = parts.flatMap fun part => (f part).sites homes := by
  induction parts with
  | nil => rfl
  | cons part parts ih =>
    obtain ⟨first, others⟩ := List.forall_mem_cons.mp closed
    rw [List.flatMap_cons, List.flatMap_cons, sites_append, first, ih others]

end

section

variable (imports : List Import)

theorem entries_imports : entries (imports.map .imports) = [] := by
  rw [entries, List.filterMap_eq_nil_iff]
  intro step mem
  obtain ⟨i, -, rfl⟩ := List.mem_map.mp mem
  rfl

theorem homes_imports (homes : List RegionOwner) :
    Outline.homes homes (imports.map .imports) = homes := by
  induction imports with
  | nil => rfl
  | cons i imports ih => exact ih

theorem sites_imports (homes : List RegionOwner) : sites homes (imports.map .imports) = [] := by
  induction imports with
  | nil => rfl
  | cons i imports ih => exact ih

end

end Outline

namespace Piece

/-- A piece starts with one step for what it is, or with the imports that it makes. -/
theorem opening_cases (piece : Piece) :
    (∃ step, piece.opening = [step] ∧ step ≠ .leave ∧ step.declared? = piece.declared? ∧
      step.owner? = piece.owner?) ∨
    ∃ imports : List Import, piece.opening = imports.map .imports ∧ piece.declared? = none ∧
      piece.owner? = none := by
  cases piece with
  | block b =>
    obtain ⟨id, stmts⟩ := b
    simp only [opening, owner?]
    split
    · exact .inl ⟨.enterBlock id, rfl, by simp, rfl, rfl⟩
    · exact .inr ⟨[], rfl, rfl, rfl⟩
  | genericParam p => cases p <;> exact .inl ⟨_, rfl, by simp, rfl, rfl⟩
  | variant v =>
    obtain ⟨id, name, types⟩ := v
    exact .inl ⟨_, rfl, by simp, rfl, rfl⟩
  | item i =>
    cases i with
    | useDecl head tree => exact .inr ⟨tree.imports head.isPub, rfl, rfl, rfl⟩
    | func head kind name generics params ret body =>
      simp only [opening, owner?]
      split <;> cases kind <;> exact .inl ⟨_, rfl, by simp, rfl, rfl⟩
    | _ => exact .inl ⟨_, rfl, by simp, rfl, rfl⟩
  | _ => exact .inr ⟨[], rfl, rfl, rfl⟩

theorem entries_opening (piece : Piece) : piece.opening.entries = piece.declared?.toList := by
  rcases piece.opening_cases with ⟨step, made, -, same, -⟩ | ⟨imports, made, none, -⟩
  · rw [made, ← same, Outline.entries_cons]
    exact List.append_nil _
  · rw [made, none, Outline.entries_imports]
    rfl

theorem homes_opening (piece : Piece) (homes : List RegionOwner) :
    piece.opening.homes homes = piece.owner?.toList ++ homes := by
  rcases piece.opening_cases with ⟨step, made, inside, -, same⟩ | ⟨imports, made, -, none⟩
  · rw [made, ← same]
    exact step.homes_of_ne_leave inside homes
  · rw [made, none, Outline.homes_imports]
    rfl

theorem sites_opening (piece : Piece) (home : RegionOwner) (others : List RegionOwner) :
    piece.opening.sites (home :: others) = (piece.site? home).toList := by
  rcases piece.opening_cases with ⟨step, made, -, -, same⟩ | ⟨imports, made, -, none⟩
  · rw [made, site?, ← same]
    exact List.append_nil _
  · rw [made, site?, none, Outline.sites_imports]
    rfl

/-- Only a function opens the module of a function. -/
theorem eq_func_of_enterFunc {piece : Piece} {isPub : Bool} {node : NodeId} {kind : FuncKind}
    {ident : Ident} {suffix : String}
    (mem : OutlineStep.enterFunc isPub node kind ident suffix ∈ piece.opening) :
    ∃ head generics params ret body, piece = item (.func head kind ident generics params ret body) ∧
      head.id = node ∧ suffix = Param.suffix params := by
  cases piece with
  | block b =>
    obtain ⟨id, stmts⟩ := b
    simp only [opening] at mem
    split at mem <;> simp at mem
  | genericParam p => cases p <;> simp [opening] at mem
  | variant v =>
    obtain ⟨id, name, types⟩ := v
    simp [opening] at mem
  | item i =>
    cases i with
    | func head kind' name generics params ret body =>
      simp only [opening] at mem
      split at mem
      · obtain ⟨-, rfl, rfl, rfl, rfl⟩ := OutlineStep.enterFunc.inj (List.mem_singleton.mp mem)
        exact ⟨head, generics, params, ret, body, rfl, rfl, rfl⟩
      · simp at mem
    | _ => simp [opening] at mem
  | _ => simp [opening] at mem

theorem entries_closing (piece : Piece) : piece.closing.entries = [] := by
  unfold closing
  split <;> rfl

theorem sites_closing (piece : Piece) (homes : List RegionOwner) :
    piece.closing.sites homes = [] := by
  unfold closing
  split <;> rfl

theorem homes_closing (piece : Piece) (homes : List RegionOwner) :
    piece.closing.homes (piece.owner?.toList ++ homes) = homes := by
  unfold closing
  cases piece.owner? <;> rfl

/-- Behind a piece the same modules are open as in front of it. -/
theorem homes_outline (piece : Piece) (homes : List RegionOwner) :
    piece.outline.homes homes = homes := by
  induction piece using induct generalizing homes with
  | step piece ih =>
    have parts := Outline.homes_flatMap fun part mem => ih part mem (piece.owner?.toList ++ homes)
    rw [outline_eq, Outline.homes_append, Outline.homes_append, homes_opening, parts, homes_closing]

/-- What is to be defined for a piece and everything in it, wherever it lies. -/
theorem entries_outline (piece : Piece) (home : RegionOwner) :
    piece.outline.entries = (piece.within home).filterMap fun p => p.2.declared? := by
  induction piece using induct generalizing home with
  | step piece ih =>
    have parts : piece.children.flatMap (fun part => part.outline.entries) =
        piece.children.flatMap fun part =>
          (part.within (piece.owner?.getD home)).filterMap fun p => p.2.declared? :=
      List.flatMap_congr fun part mem => ih part mem _
    rw [outline_eq, Outline.entries_append, Outline.entries_append, entries_opening,
      entries_closing, Outline.entries_flatMap, parts, within_eq, List.append_nil]
    cases h : piece.declared? <;> simp [h, List.filterMap_flatMap]

/-- The modules of a piece and everything in it, where it lies in the module of `home`. -/
theorem sites_outline (piece : Piece) (home : RegionOwner) (others : List RegionOwner) :
    piece.outline.sites (home :: others) =
      (piece.within home).filterMap fun p => p.2.site? p.1 := by
  induction piece using induct generalizing home others with
  | step piece ih =>
    -- in the parts the innermost open module is that of the piece, if it owns one
    obtain ⟨others', inside⟩ : ∃ others', piece.owner?.toList ++ home :: others =
        piece.owner?.getD home :: others' := by
      cases piece.owner? <;> exact ⟨_, rfl⟩
    have parts : piece.children.flatMap (fun part =>
          part.outline.sites (piece.owner?.getD home :: others')) =
        piece.children.flatMap fun part =>
          (part.within (piece.owner?.getD home)).filterMap fun p => p.2.site? p.1 :=
      List.flatMap_congr fun part mem => ih part mem _ _
    rw [outline_eq, Outline.sites_append, Outline.sites_append, sites_opening, sites_closing,
      homes_opening, inside, Outline.sites_flatMap fun part _ => part.homes_outline _, parts,
      within_eq, List.append_nil]
    cases h : piece.site? home <;> simp [h, List.filterMap_flatMap]

/-- Each step is made for a piece, unless it leaves the module of one. -/
theorem exists_opening {piece : Piece} {step : OutlineStep} (mem : step ∈ piece.outline)
    (inside : step ≠ .leave) (home : RegionOwner) :
    ∃ home' part, (home', part) ∈ piece.within home ∧ step ∈ part.opening := by
  induction piece using induct generalizing home with
  | step piece ih =>
    rw [outline_eq, List.mem_append, List.mem_append] at mem
    rw [within_eq]
    rcases mem with (here | below) | behind
    · exact ⟨home, piece, List.mem_cons_self .., here⟩
    · obtain ⟨child, isChild, mem⟩ := List.mem_flatMap.mp below
      obtain ⟨home', part, isPart, opens⟩ := ih child isChild mem (piece.owner?.getD home)
      have within := List.mem_flatMap.mpr ⟨child, isChild, isPart⟩
      exact ⟨home', part, List.mem_cons_of_mem _ within, opens⟩
    · -- what closes a module is no more than to leave it
      unfold closing at behind
      split at behind
      · exact absurd (List.mem_singleton.mp behind) inside
      · cases behind

end Piece

/-! ## Programs -/

namespace Program

/-- Everything in a program, each piece with the innermost owner of a module around it. -/
def pieces (program : Program) : List (RegionOwner × Piece) :=
  program.items.flatMap fun item => (Piece.item item).within (.item program.id)

/-- What the definition of a program says about it. -/
def entry (program : Program) : Entry := ⟨true, program.id, .mod, ⟨"[root]", program.span⟩⟩

/-- What is to be defined for a program and everything in it. -/
def entries (program : Program) : List Entry :=
  program.entry :: program.pieces.filterMap fun p => p.2.declared?

/-- The modules of everything in a program. -/
def sites (program : Program) : List Site := program.pieces.filterMap fun p => p.2.site? p.1

theorem ofProgram_eq (program : Program) :
    Outline.ofProgram program = program.items.flatMap fun item => (Piece.item item).outline := by
  rw [Outline.ofProgram, Piece.ofItems_eq, List.flatMap_map]

theorem exists_opening {program : Program} {step : OutlineStep}
    (mem : step ∈ Outline.ofProgram program) (inside : step ≠ .leave) :
    ∃ home piece, (home, piece) ∈ program.pieces ∧ step ∈ piece.opening := by
  rw [ofProgram_eq] at mem
  obtain ⟨item, isItem, mem⟩ := List.mem_flatMap.mp mem
  obtain ⟨home, piece, within, opens⟩ := Piece.exists_opening mem inside (.item program.id)
  exact ⟨home, piece, List.mem_flatMap.mpr ⟨item, isItem, within⟩, opens⟩

theorem entries_eq (program : Program) :
    program.entries = program.entry :: (Outline.ofProgram program).entries := by
  have items : (fun item => (Piece.item item).outline.entries) = fun item =>
      ((Piece.item item).within (.item program.id)).filterMap fun p => p.2.declared? :=
    funext fun item => (Piece.item item).entries_outline _
  rw [ofProgram_eq, Outline.entries_flatMap, items, entries, pieces, List.filterMap_flatMap]

theorem sites_eq (program : Program) :
    program.sites = (Outline.ofProgram program).sites [.item program.id] := by
  have items : (fun item => (Piece.item item).outline.sites [.item program.id]) = fun item =>
      ((Piece.item item).within (.item program.id)).filterMap fun p => p.2.site? p.1 :=
    funext fun item => (Piece.item item).sites_outline _ _
  rw [ofProgram_eq, Outline.sites_flatMap fun item _ => (Piece.item item).homes_outline _, items,
    sites, pieces, List.filterMap_flatMap]

end Program

end NameResolution

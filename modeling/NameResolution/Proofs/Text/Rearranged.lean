import NameResolution.Proofs.Text.Arrangement
import NameResolution.Proofs.Text.Pieces

/-! # Rearranged outlines

    The outline of a rearranged program has the same steps, each in the same
    module: whatever is declared is declared there as well, and the modules lie
    in each other in the same way. -/

namespace NameResolution

/-! ## Steps and where they are made -/

namespace Outline

/-- The steps of an outline, each with the owner of the innermost module that is open. -/
def placed : List RegionOwner → Outline → List (RegionOwner × OutlineStep)
  | _, [] => []
  | homes, step :: outline => (homes.headD .none, step) :: placed (step.homes homes) outline

theorem placed_append (homes : List RegionOwner) (first second : Outline) :
    placed homes (first ++ second) = placed homes first ++ placed (first.homes homes) second := by
  induction first generalizing homes with
  | nil => rfl
  | cons step first ih =>
    rw [List.cons_append, placed, placed, ih]
    rfl

/-- Parts that leave no module open lie side by side. -/
theorem placed_flatMap {α : Type} {parts : List α} {f : α → Outline} {homes : List RegionOwner}
    (closed : ∀ part ∈ parts, (f part).homes homes = homes) :
    placed homes (parts.flatMap f) = parts.flatMap fun part => (f part).placed homes := by
  induction parts with
  | nil => rfl
  | cons part parts ih =>
    obtain ⟨first, others⟩ := List.forall_mem_cons.mp closed
    rw [List.flatMap_cons, List.flatMap_cons, placed_append, first, ih others]

theorem sites_eq_filterMap (homes : List RegionOwner) (outline : Outline) :
    outline.sites homes = (outline.placed homes).filterMap fun p => p.2.site? [p.1] := by
  induction outline generalizing homes with
  | nil => rfl
  | cons step outline ih =>
    rw [sites, placed, List.filterMap_cons, ih]
    simp only [OutlineStep.site?, List.headD_cons]
    cases step.owner? <;> rfl

theorem map_placed (homes : List RegionOwner) (outline : Outline) :
    (outline.placed homes).map Prod.snd = outline := by
  induction outline generalizing homes with
  | nil => rfl
  | cons step outline ih => rw [placed, List.map_cons, ih]

end Outline

/-- What goes through a list element by element. -/
theorem eq_map_of_cons {α : Type} {f : α → α} {fs : List α → List α} (nil : fs [] = [])
    (cons : ∀ x xs, fs (x :: xs) = f x :: fs xs) (xs : List α) : fs xs = xs.map f := by
  induction xs with
  | nil => exact nil
  | cons x xs ih => rw [cons, ih, List.map_cons]

/-! ## Pieces -/

namespace Arrangement

variable (a : Arrangement)

def ofPiece : Piece → Piece
  | .genericArg arg => .genericArg (a.ofGenericArg arg)
  | .ty ty => .ty (a.ofTy ty)
  | .expr expr => .expr (a.ofExpr expr)
  | .arg arg => .arg (a.ofArg arg)
  | .fieldInit field => .fieldInit (a.ofFieldInit field)
  | .arm arm => .arm (a.ofArm arm)
  | .param param => .param (a.ofParam param)
  | .block block => .block (a.ofBlock block)
  | .stmt stmt => .stmt (a.ofStmt stmt)
  | .pat pat => .pat (a.ofPat pat)
  | .fieldPat field => .fieldPat (a.ofFieldPat field)
  | .genericParam param => .genericParam (a.ofGenericParam param)
  | .variant variant => .variant (a.ofVariant variant)
  | .item item => .item (a.ofItem item)

theorem ofGenericArgs_eq (args : List GenericArg) :
    a.ofGenericArgs args = args.map a.ofGenericArg := eq_map_of_cons rfl (fun _ _ => rfl) args

theorem ofTys_eq (tys : List Ty) : a.ofTys tys = tys.map a.ofTy :=
  eq_map_of_cons rfl (fun _ _ => rfl) tys

theorem ofExprs_eq (exprs : List Expr) : a.ofExprs exprs = exprs.map a.ofExpr :=
  eq_map_of_cons rfl (fun _ _ => rfl) exprs

theorem ofArgs_eq (args : List Arg) : a.ofArgs args = args.map a.ofArg :=
  eq_map_of_cons rfl (fun _ _ => rfl) args

theorem ofFieldInits_eq (fields : List FieldInit) :
    a.ofFieldInits fields = fields.map a.ofFieldInit := eq_map_of_cons rfl (fun _ _ => rfl) fields

theorem ofArms_eq (arms : List Arm) : a.ofArms arms = arms.map a.ofArm :=
  eq_map_of_cons rfl (fun _ _ => rfl) arms

theorem ofParams_eq (params : List Param) : a.ofParams params = params.map a.ofParam :=
  eq_map_of_cons rfl (fun _ _ => rfl) params

theorem ofStmts_eq (stmts : List Stmt) : a.ofStmts stmts = stmts.map a.ofStmt :=
  eq_map_of_cons rfl (fun _ _ => rfl) stmts

theorem ofPats_eq (pats : List Pat) : a.ofPats pats = pats.map a.ofPat :=
  eq_map_of_cons rfl (fun _ _ => rfl) pats

theorem ofFieldPats_eq (fields : List FieldPat) : a.ofFieldPats fields = fields.map a.ofFieldPat :=
  eq_map_of_cons rfl (fun _ _ => rfl) fields

theorem ofGenericParams_eq (params : List GenericParam) :
    a.ofGenericParams params = params.map a.ofGenericParam :=
  eq_map_of_cons rfl (fun _ _ => rfl) params

theorem ofVariants_eq (variants : List Variant) :
    a.ofVariants variants = variants.map a.ofVariant := eq_map_of_cons rfl (fun _ _ => rfl) variants

theorem ofItems_eq (items : List Item) : a.ofItems items = items.map a.ofItem :=
  eq_map_of_cons rfl (fun _ _ => rfl) items

theorem ofTy?_eq (ty : Option Ty) : a.ofTy? ty = ty.map a.ofTy := by cases ty <;> rfl

theorem ofExpr?_eq (expr : Option Expr) : a.ofExpr? expr = expr.map a.ofExpr := by
  cases expr <;> rfl

theorem ofBlock?_eq (block : Option Block) : a.ofBlock? block = block.map a.ofBlock := by
  cases block <;> rfl

theorem ofPat?_eq (pat : Option Pat) : a.ofPat? pat = pat.map a.ofPat := by cases pat <;> rfl

/-- The parts of a piece are rearranged in turn, and those of a mod are items in another order. -/
theorem children_ofPiece (piece : Piece) :
    (a.ofPiece piece).children.Perm (piece.children.map a.ofPiece) := by
  by_cases isMod : ∃ head name items, piece = .item (.mod head name items)
  · obtain ⟨head, name, items, rfl⟩ := isMod
    simp only [ofPiece, ofItem, Piece.children, List.map_map, ofItems_eq]
    have same := (a.perm head.id (items.map a.ofItem)).map Piece.item
    rwa [List.map_map] at same
  · refine .of_eq ?_
    cases piece <;> rename_i x <;> cases x <;>
      simp [ofPiece, Piece.children, ofGenericArg, ofTy, ofExpr, ofArg, ofFieldInit, ofArm,
        ofParam, ofBlock, ofStmt, ofPat, ofFieldPat, ofGenericParam, ofVariant, ofItem,
        ofGenericArgs_eq, ofTys_eq, ofExprs_eq, ofArgs_eq, ofFieldInits_eq, ofArms_eq,
        ofParams_eq, ofStmts_eq, ofPats_eq, ofFieldPats_eq, ofGenericParams_eq, ofVariants_eq,
        ofItems_eq, ofTy?_eq, ofExpr?_eq, ofBlock?_eq, ofPat?_eq, Option.toList_map,
        Function.comp_def]
    exact absurd ⟨_, _, _, rfl⟩ isMod

theorem owner?_ofPiece (piece : Piece) : (a.ofPiece piece).owner? = piece.owner? := by
  cases piece with
  | block block =>
    obtain ⟨id, stmts⟩ := block
    simp [ofPiece, ofBlock, Piece.owner?, Block.declaresItems, any_isItem_ofStmts]
  | item item =>
    cases item <;> simp [ofPiece, ofItem, Piece.owner?, Item.ownsModule, Item.head,
      isSome_ofExpr?, isEmpty_ofGenericParams]
  | _ => rfl

theorem opening_ofPiece (piece : Piece) : (a.ofPiece piece).opening = piece.opening := by
  cases piece with
  | block block =>
    obtain ⟨id, stmts⟩ := block
    simp [ofPiece, ofBlock, Piece.opening, Block.declaresItems, any_isItem_ofStmts]
  | genericParam param => cases param <;> rfl
  | variant variant => cases variant; rfl
  | item item =>
    cases item <;> simp [ofPiece, ofItem, Piece.opening, Item.ownsModule, isSome_ofExpr?,
      isEmpty_ofGenericParams, suffix_ofParams]
  | _ => rfl

theorem closing_ofPiece (piece : Piece) : (a.ofPiece piece).closing = piece.closing := by
  rw [Piece.closing, Piece.closing, owner?_ofPiece]

/-- A rearranged piece makes the same steps in the same modules. -/
theorem placed_ofPiece (piece : Piece) (homes : List RegionOwner) :
    ((a.ofPiece piece).outline.placed homes).Perm (piece.outline.placed homes) := by
  induction piece using Piece.induct generalizing homes with
  | step piece ih =>
    -- what is inside the parts comes in another order at most
    have parts (homes : List RegionOwner) :
        (Outline.placed homes ((a.ofPiece piece).children.flatMap Piece.outline)).Perm
          (Outline.placed homes (piece.children.flatMap Piece.outline)) := by
      rw [Outline.placed_flatMap fun part _ => part.homes_outline homes,
        Outline.placed_flatMap fun part _ => part.homes_outline homes]
      refine ((a.children_ofPiece piece).flatMap_right _).trans ?_
      rw [List.flatMap_map]
      exact List.Perm.flatMap_left _ fun part mem => ih part mem homes
    have behind : Outline.homes homes (piece.opening ++ (a.ofPiece piece).children.flatMap
        Piece.outline) = Outline.homes homes (piece.opening ++ piece.children.flatMap
          Piece.outline) := by
      rw [Outline.homes_append, Outline.homes_append,
        Outline.homes_flatMap fun part _ => part.homes_outline _,
        Outline.homes_flatMap fun part _ => part.homes_outline _]
    rw [Piece.outline_eq, piece.outline_eq, opening_ofPiece, closing_ofPiece,
      Outline.placed_append, Outline.placed_append, behind, Outline.placed_append,
      Outline.placed_append]
    exact ((parts _).append_left _).append_right _

/-! ## Programs -/

theorem placed_program (program : Program) (homes : List RegionOwner) :
    ((Outline.ofProgram (a.ofProgram program)).placed homes).Perm
      ((Outline.ofProgram program).placed homes) := by
  rw [Program.ofProgram_eq, Program.ofProgram_eq,
    Outline.placed_flatMap fun item _ => (Piece.item item).homes_outline homes,
    Outline.placed_flatMap fun item _ => (Piece.item item).homes_outline homes]
  refine ((a.perm _ _).flatMap_right _).trans ?_
  rw [ofItems_eq, List.flatMap_map]
  exact List.Perm.flatMap_left _ fun item _ => a.placed_ofPiece (.item item) homes

theorem perm_outline (program : Program) :
    (Outline.ofProgram (a.ofProgram program)).Perm (Outline.ofProgram program) := by
  have same := (a.placed_program program []).map Prod.snd
  rwa [Outline.map_placed, Outline.map_placed] at same

theorem perm_sites (program : Program) :
    (a.ofProgram program).sites.Perm program.sites := by
  rw [Program.sites_eq, Program.sites_eq, Outline.sites_eq_filterMap, Outline.sites_eq_filterMap]
  exact (a.placed_program program _).filterMap _

theorem perm_entries (program : Program) :
    (a.ofProgram program).entries.Perm program.entries := by
  rw [Program.entries_eq, Program.entries_eq]
  exact ((a.perm_outline program).filterMap _).cons _

end Arrangement

end NameResolution

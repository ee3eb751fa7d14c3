import NameResolution.Proofs.Text.Occurrence
import NameResolution.Outline.Basic
import Mathlib.Data.List.Pairwise
import Mathlib.Data.List.Perm.Subperm

/-! # Outlines and occurrences

    The outline of a piece of the text declares what its occurrences are for,
    below the module that encloses the piece. It goes through the nodes in an
    order of its own: a pattern comes in front of its type and its value, while
    names come into reach behind them. -/

namespace NameResolution

/-- No declaration is made for a node of this role: a name is bound or referred to, or a block
    is opened that declares no items. -/
def Role.declaresNothing : Role → Bool
  | .declared | .item | .func _ | .block true | .imported => false
  | _ => true

/-- Below the module of the owner, an outline makes the declarations of some occurrences. -/
inductive Declares : RegionOwner → Outline → List Occurrence → Prop where
  | nothing {home : RegionOwner} : Declares home [] []
  | skip {home : RegionOwner} {occ : Occurrence} (h : occ.role.declaresNothing) :
      Declares home [] [occ]
  | declare {home : RegionOwner} {isPub : Bool} {node : NodeId} {kind : DefKind} {ident : Ident}
      {ns : Namespace} {around : Regions} (hns : kind.namespace? = some ns)
      (hcall : kind.isCallable = false) (hblock : ns = .lifetime → home.isBlock = false) :
      Declares home [.declare isPub node kind ident] [⟨node, .declared, around⟩]
  | item {home : RegionOwner} {isPub : Bool} {node : NodeId} {kind : DefKind} {ident : Ident}
      {around : Regions} {inner : Outline} {occs : List Occurrence}
      (hkind : kind.namespace? = some .type) (hhome : around.home = home)
      (h : Declares (.item node) inner occs) :
      Declares home (.enterItem isPub node kind ident :: (inner ++ [.leave]))
        (⟨node, .item, around⟩ :: occs)
  | impl {home : RegionOwner} {isPub : Bool} {node : NodeId} {span : Span} {around : Regions}
      {inner : Outline} {occs : List Occurrence} (hhome : around.home = home)
      (h : Declares (.item node) inner occs) :
      Declares home (.enterImpl isPub node span :: (inner ++ [.leave]))
        (⟨node, .item, around⟩ :: occs)
  | func {home : RegionOwner} {isPub : Bool} {node : NodeId} {kind : FuncKind} {ident : Ident}
      {suffix : String} {around : Regions} {inner : Outline} {occs : List Occurrence}
      (hhome : around.home = home) (h : Declares (.item node) inner occs) :
      Declares home (.enterFunc isPub node kind ident suffix :: (inner ++ [.leave]))
        (⟨node, .func true, around⟩ :: occs)
  | declareFunc {home : RegionOwner} {isPub : Bool} {node : NodeId} {kind : FuncKind}
      {ident : Ident} {suffix : String} {around : Regions} :
      Declares home [.declareFunc isPub node kind ident suffix] [⟨node, .func false, around⟩]
  | block {home : RegionOwner} {node : NodeId} {around : Regions} {inner : Outline}
      {occs : List Occurrence} (hhome : around.home = home)
      (h : Declares (.block node) inner occs) :
      Declares home (.enterBlock node :: (inner ++ [.leave])) (⟨node, .block true, around⟩ :: occs)
  | imports {home : RegionOwner} {i : Import} {around : Regions} :
      Declares home [.imports i] [⟨i.node, .imported, around⟩]
  | append {home : RegionOwner} {first second : Outline} {occs others : List Occurrence}
      (h : Declares home first occs) (h' : Declares home second others) :
      Declares home (first ++ second) (occs ++ others)
  | perm {home : RegionOwner} {outline : Outline} {occs others : List Occurrence}
      (h : Declares home outline occs) (h' : occs.Perm others) : Declares home outline others

/-- Types are not called. -/
theorem DefKind.isCallable_of_type {kind : DefKind} (sort : kind.namespace? = some .type) :
    kind.isCallable = false := by
  cases kind <;> first | rfl | cases sort

/-- Functions are declared as functions only, and items with a module are types. -/
def OutlineStep.Tidy : OutlineStep → Prop
  | .declare _ _ kind _ => kind.isCallable = false
  | .enterItem _ _ kind _ => kind.namespace? = some .type
  | _ => True

theorem Declares.tidy {home : RegionOwner} {outline : Outline} {occs : List Occurrence}
    (h : Declares home outline occs) : ∀ step ∈ outline, step.Tidy := by
  -- what is inside a module is tidy, and so are the steps into it and out of it
  have within {first : OutlineStep} {inner : Outline} (firstTidy : first.Tidy)
      (ih : ∀ step ∈ inner, step.Tidy) : ∀ step ∈ first :: (inner ++ [.leave]), step.Tidy := by
    intro step mem
    rcases List.mem_cons.mp mem with rfl | mem
    · exact firstTidy
    · rcases List.mem_append.mp mem with mem | mem
      · exact ih step mem
      · rw [List.mem_singleton.mp mem]
        trivial
  induction h with
  | nothing => exact List.forall_mem_nil _
  | skip => exact List.forall_mem_nil _
  | declare _ hcall _ => exact List.forall_mem_singleton.mpr hcall
  | item hkind _ _ ih => exact within hkind ih
  | impl _ _ ih => exact within trivial ih
  | func _ _ ih => exact within trivial ih
  | declareFunc => exact List.forall_mem_singleton.mpr trivial
  | block _ _ ih => exact within trivial ih
  | imports => exact List.forall_mem_singleton.mpr trivial
  | append _ _ ih ih' =>
    exact fun step mem => (List.mem_append.mp mem).elim (ih step) (ih' step)
  | perm _ _ ih => exact ih

/-! ## Nodes -/

/-- Where nothing comes up twice, it comes from one entry. -/
theorem eq_of_nodup_filterMap {α β : Type} {f : α → Option β} {xs : List α}
    (nodup : (xs.filterMap f).Nodup) {x y : α} (memX : x ∈ xs) (memY : y ∈ xs) {b : β}
    (fx : f x = some b) (fy : f y = some b) : x = y := by
  by_contra ne
  have apart : xs.Pairwise fun x y => ∀ b, f x = some b → ∀ b', f y = some b' → b ≠ b' :=
    List.pairwise_filterMap.mp nodup
  have symmetric : Std.Symm fun x y => ∀ b, f x = some b → ∀ b', f y = some b' → b ≠ b' :=
    ⟨fun x y apart b fy b' fx same => apart b' fx b fy same.symm⟩
  exact apart.forall memX memY ne b fx b fy rfl

/-- The node that a step is made for. -/
def OutlineStep.node? : OutlineStep → Option NodeId
  | .declare _ node _ _ | .enterItem _ node _ _ | .enterImpl _ node _
  | .declareFunc _ node _ _ _ | .enterFunc _ node _ _ _ | .enterBlock node => some node
  | .imports i => some i.node
  | .leave => none

/-- The nodes that the steps of an outline are made for. -/
def Outline.nodes (outline : Outline) : List NodeId := outline.filterMap OutlineStep.node?

theorem Outline.nodes_append (first second : Outline) :
    nodes (first ++ second) = nodes first ++ nodes second := List.filterMap_append

/-- Steps are made for occurrences of their own. -/
theorem Declares.nodes_subperm {home : RegionOwner} {outline : Outline} {occs : List Occurrence}
    (h : Declares home outline occs) : outline.nodes.Subperm (occs.map (·.node)) := by
  have within {first : OutlineStep} {inner : Outline} {occ : Occurrence} {occs : List Occurrence}
      (here : first.node? = some occ.node) (ih : inner.nodes.Subperm (occs.map (·.node))) :
      (Outline.nodes (first :: (inner ++ [.leave]))).Subperm ((occ :: occs).map (·.node)) := by
    have inside : Outline.nodes (first :: (inner ++ [.leave])) = occ.node :: inner.nodes := by
      have last : Outline.nodes [.leave] = [] := rfl
      rw [Outline.nodes, List.filterMap_cons_some here, ← Outline.nodes, Outline.nodes_append,
        last, List.append_nil]
    rw [inside]
    exact (List.subperm_cons _).mpr ih
  induction h with
  | nothing | skip => exact List.nil_subperm
  | declare | declareFunc | imports => exact .refl _
  | item _ _ _ ih | impl _ _ ih | func _ _ ih | block _ _ ih => exact within rfl ih
  | append _ _ ih ih' =>
    rw [Outline.nodes_append, List.map_append]
    exact ih.append ih'
  | perm _ same ih => exact ih.trans (same.map _).subperm

/-! ## Open modules -/

/-- The owners of the modules that are open after a step, innermost first. -/
def OutlineStep.homes (homes : List RegionOwner) : OutlineStep → List RegionOwner
  | .enterItem _ node _ _ | .enterImpl _ node _ | .enterFunc _ node _ _ _ => .item node :: homes
  | .enterBlock node => .block node :: homes
  | .leave => homes.tail
  | .declare .. | .declareFunc .. | .imports _ => homes

/-- The owners of the modules that are open after an outline. -/
def Outline.homes (homes : List RegionOwner) (outline : Outline) : List RegionOwner :=
  outline.foldl OutlineStep.homes homes

/-- What is inside a module leaves no other one open. -/
theorem Outline.homes_within {homes : List RegionOwner} {first : OutlineStep} {owner : RegionOwner}
    {inner : Outline} (opens : first.homes homes = owner :: homes)
    (closed : inner.homes (owner :: homes) = owner :: homes) :
    Outline.homes homes (first :: (inner ++ [.leave])) = homes := by
  unfold Outline.homes at *
  rw [List.foldl_cons, opens, List.foldl_append, closed]
  rfl

theorem Outline.homes_append (homes : List RegionOwner) (first second : Outline) :
    (first ++ second).homes homes = second.homes (first.homes homes) :=
  List.foldl_append

/-- Behind a whole outline the same modules are open as in front of it. -/
theorem Declares.homes_eq {home : RegionOwner} {outline : Outline} {occs : List Occurrence}
    (h : Declares home outline occs) (others : List RegionOwner) :
    outline.homes (home :: others) = home :: others := by
  -- whatever lies around the module, what is inside it is closed below its owner
  induction h generalizing others with
  | nothing | skip | declare | declareFunc | imports => rfl
  | item _ _ _ ih | impl _ _ ih | func _ _ ih | block _ _ ih =>
    exact Outline.homes_within rfl (ih _)
  | append _ _ ih ih' => rw [Outline.homes_append, ih, ih']
  | perm _ _ ih => exact ih others

end NameResolution

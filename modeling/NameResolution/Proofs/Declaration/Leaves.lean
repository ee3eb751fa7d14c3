import NameResolution.Proofs.Declaration.Rearranged
import NameResolution.Proofs.Text.Leaves

/-! # Directives for use trees

    The first pass puts aside one directive for each leaf of each `use` tree, in
    the order of the text and with the module that it is in at that time. Nothing
    else adds directives, so those that are left in the end can be read off the
    text. -/

namespace NameResolution

/-! ## Imports of an outline -/

namespace Outline

/-- The imports of an outline, each with the owner of the innermost module that is open. -/
def importsAt (homes : List RegionOwner) (outline : Outline) : List (RegionOwner × Import) :=
  (outline.placed homes).filterMap fun p => p.2.import?.map (p.1, ·)

variable {homes : List RegionOwner}

theorem importsAt_cons (step : OutlineStep) (outline : Outline) :
    importsAt homes (step :: outline) =
      step.import?.toList.map (homes.headD .none, ·) ++ importsAt (step.homes homes) outline := by
  unfold importsAt
  rw [placed, List.filterMap_cons]
  cases step.import? <;> rfl

theorem importsAt_append (first second : Outline) :
    importsAt homes (first ++ second) =
      importsAt homes first ++ importsAt (first.homes homes) second := by
  rw [importsAt, placed_append, List.filterMap_append]
  rfl

theorem importsAt_flatMap {α : Type} {parts : List α} {f : α → Outline}
    (closed : ∀ part ∈ parts, (f part).homes homes = homes) :
    importsAt homes (parts.flatMap f) = parts.flatMap fun part => importsAt homes (f part) := by
  rw [importsAt, placed_flatMap closed, List.filterMap_flatMap]
  rfl

theorem importsAt_imports (imports : List Import) :
    importsAt homes (imports.map .imports) = imports.map (homes.headD .none, ·) := by
  induction imports with
  | nil => rfl
  | cons i imports ih =>
    rw [List.map_cons, importsAt_cons, List.map_cons]
    exact congrArg ((homes.headD .none, i) :: ·) ih

theorem importsAt_eq_nil {outline : Outline} (none : outline.imports = []) :
    importsAt homes outline = [] := by
  refine List.filterMap_eq_nil_iff.mpr fun p mem => ?_
  have mem' : p.2 ∈ outline := map_placed homes outline ▸ List.mem_map_of_mem mem
  rw [List.filterMap_eq_nil_iff.mp none p.2 mem']
  rfl

end Outline

/-! ## Leaves of a program -/

namespace Piece

/-- The leaves of a `use` item, with its visibility. -/
def useLeaves : Piece → List (Bool × UseLeaf)
  | item (.useDecl head tree) => tree.leaves.map (head.isPub, ·)
  | _ => []

theorem useLeaves_eq_nil {piece : Piece} (other : piece.isUse = false) : piece.useLeaves = [] := by
  cases piece with
  | item i => cases i <;> first | rfl | cases other
  | _ => rfl

theorem importsAt_opening (piece : Piece) (home : RegionOwner) (others : List RegionOwner) :
    piece.opening.importsAt (home :: others) =
      piece.useLeaves.map fun l => (home, l.2.toImport l.1) := by
  cases use : piece.isUse with
  | false =>
    rw [useLeaves_eq_nil use, Outline.importsAt_eq_nil (imports_opening use)]
    rfl
  | true =>
    cases piece with
    | item i =>
      cases i with
      | useDecl head tree =>
        rw [opening, Outline.importsAt_imports, UseTree.imports_eq, useLeaves, List.map_map,
          List.map_map]
        rfl
      | _ => cases use
    | _ => cases use

theorem importsAt_closing (piece : Piece) (homes : List RegionOwner) :
    piece.closing.importsAt homes = [] := by
  unfold closing
  split <;> rfl

/-- The imports of a piece and everything in it, where it lies in the module of `home`. -/
theorem importsAt_outline (piece : Piece) (home : RegionOwner) (others : List RegionOwner) :
    piece.outline.importsAt (home :: others) =
      (piece.within home).flatMap fun p =>
        p.2.useLeaves.map fun l => (p.1, l.2.toImport l.1) := by
  induction piece using induct generalizing home others with
  | step piece ih =>
    obtain ⟨others', inside⟩ : ∃ others', piece.owner?.toList ++ home :: others =
        piece.owner?.getD home :: others' := by
      cases piece.owner? <;> exact ⟨_, rfl⟩
    have parts : piece.children.flatMap (fun part =>
          part.outline.importsAt (piece.owner?.getD home :: others')) =
        piece.children.flatMap fun part =>
          (part.within (piece.owner?.getD home)).flatMap fun p =>
            p.2.useLeaves.map fun l => (p.1, l.2.toImport l.1) :=
      List.flatMap_congr fun part mem => ih part mem _ _
    rw [outline_eq, Outline.importsAt_append, Outline.importsAt_append, importsAt_opening,
      importsAt_closing, homes_opening, inside,
      Outline.importsAt_flatMap fun part _ => part.homes_outline _, parts, within_eq,
      List.append_nil, List.flatMap_cons, List.flatMap_assoc]

end Piece

/-- The leaves of all `use` items of a program in the order of the text, each with the owner of
    the module it is in and the visibility of its item. -/
def Program.useLeaves (program : Program) : List (RegionOwner × Bool × UseLeaf) :=
  program.pieces.flatMap fun p => p.2.useLeaves.map (p.1, ·)

theorem Program.importsAt_eq (program : Program) :
    (Outline.ofProgram program).importsAt [.item program.id] =
      program.useLeaves.map fun l => (l.1, l.2.2.toImport l.2.1) := by
  rw [ofProgram_eq, Outline.importsAt_flatMap fun item _ => (Piece.item item).homes_outline _,
    useLeaves, pieces, List.flatMap_assoc, List.map_flatMap]
  refine List.flatMap_congr fun item _ => ?_
  rw [Piece.importsAt_outline, List.map_flatMap]
  refine List.flatMap_congr fun p _ => ?_
  rw [List.map_map]
  rfl

/-! ## Directives -/

namespace Declaring

variable {labels : NodeId → String → Prop} {isPub : Bool} {node : NodeId} {kind : DefKind}
  {ident : Ident} {suffix : String} {s s' s'' : DeclareState} {log : Log}

theorem NameOutcome.directives (outcome : NameOutcome isPub node kind ident s s') :
    s'.directives = s.directives := by
  cases outcome <;> rfl

theorem FuncOutcome.directives {free : Bool}
    (outcome : FuncOutcome isPub node kind ident suffix s free s') :
    s'.directives = s.directives := by
  cases outcome <;> rfl

theorem EnterOutcome.directives {id : DefId} {name : Option String}
    (outcome : EnterOutcome id node s name s') : s'.directives = s.directives := by
  cases outcome <;> rfl

/-- A directive gets the module that is the current one. -/
theorem StepOutcome.directives {step : OutlineStep} (outcome : StepOutcome s step s') :
    s'.directives = s.directives ++ step.import?.toList.map ({ · with module := s.current }) := by
  have nothing : s.directives = s.directives ++ [] := (List.append_nil _).symm
  cases outcome with
  | declare _ outcome => exact outcome.directives.trans nothing
  | enterItem _ outcome entered =>
    exact (entered.directives.trans outcome.directives).trans nothing
  | enterImpl _ entered => exact entered.directives.trans nothing
  | declareFunc _ outcome => exact outcome.directives.trans nothing
  | enterFunc _ outcome entered =>
    exact (entered.directives.trans outcome.directives).trans nothing
  | enterBlock | leave => exact nothing
  | imports i => rfl

/-- A part of the first pass has put these imports aside, each with the module of its owner. -/
structure Directs (places : List (RegionOwner × Import)) (s s' : DeclareState) : Prop where
  enlarges : Enlarges s s'
  directives : ∃ added, s'.directives = s.directives ++ added ∧
    List.Forall₂ (fun (p : RegionOwner × Import) d =>
      d.toImport = p.2 ∧ s'.defs.moduleOf p.1 = some d.module) places added

namespace Directs

variable {places places' : List (RegionOwner × Import)}

theorem refl (s : DeclareState) : Directs [] s s := ⟨.refl s, [], (List.append_nil _).symm, .nil⟩

theorem trans (h : Directs places s s') (h' : Directs places' s' s'') :
    Directs (places ++ places') s s'' := by
  obtain ⟨added, eq, match₁⟩ := h.directives
  obtain ⟨added', eq', match₂⟩ := h'.directives
  refine ⟨h.enlarges.trans h'.enlarges, added ++ added', ?_, ?_⟩
  · rw [eq', eq, List.append_assoc]
  · -- what owns a module keeps it
    refine List.rel_append (match₁.imp fun p d ⟨same, held⟩ => ?_) match₂
    exact ⟨same, h'.enlarges.defs.moduleOf held⟩

end Directs

theorem StepOutcome.directs {step : OutlineStep} (outcome : StepOutcome s step s')
    (valid : s.tree.Valid) {homes : List RegionOwner}
    (standing : Standing s.defs s.tree homes s.current) :
    Directs (step.import?.toList.map (homes.headD .none, ·)) s s' := by
  have enlarges := (outcome.moves valid standing).enlarges
  obtain ⟨home, others, rfl, held⟩ := standing.head
  refine ⟨enlarges, _, outcome.directives, ?_⟩
  cases step.import? with
  | none => exact .nil
  | some i => exact .cons ⟨rfl, enlarges.defs.moduleOf held⟩ .nil

theorem FollowOutcome.directs {outline : Outline} (h : FollowOutcome labels outline s s')
    {homes : List RegionOwner} (standing : Standing s.defs s.tree homes s.current) :
    Directs (outline.importsAt homes) s s' := by
  induction h generalizing homes with
  | nil _ => exact .refl _
  | cons inOrder outcome _ _ ih =>
    have valid := inOrder.sound.intact.validTree
    rw [Outline.importsAt_cons]
    exact (outcome.directs valid standing).trans (ih (outcome.moves valid standing).standing)

/-- To follow the steps of some imports is to put them aside, and no more. -/
theorem run_follow_imports (imports : List Import) (s : DeclareState) (log : Log) :
    (follow (imports.map .imports)).run s log =
      .ok ((), { s with
        directives := s.directives ++ imports.map ({ · with module := s.current }) }) log := by
  induction imports generalizing s with
  | nil =>
    rw [List.map_nil, List.map_nil, List.append_nil]
    rfl
  | cons i imports ih =>
    rw [List.map_cons, List.map_cons, follow_cons]
    refine (ih { s with directives := s.directives ++ [{ i with module := s.current }] }).trans ?_
    rw [List.append_assoc]
    rfl

end Declaring

/-! ## Flattening -/

/-- An item that imports the leaf alone. -/
def UseLeaf.AloneIn (leaf : UseLeaf) (isPub : Bool) (item : Item) : Prop :=
  ∃ head tree, item = .useDecl head tree ∧ head.isPub = isPub ∧ leaf.Alone tree

/-- The same directive as another one, for another part of the text. -/
def Directive.LikeElsewhere (d d' : Directive) : Prop :=
  d = { d' with node := d.node, span := d.span }

/-- Items that each import one of the leaves make the imports of the leaves. -/
theorem UseLeaf.AloneIn.outline_eq {isPub : Bool} {leaves : List UseLeaf} {items : List Item}
    (h : List.Forall₂ (·.AloneIn isPub) leaves items) (module : ModuleId) :
    ∃ imports : List Import, Outline.ofItems items = imports.map .imports ∧
      List.Forall₂ Directive.LikeElsewhere
        ((leaves.map (·.toImport isPub)).map ({ · with module := module }))
        (imports.map ({ · with module := module })) := by
  induction h with
  | nil => exact ⟨[], rfl, .nil⟩
  | @cons leaf item leaves items first _ ih =>
    obtain ⟨head, tree, rfl, rfl, alone⟩ := first
    obtain ⟨node, span, made⟩ := alone.imports_eq head.isPub
    obtain ⟨imports, eq, like⟩ := ih
    refine ⟨{ leaf.toImport head.isPub with node := node, span := span } :: imports, ?_,
      .cons rfl like⟩
    rw [Outline.ofItems, Outline.ofItem, made, eq]
    rfl

/-- A `use` item of any shape leaves the first pass as it is but for one directive for each leaf
    of its tree, from left to right, in the current module and as visible as the item. The
    directive has the node, the span and the new name of the leaf; its segments are those of all
    that is on the way to the leaf; and it starts at the root just if something on the way is
    written with `::` and nothing comes in front of it. So do items that each have one of the
    leaves, with the whole path, but for nodes and spans. The directives of a program are those of
    all its leaves in the order of the text, each with the module that its item is in. -/
theorem use_trees_flatten :
    (∀ (head : ItemHead) (tree : UseTree) (s : DeclareState) (log : Log),
      ∃ directives, (Declaring.follow (Outline.ofItem (.useDecl head tree))).run s log =
          .ok ((), { s with directives := s.directives ++ directives }) log ∧
        List.Forall₂ (fun leaf d => leaf.Gives head.isPub s.current d) tree.leaves directives ∧
        ∀ items, List.Forall₂ (·.AloneIn head.isPub) tree.leaves items →
          ∃ directives', (Declaring.follow (Outline.ofItems items)).run s log =
              .ok ((), { s with directives := s.directives ++ directives' }) log ∧
            List.Forall₂ Directive.LikeElsewhere directives directives') ∧
    ∀ (program : Program) (log log' : Log) (built : DeclareState),
      declareProgram .empty .new program log = .ok built log' →
        List.Forall₂ (fun l d => ∃ module, built.defs.moduleOf l.1 = some module ∧
          l.2.2.Gives l.2.1 module d) program.useLeaves built.directives := by
  refine ⟨fun head tree s log => ?_, fun program log log' built declared => ?_⟩
  · refine ⟨_, Declaring.run_follow_imports (tree.imports head.isPub) s log, ?_,
      fun items alone => ?_⟩
    · rw [UseTree.imports_eq, List.map_map, List.forall₂_map_right_iff]
      exact List.forall₂_same.mpr fun leaf _ => leaf.gives_toImport head.isPub s.current
    · obtain ⟨imports, eq, like⟩ := UseLeaf.AloneIn.outline_eq alone s.current
      refine ⟨_, eq ▸ Declaring.run_follow_imports imports s log, ?_⟩
      rw [UseTree.imports_eq]
      exact like
  · have directs : Declaring.Directs _ (Declaring.atRoot program) built :=
      (declareProgram_outcome declared).directs (Declaring.standing_atRoot program)
    obtain ⟨added, eq, placed⟩ := directs.directives
    have all : built.directives = added := eq
    rw [program.importsAt_eq, List.forall₂_map_left_iff] at placed
    rw [all]
    refine placed.imp fun l d ⟨same, held⟩ => ⟨d.module, held, ?_⟩
    obtain ⟨i, module⟩ := d
    cases same
    exact l.2.2.gives_toImport l.2.1 module

/-- Groups without a lead, and a `::` behind another name: `{::a::{b as c, *}, d::{::e}}`. -/
def bundle : UseTree :=
  .group none
    [.group (some ⟨true, [⟨.name "a", ⟨19, 1⟩⟩]⟩)
      [.path ⟨3⟩ ⟨23, 6⟩ ⟨false, [⟨.name "b", ⟨23, 1⟩⟩]⟩ (some ⟨"c", ⟨28, 1⟩⟩),
      .glob ⟨4⟩ ⟨31, 1⟩ none],
    .group (some ⟨false, [⟨.name "d", ⟨35, 1⟩⟩]⟩)
      [.path ⟨5⟩ ⟨39, 3⟩ ⟨true, [⟨.name "e", ⟨41, 1⟩⟩]⟩ none]]

/-- The bundle in a module:

        mod m { pub use {::a::{b as c, *}, d::{::e}}; } -/
def bundled : Program :=
  ⟨⟨0⟩, ⟨0, 47⟩,
    [.mod ⟨⟨1⟩, false, ⟨0, 47⟩⟩ ⟨"m", ⟨4, 1⟩⟩ [.useDecl ⟨⟨2⟩, true, ⟨8, 37⟩⟩ bundle]]⟩

/-- The same, a leaf at a time: `pub use ::a::b as c;`, `pub use ::a::*;` and `pub use d::e;`. -/
def unbundled : List Item :=
  [.useDecl ⟨⟨2⟩, true, ⟨8, 20⟩⟩ (.path ⟨3⟩ ⟨16, 11⟩
    ⟨true, [⟨.name "a", ⟨19, 1⟩⟩, ⟨.name "b", ⟨23, 1⟩⟩]⟩ (some ⟨"c", ⟨28, 1⟩⟩)),
  .useDecl ⟨⟨4⟩, true, ⟨29, 15⟩⟩ (.glob ⟨5⟩ ⟨37, 6⟩ (some ⟨true, [⟨.name "a", ⟨19, 1⟩⟩]⟩)),
  .useDecl ⟨⟨6⟩, true, ⟨45, 13⟩⟩ (.path ⟨7⟩ ⟨53, 4⟩
    ⟨false, [⟨.name "d", ⟨35, 1⟩⟩, ⟨.name "e", ⟨41, 1⟩⟩]⟩ none)]

/-- What is behind `d` does not start at the root, although it is written with `::`. -/
theorem use_trees_flatten_bundled :
    (∃ built log', declareProgram .empty .new bundled .empty = .ok built log' ∧
      built.directives.map (fun d => (d.module.index, d.isPub, d.pathText)) =
        [(1, true, "::a::b"), (1, true, "::a::*"), (1, true, "d::e")] ∧
      List.Forall₂ (fun l d => ∃ module, built.defs.moduleOf l.1 = some module ∧
        l.2.2.Gives l.2.1 module d) bundled.useLeaves built.directives) ∧
    List.Forall₂ (fun leaf item => leaf.AloneIn true item) bundle.leaves unbundled ∧
    ∀ s log, ∃ directives directives',
      (Declaring.follow (Outline.ofItem (.useDecl ⟨⟨2⟩, true, ⟨8, 37⟩⟩ bundle))).run s log =
        .ok ((), { s with directives := s.directives ++ directives }) log ∧
      (Declaring.follow (Outline.ofItems unbundled)).run s log =
        .ok ((), { s with directives := s.directives ++ directives' }) log ∧
      List.Forall₂ Directive.LikeElsewhere directives directives' := by
  have alone : List.Forall₂ (fun leaf item => leaf.AloneIn true item) bundle.leaves unbundled :=
    .cons ⟨_, _, rfl, rfl, .path rfl (UseLeaf.spells_joined _)⟩
      (.cons ⟨_, _, rfl, rfl, .glob rfl (UseLeaf.spells_joined _)⟩
        (.cons ⟨_, _, rfl, rfl, .path rfl (UseLeaf.spells_joined _)⟩ .nil))
  refine ⟨?_, alone, fun s log => ?_⟩
  · have checked : ∃ built log', declareProgram .empty .new bundled .empty = .ok built log' ∧
        decide (built.directives.map (fun d => (d.module.index, d.isPub, d.pathText)) =
          [(1, true, "::a::b"), (1, true, "::a::*"), (1, true, "d::e")]) = true :=
      Logged.exists_of_check (by decide +kernel)
    obtain ⟨built, log', declared, same⟩ := checked
    exact ⟨built, log', declared, of_decide_eq_true same,
      use_trees_flatten.2 bundled .empty log' built declared⟩
  · obtain ⟨directives, run, -, separately⟩ :=
      use_trees_flatten.1 ⟨⟨2⟩, true, ⟨8, 37⟩⟩ bundle s log
    obtain ⟨directives', run', like⟩ := separately unbundled alone
    exact ⟨directives, directives', run, run', like⟩

end NameResolution

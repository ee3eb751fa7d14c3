import NameResolution.Proofs.Text.Rearranged
import NameResolution.Proofs.Declaration.Directives

/-! # Leaves of use trees

    A `use` tree is short for a list of paths, one for each of its leaves. What
    is on the way from its top down to a leaf is put together from the left, and
    it does not matter how it is bracketed: that is why the lead that is passed
    down through the groups comes to what the way of the leaf comes to. -/

namespace NameResolution

/-! ## Paths behind one another -/

namespace UsePath

theorem append_assoc (a b c : UsePath) : (a.append b).append c = a.append (b.append c) := by
  obtain ⟨global, segments⟩ := a
  obtain ⟨global', segments'⟩ := b
  unfold append
  cases global <;> cases segments <;> cases global' <;> cases segments' <;> simp

@[simp] theorem empty_append (path : UsePath) : empty.append path = path := rfl

@[simp] theorem append_empty (path : UsePath) : path.append empty = path := by
  obtain ⟨global, segments⟩ := path
  simp [append, empty]

/-- Several paths, one behind another. -/
def joined (way : List UsePath) : UsePath := way.foldr append empty

@[simp] theorem joined_nil : joined [] = empty := rfl

@[simp] theorem joined_cons (path : UsePath) (way : List UsePath) :
    joined (path :: way) = path.append (joined way) := rfl

theorem extend_append (lead : UsePath) (inner : Option UsePath) (path : UsePath) :
    (lead.extend inner).append path = lead.append ((joined inner.toList).append path) := by
  cases inner with
  | none => simp [extend]
  | some inner => simp [extend, append_assoc]

theorem joined_append (way way' : List UsePath) :
    joined (way ++ way') = (joined way).append (joined way') := by
  induction way with
  | nil => rfl
  | cons path way ih => rw [List.cons_append, joined_cons, joined_cons, ih, append_assoc]

theorem segments_joined (way : List UsePath) : (joined way).segments = way.flatMap (·.segments) := by
  induction way with
  | nil => rfl
  | cons path way ih => rw [joined_cons, List.flatMap_cons, append, ih]

/-- A path is taken to start at the root if some part of it is written so that has nothing in
    front. -/
theorem global_joined_iff (way : List UsePath) :
    (joined way).global = true ↔ ∃ before part after, way = before ++ part :: after ∧
      part.global = true ∧ ∀ earlier ∈ before, earlier.segments = [] := by
  induction way with
  | nil => simp [empty]
  | cons path way ih =>
    rw [joined_cons, append]
    simp only [Bool.or_eq_true, Bool.and_eq_true, List.isEmpty_iff, ih]
    constructor
    · rintro (absolute | ⟨bare, before, part, after, rfl, absolute, nothing⟩)
      · exact ⟨[], path, way, rfl, absolute, List.forall_mem_nil _⟩
      · exact ⟨path :: before, part, after, rfl, absolute,
          List.forall_mem_cons.mpr ⟨bare, nothing⟩⟩
    · rintro ⟨before, part, after, eq, absolute, nothing⟩
      cases before with
      | nil =>
        cases eq
        exact .inl absolute
      | cons first before =>
        cases eq
        obtain ⟨bare, nothing⟩ := List.forall_mem_cons.mp nothing
        exact .inr ⟨bare, before, part, after, rfl, absolute, nothing⟩

end UsePath

/-! ## Leaves -/

/-- A leaf of a `use` tree: a path or a glob. -/
structure UseLeaf where
  /-- The leads of the groups around it from the top of the tree on, as far as they are written,
      and then its own path -/
  way : List UsePath
  node : NodeId
  span : Span
  kind : ImportKind
  deriving DecidableEq, Repr

namespace UseLeaf

/-- A leaf inside a group. -/
def below (lead : Option UsePath) (leaf : UseLeaf) : UseLeaf :=
  { leaf with way := lead.toList ++ leaf.way }

/-- On the way to the leaf something is written with `::`, and nothing comes in front of it. -/
def Absolute (leaf : UseLeaf) : Prop :=
  ∃ before part after, leaf.way = before ++ part :: after ∧ part.global = true ∧
    ∀ earlier ∈ before, earlier.segments = []

/-- The path has all that is on the way to the leaf. -/
structure Spells (leaf : UseLeaf) (path : UsePath) : Prop where
  segments : path.segments = leaf.way.flatMap (·.segments)
  global : path.global = true ↔ leaf.Absolute

theorem spells_joined (leaf : UseLeaf) : leaf.Spells (.joined leaf.way) :=
  ⟨UsePath.segments_joined leaf.way, UsePath.global_joined_iff leaf.way⟩

/-- There is one such path. -/
theorem Spells.eq_joined {leaf : UseLeaf} {path : UsePath} (h : leaf.Spells path) :
    path = .joined leaf.way := by
  obtain ⟨global, segments⟩ := path
  have same := h.segments.trans leaf.spells_joined.segments.symm
  have global_iff := h.global.trans leaf.spells_joined.global.symm
  cases joined : UsePath.joined leaf.way
  rw [joined] at same global_iff
  rw [UsePath.mk.injEq]
  exact ⟨Bool.eq_iff_iff.mpr global_iff, same⟩

/-- The import of a leaf. -/
def toImport (isPub : Bool) (leaf : UseLeaf) : Import :=
  ⟨isPub, leaf.node, leaf.span, .joined leaf.way, leaf.kind⟩

/-- The directive is that of the leaf, in a `use` item of this visibility and this module. -/
structure Gives (leaf : UseLeaf) (isPub : Bool) (module : ModuleId) (directive : Directive) :
    Prop where
  module : directive.module = module
  isPub : directive.isPub = isPub
  node : directive.node = leaf.node
  span : directive.span = leaf.span
  kind : directive.kind = leaf.kind
  path : leaf.Spells directive.path

theorem gives_toImport (leaf : UseLeaf) (isPub : Bool) (module : ModuleId) :
    leaf.Gives isPub module { leaf.toImport isPub with module } :=
  ⟨rfl, rfl, rfl, rfl, rfl, leaf.spells_joined⟩

/-- A tree that is nothing but the leaf, with its whole path. Where nothing is on its way a glob
    may be without one. -/
inductive Alone (leaf : UseLeaf) : UseTree → Prop where
  | path {id : NodeId} {span : Span} {path : UsePath} {rebind : Option Ident}
      (kind : leaf.kind = .single rebind) (full : leaf.Spells path) :
      Alone leaf (.path id span path rebind)
  | glob {id : NodeId} {span : Span} {path : UsePath} (kind : leaf.kind = .glob)
      (full : leaf.Spells path) : Alone leaf (.glob id span (some path))
  | bare {id : NodeId} {span : Span} (kind : leaf.kind = .glob) (full : leaf.Spells .empty) :
      Alone leaf (.glob id span none)

end UseLeaf

namespace UseTree

mutual

/-- The leaves of a tree from left to right. -/
def leaves : UseTree → List UseLeaf
  | .path id span own rebind => [⟨[own], id, span, .single rebind⟩]
  | .group lead trees => (leavesAll trees).map (.below lead)
  | .glob id span lead => [⟨lead.toList, id, span, .glob⟩]

def leavesAll : List UseTree → List UseLeaf
  | [] => []
  | tree :: trees => leaves tree ++ leavesAll trees

end

/-- An import of a leaf, further down in a larger tree. -/
def behind (isPub : Bool) (lead : UsePath) (leaf : UseLeaf) : Import :=
  ⟨isPub, leaf.node, leaf.span, lead.append (.joined leaf.way), leaf.kind⟩

theorem behind_below (isPub : Bool) (lead : UsePath) (inner : Option UsePath) (leaf : UseLeaf) :
    behind isPub lead (leaf.below inner) = behind isPub (lead.extend inner) leaf := by
  rw [behind, behind, UseLeaf.below, UsePath.joined_append, UsePath.extend_append]

mutual

/-- Whatever lead is passed down, it stands in front of the ways of all leaves. -/
theorem importsBelow_eq (isPub : Bool) (lead : UsePath) :
    (tree : UseTree) → tree.importsBelow isPub lead = tree.leaves.map (behind isPub lead)
  | .path id span own rebind => by simp [importsBelow, leaves, behind]
  | .group inner trees => by
    rw [importsBelow, leaves, importsBelowAll_eq isPub (lead.extend inner) trees, List.map_map]
    exact List.map_congr_left fun leaf _ => (behind_below isPub lead inner leaf).symm
  | .glob id span inner => by
    have same := UsePath.extend_append lead inner .empty
    simp only [UsePath.append_empty] at same
    simp [importsBelow, leaves, behind, same]

theorem importsBelowAll_eq (isPub : Bool) (lead : UsePath) :
    (trees : List UseTree) →
      importsBelowAll isPub lead trees = (leavesAll trees).map (behind isPub lead)
  | [] => rfl
  | tree :: trees => by
    rw [importsBelowAll, leavesAll, List.map_append, importsBelow_eq isPub lead tree,
      importsBelowAll_eq isPub lead trees]

end

theorem imports_eq (isPub : Bool) (tree : UseTree) :
    tree.imports isPub = tree.leaves.map (·.toImport isPub) :=
  importsBelow_eq isPub .empty tree

end UseTree

/-- What is written for the leaf alone imports the same. -/
theorem UseLeaf.Alone.imports_eq {leaf : UseLeaf} {tree : UseTree} (h : leaf.Alone tree)
    (isPub : Bool) : ∃ node span,
      tree.imports isPub = [{ leaf.toImport isPub with node := node, span := span }] := by
  cases h with
  | @path id span path rebind kind full =>
    refine ⟨id, span, ?_⟩
    rw [full.eq_joined, toImport, kind]
    rfl
  | @glob id span path kind full =>
    refine ⟨id, span, ?_⟩
    rw [full.eq_joined, toImport, kind]
    rfl
  | @bare id span kind full =>
    refine ⟨id, span, ?_⟩
    rw [toImport, ← full.eq_joined, kind]
    rfl

end NameResolution

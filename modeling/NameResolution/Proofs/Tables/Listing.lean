import NameResolution.Module.Listing
import NameResolution.Proofs.Tables.Shape
import Mathlib.Data.List.Nodup

/-! # The outline shows everything once

    The outline goes from each module to its children, and from them on, with
    nothing of its own that ends it. That it ends, and meets each module once,
    is the shape of the tree: a child comes after the module that has it, and no
    two children have anything in common. What is below a module in the outline
    is what lies inside it. -/

namespace NameResolution

/-! ## Tables in the order of their keys -/

/-- All entries of a table, in the order of their keys. -/
structure Tabulates {κ α : Type} [Ord κ] (find? : κ → Option α) (entries : List (κ × α)) :
    Prop where
  sorted : entries.Pairwise fun a b => compare a.1 b.1 = .lt
  mem_iff : ∀ key a, (key, a) ∈ entries ↔ find? key = some a

theorem tabulates_toList {κ α : Type} [Ord κ] [Std.TransOrd κ] [Std.LawfulEqOrd κ]
    (map : Std.TreeMap κ α) : Tabulates (map[·]?) map.toList :=
  ⟨Std.TreeMap.ordered_keys_toList, fun _ _ => Std.TreeMap.mem_toList_iff_getElem?_eq_some⟩

theorem Tabulates.nodup_keys {κ α : Type} [Ord κ] [Std.TransOrd κ] [Std.LawfulEqOrd κ]
    {find? : κ → Option α} {entries : List (κ × α)} (h : Tabulates find? entries) :
    (entries.map Prod.fst).Nodup := by
  refine List.pairwise_map.mpr (h.sorted.imp fun {a b} lt same => ?_)
  simp [same] at lt

theorem OverloadSet.tabulates (set : OverloadSet) : Tabulates set.get? set.toList :=
  tabulates_toList set.members

namespace Module

variable {m : Module} {key : ChildKey} {child : ModuleId}

theorem tabulates_bindings (m : Module) (ns : Namespace) :
    Tabulates (m.find? ns) (m.bindings ns) :=
  tabulates_toList (m.names.get ns)

/-- The children in the order of a listing: those with a name by name, then the others by node. -/
theorem exists_children (m : Module) : ∃ named anonymous,
    m.children = named.map Prod.snd ++ anonymous.map Prod.snd ∧ Tabulates m.child? named ∧
      Tabulates m.anonymousChild? anonymous :=
  ⟨m.named.toList, m.anonymous.toList, by rw [children, values_eq_map_snd, values_eq_map_snd],
    tabulates_toList m.named, tabulates_toList m.anonymous⟩

/-- A module has each of its children under some key. -/
theorem mem_children_iff : child ∈ m.children ↔ ∃ key, m.childAt? key = some child := by
  obtain ⟨named, anonymous, children, byName, byNode⟩ := m.exists_children
  rw [children, List.mem_append, List.mem_map, List.mem_map]
  constructor
  · rintro (⟨⟨name, _⟩, mem, rfl⟩ | ⟨⟨node, _⟩, mem, rfl⟩)
    · exact ⟨.name name, (byName.mem_iff _ _).mp mem⟩
    · exact ⟨.node node, (byNode.mem_iff _ _).mp mem⟩
  · rintro ⟨name | node, held⟩
    · exact .inl ⟨(name, child), (byName.mem_iff _ _).mpr held, rfl⟩
    · exact .inr ⟨(node, child), (byNode.mem_iff _ _).mpr held, rfl⟩

/-- Where no child is held under two keys, none is listed twice. -/
theorem nodup_children (once : ∀ key key' child, m.childAt? key = some child →
    m.childAt? key' = some child → key = key') : m.children.Nodup := by
  obtain ⟨named, anonymous, children, byName, byNode⟩ := m.exists_children
  rw [children]
  refine List.nodup_append.mpr ⟨?_, ?_, ?_⟩
  · refine List.Nodup.map_on ?_ byName.nodup_keys.of_map
    rintro ⟨name, child⟩ mem ⟨name', _⟩ mem' rfl
    cases once (.name name) (.name name') child ((byName.mem_iff _ _).mp mem)
      ((byName.mem_iff _ _).mp mem')
    rfl
  · refine List.Nodup.map_on ?_ byNode.nodup_keys.of_map
    rintro ⟨node, child⟩ mem ⟨node', _⟩ mem' rfl
    cases once (.node node) (.node node') child ((byNode.mem_iff _ _).mp mem)
      ((byNode.mem_iff _ _).mp mem')
    rfl
  · rintro child mem _ mem' rfl
    obtain ⟨⟨name, _⟩, byNameMem, rfl⟩ := List.mem_map.mp mem
    obtain ⟨⟨node, _⟩, byNodeMem, rfl⟩ := List.mem_map.mp mem'
    cases once (.name name) (.node node) _ ((byName.mem_iff _ _).mp byNameMem)
      ((byNode.mem_iff _ _).mp byNodeMem)

end Module

namespace ModuleTree

variable {tree : ModuleTree}

/-! ## What lies inside a module -/

namespace Shaped

variable (shaped : tree.Shaped)

include shaped

theorem isWithin_of_holds {holder child : ModuleId} {key : ChildKey}
    (holds : tree.Holds holder key child) : tree.isWithin child holder = .ok true := by
  obtain ⟨m, found, inside⟩ := shaped.held holds
  obtain ⟨around, foundAround, -⟩ := holds
  obtain ⟨ms, -, way⟩ := shaped.ancestors foundAround
  obtain ⟨m', others, rfl, found'⟩ := way.head
  exact ((WayOut.up found inside way).isWithin_iff shaped).mpr
    ⟨m', List.mem_cons_of_mem _ (List.mem_cons_self ..), shaped.ids found'⟩

/-- What lies inside a module is the module itself, or lies inside a child of it. -/
theorem isWithin_cases {inner outer : ModuleId} (h : tree.isWithin inner outer = .ok true) :
    inner = outer ∨
      ∃ child key, tree.Holds outer key child ∧ tree.isWithin inner child = .ok true := by
  obtain ⟨ms, way, m, mem, rfl⟩ := shaped.wayOut_of_isWithin h
  induction way with
  | ends found _ =>
    cases List.mem_singleton.mp mem
    exact .inl (shaped.ids found).symm
  | @up id parent m' around found inside further ih =>
    rcases List.mem_cons.mp mem with rfl | mem
    · exact .inl (shaped.ids found).symm
    · have within : tree.isWithin parent m.id = .ok true :=
        (further.isWithin_iff shaped).mpr ⟨m, mem, rfl⟩
      obtain ⟨parent', key, inside', -, holds⟩ := shaped.inside found (shaped.ne_root found inside)
      rw [inside] at inside'
      cases inside'
      -- the module lies in its parent, which is the outer one or lies inside a child of that
      rcases ih mem within with rfl | ⟨child, key', holds', within'⟩
      · exact .inr ⟨id, key, holds, shaped.isWithin_refl (known_of_find? found)⟩
      · exact .inr ⟨child, key', holds',
          shaped.isWithin_trans (shaped.isWithin_of_holds holds) within'⟩

/-- Nothing lies inside two children of a module. -/
theorem siblings_apart {holder child child' inner : ModuleId} {key key' : ChildKey}
    (holds : tree.Holds holder key child) (holds' : tree.Holds holder key' child')
    (within : tree.isWithin inner child = .ok true)
    (within' : tree.isWithin inner child' = .ok true) : child = child' := by
  obtain ⟨c, found, inside⟩ := shaped.held holds
  obtain ⟨c', found', inside'⟩ := shaped.held holds'
  obtain ⟨around, foundAround, -⟩ := holds
  obtain ⟨further, -, wayOn⟩ := shaped.ancestors foundAround
  obtain ⟨ms, way, m, mem, isChild⟩ := shaped.wayOut_of_isWithin within
  obtain ⟨m', mem', isChild'⟩ := (way.isWithin_iff shaped).mp within'
  -- both ways go on as that of the holder, so both children are as far from the end
  obtain ⟨rest, wayOut, suffix⟩ := way.of_mem shaped mem
  obtain ⟨rest', wayOut', suffix'⟩ := way.of_mem shaped mem'
  rw [isChild] at wayOut
  rw [isChild'] at wayOut'
  cases wayOut.unique (.up found inside wayOn)
  cases wayOut'.unique (.up found' inside' wayOn)
  have same : c :: further = c' :: further :=
    (List.suffix_of_suffix_length_le suffix suffix' (Nat.le_refl _)).eq_of_length rfl
  cases same
  rw [← shaped.ids found, shaped.ids found']

theorem not_holds_self {id : ModuleId} {key : ChildKey} : ¬ tree.Holds id key id := by
  intro holds
  obtain ⟨m, found, inside⟩ := shaped.held holds
  exact Nat.lt_irrefl _ (shaped.valid.parents found inside)

theorem children_apart {id : ModuleId} {m : Module} (found : tree.find? id = some m) :
    m.children.Pairwise fun a b => ∀ id, tree.isWithin id a = .ok true →
      tree.isWithin id b ≠ .ok true := by
  have distinct : m.children.Nodup := Module.nodup_children fun key key' child held held' =>
    shaped.once ⟨m, found, held⟩ ⟨m, found, held'⟩
  refine distinct.imp_of_mem fun {a b} mem mem' ne inner within within' => ne ?_
  obtain ⟨key, held⟩ := Module.mem_children_iff.mp mem
  obtain ⟨key', held'⟩ := Module.mem_children_iff.mp mem'
  exact shaped.siblings_apart ⟨m, found, held⟩ ⟨m, found, held'⟩ within within'

end Shaped

/-! ## The order of a listing -/

/-- Modules at a depth, each followed by its children one deeper: all that is below the first of
    them comes before the second. -/
inductive Lists (tree : ModuleTree) : Nat → List ModuleId → List (Nat × Module) → Prop where
  | nil {depth : Nat} : Lists tree depth [] []
  | cons {depth : Nat} {id : ModuleId} {ids : List ModuleId} {m : Module}
      {below after : List (Nat × Module)} (found : tree.find? id = some m)
      (children : Lists tree (depth + 1) m.children below) (others : Lists tree depth ids after) :
      Lists tree depth (id :: ids) ((depth, m) :: (below ++ after))

namespace Lists

variable {depth : Nat} {ids : List ModuleId} {visits : List (Nat × Module)}

theorem unique {visits' : List (Nat × Module)} (h : tree.Lists depth ids visits)
    (h' : tree.Lists depth ids visits') : visits = visits' := by
  induction h generalizing visits' with
  | nil => cases h'; rfl
  | cons found _ _ ih ih' =>
    cases h' with
    | cons found' children others =>
      rw [found] at found'
      cases found'
      rw [ih children, ih' others]

/-- One listing after the other. -/
theorem append {ids' : List ModuleId} {visits' : List (Nat × Module)}
    (h : tree.Lists depth ids visits) (h' : tree.Lists depth ids' visits') :
    tree.Lists depth (ids ++ ids') (visits ++ visits') := by
  induction h with
  | nil => exact h'
  | cons found children _ _ ih =>
    rw [List.cons_append, List.cons_append, List.append_assoc]
    exact .cons found children (ih h')

variable (shaped : tree.Shaped)

include shaped

/-- What is listed is what lies inside one of the modules. -/
theorem mem_iff (h : tree.Lists depth ids visits) (m : Module) :
    m ∈ visits.map Prod.snd ↔
      tree.find? m.id = some m ∧ ∃ id ∈ ids, tree.isWithin m.id id = .ok true := by
  induction h with
  | nil => simp
  | @cons depth id ids m' below after found children others ih ih' =>
    rw [List.map_cons, List.map_append, List.mem_cons, List.mem_append, ih, ih']
    constructor
    · rintro (rfl | ⟨there, child, mem, within⟩ | ⟨there, other, mem, within⟩)
      · have isId := shaped.ids found
        refine ⟨isId.symm ▸ found, id, List.mem_cons_self .., ?_⟩
        rw [isId]
        exact shaped.isWithin_refl (known_of_find? found)
      · obtain ⟨key, held⟩ := Module.mem_children_iff.mp mem
        exact ⟨there, id, List.mem_cons_self ..,
          shaped.isWithin_trans within (shaped.isWithin_of_holds ⟨m', found, held⟩)⟩
      · exact ⟨there, other, List.mem_cons_of_mem _ mem, within⟩
    · rintro ⟨there, other, mem, within⟩
      rcases List.mem_cons.mp mem with rfl | mem
      · rcases shaped.isWithin_cases within with same | ⟨child, key, holds, within'⟩
        · rw [same, found] at there
          exact .inl (Option.some.inj there).symm
        · obtain ⟨m₀, found₀, held⟩ := holds
          rw [found] at found₀
          cases found₀
          exact .inr (.inl ⟨there, child, Module.mem_children_iff.mpr ⟨key, held⟩, within'⟩)
      · exact .inr (.inr ⟨there, other, mem, within⟩)

/-- The depth counts the modules around. -/
theorem depths (h : tree.Lists depth ids visits)
    (here : ∀ id ∈ ids, ∃ ms, tree.WayOut id ms ∧ ms.length = depth + 1) :
    ∀ p ∈ visits, ∃ ms, tree.WayOut p.2.id ms ∧ ms.length = p.1 + 1 := by
  induction h with
  | nil => exact List.forall_mem_nil _
  | @cons depth id ids m below after found children others ih ih' =>
    obtain ⟨way, others⟩ := List.forall_mem_cons.mp here
    refine List.forall_mem_cons.mpr ⟨?_, List.forall_mem_append.mpr ⟨ih ?_, ih' others⟩⟩
    · rw [shaped.ids found]
      exact way
    · intro child mem
      obtain ⟨key, held⟩ := Module.mem_children_iff.mp mem
      obtain ⟨c, found', inside⟩ := shaped.held ⟨m, found, held⟩
      obtain ⟨ms, way, length⟩ := way
      exact ⟨c :: ms, .up found' inside way, by rw [List.length_cons, length]⟩

/-- Among modules that have nothing in common, none comes before one that it lies inside. -/
theorem outer_first (h : tree.Lists depth ids visits)
    (apart : ids.Pairwise fun a b => ∀ id, tree.isWithin id a = .ok true →
      tree.isWithin id b ≠ .ok true) :
    visits.Pairwise fun p q => tree.isWithin p.2.id q.2.id ≠ .ok true := by
  induction h with
  | nil => exact .nil
  | @cons depth id ids m below after found children others ih ih' =>
    obtain ⟨first, rest⟩ := List.pairwise_cons.mp apart
    have isId : m.id = id := shaped.ids found
    have inChild : ∀ q ∈ below, ∃ child key, tree.Holds id key child ∧
        tree.isWithin q.2.id child = .ok true := by
      intro q mem
      obtain ⟨-, child, mem, within⟩ :=
        (children.mem_iff shaped q.2).mp (List.mem_map_of_mem mem)
      obtain ⟨key, held⟩ := Module.mem_children_iff.mp mem
      exact ⟨child, key, ⟨m, found, held⟩, within⟩
    have inOther : ∀ q ∈ after, ∃ other ∈ ids, tree.isWithin q.2.id other = .ok true :=
      fun q mem => ((others.mem_iff shaped q.2).mp (List.mem_map_of_mem mem)).2
    refine List.pairwise_cons.mpr ⟨List.forall_mem_append.mpr ⟨?_, ?_⟩,
      List.pairwise_append.mpr ⟨ih ?_, ih' rest, ?_⟩⟩
    · intro q mem within
      obtain ⟨child, key, holds, within'⟩ := inChild q mem
      have around : tree.isWithin id child = .ok true := by
        rw [← isId]
        exact shaped.isWithin_trans within within'
      obtain rfl := shaped.isWithin_antisymm around (shaped.isWithin_of_holds holds)
      exact shaped.not_holds_self holds
    · intro q mem within
      obtain ⟨other, mem, within'⟩ := inOther q mem
      refine first other mem id (shaped.isWithin_refl (known_of_find? found)) ?_
      rw [← isId]
      exact shaped.isWithin_trans within within'
    · exact shaped.children_apart found
    · intro p mem q mem' within
      obtain ⟨child, key, holds, within'⟩ := inChild p mem
      obtain ⟨other, mem', within''⟩ := inOther q mem'
      exact first other mem' p.2.id
        (shaped.isWithin_trans within' (shaped.isWithin_of_holds holds))
        (shaped.isWithin_trans within within'')

end Lists

theorem exists_mapM {α β : Type} {f : α → Except Fault β} {rel : α → β → Prop} {xs : List α}
    (h : ∀ x ∈ xs, ∃ y, f x = .ok y ∧ rel x y) :
    ∃ ys, xs.mapM f = .ok ys ∧ List.Forall₂ rel xs ys := by
  induction xs with
  | nil => exact ⟨[], rfl, .nil⟩
  | cons x xs ih =>
    obtain ⟨⟨y, first, related⟩, others⟩ := List.forall_mem_cons.mp h
    obtain ⟨ys, rest, all⟩ := ih others
    refine ⟨y :: ys, ?_, .cons related all⟩
    rw [List.mapM_cons, first, rest]
    rfl

/-- Modules that are listed each are listed one after the other. -/
theorem lists_flatten {depth : Nat} {ids : List ModuleId} {blocks : List (List (Nat × Module))}
    (each : List.Forall₂ (fun id => tree.Lists depth [id]) ids blocks) :
    tree.Lists depth ids blocks.flatten := by
  induction each with
  | nil => exact .nil
  | cons first _ ih => exact first.append ih

/-- The steps that are allowed are enough for all that is below a module. -/
theorem Shaped.exists_preorder (shaped : tree.Shaped) (steps depth : Nat) {id : ModuleId}
    (known : tree.Known id) (enough : tree.size ≤ steps + id.index) :
    ∃ visits, tree.preorder steps depth id = .ok visits ∧ tree.Lists depth [id] visits := by
  -- ids get greater on the way, and none is as great as the size
  induction steps generalizing depth id with
  | zero =>
    have : id.index < tree.size := known
    omega
  | succ steps ih =>
    obtain ⟨m, found⟩ := known.find?
    have each : ∀ child ∈ m.children, ∃ visits,
        tree.preorder steps (depth + 1) child = .ok visits ∧
          tree.Lists (depth + 1) [child] visits := by
      intro child mem
      obtain ⟨key, held⟩ := Module.mem_children_iff.mp mem
      obtain ⟨c, found', inside⟩ := shaped.held ⟨m, found, held⟩
      have later : id.index < child.index := shaped.valid.parents found' inside
      exact ih (depth + 1) (known_of_find? found') (by omega)
    obtain ⟨blocks, runs, listed⟩ := exists_mapM each
    refine ⟨(depth, m) :: (blocks.flatten ++ []), ?_, .cons found (lists_flatten listed) .nil⟩
    rw [preorder, get_of_find? found, List.append_nil]
    show (m.children.mapM (tree.preorder steps (depth + 1)) >>= _) = _
    rw [runs]
    rfl

theorem Shaped.mem_toList (shaped : tree.Shaped) (m : Module) :
    m ∈ tree.toList ↔ tree.find? m.id = some m := by
  rw [toList, List.mem_iff_getElem?]
  constructor
  · rintro ⟨index, there⟩
    have found : tree.find? ⟨index⟩ = some m := by rwa [Array.getElem?_toList] at there
    rwa [shaped.ids found]
  · intro found
    exact ⟨m.id.index, by rwa [Array.getElem?_toList]⟩

theorem Shaped.nodup_toList (shaped : tree.Shaped) : tree.toList.Nodup := by
  refine List.pairwise_iff_getElem.mpr fun i j hi hj lt same => ?_
  have isId (index : Nat) (h : index < tree.toList.length) : (tree.toList[index]).id = ⟨index⟩ := by
    refine shaped.ids (?_ : tree.find? ⟨index⟩ = some _)
    rw [find?, ← Array.getElem?_toList]
    exact List.getElem?_eq_getElem h
  have isIds := isId i hi
  rw [same, isId j hj] at isIds
  cases isIds
  exact Nat.lt_irrefl _ lt

/-- The outline goes through all modules, outer ones first, each at the depth that the modules
    around it make. -/
theorem Shaped.exists_visits (shaped : tree.Shaped) :
    ∃ visits, tree.visits = .ok visits ∧ tree.Lists 0 [.root] visits ∧
      (visits.map Prod.snd).Perm tree.toList ∧
      visits.Pairwise (fun p q => tree.isWithin p.2.id q.2.id = .ok false) ∧
      ∀ p ∈ visits, tree.find? p.2.id = some p.2 ∧
        ∃ ms, tree.ancestors p.2.id = .ok ms ∧ ms.length = p.1 + 1 := by
  obtain ⟨root, found, -, noParent⟩ := shaped.root
  obtain ⟨visits, run, listed⟩ := shaped.exists_preorder tree.size 0 (known_of_find? found)
    (Nat.le_add_right _ _)
  have all (m : Module) : m ∈ visits.map Prod.snd ↔ tree.find? m.id = some m := by
    rw [listed.mem_iff shaped]
    refine and_iff_left_of_imp fun there => ?_
    exact ⟨.root, List.mem_singleton_self _, shaped.isWithin_root (known_of_find? there)⟩
  have there {p : Nat × Module} (mem : p ∈ visits) : tree.find? p.2.id = some p.2 :=
    (all p.2).mp (List.mem_map_of_mem mem)
  have outward := listed.outer_first shaped (List.pairwise_singleton _ _)
  refine ⟨visits, run, listed, ?_, ?_, fun p mem => ⟨there mem, ?_⟩⟩
  · refine (List.perm_ext_iff_of_nodup ?_ shaped.nodup_toList).mpr fun m => ?_
    · -- a module lies within itself, so it is not met again
      refine List.pairwise_map.mpr (outward.imp_of_mem fun {p q} mem _ apart same => apart ?_)
      rw [← same]
      exact shaped.isWithin_refl (known_of_find? (there mem))
    · rw [all, shaped.mem_toList]
  · refine outward.imp_of_mem fun {p q} mem _ apart => ?_
    have decided : Yields False (tree.isWithin p.2.id q.2.id) fun _ => True :=
      shaped.valid.isWithin (known_of_find? (there mem))
    obtain ⟨within, inside, -⟩ := Yields.false_iff.mp decided
    rw [inside] at apart ⊢
    cases within with
    | false => rfl
    | true => exact absurd rfl apart
  · have atRoot : ∀ id ∈ [ModuleId.root], ∃ ms, tree.WayOut id ms ∧ ms.length = 0 + 1 :=
      List.forall_mem_singleton.mpr ⟨[root], .ends found noParent, rfl⟩
    obtain ⟨ms, way, length⟩ := listed.depths shaped atRoot p mem
    obtain ⟨ms', ancestors, way'⟩ := shaped.ancestors (there mem)
    cases way.unique way'
    exact ⟨ms, ancestors, length⟩

/-! ## The names of a module -/

/-- What is listed of a bound name: the name itself, or a function with its suffix. -/
structure Entry where
  name : String
  suffix : Option String
  /-- Made by a `use` declaration -/
  imported : Bool
  deriving DecidableEq

namespace Entry

def text (e : Entry) : String :=
  (if e.imported then "use " else "") ++ e.name ++ e.suffix.getD ""

/-- By name, and functions of one name by suffix. -/
def Before (e e' : Entry) : Prop :=
  compare e.name e'.name = .lt ∨ e.name = e'.name ∧
    ∃ suffix suffix', e.suffix = some suffix ∧ e'.suffix = some suffix' ∧
      compare suffix suffix' = .lt

end Entry

/-- A module binds what an entry lists. -/
inductive Bears (defs : Definitions) (m : Module) (ns : Namespace) : Entry → Prop where
  | plain {name : String} {id : DefId} (bound : m.find? ns name = some (.definition id)) :
      Bears defs m ns ⟨name, none, false⟩
  | imported {name : String} {id : DefId} (bound : m.find? ns name = some (.imported id)) :
      Bears defs m ns ⟨name, none, true⟩
  | function {name suffix : String} {set : OverloadId} {members : OverloadSet} {id : DefId}
      (bound : m.find? ns name = some (.overloads set))
      (held : defs.overloadSet set = .ok members) (member : members.get? suffix = some id) :
      Bears defs m ns ⟨name, some suffix, (defs.target? id).isSome⟩

/-- All that a module binds in a namespace, once each and in order. -/
structure Enumerates (defs : Definitions) (m : Module) (ns : Namespace) (entries : List Entry) :
    Prop where
  sorted : entries.Pairwise Entry.Before
  mem_iff : ∀ e, e ∈ entries ↔ Bears defs m ns e

/-- The entries of one bound name. -/
def entriesOf (defs : Definitions) (name : String) : Binding → List Entry
  | .definition _ => [⟨name, none, false⟩]
  | .imported _ => [⟨name, none, true⟩]
  | .overloads set =>
    match defs.overloadSet set with
    | .ok members => members.toList.map fun (suffix, id) =>
      ⟨name, some suffix, (defs.target? id).isSome⟩
    | .error _ => []

theorem name_of_mem_entriesOf {defs : Definitions} {name : String} {binding : Binding} {e : Entry}
    (mem : e ∈ entriesOf defs name binding) : e.name = name := by
  cases binding with
  | definition | imported =>
    cases List.mem_singleton.mp mem
    rfl
  | overloads set =>
    simp only [entriesOf] at mem
    split at mem
    · obtain ⟨_, -, rfl⟩ := List.mem_map.mp mem
      rfl
    · cases mem

theorem pairwise_entriesOf (defs : Definitions) (name : String) (binding : Binding) :
    (entriesOf defs name binding).Pairwise Entry.Before := by
  cases binding with
  | definition | imported => exact List.pairwise_singleton _ _
  | overloads set =>
    simp only [entriesOf]
    split
    · next members _ =>
      refine List.pairwise_map.mpr (members.tabulates.sorted.imp fun lt => ?_)
      exact .inr ⟨rfl, _, _, rfl, rfl, lt⟩
    · exact .nil

theorem mem_entriesOf_iff {defs : Definitions} {m : Module} {ns : Namespace} {name : String}
    {binding : Binding} (bound : m.find? ns name = some binding) (e : Entry) :
    e ∈ entriesOf defs name binding ↔ e.name = name ∧ Bears defs m ns e := by
  constructor
  · intro mem
    refine ⟨name_of_mem_entriesOf mem, ?_⟩
    cases binding with
    | definition id =>
      cases List.mem_singleton.mp mem
      exact .plain bound
    | imported id =>
      cases List.mem_singleton.mp mem
      exact .imported bound
    | overloads set =>
      simp only [entriesOf] at mem
      split at mem
      · next members held =>
        obtain ⟨⟨suffix, id⟩, member, rfl⟩ := List.mem_map.mp mem
        exact .function bound held ((members.tabulates.mem_iff _ _).mp member)
      · cases mem
  · rintro ⟨rfl, bears⟩
    cases bears with
    | plain bound' | imported bound' =>
      rw [bound] at bound'
      cases bound'
      exact List.mem_singleton_self _
    | @function _ suffix set members id bound' held member =>
      rw [bound] at bound'
      cases bound'
      simp only [entriesOf, held]
      exact List.mem_map.mpr ⟨(suffix, id), (members.tabulates.mem_iff _ _).mpr member, rfl⟩

/-- The entries of one namespace. -/
def entriesIn (defs : Definitions) (m : Module) (ns : Namespace) : List Entry :=
  (m.bindings ns).flatMap fun p => entriesOf defs p.1 p.2

theorem enumerates_entriesIn (defs : Definitions) (m : Module) (ns : Namespace) :
    Enumerates defs m ns (entriesIn defs m ns) where
  sorted := by
    refine List.pairwise_flatMap.mpr ⟨fun p _ => pairwise_entriesOf defs p.1 p.2, ?_⟩
    refine (m.tabulates_bindings ns).sorted.imp fun lt e mem e' mem' => .inl ?_
    rw [name_of_mem_entriesOf mem, name_of_mem_entriesOf mem']
    exact lt
  mem_iff e := by
    rw [entriesIn, List.mem_flatMap]
    constructor
    · rintro ⟨⟨name, binding⟩, mem, listed⟩
      exact ((mem_entriesOf_iff (((m.tabulates_bindings ns).mem_iff _ _).mp mem) e).mp listed).2
    · intro bears
      have isBound : ∃ binding, m.find? ns e.name = some binding := by
        cases bears with
        | plain bound | imported bound | function bound _ _ => exact ⟨_, bound⟩
      obtain ⟨binding, bound⟩ := isBound
      exact ⟨(e.name, binding), ((m.tabulates_bindings ns).mem_iff _ _).mpr bound,
        (mem_entriesOf_iff bound e).mpr ⟨rfl, bears⟩⟩

/-! ## The text -/

/-- The definitions that own modules, and the overload sets that are bound in them, are there. The
    owner of the root is not asked for. -/
structure Listable (defs : Definitions) (tree : ModuleTree) : Prop where
  owners : ∀ {id : ModuleId} {m : Module} {owner : DefId}, tree.find? id = some m →
    m.owner = .definition owner → owner ≠ .root → defs.Known owner
  sets : ∀ {id : ModuleId} {m : Module} {ns : Namespace} {name : String} {set : OverloadId},
    tree.find? id = some m → m.find? ns name = some (.overloads set) →
      ∃ members, defs.overloadSet set = .ok members

/-- The lines of a module: its own, and one deeper a line for each namespace in which it binds
    something. -/
structure Describes (defs : Definitions) (p : Nat × Module) (lines : List (Nat × String)) :
    Prop where
  exists_lines : ∃ (top : String) (entries : Namespace → List Entry),
    header defs p.2 = .ok top ∧ (∀ ns, Enumerates defs p.2 ns (entries ns)) ∧
      lines = (p.1, top) :: (Namespace.all.filter (entries · ≠ [])).map fun ns =>
        (p.1 + 1, ns.text ++ ": " ++ ", ".intercalate ((entries ns).map Entry.text))

theorem entries_eq {defs : Definitions} {name : String} {binding : Binding}
    (there : ∀ set, binding = .overloads set → ∃ members, defs.overloadSet set = .ok members) :
    entries defs name binding = .ok ((entriesOf defs name binding).map Entry.text) := by
  cases binding with
  | definition id => simp [entries, entriesOf, Entry.text]; rfl
  | imported id => simp [entries, entriesOf, Entry.text]; rfl
  | overloads set =>
    obtain ⟨members, held⟩ := there set rfl
    simp only [entries, entriesOf, held]
    refine congrArg Except.ok ?_
    rw [List.map_map]
    refine List.map_congr_left ?_
    rintro ⟨suffix, id⟩ -
    simp only [Function.comp_apply, Entry.text]
    split
    · simp only [Option.getD_some]
      rfl
    · simp

theorem namesLine_eq {defs : Definitions} {m : Module} {ns : Namespace}
    (there : ∀ name set, m.find? ns name = some (.overloads set) →
      ∃ members, defs.overloadSet set = .ok members) :
    namesLine defs m ns = .ok (if entriesIn defs m ns = [] then []
      else [ns.text ++ ": " ++ ", ".intercalate ((entriesIn defs m ns).map Entry.text)]) := by
  have each : ∀ p ∈ m.bindings ns, entries defs p.1 p.2 =
      .ok ((entriesOf defs p.1 p.2).map Entry.text) := by
    rintro ⟨name, binding⟩ mem
    refine entries_eq ?_
    rintro set rfl
    exact there name set (((m.tabulates_bindings ns).mem_iff _ _).mp mem)
  have texts : ((m.bindings ns).map fun p => (entriesOf defs p.1 p.2).map Entry.text).flatten =
      (entriesIn defs m ns).map Entry.text := by
    rw [entriesIn, List.map_flatMap, List.flatMap_def]
  rw [namesLine, mapM_of_ok each]
  show Except.ok (if List.isEmpty (List.flatten _) then _ else _) = _
  rw [texts]
  cases entriesIn defs m ns <;> rfl

namespace Listable

variable {defs : Definitions} (listable : Listable defs tree) {id : ModuleId} {m : Module}

include listable

theorem exists_header (found : tree.find? id = some m) : ∃ top, header defs m = .ok top := by
  unfold header
  split
  · next owner owned =>
    split
    · exact ⟨"root", rfl⟩
    · next notRoot =>
      obtain ⟨d, got⟩ := (listable.owners found owned notRoot).find?
      rw [Definitions.get_of_find? got]
      exact ⟨_, rfl⟩
  · exact ⟨_, rfl⟩

/-- The lines of a module are there, and they describe it. -/
theorem exists_lines (depth : Nat) (found : tree.find? id = some m) :
    ∃ lines, moduleLines defs depth m = .ok lines ∧ Describes defs (depth, m) lines := by
  obtain ⟨top, headed⟩ := listable.exists_header found
  have named : Namespace.all.mapM (namesLine defs m) = .ok (Namespace.all.map fun ns =>
      if entriesIn defs m ns = [] then []
      else [ns.text ++ ": " ++ ", ".intercalate ((entriesIn defs m ns).map Entry.text)]) :=
    mapM_of_ok fun ns _ => namesLine_eq fun name set bound => listable.sets found bound
  refine ⟨_, ?_, ⟨top, entriesIn defs m, headed, enumerates_entriesIn defs m, rfl⟩⟩
  -- a namespace in which nothing is bound adds no line
  have shown (nss : List Namespace) : (nss.map fun ns => if entriesIn defs m ns = [] then []
      else [ns.text ++ ": " ++ ", ".intercalate ((entriesIn defs m ns).map Entry.text)]).flatten =
      (nss.filter (entriesIn defs m · ≠ [])).map fun ns =>
        ns.text ++ ": " ++ ", ".intercalate ((entriesIn defs m ns).map Entry.text) := by
    induction nss with
    | nil => rfl
    | cons ns nss ih => by_cases empty : entriesIn defs m ns = [] <;> simp_all
  rw [moduleLines, headed, named]
  show Except.ok ((depth, top) :: (List.flatten _).map _) = _
  rw [shown, List.map_map]
  rfl

end Listable

/-- Over any tree that operations have made of a root alone, and any definitions that it is
    consistent with, the outline is there. It goes from each module to its children, those with a
    name by name and then the others by node, and so through every module of the tree once, never
    to one behind something that lies inside it. Each is shown as deep as there are modules around
    it, with two blanks for each, and below it all that it binds, once each and in order. -/
theorem print_shows_all {defs : Definitions} (reached : Operations .new tree)
    (listable : Listable defs tree) : ∃ visits blocks,
      tree.visits = .ok visits ∧
      (∀ visits', tree.Lists 0 [.root] visits' ↔ visits' = visits) ∧
      (∀ m : Module, ∃ named anonymous,
        m.children = named.map Prod.snd ++ anonymous.map Prod.snd ∧
          Tabulates m.child? named ∧ Tabulates m.anonymousChild? anonymous) ∧
      (visits.map Prod.snd).Perm tree.toList ∧
      visits.Pairwise (fun p q => tree.isWithin p.2.id q.2.id = .ok false) ∧
      (∀ p ∈ visits, ∃ ms, tree.ancestors p.2.id = .ok ms ∧ ms.length = p.1 + 1) ∧
      List.Forall₂ (Describes defs) visits blocks ∧
      tree.print defs = .ok (String.join (blocks.flatten.map fun line =>
        String.ofList (List.replicate (2 * line.1) ' ') ++ line.2 ++ "\n")) := by
  have shaped : tree.Shaped := Shaped.new.operations reached
  obtain ⟨visits, run, listed, once, outward, places⟩ := shaped.exists_visits
  obtain ⟨blocks, described, all⟩ : ∃ blocks,
      visits.mapM (fun p => moduleLines defs p.1 p.2) = .ok blocks ∧
        List.Forall₂ (Describes defs) visits blocks :=
    exists_mapM fun p mem => listable.exists_lines p.1 (places p mem).1
  refine ⟨visits, blocks, run, fun visits' => ⟨fun listed' => listed'.unique listed, ?_⟩,
    Module.exists_children, once, outward, fun p mem => (places p mem).2, all, ?_⟩
  · rintro rfl
    exact listed
  · rw [print, run]
    show (visits.mapM (fun p => moduleLines defs p.1 p.2) >>= _) = _
    rw [described]
    rfl

/-- A function with a block in it, and its set in the root. -/
def outlined : ModuleTree :=
  let root : Module := .new .root (.definition .root) none .root
  let f : Module := .new ⟨1⟩ (.definition ⟨1⟩) (some .root) ⟨1⟩
  let block : Module := .new ⟨2⟩ (.block ⟨7⟩) (some ⟨1⟩) ⟨1⟩
  ⟨#[(root.adopt ⟨1⟩ (.name "f")).bind .value "f" (.overloads ⟨0⟩), f.adopt ⟨2⟩ (.node ⟨7⟩),
    block]⟩

/-- The definitions to go with it. -/
def outlinedDefs : Definitions :=
  ((Definitions.empty.push true ⟨0⟩ .mod ⟨"root", ⟨0, 0⟩⟩ none).push false ⟨1⟩ .func ⟨"f", ⟨1, 1⟩⟩
    none).newOverloads.2.insertOverload ⟨0⟩ "(of:)" ⟨1⟩

theorem print_shows_all_outlined :
    Operations .new outlined ∧ Listable outlinedDefs outlined ∧
      outlined.print outlinedDefs =
        .ok "root\n  value: f(of:)\n  func f #1\n    block node#7\n" ∧
      ∃ visits, outlined.visits = .ok visits ∧ (visits.map Prod.snd).Perm outlined.toList ∧
        ∃ blocks, List.Forall₂ (Describes outlinedDefs) visits blocks := by
  have reached : Operations .new outlined :=
    ((Relation.ReflTransGen.single
      (@Operation.addNamed _ _ .root ⟨1⟩ "f" (.definition ⟨1⟩) rfl)).tail
      (@Operation.addAnonymous _ _ ⟨1⟩ ⟨2⟩ ⟨7⟩ (.block ⟨7⟩) rfl)).tail
      (@Operation.bind _ _ .root .value "f" (.overloads ⟨0⟩) rfl)
  have listable : Listable outlinedDefs outlined := by
    -- only the root binds a name, and that is bound to the one set there is
    refine ⟨fun {id m owner} found owned notRoot => ?_, fun {id m ns name set} found bound => ?_⟩
    · obtain ⟨_ | _ | _ | index⟩ := id
      · cases found; cases owned; exact absurd rfl notRoot
      · cases found; cases owned; decide
      · cases found; cases owned
      · cases found
    · obtain ⟨_ | _ | _ | index⟩ := id
      · cases found
        have mem := ((Module.tabulates_bindings _ ns).mem_iff _ _).mpr bound
        cases ns
        · cases List.mem_singleton.mp mem
          exact ⟨_, rfl⟩
        · cases mem
        · cases mem
      · cases found; cases ns <;> cases bound
      · cases found; cases ns <;> cases bound
      · cases found
  obtain ⟨visits, blocks, run, -, -, once, -, -, described, -⟩ := print_shows_all reached listable
  exact ⟨reached, listable, by decide +kernel, visits, run, once, blocks, described⟩

end ModuleTree

end NameResolution

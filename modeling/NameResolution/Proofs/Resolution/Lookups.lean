import NameResolution.Proofs.Resolution.Scopes

/-! # Lookups through the modules around

    The modules of the scopes around a point of a program are the nearest one and
    all its ancestors, up to the root. So what a name is found to be follows from
    the variables of the scopes and from those modules, and to search the ancestors
    once more finds nothing. -/

namespace NameResolution

variable {tree : ModuleTree} {tables : Tables} {ns : Namespace} {name : String}

/-! ## The way to the root -/

namespace Chained

variable {id : ModuleId} {outer : List ModuleId}

/-- A parent has a smaller id, so there are no more modules around one than its id says. -/
theorem length_le (valid : tree.Valid) (chained : Chained tree (id :: outer)) :
    outer.length ≤ id.index := by
  generalize listed : id :: outer = ids at chained
  induction chained generalizing id outer with
  | root =>
    cases listed
    exact Nat.zero_le _
  | inside found inside rest ih =>
    cases listed
    exact Nat.lt_of_le_of_lt (ih rfl) (valid.parents found inside)

/-- The way outward goes through the chain, module by module. -/
theorem map_outward (valid : tree.Valid) (chained : Chained tree (id :: outer)) {m : Module}
    (found : tree.find? id = some m) {steps : Nat} (enough : outer.length ≤ steps) :
    (tree.outward steps m).map (·.id) = id :: outer := by
  induction steps generalizing id outer m with
  | zero =>
    rw [List.length_eq_zero_iff.mp (Nat.le_zero.mp enough), ModuleTree.outward, List.map_singleton,
      valid.ids found]
  | succ steps ih =>
    rw [ModuleTree.outward, List.map_cons, valid.ids found]
    cases chained with
    | root found' outermost =>
      rw [found] at found'
      cases found'
      rw [outermost]
      rfl
    | @inside _ parent _ _ found' inside rest =>
      rw [found] at found'
      cases found'
      obtain ⟨p, parentFound⟩ := (rest.known parent (List.mem_cons_self ..)).find?
      rw [inside, Option.bind_some, parentFound]
      exact congrArg (id :: ·) (ih rest parentFound (Nat.le_of_succ_le_succ enough))

/-- The last module on the way is the root. -/
theorem getLast? {ids : List ModuleId} (chained : Chained tree ids) :
    ids.getLast? = some .root := by
  induction chained with
  | root => rfl
  | inside _ _ _ ih => exact ih

end Chained

/-- The modules of the scopes are the ancestors of the nearest one. -/
theorem Stands.exists_ancestors {stack : ScopeStack} {around : Regions}
    (stands : Stands tables stack around) (valid : tables.tree.Valid) :
    ∃ ms, tables.tree.ancestors stack.nearestModule = .ok ms ∧
      (∀ m ∈ ms, tables.tree.find? m.id = some m) ∧
      stack.toList.filterMap (·.module) = ms.map (·.id) ∧
      (ms.map (·.id)).getLast? = some .root := by
  obtain ⟨outer, chained, listed⟩ := stands.exists_nearest
  obtain ⟨m, found⟩ := stands.known_nearest.find?
  obtain ⟨_, result, rfl, there⟩ := Yields.false_iff.mp (valid.ancestors found)
  -- there are enough steps for all of them
  have small := Nat.le_trans (chained.length_le valid) (Nat.le_of_lt stands.known_nearest)
  have same := chained.map_outward valid found small
  refine ⟨_, result, there, listed.trans same.symm, ?_⟩
  rw [same]
  exact chained.getLast?

/-! ## Variables and items -/

/-- From inside some scopes a variable is in sight, and no item of its name is nearer. -/
inductive Tables.Sees (tables : Tables) (ns : Namespace) (name : String) :
    List Scope → NodeId → Prop where
  | here {scope : Scope} {outer : List Scope} {node : NodeId}
      (bound : scope.find? ns name = some node) : Sees tables ns name (scope :: outer) node
  | outward {scope : Scope} {outer : List Scope} {node : NodeId}
      (free : scope.find? ns name = none) (passable : scope.kind.hidesOuterLocals = false)
      (noItem : ∀ module, scope.module = some module →
        tables.tree.bindingAt? module ns name = none)
      (rest : Sees tables ns name outer node) : Sees tables ns name (scope :: outer) node

/-- What a name stands for in the first of some modules that binds it. -/
def Tables.firstItem (tables : Tables) (ns : Namespace) (name : String)
    (ids : List ModuleId) : Option (ModuleId × Binding) :=
  ids.findSome? fun id => (tables.tree.bindingAt? id ns name).map (id, ·)

/-- The search through the scopes finds a variable if one is in sight, and else the first item. -/
structure Tables.Finds (tables : Tables) (ns : Namespace) (name : String) (hidden : Bool)
    (scopes : List Scope) (found : Option Found) : Prop where
  variable_iff : ∀ node, found = some (.localVar node) ↔
    hidden = false ∧ tables.Sees ns name scopes node
  item_iff : ∀ module binding, found = some (.item module binding) ↔
    tables.firstItem ns name (scopes.filterMap (·.module)) = some (module, binding) ∧
      ∀ node, hidden = false → ¬ tables.Sees ns name scopes node

namespace Tables.Finds

variable {hidden : Bool} {scope : Scope} {outer : List Scope}

theorem of_variable {node : NodeId} (bound : scope.find? ns name = some node) :
    tables.Finds ns name false (scope :: outer) (some (.localVar node)) where
  variable_iff other := by
    constructor
    · rintro ⟨⟩
      exact ⟨rfl, .here bound⟩
    · rintro ⟨-, sees⟩
      cases sees with
      | here bound' =>
        rw [bound] at bound'
        cases bound'
        rfl
      | outward free _ _ _ =>
        rw [bound] at free
        cases free
  item_iff module binding := by
    refine ⟨by rintro ⟨⟩, fun noVariable => ?_⟩
    exact absurd (.here bound) (noVariable.2 node rfl)

/-- An item hides the variables behind it. -/
theorem of_item (noVariable : hidden = false → scope.find? ns name = none) {id : ModuleId}
    (owned : scope.module = some id) {binding : Binding}
    (bound : tables.tree.bindingAt? id ns name = some binding) :
    tables.Finds ns name hidden (scope :: outer) (some (.item id binding)) := by
  have unseen : ∀ node, hidden = false → ¬ tables.Sees ns name (scope :: outer) node := by
    intro node shown sees
    cases sees with
    | here bound' =>
      rw [noVariable shown] at bound'
      cases bound'
    | outward _ _ noItem _ =>
      rw [noItem id owned] at bound
      cases bound
  have first : tables.firstItem ns name ((scope :: outer).filterMap (·.module)) =
      some (id, binding) := by
    rw [firstItem, List.filterMap_cons, owned, List.findSome?_cons, bound, Option.map_some]
  refine ⟨fun node => ⟨by rintro ⟨⟩, fun h => absurd h.2 (unseen node h.1)⟩, fun module other => ?_⟩
  rw [first]
  constructor
  · rintro ⟨⟩
    exact ⟨rfl, unseen⟩
  · rintro ⟨⟨⟩, -⟩
    rfl

/-- What is found behind a scope that has nothing of the name. -/
theorem of_outer (noVariable : hidden = false → scope.find? ns name = none)
    (noItem : ∀ id, scope.module = some id → tables.tree.bindingAt? id ns name = none)
    {found : Option Found}
    (h : tables.Finds ns name (hidden || scope.kind.hidesOuterLocals) outer found) :
    tables.Finds ns name hidden (scope :: outer) found := by
  -- a variable of the other scopes is seen from here unless this scope is in the way
  have sees_iff (node : NodeId) : (hidden = false ∧ tables.Sees ns name (scope :: outer) node) ↔
      (hidden || scope.kind.hidesOuterLocals) = false ∧ tables.Sees ns name outer node := by
    rw [Bool.or_eq_false_iff, and_assoc]
    apply and_congr_right
    intro shown
    constructor
    · intro sees
      cases sees with
      | here bound =>
        rw [noVariable shown] at bound
        cases bound
      | outward _ passable _ rest => exact ⟨passable, rest⟩
    · rintro ⟨passable, rest⟩
      exact .outward (noVariable shown) passable noItem rest
  have items : tables.firstItem ns name ((scope :: outer).filterMap (·.module)) =
      tables.firstItem ns name (outer.filterMap (·.module)) := by
    rw [List.filterMap_cons]
    cases owned : scope.module with
    | none => rfl
    | some id => rw [firstItem, List.findSome?_cons, noItem id owned, Option.map_none]; rfl
  refine ⟨fun node => (h.variable_iff node).trans (sees_iff node).symm, fun module binding => ?_⟩
  rw [h.item_iff, items]
  apply and_congr_right
  intro _
  refine forall_congr' fun node => ?_
  rw [← not_and, ← not_and, sees_iff]

end Tables.Finds

theorem Tables.searchScopes_finds {scopes : List Scope}
    (known : ∀ id ∈ scopes.filterMap (·.module), tables.tree.Known id) (hidden : Bool) :
    Yields False (tables.searchScopes ns name hidden scopes)
      (tables.Finds ns name hidden scopes) := by
  induction scopes generalizing hidden with
  | nil =>
    refine ⟨fun node => ⟨by rintro ⟨⟩, ?_⟩, fun module binding => ⟨by rintro ⟨⟩, ?_⟩⟩
    · rintro ⟨-, ⟨⟩⟩
    · rintro ⟨⟨⟩, -⟩
  | cons scope outer ih =>
    have rest (hidden' : Bool) : Yields False (tables.searchScopes ns name hidden' outer)
        (tables.Finds ns name hidden' outer) := by
      apply ih
      intro id mem
      exact known id ((List.sublist_cons_self ..).filterMap _ |>.subset mem)
    rw [Tables.searchScopes]
    split
    · next node bound =>
      -- only a scope that is not out of reach gives a variable
      cases hidden with
      | true => cases bound
      | false => exact .of_variable bound
    · next noVariable =>
      have noVariable : hidden = false → scope.find? ns name = none := by
        rintro rfl
        exact noVariable
      cases owned : scope.module with
      | none =>
        simp only [Yields.bind_iff, Yields.pure_iff]
        refine (rest _).mono fun found => .of_outer noVariable ?_
        rw [owned]
        rintro id ⟨⟩
      | some id =>
        have there : tables.tree.Known id := known id (by simp [owned])
        obtain ⟨m, found⟩ := there.find?
        have held := ModuleTree.bindingAt?_of_find? found ns name
        simp only [Yields.bind_iff, Yields.pure_iff, ModuleTree.get_of_find? found, Yields.ok_iff]
        cases bound : m.find? ns name with
        | none =>
          refine (rest _).mono fun found => .of_outer noVariable ?_
          rw [owned]
          rintro _ ⟨⟩
          exact held.trans bound
        | some binding => exact .of_item noVariable owned (held.trans bound)

/-! ## Lookups -/

/-- The modules of the scopes are these, from the nearest one up to the root, and a lookup finds an
    item exactly if one of them binds the name and no variable comes first. -/
structure Tables.SeesAncestors (tables : Tables) (stack : ScopeStack) (ms : List Module) :
    Prop where
  ancestors : tables.tree.ancestors stack.nearestModule = .ok ms
  modules : stack.toList.filterMap (·.module) = ms.map (·.id)
  outermost : (ms.map (·.id)).getLast? = some .root
  lookup : ∀ ns name, ∃ found, tables.lookup stack ns name = .ok found ∧
    (∀ node, found = some (.localVar node) ↔ tables.Sees ns name stack.toList node) ∧
    ((∃ module binding, found = some (.item module binding)) ↔
      (∃ m ∈ ms, (m.find? ns name).isSome) ∧ ∀ node, ¬ tables.Sees ns name stack.toList node) ∧
    ∀ module binding, found = some (.item module binding) →
      ms.findSome? (fun m => (m.find? ns name).map (m.id, ·)) = some (module, binding)
  searched : ∀ ns name, tables.searchModules stack ns name = .ok none

/-- The first of some modules of the tree that binds a name. -/
theorem Tables.firstItem_map {ms : List Module}
    (there : ∀ m ∈ ms, tables.tree.find? m.id = some m) :
    tables.firstItem ns name (ms.map (·.id)) =
      ms.findSome? fun m => (m.find? ns name).map (m.id, ·) := by
  induction ms with
  | nil => rfl
  | cons m ms ih =>
    have first := ModuleTree.bindingAt?_of_find? (there m (List.mem_cons_self ..)) ns name
    have rest := ih fun m' mem => there m' (List.mem_cons_of_mem _ mem)
    rw [firstItem] at rest
    rw [firstItem, List.map_cons, List.findSome?_cons, List.findSome?_cons, first, rest]

theorem Stands.seesAncestors {stack : ScopeStack} {around : Regions}
    (stands : Stands tables stack around) (valid : tables.tree.Valid) :
    ∃ ms, tables.SeesAncestors stack ms := by
  obtain ⟨ms, result, there, modules, outermost⟩ := stands.exists_ancestors valid
  have searched (ns : Namespace) (name : String) :
      tables.searchModules stack ns name = .ok none := by
    obtain ⟨_, searched, rfl⟩ := Yields.false_iff.mp (stands.searchModules valid ns name)
    exact searched
  refine ⟨ms, result, modules, outermost, fun ns name => ?_, searched⟩
  have known : ∀ id ∈ stack.toList.filterMap (·.module), tables.tree.Known id := by
    rw [modules]
    intro id mem
    obtain ⟨m, memMs, rfl⟩ := List.mem_map.mp mem
    exact ModuleTree.known_of_find? (there m memMs)
  have ended : Yields False (tables.searchScopes ns name false stack.toList)
      (tables.Finds ns name false stack.toList) := Tables.searchScopes_finds known false
  obtain ⟨found, inScopes, finds⟩ := Yields.false_iff.mp ended
  -- where the scopes have nothing, the search of the ancestors has nothing either
  have result : tables.lookup stack ns name = .ok found := by
    rw [Tables.lookup, inScopes]
    cases found with
    | none => exact searched ns name
    | some found => rfl
  have item_iff := finds.item_iff
  rw [modules, Tables.firstItem_map there] at item_iff
  refine ⟨found, result, fun node => (finds.variable_iff node).trans (and_iff_right rfl), ?_,
    fun module binding eq => ((item_iff module binding).mp eq).1⟩
  simp only [item_iff, forall_const, exists_and_right]
  apply and_congr_left
  intro _
  rw [← Prod.exists (p := fun item => ms.findSome? _ = some item), ← Option.isSome_iff_exists,
    List.findSome?_isSome_iff]
  simp only [Option.isSome_map]

end NameResolution

import NameResolution.Walk.Resolve
import NameResolution.Proofs.Declaration.Run

/-! # Lexical scoping

    What a name refers to follows from the regions around it: their binders, and
    the names that their modules bind once the module tree is built. The stack of
    scopes in the second pass is such a list of regions in another form, so a
    lookup through the stack finds what the regions say. -/

namespace NameResolution

/-! ## The rule -/

/-- No variable is seen from inside such a region that is bound outside of it. -/
def Region.isBarrier (region : Region) : Bool :=
  match region.kind with
  | .item | .func | .const => true
  | .root | .lambda | .block | .loop | .matchArm => false

theorem Region.isBarrier_eq (region : Region) :
    region.isBarrier = region.kind.hidesOuterLocals := by
  unfold isBarrier
  cases region.kind <;> rfl

/-- The modules of some regions, innermost first. -/
def Regions.modules (defs : Definitions) (around : Regions) : List ModuleId :=
  around.filterMap fun region => defs.moduleOf region.owner

namespace Tables

variable (tables : Tables)

/-- The enum variant that a binding stands for. -/
def variant? (binding : Binding) : Option DefId :=
  (tables.finalDefinition? binding).filter fun id =>
    (tables.defs.find? id).any (·.kind == .variant)

/-- The item that a name refers to in the module of a region. -/
def itemIn (ns : Namespace) (name : String) (region : Region) : Option (ModuleId × Binding) :=
  (tables.defs.moduleOf region.owner).bind fun module =>
    (tables.tree.bindingAt? module ns name).map (module, ·)

/-- The nearest item of a name. -/
def nearestItem (ns : Namespace) (name : String) : Regions → Option (ModuleId × Binding)
  | [] => none
  | region :: around =>
    match tables.itemIn ns name region with
    | some item => some item
    | none => nearestItem ns name around

/-- The enum variant that a name stands for: the nearest type of that name, if it is one. -/
def variantInReach (name : String) (around : Regions) : Option DefId :=
  (tables.nearestItem .type name around).bind fun item => tables.variant? item.2

/-- The variable of a name in the innermost region. The latest binder counts; a bare name that
    stands for a variant binds nothing. -/
def variableIn (name : String) (region : Region) (around : Regions) : Option NodeId :=
  (region.binders.find? fun binder => binder.name == name &&
    !(binder.bare && (tables.variantInReach name (region :: around)).isSome)).map (·.node)

/-- The variable that a name refers to: the nearest one, unless an item is nearer. In one region a
    variable comes before an item. -/
def visibleVariable (name : String) : Regions → Option NodeId
  | [] => none
  | region :: around =>
    match tables.variableIn name region around with
    | some node => some node
    | none =>
      if (tables.itemIn .value name region).isSome || region.isBarrier then none
      else visibleVariable name around

/-- What `Self` stands for in some regions: only an item makes a difference, and what it is says
    which one. -/
def selfAt : Regions → Option DefId
  | [] => none
  | ⟨.item, .item node, _⟩ :: around =>
    match (tables.defs.ofNode? node).bind tables.defs.find? with
    | some definition => Resolving.selfInside definition (selfAt around)
    | none => selfAt around
  | _ :: around => selfAt around

variable {tables}

theorem itemIn_bound {ns : Namespace} {name : String} {region : Region} {module : ModuleId}
    {binding : Binding} (h : tables.itemIn ns name region = some (module, binding)) :
    tables.tree.bindingAt? module ns name = some binding := by
  obtain ⟨id, _, mapped⟩ := Option.bind_eq_some_iff.mp h
  obtain ⟨_, bound, ⟨⟩⟩ := Option.map_eq_some_iff.mp mapped
  exact bound

/-- What is bound in a region changes nothing about `Self`. -/
theorem selfAt_binders (tables : Tables) (region : Region) (binders : List Binder)
    (around : Regions) :
    tables.selfAt ({ region with binders } :: around) = tables.selfAt (region :: around) := by
  obtain ⟨kind, owner, _⟩ := region
  cases kind <;> cases owner <;> rfl

/-- What is bound in a region changes nothing about its items. -/
theorem variantInReach_binders (name : String) (region : Region) (binders : List Binder)
    (around : Regions) :
    tables.variantInReach name ({ region with binders } :: around) =
      tables.variantInReach name (region :: around) := rfl

/-- The latest binder is the variable of its name, unless it stands for a variant. -/
theorem variableIn_cons_self {binder : Binder} {region : Region} {around : Regions}
    (binds : binder.bare = true →
      tables.variantInReach binder.name (region :: around) = none) :
    tables.variableIn binder.name { region with binders := binder :: region.binders } around =
      some binder.node := by
  have counts : (binder.name == binder.name &&
      !(binder.bare && (tables.variantInReach binder.name (region :: around)).isSome)) = true := by
    cases bare : binder.bare
    · simp
    · simp [binds bare]
  simp only [variableIn, variantInReach_binders, List.find?_cons, counts, Option.map_some]

theorem variableIn_cons_of_ne {binder : Binder} {name : String} (h : binder.name ≠ name)
    {region : Region} {around : Regions} :
    tables.variableIn name { region with binders := binder :: region.binders } around =
      tables.variableIn name region around := by
  have other : (binder.name == name) = false := by simpa using h
  simp only [variableIn, variantInReach_binders, List.find?_cons, other, Bool.false_and]

/-- A bare name that stands for a variant leaves everything as it is. -/
theorem variableIn_cons_of_variant {binder : Binder} (bare : binder.bare = true) {region : Region}
    {around : Regions} (matched : (tables.variantInReach binder.name (region :: around)).isSome)
    (name : String) :
    tables.variableIn name { region with binders := binder :: region.binders } around =
      tables.variableIn name region around := by
  by_cases same : binder.name = name
  · subst same
    simp only [variableIn, variantInReach_binders, List.find?_cons, bare, matched, Bool.and_self,
      Bool.not_true, Bool.and_false]
  · exact variableIn_cons_of_ne same

end Tables

/-! ## Scopes and regions -/

/-- A scope holds what is said of a region. -/
structure Agrees (tables : Tables) (scope : Scope) (region : Region) (around : Regions) : Prop where
  kind : scope.kind = region.kind
  module : scope.module = tables.defs.moduleOf region.owner
  locals : ∀ name, scope.find? .value name = tables.variableIn name region around
  others : ∀ ns name, ns ≠ .value → scope.find? ns name = none
  selfItem : ∀ id, scope.selfItem = some id → tables.defs.Known id
  isSelf : scope.selfItem = tables.selfAt (region :: around)

/-- Scopes hold what is said of regions. -/
inductive Matches (tables : Tables) : List Scope → Regions → Prop where
  | nil : Matches tables [] []
  | cons {scope : Scope} {scopes : List Scope} {region : Region} {around : Regions}
      (first : Agrees tables scope region around) (rest : Matches tables scopes around) :
      Matches tables (scope :: scopes) (region :: around)

/-- The modules on the way to the root, each the parent of the one before. -/
inductive Chained (tree : ModuleTree) : List ModuleId → Prop where
  | root {m : Module} (found : tree.find? .root = some m) (outermost : m.parent = none) :
      Chained tree [.root]
  | inside {id parent : ModuleId} {outer : List ModuleId} {m : Module}
      (found : tree.find? id = some m) (inside : m.parent = some parent)
      (rest : Chained tree (parent :: outer)) : Chained tree (id :: parent :: outer)

/-- The modules of regions are the innermost one and all those around it. -/
structure Rooted (tables : Tables) (around : Regions) : Prop where
  chained : Chained tables.tree (around.modules tables.defs)
  home : tables.defs.moduleOf around.home = (around.modules tables.defs).head?

variable {tables : Tables}

theorem Matches.modules {scopes : List Scope} {around : Regions}
    (matching : Matches tables scopes around) :
    scopes.filterMap (·.module) = around.modules tables.defs := by
  induction matching with
  | nil => rfl
  | cons first rest ih =>
    rw [Regions.modules, List.filterMap_cons, List.filterMap_cons, first.module, ih]
    rfl

theorem Matches.length_eq {scopes : List Scope} {around : Regions}
    (matching : Matches tables scopes around) : scopes.length = around.length := by
  induction matching with
  | nil => rfl
  | cons first rest ih => rw [List.length_cons, List.length_cons, ih]

theorem Matches.selfItem {scopes : List Scope} {around : Regions}
    (matching : Matches tables scopes around) :
    ∀ scope ∈ scopes, ∀ id, scope.selfItem = some id → tables.defs.Known id := by
  induction matching with
  | nil => simp
  | cons first rest ih =>
    intro scope mem
    rcases List.mem_cons.mp mem with rfl | mem
    · exact first.selfItem
    · exact ih scope mem

theorem Chained.known {tree : ModuleTree} {ids : List ModuleId} (chained : Chained tree ids) :
    ∀ id ∈ ids, tree.Known id := by
  induction chained with
  | root found _ =>
    intro id mem
    rw [List.mem_singleton.mp mem]
    exact ModuleTree.known_of_find? found
  | inside found _ _ ih =>
    intro id mem
    rcases List.mem_cons.mp mem with rfl | mem
    · exact ModuleTree.known_of_find? found
    · exact ih id mem

/-- On the way outward there are no modules but these. -/
theorem Chained.mem_of_mem_outward {tree : ModuleTree} (valid : tree.Valid) {id : ModuleId}
    {outer : List ModuleId} (chained : Chained tree (id :: outer)) {m : Module}
    (found : tree.find? id = some m) (steps : Nat) :
    ∀ m' ∈ tree.outward steps m, m'.id ∈ id :: outer := by
  -- each step outward drops one module from the chain
  induction steps generalizing id outer m with
  | zero =>
    intro m' mem
    rw [ModuleTree.outward, List.mem_singleton] at mem
    rw [mem, valid.ids found]
    exact List.mem_cons_self ..
  | succ steps ih =>
    intro m' mem
    rw [ModuleTree.outward] at mem
    rcases List.mem_cons.mp mem with rfl | mem
    · rw [valid.ids found]
      exact List.mem_cons_self ..
    · cases chained with
      | root found' outermost =>
        -- the root has no parent, so the way outward ends there
        rw [found] at found'
        cases found'
        rw [outermost] at mem
        cases mem
      | @inside _ parent _ _ found' inside rest =>
        rw [found] at found'
        cases found'
        obtain ⟨p, parent_found⟩ := (rest.known parent (List.mem_cons_self ..)).find?
        rw [inside, Option.bind_some, parent_found] at mem
        exact List.mem_cons_of_mem _ (ih rest parent_found m' mem)

/-! ## Lookups -/

/-- A name is found as the regions say. -/
structure Answer (tables : Tables) (ns : Namespace) (name : String) (hidden : Bool)
    (around : Regions) (found : Option Found) : Prop where
  variable_iff : ∀ node, found = some (.localVar node) ↔
    hidden = false ∧ ns = .value ∧ tables.visibleVariable name around = some node
  item : ∀ module binding, found = some (.item module binding) →
    tables.tree.bindingAt? module ns name = some binding
  notValue : ns ≠ .value →
    found = (tables.nearestItem ns name around).map fun item => .item item.1 item.2

variable {ns : Namespace} {name : String}

/-- The variable of one scope, unless it is out of reach. -/
theorem Agrees.find? {scope : Scope} {region : Region} {around : Regions}
    (agrees : Agrees tables scope region around) (hidden : Bool) :
    (if hidden then none else scope.find? ns name) =
      if hidden = false ∧ ns = .value then tables.variableIn name region around else none := by
  cases hidden with
  | true => simp
  | false =>
    by_cases value : ns = .value
    · subst value
      simp [agrees.locals]
    · simp [value, agrees.others ns name value]

namespace Answer

open Tables

theorem of_variable {hidden : Bool} {region : Region} {around : Regions} {node : NodeId}
    (h : (if hidden = false ∧ ns = .value then tables.variableIn name region around else none) =
      some node) : Answer tables ns name hidden (region :: around) (some (.localVar node)) := by
  split at h
  · next seen =>
    refine ⟨fun other => ?_, by simp, fun notValue => absurd seen.2 notValue⟩
    simp [seen.1, seen.2, visibleVariable, h]
  · cases h

/-- An item that is found hides the variables behind it. -/
theorem of_item {hidden : Bool} {region : Region} {around : Regions} {module : ModuleId}
    {binding : Binding}
    (noVariable : (if hidden = false ∧ ns = .value then tables.variableIn name region around
      else none) = none)
    (h : tables.itemIn ns name region = some (module, binding)) :
    Answer tables ns name hidden (region :: around) (some (.item module binding)) := by
  refine ⟨fun node => ⟨by simp, ?_⟩, ?_, fun _ => ?_⟩
  · -- the item would have to hide the variable that is seen
    rintro ⟨shown, rfl, visible⟩
    rw [if_pos ⟨shown, rfl⟩] at noVariable
    simp [visibleVariable, noVariable, h] at visible
  · rintro _ _ ⟨⟩
    exact itemIn_bound h
  · simp [nearestItem, h]

/-- What is found behind a region that has nothing of that name. -/
theorem of_outer {hidden : Bool} {region : Region} {around : Regions} {found : Option Found}
    (noVariable : (if hidden = false ∧ ns = .value then tables.variableIn name region around
      else none) = none)
    (noItem : tables.itemIn ns name region = none)
    (answer : Answer tables ns name (hidden || region.isBarrier) around found) :
    Answer tables ns name hidden (region :: around) found := by
  refine ⟨fun node => ?_, answer.item, fun notValue => ?_⟩
  · rw [answer.variable_iff node, Bool.or_eq_false_iff, and_assoc]
    apply and_congr_right
    intro shown
    constructor
    · rintro ⟨through, rfl, visible⟩
      rw [if_pos ⟨shown, rfl⟩] at noVariable
      simp [visibleVariable, noVariable, noItem, through, visible]
    · rintro ⟨rfl, visible⟩
      rw [if_pos ⟨shown, rfl⟩] at noVariable
      simpa [visibleVariable, noVariable, noItem] using visible
  · rw [answer.notValue notValue, nearestItem, noItem]

end Answer

/-- Through the scopes a name is found as the regions say. -/
theorem Tables.searchScopes_answer {scopes : List Scope} {around : Regions}
    (matching : Matches tables scopes around)
    (known : ∀ module ∈ around.modules tables.defs, tables.tree.Known module) (hidden : Bool) :
    Yields False (tables.searchScopes ns name hidden scopes)
      (Answer tables ns name hidden around) := by
  induction matching generalizing hidden with
  | nil =>
    refine ⟨fun node => ?_, by simp, fun _ => rfl⟩
    simp [Tables.visibleVariable]
  | @cons scope scopes region around first rest ih =>
    -- what is behind a scope counts only where it has nothing of that name itself
    have outer (noVariable : (if hidden = false ∧ ns = .value then
          tables.variableIn name region around else none) = none)
        (noItem : tables.itemIn ns name region = none) :
        Yields False (tables.searchScopes ns name (hidden || scope.kind.hidesOuterLocals) scopes)
          (Answer tables ns name hidden (region :: around)) := by
      rw [first.kind, ← region.isBarrier_eq]
      refine (ih (fun module mem => known module ?_) _).mono
        fun found answer => .of_outer noVariable noItem answer
      exact (List.Sublist.filterMap _ (List.sublist_cons_self ..)).subset mem
    rw [Tables.searchScopes]
    simp only [first.find?, first.module]
    split
    · next node bound => exact .of_variable bound
    · next noVariable =>
      cases owned : tables.defs.moduleOf region.owner with
      | none =>
        simp only [Yields.bind_iff, Yields.pure_iff]
        exact outer noVariable (by rw [Tables.itemIn, owned, Option.bind_none])
      | some module =>
        have there : tables.tree.Known module := known module (by simp [Regions.modules, owned])
        obtain ⟨m, found⟩ := there.find?
        have item : tables.itemIn ns name region = (m.find? ns name).map (module, ·) := by
          rw [Tables.itemIn, owned, Option.bind_some, ModuleTree.bindingAt?_of_find? found]
        simp only [Yields.bind_iff, Yields.pure_iff, ModuleTree.get_of_find? found, Yields.ok_iff]
        cases bound : m.find? ns name with
        | none => exact outer noVariable (by rw [item, bound, Option.map_none])
        | some binding => exact .of_item noVariable (by rw [item, bound, Option.map_some])

/-- The scopes of a stack hold what is said of the regions around a point of a program. -/
structure Stands (tables : Tables) (stack : ScopeStack) (around : Regions) : Prop where
  matching : Matches tables stack.toList around
  rooted : Rooted tables around

namespace Stands

variable {stack : ScopeStack} {around : Regions}

/-- The innermost module, and those around it. -/
theorem exists_nearest (stands : Stands tables stack around) : ∃ outer,
    Chained tables.tree (stack.nearestModule :: outer) ∧
      stack.toList.filterMap (·.module) = stack.nearestModule :: outer := by
  have modules := stands.matching.modules
  have chained := stands.rooted.chained
  rw [← modules] at chained
  cases listed : stack.toList.filterMap (·.module) with
  | nil =>
    rw [listed] at chained
    cases chained
  | cons nearest outer =>
    have first : stack.nearestModule = nearest := by
      rw [ScopeStack.nearestModule, ← List.head?_filterMap, listed, List.head?_cons,
        Option.getD_some]
    rw [first]
    exact ⟨outer, listed ▸ chained, rfl⟩

theorem known_nearest (stands : Stands tables stack around) :
    tables.tree.Known stack.nearestModule := by
  obtain ⟨outer, chained, -⟩ := stands.exists_nearest
  exact chained.known _ (List.mem_cons_self ..)

theorem known_selfItem (stands : Stands tables stack around) {id : DefId}
    (h : stack.innermost.selfItem = some id) : tables.defs.Known id := by
  refine stands.matching.selfItem stack.innermost ?_ id h
  unfold ScopeStack.innermost ScopeStack.toList
  cases stack.inner <;> simp

/-- In the innermost scope `Self` stands for what the regions say. -/
theorem innermost_selfItem (stands : Stands tables stack around) :
    stack.innermost.selfItem = tables.selfAt around := by
  have matching := stands.matching
  rcases stack with ⟨inner, root⟩
  cases inner with
  | nil =>
    cases matching with
    | cons first _ => exact first.isSelf
  | cons scope inner =>
    cases matching with
    | cons first _ => exact first.isSelf

/-- All modules around have been searched with the scopes. -/
theorem searchModules (valid : tables.tree.Valid) (stands : Stands tables stack around)
    (ns : Namespace) (name : String) :
    Yields False (tables.searchModules stack ns name) fun found => found = none := by
  obtain ⟨outer, chained, listed⟩ := stands.exists_nearest
  obtain ⟨m, found⟩ := stands.known_nearest.find?
  simp only [Tables.searchModules, Yields.bind_iff, Yields.pure_iff, listed]
  apply (valid.ancestors found).mono
  intro ms ended
  obtain ⟨eq, _⟩ := ended
  have none_left : ms.filter (fun m => !(stack.nearestModule :: outer).contains m.id) = [] := by
    apply List.filter_eq_nil_iff.mpr
    intro m' mem
    rw [eq] at mem
    -- every ancestor is the module of some scope, so the filter keeps none
    have searched := chained.mem_of_mem_outward valid found _ m' mem
    rw [List.contains_iff_mem.mpr searched, Bool.not_true]
    exact Bool.false_ne_true
  rw [none_left]
  rfl

/-- A lookup finds what the regions say. -/
theorem lookup (valid : tables.tree.Valid) (stands : Stands tables stack around)
    (ns : Namespace) (name : String) :
    Yields False (tables.lookup stack ns name) (Answer tables ns name false around) := by
  simp only [Tables.lookup, Yields.bind_iff]
  apply (Tables.searchScopes_answer stands.matching stands.rooted.chained.known false).mono
  intro found answer
  split
  · exact answer
  · exact (stands.searchModules valid ns name).mono fun found eq => eq ▸ answer

end Stands

/-! ## Names -/

namespace Tables

variable {ns : Namespace} {name : String} {stack : ScopeStack}

theorem bound_of_searchScopes (hidden : Bool) (scopes : List Scope) :
    Yields True (tables.searchScopes ns name hidden scopes) fun found =>
      ∀ module binding, found = some (.item module binding) →
        tables.tree.bindingAt? module ns name = some binding := by
  induction scopes generalizing hidden with
  | nil => rintro _ _ ⟨⟩
  | cons scope scopes ih =>
    unfold searchScopes
    split
    · rintro _ _ ⟨⟩
    · cases scope.module with
      | none =>
        simp only [Yields.bind_iff, Yields.pure_iff]
        exact ih _
      | some own =>
        simp only [Yields.bind_iff, Yields.pure_iff]
        refine Yields.true_iff.mpr fun m got => ?_
        cases held : m.find? ns name with
        | none => exact ih _
        | some first =>
          rintro _ _ ⟨⟩
          rw [ModuleTree.bindingAt?_of_find? (ModuleTree.find?_of_get got), held]

theorem bound_of_searchModules (valid : tables.tree.Valid) :
    Yields True (tables.searchModules stack ns name) fun found =>
      ∀ module binding, found = some (.item module binding) →
        tables.tree.bindingAt? module ns name = some binding := by
  simp only [searchModules, Yields.bind_iff, Yields.pure_iff]
  refine Yields.true_iff.mpr fun ms around module binding found => ?_
  obtain ⟨first, got, -⟩ := Except.bind_eq_ok.mp around
  obtain ⟨_, around', -, there⟩ :=
    Yields.false_iff.mp (valid.ancestors (ModuleTree.find?_of_get got))
  rw [around] at around'
  cases around'
  obtain ⟨m, mem, held⟩ := List.exists_of_findSome?_eq_some found
  obtain ⟨_, held, eq⟩ := Option.map_eq_some_iff.mp held
  cases eq
  rw [ModuleTree.bindingAt?_of_find? (there m (List.mem_of_mem_filter mem)), held]

/-- What a lookup finds in a module is bound there. -/
theorem bound_of_lookup (valid : tables.tree.Valid) :
    Yields True (tables.lookup stack ns name) fun found =>
      ∀ module binding, found = some (.item module binding) →
        tables.tree.bindingAt? module ns name = some binding := by
  simp only [lookup, Yields.bind_iff]
  apply (bound_of_searchScopes false stack.toList).mono
  intro found bound
  split
  · exact bound
  · exact bound_of_searchModules valid

end Tables

/-! ## Variants -/

namespace Tables

/-- What a binding stands for in the end is there. -/
theorem known_of_finalDefinition? (intact : Intact tables.defs tables.tree) {ns : Namespace}
    {binding : Binding} (good : binding.Good tables.defs ns) {id : DefId}
    (final : tables.finalDefinition? binding = some id) : tables.defs.Known id := by
  cases binding with
  | definition id' =>
    cases final
    exact good
  | imported id' =>
    obtain ⟨last, resolved, known⟩ := intact.validDefs.resolveAlias good
    rw [finalDefinition?, resolved] at final
    cases final
    exact known
  | overloads set => cases final

theorem yields_isVariant (intact : Intact tables.defs tables.tree) {ns : Namespace}
    {binding : Binding} (good : binding.Good tables.defs ns) :
    Yields False (tables.isVariant binding) fun isVariant =>
      (if isVariant then tables.finalDefinition? binding else none) = tables.variant? binding := by
  unfold isVariant variant?
  cases final : tables.finalDefinition? binding with
  | none => rfl
  | some id =>
    obtain ⟨d, found⟩ := (known_of_finalDefinition? intact good final).find?
    simp only [Yields.bind_iff, Yields.pure_iff, Definitions.get_of_find? found, Yields.ok_iff,
      Option.filter_some, found, Option.any_some]

end Tables

/-- The variant that a name stands for is found as the regions say. -/
theorem Stands.variantNamed {stack : ScopeStack} {around : Regions}
    (stands : Stands tables stack around) (intact : Intact tables.defs tables.tree)
    (name : String) :
    Yields False (tables.variantNamed stack name) fun found =>
      found = tables.variantInReach name around := by
  simp only [Tables.variantNamed, Yields.bind_iff]
  apply (stands.lookup intact.validTree .type name).mono
  intro found answer
  -- among types there are no variables, so what is found is the nearest item
  have eq := answer.notValue (by simp)
  cases nearest : tables.nearestItem .type name around with
  | none =>
    rw [nearest] at eq
    subst eq
    simp [Tables.variantInReach, nearest]
  | some item =>
    rw [nearest] at eq
    subst eq
    have good := intact.bindings (answer.item _ _ rfl)
    simp only [Option.map_some, Yields.bind_iff, Yields.pure_iff]
    apply (Tables.yields_isVariant intact good).mono
    intro isVariant same
    rw [same, Tables.variantInReach, nearest, Option.bind_some]

end NameResolution

import NameResolution.Proofs.Tables.Writes
import Mathlib.Data.List.Chain

/-! # Tables are written once

    What an entry says it goes on saying. Each write leaves all entries that are
    there as they are, so of any two moments in a history of writes the later one
    has everything that the earlier one had. -/

namespace NameResolution

/-! ## Entries that stay -/

/-- A module at a later moment: it has kept its place, its children and its names. -/
structure Module.Persists (m m' : Module) : Prop where
  id : m'.id = m.id
  owner : m'.owner = m.owner
  parent : m'.parent = m.parent
  itemModule : m'.itemModule = m.itemModule
  child : ∀ {name : String} {child : ModuleId}, m.child? name = some child →
    m'.child? name = some child
  anonymousChild : ∀ {node : NodeId} {child : ModuleId}, m.anonymousChild? node = some child →
    m'.anonymousChild? node = some child
  name : ∀ {ns : Namespace} {name : String} {binding : Binding}, m.find? ns name = some binding →
    m'.find? ns name = some binding

/-- The tables at a later moment. A definition comes with its kind, its name, its visibility, its
    node and its target; a set of functions is told by its members. -/
structure WriteOnce (tables tables' : Definitions × ModuleTree) : Prop where
  definition : ∀ {id : DefId} {d : Definition}, tables.1.find? id = some d →
    tables'.1.find? id = some d
  declared : ∀ {node : NodeId} {id : DefId}, tables.1.ofNode? node = some id →
    tables'.1.ofNode? node = some id
  member : ∀ {set : OverloadId} {suffix : String} {id : DefId},
    tables.1.member? set suffix = some id → tables'.1.member? set suffix = some id
  moduleOf : ∀ {id : DefId} {module : ModuleId}, tables.1.module? id = some module →
    tables'.1.module? id = some module
  moduleOfBlock : ∀ {node : NodeId} {module : ModuleId}, tables.1.blockModule? node = some module →
    tables'.1.blockModule? node = some module
  module : ∀ {id : ModuleId} {m : Module}, tables.2.find? id = some m →
    ∃ m', tables'.2.find? id = some m' ∧ m.Persists m'

theorem Module.Persists.refl (m : Module) : m.Persists m :=
  ⟨rfl, rfl, rfl, rfl, fun h => h, fun h => h, fun h => h⟩

theorem Module.Persists.trans {m m' m'' : Module} (h : m.Persists m') (h' : m'.Persists m'') :
    m.Persists m'' where
  id := h'.id.trans h.id
  owner := h'.owner.trans h.owner
  parent := h'.parent.trans h.parent
  itemModule := h'.itemModule.trans h.itemModule
  child there := h'.child (h.child there)
  anonymousChild there := h'.anonymousChild (h.anonymousChild there)
  name bound := h'.name (h.name bound)

namespace WriteOnce

variable {tables tables' tables'' : Definitions × ModuleTree} {defs defs' : Definitions}
  {tree tree' : ModuleTree}

theorem refl (tables : Definitions × ModuleTree) : WriteOnce tables tables :=
  ⟨fun h => h, fun h => h, fun h => h, fun h => h, fun h => h,
    fun {_ m} found => ⟨m, found, .refl m⟩⟩

theorem trans (h : WriteOnce tables tables') (h' : WriteOnce tables' tables'') :
    WriteOnce tables tables'' where
  definition found := h'.definition (h.definition found)
  declared known := h'.declared (h.declared known)
  member mem := h'.member (h.member mem)
  moduleOf owned := h'.moduleOf (h.moduleOf owned)
  moduleOfBlock owned := h'.moduleOfBlock (h.moduleOfBlock owned)
  module found := by
    obtain ⟨m', found', persists⟩ := h.module found
    obtain ⟨m'', found'', persists'⟩ := h'.module found'
    exact ⟨m'', found'', persists.trans persists'⟩

instance : IsTrans (Definitions × ModuleTree) WriteOnce := ⟨fun _ _ _ => trans⟩

/-- More definitions, and nothing else. -/
theorem of_extends (keeps : defs.Keeps defs') (ext : defs.Extends defs') :
    WriteOnce (defs, tree) (defs', tree) where
  definition := keeps.defined
  declared := ext.node
  member := keeps.member?
  moduleOf := ext.module
  moduleOfBlock := ext.block
  module {_ m} found := ⟨m, found, .refl m⟩

/-- More modules, and nothing else. -/
theorem of_modules (module : ∀ {id : ModuleId} {m : Module}, tree.find? id = some m →
    ∃ m', tree'.find? id = some m' ∧ m.Persists m') : WriteOnce (defs, tree) (defs, tree') :=
  ⟨fun h => h, fun h => h, fun h => h, fun h => h, fun h => h, module⟩

/-- One module is changed, and keeps what it has. -/
theorem of_modify {id : ModuleId} {change : Module → Module} {m : Module}
    (found : tree.find? id = some m) (persists : m.Persists (change m)) :
    WriteOnce (defs, tree) (defs, tree.modify id change) := by
  refine of_modules fun {other m'} found' => ?_
  by_cases same : id = other
  · subst same
    rw [found] at found'
    cases found'
    exact ⟨change m, ModuleTree.find?_modify_self found change, persists⟩
  · exact ⟨m', (ModuleTree.find?_modify_of_ne same change).trans found', .refl m'⟩

end WriteOnce

/-! ## Writes -/

section

variable {m : Module} {child : ModuleId}

theorem Module.persists_child {name : String} (free : m.child? name = none) :
    m.Persists { m with named := m.named.insert name child } where
  id := rfl
  owner := rfl
  parent := rfl
  itemModule := rfl
  child {name' child'} there := by
    have ne : name ≠ name' := by
      rintro rfl
      rw [free] at there
      cases there
    show (m.named.insert name child)[name']? = some child'
    rw [Std.TreeMap.getElem?_insert]
    simpa [ne, Module.child?] using there
  anonymousChild there := there
  name bound := bound

theorem Module.persists_anonymousChild {node : NodeId} (free : m.anonymousChild? node = none) :
    m.Persists { m with anonymous := m.anonymous.insert node child } where
  id := rfl
  owner := rfl
  parent := rfl
  itemModule := rfl
  child there := there
  anonymousChild {node' child'} there := by
    have ne : node ≠ node' := by
      rintro rfl
      rw [free] at there
      cases there
    show (m.anonymous.insert node child)[node']? = some child'
    rw [Std.TreeMap.getElem?_insert]
    simpa [ne, Module.anonymousChild?] using there
  name bound := bound

theorem Module.persists_bind {ns : Namespace} {name : String} (free : m.find? ns name = none)
    (binding : Binding) : m.Persists (m.bind ns name binding) where
  id := rfl
  owner := rfl
  parent := rfl
  itemModule := rfl
  child there := there
  anonymousChild there := there
  name {ns' name' binding'} bound := by
    by_cases sameNs : ns' = ns
    · subst sameNs
      have ne : name ≠ name' := by
        rintro rfl
        rw [free] at bound
        cases bound
      rw [Module.find?_bind_of_ne_name _ _ _ ne]
      exact bound
    · rw [Module.find?_bind_of_ne_namespace _ sameNs]
      exact bound

end

/-- A write changes no entry that is there. -/
theorem TableWrite.writeOnce {tables tables' : Definitions × ModuleTree}
    (h : TableWrite tables tables') : WriteOnce tables tables' := by
  cases h with
  | definition _ free =>
    exact .of_extends (Definitions.keeps_declared ..) (Definitions.extends_declared free)
  | importAlias _ =>
    exact .of_extends (Definitions.keeps_push ..) (Definitions.grows_push ..).toExtends
  | overloads =>
    exact .of_extends (Definitions.keeps_overloadsOrNew none)
      Definitions.grows_newOverloads.toExtends
  | member _ held free =>
    exact .of_extends (Definitions.keeps_insertOverload _ held free)
      Definitions.grows_insertOverload.toExtends
  | moduleOf free => exact .of_extends (.of_eq rfl rfl) (Definitions.extends_withModule free)
  | moduleOfBlock free => exact .of_extends (.of_eq rfl rfl) (Definitions.extends_withBlock free)
  | @module _ tree parent owner =>
    refine .of_modules fun {id m} found => ⟨m, ?_, .refl m⟩
    exact (ModuleTree.find?_push_of_known (ModuleTree.known_of_find? found) ..).trans found
  | child found free => exact .of_modify found (Module.persists_child free)
  | anonymousChild found free => exact .of_modify found (Module.persists_anonymousChild free)
  | name found free => exact .of_modify found (Module.persists_bind free _)

theorem TableWrites.writeOnce {tables tables' : Definitions × ModuleTree}
    (h : TableWrites tables tables') : WriteOnce tables tables' := by
  induction h with
  | refl => exact .refl _
  | tail _ last ih => exact ih.trans last.writeOnce

/-! ## Histories -/

/-- Moments in the making of tables: from each to the next at most one entry is written, and of
    any two the later one has kept every entry of the earlier one. -/
structure History (moments : List (Definitions × ModuleTree)) : Prop where
  writes : moments.IsChain (Relation.ReflGen TableWrite)
  keeps : moments.Pairwise WriteOnce

theorem History.of_writes {moments : List (Definitions × ModuleTree)}
    (writes : moments.IsChain (Relation.ReflGen TableWrite)) : History moments := by
  refine ⟨writes, List.isChain_iff_pairwise.mp (writes.imp fun tables tables' h => ?_)⟩
  cases h with
  | refl => exact .refl tables
  | single write => exact write.writeOnce

/-- Tables that follow from each other by writes are among the moments of a history. -/
theorem exists_history {stages : List (Definitions × ModuleTree)}
    (chain : stages.IsChain TableWrites) :
    ∃ moments, History moments ∧ stages.Sublist moments ∧ moments.head? = stages.head? ∧
      moments.getLast? = stages.getLast? := by
  -- the moments first have to be a chain; that entries are kept then holds of all of them
  suffices refined : ∃ moments : List (Definitions × ModuleTree),
      moments.IsChain (Relation.ReflGen TableWrite) ∧ stages.Sublist moments ∧
        moments.head? = stages.head? ∧ moments.getLast? = stages.getLast? by
    obtain ⟨moments, writes, rest⟩ := refined
    exact ⟨moments, .of_writes writes, rest⟩
  induction chain with
  | nil => exact ⟨[], .nil, .slnil, rfl, rfl⟩
  | singleton tables => exact ⟨[tables], .singleton tables, .refl _, rfl, rfl⟩
  | @cons_cons tables tables' others first _ ih =>
    obtain ⟨moments, writes, sublist, head, last⟩ := ih
    obtain ⟨between, chain, arrives⟩ := List.exists_isChain_cons_of_relationReflTransGen first
    refine ⟨(tables :: between) ++ moments, ?_, ?_, rfl, ?_⟩
    · refine List.isChain_append.mpr
        ⟨chain.imp fun _ _ => .single, writes, fun moment here moment' there => ?_⟩
      -- the moment that has been arrived at is the one to go on from
      rw [List.getLast?_eq_getLast_of_ne_nil (List.cons_ne_nil _ _), arrives] at here
      rw [head] at there
      cases here
      cases there
      exact .refl
    · have first : [tables].Sublist (tables :: between) := List.sublist_append_left [tables] between
      exact first.append sublist
    · rw [List.getLast?_append, last, List.getLast?_cons_cons]
      cases others <;> rfl

end NameResolution

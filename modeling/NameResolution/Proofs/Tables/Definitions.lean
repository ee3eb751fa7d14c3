import NameResolution.Definition.Table
import NameResolution.Proofs.Run

/-! # Valid tables of definitions

    What the passes rely on: ids that have been handed out are good, aliases
    name what came before them, and a set of functions that a name stands for
    is never empty. Each operation keeps a table valid and only adds to it. -/

namespace NameResolution

namespace OverloadSet

theorem mem_toList {set : OverloadSet} {suffix : String} {id : DefId} :
    (suffix, id) ∈ set.toList ↔ set.get? suffix = some id :=
  Std.TreeMap.mem_toList_iff_getElem?_eq_some

theorem get?_of_single? {set : OverloadSet} {id : DefId} (h : set.single? = some id) :
    ∃ suffix, set.get? suffix = some id := by
  unfold single? at h
  split at h
  · next suffix first only =>
    cases h
    exact ⟨suffix, mem_toList.mp (by simp [only])⟩
  · cases h

end OverloadSet

namespace Definitions

variable {defs defs' defs'' : Definitions}

/-! ## Good ids -/

/-- An id that has been handed out. -/
def Known (defs : Definitions) (id : DefId) : Prop := id.index < defs.size

instance (defs : Definitions) (id : DefId) : Decidable (defs.Known id) :=
  inferInstanceAs (Decidable (id.index < defs.size))

/-- A set that holds a function. -/
def Stocked (defs : Definitions) (id : OverloadId) : Prop :=
  ∃ set suffix member, defs.overloads[id.index]? = some set ∧ set.get? suffix = some member

theorem known_of_find? {id : DefId} {d : Definition} (h : defs.find? id = some d) :
    defs.Known id := by
  obtain ⟨lt, -⟩ := Array.getElem?_eq_some_iff.mp h
  exact lt

theorem Known.find? {id : DefId} (h : defs.Known id) : ∃ d, defs.find? id = some d :=
  ⟨defs.entries[id.index], Array.getElem?_eq_getElem h⟩

theorem get_of_find? {id : DefId} {d : Definition} (h : defs.find? id = some d) :
    defs.get id = .ok d := by
  rw [get, h]

theorem find?_of_get {id : DefId} {d : Definition} (got : defs.get id = .ok d) :
    defs.find? id = some d := by
  unfold get at got
  split at got
  · next found =>
    cases got
    exact found
  · cases got

theorem Known.get {id : DefId} (h : defs.Known id) :
    Yields False (defs.get id) fun d => defs.find? id = some d := by
  obtain ⟨d, found⟩ := h.find?
  rw [get_of_find? found]
  exact found

theorem Known.isPub {id : DefId} (h : defs.Known id) :
    Yields False (defs.isPub id) fun _ => True := by
  simp only [Definitions.isPub, Yields.bind_iff, Yields.pure_iff]
  exact h.get.mono fun _ _ => trivial

theorem overloadSet_of_getElem? {id : OverloadId} {set : OverloadSet}
    (h : defs.overloads[id.index]? = some set) : defs.overloadSet id = .ok set := by
  rw [overloadSet, h]

theorem Stocked.overloadSet {id : OverloadId} (h : defs.Stocked id) :
    Yields False (defs.overloadSet id) fun set =>
      defs.overloads[id.index]? = some set ∧ set.toList ≠ [] := by
  obtain ⟨set, suffix, member, known, held⟩ := h
  rw [overloadSet_of_getElem? known]
  refine ⟨known, fun empty => ?_⟩
  have mem := OverloadSet.mem_toList.mpr held
  rw [empty] at mem
  cases mem

/-! ## Validity -/

/-- What holds of a table at any time. -/
structure Valid (defs : Definitions) : Prop where
  /-- A definition knows its own id -/
  ids : ∀ {id : DefId} {d : Definition}, defs.find? id = some d → d.id = id
  /-- An alias names an earlier definition -/
  targets : ∀ {id target : DefId} {d : Definition}, defs.find? id = some d →
    d.target = some target → target.index < id.index
  /-- A node is known by the definition that was declared at it -/
  nodes : ∀ {node : NodeId} {id : DefId}, defs.ofNode? node = some id →
    ∃ d, defs.find? id = some d ∧ d.node = node
  owners : ∀ {id : DefId} {m : ModuleId}, defs.module? id = some m → defs.Known id
  members : ∀ {i : Nat} {set : OverloadSet} {suffix : String} {id : DefId},
    defs.overloads[i]? = some set → set.get? suffix = some id → defs.Known id

namespace Valid

theorem empty : Valid .empty where
  ids h := by simp [Definitions.empty, find?] at h
  targets h := by simp [Definitions.empty, find?] at h
  nodes h := by simp [Definitions.empty, ofNode?] at h
  owners h := by simp [Definitions.empty, module?] at h
  members h := by simp [Definitions.empty] at h

theorem known_of_node (valid : defs.Valid) {node : NodeId} {id : DefId}
    (h : defs.ofNode? node = some id) : defs.Known id := by
  obtain ⟨d, found, -⟩ := valid.nodes h
  exact known_of_find? found

/-- No two nodes share a definition. -/
theorem node_injective (valid : defs.Valid) {node other : NodeId} {id : DefId}
    (h : defs.ofNode? node = some id) (h' : defs.ofNode? other = some id) : node = other := by
  obtain ⟨d, found, rfl⟩ := valid.nodes h
  obtain ⟨d', found', rfl⟩ := valid.nodes h'
  rw [found] at found'
  cases found'
  rfl

theorem overloadSpan (valid : defs.Valid) {set : OverloadId} (stocked : defs.Stocked set) :
    Yields False (defs.overloadSpan set) fun _ => True := by
  rw [Definitions.overloadSpan, Yields.bind_iff]
  apply stocked.overloadSet.mono
  intro members there
  obtain ⟨held, nonempty⟩ := there
  split
  · next empty => exact absurd empty nonempty
  · next suffix first others listed =>
    rw [Yields.bind_iff]
    have mem : (suffix, first) ∈ members.toList := by rw [listed]; simp
    have known : defs.Known first := valid.members held (OverloadSet.mem_toList.mp mem)
    exact known.get.mono fun _ _ => trivial

theorem known_of_mem (valid : defs.Valid) {i : Nat} {set : OverloadSet}
    (h : defs.overloads[i]? = some set) {suffix : String} {id : DefId}
    (mem : (suffix, id) ∈ set.toList) : defs.Known id :=
  valid.members h (OverloadSet.mem_toList.mp mem)

end Valid

/-! ## Aliases -/

/-- Each alias names a definition that comes before it. -/
structure Descends (defs : Definitions) : Prop where
  earlier : ∀ {id target : DefId} {d : Definition}, defs.find? id = some d →
    d.target = some target → target.index < id.index

theorem Valid.descends (valid : defs.Valid) : defs.Descends := ⟨valid.targets⟩

/-- Each target comes before its alias, so the way never leads back. -/
theorem Descends.followTargets (descends : defs.Descends) (steps : Nat) (passed : List DefId)
    (id : DefId) (known : defs.Known id) (enough : id.index ≤ steps)
    (later : ∀ link ∈ passed, id.index < link.index) :
    ∃ final, defs.followTargets steps passed id = .ok final ∧ defs.Known final := by
  induction steps generalizing passed id with
  | zero =>
    unfold Definitions.followTargets
    split
    · exact ⟨id, rfl, known⟩
    · next target named =>
      -- nothing comes before the first definition, so it has no target
      obtain ⟨d, found, target_eq⟩ := Option.bind_eq_some_iff.mp named
      have earlier := descends.earlier found target_eq
      omega
  | succ steps ih =>
    unfold Definitions.followTargets
    split
    · exact ⟨id, rfl, known⟩
    · next target named =>
      obtain ⟨d, found, target_eq⟩ := Option.bind_eq_some_iff.mp named
      have earlier := descends.earlier found target_eq
      -- what has been passed comes later, so the way has not been here before
      have fresh : id ∉ passed := fun mem => Nat.lt_irrefl _ (later id mem)
      rw [if_neg fresh]
      refine ih (passed ++ [id]) target (Nat.lt_trans earlier known) (by omega) ?_
      intro link mem
      rcases List.mem_append.mp mem with mem | mem
      · exact Nat.lt_trans earlier (later link mem)
      · rw [List.mem_singleton.mp mem]
        exact earlier

/-- Every alias leads to a definition in the end. -/
theorem Descends.resolveAlias (descends : defs.Descends) {id : DefId} (known : defs.Known id) :
    ∃ final, defs.resolveAlias id = .ok final ∧ defs.Known final :=
  descends.followTargets defs.size [] id known (Nat.le_of_lt known) (by simp)

theorem Valid.resolveAlias (valid : defs.Valid) {id : DefId} (known : defs.Known id) :
    ∃ final, defs.resolveAlias id = .ok final ∧ defs.Known final :=
  valid.descends.resolveAlias known

/-! ## Larger tables -/

/-- A later table: what was known before is known as it was. -/
structure Extends (defs defs' : Definitions) : Prop where
  size : defs.size ≤ defs'.size
  node : ∀ {node : NodeId} {id : DefId}, defs.ofNode? node = some id →
    defs'.ofNode? node = some id
  module : ∀ {id : DefId} {m : ModuleId}, defs.module? id = some m → defs'.module? id = some m
  block : ∀ {node : NodeId} {m : ModuleId}, defs.blockModule? node = some m →
    defs'.blockModule? node = some m
  stocked : ∀ {id : OverloadId}, defs.Stocked id → defs'.Stocked id

namespace Extends

theorem refl (defs : Definitions) : defs.Extends defs :=
  ⟨Nat.le_refl _, fun h => h, fun h => h, fun h => h, fun h => h⟩

theorem trans (h : defs.Extends defs') (h' : defs'.Extends defs'') : defs.Extends defs'' where
  size := Nat.le_trans h.size h'.size
  node known := h'.node (h.node known)
  module known := h'.module (h.module known)
  block known := h'.block (h.block known)
  stocked known := h'.stocked (h.stocked known)

theorem known (h : defs.Extends defs') {id : DefId} (known : defs.Known id) : defs'.Known id :=
  Nat.lt_of_lt_of_le known h.size

end Extends

/-- A later table without further declarations and modules: there may be more aliases, and more
    functions in sets. -/
structure Grows (defs defs' : Definitions) : Prop where
  size : defs.size ≤ defs'.size
  byNode : defs'.byNode = defs.byNode
  modules : defs'.modules = defs.modules
  blocks : defs'.blocks = defs.blocks
  stocked : ∀ {id : OverloadId}, defs.Stocked id → defs'.Stocked id

namespace Grows

theorem refl (defs : Definitions) : defs.Grows defs :=
  ⟨Nat.le_refl _, rfl, rfl, rfl, fun h => h⟩

theorem trans (h : defs.Grows defs') (h' : defs'.Grows defs'') : defs.Grows defs'' where
  size := Nat.le_trans h.size h'.size
  byNode := h'.byNode.trans h.byNode
  modules := h'.modules.trans h.modules
  blocks := h'.blocks.trans h.blocks
  stocked known := h'.stocked (h.stocked known)

theorem known (h : defs.Grows defs') {id : DefId} (known : defs.Known id) : defs'.Known id :=
  Nat.lt_of_lt_of_le known h.size

theorem ofNode? (h : defs.Grows defs') (node : NodeId) :
    defs'.ofNode? node = defs.ofNode? node := by
  rw [Definitions.ofNode?, h.byNode, Definitions.ofNode?]

theorem module? (h : defs.Grows defs') (id : DefId) : defs'.module? id = defs.module? id := by
  rw [Definitions.module?, h.modules, Definitions.module?]

theorem blockModule? (h : defs.Grows defs') (node : NodeId) :
    defs'.blockModule? node = defs.blockModule? node := by
  rw [Definitions.blockModule?, h.blocks, Definitions.blockModule?]

theorem toExtends (h : defs.Grows defs') : defs.Extends defs' where
  size := h.size
  node {node id} known := by rw [h.ofNode?]; exact known
  module {id m} known := by rw [h.module?]; exact known
  block {node m} known := by rw [h.blockModule?]; exact known
  stocked := h.stocked

end Grows

/-! ## New definitions -/

theorem known_nextId_push (isPub : Bool) (node : NodeId) (kind : DefKind) (ident : Ident)
    (target : Option DefId) : (defs.push isPub node kind ident target).Known defs.nextId := by
  simp [Known, nextId]

/-- Only one definition is new. -/
theorem eq_nextId_of_known_push {isPub : Bool} {node : NodeId} {kind : DefKind} {ident : Ident}
    {target : Option DefId} {id : DefId}
    (known : (defs.push isPub node kind ident target).Known id) (new : ¬ defs.Known id) :
    id = defs.nextId := by
  unfold Known at known new
  rw [size_push] at known
  have index : id.index = defs.size := by omega
  cases id
  cases index
  rfl

theorem find?_push (defs : Definitions) (isPub : Bool) (node : NodeId) (kind : DefKind)
    (ident : Ident) (target : Option DefId) (id : DefId) :
    (defs.push isPub node kind ident target).find? id =
      if id = defs.nextId then some ⟨defs.nextId, kind, ident, isPub, node, target⟩
      else defs.find? id := by
  have same : id = defs.nextId ↔ id.index = defs.entries.size := by
    cases id
    simp [nextId, size]
  simp only [find?, push, Array.getElem?_push, same]

/-- The tables by node, by definition and of functions stay as they are. -/
theorem Valid.push (valid : defs.Valid) (isPub : Bool) (node : NodeId) (kind : DefKind)
    (ident : Ident) (target : Option DefId) (known : ∀ t, target = some t → defs.Known t) :
    (defs.push isPub node kind ident target).Valid where
  ids {id d} h := by
    rw [find?_push] at h
    split at h
    · next same => cases h; exact same.symm
    · exact valid.ids h
  targets {id t d} h named := by
    rw [find?_push] at h
    split at h
    · next same => cases h; rw [same]; exact known t named
    · exact valid.targets h named
  nodes {node id} h := by
    obtain ⟨d, found, eq⟩ := valid.nodes h
    refine ⟨d, ?_, eq⟩
    rw [find?_push_of_lt _ (known_of_find? found)]
    exact found
  owners h := by
    have lt := valid.owners h
    unfold Known at *
    rw [size_push]
    exact Nat.lt_succ_of_lt lt
  members h held := by
    have lt := valid.members h held
    unfold Known at *
    rw [size_push]
    exact Nat.lt_succ_of_lt lt

theorem grows_push (isPub : Bool) (node : NodeId) (kind : DefKind) (ident : Ident)
    (target : Option DefId) : defs.Grows (defs.push isPub node kind ident target) :=
  ⟨by simp, rfl, rfl, rfl, fun h => h⟩

/-- The table with a declaration at a node. -/
def declared (defs : Definitions) (isPub : Bool) (node : NodeId) (kind : DefKind) (ident : Ident) :
    Definitions :=
  { defs.push isPub node kind ident none with byNode := defs.byNode.insert node defs.nextId }

theorem define_eq {isPub : Bool} {node : NodeId} {kind : DefKind} {ident : Ident}
    (notAlias : kind ≠ .importAlias) (free : defs.ofNode? node = none) :
    defs.define isPub node kind ident =
      .ok (defs.nextId, defs.declared isPub node kind ident) := by
  rw [define, if_neg notAlias, free]
  rfl

/-- Only what is no alias can be defined, and only at a node without a definition. -/
theorem define_eq_ok {isPub : Bool} {node : NodeId} {kind : DefKind} {ident : Ident}
    {r : DefId × Definitions} : defs.define isPub node kind ident = .ok r ↔
      kind ≠ .importAlias ∧ defs.ofNode? node = none ∧
        r = (defs.nextId, defs.declared isPub node kind ident) := by
  constructor
  · intro made
    unfold define at made
    split at made
    · cases made
    · next notAlias =>
      split at made
      · cases made
      · next free =>
        cases made
        exact ⟨notAlias, free, rfl⟩
  · rintro ⟨notAlias, free, rfl⟩
    exact define_eq notAlias free

theorem defineAlias_eq {isPub : Bool} {node : NodeId} {ident : Ident} {target : DefId}
    (known : defs.Known target) :
    defs.defineAlias isPub node ident target =
      .ok (defs.nextId, defs.push isPub node .importAlias ident (some target)) := by
  obtain ⟨d, found⟩ := known.find?
  rw [defineAlias, get_of_find? found]
  rfl

/-- An alias can be made of whatever is there. -/
theorem defineAlias_eq_ok {isPub : Bool} {node : NodeId} {ident : Ident} {target : DefId}
    {r : DefId × Definitions} : defs.defineAlias isPub node ident target = .ok r ↔
      defs.Known target ∧
        r = (defs.nextId, defs.push isPub node .importAlias ident (some target)) := by
  constructor
  · intro made
    obtain ⟨d, got, last⟩ := Except.bind_eq_ok.mp made
    cases last
    exact ⟨known_of_find? (find?_of_get got), rfl⟩
  · rintro ⟨known, rfl⟩
    exact defineAlias_eq known

section

variable {isPub : Bool} {node : NodeId} {kind : DefKind} {ident : Ident}

@[simp] theorem find?_declared_nextId : (defs.declared isPub node kind ident).find? defs.nextId =
    some ⟨defs.nextId, kind, ident, isPub, node, none⟩ :=
  find?_push_self defs isPub node kind ident none

@[simp] theorem module?_declared (id : DefId) :
    (defs.declared isPub node kind ident).module? id = defs.module? id := rfl

@[simp] theorem ofNode?_declared_self :
    (defs.declared isPub node kind ident).ofNode? node = some defs.nextId := by
  simp [declared, ofNode?]

theorem ofNode?_declared_of_ne {other : NodeId} (h : other ≠ node) :
    (defs.declared isPub node kind ident).ofNode? other = defs.ofNode? other := by
  simp [declared, ofNode?, Std.TreeMap.getElem?_insert, h.symm]

theorem known_nextId_declared : (defs.declared isPub node kind ident).Known defs.nextId :=
  known_of_find? find?_declared_nextId

theorem Valid.declared (valid : defs.Valid) : (defs.declared isPub node kind ident).Valid := by
  have pushed := valid.push isPub node kind ident none (by simp)
  refine ⟨pushed.ids, pushed.targets, ?_, pushed.owners, pushed.members⟩
  intro other id h
  by_cases same : other = node
  · subst same
    rw [ofNode?_declared_self] at h
    cases h
    exact ⟨_, find?_declared_nextId, rfl⟩
  · rw [ofNode?_declared_of_ne same] at h
    exact pushed.nodes h

theorem extends_declared (free : defs.ofNode? node = none) :
    defs.Extends (defs.declared isPub node kind ident) where
  size := (grows_push isPub node kind ident none).size
  node {other id} h := by
    have ne : other ≠ node := by
      rintro rfl
      rw [free] at h
      cases h
    rw [ofNode?_declared_of_ne ne]
    exact h
  module h := h
  block h := h
  stocked h := h

end

/-! ## Functions -/

theorem getElem?_newOverloads (i : Nat) :
    (defs.newOverloads.2).overloads[i]? =
      if i = defs.overloads.size then some .empty else defs.overloads[i]? := by
  simp [newOverloads, Array.getElem?_push]

theorem Valid.newOverloads (valid : defs.Valid) : defs.newOverloads.2.Valid := by
  refine ⟨valid.ids, valid.targets, valid.nodes, valid.owners, ?_⟩
  intro i set suffix id h held
  rw [getElem?_newOverloads] at h
  split at h
  · cases h
    simp at held
  · exact valid.members h held

theorem grows_newOverloads : defs.Grows defs.newOverloads.2 := by
  refine ⟨Nat.le_refl _, rfl, rfl, rfl, ?_⟩
  rintro id ⟨set, suffix, member, known, held⟩
  refine ⟨set, suffix, member, ?_, held⟩
  obtain ⟨lt, -⟩ := Array.getElem?_eq_some_iff.mp known
  rw [getElem?_newOverloads, if_neg (Nat.ne_of_lt lt)]
  exact known

section

variable {into : OverloadId} {suffix : String} {member : DefId}

theorem getElem?_insertOverload (i : Nat) :
    (defs.insertOverload into suffix member).overloads[i]? =
      if into.index = i then (defs.overloads[i]?).map (·.insert suffix member)
      else defs.overloads[i]? := by
  simp [insertOverload, Array.getElem?_modify]

theorem Valid.insertOverload (valid : defs.Valid) (known : defs.Known member) :
    (defs.insertOverload into suffix member).Valid := by
  refine ⟨valid.ids, valid.targets, valid.nodes, valid.owners, ?_⟩
  intro i set suffix' id h held
  rw [getElem?_insertOverload] at h
  split at h
  · obtain ⟨old, before, rfl⟩ := Option.map_eq_some_iff.mp h
    by_cases same : suffix = suffix'
    · subst same
      rw [OverloadSet.get?_insert_self] at held
      cases held
      exact known
    · rw [OverloadSet.get?_insert_of_ne _ same] at held
      exact valid.members before held
  · exact valid.members h held

/-- The set that has received a function holds one. -/
theorem stocked_insertOverload {set : OverloadSet}
    (known : defs.overloads[into.index]? = some set) :
    (defs.insertOverload into suffix member).Stocked into := by
  refine ⟨set.insert suffix member, suffix, member, ?_, OverloadSet.get?_insert_self ..⟩
  rw [getElem?_insertOverload, if_pos rfl, known]
  rfl

theorem grows_insertOverload : defs.Grows (defs.insertOverload into suffix member) := by
  refine ⟨Nat.le_refl _, rfl, rfl, rfl, ?_⟩
  rintro id ⟨set, suffix', member', known, held⟩
  -- no function is taken out of a set, so what is stocked stays so
  by_cases same : into = id
  · subst same
    exact stocked_insertOverload known
  · refine ⟨set, suffix', member', ?_, held⟩
    have ne : into.index ≠ id.index := fun eq => same (by cases into; cases id; cases eq; rfl)
    rw [getElem?_insertOverload, if_neg ne]
    exact known

end

/-- The set that is open for new members is there. A fresh one is empty. -/
theorem getElem?_overloadsOrNew {set : Option OverloadId}
    (known : ∀ id, set = some id → defs.Stocked id) :
    ∃ members, (defs.overloadsOrNew set).2.overloads[(defs.overloadsOrNew set).1.index]? =
      some members ∧ (set = none → members = .empty) := by
  cases set with
  | none =>
    refine ⟨.empty, ?_, fun _ => rfl⟩
    exact (getElem?_newOverloads _).trans (if_pos rfl)
  | some id =>
    obtain ⟨members, suffix, member, held, -⟩ := known id rfl
    exact ⟨members, held, by simp⟩

/-- The sets that are there stay as they are. -/
theorem getElem?_overloadsOrNew_of_some {set : Option OverloadId} {i : Nat} {members : OverloadSet}
    (h : defs.overloads[i]? = some members) :
    (defs.overloadsOrNew set).2.overloads[i]? = some members := by
  cases set with
  | some id => exact h
  | none =>
    have lt : i < defs.overloads.size := (Array.getElem?_eq_some_iff.mp h).1
    show defs.newOverloads.2.overloads[i]? = some members
    rw [getElem?_newOverloads, if_neg (Nat.ne_of_lt lt), h]

theorem Valid.overloadsOrNew (valid : defs.Valid) (set : Option OverloadId) :
    (defs.overloadsOrNew set).2.Valid := by
  cases set with
  | none => exact valid.newOverloads
  | some id => exact valid

theorem grows_overloadsOrNew (set : Option OverloadId) :
    defs.Grows (defs.overloadsOrNew set).2 := by
  cases set with
  | none => exact grows_newOverloads
  | some id => exact .refl _

/-- To add a function to a set takes nothing away. -/
theorem grows_of_addFunction {id : DefId} {set : Option OverloadId} {suffix : String}
    {r : Added × Definitions} (made : defs.addFunction id set suffix = .ok r) :
    defs.Grows r.2 := by
  have opened : defs.Grows (defs.overloadsOrNew set).2 := grows_overloadsOrNew set
  have grows : Yields True (defs.addFunction id set suffix) fun r => defs.Grows r.2 := by
    unfold addFunction
    simp only [Yields.bind_iff]
    refine Yields.trivial_of_true fun d => ?_
    split
    · rw [Yields.bind_iff]
      refine Yields.trivial_of_true fun members => ?_
      split
      · exact opened
      · exact opened.trans grows_insertOverload
    · trivial
  exact Yields.true_iff.mp grows r made

/-! ## Modules -/

section

variable {id : DefId} {m : ModuleId}

/-- The table with the module of a definition. -/
def withModule (defs : Definitions) (id : DefId) (m : ModuleId) : Definitions :=
  { defs with modules := defs.modules.insert id m }

theorem addModule_eq (free : defs.module? id = none) :
    defs.addModule id m = .ok (defs.withModule id m) := by
  rw [addModule, free]
  rfl

theorem addModule_eq_ok :
    defs.addModule id m = .ok defs' ↔ defs.module? id = none ∧ defs' = defs.withModule id m := by
  constructor
  · intro made
    unfold addModule at made
    split at made
    · cases made
    · next free =>
      cases made
      exact ⟨free, rfl⟩
  · rintro ⟨free, rfl⟩
    exact addModule_eq free

@[simp] theorem module?_withModule_self : (defs.withModule id m).module? id = some m := by
  simp [withModule, module?]

theorem module?_withModule_of_ne {other : DefId} (h : other ≠ id) :
    (defs.withModule id m).module? other = defs.module? other := by
  simp [withModule, module?, Std.TreeMap.getElem?_insert, h.symm]

theorem Valid.withModule (valid : defs.Valid) (known : defs.Known id) :
    (defs.withModule id m).Valid := by
  refine ⟨valid.ids, valid.targets, valid.nodes, ?_, valid.members⟩
  intro other m' h
  by_cases same : other = id
  · rw [same]
    exact known
  · rw [module?_withModule_of_ne same] at h
    exact valid.owners h

theorem extends_withModule (free : defs.module? id = none) :
    defs.Extends (defs.withModule id m) where
  size := Nat.le_refl _
  node h := h
  module {other m'} h := by
    have ne : other ≠ id := by
      rintro rfl
      rw [free] at h
      cases h
    rw [module?_withModule_of_ne ne]
    exact h
  block h := h
  stocked h := h

end

section

variable {node : NodeId} {m : ModuleId}

/-- The table with the module of a block. -/
def withBlock (defs : Definitions) (node : NodeId) (m : ModuleId) : Definitions :=
  { defs with blocks := defs.blocks.insert node m }

theorem addBlock_eq (free : defs.blockModule? node = none) :
    defs.addBlock node m = .ok (defs.withBlock node m) := by
  rw [addBlock, free]
  rfl

theorem addBlock_eq_ok :
    defs.addBlock node m = .ok defs' ↔
      defs.blockModule? node = none ∧ defs' = defs.withBlock node m := by
  constructor
  · intro made
    unfold addBlock at made
    split at made
    · cases made
    · next free =>
      cases made
      exact ⟨free, rfl⟩
  · rintro ⟨free, rfl⟩
    exact addBlock_eq free

@[simp] theorem blockModule?_withBlock_self :
    (defs.withBlock node m).blockModule? node = some m := by
  simp [withBlock, blockModule?]

theorem blockModule?_withBlock_of_ne {other : NodeId} (h : other ≠ node) :
    (defs.withBlock node m).blockModule? other = defs.blockModule? other := by
  simp [withBlock, blockModule?, Std.TreeMap.getElem?_insert, h.symm]

theorem Valid.withBlock (valid : defs.Valid) : (defs.withBlock node m).Valid :=
  ⟨valid.ids, valid.targets, valid.nodes, valid.owners, valid.members⟩

theorem extends_withBlock (free : defs.blockModule? node = none) :
    defs.Extends (defs.withBlock node m) where
  size := Nat.le_refl _
  node h := h
  module h := h
  block {other m'} h := by
    have ne : other ≠ node := by
      rintro rfl
      rw [free] at h
      cases h
    rw [blockModule?_withBlock_of_ne ne]
    exact h
  stocked h := h

end

end Definitions

end NameResolution

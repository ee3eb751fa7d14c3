import NameResolution.Proofs.Declaration.Outcome
import NameResolution.Proofs.Tables.Intact
import NameResolution.Proofs.Text.Occurrence

/-! # Steps of the first pass

    Each step finds the tables in order and leaves them so, and does something
    about its own node only. No step ends with a fault as long as its node has
    not come up before. -/

namespace NameResolution

/-- The module of an owner. -/
def Definitions.moduleOf (defs : Definitions) : RegionOwner → Option ModuleId
  | .none => none
  | .item node => (defs.ofNode? node).bind defs.module?
  | .block node => defs.blockModule? node

theorem Definitions.Extends.moduleOf {defs defs' : Definitions} (h : defs.Extends defs')
    {owner : RegionOwner} {m : ModuleId} (held : defs.moduleOf owner = some m) :
    defs'.moduleOf owner = some m := by
  cases owner with
  | none => cases held
  | item node =>
    obtain ⟨id, ofNode, module⟩ := Option.bind_eq_some_iff.mp held
    rw [Definitions.moduleOf, h.node ofNode]
    exact h.module module
  | block node => exact h.block held

namespace Declaring

variable {s s' s'' : DeclareState} {log : Log}

/-! ## Before and after a step -/

/-- The first pass is in order at any time. -/
structure Ready (s : DeclareState) : Prop where
  intact : Intact s.defs s.tree
  current : s.tree.Known s.current
  directives : ∀ d ∈ s.directives, s.tree.Known d.module

/-- A node that has not come up yet. -/
structure Fresh (s : DeclareState) (node : NodeId) : Prop where
  ofNode? : s.defs.ofNode? node = none
  blockModule? : s.defs.blockModule? node = none
  free : s.tree.Free node

/-- A node that nothing has been done about. -/
structure Unchanged (node : NodeId) (s s' : DeclareState) : Prop where
  ofNode? : s'.defs.ofNode? node = s.defs.ofNode? node
  module? : ∀ {id : DefId}, s.defs.ofNode? node = some id →
    s'.defs.module? id = s.defs.module? id
  blockModule? : s'.defs.blockModule? node = s.defs.blockModule? node
  free : s.tree.Free node → s'.tree.Free node

namespace Unchanged

variable {node : NodeId}

theorem refl (node : NodeId) (s : DeclareState) : Unchanged node s s := ⟨rfl, fun _ => rfl, rfl, id⟩

theorem trans (h : Unchanged node s s') (h' : Unchanged node s' s'') : Unchanged node s s'' where
  ofNode? := h'.ofNode?.trans h.ofNode?
  module? {id} known := by
    rw [h'.module? (h.ofNode?.trans known), h.module? known]
  blockModule? := h'.blockModule?.trans h.blockModule?
  free isFree := h'.free (h.free isFree)

theorem fresh (h : Unchanged node s s') (fresh : Fresh s node) : Fresh s' node where
  ofNode? := h.ofNode?.trans fresh.ofNode?
  blockModule? := h.blockModule?.trans fresh.blockModule?
  free := h.free fresh.free

end Unchanged

/-- What a part of the first pass has done about some nodes. -/
structure Progress (nodes : List NodeId) (s s' : DeclareState) : Prop where
  ready : Ready s'
  defs : s.defs.Extends s'.defs
  tree : s.tree.Extends s'.tree
  others : ∀ node, node ∉ nodes → Unchanged node s s'

namespace Progress

variable {nodes nodes' : List NodeId}

theorem refl (ready : Ready s) : Progress nodes s s :=
  ⟨ready, .refl _, .refl _, fun node _ => .refl node s⟩

theorem trans (h : Progress nodes s s') (h' : Progress nodes' s' s'') :
    Progress (nodes ++ nodes') s s'' where
  ready := h'.ready
  defs := h.defs.trans h'.defs
  tree := h.tree.trans h'.tree
  others node other := (h.others node fun mem => other (by simp [mem])).trans
    (h'.others node fun mem => other (by simp [mem]))

/-- Further work on the same nodes. -/
theorem and (h : Progress nodes s s') (h' : Progress nodes s' s'') : Progress nodes s s'' where
  ready := h'.ready
  defs := h.defs.trans h'.defs
  tree := h.tree.trans h'.tree
  others node other := (h.others node other).trans (h'.others node other)

theorem mono (h : Progress nodes s s') (sub : nodes ⊆ nodes') : Progress nodes' s s' :=
  ⟨h.ready, h.defs, h.tree, fun node other => h.others node fun mem => other (sub mem)⟩

/-- A change of what no later step looks at. -/
theorem of_tables (ready : Ready s') (defs : s'.defs = s.defs) (tree : s'.tree = s.tree) :
    Progress nodes s s' := by
  refine ⟨ready, ?_, ?_, fun node _ => ?_⟩
  · rw [defs]
    exact .refl _
  · rw [tree]
    exact .refl _
  · refine ⟨by rw [defs], fun _ => by rw [defs], by rw [defs], fun isFree => ?_⟩
    rw [tree]
    exact isFree

/-- The definitions have only gained members of sets. -/
theorem of_grows (ready : Ready s) {defs : Definitions} (grows : s.defs.Grows defs)
    (valid : defs.Valid) : Progress nodes s { s with defs } where
  ready := ⟨ready.intact.grow grows valid, ready.current, ready.directives⟩
  defs := grows.toExtends
  tree := .refl _
  others node _ := ⟨grows.ofNode? node, fun _ => grows.module? _, grows.blockModule? node, id⟩

end Progress

/-! ## Defining and binding -/

/-- A definition that has just been made at a node, and owns no module yet. -/
structure Defined (node : NodeId) (id : DefId) (s : DeclareState) : Prop where
  ofNode? : s.defs.ofNode? node = some id
  module? : s.defs.module? id = none
  known : s.defs.Known id

theorem Defined.of_eq {node : NodeId} {id : DefId} (h : Defined node id s)
    (defs : s'.defs = s.defs) : Defined node id s' := by
  refine ⟨?_, ?_, ?_⟩
  · rw [defs, h.ofNode?]
  · rw [defs, h.module?]
  · rw [defs]
    exact h.known

/-- What a declaration comes to: its node has a definition, and no module has been added. -/
structure Declared (node : NodeId) (id : DefId) (s s' : DeclareState) : Prop where
  progress : Progress [node] s s'
  current : s'.current = s.current
  defined : Defined node id s'
  free : s.tree.Free node → s'.tree.Free node

/-- What is done about no node leaves a declaration as it is. -/
theorem Declared.and {node : NodeId} {id : DefId} (h : Declared node id s s')
    (more : Progress [] s' s'') (current : s''.current = s'.current)
    (defined : Defined node id s'') : Declared node id s s'' where
  progress := h.progress.trans more
  current := current.trans h.current
  defined := defined
  free isFree := (more.others node List.not_mem_nil).free (h.free isFree)

theorem run_define (ready : Ready s) {isPub : Bool} {node : NodeId} {kind : DefKind}
    {ident : Ident} (notAlias : kind ≠ .importAlias) (free : s.defs.ofNode? node = none) :
    Run False (define isPub node kind ident) s log fun id s' _ =>
      Declared node id s s' ∧ s'.tree = s.tree ∧
        ∃ d, s'.defs.find? id = some d ∧ d.kind = kind := by
  simp only [define, lift, Run.bind_iff, Run.get_iff, Run.emit_iff, Run.lift_iff,
    Definitions.define_eq notAlias free, Yields.ok_iff, run_setDefs_iff, Run.pure_iff]
  -- only ids that have been handed out own a module
  have noModule : s.defs.module? s.defs.nextId = none := by
    apply Option.eq_none_iff_forall_ne_some.mpr
    intro m held
    exact Nat.lt_irrefl _ (ready.intact.validDefs.owners held)
  refine ⟨⟨⟨⟨ready.intact.declared free, ready.current, ready.directives⟩,
    Definitions.extends_declared free, .refl _, fun other ne => ?_⟩, rfl, ?_, id⟩, trivial,
    _, Definitions.find?_declared_nextId, rfl⟩
  · exact ⟨Definitions.ofNode?_declared_of_ne (by simpa using ne), fun _ => rfl, rfl, id⟩
  · exact ⟨Definitions.ofNode?_declared_self, noModule, Definitions.known_nextId_declared⟩

theorem run_reportTaken (ready : Ready s) {name : String} {span : Span} {ns : Namespace}
    {first : Binding} (good : first.Good s.defs ns) :
    Run False (reportTaken name span first) s log fun _ s' _ =>
      Progress [] s s' ∧ s'.defs = s.defs ∧ s'.tree = s.tree ∧ s'.current = s.current := by
  simp only [reportTaken, report, lift, Run.bind_iff, Run.get_iff, Run.lift_iff, Run.modify_iff]
  apply (ready.intact.redefinition name span good).mono
  intro d _
  exact ⟨.of_tables ⟨ready.intact, ready.current, ready.directives⟩ rfl rfl, trivial, trivial,
    trivial⟩

/-- A declaration stays made when its name is reported. -/
theorem Declared.run_reportTaken {node : NodeId} {id : DefId} (declared : Declared node id s s')
    {name : String} {span : Span} {ns : Namespace} {first : Binding}
    (good : first.Good s'.defs ns) :
    Run False (reportTaken name span first) s' log fun _ s'' _ => Declared node id s s'' := by
  apply (Declaring.run_reportTaken declared.progress.ready good).mono
  intro _ s₁ log₁ ended
  obtain ⟨reported, defs, _, current⟩ := ended
  exact declared.and reported current (declared.defined.of_eq defs)

/-- Whether lifetimes may be bound in the current module. -/
def TakesLifetimes (s : DeclareState) : Prop :=
  ∀ m, s.tree.find? s.current = some m → m.owner.isBlock = false

theorem run_bind (ready : Ready s) {ns : Namespace} {name : String} {binding : Binding}
    (good : binding.Good s.defs ns) (allowed : ns = .lifetime → TakesLifetimes s) :
    Run False (bind ns name binding) s log fun first s' _ =>
      Progress [] s s' ∧ s'.defs = s.defs ∧ s'.current = s.current ∧
        first = s.tree.bindingAt? s.current ns name := by
  obtain ⟨m, found⟩ := ready.current.find?
  have refused : ¬ (ns = .lifetime ∧ m.owner.isBlock) := by
    rintro ⟨lifetime, block⟩
    rw [allowed lifetime m found] at block
    cases block
  simp only [bind, lift, Run.bind_iff, Run.get_iff, Run.lift_iff, ModuleTree.yields_bind,
    ModuleTree.get_of_find? found, Yields.ok_iff, if_neg refused]
  rw [ModuleTree.bindingAt?_of_find? found]
  split
  · next first bound => exact ⟨.refl ready, rfl, rfl, bound.symm⟩
  · next isFree =>
    simp only [run_setTree_iff, Run.pure_iff]
    have grows : s.tree.Grows (s.tree.modify s.current (·.bind ns name binding)) :=
      ModuleTree.grows_bind
    refine ⟨⟨⟨ready.intact.bind good, grows.known_iff.mpr ready.current, ?_⟩, .refl _,
      grows.toExtends, fun node _ => ⟨rfl, fun _ => rfl, rfl, fun isFree => ?_⟩⟩, trivial, trivial,
      isFree.symm⟩
    · exact fun d mem => grows.known_iff.mpr (ready.directives d mem)
    · intro id m' found'
      obtain ⟨m₀, names, found₀, rfl⟩ := grows.module_of found'
      exact isFree (m := m₀) found₀

theorem run_declare (ready : Ready s) {isPub : Bool} {node : NodeId} {kind : DefKind}
    {ident : Ident} {ns : Namespace} (hns : kind.namespace? = some ns)
    (allowed : ns = .lifetime → TakesLifetimes s) (free : s.defs.ofNode? node = none) :
    Run False (declare isPub node kind ident) s log fun id s' _ => Declared node id s s' := by
  have notAlias : kind ≠ .importAlias := by
    rintro rfl
    cases hns
  simp only [declare, Run.bind_iff]
  apply (run_define ready notAlias free).mono
  intro id s₁ log₁ ended
  obtain ⟨made, tree, _⟩ := ended
  rw [hns]
  simp only [Run.bind_iff]
  -- the definition has not changed the current module, so the name may still be bound there
  have allowed₁ : ns = .lifetime → TakesLifetimes s₁ := by
    intro lifetime
    rw [TakesLifetimes, tree, made.current]
    exact allowed lifetime
  have good₁ : Binding.Good s₁.defs ns (.definition id) := made.defined.known
  apply (run_bind made.progress.ready good₁ allowed₁).mono
  intro first s₂ log₂ ended
  obtain ⟨bound, defs₂, current₂, first_eq⟩ := ended
  have declared := made.and bound current₂ (made.defined.of_eq defs₂)
  cases first with
  | some first =>
    have good : first.Good s₂.defs ns := by
      rw [defs₂]
      exact made.progress.ready.intact.bindings first_eq.symm
    simp only [Run.bind_iff, Run.pure_iff]
    exact declared.run_reportTaken good
  | none => exact declared

/-! ## Functions -/

/-- A function joins a set, unless its suffix is taken by a known one. A fresh set takes it. -/
theorem yields_addFunction {defs : Definitions} (valid : defs.Valid) {id : DefId} {d : Definition}
    (found : defs.find? id = some d) (callable : d.kind.isCallable)
    {set : Option OverloadId} (stocked : ∀ into, set = some into → defs.Stocked into)
    (suffix : String) :
    Yields False (defs.addFunction id set suffix) fun r =>
      r.2.Valid ∧ defs.Grows r.2 ∧ r.2.Known id ∧
        match r.1 with
        | .added into => r.2.Stocked into
        | .taken first => r.2.Known first ∧ set ≠ none := by
  have known := Definitions.known_of_find? found
  obtain ⟨members, held, empty⟩ := Definitions.getElem?_overloadsOrNew stocked
  have valid' := valid.overloadsOrNew set
  have grows : defs.Grows (defs.overloadsOrNew set).2 := Definitions.grows_overloadsOrNew set
  rcases opened : defs.overloadsOrNew set with ⟨into, defs'⟩
  rw [opened] at held valid' grows
  simp only [Definitions.addFunction, Definitions.get_of_find? found, callable, opened,
    Definitions.overloadSet_of_getElem? held, Yields.bind_iff, Yields.ok_iff, if_true]
  split
  · next first taken =>
    refine ⟨valid', grows, grows.known known, valid'.members held taken, ?_⟩
    -- a fresh set holds no suffix that could be taken
    rintro rfl
    rw [empty rfl, OverloadSet.get?_empty] at taken
    cases taken
  · have grows' : defs'.Grows (defs'.insertOverload into suffix id) :=
      Definitions.grows_insertOverload
    exact ⟨valid'.insertOverload (grows.known known), grows.trans grows',
      (grows.trans grows').known known, Definitions.stocked_insertOverload held⟩

theorem run_addFunction (ready : Ready s) {node : NodeId} {id : DefId}
    (defined : Defined node id s) {d : Definition} (found : s.defs.find? id = some d)
    (callable : d.kind.isCallable) {set : Option OverloadId}
    (stocked : ∀ into, set = some into → s.defs.Stocked into) (suffix : String) :
    Run False (addFunction id set suffix) s log fun added s' _ =>
      Progress [] s s' ∧ s'.tree = s.tree ∧ s'.current = s.current ∧ Defined node id s' ∧
        match added with
        | .added into => s'.defs.Stocked into
        | .taken first => s'.defs.Known first ∧ set ≠ none := by
  simp only [addFunction, lift, Run.bind_iff, Run.get_iff, Run.lift_iff, run_setDefs_iff,
    Run.pure_iff]
  apply (yields_addFunction ready.intact.validDefs found callable stocked suffix).mono
  intro r ended
  obtain ⟨valid, grows, known, outcome⟩ := ended
  refine ⟨.of_grows ready grows valid, trivial, trivial, ⟨?_, ?_, known⟩, outcome⟩
  · rw [grows.ofNode?]
    exact defined.ofNode?
  · rw [grows.module?]
    exact defined.module?

/-- The kind of a function's definition. -/
theorem isCallable_of_funcKind (kind : FuncKind) :
    (match kind with | .func => DefKind.func | .init => DefKind.init).isCallable := by
  cases kind <;> rfl

theorem ne_importAlias_of_funcKind (kind : FuncKind) :
    (match kind with | .func => DefKind.func | .init => DefKind.init) ≠ .importAlias := by
  cases kind <;> decide

/-- A function whose name has a set already. -/
theorem Declared.run_joinSet {node : NodeId} {id : DefId} (made : Declared node id s s')
    {d : Definition} (found : s'.defs.find? id = some d) (callable : d.kind.isCallable)
    {set : OverloadId} (stocked : s'.defs.Stocked set) {suffix text : String} {span : Span} :
    Run False (do
      match ← addFunction id (some set) suffix with
      | .added _ => return (id, true)
      | .taken first => do
        reportTaken text span (.definition first)
        return (id, false)) s' log fun r s'' _ => Declared node r.1 s s'' := by
  have all_stocked : ∀ into, some set = some into → s'.defs.Stocked into := by
    rintro _ ⟨⟩
    exact stocked
  rw [Run.bind_iff]
  apply (run_addFunction made.progress.ready made.defined found callable all_stocked suffix).mono
  intro added s₁ log₁ ended
  obtain ⟨joined, -, current, defined, outcome⟩ := ended
  have declared := made.and joined current defined
  cases added with
  | added into => exact declared
  | taken first =>
    have good : Binding.Good s₁.defs .value (.definition first) := outcome.1
    simp only [Run.bind_iff, Run.pure_iff]
    exact declared.run_reportTaken good

/-- A function whose name is free gets a set of its own. -/
theorem Declared.run_openSet {node : NodeId} {id : DefId} (made : Declared node id s s')
    {d : Definition} (found : s'.defs.find? id = some d) (callable : d.kind.isCallable)
    {name : String} (isFree : s'.tree.bindingAt? s'.current .value name = none)
    {suffix text : String} :
    Run False (do
      match ← addFunction id none suffix with
      | .taken _ => lift (.error (.freshOverloadsTaken text))
      | .added set => do
        if (← bind .value name (.overloads set)).isSome then
          lift (.error (.bindingAppeared name))
        return (id, true)) s' log fun r s'' _ => Declared node r.1 s s'' := by
  have stocked : ∀ into, none = some into → s'.defs.Stocked into := by
    intro into eq
    cases eq
  rw [Run.bind_iff]
  apply (run_addFunction made.progress.ready made.defined found callable stocked suffix).mono
  intro added s₁ log₁ ended
  obtain ⟨joined, tree, current, defined, outcome⟩ := ended
  cases added with
  | taken first =>
    -- a set that has just been made has no member yet
    exact absurd rfl outcome.2
  | added set =>
    have good : Binding.Good s₁.defs .value (.overloads set) := ⟨outcome, rfl⟩
    have notLifetime : Namespace.value = .lifetime → TakesLifetimes s₁ := by
      intro eq
      cases eq
    rw [Run.bind_iff]
    apply (run_bind joined.ready good notLifetime).mono
    intro first s₂ log₂ ended
    obtain ⟨bound, defs₂, current₂, first_eq⟩ := ended
    -- making the set has bound nothing, so the name is still free
    have noFirst : first = none := by
      rw [first_eq, tree, current]
      exact isFree
    subst noFirst
    exact (made.and joined current defined).and bound current₂ (defined.of_eq defs₂)

theorem run_declareFunc (ready : Ready s) {isPub : Bool} {node : NodeId} {kind : FuncKind}
    {ident : Ident} {suffix : String} (free : s.defs.ofNode? node = none) :
    Run False (declareFunc isPub node kind ident suffix) s log fun r s' _ =>
      Declared node r.1 s s' := by
  have notAlias := ne_importAlias_of_funcKind kind
  simp only [declareFunc, Run.bind_iff, Run.get_iff, lift, Run.lift_iff]
  apply (run_define ready notAlias free).mono
  intro id s₁ log₁ ended
  obtain ⟨made, tree, d, found, isKind⟩ := ended
  have ready₁ := made.progress.ready
  have callable : d.kind.isCallable := by
    rw [isKind]
    exact isCallable_of_funcKind kind
  apply ready₁.current.get.mono
  intro m foundModule
  split
  · next set bound =>
    have good := ready₁.intact.good foundModule bound
    exact made.run_joinSet found callable good.1
  · next first _ bound =>
    have good := ready₁.intact.good foundModule bound
    simp only [Run.bind_iff, Run.pure_iff]
    exact made.run_reportTaken good
  · next isFree =>
    rw [← ModuleTree.bindingAt?_of_find? foundModule] at isFree
    exact made.run_openSet found callable isFree

/-! ## Entering and leaving -/

/-- A module that has just been entered from another one. -/
structure Entered (owner : RegionOwner) (s s' : DeclareState) : Prop where
  moduleOf : s'.defs.moduleOf owner = some s'.current
  inside : ∃ m, s'.tree.find? s'.current = some m ∧ m.parent = some s.current ∧
    m.owner.isBlock = owner.isBlock

/-- A new module with its owner in both tables. -/
theorem Entered.of_adds {s₀ : DeclareState} {owner : ModuleOwner} {region : RegionOwner}
    {node : NodeId} {tree : ModuleTree} {defs : Definitions}
    (adds : s.tree.Adds s₀.current owner node tree)
    (moduleOf : defs.moduleOf region = some s.tree.nextId)
    (block : owner.isBlock = region.isBlock) :
    Entered region s₀ { s with defs, tree, current := s.tree.nextId } := by
  obtain ⟨itemModule, found⟩ := adds.child
  exact ⟨moduleOf, _, found, rfl, block⟩

/-- The module of an item is known by its name, unless it has none or the name is taken. -/
theorem yields_addChild (ready : Ready s) {m : Module}
    (found : s.tree.find? s.current = some m) {node : NodeId} (free : s.tree.Free node)
    (id : DefId) (name : Option String) :
    Yields False (match name.filter fun name => (m.child? name).isNone with
      | some name => s.tree.addNamed s.current name (.definition id)
      | none => s.tree.addAnonymous s.current node (.definition id)) fun r =>
      r.1 = s.tree.nextId ∧ s.tree.Adds s.current (.definition id) node r.2 := by
  split
  · next name kept =>
    obtain ⟨-, unused⟩ := Option.filter_eq_some_iff.mp kept
    obtain ⟨tree, eq, adds⟩ :=
      ModuleTree.addNamed_adds ready.intact.validTree found (by simpa using unused) node
    rw [eq]
    exact ⟨rfl, adds⟩
  · obtain ⟨tree, eq, adds⟩ := ModuleTree.addAnonymous_adds ready.intact.validTree
      found (free found) (.definition id)
    rw [eq]
    exact ⟨rfl, adds⟩

/-- A declared item is entered. -/
theorem run_enter {s₀ : DeclareState} {node : NodeId} {id : DefId}
    (declared : Declared node id s₀ s) (free : s₀.tree.Free node) (name : Option String) :
    Run False (enter id name node) s log fun _ s' _ =>
      Progress [node] s₀ s' ∧ Entered (.item node) s₀ s' := by
  have ready := declared.progress.ready
  have defined := declared.defined
  have isFree : s.tree.Free node := declared.free free
  obtain ⟨m, found⟩ := ready.current.find?
  simp only [enter, lift, Run.bind_iff, Run.get_iff, Run.lift_iff, run_setTree_iff,
    run_setDefs_iff, run_moveTo_iff, ModuleTree.get_of_find? found, Yields.ok_iff,
    Definitions.addModule_eq defined.module?]
  apply (yields_addChild ready found isFree id name).mono
  intro r added
  obtain ⟨module, adds⟩ := added
  rw [module]
  have intact := ready.intact.adds adds ready.current
    (by rintro _ ⟨⟩; exact defined.known)
  refine ⟨declared.progress.and ⟨⟨?_, adds.known_nextId, ?_⟩, ?_, adds.toExtends, ?_⟩, ?_⟩
  · exact intact.withModule defined.known defined.module? adds.known_nextId
  · exact fun d mem => adds.toExtends.known (ready.directives d mem)
  · exact Definitions.extends_withModule defined.module?
  · intro other ne
    -- the definition that gets the module is at `node`, so no other node's is touched
    refine ⟨rfl, fun {id'} held => ?_, rfl, adds.free (by simpa using ne)⟩
    refine Definitions.module?_withModule_of_ne ?_
    rintro rfl
    exact ne (by simpa using ready.intact.validDefs.node_injective held defined.ofNode?)
  · refine Entered.of_adds (declared.current ▸ adds) ?_ rfl
    show (s.defs.ofNode? node).bind _ = _
    rw [defined.ofNode?]
    exact Definitions.module?_withModule_self

theorem run_enterBlock (ready : Ready s) {node : NodeId} (fresh : Fresh s node) :
    Run False (enterBlock node) s log fun _ s' _ =>
      Progress [node] s s' ∧ Entered (.block node) s s' := by
  obtain ⟨m, found⟩ := ready.current.find?
  obtain ⟨tree, eq, adds⟩ := ModuleTree.addAnonymous_adds ready.intact.validTree
    found (fresh.free found) (.block node)
  simp only [enterBlock, lift, Run.bind_iff, Run.get_iff, Run.lift_iff, run_setTree_iff,
    run_setDefs_iff, run_moveTo_iff, eq, Yields.ok_iff, Definitions.addBlock_eq fresh.blockModule?]
  have intact := ready.intact.adds adds ready.current (by rintro _ ⟨⟩)
  refine ⟨⟨⟨?_, adds.known_nextId, ?_⟩, ?_, adds.toExtends, ?_⟩, ?_⟩
  · exact intact.withBlock fresh.blockModule? adds.known_nextId
  · exact fun d mem => adds.toExtends.known (ready.directives d mem)
  · exact Definitions.extends_withBlock fresh.blockModule?
  · intro other ne
    have ne : other ≠ node := by simpa using ne
    exact ⟨rfl, fun _ => rfl, Definitions.blockModule?_withBlock_of_ne ne, adds.free ne⟩
  · exact Entered.of_adds adds Definitions.blockModule?_withBlock_self rfl

theorem run_leave (ready : Ready s) {m : Module} {parent : ModuleId}
    (found : s.tree.find? s.current = some m) (inside : m.parent = some parent) :
    Run False leave s log fun _ s' _ => Progress [] s s' ∧ s'.current = parent := by
  simp only [leave, lift, Run.bind_iff, Run.get_iff, Run.lift_iff,
    ModuleTree.get_of_find? found, Yields.ok_iff, inside, run_moveTo_iff]
  have known := ready.intact.validTree.known_parent found inside
  exact ⟨.of_tables ⟨ready.intact, known, ready.directives⟩ rfl rfl, trivial⟩

theorem run_imports (ready : Ready s) (i : Import) :
    Run False (step (.imports i)) s log fun _ s' _ =>
      Progress [] s s' ∧ s'.current = s.current := by
  simp only [step, Run.modify_iff]
  refine ⟨.of_tables ⟨ready.intact, ready.current, ?_⟩ rfl rfl, trivial⟩
  intro d mem
  rcases List.mem_append.mp mem with mem | mem
  · exact ready.directives d mem
  · rw [List.mem_singleton.mp mem]
    exact ready.current

end Declaring

end NameResolution

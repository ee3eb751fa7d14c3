import NameResolution.Proofs.Declaration.Directives

/-! # The modules of definitions

    A module that belongs to a definition is recorded as the module of that
    definition. Between the two halves of opening a module this is not so, but
    it is so again after each step of the first pass. Nor is a module recorded
    with a definition or a block that it does not belong to. -/

namespace NameResolution

variable {defs defs' : Definitions} {tree tree' : ModuleTree}

/-- Each module that belongs to a definition is recorded with it. -/
structure Housed (defs : Definitions) (tree : ModuleTree) : Prop where
  valid : tree.Valid
  module? : ∀ {id : ModuleId} {m : Module} {owner : DefId}, tree.find? id = some m →
    m.owner = .definition owner → defs.module? owner = some id

namespace Housed

/-- More definitions and more names. -/
theorem grows (h : Housed defs tree) (modules : defs'.modules = defs.modules)
    (grows : tree.Grows tree') : Housed defs' tree' := by
  refine ⟨grows.valid h.valid, fun {id m owner} found owned => ?_⟩
  obtain ⟨m₀, names, found₀, rfl⟩ := grows.module_of found
  rw [Definitions.module?, modules]
  exact h.module? (m := m₀) found₀ owned

/-- One more module. What it belongs to has none so far. -/
theorem adds {parent : ModuleId} {owner : ModuleOwner} {node : NodeId} (h : Housed defs tree)
    (adds : tree.Adds parent owner node tree') (known : tree.Known parent)
    (before : ∀ {id : DefId} {module : ModuleId}, defs.module? id = some module →
      defs'.module? id = some module)
    (new : ∀ id, owner = .definition id → defs'.module? id = some tree.nextId) :
    Housed defs' tree' := by
  refine ⟨adds.valid h.valid known, fun {id m owner'} found owned => ?_⟩
  rcases adds.cases found with ⟨rfl, itemModule, rfl⟩ | ⟨m₀, _, _, found₀, rfl, -⟩
  · exact new owner' owned
  · exact before (h.module? (m := m₀) found₀ owned)

end Housed

/-- Each module that is recorded with a definition or a block belongs to it. -/
structure Owned (defs : Definitions) (tree : ModuleTree) : Prop where
  definition : ∀ {id : DefId} {module : ModuleId}, defs.module? id = some module →
    ∃ m, tree.find? module = some m ∧ m.owner = .definition id
  block : ∀ {node : NodeId} {module : ModuleId}, defs.blockModule? node = some module →
    ∃ m, tree.find? module = some m ∧ m.owner = .block node

namespace Owned

/-- Modules that have been there keep their owners. -/
theorem find?_of_extends (ext : tree.Extends tree') {module : ModuleId} {owner : ModuleOwner}
    (h : ∃ m, tree.find? module = some m ∧ m.owner = owner) :
    ∃ m, tree'.find? module = some m ∧ m.owner = owner := by
  obtain ⟨m, found, owned⟩ := h
  obtain ⟨m', found', same, -⟩ := ext.module found
  exact ⟨m', found', same.trans owned⟩

/-- Nothing more is recorded. -/
theorem mono (h : Owned defs tree) (modules : defs'.modules = defs.modules)
    (blocks : defs'.blocks = defs.blocks) (ext : tree.Extends tree') : Owned defs' tree' where
  definition {id module} held := by
    rw [Definitions.module?, modules] at held
    exact find?_of_extends ext (h.definition held)
  block {node module} held := by
    rw [Definitions.blockModule?, blocks] at held
    exact find?_of_extends ext (h.block held)

end Owned

namespace Declaring

variable {isPub : Bool} {node : NodeId} {kind : DefKind} {ident : Ident} {suffix : String}
  {s s' : DeclareState} {log : Log}

theorem NameOutcome.housed (outcome : NameOutcome isPub node kind ident s s')
    (h : Housed s.defs s.tree) : Housed s'.defs s'.tree := by
  have grows := outcome.grows
  cases outcome <;> exact h.grows rfl grows

theorem FuncOutcome.housed {free : Bool}
    (outcome : FuncOutcome isPub node kind ident suffix s free s')
    (h : Housed s.defs s.tree) : Housed s'.defs s'.tree := by
  have grows := outcome.grows
  cases outcome with
  | joined _ made | suffixTaken _ made _ | opened _ made =>
    exact h.grows (addFunction_frame made).2 grows
  | blocked _ _ _ => exact h.grows rfl grows

theorem EnterOutcome.housed {id : DefId} {name : Option String}
    (outcome : EnterOutcome id node s name s') (h : Housed s.defs s.tree) :
    Housed s'.defs s'.tree := by
  have enters {module : ModuleId} {tree : ModuleTree} {defs : Definitions} {m : Module}
      (found : s.tree.find? s.current = some m)
      (adds : module = s.tree.nextId ∧ s.tree.Adds s.current (.definition id) node tree)
      (made : s.defs.addModule id module = .ok defs) : Housed defs tree := by
    have known := ModuleTree.known_of_find? found
    obtain ⟨rfl, adds⟩ := adds
    obtain ⟨free, rfl⟩ := Definitions.addModule_eq_ok.mp made
    refine h.adds adds known (Definitions.extends_withModule free).module ?_
    rintro _ ⟨⟩
    exact Definitions.module?_withModule_self
  cases outcome with
  | named child made =>
    obtain ⟨m, found, -⟩ := ModuleTree.addNamed_eq_ok.mp child
    exact enters found (ModuleTree.adds_of_addNamed h.valid child node) made
  | anonymous child made =>
    obtain ⟨m, found, -⟩ := ModuleTree.addAnonymous_eq_ok.mp child
    exact enters found (ModuleTree.adds_of_addAnonymous h.valid child) made

theorem StepOutcome.housed {step : OutlineStep} (outcome : StepOutcome s step s')
    (h : Housed s.defs s.tree) : Housed s'.defs s'.tree := by
  cases outcome with
  | declare _ outcome => exact outcome.housed h
  | enterItem _ outcome entered => exact entered.housed (outcome.housed h)
  | enterImpl _ entered => exact entered.housed (h.grows rfl (.refl _))
  | declareFunc _ outcome => exact outcome.housed h
  | enterFunc _ outcome entered => exact entered.housed (outcome.housed h)
  | enterBlock child made =>
    obtain ⟨m, found, -⟩ := ModuleTree.addAnonymous_eq_ok.mp child
    have known := ModuleTree.known_of_find? found
    obtain ⟨-, adds⟩ := ModuleTree.adds_of_addAnonymous h.valid child
    obtain ⟨-, rfl⟩ := Definitions.addBlock_eq_ok.mp made
    refine h.adds adds known id ?_
    intro id owned
    cases owned
  | leave _ _ => exact h
  | imports _ => exact h

theorem NameOutcome.owned (outcome : NameOutcome isPub node kind ident s s')
    (h : Owned s.defs s.tree) : Owned s'.defs s'.tree := by
  have ext := outcome.grows.toExtends
  cases outcome <;> exact h.mono rfl rfl ext

theorem FuncOutcome.owned {free : Bool}
    (outcome : FuncOutcome isPub node kind ident suffix s free s')
    (h : Owned s.defs s.tree) : Owned s'.defs s'.tree := by
  have ext := outcome.grows.toExtends
  cases outcome with
  | joined _ made | suffixTaken _ made _ | opened _ made =>
    have grows := Definitions.grows_of_addFunction made
    exact h.mono grows.modules grows.blocks ext
  | blocked _ _ _ => exact h.mono rfl rfl ext

theorem EnterOutcome.owned {id : DefId} {name : Option String}
    (outcome : EnterOutcome id node s name s') (valid : s.tree.Valid)
    (h : Owned s.defs s.tree) : Owned s'.defs s'.tree := by
  have enters {module : ModuleId} {tree : ModuleTree} {defs : Definitions}
      (adds : module = s.tree.nextId ∧ s.tree.Adds s.current (.definition id) node tree)
      (made : s.defs.addModule id module = .ok defs) : Owned defs tree := by
    obtain ⟨rfl, adds⟩ := adds
    obtain ⟨-, rfl⟩ := Definitions.addModule_eq_ok.mp made
    refine ⟨fun {other module} held => ?_, fun held =>
      Owned.find?_of_extends adds.toExtends (h.block held)⟩
    by_cases same : other = id
    · subst same
      rw [Definitions.module?_withModule_self] at held
      cases held
      obtain ⟨itemModule, child⟩ := adds.child
      exact ⟨_, child, rfl⟩
    · rw [Definitions.module?_withModule_of_ne same] at held
      exact Owned.find?_of_extends adds.toExtends (h.definition held)
  cases outcome with
  | named child made => exact enters (ModuleTree.adds_of_addNamed valid child node) made
  | anonymous child made => exact enters (ModuleTree.adds_of_addAnonymous valid child) made

theorem StepOutcome.owned {step : OutlineStep} (outcome : StepOutcome s step s')
    (valid : s.tree.Valid) (h : Owned s.defs s.tree) : Owned s'.defs s'.tree := by
  cases outcome with
  | declare _ outcome => exact outcome.owned h
  | enterItem _ outcome entered =>
    exact entered.owned (outcome.grows.valid valid) (outcome.owned h)
  | enterImpl _ entered => exact entered.owned valid (h.mono rfl rfl (.refl _))
  | declareFunc _ outcome => exact outcome.owned h
  | enterFunc _ outcome entered =>
    exact entered.owned (outcome.grows.valid valid) (outcome.owned h)
  | @enterBlock node module _ _ child made =>
    obtain ⟨rfl, adds⟩ := ModuleTree.adds_of_addAnonymous valid child
    obtain ⟨-, rfl⟩ := Definitions.addBlock_eq_ok.mp made
    refine ⟨fun held => Owned.find?_of_extends adds.toExtends (h.definition held),
      fun {other module} held => ?_⟩
    by_cases same : other = node
    · subst same
      rw [Definitions.blockModule?_withBlock_self] at held
      cases held
      obtain ⟨itemModule, there⟩ := adds.child
      exact ⟨_, there, rfl⟩
    · rw [Definitions.blockModule?_withBlock_of_ne same] at held
      exact Owned.find?_of_extends adds.toExtends (h.block held)
  | leave _ _ => exact h
  | imports _ => exact h

/-- The root is recorded with the program before anything else. -/
theorem housed_atRoot (program : Program) :
    Housed (atRoot program).defs (atRoot program).tree := by
  refine ⟨ModuleTree.Valid.new, fun {id m owner} found owned => ?_⟩
  obtain ⟨rfl, rfl⟩ := ModuleTree.find?_new found
  cases owned
  exact Definitions.module?_withModule_self

theorem owned_atRoot (program : Program) :
    Owned (atRoot program).defs (atRoot program).tree := by
  refine ⟨fun {id module} held => ?_, fun held => by cases held⟩
  by_cases same : id = .root
  · subst same
    cases held
    exact ⟨.new .root (.definition .root) none .root, rfl, rfl⟩
  · have held : (Definitions.empty.withModule .root .root).module? id = some module := held
    rw [Definitions.module?_withModule_of_ne same] at held
    cases held

end Declaring

/-- In whatever tables the first pass makes, each module of a definition is recorded with it. -/
theorem declareProgram_housed {program : Program} {built : DeclareState}
    {log log' : Log}
    (declared : declareProgram .empty .new program log = .ok built log') :
    Housed built.defs built.tree :=
  (declareProgram_outcome declared).keeps (Declaring.housed_atRoot program)
    fun _ _ outcome housed => outcome.housed housed

/-- In whatever tables the first pass makes, no module is recorded with another owner than its
    own. -/
theorem declareProgram_owned {program : Program} {built : DeclareState} {log log' : Log}
    (declared : declareProgram .empty .new program log = .ok built log') :
    Owned built.defs built.tree :=
  (declareProgram_outcome declared).keeps (Declaring.owned_atRoot program)
    fun _ inOrder outcome owned => outcome.owned inOrder.sound.intact.validTree owned

end NameResolution

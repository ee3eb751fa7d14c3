import NameResolution.Proofs.Declaration.Owners
import NameResolution.Proofs.Tables.Shape
import NameResolution.Proofs.Text.Labels
import NameResolution.Proofs.Text.Pieces

/-! # What modules are known by

    The first pass opens the module of an item under the name of the item, and
    that of a function under name and label suffix in one text. Other modules go
    by their nodes. So a name under which a module is known leads back to the
    step that has opened it, and from there into the text. -/

namespace NameResolution

/-- A step makes a definition and opens its module under a name. -/
inductive OutlineStep.Opens (d : Definition) : OutlineStep → String → Prop
  | item : Opens d (.enterItem d.isPub d.node d.kind d.ident) d.ident.name
  | func {kind : FuncKind} {suffix : String} (same : Declaring.kindOf kind = d.kind) :
      Opens d (.enterFunc d.isPub d.node kind d.ident suffix) (d.ident.name ++ suffix)

/-- A module belongs to a definition, which has been made together with the module by a step of
    an outline, under this name. -/
def OpenedAs (outline : Outline) (defs : Definitions) (tree : ModuleTree) (name : String)
    (module : ModuleId) : Prop :=
  ∃ m id d, tree.find? module = some m ∧ m.owner = .definition id ∧ defs.find? id = some d ∧
    ∃ step ∈ outline, step.Opens d name

/-- Each module that is known by a name has been opened as that. -/
def Keyed (outline : Outline) (defs : Definitions) (tree : ModuleTree) : Prop :=
  ∀ holder name child, tree.Holds holder (.name name) child →
    OpenedAs outline defs tree name child

variable {outline : Outline} {defs defs' : Definitions} {tree tree' : ModuleTree}

/-! ## Tables -/

theorem OpenedAs.mono {name : String} {module : ModuleId}
    (h : OpenedAs outline defs tree name module) (keeps : defs.Keeps defs')
    (ext : tree.Extends tree') : OpenedAs outline defs' tree' name module := by
  obtain ⟨m, id, d, found, owned, defined, opened⟩ := h
  obtain ⟨m', found', same, -⟩ := ext.module found
  exact ⟨m', id, d, found', same.trans owned, keeps.defined defined, opened⟩

namespace Keyed

/-- More definitions and more names. -/
theorem grows (h : Keyed outline defs tree) (keeps : defs.Keeps defs')
    (grows : tree.Grows tree') : Keyed outline defs' tree' := by
  intro holder name child holds
  exact (h holder name child (grows.holds_iff.mp holds)).mono keeps grows.toExtends

/-- One more module. Only if it is known by a name, it has to be told what opens it. -/
theorem withChild (h : Keyed outline defs tree) (keeps : defs.Keeps defs') {parent : ModuleId}
    {m : Module} {key : ChildKey} {owner : ModuleOwner} (found : tree.find? parent = some m)
    (isParent : m.id = parent) (free : m.childAt? key = none)
    (opens : ∀ name, key = .name name → ∃ id d, owner = .definition id ∧
      defs'.find? id = some d ∧ ∃ step ∈ outline, step.Opens d name) :
    Keyed outline defs' (tree.withChild m key owner) := by
  have ext : tree.Extends (tree.withChild m key owner) := by
    refine ⟨fun {id m₀} found₀ => ?_⟩
    obtain ⟨named, anonymous, found'⟩ :=
      ModuleTree.find?_withChild_of_find? key owner found isParent found₀
    exact ⟨_, found', rfl, rfl⟩
  intro holder name child holds
  rcases (ModuleTree.holds_withChild found isParent free).mp holds with before | ⟨-, here, rfl⟩
  · exact (h holder name child before).mono keeps ext
  · obtain ⟨id, d, owned, defined, opened⟩ := opens name here.symm
    exact ⟨_, id, d, ModuleTree.find?_nextId_withChild found isParent, owned, defined, opened⟩

/-- A module that goes by its node. -/
theorem addAnonymous (h : Keyed outline defs tree) (keeps : defs.Keeps defs') (valid : tree.Valid)
    {parent module : ModuleId} {node : NodeId} {owner : ModuleOwner}
    (child : tree.addAnonymous parent node owner = .ok (module, tree')) :
    Keyed outline defs' tree' := by
  obtain ⟨m, found, free, -, rfl⟩ := ModuleTree.withChild_of_addAnonymous valid child
  refine h.withChild keeps found (valid.ids found) free ?_
  intro name named
  cases named

end Keyed

/-! ## Steps -/

namespace Declaring

variable {isPub : Bool} {node : NodeId} {kind : DefKind} {ident : Ident} {suffix : String}
  {s s' : DeclareState} {log : Log}

/-- What has been defined stays, and the new definition is there as well. -/
theorem NameOutcome.defines (outcome : NameOutcome isPub node kind ident s s') :
    s.defs.Keeps s'.defs ∧
      s'.defs.find? s.defs.nextId = some ⟨s.defs.nextId, kind, ident, isPub, node, none⟩ := by
  cases outcome <;> exact ⟨Definitions.keeps_declared .., Definitions.find?_declared_nextId⟩

theorem FuncOutcome.defines {free : Bool}
    (outcome : FuncOutcome isPub node kind ident suffix s free s') :
    s.defs.Keeps s'.defs ∧
      s'.defs.find? s.defs.nextId = some ⟨s.defs.nextId, kind, ident, isPub, node, none⟩ := by
  have keeps : s.defs.Keeps (declaredIn s isPub node kind ident) := Definitions.keeps_declared ..
  cases outcome with
  | joined _ made | suffixTaken _ made _ | opened _ made =>
    have keeps' := Definitions.keeps_of_addFunction made
    exact ⟨keeps.trans keeps', keeps'.defined Definitions.find?_declared_nextId⟩
  | blocked _ _ _ => exact ⟨keeps, Definitions.find?_declared_nextId⟩

theorem EnterOutcome.keyed {id : DefId} {name : Option String}
    (outcome : EnterOutcome id node s name s') (valid : s.tree.Valid)
    (h : Keyed outline s.defs s.tree) {d : Definition} (defined : s.defs.find? id = some d)
    (opens : ∀ key, name = some key → ∃ step ∈ outline, step.Opens d key) :
    Keyed outline s'.defs s'.tree := by
  cases outcome with
  | @named name module tree defs child made =>
    obtain ⟨m, found, free, -, rfl⟩ := ModuleTree.withChild_of_addNamed valid child
    obtain ⟨-, rfl⟩ := Definitions.addModule_eq_ok.mp made
    refine h.withChild (.of_eq rfl rfl) found (valid.ids found) free ?_
    intro key same
    cases same
    exact ⟨id, d, rfl, defined, opens name rfl⟩
  | anonymous child made =>
    obtain ⟨-, rfl⟩ := Definitions.addModule_eq_ok.mp made
    exact h.addAnonymous (.of_eq rfl rfl) valid child

theorem StepOutcome.keyed {step : OutlineStep} (outcome : StepOutcome s step s')
    (mem : step ∈ outline) (valid : s.tree.Valid) (h : Keyed outline s.defs s.tree) :
    Keyed outline s'.defs s'.tree := by
  cases outcome with
  | declare _ outcome => exact h.grows outcome.defines.1 outcome.grows
  | enterItem _ outcome entered =>
    obtain ⟨keeps, defined⟩ := outcome.defines
    refine entered.keyed (outcome.grows.valid valid) (h.grows keeps outcome.grows) defined ?_
    intro key named
    cases named
    exact ⟨_, mem, .item⟩
  | @enterImpl isPub node span _ _ entered =>
    have keeps : s.defs.Keeps (declaredIn s isPub node .impl ⟨"impl", span⟩) :=
      Definitions.keeps_declared ..
    refine entered.keyed valid (h.grows keeps (.refl _)) Definitions.find?_declared_nextId ?_
    intro key named
    cases named
  | declareFunc _ outcome => exact h.grows outcome.defines.1 outcome.grows
  | @enterFunc isPub node kind ident suffix free _ _ _ outcome entered =>
    obtain ⟨keeps, defined⟩ := outcome.defines
    refine entered.keyed (outcome.grows.valid valid) (h.grows keeps outcome.grows) defined ?_
    intro key named
    -- a function whose suffix is taken has no name to be known by
    cases free with
    | false => cases named
    | true =>
      cases named
      exact ⟨_, mem, .func rfl⟩
  | enterBlock child made =>
    obtain ⟨-, rfl⟩ := Definitions.addBlock_eq_ok.mp made
    exact h.addAnonymous (.of_eq rfl rfl) valid child
  | leave _ _ | imports _ => exact h

/-- The root has no modules below it at first. -/
theorem keyed_atRoot (program : Program) :
    Keyed outline (atRoot program).defs (atRoot program).tree := by
  rintro holder name child ⟨m, found, held⟩
  obtain ⟨-, rfl⟩ := ModuleTree.find?_new found
  rw [Module.childAt?_new] at held
  cases held

end Declaring

/-! ## The program -/

theorem declareProgram_keyed {program : Program} {built : DeclareState} {log log' : Log}
    (declared : declareProgram .empty .new program log = .ok built log') :
    Keyed (.ofProgram program) built.defs built.tree :=
  (declareProgram_outcome declared).keeps (Declaring.keyed_atRoot program)
    fun mem inOrder outcome keyed => outcome.keyed mem inOrder.sound.intact.validTree keyed

/-- In the tables that the first pass makes, the module of a function is known by a name. -/
def DeclareState.FunctionKey (s : DeclareState) (d : Definition) (key : String) : Prop :=
  (d.kind = .func ∨ d.kind = .init) ∧ ∃ holder child m id,
    s.tree.Holds holder (.name key) child ∧ s.tree.find? child = some m ∧
      m.owner = .definition id ∧ s.defs.find? id = some d

/-- The key of a function's module is the name of the function and the suffix that its parameters
    have in the text. -/
theorem exists_func_of_functionKey {program : Program} {built : DeclareState}
    {log log' : Log}
    (declared : declareProgram .empty .new program log = .ok built log') {d : Definition}
    {key : String} (h : built.FunctionKey d key) :
    ∃ home head kind generics params ret body,
      (home, Piece.item (.func head kind d.ident generics params ret body)) ∈ program.pieces ∧
        head.id = d.node ∧ key = d.ident.name ++ Param.suffix params := by
  obtain ⟨function, holder, child, m, id, holds, found, owned, defined⟩ := h
  obtain ⟨m', id', d', found', owned', defined', step, mem, opens⟩ :=
    declareProgram_keyed declared holder key child holds
  -- there is one definition that the module belongs to
  obtain rfl : m = m' := Option.some.inj (found.symm.trans found')
  obtain rfl : id = id' := ModuleOwner.definition.inj (owned.symm.trans owned')
  obtain rfl : d = d' := Option.some.inj (defined.symm.trans defined')
  cases opens with
  | item =>
    -- what is entered as an item is a type
    have sort : d.kind.namespace? = some .type := program.declares_outline.tidy _ mem
    rcases function with isFunc | isInit
    · rw [isFunc] at sort
      cases sort
    · rw [isInit] at sort
      cases sort
  | func _ =>
    obtain ⟨home, piece, isPiece, opening⟩ := Program.exists_opening mem (by simp)
    obtain ⟨head, generics, params, ret, body, rfl, node, rfl⟩ :=
      Piece.eq_func_of_enterFunc opening
    exact ⟨home, head, _, generics, params, ret, body, isPiece, node, rfl⟩

/-- Label suffixes are unambiguous. Labels without a colon can be told from their suffix, and a
    name without a parenthesis and the suffix can be told from both in one text, which is what the
    module of a function is known by. A call that passes what goes to each parameter under its
    label has the suffix of the declaration. -/
theorem label_suffixes_are_unambiguous :
    (∀ labels labels' : List String, (∀ label ∈ labels, ':' ∉ label.toList) →
      (∀ label ∈ labels', ':' ∉ label.toList) → labelsSuffix labels = labelsSuffix labels' →
        labels = labels') ∧
    (∀ (name name' : String) (labels labels' : List String), '(' ∉ name.toList →
      '(' ∉ name'.toList → name ++ labelsSuffix labels = name' ++ labelsSuffix labels' →
        name = name' ∧ labelsSuffix labels = labelsSuffix labels') ∧
    (∀ (program : Program) (built : DeclareState) (log log' : Log),
      declareProgram .empty .new program log = .ok built log' →
        ∀ d key, built.FunctionKey d key → ∃ home head kind generics params ret body,
          (home, Piece.item (.func head kind d.ident generics params ret body)) ∈ program.pieces ∧
            head.id = d.node ∧ key = d.ident.name ++ Param.suffix params) ∧
    ∀ (params : List Param) (args : List Arg), List.Forall₂ Arg.GoesTo params args →
      Arg.suffix args = Param.suffix params := by
  refine ⟨?labels, ?names, ?keys, ?calls⟩
  case labels => exact fun _ _ plain plain' same => labelsSuffix_inj plain plain' same
  case names => exact fun _ _ _ _ plain plain' same => append_labelsSuffix_inj plain plain' same
  case keys => exact fun _ _ _ _ declared _ _ h => exists_func_of_functionKey declared h
  case calls => exact fun _ _ goesTo => suffix_of_goesTo goesTo

/-- A parameter with a label and one without. -/
def scalingParams : List Param :=
  [.mk (some ⟨"by", ⟨11, 2⟩⟩) (.ident ⟨2⟩ ⟨"factor", ⟨14, 6⟩⟩ none) none none,
    .mk none .wildcard none none]

/-- A function with these parameters:

        func scale(by factor, _) {} -/
def scaling : Program :=
  ⟨⟨0⟩, ⟨0, 27⟩,
    [.func ⟨⟨1⟩, true, ⟨0, 27⟩⟩ .func ⟨"scale", ⟨5, 5⟩⟩ [] scalingParams none
      (some (.block .plain (.mk ⟨3⟩ [])))]⟩

/-- The arguments of a call `scale(by: x, y)`. -/
def scalingArgs : List Arg :=
  [.mk (some ⟨"by", ⟨33, 2⟩⟩) (.path ⟨⟨4⟩, false, [⟨.name "x", ⟨37, 1⟩⟩], false⟩ []),
    .mk none (.path ⟨⟨5⟩, false, [⟨.name "y", ⟨40, 1⟩⟩], false⟩ [])]

/-- The call has the suffix of the function, so name and labels are those of the function, and its
    module is known by both. -/
theorem label_suffixes_are_unambiguous_of_scaling :
    Arg.suffix scalingArgs = Param.suffix scalingParams ∧
    scalingArgs.map Arg.labelName = scalingParams.map Param.labelName ∧
    (∀ name : String, '(' ∉ name.toList →
      name ++ Arg.suffix scalingArgs = "scale" ++ Param.suffix scalingParams → name = "scale") ∧
    ∃ built log', declareProgram .empty .new scaling .empty = .ok built log' ∧
      built.FunctionKey ⟨⟨1⟩, .func, ⟨"scale", ⟨5, 5⟩⟩, true, ⟨1⟩, none⟩ "scale(by:_:)" ∧
      ∃ home head kind generics params ret body,
        (home, Piece.item (.func head kind ⟨"scale", ⟨5, 5⟩⟩ generics params ret body)) ∈
          scaling.pieces ∧ head.id = ⟨1⟩ ∧ "scale(by:_:)" = "scale" ++ Param.suffix params := by
  obtain ⟨labels, names, keys, calls⟩ := label_suffixes_are_unambiguous
  have goesTo : List.Forall₂ Arg.GoesTo scalingParams scalingArgs :=
    .cons (.labelled rfl) (.cons (.unlabelled rfl) .nil)
  have suffixes := calls scalingParams scalingArgs goesTo
  have checked : ∃ built log', declareProgram .empty .new scaling .empty = .ok built log' ∧
      (((built.tree.find? .root).bind (·.child? "scale(by:_:)")) == some ⟨1⟩
        && (built.tree.find? ⟨1⟩).map (·.owner) == some (.definition ⟨1⟩)
        && built.defs.find? ⟨1⟩ == some ⟨⟨1⟩, .func, ⟨"scale", ⟨5, 5⟩⟩, true, ⟨1⟩, none⟩) = true :=
    Logged.exists_of_check (by decide +kernel)
  obtain ⟨built, log', declared, same⟩ := checked
  simp only [Bool.and_eq_true, beq_iff_eq] at same
  obtain ⟨⟨held, owned⟩, defined⟩ := same
  obtain ⟨root, found, held⟩ := Option.bind_eq_some_iff.mp held
  obtain ⟨m, found', owned⟩ := Option.map_eq_some_iff.mp owned
  have known : built.FunctionKey ⟨⟨1⟩, .func, ⟨"scale", ⟨5, 5⟩⟩, true, ⟨1⟩, none⟩ "scale(by:_:)" :=
    ⟨.inl rfl, .root, ⟨1⟩, m, ⟨1⟩, ⟨root, found, held⟩, found', owned, defined⟩
  refine ⟨suffixes, ?_, ?_, built, log', declared, known, keys _ _ _ _ declared _ _ known⟩
  · exact labels _ _ (by decide) (by decide) suffixes
  · exact fun name plain same => (names name "scale" _ _ plain (by decide) same).1

end NameResolution

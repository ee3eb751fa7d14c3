import NameResolution.Proofs.Declaration.Owners

/-! # Where the first pass stands

    The steps of an outline open and leave modules like brackets, so at each step
    the owners of the modules that are open can be read off the steps before it.
    The current module is that of the innermost one, and the modules of the others
    lie around it in order, up to the root. -/

namespace NameResolution

/-! ## Open modules -/

variable {defs defs' : Definitions} {tree tree' : ModuleTree}

/-- A module and those around it, up to the root, are the modules of these owners. -/
inductive Standing (defs : Definitions) (tree : ModuleTree) : List RegionOwner → ModuleId → Prop
    where
  | outermost {home : RegionOwner} {id : ModuleId} {m : Module}
      (held : defs.moduleOf home = some id) (found : tree.find? id = some m)
      (alone : m.parent = none) : Standing defs tree [home] id
  | inside {home : RegionOwner} {homes : List RegionOwner} {id parent : ModuleId} {m : Module}
      (held : defs.moduleOf home = some id) (found : tree.find? id = some m)
      (inside : m.parent = some parent) (around : Standing defs tree homes parent) :
      Standing defs tree (home :: homes) id

namespace Standing

variable {homes : List RegionOwner} {id : ModuleId}

theorem mono (h : Standing defs tree homes id) (ext : defs.Extends defs')
    (ext' : tree.Extends tree') : Standing defs' tree' homes id := by
  induction h with
  | outermost held found alone =>
    obtain ⟨m', found', -, parent⟩ := ext'.module found
    exact .outermost (ext.moduleOf held) found' (parent.trans alone)
  | inside held found inside around ih =>
    obtain ⟨m', found', -, parent⟩ := ext'.module found
    exact .inside (ext.moduleOf held) found' (parent.trans inside) ih

/-- The innermost owner is that of the module itself. -/
theorem head (h : Standing defs tree homes id) :
    ∃ home others, homes = home :: others ∧ defs.moduleOf home = some id := by
  cases h with
  | outermost held _ _ => exact ⟨_, _, rfl, held⟩
  | inside held _ _ _ => exact ⟨_, _, rfl, held⟩

/-- Around a module there is the module that it lies in. -/
theorem tail (h : Standing defs tree homes id) {m : Module} {parent : ModuleId}
    (found : tree.find? id = some m) (inside : m.parent = some parent) :
    Standing defs tree homes.tail parent := by
  cases h with
  | outermost _ found' alone =>
    rw [found] at found'
    cases found'
    rw [alone] at inside
    cases inside
  | inside _ found' inside' around =>
    rw [found] at found'
    cases found'
    rw [inside] at inside'
    cases inside'
    exact around

end Standing

/-! ## Larger tables -/

namespace Declaring

variable {labels : NodeId → String → Prop} {isPub : Bool} {node : NodeId} {kind : DefKind}
  {ident : Ident} {suffix : String} {s s' s'' : DeclareState} {log : Log}

/-- A part of the first pass has only added to the tables. -/
structure Enlarges (s s' : DeclareState) : Prop where
  defs : s.defs.Extends s'.defs
  tree : s.tree.Extends s'.tree

namespace Enlarges

theorem refl (s : DeclareState) : Enlarges s s := ⟨.refl _, .refl _⟩

theorem trans (h : Enlarges s s') (h' : Enlarges s' s'') : Enlarges s s'' :=
  ⟨h.defs.trans h'.defs, h.tree.trans h'.tree⟩

theorem standing (h : Enlarges s s') {homes : List RegionOwner} {id : ModuleId}
    (standing : Standing s.defs s.tree homes id) : Standing s'.defs s'.tree homes id :=
  standing.mono h.defs h.tree

end Enlarges

theorem enlarges_declared (unused : s.defs.ofNode? node = none) :
    Enlarges s { s with defs := declaredIn s isPub node kind ident } :=
  ⟨Definitions.extends_declared unused, .refl _⟩

theorem NameOutcome.enlarges (outcome : NameOutcome isPub node kind ident s s')
    (unused : s.defs.ofNode? node = none) : Enlarges s s' ∧ s'.current = s.current := by
  have tree := outcome.grows.toExtends
  cases outcome <;> exact ⟨⟨Definitions.extends_declared unused, tree⟩, rfl⟩

theorem FuncOutcome.enlarges {free : Bool}
    (outcome : FuncOutcome isPub node kind ident suffix s free s')
    (unused : s.defs.ofNode? node = none) : Enlarges s s' ∧ s'.current = s.current := by
  have declared : s.defs.Extends (declaredIn s isPub node kind ident) :=
    Definitions.extends_declared unused
  have tree := outcome.grows.toExtends
  cases outcome with
  | joined _ made | suffixTaken _ made _ | opened _ made =>
    exact ⟨⟨declared.trans (Definitions.grows_of_addFunction made).toExtends, tree⟩, rfl⟩
  | blocked _ _ _ => exact ⟨⟨declared, tree⟩, rfl⟩

/-- A module has been opened inside the current one. -/
structure Opens (owner : RegionOwner) (s s' : DeclareState) : Prop where
  enlarges : Enlarges s s'
  moduleOf : s'.defs.moduleOf owner = some s'.current
  inside : ∃ m, s'.tree.find? s'.current = some m ∧ m.parent = some s.current

theorem Opens.standing {owner : RegionOwner} (h : Opens owner s s') {homes : List RegionOwner}
    (standing : Standing s.defs s.tree homes s.current) :
    Standing s'.defs s'.tree (owner :: homes) s'.current := by
  obtain ⟨m, found, inside⟩ := h.inside
  exact .inside h.moduleOf found inside (h.enlarges.standing standing)

theorem EnterOutcome.opens {id : DefId} {name : Option String}
    (outcome : EnterOutcome id node s name s') (valid : s.tree.Valid)
    (ofNode : s.defs.ofNode? node = some id) : Opens (.item node) s s' := by
  have opens {module : ModuleId} {tree : ModuleTree} {defs : Definitions}
      (adds : module = s.tree.nextId ∧ s.tree.Adds s.current (.definition id) node tree)
      (made : s.defs.addModule id module = .ok defs) :
      Opens (.item node) s { s with tree, defs, current := module } := by
    obtain ⟨rfl, adds⟩ := adds
    obtain ⟨itemModule, child⟩ := adds.child
    obtain ⟨free, rfl⟩ := Definitions.addModule_eq_ok.mp made
    refine ⟨⟨Definitions.extends_withModule free, adds.toExtends⟩, ?_, _, child, rfl⟩
    show (s.defs.ofNode? node).bind _ = _
    rw [ofNode]
    exact Definitions.module?_withModule_self
  cases outcome with
  | named child made => exact opens (ModuleTree.adds_of_addNamed valid child node) made
  | anonymous child made => exact opens (ModuleTree.adds_of_addAnonymous valid child) made

theorem opens_of_enterBlock (valid : s.tree.Valid) {module : ModuleId} {tree : ModuleTree}
    {defs : Definitions}
    (child : s.tree.addAnonymous s.current node (.block node) = .ok (module, tree))
    (made : s.defs.addBlock node module = .ok defs) :
    Opens (.block node) s { s with tree, defs, current := module } := by
  obtain ⟨rfl, adds⟩ := ModuleTree.adds_of_addAnonymous valid child
  obtain ⟨itemModule, found⟩ := adds.child
  obtain ⟨free, rfl⟩ := Definitions.addBlock_eq_ok.mp made
  exact ⟨⟨Definitions.extends_withBlock free, adds.toExtends⟩,
    Definitions.blockModule?_withBlock_self, _, found, rfl⟩

/-! ## Steps -/

/-- The tables have only been added to, and the current module is the innermost open one. -/
structure Moves (homes : List RegionOwner) (s s' : DeclareState) : Prop where
  enlarges : Enlarges s s'
  standing : Standing s'.defs s'.tree homes s'.current

/-- Nothing has been opened or left. -/
theorem Enlarges.moves (h : Enlarges s s') {homes : List RegionOwner}
    (standing : Standing s.defs s.tree homes s.current) (current : s'.current = s.current) :
    Moves homes s s' := by
  refine ⟨h, ?_⟩
  rw [current]
  exact h.standing standing

theorem Opens.moves {owner : RegionOwner} (h : Opens owner s s') {homes : List RegionOwner}
    (standing : Standing s.defs s.tree homes s.current) : Moves (owner :: homes) s s' :=
  ⟨h.enlarges, h.standing standing⟩

theorem Moves.trans {homes homes' : List RegionOwner} (h : Moves homes s s')
    (h' : Moves homes' s' s'') : Moves homes' s s'' :=
  ⟨h.enlarges.trans h'.enlarges, h'.standing⟩

theorem NameOutcome.moves {homes : List RegionOwner}
    (outcome : NameOutcome isPub node kind ident s s') (unused : s.defs.ofNode? node = none)
    (standing : Standing s.defs s.tree homes s.current) : Moves homes s s' := by
  obtain ⟨enlarges, current⟩ := outcome.enlarges unused
  exact enlarges.moves standing current

theorem FuncOutcome.moves {homes : List RegionOwner} {free : Bool}
    (outcome : FuncOutcome isPub node kind ident suffix s free s')
    (unused : s.defs.ofNode? node = none)
    (standing : Standing s.defs s.tree homes s.current) : Moves homes s s' := by
  obtain ⟨enlarges, current⟩ := outcome.enlarges unused
  exact enlarges.moves standing current

theorem Moves.enter {homes : List RegionOwner} (h : Moves homes s s') {id : DefId}
    {name : Option String} (outcome : EnterOutcome id node s' name s'') (valid : s'.tree.Valid)
    (ofNode : s'.defs.ofNode? node = some id) : Moves (.item node :: homes) s s'' :=
  h.trans ((outcome.opens valid ofNode).moves h.standing)

theorem StepOutcome.moves {step : OutlineStep} (outcome : StepOutcome s step s')
    (valid : s.tree.Valid) {homes : List RegionOwner}
    (standing : Standing s.defs s.tree homes s.current) : Moves (step.homes homes) s s' := by
  cases outcome with
  | declare unused outcome => exact outcome.moves unused standing
  | enterItem unused outcome entered =>
    exact (outcome.moves unused standing).enter entered (outcome.grows.valid valid)
      outcome.ofNode?
  | enterImpl unused entered =>
    exact ((enlarges_declared unused).moves standing rfl).enter entered valid
      Definitions.ofNode?_declared_self
  | declareFunc unused outcome => exact outcome.moves unused standing
  | enterFunc unused outcome entered =>
    exact (outcome.moves unused standing).enter entered (outcome.grows.valid valid)
      outcome.ofNode?
  | enterBlock child made => exact (opens_of_enterBlock valid child made).moves standing
  | leave found inside => exact ⟨⟨.refl _, .refl _⟩, standing.tail found inside⟩
  | imports i => exact ⟨⟨.refl _, .refl _⟩, standing⟩

/-- After each part of an outline the open modules are those of the owners that its steps leave
    open. -/
theorem FollowOutcome.moves {outline : Outline} (h : FollowOutcome labels outline s s')
    {homes : List RegionOwner} (standing : Standing s.defs s.tree homes s.current) :
    Moves (outline.homes homes) s s' := by
  induction h generalizing homes with
  | nil _ => exact ⟨.refl _, standing⟩
  | cons inOrder outcome _ _ ih =>
    have moves := outcome.moves inOrder.sound.intact.validTree standing
    exact moves.trans (ih moves.standing)

/-- The pass starts in the module of the program. -/
theorem standing_atRoot (program : Program) :
    Standing (atRoot program).defs (atRoot program).tree [.item program.id]
      (atRoot program).current :=
  .outermost (m := .new .root (.definition .root) none .root) (moduleOf_rootOnly program) rfl rfl

/-! ## On the way -/

/-- On its way from the root to `built`, the first pass is in a state between two parts of an
    outline. -/
def GoesThrough (program : Program) (before rest : Outline) (s built : DeclareState) : Prop :=
  ∃ log₀ log₁ log₂, follow before (atRoot program) log₀ = .ok ((), s) log₁ ∧
    follow rest s log₁ = .ok ((), built) log₂

/-- Wherever the outline is cut, the first pass goes through a state there. -/
theorem exists_goesThrough {program : Program} {built : DeclareState} {log' : Log}
    (declared : declareProgram .empty .new program log = .ok built log') {before rest : Outline}
    (split : Outline.ofProgram program = before ++ rest) :
    ∃ s, GoesThrough program before rest s built := by
  obtain ⟨log₀, log₂, _, -, run, -⟩ := declareProgram_follows declared
  rw [split, follow_append] at run
  obtain ⟨_, s, log₁, first, second⟩ := Run.bind_eq_ok.mp run
  exact ⟨s, log₀, log₁, log₂, first, second⟩

/-- There the open modules are those of the owners that the steps have left open, and what is made
    later takes nothing away. -/
theorem GoesThrough.moves {program : Program} {before rest : Outline} {built : DeclareState}
    (through : GoesThrough program before rest s built)
    (split : Outline.ofProgram program = before ++ rest) :
    Standing s.defs s.tree (before.homes [.item program.id]) s.current ∧ Enlarges s built := by
  obtain ⟨log₀, log₁, log₂, first, second⟩ := through
  have tidy : ∀ step ∈ before ++ rest, step.Tidy := split ▸ program.declares_outline.tidy
  have labelled : ∀ step ∈ before ++ rest, ∀ node suffix,
      step.function? = some (node, suffix) → program.DeclaresFunc node suffix :=
    fun step mem node suffix declares => ⟨step, split ▸ mem, declares⟩
  have start : FollowOutcome program.DeclaresFunc before (atRoot program) s :=
    (((inOrder_atRoot program.DeclaresFunc program).run_follow
      (fun step mem => tidy step (List.mem_append_left _ mem))
      (fun step mem => labelled step (List.mem_append_left _ mem))).of_ok first).1
  have later : FollowOutcome program.DeclaresFunc rest s built :=
    ((start.leaves.inOrder.run_follow
      (fun step mem => tidy step (List.mem_append_right _ mem))
      (fun step mem => labelled step (List.mem_append_right _ mem))).of_ok second).1
  have moves := start.moves (standing_atRoot program)
  exact ⟨moves.standing, (later.moves moves.standing).enlarges⟩

end Declaring

end NameResolution

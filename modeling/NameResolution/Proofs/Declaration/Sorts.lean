import NameResolution.Proofs.Declaration.Outcome
import NameResolution.Proofs.Declaration.Run
import NameResolution.Proofs.Tables.Moments

/-! # The first pass keeps the tables in order

    Whatever the program, and be it one that makes the first pass end with a
    fault: after each operation the tables are in order. Each kind of step is
    taken apart into the operations that it does. -/

namespace NameResolution

/-- The function that a step declares, with its label suffix. -/
def OutlineStep.function? : OutlineStep → Option (NodeId × String)
  | .declareFunc _ node _ _ suffix | .enterFunc _ node _ _ suffix => some (node, suffix)
  | _ => none

/-- A program declares a function at a node, with a label suffix. -/
def Program.DeclaresFunc (program : Program) (node : NodeId) (suffix : String) : Prop :=
  ∃ step ∈ Outline.ofProgram program, step.function? = some (node, suffix)

namespace Declaring

/-! ## Before and after a step -/

/-- The first pass and its tables are in order. -/
structure InOrder (labels : NodeId → String → Prop) (s : DeclareState) : Prop where
  sound : Sound labels (s.defs, s.tree)
  current : s.tree.Known s.current
  directives : ∀ d ∈ s.directives, s.tree.Known d.module

/-- A part of the first pass has left everything in order, and so did each of its operations. -/
structure Leaves (labels : NodeId → String → Prop) (s s' : DeclareState) : Prop where
  passes : Passes labels (s.defs, s.tree) (s'.defs, s'.tree)
  inOrder : InOrder labels s'

variable {labels : NodeId → String → Prop} {isPub : Bool} {node : NodeId} {kind : DefKind}
  {ident : Ident} {suffix : String} {s s' s'' : DeclareState} {log log' log'' : Log}

theorem Leaves.refl (inOrder : InOrder labels s) : Leaves labels s s := ⟨.refl _, inOrder⟩

theorem Leaves.trans (h : Leaves labels s s') (h' : Leaves labels s' s'') :
    Leaves labels s s'' := ⟨h.passes.trans h'.passes, h'.inOrder⟩

/-- Where the modules that were there are there still. -/
theorem InOrder.leaves (h : InOrder labels s)
    (passes : Passes labels (s.defs, s.tree) (s'.defs, s'.tree))
    (known : ∀ id, s.tree.Known id → s'.tree.Known id) (current : s'.tree.Known s'.current)
    (directives : s'.directives = s.directives) : Leaves labels s s' := by
  refine ⟨passes, passes.sound h.sound, current, fun d mem => ?_⟩
  rw [directives] at mem
  exact known _ (h.directives d mem)

/-! ## Definitions -/

theorem InOrder.passes_define (h : InOrder labels s) (notAlias : kind ≠ .importAlias)
    (unused : s.defs.ofNode? node = none) :
    Passes labels (s.defs, s.tree) (declaredIn s isPub node kind ident, s.tree) := by
  have valid := h.sound.intact.validDefs
  refine .single (.define (Definitions.define_eq notAlias unused)) ⟨?_, ?_⟩
  · exact h.sound.intact.declared unused
  · exact h.sound.sorted.keeps (Definitions.keeps_declared ..) valid valid.declared
      (h.sound.sorted.defs.declared valid notAlias)

theorem known_modify {id : ModuleId} {ns : Namespace} {name : String} {binding : Binding}
    (id' : ModuleId) (known : s.tree.Known id') :
    (s.tree.modify id (·.bind ns name binding)).Known id' :=
  ModuleTree.grows_bind.known_iff.mpr known

/-- A definition that is not called, and its name. The tables are in order before it has that,
    too. -/
theorem InOrder.leaves_name (h : InOrder labels s) (notCallable : kind.isCallable = false)
    (unused : s.defs.ofNode? node = none) (outcome : NameOutcome isPub node kind ident s s') :
    Leaves labels s s' ∧ Sound labels (s'.defs, s.tree) := by
  have notAlias : kind ≠ .importAlias := by
    rintro rfl
    cases notCallable
  have defined : Passes labels (s.defs, s.tree) (declaredIn s isPub node kind ident, s.tree) :=
    h.passes_define notAlias unused
  have sound := defined.sound h.sound
  cases outcome with
  | @bound ns m sort found takes free =>
    have sorted : Binding.Sorted (declaredIn s isPub node kind ident) ns
        (.definition s.defs.nextId) :=
      ⟨_, Definitions.find?_declared_nextId, sort, notCallable⟩
    have noSet : ∀ set, Binding.definition s.defs.nextId = .overloads set → ∀ other ns' name',
        s.tree.bindingAt? other ns' name' ≠ some (.overloads set) := by
      intro set eq
      cases eq
    exact ⟨h.leaves (defined.trans (sound.bind found takes free sorted noSet)) known_modify
      (known_modify _ h.current) rfl, sound⟩
  | taken sort taken reported => exact ⟨h.leaves defined (fun _ => id) h.current rfl, sound⟩

/-! ## Functions -/

/-- A function finally is itself. -/
theorem InOrder.finallyIs_func (h : InOrder labels s) {kind : FuncKind}
    (labelled : labels node suffix) :
    (declaredIn s isPub node (kindOf kind) ident).FinallyIs s.defs.nextId fun d =>
      (d.kind = .func ∨ d.kind = .init) ∧ labels d.node suffix := by
  have valid : (declaredIn s isPub node (kindOf kind) ident).Valid :=
    h.sound.intact.validDefs.declared
  refine Definitions.finallyIs_self valid Definitions.find?_declared_nextId rfl ⟨?_, labelled⟩
  cases kind with
  | func => exact .inl rfl
  | init => exact .inr rfl

/-- A function that has just been defined is in no set yet. -/
theorem InOrder.not_member (h : InOrder labels s) (set : OverloadId) (suffix' : String) :
    (declaredIn s isPub node kind ident).member? set suffix' ≠ some s.defs.nextId := by
  intro mem
  have mem : s.defs.member? set suffix' = some s.defs.nextId := mem
  exact Nat.lt_irrefl _ (h.sound.intact.validDefs.known_of_member? mem)

theorem InOrder.leaves_func (h : InOrder labels s) {kind : FuncKind} {free : Bool}
    (labelled : labels node suffix) (unused : s.defs.ofNode? node = none)
    (outcome : FuncOutcome isPub node (kindOf kind) ident suffix s free s') :
    Leaves labels s s' ∧ Sound labels (s'.defs, s.tree) := by
  have notAlias : kindOf kind ≠ .importAlias := by cases kind <;> decide
  have defined : Passes labels (s.defs, s.tree)
      (declaredIn s isPub node (kindOf kind) ident, s.tree) := h.passes_define notAlias unused
  have sound := defined.sound h.sound
  -- the function joins a set in a second operation, whatever comes of it
  have added {set : Option OverloadId} {r : Definitions.Added × Definitions}
      (made : (declaredIn s isPub node (kindOf kind) ident).addFunction s.defs.nextId set suffix =
        .ok r) :
      Passes labels (s.defs, s.tree) (r.2, s.tree) ∧ ∀ into, r.1 = .added into →
        into = ((declaredIn s isPub node (kindOf kind) ident).overloadsOrNew set).1 ∧
          r.2.Stocked into := by
    obtain ⟨gains, stocked⟩ := Yields.true_iff.mp (Definitions.Gains.addFunction
      sound.intact.validDefs sound.sorted.defs (h.finallyIs_func labelled) h.not_member) r made
    exact ⟨defined.trans (.single (.addFunction made) (sound.gains gains)), stocked⟩
  cases outcome with
  | joined _ made | suffixTaken _ made _ =>
    have passes := (added made).1
    exact ⟨h.leaves passes (fun _ => id) h.current rfl, passes.sound h.sound⟩
  | blocked taken other reported => exact ⟨h.leaves defined (fun _ => id) h.current rfl, sound⟩
  | @opened set defs isFree made =>
    obtain ⟨passes, isNew⟩ := added made
    obtain ⟨eq, stocked⟩ := isNew set rfl
    obtain ⟨m, found⟩ := h.current.find?
    -- no name can have the set already, as it has only just been made
    have noSet : ∀ other, Binding.overloads set = .overloads other → ∀ module ns name,
        s.tree.bindingAt? module ns name ≠ some (.overloads other) := by
      rintro _ ⟨⟩
      refine h.sound.not_bound_of_new ?_
      rw [eq]
      rfl
    have takes : ¬ (Namespace.value = .lifetime ∧ m.owner.isBlock) := by
      rintro ⟨lifetime, -⟩
      cases lifetime
    have sorted : Binding.Sorted defs .value (.overloads set) := ⟨rfl, stocked⟩
    have unnamed := passes.sound h.sound
    have named := unnamed.bind found takes isFree sorted noSet
    exact ⟨h.leaves (passes.trans named) known_modify (known_modify _ h.current) rfl, unnamed⟩

/-! ## Modules -/

/-- A module below the current one, and its owner. The tables are in order before that is told of
    it, too. -/
theorem InOrder.leaves_child (h : InOrder labels s) {owner : ModuleOwner} {module : ModuleId}
    {tree : ModuleTree} {defs : Definitions} (adds : s.tree.Adds s.current owner node tree)
    (isNew : module = s.tree.nextId) (owned : ∀ id, owner = .definition id → s.defs.Known id)
    (child : TableOperation (s.defs, s.tree) (s.defs, tree))
    (made : TableOperation (s.defs, tree) (defs, tree)) (keeps : s.defs.Keeps defs)
    (intact : Intact s.defs tree → tree.Known module → Intact defs tree)
    (sorted : defs.Valid → defs.WellSorted labels) :
    Leaves labels s { s with tree, defs, current := module } ∧ Sound labels (s.defs, tree) := by
  have known : tree.Known module := isNew ▸ adds.known_nextId
  have grown : Sound labels (s.defs, tree) :=
    ⟨h.sound.intact.adds adds h.current owned, h.sound.sorted.adds adds⟩
  have intact' := intact grown.intact known
  have sound : Sound labels (defs, tree) :=
    ⟨intact', grown.sorted.keeps keeps grown.intact.validDefs intact'.validDefs
      (sorted intact'.validDefs)⟩
  exact ⟨h.leaves ((Passes.single child grown).trans (.single made sound))
    (fun _ => adds.toExtends.known) known rfl, grown⟩

theorem InOrder.leaves_enter (h : InOrder labels s) {id : DefId} {name : Option String}
    (known : s.defs.Known id) (outcome : EnterOutcome id node s name s') :
    Leaves labels s s' ∧ Sound labels (s.defs, s'.tree) := by
  have validTree := h.sound.intact.validTree
  have owned : ∀ id', ModuleOwner.definition id = .definition id' → s.defs.Known id' := by
    rintro _ ⟨⟩
    exact known
  -- whichever way the module is known, its owner is told of it next
  have enters {module : ModuleId} {tree : ModuleTree} {defs : Definitions}
      (adds : module = s.tree.nextId ∧ s.tree.Adds s.current (.definition id) node tree)
      (child : TableOperation (s.defs, s.tree) (s.defs, tree))
      (made : s.defs.addModule id module = .ok defs) :
      Leaves labels s { s with tree, defs, current := module } ∧ Sound labels (s.defs, tree) := by
    obtain ⟨free, rfl⟩ := Definitions.addModule_eq_ok.mp made
    exact h.leaves_child adds.2 adds.1 owned child (.addModule made) (.of_eq rfl rfl)
      (fun intact there => intact.withModule known free there)
      (fun valid => h.sound.sorted.defs.of_eq h.sound.intact.validDefs valid rfl rfl)
  cases outcome with
  | named child made =>
    exact enters (ModuleTree.adds_of_addNamed validTree child node) (.addNamed child) made
  | anonymous child made =>
    exact enters (ModuleTree.adds_of_addAnonymous validTree child) (.addAnonymous child) made

theorem InOrder.leaves_enterBlock (h : InOrder labels s) {module : ModuleId} {tree : ModuleTree}
    {defs : Definitions}
    (child : s.tree.addAnonymous s.current node (.block node) = .ok (module, tree))
    (made : s.defs.addBlock node module = .ok defs) :
    Leaves labels s { s with tree, defs, current := module } ∧ Sound labels (s.defs, tree) := by
  obtain ⟨free, rfl⟩ := Definitions.addBlock_eq_ok.mp made
  obtain ⟨isNew, adds⟩ := ModuleTree.adds_of_addAnonymous h.sound.intact.validTree child
  have noOwner : ∀ id, ModuleOwner.block node = .definition id → s.defs.Known id := by
    intro id eq
    cases eq
  exact h.leaves_child adds isNew noOwner (.addAnonymous child) (.addBlock made) (.of_eq rfl rfl)
    (fun intact there => intact.withBlock free there)
    (fun valid => h.sound.sorted.defs.of_eq h.sound.intact.validDefs valid rfl rfl)

/-! ## Steps -/

/-- A part of the first pass has left everything in order, and in order the tables have been at
    each moment that is noted. -/
structure Goes (labels : NodeId → String → Prop) (s : DeclareState) (log : Log)
    (s' : DeclareState) (log' : Log) : Prop where
  leaves : Leaves labels s s'
  notes : log.NotesSound labels log'

theorem Goes.trans (h : Goes labels s log s' log') (h' : Goes labels s' log' s'' log'') :
    Goes labels s log s'' log'' := ⟨h.leaves.trans h'.leaves, h.notes.trans h'.notes⟩

/-- Something has been declared, and then its name. -/
theorem InOrder.goes_declared (h : InOrder labels s) (notAlias : kind ≠ .importAlias)
    (unused : s.defs.ofNode? node = none)
    (declared : Leaves labels s s' ∧ Sound labels (s'.defs, s.tree))
    (noted : log.Notes (DeclaresNoted isPub node kind ident s s') log') :
    Goes labels s log s' log' := by
  obtain ⟨leaves, unnamed⟩ := declared
  refine ⟨leaves, noted.mono ?_⟩
  rintro _ (rfl | rfl | rfl)
  · exact (h.passes_define notAlias unused).sound h.sound
  · exact unnamed
  · exact leaves.inOrder.sound

/-- A module has been opened, and then its owner was told of it. -/
theorem goes_entered (entered : Leaves labels s s' ∧ Sound labels (s.defs, s'.tree))
    (noted : log.Notes (EntersNoted s s') log') : Goes labels s log s' log' := by
  obtain ⟨leaves, opened⟩ := entered
  refine ⟨leaves, noted.mono ?_⟩
  rintro _ (rfl | rfl)
  · exact opened
  · exact leaves.inOrder.sound

theorem InOrder.run_declare (h : InOrder labels s) (notCallable : kind.isCallable = false) :
    Run True (declare isPub node kind ident) s log fun id s' log' =>
      s.defs.ofNode? node = none ∧ id = s.defs.nextId ∧ NameOutcome isPub node kind ident s s' ∧
        Goes labels s log s' log' := by
  have notAlias : kind ≠ .importAlias := by
    rintro rfl
    cases notCallable
  apply run_declare_outcome.mono
  rintro _ s₁ log₁ ⟨unused, isNew, outcome, noted⟩
  have leaves := h.leaves_name notCallable unused outcome
  exact ⟨unused, isNew, outcome, h.goes_declared notAlias unused leaves noted⟩

theorem InOrder.run_declareFunc (h : InOrder labels s) {kind : FuncKind}
    (labelled : labels node suffix) :
    Run True (declareFunc isPub node kind ident suffix) s log fun r s' log' =>
      s.defs.ofNode? node = none ∧ r.1 = s.defs.nextId ∧
        FuncOutcome isPub node (kindOf kind) ident suffix s r.2 s' ∧ Goes labels s log s' log' := by
  have notAlias : kindOf kind ≠ .importAlias := by cases kind <;> decide
  apply run_declareFunc_outcome.mono
  rintro r s₁ log₁ ⟨unused, isNew, outcome, noted⟩
  have leaves := h.leaves_func labelled unused outcome
  exact ⟨unused, isNew, outcome, h.goes_declared notAlias unused leaves noted⟩

/-- What has just been defined opens its module. -/
theorem Goes.run_enter (h : Goes labels s log s' log') {id : DefId} {name : Option String}
    (ofNode : s'.defs.ofNode? node = some id) :
    Run True (enter id name node) s' log' fun _ s'' log'' =>
      EnterOutcome id node s' name s'' ∧ Goes labels s log s'' log'' := by
  have inOrder := h.leaves.inOrder
  have known := inOrder.sound.intact.validDefs.known_of_node ofNode
  exact run_enter_outcome.mono fun _ _ _ ⟨outcome, noted⟩ =>
    ⟨outcome, h.trans (goes_entered (inOrder.leaves_enter known outcome) noted)⟩

/-- What a step comes to, whatever it is. It leaves everything in order. -/
theorem InOrder.run_step (h : InOrder labels s) (step : OutlineStep) (tidy : step.Tidy)
    (labelled : ∀ node suffix, step.function? = some (node, suffix) → labels node suffix) :
    Run True (Declaring.step step) s log fun _ s' log' =>
      StepOutcome s step s' ∧ Goes labels s log s' log' := by
  cases step with
  | declare isPub node kind ident =>
    simp only [Declaring.step, Run.bind_iff, Run.pure_iff]
    apply (h.run_declare tidy).mono
    rintro _ s₁ log₁ ⟨unused, -, outcome, goes⟩
    exact ⟨.declare unused outcome, goes⟩
  | enterItem isPub node kind ident =>
    simp only [Declaring.step, Run.bind_iff]
    apply (h.run_declare (DefKind.isCallable_of_type tidy)).mono
    rintro _ s₁ log₁ ⟨unused, rfl, outcome, goes⟩
    apply (goes.run_enter outcome.ofNode?).mono
    rintro _ s₂ log₂ ⟨entered, goes'⟩
    exact ⟨.enterItem unused outcome entered, goes'⟩
  | enterImpl isPub node span =>
    simp only [Declaring.step, Run.bind_iff]
    apply run_define_eq.mono
    rintro _ _ log₁ ⟨notAlias, unused, rfl, rfl, noted⟩
    -- nothing binds it
    have defined : Passes labels (s.defs, s.tree)
        (declaredIn s isPub node .impl ⟨"impl", span⟩, s.tree) := h.passes_define notAlias unused
    have goes : Goes labels s log
        { s with defs := declaredIn s isPub node .impl ⟨"impl", span⟩ } log₁ :=
      ⟨h.leaves defined (fun _ => id) h.current rfl,
        noted.mono fun _ eq => eq ▸ defined.sound h.sound⟩
    apply (goes.run_enter Definitions.ofNode?_declared_self).mono
    rintro _ s₂ log₂ ⟨entered, goes'⟩
    exact ⟨.enterImpl unused entered, goes'⟩
  | declareFunc isPub node kind ident suffix =>
    simp only [Declaring.step, Run.bind_iff, Run.pure_iff]
    apply (h.run_declareFunc (labelled _ _ rfl)).mono
    rintro _ s₁ log₁ ⟨unused, -, outcome, goes⟩
    exact ⟨.declareFunc unused outcome, goes⟩
  | enterFunc isPub node kind ident suffix =>
    simp only [Declaring.step, Run.bind_iff]
    apply (h.run_declareFunc (labelled _ _ rfl)).mono
    rintro ⟨_, free⟩ s₁ log₁ ⟨unused, rfl, outcome, goes⟩
    apply (goes.run_enter outcome.ofNode?).mono
    rintro _ s₂ log₂ ⟨entered, goes'⟩
    exact ⟨.enterFunc unused outcome entered, goes'⟩
  | enterBlock node =>
    apply run_enterBlock_eq.mono
    rintro _ _ _ ⟨noted, module, tree, defs, child, made, rfl⟩
    exact ⟨.enterBlock child made, goes_entered (h.leaves_enterBlock child made) noted⟩
  | leave =>
    apply run_leave_eq.mono
    rintro _ _ _ ⟨rfl, m, parent, found, inside, rfl⟩
    have known := h.sound.intact.validTree.known_parent found inside
    exact ⟨.leave found inside, h.leaves (.refl _) (fun _ => id) known rfl, .refl _⟩
  | imports i =>
    simp only [Declaring.step, Run.modify_iff]
    refine ⟨.imports i, ⟨.refl _, h.sound, h.current, fun d mem => ?_⟩, .refl log⟩
    rcases List.mem_append.mp mem with mem | mem
    · exact h.directives d mem
    · rw [List.mem_singleton.mp mem]
      exact h.current

/-! ## Outlines -/

/-- What following an outline comes to, step by step. Each step leaves everything in order. -/
inductive FollowOutcome (labels : NodeId → String → Prop) :
    Outline → DeclareState → DeclareState → Prop where
  | nil {s : DeclareState} (inOrder : InOrder labels s) : FollowOutcome labels [] s s
  | cons {step : OutlineStep} {outline : Outline} {s s' s'' : DeclareState}
      (inOrder : InOrder labels s) (outcome : StepOutcome s step s') (leaves : Leaves labels s s')
      (others : FollowOutcome labels outline s' s'') :
      FollowOutcome labels (step :: outline) s s''

theorem InOrder.run_follow (h : InOrder labels s) {outline : Outline}
    (tidy : ∀ step ∈ outline, step.Tidy)
    (labelled : ∀ step ∈ outline, ∀ node suffix, step.function? = some (node, suffix) →
      labels node suffix) :
    Run True (follow outline) s log fun _ s' log' =>
      FollowOutcome labels outline s s' ∧ log.NotesSound labels log' := by
  induction outline generalizing s log with
  | nil => exact ⟨.nil h, .refl log⟩
  | cons step outline ih =>
    obtain ⟨first, tidy⟩ := List.forall_mem_cons.mp tidy
    obtain ⟨first', labelled⟩ := List.forall_mem_cons.mp labelled
    rw [follow_cons, Run.bind_iff]
    apply (h.run_step step first first').mono
    rintro _ s₁ log₁ ⟨outcome, leaves, notes⟩
    exact (ih leaves.inOrder tidy labelled).mono fun _ _ _ ⟨others, notes'⟩ =>
      ⟨.cons h outcome leaves others, notes.trans notes'⟩

namespace FollowOutcome

variable {outline : Outline}

theorem leaves (h : FollowOutcome labels outline s s') : Leaves labels s s' := by
  induction h with
  | nil inOrder => exact .refl inOrder
  | cons _ _ leaves _ ih => exact leaves.trans ih

/-- What each step keeps an outline keeps. -/
theorem keeps {motive : DeclareState → Prop} (h : FollowOutcome labels outline s s')
    (start : motive s)
    (each : ∀ {step : OutlineStep} {s s' : DeclareState}, step ∈ outline → InOrder labels s →
      StepOutcome s step s' → motive s → motive s') : motive s' := by
  induction h with
  | nil _ => exact start
  | cons inOrder outcome _ _ ih =>
    exact ih (each (List.mem_cons_self ..) inOrder outcome start) fun mem =>
      each (List.mem_cons_of_mem _ mem)

end FollowOutcome

/-! ## The program -/

theorem sound_programOnly (labels : NodeId → String → Prop) (program : Program) :
    Sound labels
      (Definitions.empty.declared true program.id .mod ⟨"[root]", program.span⟩, .new) := by
  have empty := WellSorted.empty labels
  exact ⟨intact_programOnly program, empty.keeps (Definitions.keeps_declared ..) .empty
    (.declared .empty) (empty.defs.declared .empty (by decide))⟩

theorem sound_rootOnly (labels : NodeId → String → Prop) (program : Program) :
    Sound labels (rootOnly program, .new) := by
  have before := sound_programOnly labels program
  have valid : (rootOnly program).Valid := (intact_rootOnly program).validDefs
  exact ⟨intact_rootOnly program, before.sorted.keeps (.of_eq rfl rfl) before.intact.validDefs
    valid (before.sorted.defs.of_eq before.intact.validDefs valid rfl rfl)⟩

theorem inOrder_atRoot (labels : NodeId → String → Prop) (program : Program) :
    InOrder labels (atRoot program) :=
  ⟨sound_rootOnly labels program, ModuleTree.Valid.new.known_root, List.forall_mem_nil _⟩

/-- The program itself is defined first, and owns the root. -/
theorem passes_rootOnly (labels : NodeId → String → Prop) (program : Program) :
    Passes labels (.empty, .new) (rootOnly program, .new) := by
  have unused : Definitions.empty.ofNode? program.id = none := by
    simp [Definitions.empty, Definitions.ofNode?]
  have notAlias : DefKind.mod ≠ .importAlias := by decide
  have define : TableOperation (.empty, .new)
      (Definitions.empty.declared true program.id .mod ⟨"[root]", program.span⟩, .new) :=
    .define (Definitions.define_eq notAlias unused)
  have addModule : TableOperation
      (Definitions.empty.declared true program.id .mod ⟨"[root]", program.span⟩, .new)
      (rootOnly program, .new) :=
    .addModule (Definitions.addModule_eq (module?_programOnly program))
  exact (Passes.single define (sound_programOnly labels program)).trans
    (.single addModule (sound_rootOnly labels program))

end Declaring

/-- The first pass comes to what the outline of the program comes to, from tables with the program
    only. They are in order at each moment that is noted. -/
theorem declareProgram_noted {program : Program} {built : DeclareState} {log log' : Log}
    (declared : declareProgram .empty .new program log = .ok built log') :
    Declaring.FollowOutcome program.DeclaresFunc (.ofProgram program) (Declaring.atRoot program)
      built ∧ log.NotesSound program.DeclaresFunc log' := by
  have inOrder := Declaring.inOrder_atRoot program.DeclaresFunc program
  obtain ⟨log₀, log₁, event, noted, followed, rfl⟩ := declareProgram_follows declared
  have opening : log.NotesSound program.DeclaresFunc log₀ := by
    apply noted.mono
    rintro _ (rfl | rfl)
    · exact Declaring.sound_programOnly _ program
    · exact Declaring.sound_rootOnly _ program
  obtain ⟨outcome, notes⟩ := (inOrder.run_follow program.declares_outline.tidy
    fun step mem _ _ declares => ⟨step, mem, declares⟩).of_ok followed
  exact ⟨outcome, (opening.trans notes).trans (.push event)⟩

theorem declareProgram_outcome {program : Program} {built : DeclareState} {log log' : Log}
    (declared : declareProgram .empty .new program log = .ok built log') :
    Declaring.FollowOutcome program.DeclaresFunc (.ofProgram program) (Declaring.atRoot program)
      built := (declareProgram_noted declared).1

/-- Whatever tables the first pass makes, they come about in order. -/
theorem declareProgram_passes {program : Program} {built : DeclareState} {log log' : Log}
    (declared : declareProgram .empty .new program log = .ok built log') :
    Passes program.DeclaresFunc (.empty, .new) (built.defs, built.tree) ∧
      Declaring.InOrder program.DeclaresFunc built := by
  have leaves := (declareProgram_outcome declared).leaves
  exact ⟨(Declaring.passes_rootOnly _ program).trans leaves.passes, leaves.inOrder⟩

/-- The definition of the program is made first, and it is that of a `mod`. -/
theorem find?_root_of_declareProgram {program : Program} {built : DeclareState}
    {log log' : Log}
    (declared : declareProgram .empty .new program log = .ok built log') :
    built.defs.find? .root =
      some ⟨.root, .mod, ⟨"[root]", program.span⟩, true, program.id, none⟩ := by
  have made : (Declaring.rootOnly program).find? .root =
      some ⟨.root, .mod, ⟨"[root]", program.span⟩, true, program.id, none⟩ :=
    Definitions.find?_declared_nextId
  exact (declareProgram_outcome declared).leaves.passes.keeps.defined made

end NameResolution

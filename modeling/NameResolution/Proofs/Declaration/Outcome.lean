import NameResolution.Outline.Declare
import NameResolution.Proofs.Journal
import NameResolution.Proofs.Tables.Modules

/-! # What becomes of a declaration

    A declaration gets a definition of its own and, where its name is free, the
    name. Where it is taken this is reported, and the definition stays without a
    name. Each step of the first pass is described once, by everything it does
    to the state; what a program has to be like for it to go through is not
    looked at here. -/

namespace NameResolution

namespace Declaring

/-! ## Steps -/

/-- The table with a declaration at a node, as a step of the first pass makes it. -/
abbrev declaredIn (s : DeclareState) (isPub : Bool) (node : NodeId) (kind : DefKind)
    (ident : Ident) : Definitions := s.defs.declared isPub node kind ident

/-- The kind of a function's definition. -/
def kindOf : FuncKind → DefKind
  | .func => .func
  | .init => .init

/-- What defining something and binding its name comes to. -/
inductive NameOutcome (isPub : Bool) (node : NodeId) (kind : DefKind) (ident : Ident)
    (s : DeclareState) : DeclareState → Prop where
  | bound {ns : Namespace} {m : Module} (sort : kind.namespace? = some ns)
      (found : s.tree.find? s.current = some m) (takes : ¬ (ns = .lifetime ∧ m.owner.isBlock))
      (free : s.tree.bindingAt? s.current ns ident.name = none) :
      NameOutcome isPub node kind ident s
        { s with
          defs := declaredIn s isPub node kind ident
          tree := s.tree.modify s.current (·.bind ns ident.name (.definition s.defs.nextId)) }
  /-- The name is taken, and the definition is left without one -/
  | taken {ns : Namespace} {first : Binding} {report : Diagnostic}
      (sort : kind.namespace? = some ns)
      (taken : s.tree.bindingAt? s.current ns ident.name = some first)
      (reported : redefinition (declaredIn s isPub node kind ident) ident.name ident.span first =
        .ok report) :
      NameOutcome isPub node kind ident s
        { s with
          defs := declaredIn s isPub node kind ident
          diagnostics := s.diagnostics ++ [report] }

/-- What defining a function comes to, and whether its name and suffix were free. -/
inductive FuncOutcome (isPub : Bool) (node : NodeId) (kind : DefKind) (ident : Ident)
    (suffix : String) (s : DeclareState) : Bool → DeclareState → Prop where
  /-- It joins the functions of its name -/
  | joined {set into : OverloadId} {defs : Definitions}
      (bound : s.tree.bindingAt? s.current .value ident.name = some (.overloads set))
      (made : (declaredIn s isPub node kind ident).addFunction s.defs.nextId (some set) suffix =
        .ok (.added into, defs)) :
      FuncOutcome isPub node kind ident suffix s true { s with defs }
  /-- One of them has its suffix -/
  | suffixTaken {set : OverloadId} {first : DefId} {defs : Definitions} {report : Diagnostic}
      (bound : s.tree.bindingAt? s.current .value ident.name = some (.overloads set))
      (made : (declaredIn s isPub node kind ident).addFunction s.defs.nextId (some set) suffix =
        .ok (.taken first, defs))
      (reported : redefinition defs (ident.name ++ suffix) ident.span (.definition first) =
        .ok report) :
      FuncOutcome isPub node kind ident suffix s false
        { s with defs, diagnostics := s.diagnostics ++ [report] }
  /-- Something else has its name -/
  | blocked {first : Binding} {report : Diagnostic}
      (taken : s.tree.bindingAt? s.current .value ident.name = some first)
      (other : ∀ set, first ≠ .overloads set)
      (reported : redefinition (declaredIn s isPub node kind ident) (ident.name ++ suffix)
        ident.span first = .ok report) :
      FuncOutcome isPub node kind ident suffix s false
        { s with
          defs := declaredIn s isPub node kind ident
          diagnostics := s.diagnostics ++ [report] }
  /-- It is the first one of its name -/
  | opened {set : OverloadId} {defs : Definitions}
      (free : s.tree.bindingAt? s.current .value ident.name = none)
      (made : (declaredIn s isPub node kind ident).addFunction s.defs.nextId none suffix =
        .ok (.added set, defs)) :
      FuncOutcome isPub node kind ident suffix s true
        { s with
          defs
          tree := s.tree.modify s.current (·.bind .value ident.name (.overloads set)) }

/-- What entering the module of a definition comes to, for the name that it is to be known by. -/
inductive EnterOutcome (id : DefId) (node : NodeId) (s : DeclareState) :
    Option String → DeclareState → Prop where
  | named {name : String} {module : ModuleId} {tree : ModuleTree} {defs : Definitions}
      (child : s.tree.addNamed s.current name (.definition id) = .ok (module, tree))
      (made : s.defs.addModule id module = .ok defs) :
      EnterOutcome id node s (some name) { s with tree, defs, current := module }
  /-- It has no name, or a sibling has it -/
  | anonymous {name : Option String} {module : ModuleId} {tree : ModuleTree} {defs : Definitions}
      (child : s.tree.addAnonymous s.current node (.definition id) = .ok (module, tree))
      (made : s.defs.addModule id module = .ok defs) :
      EnterOutcome id node s name { s with tree, defs, current := module }

/-- What following a step comes to. -/
inductive StepOutcome (s : DeclareState) : OutlineStep → DeclareState → Prop where
  | declare {isPub : Bool} {node : NodeId} {kind : DefKind} {ident : Ident} {s' : DeclareState}
      (unused : s.defs.ofNode? node = none) (outcome : NameOutcome isPub node kind ident s s') :
      StepOutcome s (.declare isPub node kind ident) s'
  | enterItem {isPub : Bool} {node : NodeId} {kind : DefKind} {ident : Ident}
      {s₁ s' : DeclareState} (unused : s.defs.ofNode? node = none)
      (outcome : NameOutcome isPub node kind ident s s₁)
      (entered : EnterOutcome s.defs.nextId node s₁ (some ident.name) s') :
      StepOutcome s (.enterItem isPub node kind ident) s'
  /-- An impl has no name to bind -/
  | enterImpl {isPub : Bool} {node : NodeId} {span : Span} {s' : DeclareState}
      (unused : s.defs.ofNode? node = none)
      (entered : EnterOutcome s.defs.nextId node
        { s with defs := declaredIn s isPub node .impl ⟨"impl", span⟩ } none s') :
      StepOutcome s (.enterImpl isPub node span) s'
  | declareFunc {isPub : Bool} {node : NodeId} {kind : FuncKind} {ident : Ident} {suffix : String}
      {free : Bool} {s' : DeclareState} (unused : s.defs.ofNode? node = none)
      (outcome : FuncOutcome isPub node (kindOf kind) ident suffix s free s') :
      StepOutcome s (.declareFunc isPub node kind ident suffix) s'
  | enterFunc {isPub : Bool} {node : NodeId} {kind : FuncKind} {ident : Ident} {suffix : String}
      {free : Bool} {s₁ s' : DeclareState} (unused : s.defs.ofNode? node = none)
      (outcome : FuncOutcome isPub node (kindOf kind) ident suffix s free s₁)
      (entered : EnterOutcome s.defs.nextId node s₁
        (if free then some (ident.name ++ suffix) else none) s') :
      StepOutcome s (.enterFunc isPub node kind ident suffix) s'
  | enterBlock {node : NodeId} {module : ModuleId} {tree : ModuleTree} {defs : Definitions}
      (child : s.tree.addAnonymous s.current node (.block node) = .ok (module, tree))
      (made : s.defs.addBlock node module = .ok defs) :
      StepOutcome s (.enterBlock node) { s with tree, defs, current := module }
  | leave {m : Module} {parent : ModuleId} (found : s.tree.find? s.current = some m)
      (inside : m.parent = some parent) : StepOutcome s .leave { s with current := parent }
  | imports (i : Import) :
      StepOutcome s (.imports i)
        { s with directives := s.directives ++ [{ i with module := s.current }] }

variable {isPub : Bool} {node : NodeId} {kind : DefKind} {ident : Ident} {suffix : String}
  {s s' : DeclareState} {log : Log}

/-- What is noted when something is declared: its definition is there first, and whatever more
    there is to define is there before the name. -/
def DeclaresNoted (isPub : Bool) (node : NodeId) (kind : DefKind) (ident : Ident)
    (s s' : DeclareState) (moment : Moment) : Prop :=
  moment = .written (declaredIn s isPub node kind ident) s.tree ∨
    moment = .written s'.defs s.tree ∨ moment = .written s'.defs s'.tree

/-- What is noted when a module is entered: it is there before its owner is told of it. -/
def EntersNoted (s s' : DeclareState) (moment : Moment) : Prop :=
  moment = .written s.defs s'.tree ∨ moment = .written s'.defs s'.tree

/-! ## Running -/

@[simp] theorem run_setDefs_iff {onFault : Prop} {defs : Definitions}
    {post : Unit → DeclareState → Log → Prop} :
    Run onFault (setDefs defs) s log post ↔
      post () { s with defs } (log.note (.written defs s.tree)) := Iff.rfl

@[simp] theorem run_setTree_iff {onFault : Prop} {tree : ModuleTree}
    {post : Unit → DeclareState → Log → Prop} :
    Run onFault (setTree tree) s log post ↔
      post () { s with tree } (log.note (.written s.defs tree)) := Iff.rfl

@[simp] theorem run_moveTo_iff {onFault : Prop} {module : ModuleId}
    {post : Unit → DeclareState → Log → Prop} :
    Run onFault (moveTo module) s log post ↔ post () { s with current := module } log := Iff.rfl

theorem run_define_eq :
    Run True (define isPub node kind ident) s log fun id s' log' =>
      kind ≠ .importAlias ∧ s.defs.ofNode? node = none ∧ id = s.defs.nextId ∧
        s' = { s with defs := declaredIn s isPub node kind ident } ∧
        log.Notes (· = .written (declaredIn s isPub node kind ident) s.tree) log' := by
  simp only [define, lift, Run.bind_iff, Run.get_iff, Run.emit_iff, Run.lift_iff,
    run_setDefs_iff, Run.pure_iff]
  apply Yields.true_iff.mpr
  intro r made
  obtain ⟨notAlias, free, rfl⟩ := Definitions.define_eq_ok.mp made
  exact ⟨notAlias, free, rfl, rfl, (Log.Notes.push _).trans (.note rfl)⟩

theorem run_reportTaken_eq {text : String} {span : Span} {first : Binding} :
    Run True (reportTaken text span first) s log fun _ s' log' =>
      (∃ report, redefinition s.defs text span first = .ok report ∧
        s' = { s with diagnostics := s.diagnostics ++ [report] }) ∧ log' = log := by
  simp only [reportTaken, report, lift, Run.bind_iff, Run.get_iff, Run.lift_iff, Run.modify_iff]
  exact Yields.true_iff.mpr fun report eq => ⟨⟨report, eq, rfl⟩, trivial⟩

theorem run_bind_eq {ns : Namespace} {text : String} {binding : Binding} :
    Run True (bind ns text binding) s log fun first s' log' =>
      first = s.tree.bindingAt? s.current ns text ∧
        (first = none → (∃ m, s.tree.find? s.current = some m ∧
            ¬ (ns = .lifetime ∧ m.owner.isBlock)) ∧
          s' = { s with tree := s.tree.modify s.current (·.bind ns text binding) }) ∧
        (first ≠ none → s' = s) ∧ log.Notes (· = .written s'.defs s'.tree) log' := by
  simp only [bind, lift, Run.bind_iff, Run.get_iff, Run.lift_iff, ModuleTree.yields_bind]
  apply Yields.true_iff.mpr
  intro m got
  have found := ModuleTree.find?_of_get got
  rw [ModuleTree.bindingAt?_of_find? found]
  split
  · trivial
  · next takes =>
    split
    · next first bound => exact ⟨bound.symm, by simp, fun _ => rfl, .refl log⟩
    · next free => exact ⟨free.symm, fun _ => ⟨⟨m, found, takes⟩, rfl⟩, by simp, .note rfl⟩

theorem run_declare_outcome :
    Run True (declare isPub node kind ident) s log fun id s' log' =>
      s.defs.ofNode? node = none ∧ id = s.defs.nextId ∧
        NameOutcome isPub node kind ident s s' ∧
        log.Notes (DeclaresNoted isPub node kind ident s s') log' := by
  simp only [declare, Run.bind_iff]
  apply run_define_eq.mono
  rintro _ _ log₁ ⟨-, unused, rfl, rfl, defined⟩
  split
  · simp [lift]
  · next ns sort =>
    rw [Run.bind_iff]
    apply run_bind_eq.mono
    rintro first s₂ log₂ ⟨bound, isFree, isTaken, named⟩
    have noted : log.Notes (DeclaresNoted isPub node kind ident s s₂) log₂ :=
      (defined.mono fun _ => .inl).trans (named.mono fun _ eq => .inr (.inr eq))
    cases first with
    | none =>
      obtain ⟨⟨m, found, takes⟩, rfl⟩ := isFree rfl
      exact ⟨unused, rfl, .bound sort found takes bound.symm, noted⟩
    | some first =>
      obtain rfl := isTaken (by simp)
      simp only [Run.bind_iff, Run.pure_iff]
      apply run_reportTaken_eq.mono
      rintro _ _ _ ⟨⟨report, reported, rfl⟩, rfl⟩
      exact ⟨unused, trivial, .taken sort bound.symm reported, noted⟩

theorem run_addFunction_eq {id : DefId} {set : Option OverloadId} :
    Run True (addFunction id set suffix) s log fun added s' log' =>
      ∃ defs, s.defs.addFunction id set suffix = .ok (added, defs) ∧ s' = { s with defs } ∧
        log.Notes (· = .written defs s.tree) log' := by
  simp only [addFunction, lift, Run.bind_iff, Run.get_iff, Run.lift_iff, run_setDefs_iff,
    Run.pure_iff]
  exact Yields.true_iff.mpr fun r made => ⟨r.2, made, rfl, .note rfl⟩

theorem run_declareFunc_outcome {kind : FuncKind} :
    Run True (declareFunc isPub node kind ident suffix) s log fun r s' log' =>
      s.defs.ofNode? node = none ∧ r.1 = s.defs.nextId ∧
        FuncOutcome isPub node (kindOf kind) ident suffix s r.2 s' ∧
        log.Notes (DeclaresNoted isPub node (kindOf kind) ident s s') log' := by
  simp only [declareFunc, Run.bind_iff, Run.get_iff, lift, Run.lift_iff]
  apply run_define_eq.mono
  rintro _ _ log₁ ⟨-, unused, rfl, rfl, noted⟩
  have defined {s' : DeclareState} :
      log.Notes (DeclaresNoted isPub node (kindOf kind) ident s s') log₁ :=
    noted.mono fun _ => .inl
  apply Yields.true_iff.mpr
  intro m got
  rw [← ModuleTree.bindingAt?_of_find? (ModuleTree.find?_of_get got)]
  split
  · next set bound =>
    rw [Run.bind_iff]
    apply run_addFunction_eq.mono
    rintro added _ log₂ ⟨defs, made, rfl, joined⟩
    cases added with
    | added into =>
      exact ⟨unused, rfl, .joined bound made,
        defined.trans (joined.mono fun _ eq => .inr (.inl eq))⟩
    | taken first =>
      simp only [Run.bind_iff, Run.pure_iff]
      apply run_reportTaken_eq.mono
      rintro _ _ _ ⟨⟨report, reported, rfl⟩, rfl⟩
      exact ⟨unused, trivial, .suffixTaken bound made reported,
        defined.trans (joined.mono fun _ eq => .inr (.inl eq))⟩
  · next first other bound =>
    simp only [Run.bind_iff, Run.pure_iff]
    apply run_reportTaken_eq.mono
    rintro _ _ _ ⟨⟨report, reported, rfl⟩, rfl⟩
    exact ⟨unused, trivial, .blocked bound other reported, defined⟩
  · next free =>
    rw [Run.bind_iff]
    apply run_addFunction_eq.mono
    rintro added _ log₂ ⟨defs, made, rfl, joined⟩
    cases added with
    | taken first => simp
    | added set =>
      rw [Run.bind_iff]
      apply run_bind_eq.mono
      rintro first s₃ log₃ ⟨bound, isFree, -, named⟩
      -- making the set has bound nothing, so the name is still free
      have noFirst : first = none := bound.trans free
      subst noFirst
      obtain ⟨-, rfl⟩ := isFree rfl
      exact ⟨unused, rfl, .opened free made, (defined.trans
        (joined.mono fun _ eq => .inr (.inl eq))).trans (named.mono fun _ eq => .inr (.inr eq))⟩

theorem run_enter_outcome {id : DefId} {name : Option String} :
    Run True (enter id name node) s log fun _ s' log' =>
      EnterOutcome id node s name s' ∧ log.Notes (EntersNoted s s') log' := by
  simp only [enter, lift, Run.bind_iff, Run.get_iff, Run.lift_iff, run_setTree_iff,
    run_setDefs_iff, run_moveTo_iff]
  refine Yields.trivial_of_true fun parent => ?_
  apply Yields.true_iff.mpr
  rintro ⟨module, tree⟩ child
  apply Yields.true_iff.mpr
  intro defs made
  refine ⟨?_, (Log.Notes.note (.inl rfl)).trans (.note (.inr rfl))⟩
  split at child
  · next key free =>
    -- the name is only given where no sibling has it
    obtain ⟨rfl, -⟩ := Option.filter_eq_some_iff.mp free
    exact .named child made
  · exact .anonymous child made

theorem run_enterBlock_eq :
    Run True (enterBlock node) s log fun _ s' log' =>
      log.Notes (EntersNoted s s') log' ∧ ∃ module tree defs,
        s.tree.addAnonymous s.current node (.block node) = .ok (module, tree) ∧
        s.defs.addBlock node module = .ok defs ∧
        s' = { s with tree, defs, current := module } := by
  simp only [enterBlock, lift, Run.bind_iff, Run.get_iff, Run.lift_iff, run_setTree_iff,
    run_setDefs_iff, run_moveTo_iff]
  apply Yields.true_iff.mpr
  rintro ⟨module, tree⟩ child
  apply Yields.true_iff.mpr
  intro defs made
  exact ⟨(Log.Notes.note (.inl rfl)).trans (.note (.inr rfl)), module, tree, defs, child, made, rfl⟩

theorem run_leave_eq :
    Run True leave s log fun _ s' log' =>
      log' = log ∧ ∃ m parent, s.tree.find? s.current = some m ∧ m.parent = some parent ∧
        s' = { s with current := parent } := by
  simp only [leave, lift, Run.bind_iff, Run.get_iff, Run.lift_iff]
  apply Yields.true_iff.mpr
  intro m got
  split
  · next parent inside => exact ⟨rfl, m, parent, ModuleTree.find?_of_get got, inside, rfl⟩
  · simp

/-! ## What has been defined -/

/-- The definition that has just been made at a node is known by it. -/
theorem NameOutcome.ofNode? (outcome : NameOutcome isPub node kind ident s s') :
    s'.defs.ofNode? node = some s.defs.nextId := by
  cases outcome <;> exact Definitions.ofNode?_declared_self

theorem FuncOutcome.ofNode? {free : Bool}
    (outcome : FuncOutcome isPub node kind ident suffix s free s') :
    s'.defs.ofNode? node = some s.defs.nextId := by
  have declared : (declaredIn s isPub node kind ident).ofNode? node = some s.defs.nextId :=
    Definitions.ofNode?_declared_self
  cases outcome with
  | joined _ made | suffixTaken _ made _ | opened _ made =>
    exact ((Definitions.grows_of_addFunction made).ofNode? node).trans declared
  | blocked _ _ _ => exact declared

/-- A declaration makes no module. -/
theorem NameOutcome.grows (outcome : NameOutcome isPub node kind ident s s') :
    s.tree.Grows s'.tree := by
  cases outcome with
  | bound _ _ _ _ => exact ModuleTree.grows_bind
  | taken _ _ _ => exact .refl _

theorem FuncOutcome.grows {free : Bool}
    (outcome : FuncOutcome isPub node kind ident suffix s free s') : s.tree.Grows s'.tree := by
  cases outcome with
  | joined _ _ | suffixTaken _ _ _ | blocked _ _ _ => exact .refl _
  | opened _ _ => exact ModuleTree.grows_bind

end Declaring

end NameResolution

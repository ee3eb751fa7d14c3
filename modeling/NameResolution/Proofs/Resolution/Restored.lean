import NameResolution.Proofs.Resolution.Records

/-! # Scopes are left as they were found

    A walk through an expression, a type or an item leaves each scope that it
    enters, and binds nothing outside them. A pattern, and a statement for those
    behind it, bind variables in the innermost scope and change nothing else. So
    the scopes balance out in the end, and hold nothing but variables all along.
    Nothing of this rests on the tables, nor on what is found in them. -/

namespace NameResolution

/-! ## Variables of the innermost scope -/

/-- A scope with some more variables, bound one after the other. -/
def Scope.binding (bound : List Binder) (scope : Scope) : Scope :=
  { scope with
    locals := scope.locals.set .value
      (bound.foldl (fun values b => values.insert b.name b.node) (scope.locals.get .value)) }

@[simp] theorem Scope.binding_nil (scope : Scope) : scope.binding [] = scope := rfl

@[simp] theorem Scope.binding_binding (first second : List Binder) (scope : Scope) :
    (scope.binding first).binding second = scope.binding (first ++ second) := by
  rw [binding, binding, binding, List.foldl_append]
  rfl

theorem Scope.binding_singleton (b : Binder) (scope : Scope) :
    scope.binding [b] = scope.define .value b.name b.node := rfl

namespace ScopeStack

/-- The innermost scope with some more variables, and the others as they are. -/
def binding (bound : List Binder) (stack : ScopeStack) : ScopeStack :=
  match stack.inner with
  | [] => { stack with root := stack.root.binding bound }
  | scope :: inner => { stack with inner := scope.binding bound :: inner }

@[simp] theorem binding_nil (stack : ScopeStack) : stack.binding [] = stack := by
  rcases stack with ⟨_ | ⟨scope, inner⟩, root⟩ <;> rfl

@[simp] theorem binding_binding (first second : List Binder) (stack : ScopeStack) :
    (stack.binding first).binding second = stack.binding (first ++ second) := by
  rcases stack with ⟨_ | ⟨scope, inner⟩, root⟩ <;> simp [binding]

theorem binding_singleton (b : Binder) (stack : ScopeStack) :
    stack.binding [b] = stack.define .value b.name b.node := by
  rcases stack with ⟨_ | ⟨scope, inner⟩, root⟩ <;> rfl

@[simp] theorem pop_binding_push (bound : List Binder) (stack : ScopeStack) (scope : Scope) :
    ((stack.push scope).binding bound).pop = .ok (scope.binding bound, stack) := rfl

/-- No scope holds anything but variables. -/
def VariablesOnly (stack : ScopeStack) : Prop :=
  ∀ scope ∈ stack.toList, ∀ ns, ns ≠ .value → scope.locals.get ns = ∅

namespace VariablesOnly

variable {stack stack' : ScopeStack}

theorem new : VariablesOnly .new :=
  List.forall_mem_singleton.mpr fun ns _ => PerNamespace.get_uniform ∅ ns

theorem push (h : stack.VariablesOnly) (kind : ScopeKind) (module : Option ModuleId)
    (selfItem : Option DefId) : (stack.push (.new kind module selfItem)).VariablesOnly :=
  List.forall_mem_cons.mpr ⟨fun ns _ => PerNamespace.get_uniform ∅ ns, h⟩

theorem pop (h : stack.VariablesOnly) {scope : Scope} (popped : stack.pop = .ok (scope, stack')) :
    stack'.VariablesOnly := by
  rcases stack with ⟨_ | ⟨first, inner⟩, root⟩
  · cases popped
  · cases popped
    exact (List.forall_mem_cons.mp h).2

theorem define (h : stack.VariablesOnly) (name : String) (node : NodeId) :
    (stack.define .value name node).VariablesOnly := by
  have others {scope : Scope} (empty : ∀ ns, ns ≠ .value → scope.locals.get ns = ∅)
      (ns : Namespace) (other : ns ≠ .value) : (scope.define .value name node).locals.get ns = ∅ :=
    (PerNamespace.get_set_of_ne _ other _).trans (empty ns other)
  rcases stack with ⟨_ | ⟨first, inner⟩, root⟩
  · exact List.forall_mem_singleton.mpr (others (List.forall_mem_singleton.mp h))
  · obtain ⟨first, rest⟩ := List.forall_mem_cons.mp h
    exact List.forall_mem_cons.mpr ⟨others first, rest⟩

end VariablesOnly

end ScopeStack

/-! ## What a step does to the scopes -/

/-- How a step changes the scopes. A step that comes upon a reference does not. -/
def WalkStep.Shifts (stack stack' : ScopeStack) : WalkStep → Prop
  | .enter _ | .enterBlock .. | .enterItem _ | .enterFunc _ =>
    ∃ kind module selfItem, stack' = stack.push (.new kind module selfItem)
  | .leave => ∃ scope, stack.pop = .ok (scope, stack')
  | .path .. | .typeArg _ | .selfValue .. => stack' = stack
  | .bind ident node => stack' = stack.define .value ident.name node
  | .bindOrMatch ident node => stack' = stack ∨ stack' = stack.define .value ident.name node

theorem WalkStep.Shifts.variablesOnly {step : WalkStep} {stack stack' : ScopeStack}
    (h : step.Shifts stack stack') (before : stack.VariablesOnly) : stack'.VariablesOnly := by
  cases step with
  | enter | enterBlock | enterItem | enterFunc =>
    obtain ⟨kind, module, selfItem, rfl⟩ := h
    exact before.push kind module selfItem
  | leave =>
    obtain ⟨scope, popped⟩ := h
    exact before.pop popped
  | path | typeArg | selfValue =>
    rw [show stack' = stack from h]
    exact before
  | bind ident node =>
    rw [show stack' = _ from h]
    exact before.define ident.name node
  | bindOrMatch ident node =>
    rcases h with rfl | rfl
    · exact before
    · exact before.define ident.name node

namespace Resolving

variable {tables : Tables} {s s' : ResolveState} {log log' : Log}

theorem run_record_scopes (node : NodeId) (r : Resolution) :
    Run True (record node r) s log fun _ s' _ => s'.scopes = s.scopes := by
  apply (run_record_fresh node r).mono
  rintro _ _ _ ⟨-, rfl⟩
  rfl

theorem run_resolvePath_scopes (ns : Namespace) (path : Path) (suffix : Option String) :
    Run True (resolvePath tables ns path suffix) s log fun _ s' _ => s'.scopes = s.scopes := by
  apply (run_resolvePath_records ns path suffix).mono
  rintro _ _ _ ⟨-, result, warnings, -, rfl⟩
  rfl

theorem run_definitionAt_state (node : NodeId) :
    Run True (definitionAt tables node) s log fun _ s' _ => s' = s := by
  unfold definitionAt
  split
  · simp only [lift, Run.lift_iff]
    exact Yields.trivial_of_true fun _ => trivial
  · simp only [lift, Run.lift_iff, Yields.error_iff]

theorem run_step_shifts (step' : WalkStep) :
    Run True (step tables step') s log fun _ s' _ => step'.Shifts s.scopes s'.scopes := by
  cases step' with
  | enter kind => exact ⟨_, _, _, rfl⟩
  | enterBlock kind node declaresItems =>
    simp only [step, enterBlock]
    split
    · simp only [lift, Run.bind_iff, Run.lift_iff, Yields.error_iff]
    · exact ⟨_, _, _, rfl⟩
  | enterItem node =>
    simp only [step, enterItem, Run.bind_iff]
    apply (run_definitionAt_state node).mono
    rintro d _ _ rfl
    simp only [lift, Run.lift_iff, Run.modify_iff]
    exact Yields.trivial_of_true fun module => ⟨_, _, _, rfl⟩
  | enterFunc node =>
    simp only [step, Run.bind_iff]
    apply (run_definitionAt_state node).mono
    rintro d _ _ rfl
    exact ⟨_, _, _, rfl⟩
  | leave =>
    simp only [step, leave, lift, Run.bind_iff, Run.get_iff, Run.lift_iff, Run.set_iff]
    exact Yields.true_iff.mpr fun popped got => ⟨popped.1, got⟩
  | path ns path suffix => exact run_resolvePath_scopes ns path suffix
  | typeArg path =>
    simp only [step, lift, Run.bind_iff, Run.get_iff, Run.lift_iff]
    exact Yields.trivial_of_true fun isValue => run_resolvePath_scopes _ path none
  | selfValue node span =>
    simp only [step, Run.bind_iff, Run.get_iff]
    split
    · exact run_record_scopes node _
    · simp only [report, Run.bind_iff, Run.modify_iff]
      exact run_record_scopes node _
  | bind ident node =>
    simp only [step, bindLocal, Run.bind_iff, Run.emit_iff, Run.modify_iff]
    rfl
  | bindOrMatch ident node =>
    simp only [step, lift, Run.bind_iff, Run.get_iff, Run.lift_iff]
    refine Yields.trivial_of_true fun variant => ?_
    cases variant with
    | some id => exact (run_record_scopes node _).mono fun _ _ _ same => .inl same
    | none =>
      simp only [bindLocal, Run.bind_iff, Run.emit_iff, Run.modify_iff]
      exact .inr rfl

/-- At no point does a scope hold anything but variables. -/
theorem variablesOnly_of_follow (walk : Walk) (before : s.scopes.VariablesOnly)
    (run : follow tables walk s log = .ok ((), s') log') : s'.scopes.VariablesOnly := by
  have holds : Run True (follow tables walk) s log fun _ s' _ => s'.scopes.VariablesOnly :=
    Run.forM walk before fun step' _ _ _ soFar =>
      (run_step_shifts step').mono fun _ _ _ shifts => shifts.variablesOnly soFar
  exact Run.of_ok holds run

/-! ## What a walk does to the scopes -/

/-- Behind a walk, the scopes are those in front of it, with some of these names bound in the
    innermost one. -/
def Binds (tables : Tables) (walk : Walk) (binders : List Binder) : Prop :=
  ∀ s log s' log', follow tables walk s log = .ok ((), s') log' →
    ∃ bound, bound.Sublist binders ∧ s'.scopes = s.scopes.binding bound

/-- Behind a walk, the scopes are those in front of it: their kinds, their modules, what `Self`
    stands for in them, and their variables. -/
def Restores (tables : Tables) (walk : Walk) : Prop :=
  ∀ s log s' log', follow tables walk s log = .ok ((), s') log' → s'.scopes = s.scopes

theorem Binds.restores {walk : Walk} (h : Binds tables walk []) : Restores tables walk := by
  intro s log s' log' run
  obtain ⟨bound, none_bound, scopes⟩ := h s log s' log' run
  rw [scopes, List.sublist_nil.mp none_bound, ScopeStack.binding_nil]

/-- A walk of one step. -/
theorem binds_singleton {step' : WalkStep} {binders : List Binder}
    (shifts : ∀ stack stack', step'.Shifts stack stack' →
      ∃ bound, bound.Sublist binders ∧ stack' = stack.binding bound) :
    Binds tables [step'] binders := by
  intro s log s' log' run
  have runs : Run True (follow tables [step']) s log fun _ s' _ =>
      step'.Shifts s.scopes s'.scopes := by
    rw [show follow tables [step'] = step tables step' >>= fun _ => pure ⟨⟩ from rfl, Run.bind_iff]
    exact run_step_shifts step'
  exact shifts _ _ (Run.of_ok runs run)

theorem Binds.append {first second : Walk} {binders binders' : List Binder}
    (h : Binds tables first binders) (h' : Binds tables second binders') :
    Binds tables (first ++ second) (binders ++ binders') := by
  intro s log s' log' run
  rw [follow_append] at run
  obtain ⟨_, s₁, log₁, front, back⟩ := Run.bind_eq_ok.mp run
  obtain ⟨bound, listed, scopes⟩ := h _ _ _ _ front
  obtain ⟨bound', listed', scopes'⟩ := h' _ _ _ _ back
  refine ⟨bound ++ bound', listed.append listed', ?_⟩
  rw [scopes', scopes, ScopeStack.binding_binding]

/-- What is bound inside a scope is gone behind it. -/
theorem binds_within {first : WalkStep} {inner : Walk} {binders : List Binder}
    (enters : ∀ stack stack', first.Shifts stack stack' → ∃ scope, stack' = stack.push scope)
    (inside : Binds tables inner binders) : Binds tables (Walk.within first inner) [] := by
  intro s log s' log' run
  refine ⟨[], List.Sublist.refl _, ?_⟩
  have steps : follow tables (Walk.within first inner) =
      step tables first >>= fun _ => follow tables (inner ++ [.leave]) := rfl
  rw [steps] at run
  obtain ⟨_, s₁, log₁, entered, run⟩ := Run.bind_eq_ok.mp run
  rw [follow_append] at run
  obtain ⟨_, s₂, log₂, followed, left⟩ := Run.bind_eq_ok.mp run
  obtain ⟨scope, scopes₁⟩ := enters _ _ (Run.of_ok (run_step_shifts first) entered)
  obtain ⟨bound, -, scopes₂⟩ := inside _ _ _ _ followed
  -- the scope that is left is the one that was entered, whatever has been bound in it
  have leaves : Run True (follow tables [.leave]) s₂ log₂ fun _ s' _ =>
      WalkStep.leave.Shifts s₂.scopes s'.scopes := by
    rw [show follow tables [.leave] = step tables .leave >>= fun _ => pure ⟨⟩ from rfl,
      Run.bind_iff]
    exact run_step_shifts .leave
  obtain ⟨scope', popped⟩ := Run.of_ok leaves left
  rw [scopes₂, scopes₁, ScopeStack.pop_binding_push] at popped
  obtain ⟨-, same⟩ := Prod.mk.inj (Except.ok.inj popped)
  rw [← same, ScopeStack.binding_nil]

end Resolving

/-! ## The walk through each piece of the text -/

theorem Opens.enters {around inside : Regions} {step : WalkStep} {node : NodeId} {role : Role}
    (opens : Opens around step node role inside) (stack stack' : ScopeStack)
    (shifts : step.Shifts stack stack') : ∃ scope, stack' = stack.push scope := by
  cases opens <;> (obtain ⟨kind, module, selfItem, rfl⟩ := shifts; exact ⟨_, rfl⟩)

theorem Refers.stays {step : WalkStep} {node : NodeId} {role : Role}
    (refers : Refers step node role) {stack stack' : ScopeStack}
    (shifts : step.Shifts stack stack') : stack' = stack := by
  cases refers <;> exact shifts

/-- A region says which names have been bound in it since. -/
theorem Regions.binding_inj {around : Regions} (notNil : around ≠ [])
    {binders binders' : List Binder} :
    around.binding binders = around.binding binders' ↔ binders = binders' := by
  cases around with
  | nil => exact absurd rfl notNil
  | cons region around => simp [binding]

theorem Regions.binding_ne_nil {around : Regions} (notNil : around ≠ []) (binders : List Binder) :
    around.binding binders ≠ [] := by
  cases around with
  | nil => exact absurd rfl notNil
  | cons region around => exact List.cons_ne_nil _ _

/-- What a walk binds in the regions is what it binds at most in the scopes. -/
theorem Traces.binds {around after : Regions} {walk : Walk} {occs : List Occurrence}
    (traces : Traces around walk occs after) (notNil : around ≠ []) (tables : Tables) :
    ∃ binders, after = around.binding binders ∧ Resolving.Binds tables walk binders := by
  induction traces with
  | @nothing around | @silent around =>
    refine ⟨[], (around.binding_nil).symm, fun s log s' log' run => ?_⟩
    cases run
    exact ⟨[], List.Sublist.refl _, (s.scopes.binding_nil).symm⟩
  | @refer around step _ _ refers =>
    refine ⟨[], (around.binding_nil).symm, Resolving.binds_singleton fun stack stack' shifts => ?_⟩
    rw [refers.stays shifts]
    exact ⟨[], List.Sublist.refl _, stack.binding_nil.symm⟩
  | @bind around ident node =>
    refine ⟨_, rfl, Resolving.binds_singleton fun stack stack' shifts => ?_⟩
    exact ⟨_, List.Sublist.refl _, shifts.trans (ScopeStack.binding_singleton ⟨_, _, _⟩ _).symm⟩
  | @bareName around ident node =>
    -- a name that is a variant in reach is not bound
    refine ⟨_, rfl, Resolving.binds_singleton fun stack stack' shifts => ?_⟩
    rcases shifts with rfl | defined
    · exact ⟨[], List.nil_sublist _, stack'.binding_nil.symm⟩
    · exact ⟨_, List.Sublist.refl _, defined.trans (ScopeStack.binding_singleton ⟨_, _, _⟩ _).symm⟩
  | @plain around kind _ _ _ _ ih =>
    obtain ⟨binders, -, inside⟩ := ih (List.cons_ne_nil _ _)
    refine ⟨[], (around.binding_nil).symm, Resolving.binds_within (fun stack stack' => ?_) inside⟩
    rintro ⟨kind, module, selfItem, rfl⟩
    exact ⟨_, rfl⟩
  | @within around _ _ _ _ _ _ _ opens _ ih =>
    obtain ⟨region, rfl⟩ := opens.exists_region
    obtain ⟨binders, -, inside⟩ := ih (List.cons_ne_nil _ _)
    exact ⟨[], (around.binding_nil).symm, Resolving.binds_within opens.enters inside⟩
  | append _ _ ih ih' =>
    obtain ⟨binders, rfl, front⟩ := ih notNil
    obtain ⟨binders', rfl, back⟩ := ih' (Regions.binding_ne_nil notNil binders)
    exact ⟨_, Regions.binding_binding .., front.append back⟩

/-- The binders that the regions tell are those that the text tells. -/
theorem Traces.binds_of_binding {around : Regions} {walk : Walk} {occs : List Occurrence}
    {binders : List Binder} (traces : Traces around walk occs (around.binding binders))
    (notNil : around ≠ []) (tables : Tables) : Resolving.Binds tables walk binders := by
  obtain ⟨binders', same, binds⟩ := traces.binds notNil tables
  rwa [(Regions.binding_inj notNil).mp same]

theorem Traces.restores {around : Regions} {walk : Walk} {occs : List Occurrence}
    (traces : Traces around walk occs around) (notNil : around ≠ []) (tables : Tables) :
    Resolving.Restores tables walk := by
  have traces : Traces around walk occs (around.binding []) := by rwa [Regions.binding_nil]
  exact (traces.binds_of_binding notNil tables).restores

namespace Resolving

/-- The walk through a program ends in the scope of the program alone. -/
theorem scopes_of_follow_program {tables : Tables} {program : Program} {s : ResolveState}
    {log log' : Log}
    (run : follow tables (.ofProgram program) .start log = .ok ((), s) log') : s.scopes = .new :=
  program.traces_walk.restores (List.cons_ne_nil _ _) tables _ _ _ _ run

/-- The second pass without its check that all scopes have been left. -/
def unchecked (tables : Tables) (program : Program) : Resolving Unit := do
  follow tables (.ofProgram program)
  let s ← get
  Logged.emit (.resolved s.resolutions.size s.diagnostics.length)

/-- The check never fails. -/
theorem wholeProgram_eq_unchecked (tables : Tables) (program : Program) (log : Log) :
    wholeProgram tables program .start log = unchecked tables program .start log := by
  cases run : follow tables (.ofProgram program) .start log with
  | error fault log' => exact (Logged.bind_of_error run).trans (Logged.bind_of_error run).symm
  | ok p log' =>
    obtain ⟨⟨⟩, s⟩ := p
    refine (Logged.bind_of_ok run).trans (.trans ?_ (Logged.bind_of_ok run).symm)
    have balanced : s.scopes.inner.isEmpty = true := by
      rw [scopes_of_follow_program run]
      rfl
    change (if s.scopes.inner.isEmpty = true then _ else _ : Resolving Unit) s log' = _
    rw [if_pos balanced]
    rfl

/-- From any state, and whatever is in the tables: where the walk through an expression, a type or
    an item ends without a fault, all scopes are what they were. Behind a statement or a pattern
    only the innermost scope has changed, by variables of the names that the statement or the
    pattern binds. No scope ever holds anything but variables. And the second pass is the same
    with and without its check that all scopes have been left. -/
theorem restores_scopes (tables : Tables) :
    ((∀ expr, Restores tables (.ofExpr expr)) ∧ (∀ ty, Restores tables (.ofTy ty)) ∧
      ∀ item, Restores tables (.ofItem item)) ∧
    ((∀ stmt, Binds tables (.ofStmt stmt) stmt.binders) ∧
      ∀ variants pat, Binds tables (.ofPat variants pat) (pat.binders variants)) ∧
    (∀ walk log s log', follow tables walk .start log = .ok ((), s) log' →
      s.scopes.VariablesOnly) ∧
    ∀ program log,
      (∀ s log', follow tables (.ofProgram program) .start log = .ok ((), s) log' →
        s.scopes = .new) ∧
      wholeProgram tables program .start log = unchecked tables program .start log := by
  -- a walk is the same in whatever regions its text stands
  let around : Regions := [⟨.root, .none, []⟩]
  have notNil : around ≠ [] := List.cons_ne_nil _ _
  refine ⟨⟨?_, ?_, ?_⟩, ⟨?_, ?_⟩, ?_, fun program log => ⟨?_, ?_⟩⟩
  · exact fun expr => (traces_expr around expr).restores notNil tables
  · exact fun ty => (traces_ty around ty).restores notNil tables
  · exact fun item => (traces_item around item).restores notNil tables
  · exact fun stmt => (traces_stmt around stmt).binds_of_binding notNil tables
  · exact fun variants pat => (traces_pat variants around pat).binds_of_binding notNil tables
  · exact fun walk log s log' run => variablesOnly_of_follow walk .new run
  · exact fun s log' run => scopes_of_follow_program run
  · exact wholeProgram_eq_unchecked tables program log

/-- A variable, and a loop over it with a variable of its own:

        { let x; for y in x { y } } -/
def loopOver : Expr :=
  .block .plain <| .mk ⟨1⟩
    [.letBind (.ident ⟨2⟩ ⟨"x", ⟨1, 1⟩⟩ none) none none,
      .forLoop (.ident ⟨3⟩ ⟨"y", ⟨2, 1⟩⟩ none)
        (.path ⟨⟨4⟩, false, [⟨.name "x", ⟨2, 2⟩⟩], false⟩ [])
        (.mk ⟨5⟩ [.expr (.path ⟨⟨6⟩, false, [⟨.name "y", ⟨2, 3⟩⟩], false⟩ [])])]

/-- In the loop `y` is bound, and behind the block nothing is. -/
theorem restores_scopes_of_loopOver : ∃ s log',
    follow ⟨.empty, .new, {}⟩ (.ofExpr loopOver) .start .empty = .ok ((), s) log' ∧
      s.resolutions[(⟨6⟩ : NodeId)]? = some (.localVar ⟨3⟩) ∧ s.scopes = .new := by
  have checked : ∃ r log', follow ⟨.empty, .new, {}⟩ (.ofExpr loopOver) .start .empty = .ok r log' ∧
      decide (r.2.resolutions[(⟨6⟩ : NodeId)]? = some (.localVar ⟨3⟩)) = true :=
    Logged.exists_of_check (by decide +kernel)
  obtain ⟨⟨_, s⟩, log', run, recorded⟩ := checked
  obtain ⟨⟨restoresExpr, -⟩, -⟩ := restores_scopes ⟨.empty, .new, {}⟩
  exact ⟨s, log', run, of_decide_eq_true recorded, restoresExpr loopOver _ _ _ _ run⟩

end Resolving

end NameResolution

import NameResolution.Proofs.Resolution.Advice
import NameResolution.Proofs.Session

/-! # What the configuration decides

    A session's configuration decides what is logged, which private access is
    warned of, and what the diagnostics suggest. Under two configurations a
    program comes to the same tables, every node to the same meaning, and both
    find the same errors. -/

namespace NameResolution

/-! ## Two runs of the second pass -/

/-- States of the second pass that differ in advice and warnings at most, with scopes over the
    tables. -/
structure ResolveState.Alike (tables : Tables) (s s' : ResolveState) : Prop where
  scopes : s.scopes = s'.scopes
  resolutions : s.resolutions = s'.resolutions
  errors : bareErrors s.diagnostics = bareErrors s'.diagnostics
  placed : s.scopes.Placed tables

namespace Resolving

variable {tables : Tables} {config : Config}

/-- From such states both come to the same fault, or to such states, one with the results of the
    other as far as `rel` says. -/
abbrev Alike {α : Type} (tables : Tables) (rel : α → α → Prop) (m m' : Resolving α) : Prop :=
  Together (ResolveState.Alike tables) (ResolveState.Alike tables) rel m m'

/-! ## Paths -/

theorem printed_of_placed {stack : ScopeStack} (placed : stack.Placed tables) :
    Yields False (stack.dump tables.tree) fun _ => True := by
  have line (p : Scope × Nat) (mem : p ∈ stack.toList.reverse.zipIdx) :
      Yields False (ScopeStack.line tables.tree p.2 p.1) fun _ => True := by
    have here : p.1 ∈ stack.toList := List.mem_reverse.mp (List.fst_mem_of_mem_zipIdx mem)
    unfold ScopeStack.line
    cases owned : p.1.module with
    | none => trivial
    | some module =>
      simp only [Yields.bind_iff, Yields.pure_iff]
      exact (placed.modules _ here module owned).get.mono fun _ _ => trivial
  simp only [ScopeStack.dump, Yields.bind_iff, Yields.pure_iff]
  exact (Yields.mapM _ line).mono fun _ _ => trivial

theorem alike_report {reports reports' : List Diagnostic}
    (h : bareErrors reports = bareErrors reports') :
    Alike tables (fun _ _ => True) (report reports) (report reports') :=
  .modify fun s s' alike => { alike with
    errors := by rw [bareErrors_append, bareErrors_append, alike.errors, h] }

theorem alike_record (node : NodeId) (resolution : Resolution) :
    Alike tables (fun _ _ => True) (record node resolution) (record node resolution) := by
  refine .reads fun s s' alike => ?_
  rw [← alike.resolutions]
  cases s.resolutions[node]? with
  | some first => exact .lift (.fault _)
  | none =>
    refine fun _ _ _ => .pure ⟨trivial, { alike with resolutions := ?_ }⟩
    rw [alike.resolutions]

theorem alike_resolvePath (intact : Intact tables.defs tables.tree) (ns : Namespace)
    (path : Path) (suffix : Option String) : Alike tables (fun _ _ => True)
      (resolvePath tables ns path suffix)
      (resolvePath (tables.withConfig config) ns path suffix) := by
  refine .reads fun s s' alike => ?_
  rw [← alike.scopes]
  refine .traced (printed_of_placed alike.placed) (printed_of_placed alike.placed) _ (.bind (.lift
    (Tables.alike_resolvePath intact alike.placed ns path suffix [] [] rfl)) ?_)
  rintro ⟨r, warnings⟩ ⟨r', warnings'⟩ outcome
  cases r with
  | ok resolution =>
    cases r' with
    | ok resolution' =>
      obtain ⟨rfl, same⟩ := outcome
      exact .bind (alike_report same) fun _ _ _ => alike_record _ _
    | error d' => exact outcome.elim
  | error d =>
    cases r' with
    | ok resolution' => exact outcome.elim
    | error d' =>
      obtain ⟨blame, same⟩ := outcome
      refine .bind (.emit _ _) fun _ _ _ => .bind (alike_report ?_) fun _ _ _ => alike_record _ _
      rw [bareErrors_append, bareErrors_append, same, blame]

/-! ## Steps of the walk -/

theorem alike_enter (kind : ScopeKind) {module : Option ModuleId}
    (known : ∀ id, module = some id → tables.tree.Known id) :
    Alike tables (fun _ _ => True) (enter kind module) (enter kind module) := by
  refine .modify fun s s' alike => { alike with
    scopes := by rw [alike.scopes]
    placed := alike.placed.push known fun id isSelf => alike.placed.known_selfItem isSelf }

theorem alike_leave : Alike tables (fun _ _ => True) leave leave := by
  refine .reads fun s s' alike => ?_
  rw [← alike.scopes]
  refine .bind (.lift (.of_yields (Yields.true_iff.mpr fun p popped => popped))) ?_
  rintro ⟨_, left⟩ _ ⟨rfl, popped⟩
  exact fun _ _ _ => .pure ⟨trivial, { alike with
    scopes := rfl, placed := alike.placed.pop popped }⟩

theorem alike_bindLocal (ident : Ident) (node : NodeId) :
    Alike tables (fun _ _ => True) (bindLocal ident node) (bindLocal ident node) :=
  .bind (.emit _ _) fun _ _ _ => .modify fun s s' alike => { alike with
    scopes := by rw [alike.scopes]
    placed := alike.placed.define _ _ _ }

/-- The definition of a node is there. -/
theorem alike_definitionAt (intact : Intact tables.defs tables.tree) (node : NodeId) :
    Alike tables (fun d d' => d = d' ∧ tables.defs.Known d.id) (definitionAt tables node)
      (definitionAt (tables.withConfig config) node) := by
  show Alike tables _ (definitionAt tables node) (definitionAt tables node)
  unfold definitionAt
  cases tables.defs.ofNode? node with
  | none => exact .lift (.fault _)
  | some id =>
    refine .lift (.of_yields (Yields.true_iff.mpr fun d got => ?_))
    have found := Definitions.find?_of_get got
    rw [intact.validDefs.ids found]
    exact Definitions.known_of_find? found

theorem known_of_selfInside {definition : Definition} (known : tables.defs.Known definition.id)
    {outside : Option DefId} (known' : ∀ id, outside = some id → tables.defs.Known id) {id : DefId}
    (isSelf : selfInside definition outside = some id) : tables.defs.Known id := by
  unfold selfInside at isSelf
  split at isSelf
  · cases isSelf
    exact known
  · split at isSelf
    · cases isSelf
    · exact known' id isSelf

theorem alike_enterItem (intact : Intact tables.defs tables.tree) (node : NodeId) :
    Alike tables (fun _ _ => True) (enterItem tables node)
      (enterItem (tables.withConfig config) node) := by
  refine .bind (alike_definitionAt intact node) ?_
  rintro definition _ ⟨rfl, known⟩
  have owned : Yields True (tables.defs.module definition.id) tables.tree.Known := by
    unfold Definitions.module
    split
    · next module held => exact intact.modules held
    · rw [Yields.bind_iff]
      exact Yields.trivial_of_true fun _ => trivial
  refine .bind (.lift (.of_yields owned)) ?_
  rintro module _ ⟨rfl, there⟩
  refine .modify fun s s' alike => { alike with
    scopes := by rw [alike.scopes]
    placed := alike.placed.push (by rintro _ ⟨⟩; exact there) fun id isSelf =>
      known_of_selfInside known (fun _ => alike.placed.known_selfItem) isSelf }

theorem alike_enterBlock (intact : Intact tables.defs tables.tree) (kind : ScopeKind)
    (node : NodeId) (declaresItems : Bool) : Alike tables (fun _ _ => True)
      (enterBlock tables kind node declaresItems)
      (enterBlock (tables.withConfig config) kind node declaresItems) := by
  show Alike tables _ (enterBlock tables kind node declaresItems)
    (enterBlock tables kind node declaresItems)
  have enters : Alike tables (fun _ _ => True) (enter kind (tables.defs.blockModule? node))
      (enter kind (tables.defs.blockModule? node)) := alike_enter kind fun id => intact.blocks
  unfold enterBlock
  dsimp only
  split
  · exact .bind (.lift (.refl _)) fun _ _ _ => enters
  · exact enters

/-- One step of the walk. -/
theorem alike_step (intact : Intact tables.defs tables.tree) (step : WalkStep) :
    Alike tables (fun _ _ => True) (Resolving.step tables step)
      (Resolving.step (tables.withConfig config) step) := by
  cases step with
  | enter kind => exact alike_enter kind (by rintro _ ⟨⟩)
  | enterBlock kind node declaresItems => exact alike_enterBlock intact kind node declaresItems
  | enterItem node => exact alike_enterItem intact node
  | enterFunc node =>
    refine .bind (alike_definitionAt intact node) ?_
    rintro definition _ ⟨rfl, -⟩
    exact alike_enter .func fun id => intact.modules
  | leave => exact alike_leave
  | path ns path suffix => exact alike_resolvePath intact ns path suffix
  | typeArg path =>
    refine .reads fun s s' alike => ?_
    rw [← alike.scopes]
    have same : isValueArg (tables.withConfig config) s.scopes path =
        isValueArg tables s.scopes path := by
      simp only [isValueArg, Tables.lookup_withConfig]
    rw [same]
    refine .bind (.lift (.refl _)) ?_
    rintro isValue _ rfl
    exact alike_resolvePath intact _ path none
  | selfValue node span =>
    refine .reads fun s s' alike => ?_
    rw [← alike.scopes]
    cases s.scopes.innermost.selfItem with
    | some id => exact alike_record _ _
    | none => exact .bind (alike_report rfl) fun _ _ _ => alike_record _ _
  | bind ident node => exact alike_bindLocal ident node
  | bindOrMatch ident node =>
    refine .reads fun s s' alike => ?_
    rw [← alike.scopes, Tables.variantNamed_withConfig]
    refine .bind (.lift (.refl _)) ?_
    rintro variant _ rfl
    cases variant with
    | some variant => exact alike_record _ _
    | none => exact alike_bindLocal ident node

theorem alike_follow (intact : Intact tables.defs tables.tree) (walk : Walk) :
    Alike tables (fun _ _ => True) (follow tables walk)
      (follow (tables.withConfig config) walk) := by
  induction walk with
  | nil => exact .pure trivial
  | cons step walk ih => exact .bind (alike_step intact step) fun _ _ _ => ih

theorem alike_wholeProgram (intact : Intact tables.defs tables.tree) (program : Program) :
    Alike tables (fun _ _ => True) (wholeProgram tables program)
      (wholeProgram (tables.withConfig config) program) := by
  refine .bind (alike_follow intact _) fun _ _ _ => .reads fun s s' alike => ?_
  rw [← alike.scopes]
  dsimp only
  split
  · exact .emit _ _
  · refine .bind (.lift (.refl _)) ?_
    rintro text _ rfl
    exact .bind (.lift (.refl _)) fun _ _ _ => .emit _ _

end Resolving

theorem ResolveState.Alike.start {tables : Tables} (intact : Intact tables.defs tables.tree) :
    ResolveState.start.Alike tables .start := ⟨rfl, rfl, rfl, .new intact⟩

/-- Over the same tables both come to the same resolutions and to the same errors. -/
theorem agree_resolveNames {tables : Tables} (intact : Intact tables.defs tables.tree)
    (config : Config) (program : Program) :
    Logged.Agree (fun s s' => s.resolutions = s'.resolutions ∧
        bareErrors s.diagnostics = bareErrors s'.diagnostics)
      (resolveNames tables program) (resolveNames (tables.withConfig config) program) :=
  (Resolving.alike_wholeProgram intact program _ _ (.start intact)).bind fun _ _ both =>
    .pure ⟨both.2.resolutions, both.2.errors⟩

/-! ## Two runs of the import phase -/

/-- What the first pass has made of a program is gone through by the import phase with and without
    warnings. -/
theorem agree_resolveImports {program : Program} {built : DeclareState} {log log' : Log}
    (declared : declareProgram .empty .new program log = .ok built log') (lint lint' : Bool) :
    Logged.Agree (fun s s' => s.Alike s' ∧ Intact s.defs s.tree)
      (resolveImports built.defs built.tree lint built.directives)
      (resolveImports built.defs built.tree lint' built.directives) := by
  intro log₀ log₀'
  obtain ⟨-, inOrder⟩ := declareProgram_passes declared
  obtain ⟨s, log₁, run, intact, -⟩ :=
    resolveImports_completes inOrder.sound.intact lint inOrder.directives log₀
  obtain ⟨s', log₁', run', -⟩ :=
    resolveImports_completes inOrder.sound.intact lint' inOrder.directives log₀'
  rw [Logged.result_of_ok run, Logged.result_of_ok run']
  let start : ImportState built.directives.length := .start _ built.defs built.tree
  have alike := (Importing.congruence_alike (.ofList built.directives lint) lint').allDirectives
    start start log₀ log₀' (.refl start)
  have same := Run.true_iff.mp (Run.true_iff.mp alike _ _ _ (allDirectives_of_resolveImports run))
    _ _ _ (allDirectives_of_resolveImports run')
  exact .ok ⟨same.2, intact⟩

/-! ## Sessions -/

/-- Both passes over a program in a session of its own: what each of them reports, and the session
    in the end. -/
def Session.bothPasses (config : Config) (program : Program) :
    Logged (List Diagnostic × List Diagnostic × Session) := do
  let (reported, built) ← (Session.new config).build program
  let (reported', resolved) ← built.resolve program
  return (reported, reported', resolved)

namespace Session

/-- A session between the passes, and another under a second configuration. -/
inductive BuiltAlike (config config' : Config) :
    List Diagnostic × Session → List Diagnostic × Session → Prop where
  | intro {defs : Definitions} {tree : ModuleTree} {reported reported' : List Diagnostic}
      (intact : Intact defs tree) (errors : bareErrors reported = bareErrors reported') :
      BuiltAlike config config' (reported, ⟨config, defs, tree, ∅, true, false⟩)
        (reported', ⟨config', defs, tree, ∅, true, false⟩)

theorem agree_build (config config' : Config) (program : Program) (log : Log) :
    Agree (BuiltAlike config config') (((new config).build program).result log)
      (((new config').build program).result log) := by
  -- up to here the configuration has not been asked
  refine Logged.agree_after fun _ log₁ _ => ?_
  refine Logged.agree_after fun declared log₂ first => ?_
  refine Logged.agree_bind (agree_resolveImports first _ _ log₂ log₂) ?_
  rintro s s' ⟨alike, intact⟩
  have intact' : Intact s'.defs s'.tree := by rwa [alike.defs, alike.tree]
  refine .traced (intact.print.mono fun _ _ => trivial) (intact'.print.mono fun _ _ => trivial)
    _ (.pure ?_)
  rw [alike.defs, alike.tree]
  exact .intro intact (by rw [bareErrors_append, bareErrors_append, alike.errors])

/-- Sessions that have come to the same. -/
structure SameMeaning (session session' : Session) : Prop where
  defs : session.defs = session'.defs
  tree : session.tree = session'.tree
  resolutions : session.resolutions = session'.resolutions

theorem agree_resolve {config config' : Config} {program : Program}
    {built built' : List Diagnostic × Session} (alike : BuiltAlike config config' built built') :
    Logged.Agree (fun resolved resolved' => resolved.2.SameMeaning resolved'.2 ∧
        bareErrors resolved.1 = bareErrors resolved'.1)
      (built.2.resolve program) (built'.2.resolve program) := by
  obtain ⟨intact, -⟩ := alike
  refine .bind (.emit _ _) fun _ _ _ => .bind (agree_resolveNames intact config' program) ?_
  rintro s s' ⟨resolutions, errors⟩
  exact .pure ⟨⟨rfl, rfl, resolutions⟩, errors⟩

/-- What both passes come to: the session, and the errors that each of them reports. -/
structure SameOutcome (outcome outcome' : List Diagnostic × List Diagnostic × Session) :
    Prop where
  session : outcome.2.2.SameMeaning outcome'.2.2
  buildErrors : bareErrors outcome.1 = bareErrors outcome'.1
  resolveErrors : bareErrors outcome.2.1 = bareErrors outcome'.2.1

/-- The configuration never changes what a program means. Under any two of them both passes come to
    the same fault, or to the same definitions, modules and resolutions and to the same errors but
    for their advice. In what the parser hands over there is no fault. -/
theorem meaning_of_any_config (config config' : Config) (program : Program) (log : Log) :
    Agree SameOutcome ((bothPasses config program).result log)
        ((bothPasses config' program).result log) ∧
      (program.WellFormed → ∃ outcome log', bothPasses config program log = .ok outcome log') := by
  constructor
  · refine Logged.agree_bind (agree_build config config' program log) fun built built' alike => ?_
    refine .bind (agree_resolve alike) ?_
    rintro ⟨reported, resolved⟩ ⟨reported', resolved'⟩ ⟨same, errors⟩
    cases alike with
    | intro _ buildErrors => exact .pure ⟨same, buildErrors, errors⟩
  · intro wellFormed
    obtain ⟨reported, built, log', run, isBuilt⟩ := build_completes config wellFormed.distinct log
    obtain ⟨s, log'', run', -⟩ := resolve_completes isBuilt wellFormed log'
    exact ⟨(reported, s.diagnostics,
        { built with resolutions := s.resolutions, namesResolved := true }), log'',
      Logged.bind_eq_ok.mpr ⟨_, log', run, Logged.bind_eq_ok.mpr ⟨_, log'', run', rfl⟩⟩⟩

/-- A function is imported that is not `pub`, and a module is named where a value has to be:

        mod a { func f(); }
        use a.f;
        func g() { a }

    With the defaults there is a warning and a suggestion. -/
def outspoken : Program :=
  ⟨⟨0⟩, ⟨0, 40⟩,
    [.mod ⟨⟨1⟩, false, ⟨1, 1⟩⟩ ⟨"a", ⟨1, 1⟩⟩
      [.func ⟨⟨2⟩, false, ⟨2, 1⟩⟩ .func ⟨"f", ⟨2, 1⟩⟩ [] [] none none],
    .useDecl ⟨⟨3⟩, false, ⟨3, 1⟩⟩
      (.path ⟨4⟩ ⟨4, 1⟩ ⟨true, [⟨.name "a", ⟨4, 1⟩⟩, ⟨.name "f", ⟨4, 1⟩⟩]⟩ none),
    .func ⟨⟨5⟩, false, ⟨5, 1⟩⟩ .func ⟨"g", ⟨5, 1⟩⟩ [] [] none
      (some (.block .plain (.mk ⟨6⟩
        [.expr (.path ⟨⟨7⟩, false, [⟨.name "a", ⟨7, 1⟩⟩], false⟩ [])])))]⟩

theorem wellFormed_outspoken : outspoken.WellFormed := ⟨by decide +kernel, by decide +kernel⟩

/-- A configuration that says less. -/
def taciturn : Config where
  traceScopes := true
  suggestAlternatives := false
  lintPrivateAccess := false

/-- What is reported differs in both passes, and the errors are the same. -/
theorem meaning_of_any_config_of_outspoken :
    ∃ outcome outcome' log log', bothPasses {} outspoken .empty = .ok outcome log ∧
      bothPasses taciturn outspoken .empty = .ok outcome' log' ∧
      outcome.1 ≠ outcome'.1 ∧ outcome.2.1 ≠ outcome'.2.1 ∧ bareErrors outcome.2.1 ≠ [] ∧
      SameOutcome outcome outcome' := by
  obtain ⟨agree, complete⟩ := meaning_of_any_config {} taciturn outspoken .empty
  obtain ⟨outcome, log, run⟩ := complete wellFormed_outspoken
  have checked : ∃ outcome log, bothPasses {} outspoken .empty = .ok outcome log ∧
      (Logged.passes (bothPasses taciturn outspoken) .empty fun outcome' =>
        decide (outcome.1 ≠ outcome'.1 ∧ outcome.2.1 ≠ outcome'.2.1 ∧
          bareErrors outcome.2.1 ≠ [])) = true :=
    Logged.exists_of_check (by decide +kernel)
  obtain ⟨_, _, same, checked⟩ := checked
  cases run.symm.trans same
  obtain ⟨outcome', log', run', checked⟩ := Logged.exists_of_check checked
  obtain ⟨differ, differ', errors⟩ := of_decide_eq_true checked
  exact ⟨outcome, outcome', log, log', run, run', differ, differ', errors,
    Logged.of_agree agree run run'⟩

end Session

end NameResolution

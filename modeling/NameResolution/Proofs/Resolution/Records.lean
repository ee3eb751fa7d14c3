import NameResolution.Proofs.Resolution.Points

/-! # What the second pass leaves behind

    Records stay and reports are only added to. So what has become of a path is
    what the search for it has come to when the walk came upon it. -/

namespace NameResolution

/-! ## What stays -/

/-- In each of some scopes, `Self` stands for an item that it may stand for. -/
def SelfItems (defs : Definitions) (scopes : List Scope) : Prop :=
  ∀ scope ∈ scopes, ∀ id, scope.selfItem = some id →
    ∃ d, defs.find? id = some d ∧ d.kind.isSelfItem = true

namespace SelfItems

variable {defs : Definitions} {stack : ScopeStack}

theorem new (defs : Definitions) : SelfItems defs ScopeStack.new.toList :=
  List.forall_mem_singleton.mpr (by rintro id ⟨⟩)

theorem innermost (h : SelfItems defs stack.toList) (id : DefId)
    (isSelf : stack.innermost.selfItem = some id) :
    ∃ d, defs.find? id = some d ∧ d.kind.isSelfItem = true := by
  refine h _ ?_ id isSelf
  rcases stack with ⟨_ | ⟨scope, inner⟩, root⟩
  · exact List.mem_singleton_self _
  · exact List.mem_cons_self ..

theorem push (h : SelfItems defs stack.toList) {scope : Scope}
    (first : ∀ id, scope.selfItem = some id →
      ∃ d, defs.find? id = some d ∧ d.kind.isSelfItem = true) :
    SelfItems defs (stack.push scope).toList := by
  rw [ScopeStack.toList_push]
  exact List.forall_mem_cons.mpr ⟨first, h⟩

theorem pop (h : SelfItems defs stack.toList) {scope : Scope} {stack' : ScopeStack}
    (popped : stack.pop = .ok (scope, stack')) : SelfItems defs stack'.toList := by
  rcases stack with ⟨_ | ⟨first, inner⟩, root⟩
  · cases popped
  · cases popped
    exact fun scope mem => h scope (List.mem_cons_of_mem _ mem)

theorem define (h : SelfItems defs stack.toList) (ns : Namespace) (name : String)
    (node : NodeId) : SelfItems defs (stack.define ns name node).toList := by
  rcases stack with ⟨_ | ⟨first, inner⟩, root⟩
  · exact List.forall_mem_singleton.mpr (h root (List.mem_singleton_self _))
  · have both := List.forall_mem_cons.mp h
    exact List.forall_mem_cons.mpr both

end SelfItems

namespace Resolving

variable {tables : Tables} {s s' s'' : ResolveState} {log : Log}

/-- Between two states of the second pass, records stay and reports are added to. -/
structure Stays (tables : Tables) (s s' : ResolveState) : Prop where
  recorded : ∀ {node : NodeId} {r : Resolution}, s.resolutions[node]? = some r →
    s'.resolutions[node]? = some r
  reported : s.diagnostics <+: s'.diagnostics
  selfItems : SelfItems tables.defs s.scopes.toList → SelfItems tables.defs s'.scopes.toList

namespace Stays

theorem refl (s : ResolveState) : Stays tables s s := ⟨id, List.prefix_refl _, id⟩

theorem trans (h : Stays tables s s') (h' : Stays tables s' s'') : Stays tables s s'' :=
  ⟨fun found => h'.recorded (h.recorded found), h.reported.trans h'.reported,
    fun items => h'.selfItems (h.selfItems items)⟩

/-- Only the scopes change. -/
theorem of_scopes {scopes : ScopeStack}
    (selfItems : SelfItems tables.defs s.scopes.toList → SelfItems tables.defs scopes.toList) :
    Stays tables s { s with scopes } :=
  ⟨id, List.prefix_refl _, selfItems⟩

/-- A node is recorded for the first time, with something to report. -/
theorem of_record {node : NodeId} (fresh : s.resolutions[node]? = none) (r : Resolution)
    (reported : List Diagnostic) :
    Stays tables s { s with
      resolutions := s.resolutions.insert node r, diagnostics := s.diagnostics ++ reported } := by
  refine ⟨fun {other r'} found => ?_, List.prefix_append _ _, id⟩
  have ne : node ≠ other := by
    rintro rfl
    rw [fresh] at found
    cases found
  rw [Std.TreeMap.getElem?_insert, if_neg (by simpa using ne)]
  exact found

end Stays

/-! ## Records -/

theorem run_record_fresh (node : NodeId) (r : Resolution) :
    Run True (record node r) s log fun _ s' _ =>
      s.resolutions[node]? = none ∧ s' = { s with resolutions := s.resolutions.insert node r } := by
  simp only [record, Run.bind_iff, Run.get_iff]
  split
  · simp only [lift, Run.lift_iff, Yields.error_iff]
  · next fresh => exact ⟨fresh, rfl⟩

/-- What is recorded of a search. -/
def recordOf : Except Diagnostic Resolution → Resolution
  | .ok resolution => resolution
  | .error _ => .error

/-- The error that a search has come to, if it has. -/
def errorsOf : Except Diagnostic Resolution → List Diagnostic
  | .ok _ => []
  | .error d => [d]

/-- What is reported comes before the record. -/
theorem run_report_record (reported : List Diagnostic) (node : NodeId) (r : Resolution) :
    Run True (report reported >>= fun _ => record node r) s log fun _ s' _ =>
      s.resolutions[node]? = none ∧ s' = { s with
        resolutions := s.resolutions.insert node r
        diagnostics := s.diagnostics ++ reported } := by
  simp only [report, Run.bind_iff, Run.modify_iff]
  exact run_record_fresh node r

/-- A path is looked up in the scopes of the moment, and recorded for the first time. -/
theorem run_resolvePath_records (ns : Namespace) (path : Path) (suffix : Option String) :
    Run True (resolvePath tables ns path suffix) s log fun _ s' _ =>
      s.resolutions[path.id]? = none ∧ ∃ result warnings,
        (tables.resolvePath s.scopes ns path suffix).run.run [] = .ok (result, warnings) ∧
        s' = { s with
          resolutions := s.resolutions.insert path.id (recordOf result)
          diagnostics := s.diagnostics ++ (warnings ++ errorsOf result) } := by
  simp only [resolvePath, Run.bind_iff, Run.get_iff]
  -- with or without the scopes in the log, the path is looked up after that
  split
  case' isTrue =>
    simp only [lift, Run.bind_iff, Run.lift_iff, Run.emit_iff]
    refine Yields.trivial_of_true fun _ => ?_
  case' isFalse => simp only [lift, Run.bind_iff, Run.lift_iff]
  all_goals
    refine Yields.true_iff.mpr fun outcome came => ?_
    obtain ⟨result, warnings⟩ := outcome
    cases result with
    | ok resolution =>
      apply (run_report_record warnings path.id resolution).mono
      rintro _ _ _ ⟨fresh, rfl⟩
      refine ⟨fresh, _, warnings, came, ?_⟩
      rw [errorsOf, List.append_nil]
      rfl
    | error diagnostic =>
      dsimp only
      rw [Run.bind_iff, Run.emit_iff]
      apply (run_report_record (warnings ++ [diagnostic]) path.id .error).mono
      rintro _ _ _ ⟨fresh, rfl⟩
      exact ⟨fresh, _, warnings, came, rfl⟩

/-! ## Steps -/

theorem run_resolvePath_stays (ns : Namespace) (path : Path) (suffix : Option String) :
    Run True (resolvePath tables ns path suffix) s log fun _ s' _ => Stays tables s s' := by
  apply (run_resolvePath_records ns path suffix).mono
  rintro _ _ _ ⟨fresh, result, warnings, -, rfl⟩
  exact .of_record fresh _ _

theorem run_record_stays (node : NodeId) (r : Resolution) :
    Run True (record node r) s log fun _ s' _ => Stays tables s s' := by
  apply (run_record_fresh node r).mono
  rintro _ _ _ ⟨fresh, rfl⟩
  have stays : Stays tables s { s with
      resolutions := s.resolutions.insert node r, diagnostics := s.diagnostics ++ [] } :=
    .of_record fresh r []
  rwa [List.append_nil] at stays

theorem run_definitionAt_same (valid : tables.defs.Valid) (node : NodeId) :
    Run True (definitionAt tables node) s log fun d s' _ =>
      s' = s ∧ tables.defs.find? d.id = some d := by
  unfold definitionAt
  split
  · next id _ =>
    simp only [lift, Run.lift_iff]
    refine Yields.true_iff.mpr fun d got => ?_
    have found := Definitions.find?_of_get got
    rw [valid.ids found]
    exact ⟨trivial, found⟩
  · simp only [lift, Run.lift_iff, Yields.error_iff]

theorem run_enter_stays (kind : ScopeKind) (module : Option ModuleId) :
    Run True (enter kind module) s log fun _ s' _ => Stays tables s s' := by
  simp only [enter, Run.modify_iff]
  exact .of_scopes fun items => items.push items.innermost

theorem selfItem_of_selfInside {d : Definition} (found : tables.defs.find? d.id = some d)
    (items : SelfItems tables.defs s.scopes.toList) (id : DefId)
    (inside : selfInside d s.scopes.innermost.selfItem = some id) :
    ∃ d, tables.defs.find? id = some d ∧ d.kind.isSelfItem = true := by
  unfold selfInside at inside
  split at inside
  · next isSelf =>
    cases inside
    exact ⟨d, found, isSelf⟩
  · split at inside
    · cases inside
    · exact items.innermost id inside

/-- Whatever a step does, it takes nothing back. -/
theorem run_step_stays (valid : tables.defs.Valid) (step' : WalkStep) :
    Run True (step tables step') s log fun _ s' _ => Stays tables s s' := by
  cases step' with
  | enter kind => exact run_enter_stays kind none
  | enterBlock kind node declaresItems =>
    simp only [step, enterBlock]
    split
    · simp only [lift, Run.bind_iff, Run.lift_iff, Yields.error_iff]
    · exact run_enter_stays kind _
  | enterItem node =>
    simp only [step, enterItem, Run.bind_iff]
    apply (run_definitionAt_same valid node).mono
    rintro d _ log₁ ⟨rfl, found⟩
    simp only [lift, Run.lift_iff, Run.modify_iff]
    refine Yields.trivial_of_true fun module => ?_
    exact .of_scopes fun items => items.push (selfItem_of_selfInside found items)
  | enterFunc node =>
    simp only [step, Run.bind_iff]
    apply (run_definitionAt_same valid node).mono
    rintro d _ log₁ ⟨rfl, -⟩
    exact run_enter_stays .func _
  | leave =>
    simp only [step, leave, lift, Run.bind_iff, Run.get_iff, Run.lift_iff, Run.set_iff]
    refine Yields.true_iff.mpr fun popped got => ?_
    exact .of_scopes fun items => items.pop got
  | path ns path suffix => exact run_resolvePath_stays ns path suffix
  | typeArg path =>
    simp only [step, lift, Run.bind_iff, Run.get_iff, Run.lift_iff]
    exact Yields.trivial_of_true fun isValue => run_resolvePath_stays _ path none
  | selfValue node span =>
    simp only [step, Run.bind_iff, Run.get_iff]
    split
    · exact run_record_stays node _
    · simp only [report, Run.bind_iff, Run.modify_iff]
      apply (run_record_stays node .error).mono
      intro _ s' _ stays
      refine .trans ?_ stays
      exact ⟨id, List.prefix_append _ _, id⟩
  | bind ident node =>
    simp only [step, bindLocal, Run.bind_iff, Run.emit_iff, Run.modify_iff]
    exact .of_scopes fun items => items.define _ _ _
  | bindOrMatch ident node =>
    simp only [step, lift, Run.bind_iff, Run.get_iff, Run.lift_iff]
    refine Yields.trivial_of_true fun variant => ?_
    cases variant with
    | some id => exact run_record_stays node _
    | none =>
      simp only [bindLocal, Run.bind_iff, Run.emit_iff, Run.modify_iff]
      exact .of_scopes fun items => items.define _ _ _

theorem run_follow_stays (valid : tables.defs.Valid) (walk : Walk) :
    Run True (follow tables walk) s log fun _ s' _ => Stays tables s s' :=
  Run.forM walk (.refl s) fun step' _ _ _ soFar =>
    (run_step_stays valid step').mono fun _ _ _ => soFar.trans

/-! ## Paths on the way -/

/-- In some scopes, a step looks a path up in a namespace. If the path is a callee, it comes with
    the labels of the call. -/
inductive LooksUp (tables : Tables) (scopes : ScopeStack) :
    WalkStep → Namespace → Path → Option String → Prop where
  | path {ns : Namespace} {path : Path} {labels : Option String} :
      LooksUp tables scopes (.path ns path labels) ns path labels
  | typeArg {path : Path} {isValue : Bool}
      (reads : isValueArg tables scopes path = .ok isValue) :
      LooksUp tables scopes (.typeArg path) (if isValue then .value else .type) path none

/-- On its way through a program to `resolved`, the second pass comes upon a path in some state,
    and looks it up. -/
def Meets (tables : Tables) (program : Program) (ns : Namespace) (path : Path)
    (labels : Option String) (s resolved : ResolveState) : Prop :=
  ∃ before step after, Walk.ofProgram program = before ++ step :: after ∧
    GoesThrough tables before (step :: after) s resolved ∧
    LooksUp tables s.scopes step ns path labels

theorem LooksUp.records {step' : WalkStep} {ns : Namespace} {path : Path} {labels : Option String}
    (h : LooksUp tables s.scopes step' ns path labels) :
    Run True (step tables step') s log fun _ s' _ => ∃ result warnings,
      (tables.resolvePath s.scopes ns path labels).run.run [] = .ok (result, warnings) ∧
      s'.resolutions[path.id]? = some (recordOf result) ∧
      s'.diagnostics = s.diagnostics ++ (warnings ++ errorsOf result) := by
  have records : Run True (resolvePath tables ns path labels) s log fun _ s' _ =>
      ∃ result warnings,
        (tables.resolvePath s.scopes ns path labels).run.run [] = .ok (result, warnings) ∧
        s'.resolutions[path.id]? = some (recordOf result) ∧
        s'.diagnostics = s.diagnostics ++ (warnings ++ errorsOf result) := by
    apply (run_resolvePath_records ns path labels).mono
    rintro _ _ _ ⟨-, result, warnings, came, rfl⟩
    exact ⟨result, warnings, came, Std.TreeMap.getElem?_insert_self, rfl⟩
  cases h with
  | path => exact records
  | typeArg reads =>
    simp only [step, lift, Run.bind_iff, Run.get_iff, Run.lift_iff, reads, Yields.ok_iff]
    exact records

variable {program : Program} {ns : Namespace} {path : Path} {labels : Option String}
  {resolved : ResolveState}

/-- What is recorded in the end is what the search has come to. -/
theorem Meets.becomes (h : Meets tables program ns path labels s resolved)
    (valid : tables.defs.Valid) : ∃ result warnings,
      (tables.resolvePath s.scopes ns path labels).run.run [] = .ok (result, warnings) ∧
      resolved.resolutions[path.id]? = some (recordOf result) ∧
      s.diagnostics ++ (warnings ++ errorsOf result) <+: resolved.diagnostics := by
  obtain ⟨before, step', after, -, ⟨log₀, log₁, log₂, -, rest⟩, looksUp⟩ := h
  have steps : follow tables (step' :: after) =
      step tables step' >>= fun _ => follow tables after := rfl
  rw [steps] at rest
  obtain ⟨_, s₁, log₃, first, others⟩ := Run.bind_eq_ok.mp rest
  obtain ⟨result, warnings, came, recorded, reported⟩ := Run.of_ok looksUp.records first
  have stays : Stays tables s₁ resolved := Run.of_ok (run_follow_stays valid after) others
  refine ⟨result, warnings, came, stays.recorded recorded, ?_⟩
  rw [← reported]
  exact stays.reported

/-- Behind the path the scopes are what they have been in front of it. -/
theorem GoesThrough.behind_path {before rest : Walk}
    (h : GoesThrough tables before (.path ns path labels :: rest) s resolved) :
    ∃ s', s'.scopes = s.scopes ∧
      GoesThrough tables (before ++ [.path ns path labels]) rest s' resolved := by
  obtain ⟨log₀, log₁, log₂, front, others⟩ := h
  obtain ⟨_, s', log₃, past, others⟩ := Run.bind_eq_ok.mp others
  obtain ⟨-, result, warnings, -, moved⟩ :=
    Run.of_ok (run_resolvePath_records ns path labels) past
  refine ⟨s', by rw [moved], log₀, log₃, log₂, ?_, others⟩
  rw [follow_append]
  exact Run.bind_eq_ok.mpr ⟨_, _, _, front, Run.bind_eq_ok.mpr ⟨_, _, _, past, rfl⟩⟩

/-- What `Self` stands for there is an item that it may stand for. -/
theorem GoesThrough.selfItems {before rest : Walk}
    (h : GoesThrough tables before rest s resolved) (valid : tables.defs.Valid) :
    SelfItems tables.defs s.scopes.toList := by
  obtain ⟨log₀, log₁, log₂, front, -⟩ := h
  have stays : Stays tables .start s := Run.of_ok (run_follow_stays valid before) front
  exact stays.selfItems (SelfItems.new tables.defs)

theorem Meets.selfItems (h : Meets tables program ns path labels s resolved)
    (valid : tables.defs.Valid) : SelfItems tables.defs s.scopes.toList := by
  obtain ⟨before, step', after, -, through, -⟩ := h
  exact through.selfItems valid

/-! ## Where records come from -/

/-- What a step records of a node in some scopes. -/
inductive Records (tables : Tables) (scopes : ScopeStack) :
    WalkStep → NodeId → Resolution → Prop where
  | path {step : WalkStep} {ns : Namespace} {path : Path} {labels : Option String}
      {result : Except Diagnostic Resolution} {warnings : List Diagnostic}
      (looksUp : LooksUp tables scopes step ns path labels)
      (came : (tables.resolvePath scopes ns path labels).run.run [] = .ok (result, warnings)) :
      Records tables scopes step path.id (recordOf result)
  | selfValue {node : NodeId} {span : Span} {id : DefId}
      (isSelf : scopes.innermost.selfItem = some id) :
      Records tables scopes (.selfValue node span) node (.definition id)
  | noSelf {node : NodeId} {span : Span} (noSelf : scopes.innermost.selfItem = none) :
      Records tables scopes (.selfValue node span) node .error
  | variant {ident : Ident} {node : NodeId} {id : DefId}
      (named : tables.variantNamed scopes ident.name = .ok (some id)) :
      Records tables scopes (.bindOrMatch ident node) node (.definition id)

/-- A step adds what it records, and nothing else. -/
def Adds (tables : Tables) (step' : WalkStep) (s s' : ResolveState) : Prop :=
  ∀ node r, s'.resolutions[node]? = some r ↔
    s.resolutions[node]? = some r ∨ Records tables s.scopes step' node r

theorem LooksUp.visited? {step' : WalkStep} {scopes : ScopeStack}
    (h : LooksUp tables scopes step' ns path labels) : step'.visited? = some path.id := by
  cases h <;> rfl

theorem LooksUp.unique {step' : WalkStep} {scopes : ScopeStack} {ns ns' : Namespace}
    {path path' : Path} {labels labels' : Option String}
    (h : LooksUp tables scopes step' ns path labels)
    (h' : LooksUp tables scopes step' ns' path' labels') :
    ns' = ns ∧ path' = path ∧ labels' = labels := by
  cases h with
  | path => cases h'; exact ⟨rfl, rfl, rfl⟩
  | typeArg reads =>
    cases h' with
    | typeArg reads' =>
      rw [reads] at reads'
      cases reads'
      exact ⟨rfl, rfl, rfl⟩

theorem Records.visited? {step' : WalkStep} {scopes : ScopeStack} {node : NodeId} {r : Resolution}
    (h : Records tables scopes step' node r) : step'.visited? = some node := by
  cases h with
  | path looksUp _ => exact looksUp.visited?
  | selfValue | noSelf | variant => rfl

/-- In the same scopes a step records one thing at most. -/
theorem Records.unique {step' : WalkStep} {scopes : ScopeStack} {node node' : NodeId}
    {r r' : Resolution} (h : Records tables scopes step' node r)
    (h' : Records tables scopes step' node' r') : node' = node ∧ r' = r := by
  cases h with
  | path looksUp came =>
    cases h' with
    | path looksUp' came' =>
      obtain ⟨rfl, rfl, rfl⟩ := looksUp.unique looksUp'
      rw [came] at came'
      cases came'
      exact ⟨rfl, rfl⟩
    | selfValue | noSelf | variant => cases looksUp
  | selfValue isSelf =>
    cases h' with
    | path looksUp' _ => cases looksUp'
    | selfValue isSelf' =>
      rw [isSelf] at isSelf'
      cases isSelf'
      exact ⟨rfl, rfl⟩
    | noSelf noSelf =>
      rw [isSelf] at noSelf
      cases noSelf
  | noSelf noSelf =>
    cases h' with
    | path looksUp' _ => cases looksUp'
    | selfValue isSelf =>
      rw [noSelf] at isSelf
      cases isSelf
    | noSelf => exact ⟨rfl, rfl⟩
  | variant named =>
    cases h' with
    | path looksUp' _ => cases looksUp'
    | variant named' =>
      rw [named] at named'
      cases named'
      exact ⟨rfl, rfl⟩

/-- A step that records nothing. -/
theorem adds_of_silent {step' : WalkStep}
    (silent : ∀ node r, ¬ Records tables s.scopes step' node r)
    (same : s'.resolutions = s.resolutions) : Adds tables step' s s' := by
  intro node r
  rw [same]
  exact ⟨.inl, fun h => h.resolve_right (silent node r)⟩

/-- A step that records one thing. -/
theorem adds_of_records {step' : WalkStep} {node : NodeId} {r : Resolution}
    (fresh : s.resolutions[node]? = none) (records : Records tables s.scopes step' node r)
    (inserted : s'.resolutions = s.resolutions.insert node r) : Adds tables step' s s' := by
  intro other r'
  have only : Records tables s.scopes step' other r' ↔ other = node ∧ r' = r := by
    refine ⟨records.unique, ?_⟩
    rintro ⟨rfl, rfl⟩
    exact records
  rw [only, inserted, Std.TreeMap.getElem?_insert]
  by_cases same : node = other
  · subst same
    simp [fresh, eq_comm]
  · simp [same, Ne.symm same]

theorem run_resolvePath_adds {step' : WalkStep}
    (looksUp : LooksUp tables s.scopes step' ns path labels) :
    Run True (resolvePath tables ns path labels) s log fun _ s' _ => Adds tables step' s s' := by
  apply (run_resolvePath_records ns path labels).mono
  rintro _ _ _ ⟨fresh, result, warnings, came, rfl⟩
  exact adds_of_records fresh (.path looksUp came) rfl

/-- What a step records, and nothing else, is there behind it. -/
theorem run_step_adds (valid : tables.defs.Valid) (step' : WalkStep) :
    Run True (step tables step') s log fun _ s' _ => Adds tables step' s s' := by
  -- a step that comes upon no node only changes the scopes
  have silent {s' : ResolveState} (noNode : step'.visited? = none)
      (same : s'.resolutions = s.resolutions) : Adds tables step' s s' := by
    refine adds_of_silent (fun node r records => ?_) same
    have visited := records.visited?
    rw [noNode] at visited
    cases visited
  cases step' with
  | enter kind => exact silent rfl rfl
  | enterBlock kind node declaresItems =>
    simp only [step, enterBlock]
    split
    · simp only [lift, Run.bind_iff, Run.lift_iff, Yields.error_iff]
    · exact silent rfl rfl
  | enterItem node =>
    simp only [step, enterItem, Run.bind_iff]
    apply (run_definitionAt_same valid node).mono
    rintro d _ log₁ ⟨rfl, -⟩
    simp only [lift, Run.lift_iff, Run.modify_iff]
    exact Yields.trivial_of_true fun module => silent rfl rfl
  | enterFunc node =>
    simp only [step, Run.bind_iff]
    apply (run_definitionAt_same valid node).mono
    rintro d _ log₁ ⟨rfl, -⟩
    exact silent rfl rfl
  | leave =>
    simp only [step, leave, lift, Run.bind_iff, Run.get_iff, Run.lift_iff, Run.set_iff]
    exact Yields.trivial_of_true fun popped => silent rfl rfl
  | path ns path suffix => exact run_resolvePath_adds .path
  | typeArg path =>
    simp only [step, lift, Run.bind_iff, Run.get_iff, Run.lift_iff]
    exact Yields.true_iff.mpr fun isValue reads => run_resolvePath_adds (.typeArg reads)
  | selfValue node span =>
    simp only [step, Run.bind_iff, Run.get_iff]
    split
    · next id isSelf =>
      apply (run_record_fresh node (.definition id)).mono
      rintro _ _ _ ⟨fresh, rfl⟩
      exact adds_of_records fresh (.selfValue isSelf) rfl
    · next noSelf =>
      apply (run_report_record _ node .error).mono
      rintro _ _ _ ⟨fresh, rfl⟩
      exact adds_of_records fresh (.noSelf noSelf) rfl
  | bind ident node =>
    simp only [step, bindLocal, Run.bind_iff, Run.emit_iff, Run.modify_iff]
    refine adds_of_silent (fun other r records => ?_) rfl
    cases records with
    | path looksUp _ => cases looksUp
  | bindOrMatch ident node =>
    simp only [step, lift, Run.bind_iff, Run.get_iff, Run.lift_iff]
    refine Yields.true_iff.mpr fun variant named => ?_
    cases variant with
    | some id =>
      apply (run_record_fresh node (.definition id)).mono
      rintro _ _ _ ⟨fresh, rfl⟩
      exact adds_of_records fresh (.variant named) rfl
    | none =>
      simp only [bindLocal, Run.bind_iff, Run.emit_iff, Run.modify_iff]
      refine adds_of_silent (fun other r records => ?_) rfl
      cases records with
      | path looksUp _ => cases looksUp
      | variant named' =>
        rw [named] at named'
        cases named'

/-- On its way through a program to `resolved`, the second pass comes by a step in some state, and
    records a node there. -/
def Source (tables : Tables) (program : Program) (step' : WalkStep) (node : NodeId)
    (r : Resolution) (s resolved : ResolveState) : Prop :=
  ∃ before after, Walk.ofProgram program = before ++ step' :: after ∧
    GoesThrough tables before (step' :: after) s resolved ∧ Records tables s.scopes step' node r

theorem Source.mem_walk {step' : WalkStep} {node : NodeId} {r : Resolution}
    (h : Source tables program step' node r s resolved) : step' ∈ Walk.ofProgram program := by
  obtain ⟨before, after, split, -⟩ := h
  rw [split]
  exact List.mem_append_right _ (List.mem_cons_self ..)

theorem Source.visited? {step' : WalkStep} {node : NodeId} {r : Resolution}
    (h : Source tables program step' node r s resolved) : step'.visited? = some node := by
  obtain ⟨before, after, -, -, records⟩ := h
  exact records.visited?

/-- What is so behind a walk has been so before it, or some step of it has brought it about. -/
theorem exists_step_of_follow {holds : ResolveState → Prop}
    {brings : ResolveState → WalkStep → Prop}
    (each : ∀ step' s log, Run True (step tables step') s log fun _ s' _ =>
      holds s' → holds s ∨ brings s step')
    (walk : Walk) {log' : Log} (run : follow tables walk s log = .ok ((), s') log')
    (behind : holds s') :
    holds s ∨ ∃ before step' after s₁ log₁, walk = before ++ step' :: after ∧
      follow tables before s log = .ok ((), s₁) log₁ ∧
      follow tables (step' :: after) s₁ log₁ = .ok ((), s') log' ∧
      brings s₁ step' := by
  induction walk generalizing s log with
  | nil =>
    cases run
    exact .inl behind
  | cons first walk ih =>
    obtain ⟨_, s₁, log₁, here, others⟩ := Run.bind_eq_ok.mp
      (show (step tables first >>= fun _ => follow tables walk) s log = _ from run)
    rcases ih others with between | ⟨before, step', after, s₂, log₂, rfl, front, back, source⟩
    · rcases Run.of_ok (each first s log) here between with before | source
      · exact .inl before
      · exact .inr ⟨[], first, walk, s, log, rfl, rfl, run, source⟩
    · refine .inr ⟨first :: before, step', after, s₂, log₂, rfl, ?_, back, source⟩
      exact Run.bind_eq_ok.mpr ⟨_, _, _, here, front⟩

/-- Each record comes from some step, and is what this step has recorded. -/
theorem recorded_iff_source {log' : Log} (valid : tables.defs.Valid)
    (run : resolveNames tables program log = .ok resolved log') {node : NodeId} {r : Resolution} :
    resolved.resolutions[node]? = some r ↔
      ∃ step' s, Source tables program step' node r s resolved := by
  constructor
  · intro recorded
    obtain ⟨log₁, whole⟩ := follow_of_resolveNames run
    have each (step' : WalkStep) (s : ResolveState) (log : Log) :
        Run True (step tables step') s log fun _ s' _ => s'.resolutions[node]? = some r →
          s.resolutions[node]? = some r ∨ Records tables s.scopes step' node r :=
      (run_step_adds valid step').mono fun _ _ _ adds => (adds node r).mp
    rcases exists_step_of_follow each _ whole recorded with
      before | ⟨before, step', after, s, log₂, split, front, back, records⟩
    · simp [ResolveState.start] at before
    · exact ⟨step', s, before, after, split, ⟨log, log₂, log₁, front, back⟩, records⟩
  · rintro ⟨step', s, before, after, -, ⟨log₀, log₁, log₂, -, back⟩, records⟩
    obtain ⟨_, s₁, log₃, here, others⟩ := Run.bind_eq_ok.mp
      (show (step tables step' >>= fun _ => follow tables after) s log₁ = _ from back)
    have adds : Adds tables step' s s₁ := Run.of_ok (run_step_adds valid step') here
    have stays : Stays tables s₁ resolved := Run.of_ok (run_follow_stays valid after) others
    exact stays.recorded ((adds node r).mpr (.inr records))

/-! ## Where reports come from -/

/-- What a step reports in some scopes. -/
inductive Reports (tables : Tables) (scopes : ScopeStack) : WalkStep → Diagnostic → Prop where
  | path {step : WalkStep} {ns : Namespace} {path : Path} {labels : Option String}
      {result : Except Diagnostic Resolution} {warnings : List Diagnostic} {d : Diagnostic}
      (looksUp : LooksUp tables scopes step ns path labels)
      (came : (tables.resolvePath scopes ns path labels).run.run [] = .ok (result, warnings))
      (mem : d ∈ warnings ++ errorsOf result) : Reports tables scopes step d
  | noSelf {node : NodeId} {span : Span} (noSelf : scopes.innermost.selfItem = none) :
      Reports tables scopes (.selfValue node span) (.selfOutsideItem "self" span)

/-- A report that is there behind a step has been there in front of it, or is one of its own. -/
def Tells (tables : Tables) (step' : WalkStep) (s s' : ResolveState) : Prop :=
  ∀ d ∈ s'.diagnostics, d ∈ s.diagnostics ∨ Reports tables s.scopes step' d

theorem tells_of_silent {step' : WalkStep} (same : s'.diagnostics = s.diagnostics) :
    Tells tables step' s s' := fun _ mem => .inl (same ▸ mem)

theorem run_resolvePath_tells {step' : WalkStep}
    (looksUp : LooksUp tables s.scopes step' ns path labels) :
    Run True (resolvePath tables ns path labels) s log fun _ s' _ => Tells tables step' s s' := by
  apply (run_resolvePath_records ns path labels).mono
  rintro _ _ _ ⟨-, result, warnings, came, rfl⟩ d mem
  exact (List.mem_append.mp mem).imp_right (.path looksUp came)

/-- Only where a path or `self` is resolved something is reported. -/
theorem run_step_tells (valid : tables.defs.Valid) (step' : WalkStep) :
    Run True (step tables step') s log fun _ s' _ => Tells tables step' s s' := by
  cases step' with
  | enter kind => exact tells_of_silent rfl
  | enterBlock kind node declaresItems =>
    simp only [step, enterBlock]
    split
    · simp only [lift, Run.bind_iff, Run.lift_iff, Yields.error_iff]
    · exact tells_of_silent rfl
  | enterItem node =>
    simp only [step, enterItem, Run.bind_iff]
    apply (run_definitionAt_same valid node).mono
    rintro d _ log₁ ⟨rfl, -⟩
    simp only [lift, Run.lift_iff, Run.modify_iff]
    exact Yields.trivial_of_true fun module => tells_of_silent rfl
  | enterFunc node =>
    simp only [step, Run.bind_iff]
    apply (run_definitionAt_same valid node).mono
    rintro d _ log₁ ⟨rfl, -⟩
    exact tells_of_silent rfl
  | leave =>
    simp only [step, leave, lift, Run.bind_iff, Run.get_iff, Run.lift_iff, Run.set_iff]
    exact Yields.trivial_of_true fun popped => tells_of_silent rfl
  | path ns path suffix => exact run_resolvePath_tells .path
  | typeArg path =>
    simp only [step, lift, Run.bind_iff, Run.get_iff, Run.lift_iff]
    exact Yields.true_iff.mpr fun isValue reads => run_resolvePath_tells (.typeArg reads)
  | selfValue node span =>
    simp only [step, Run.bind_iff, Run.get_iff]
    split
    · next id isSelf =>
      apply (run_record_fresh node (.definition id)).mono
      rintro _ _ _ ⟨-, rfl⟩
      exact tells_of_silent rfl
    · next noSelf =>
      apply (run_report_record _ node .error).mono
      rintro _ _ _ ⟨-, rfl⟩ d mem
      refine (List.mem_append.mp mem).imp_right fun here => ?_
      rw [List.mem_singleton.mp here]
      exact .noSelf noSelf
  | bind ident node =>
    simp only [step, bindLocal, Run.bind_iff, Run.emit_iff, Run.modify_iff]
    exact tells_of_silent rfl
  | bindOrMatch ident node =>
    simp only [step, lift, Run.bind_iff, Run.get_iff, Run.lift_iff]
    refine Yields.trivial_of_true fun variant => ?_
    cases variant with
    | some id =>
      apply (run_record_fresh node (.definition id)).mono
      rintro _ _ _ ⟨-, rfl⟩
      exact tells_of_silent rfl
    | none =>
      simp only [bindLocal, Run.bind_iff, Run.emit_iff, Run.modify_iff]
      exact tells_of_silent rfl

/-- Each report comes from some step on the way. -/
theorem exists_reports {log' : Log} (valid : tables.defs.Valid)
    (run : resolveNames tables program log = .ok resolved log') {d : Diagnostic}
    (mem : d ∈ resolved.diagnostics) :
    ∃ before step' after s, Walk.ofProgram program = before ++ step' :: after ∧
      GoesThrough tables before (step' :: after) s resolved ∧
      Reports tables s.scopes step' d := by
  obtain ⟨log₁, whole⟩ := follow_of_resolveNames run
  have each (step' : WalkStep) (s : ResolveState) (log : Log) :
      Run True (step tables step') s log fun _ s' _ => d ∈ s'.diagnostics →
        d ∈ s.diagnostics ∨ Reports tables s.scopes step' d :=
    (run_step_tells valid step').mono fun _ _ _ tells => tells d
  rcases exists_step_of_follow each _ whole mem with
    before | ⟨before, step', after, s, log₂, split, front, back, reports⟩
  · cases before
  · exact ⟨before, step', after, s, split, ⟨log, log₂, log₁, front, back⟩, reports⟩

end Resolving

end NameResolution

import NameResolution.Proofs.Declaration.Sorts
import NameResolution.Proofs.Tables.Overloads

/-! # What is left for the imports

    The first pass makes no aliases. It puts aside one directive for each import
    of the text, so no two of them have a node in common where no node comes up
    twice. -/

namespace NameResolution

/-- The import that a step puts aside. -/
def OutlineStep.import? : OutlineStep → Option Import
  | .imports i => some i
  | _ => none

/-- The imports of an outline. -/
def Outline.imports (outline : Outline) : List Import := outline.filterMap (·.import?)

theorem Outline.imports_cons (step : OutlineStep) (outline : Outline) :
    imports (step :: outline) = step.import?.toList ++ imports outline := by
  unfold imports
  cases silent : step.import? with
  | none => rw [List.filterMap_cons_none silent, Option.toList_none, List.nil_append]
  | some i => rw [List.filterMap_cons_some silent, Option.toList_some, List.singleton_append]

/-- Each import is put aside for a node of its own. -/
theorem Outline.imports_sublist (outline : Outline) :
    ((imports outline).map (·.node)).Sublist outline.nodes := by
  induction outline with
  | nil => exact .slnil
  | cons step outline ih =>
    cases step with
    | imports i => exact ih.cons_cons i.node
    | leave => exact ih
    | declare | enterItem | enterImpl | declareFunc | enterFunc | enterBlock => exact ih.cons _

namespace Declaring

variable {isPub : Bool} {node : NodeId} {kind : DefKind} {ident : Ident} {suffix : String}
  {s s' s'' : DeclareState} {log : Log}

/-! ## Steps -/

/-- A part of the first pass has put imports aside, and made no aliases. -/
structure Collects (imports : List Import) (s s' : DeclareState) : Prop where
  directives : s'.directives.map (·.toImport) = s.directives.map (·.toImport) ++ imports
  aliases : ∀ {node : NodeId} {id target : DefId},
    s'.defs.AliasAt node id target → s.defs.AliasAt node id target

theorem Collects.refl (s : DeclareState) : Collects [] s s := ⟨by simp, id⟩

theorem Collects.trans {imports others : List Import} (h : Collects imports s s')
    (h' : Collects others s' s'') : Collects (imports ++ others) s s'' := by
  refine ⟨?_, fun made => h.aliases (h'.aliases made)⟩
  rw [h'.directives, h.directives, List.append_assoc]

/-- Nothing is put aside where the directives stay as they are. -/
theorem Collects.of_directives (same : s'.directives = s.directives)
    (aliases : ∀ {node : NodeId} {id target : DefId},
      s'.defs.AliasAt node id target → s.defs.AliasAt node id target) : Collects [] s s' :=
  ⟨by rw [same, List.append_nil], aliases⟩

/-- A declaration is no alias. -/
theorem aliasAt_declared {node' : NodeId} {id target : DefId}
    (made : (declaredIn s isPub node kind ident).AliasAt node' id target) :
    s.defs.AliasAt node' id target := by
  obtain ⟨d, found, here, named⟩ := made
  have found : (s.defs.push isPub node kind ident none).find? id = some d := found
  rw [Definitions.find?_push] at found
  split at found
  · cases found
    cases named
  · exact ⟨d, found, here, named⟩

/-- To add a function to a set defines nothing, and opens no modules. -/
theorem addFunction_frame {defs : Definitions} {id : DefId} {set : Option OverloadId}
    {r : Definitions.Added × Definitions} (added : defs.addFunction id set suffix = .ok r) :
    r.2.entries = defs.entries ∧ r.2.modules = defs.modules := by
  have orNew : (defs.overloadsOrNew set).2.entries = defs.entries ∧
      (defs.overloadsOrNew set).2.modules = defs.modules := by
    cases set <;> exact ⟨rfl, rfl⟩
  have same : Yields True (defs.addFunction id set suffix) fun r =>
      r.2.entries = defs.entries ∧ r.2.modules = defs.modules := by
    unfold Definitions.addFunction
    simp only [Yields.bind_iff]
    refine Yields.trivial_of_true fun d => ?_
    split
    · rw [Yields.bind_iff]
      refine Yields.trivial_of_true fun members => ?_
      split
      · exact orNew
      · exact orNew
    · trivial
  exact Yields.true_iff.mp same r added

theorem aliasAt_addFunction {defs : Definitions} {id id' target : DefId} {set : Option OverloadId}
    {r : Definitions.Added × Definitions} (added : defs.addFunction id set suffix = .ok r)
    (made : r.2.AliasAt node id' target) : defs.AliasAt node id' target := by
  obtain ⟨d, found, here, named⟩ := made
  refine ⟨d, ?_, here, named⟩
  rw [← found, Definitions.find?, Definitions.find?, (addFunction_frame added).1]

theorem NameOutcome.collects (outcome : NameOutcome isPub node kind ident s s') :
    Collects [] s s' := by
  cases outcome with
  | bound _ _ _ _ => exact .of_directives rfl aliasAt_declared
  | taken _ _ _ => exact .of_directives rfl aliasAt_declared

theorem FuncOutcome.collects {free : Bool}
    (outcome : FuncOutcome isPub node kind ident suffix s free s') : Collects [] s s' := by
  cases outcome with
  | joined _ made | suffixTaken _ made _ | opened _ made =>
    exact .of_directives rfl fun h => aliasAt_declared (aliasAt_addFunction made h)
  | blocked _ _ _ => exact .of_directives rfl aliasAt_declared

theorem EnterOutcome.collects {id : DefId} {name : Option String}
    (outcome : EnterOutcome id node s name s') : Collects [] s s' := by
  -- a module is recorded beside the definitions
  cases outcome with
  | named _ made | anonymous _ made =>
    obtain ⟨-, rfl⟩ := Definitions.addModule_eq_ok.mp made
    exact .of_directives rfl fun h => h

theorem StepOutcome.collects {step : OutlineStep} (outcome : StepOutcome s step s') :
    Collects step.import?.toList s s' := by
  cases outcome with
  | declare _ outcome => exact outcome.collects
  | enterItem _ outcome entered => exact outcome.collects.trans entered.collects
  | @enterImpl isPub node span _ _ entered =>
    have declared : Collects [] s
        { s with defs := declaredIn s isPub node .impl ⟨"impl", span⟩ } :=
      .of_directives rfl aliasAt_declared
    exact declared.trans entered.collects
  | declareFunc _ outcome => exact outcome.collects
  | enterFunc _ outcome entered => exact outcome.collects.trans entered.collects
  | enterBlock _ made =>
    obtain ⟨-, rfl⟩ := Definitions.addBlock_eq_ok.mp made
    exact .of_directives rfl id
  | leave _ _ => exact .of_directives rfl id
  | imports i => exact ⟨List.map_append, id⟩

theorem FollowOutcome.collects {labels : NodeId → String → Prop} {outline : Outline}
    {s s' : DeclareState} (h : FollowOutcome labels outline s s') :
    Collects outline.imports s s' := by
  induction h with
  | nil _ => exact .refl _
  | cons _ outcome _ _ ih =>
    rw [Outline.imports_cons]
    exact outcome.collects.trans ih

/-! ## The program -/

/-- The program itself is no alias. -/
theorem not_aliasAt_atRoot {program : Program} {id target : DefId} :
    ¬ (atRoot program).defs.AliasAt node id target := by
  rintro ⟨d, found, -, named⟩
  have found : (Definitions.empty.push true program.id .mod ⟨"[root]", program.span⟩ none).find?
      id = some d := found
  rw [Definitions.find?_push] at found
  split at found
  · cases found
    cases named
  · simp [Definitions.empty, Definitions.find?] at found

end Declaring

/-- What the first pass leaves for the imports: no aliases yet, and directives that are told apart
    by their nodes. -/
theorem declareProgram_collects {program : Program} (distinct : program.nodes.Nodup)
    {built : DeclareState} {log log' : Log}
    (declared : declareProgram .empty .new program log = .ok built log') :
    (built.directives.map (·.node)).Nodup ∧
      ∀ node id target, ¬ built.defs.AliasAt node id target := by
  have collects : Declaring.Collects (Outline.ofProgram program).imports
      (Declaring.atRoot program) built := (declareProgram_outcome declared).collects
  refine ⟨?_, fun node id target made => Declaring.not_aliasAt_atRoot (collects.aliases made)⟩
  have nodes : built.directives.map (·.node) =
      (Outline.ofProgram program).imports.map (·.node) := by
    have same := congrArg (List.map Import.node) collects.directives
    rw [List.map_map] at same
    exact same
  rw [nodes]
  exact (Program.nodup_outline distinct).sublist (Outline.imports_sublist _)

end NameResolution

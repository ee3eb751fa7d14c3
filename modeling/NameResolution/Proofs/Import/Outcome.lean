import NameResolution.Proofs.Import.State
import NameResolution.Proofs.Tables.Overloads
import Mathlib.Data.List.Forall2

/-! # What becomes of an import

    An import that has found something either binds its name, joins functions
    to those the name has, or leaves the name as it is. Said once of everything
    the state is made of, this is all that later arguments need of the code that
    binds imports. -/

namespace NameResolution

/-! ## Names that stay bound -/

namespace ModuleTree

/-- Whatever is bound stays bound to the same. -/
structure Keeps (tree tree' : ModuleTree) : Prop where
  bound : ∀ {id : ModuleId} {ns : Namespace} {name : String} {binding : Binding},
    tree.bindingAt? id ns name = some binding → tree'.bindingAt? id ns name = some binding

variable {tree tree' tree'' : ModuleTree}

theorem Keeps.refl (tree : ModuleTree) : tree.Keeps tree := ⟨fun h => h⟩

theorem Keeps.trans (h : tree.Keeps tree') (h' : tree'.Keeps tree'') : tree.Keeps tree'' :=
  ⟨fun bound => h'.bound (h.bound bound)⟩

/-- What is free in the end was free before. -/
theorem Keeps.free (h : tree.Keeps tree') {id : ModuleId} {ns : Namespace} {name : String}
    (isFree : tree'.bindingAt? id ns name = none) : tree.bindingAt? id ns name = none := by
  apply Option.eq_none_iff_forall_ne_some.mpr
  intro binding bound
  rw [h.bound bound] at isFree
  cases isFree

theorem keeps_bind {id : ModuleId} {ns : Namespace} {name : String} {binding : Binding}
    (isFree : tree.bindingAt? id ns name = none) :
    tree.Keeps (tree.modify id (·.bind ns name binding)) := by
  constructor
  intro other ns' name' binding' bound
  rw [bindingAt?_bind_of_ne]
  · exact bound
  · rintro ⟨⟩
    rw [isFree] at bound
    cases bound

end ModuleTree

/-! ## Outcomes -/

namespace Importing

variable {n : Nat}

/-- What binding `binding` under a name in the module of a directive comes to. -/
inductive Outcome (directive : Directive) (ns : Namespace) (name : Ident) (publicOnly : Bool)
    (s : ImportState n) : Binding → ImportState n → Prop where
  /-- A block takes no lifetimes -/
  | refused {m : Module} {binding : Binding} (found : s.tree.find? directive.module = some m)
      (lifetime : ns = .lifetime) (block : m.owner.isBlock = true) :
      Outcome directive ns name publicOnly s binding s
  /-- The name is free, and gets an alias -/
  | aliased {binding : Binding} {target id : DefId} {defs : Definitions} {m : Module}
      (names : binding = .definition target ∨ binding = .imported target)
      (made : s.defs.defineAlias directive.isPub directive.node name target = .ok (id, defs))
      (found : s.tree.find? directive.module = some m)
      (takes : ¬ (ns = .lifetime ∧ m.owner.isBlock))
      (free : s.tree.bindingAt? directive.module ns name.name = none) :
      Outcome directive ns name publicOnly s binding
        { s with defs, tree := s.tree.modify directive.module (·.bind ns name.name (.imported id)) }
  /-- The name is taken, and the alias is left without one -/
  | aliasTaken {binding first : Binding} {target id : DefId} {defs : Definitions}
      {report : Diagnostic}
      (names : binding = .definition target ∨ binding = .imported target)
      (made : s.defs.defineAlias directive.isPub directive.node name target = .ok (id, defs))
      (taken : s.tree.bindingAt? directive.module ns name.name = some first)
      (reported : redefinition defs name.name name.span first = .ok report) :
      Outcome directive ns name publicOnly s binding
        { s with defs, diagnostics := s.diagnostics ++ [report] }
  /-- Functions join those that the name has. Where a suffix is taken, this is reported -/
  | joined {source existing merged : OverloadId} {taken : List (String × DefId)}
      {defs : Definitions} {reports : List Diagnostic}
      (bound : s.tree.bindingAt? directive.module .value name.name = some (.overloads existing))
      (made : s.defs.importOverloads directive.isPub directive.node source (some existing)
        publicOnly = .ok (merged, taken, defs))
      (reported : List.Forall₂ (fun t report => redefinition defs (name.name ++ t.1) name.span
        (.definition t.2) = .ok report) taken reports) :
      Outcome directive ns name publicOnly s (.overloads source)
        { s with defs, diagnostics := s.diagnostics ++ reports }
  /-- Functions find their name taken by something else -/
  | blocked {source : OverloadId} {first : Binding} {report : Diagnostic}
      (taken : s.tree.bindingAt? directive.module .value name.name = some first)
      (other : ∀ existing, first ≠ .overloads existing)
      (reported : redefinition s.defs name.name name.span first = .ok report) :
      Outcome directive ns name publicOnly s (.overloads source)
        { s with diagnostics := s.diagnostics ++ [report] }
  /-- Functions find their name free, and get a set of their own -/
  | opened {source merged : OverloadId} {taken : List (String × DefId)} {defs : Definitions}
      (free : s.tree.bindingAt? directive.module .value name.name = none)
      (made : s.defs.importOverloads directive.isPub directive.node source none publicOnly =
        .ok (merged, taken, defs)) :
      Outcome directive ns name publicOnly s (.overloads source)
        { s with
          defs
          tree := s.tree.modify directive.module (·.bind .value name.name (.overloads merged)) }

variable {directive : Directive} {ns : Namespace} {name : Ident} {publicOnly : Bool}
  {s s' : ImportState n} {log : Log}

namespace Outcome

variable {binding : Binding}

theorem statuses (h : Outcome directive ns name publicOnly s binding s') :
    s'.statuses = s.statuses := by
  cases h <;> rfl

theorem diagnostics (h : Outcome directive ns name publicOnly s binding s') :
    ∃ more, s'.diagnostics = s.diagnostics ++ more := by
  cases h with
  | refused _ _ _ => exact ⟨[], (List.append_nil _).symm⟩
  | aliased _ _ _ _ _ => exact ⟨[], (List.append_nil _).symm⟩
  | aliasTaken _ _ _ _ => exact ⟨_, rfl⟩
  | joined _ _ _ => exact ⟨_, rfl⟩
  | blocked _ _ _ => exact ⟨_, rfl⟩
  | opened _ _ => exact ⟨[], (List.append_nil _).symm⟩

end Outcome

/-! ## Running -/

theorem run_reportTaken_eq {text : String} {span : Span} {first : Binding} :
    Run True (reportTaken text span first) s log fun _ s' log' =>
      (∃ report, redefinition s.defs text span first = .ok report ∧
        s' = { s with diagnostics := s.diagnostics ++ [report] }) ∧ log' = log := by
  simp only [reportTaken, report, lift, Run.bind_iff, Run.get_iff, Run.lift_iff, Run.modify_iff]
  exact Yields.true_iff.mpr fun report eq => ⟨⟨report, eq, rfl⟩, trivial⟩

/-- Each suffix that is taken is reported, in order. -/
theorem run_reportAllTaken_eq {text : String} {span : Span} (taken : List (String × DefId))
    {s : ImportState n} {log : Log} :
    Run True (taken.forM fun (suffix, first) =>
        reportTaken (text ++ suffix) span (.definition first)) s log fun _ s' log' =>
      (∃ reports, List.Forall₂ (fun t report => redefinition s.defs (text ++ t.1) span
          (.definition t.2) = .ok report) taken reports ∧
        s' = { s with diagnostics := s.diagnostics ++ reports }) ∧ log' = log := by
  induction taken generalizing s log with
  | nil => exact ⟨⟨[], .nil, by simp⟩, rfl⟩
  | cons t taken ih =>
    show Run True (reportTaken (text ++ t.1) span (.definition t.2) >>= fun _ =>
      taken.forM fun (suffix, first) => reportTaken (text ++ suffix) span (.definition first))
      s log _
    rw [Run.bind_iff]
    apply run_reportTaken_eq.mono
    rintro _ s₁ log₁ ⟨⟨report, reported, rfl⟩, rfl⟩
    apply ih.mono
    rintro _ s₂ log₂ ⟨⟨reports, all, rfl⟩, rfl⟩
    exact ⟨⟨report :: reports, .cons reported all, by simp⟩, rfl⟩

theorem run_bind_eq {module : ModuleId} {text : String} {binding : Binding} :
    Run True (bind module ns text binding) s log fun first s' log' =>
      first = s.tree.bindingAt? module ns text ∧
        (first = none → s' = { s with tree := s.tree.modify module (·.bind ns text binding) }) ∧
        (first ≠ none → s' = s) ∧ log.Notes (· = .written s'.defs s'.tree) log' := by
  simp only [bind, lift, Run.bind_iff, Run.get_iff, Run.lift_iff, ModuleTree.yields_bind]
  apply Yields.true_iff.mpr
  intro m got
  rw [ModuleTree.bindingAt?_of_find? (ModuleTree.find?_of_get got)]
  split
  · trivial
  · split
    · next first bound => exact ⟨bound.symm, by simp, fun _ => rfl, .refl log⟩
    · next free => exact ⟨free.symm, fun _ => rfl, by simp, .note rfl⟩

/-- What is noted when an import binds something: the definitions are there before the name. -/
def BindsNoted (s s' : ImportState n) (moment : Moment) : Prop :=
  moment = .written s'.defs s.tree ∨ moment = .written s'.defs s'.tree

theorem run_bindAlias_outcome {m : Module} (found : s.tree.find? directive.module = some m)
    (takes : ¬ (ns = .lifetime ∧ m.owner.isBlock)) {binding : Binding} {target : DefId}
    (names : binding = .definition target ∨ binding = .imported target) :
    Run True (do
      let (id, defs) ← lift (s.defs.defineAlias directive.isPub directive.node name target)
      setDefs defs
      if let some first ← bind directive.module ns name.name (.imported id) then
        reportTaken name.name name.span first) s log fun _ s' log' =>
      Outcome directive ns name publicOnly s binding s' ∧ log.Notes (BindsNoted s s') log' := by
  simp only [lift, Run.bind_iff, Run.lift_iff]
  apply Yields.true_iff.mpr
  rintro ⟨id, defs⟩ made
  apply (run_setDefs_eq defs).mono
  rintro _ _ log₁ ⟨rfl, notes⟩
  apply run_bind_eq.mono
  rintro first s₂ log₂ ⟨bound, isFree, isTaken, notes'⟩
  cases first with
  | none =>
    obtain rfl := isFree rfl
    exact ⟨.aliased names made found takes bound.symm,
      (notes.mono fun _ => .inl).trans (notes'.mono fun _ => .inr)⟩
  | some first =>
    obtain rfl := isTaken (by simp)
    apply run_reportTaken_eq.mono
    rintro _ _ log₃ ⟨⟨report, reported, rfl⟩, rfl⟩
    exact ⟨.aliasTaken names made bound.symm reported,
      (notes.mono fun _ => .inl).trans (notes'.mono fun _ => .inr)⟩

theorem run_bindOverloads_outcome {source : OverloadId} :
    Run True (do
      match ← bindingOf directive.module .value name.name with
      | some (.overloads existing) =>
        let (_, taken, defs) ← lift <|
          s.defs.importOverloads directive.isPub directive.node source (some existing) publicOnly
        setDefs defs
        taken.forM fun (suffix, first) =>
          reportTaken (name.name ++ suffix) name.span (.definition first)
      | some first => reportTaken name.name name.span first
      | none =>
        let (merged, _, defs) ← lift <|
          s.defs.importOverloads directive.isPub directive.node source none publicOnly
        setDefs defs
        if (← bind directive.module .value name.name (.overloads merged)).isSome then
          lift (.error (.importAppeared name.name))) s log fun _ s' log' =>
      Outcome directive ns name publicOnly s (.overloads source) s' ∧
        log.Notes (BindsNoted s s') log' := by
  rw [Run.bind_iff]
  apply reads_bindingOf.mono
  rintro found _ _ ⟨rfl, bound, rfl⟩
  split
  · next existing =>
    simp only [lift, Run.bind_iff, Run.lift_iff]
    apply Yields.true_iff.mpr
    rintro ⟨merged, taken, defs⟩ made
    apply (run_setDefs_eq defs).mono
    rintro _ _ log₁ ⟨rfl, notes⟩
    apply (run_reportAllTaken_eq taken).mono
    rintro _ _ log₂ ⟨⟨reports, reported, rfl⟩, rfl⟩
    exact ⟨.joined bound.symm made reported, notes.mono fun _ => .inl⟩
  · next first other =>
    apply run_reportTaken_eq.mono
    rintro _ _ log₁ ⟨⟨report, reported, rfl⟩, rfl⟩
    exact ⟨.blocked bound.symm (fun existing eq => other existing (by rw [eq])) reported, .refl _⟩
  · simp only [lift, Run.bind_iff, Run.lift_iff]
    apply Yields.true_iff.mpr
    rintro ⟨merged, taken, defs⟩ made
    apply (run_setDefs_eq defs).mono
    rintro _ _ log₁ ⟨rfl, notes⟩
    apply run_bind_eq.mono
    rintro first s₂ log₂ ⟨bound', isFree, -, notes'⟩
    -- making the set has bound nothing, so the name is still free
    have noFirst : first = none := bound'.trans bound.symm
    subst noFirst
    obtain rfl := isFree rfl
    exact ⟨.opened bound.symm made, (notes.mono fun _ => .inl).trans (notes'.mono fun _ => .inr)⟩

/-- Everything that binding an import may come to, and what is noted on the way. -/
theorem run_bindImport_noted {binding : Binding} :
    Run True (bindImport directive ns name binding publicOnly) s log fun _ s' log' =>
      Outcome directive ns name publicOnly s binding s' ∧ log.Notes (BindsNoted s s') log' := by
  simp only [bindImport, Run.bind_iff, Run.get_iff, lift, Run.lift_iff]
  apply Yields.true_iff.mpr
  intro m got
  have found := ModuleTree.find?_of_get got
  split
  · next refused => exact ⟨.refused found refused.1 refused.2, .refl log⟩
  · next takes =>
    split
    · exact run_bindAlias_outcome found takes (.inl rfl)
    · exact run_bindAlias_outcome found takes (.inr rfl)
    · exact run_bindOverloads_outcome

theorem run_bindImport_outcome {binding : Binding} :
    Run True (bindImport directive ns name binding publicOnly) s log fun _ s' _ =>
      Outcome directive ns name publicOnly s binding s' :=
  run_bindImport_noted.mono fun _ _ _ ended => ended.1

end Importing

/-! ## Aliases -/

namespace Definitions

/-- A later table whose new definitions are all made at one node. -/
def AddsAt (node : NodeId) (defs defs' : Definitions) : Prop :=
  ∃ added, defs'.toList = defs.toList ++ added ∧ ∀ d ∈ added, d.node = node

variable {node : NodeId} {defs defs' defs'' : Definitions}

theorem AddsAt.refl (node : NodeId) (defs : Definitions) : AddsAt node defs defs :=
  ⟨[], by simp, by simp⟩

theorem AddsAt.trans (h : AddsAt node defs defs') (h' : AddsAt node defs' defs'') :
    AddsAt node defs defs'' := by
  obtain ⟨added, eq, at_node⟩ := h
  obtain ⟨added', eq', at_node'⟩ := h'
  refine ⟨added ++ added', by rw [eq', eq, List.append_assoc], ?_⟩
  intro d mem
  rcases List.mem_append.mp mem with mem | mem
  · exact at_node d mem
  · exact at_node' d mem

theorem addsAt_push (isPub : Bool) (kind : DefKind) (ident : Ident) (target : Option DefId) :
    AddsAt node defs (defs.push isPub node kind ident target) :=
  ⟨_, by rw [toList, push, Array.toList_push, toList], by simp⟩

theorem addsAt_of_defineAlias {isPub : Bool} {ident : Ident} {id target : DefId}
    (made : defs.defineAlias isPub node ident target = .ok (id, defs')) :
    AddsAt node defs defs' := by
  obtain ⟨-, eq⟩ := defineAlias_eq_ok.mp made
  cases eq
  exact addsAt_push ..

theorem JoinOutcome.addsAt {isPub : Bool} {into : OverloadId}
    {members taken : List (String × DefId)}
    (outcome : JoinOutcome isPub node into defs members taken defs') : AddsAt node defs defs' := by
  induction outcome with
  | nil => exact .refl node _
  | stays _ _ ih => exact ih
  | joins _ _ _ _ ih => exact (addsAt_push ..).trans ih

theorem addsAt_of_importOverloads {isPub : Bool} {source into : OverloadId}
    {target : Option OverloadId} {publicOnly : Bool} {taken : List (String × DefId)}
    (made : defs.importOverloads isPub node source target publicOnly = .ok (into, taken, defs')) :
    AddsAt node defs defs' := by
  have opened : AddsAt node defs (defs.overloadsOrNew target).2 := by
    -- a fresh set is no definition
    refine ⟨[], ?_, by simp⟩
    cases target <;> simp [overloadsOrNew, newOverloads, toList]
  obtain ⟨-, outcome⟩ := importOverloads_outcome made
  cases outcome with
  | itself _ => exact opened
  | joined _ _ _ outcome => exact opened.trans outcome.addsAt

end Definitions

/-! ## Single imports -/

/-- What a single import may have changed when it has bound `name`. -/
structure Binds {n : Nat} (directive : Directive) (name : String) (s s' : ImportState n) :
    Prop where
  statusOf : s'.statusOf = s.statusOf
  diagnostics : ∃ more, s'.diagnostics = s.diagnostics ++ more ∧
    ∀ d ∈ more, d.isImportCycle = false
  added : Definitions.AddsAt directive.node s.defs s'.defs
  elsewhere : ∀ {module : ModuleId} {other : String} (ns : Namespace),
    (module, other) ≠ (directive.module, name) →
    s'.tree.bindingAt? module ns other = s.tree.bindingAt? module ns other

namespace Binds

variable {n : Nat} {directive : Directive} {name : String} {s s' s'' : ImportState n}

theorem refl (directive : Directive) (name : String) (s : ImportState n) :
    Binds directive name s s :=
  ⟨rfl, ⟨[], by simp, by simp⟩, .refl _ _, fun _ _ => rfl⟩

theorem trans (h : Binds directive name s s') (h' : Binds directive name s' s'') :
    Binds directive name s s'' := by
  refine ⟨h'.statusOf.trans h.statusOf, ?_, h.added.trans h'.added, ?_⟩
  · obtain ⟨more, eq, others⟩ := h.diagnostics
    obtain ⟨more', eq', others'⟩ := h'.diagnostics
    refine ⟨more ++ more', by rw [eq', eq, List.append_assoc], ?_⟩
    intro d mem
    rcases List.mem_append.mp mem with mem | mem
    · exact others d mem
    · exact others' d mem
  · intro module other ns ne
    exact (h'.elsewhere ns ne).trans (h.elsewhere ns ne)

/-- One more diagnostic that is not about a cycle. -/
theorem report {d : Diagnostic} (h : d.isImportCycle = false) :
    Binds directive name s { s with diagnostics := s.diagnostics ++ [d] } :=
  ⟨rfl, ⟨[d], rfl, by simpa using h⟩, .refl _ _, fun _ _ => rfl⟩

end Binds

theorem noCycle_of_redefinition {defs : Definitions} {name : String} {span : Span}
    {first : Binding} {report : Diagnostic}
    (reported : redefinition defs name span first = .ok report) :
    report.isImportCycle = false := by
  have noCycle : Yields True (redefinition defs name span first) fun d =>
      d.isImportCycle = false := by
    cases first <;>
      · simp only [redefinition, Yields.bind_iff, Yields.pure_iff]
        exact Yields.trivial_of_true fun _ => rfl
  exact Yields.true_iff.mp noCycle _ reported

theorem noCycle_of_redefinitions {defs : Definitions} {name : String} {span : Span}
    {taken : List (String × DefId)} {reports : List Diagnostic}
    (reported : List.Forall₂ (fun t report => redefinition defs (name ++ t.1) span
      (.definition t.2) = .ok report) taken reports) :
    ∀ report ∈ reports, report.isImportCycle = false := by
  induction reported with
  | nil => exact List.forall_mem_nil _
  | cons first _ ih => exact List.forall_mem_cons.mpr ⟨noCycle_of_redefinition first, ih⟩

namespace Importing

variable {imports : Imports n} {directive : Directive} {ns : Namespace} {name : Ident}
  {binding : Binding} {publicOnly : Bool} {s s' : ImportState n} {log : Log}

/-- Whatever binding an import makes it makes at the node of the import. -/
theorem Outcome.addsAt (outcome : Outcome directive ns name publicOnly s binding s') :
    Definitions.AddsAt directive.node s.defs s'.defs := by
  cases outcome with
  | refused _ _ _ | blocked _ _ _ => exact .refl _ _
  | aliased _ made _ _ _ | aliasTaken _ made _ _ => exact Definitions.addsAt_of_defineAlias made
  | joined _ made _ | opened _ made => exact Definitions.addsAt_of_importOverloads made

/-- An import binds its own name at most, and in its own module. -/
theorem Outcome.binds (outcome : Outcome directive ns name publicOnly s binding s') :
    Binds directive name.name s s' := by
  have added := outcome.addsAt
  have none : ∃ more, s.diagnostics = s.diagnostics ++ more ∧
      ∀ d ∈ more, d.isImportCycle = false := ⟨[], by simp, by simp⟩
  have elsewhere {ns : Namespace} {own : Binding} {module : ModuleId} {other : String}
      (ns' : Namespace) (ne : (module, other) ≠ (directive.module, name.name)) :
      (s.tree.modify directive.module (·.bind ns name.name own)).bindingAt? module ns' other =
        s.tree.bindingAt? module ns' other := by
    refine ModuleTree.bindingAt?_bind_of_ne ?_
    rintro ⟨⟩
    exact ne rfl
  cases outcome with
  | refused _ _ _ => exact .refl ..
  | aliased _ _ _ _ _ | opened _ _ => exact ⟨rfl, none, added, elsewhere⟩
  | aliasTaken _ _ _ reported | blocked _ _ reported =>
    have noCycle := noCycle_of_redefinition reported
    exact ⟨rfl, ⟨_, rfl, by simpa using noCycle⟩, added, fun _ _ => rfl⟩
  | joined _ _ reported =>
    exact ⟨rfl, ⟨_, rfl, noCycle_of_redefinitions reported⟩, added, fun _ _ => rfl⟩

theorem run_bindImport :
    Run True (bindImport directive ns name binding publicOnly) s log fun _ s' _ =>
      Binds directive name.name s s' :=
  run_bindImport_outcome.mono fun _ _ _ outcome => outcome.binds

theorem run_checkPrivate (name : String) {source : ModuleId} {binding : Binding} {text : String} :
    Run True (checkPrivate imports directive source binding text) s log fun _ s' _ =>
      Binds directive name s s' := by
  rw [checkPrivate]
  split
  · simp only [lift, Run.bind_iff, Run.get_iff, Run.lift_iff]
    apply Yields.trivial_of_true
    intro inside
    split
    · exact Binds.refl ..
    · simp only [Run.bind_iff, Run.lift_iff]
      apply Yields.trivial_of_true
      intro isPub
      split
      · exact Binds.refl ..
      · simp only [Run.bind_iff, Run.lift_iff]
        refine Yields.trivial_of_true fun m => Yields.trivial_of_true ?_
        intro owner
        exact Binds.report rfl
  · exact Binds.refl ..

end Importing

namespace Lookup

variable {n : Nat} {imports : Imports n} {directive : Directive} {target : ImportTarget}
  {s : ImportState n} {log : Log}

theorem run_bindTarget {bare : Bool} {ns : Namespace} {source : ModuleId} {binding : Binding} :
    Run True (bindTarget imports directive target bare ns source binding) s log fun _ s' _ =>
      Binds directive target.name.name s s' := by
  simp only [bindTarget, Importing.lift, Run.bind_iff, Run.get_iff, Run.lift_iff]
  refine Yields.trivial_of_true fun inside => Yields.trivial_of_true ?_
  intro isPub
  split
  · exact Importing.run_bindImport
  · rw [Run.bind_iff]
    apply (Importing.run_checkPrivate target.name.name).mono
    intro _ s₁ log₁ checked
    exact Importing.run_bindImport.mono fun _ _ _ bound => checked.trans bound

theorem run_bindTargets {bare : Bool} (found : List (Namespace × ModuleId × Binding))
    {s : ImportState n} {log : Log} :
    Run True (bindTargets imports directive target bare found) s log fun _ s' _ =>
      Binds directive target.name.name s s' := by
  induction found generalizing s log with
  | nil => exact Binds.refl ..
  | cons first others ih =>
    obtain ⟨ns, source, binding⟩ := first
    rw [bindTargets, Run.bind_iff]
    apply run_bindTarget.mono
    intro _ s₁ log₁ bound
    exact ih.mono fun _ _ _ later => bound.trans later

end Lookup

end NameResolution

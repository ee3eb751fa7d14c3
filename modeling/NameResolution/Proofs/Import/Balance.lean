import NameResolution.Proofs.Import.Plain
import NameResolution.Proofs.Import.Run

/-! # Failures are told apart

    A directive fails once, in the course of its own resolution, and then it is
    reported or it leads back to a cycle that has been reported. Whoever meets
    the failure only passes on that there is a cycle; any other failure nobody
    reports a second time. So at all times the reports tell which directives
    have failed. -/

namespace NameResolution

/-- Whether the diagnostic is about an import whose path leads nowhere. -/
def Diagnostic.isUnresolvedImport : Diagnostic → Bool
  | .unresolvedImport .. => true
  | _ => false

section

variable {n : Nat}

/-- The diagnostics about paths that lead nowhere are about these imports, one each. -/
def ReportsFailures (imports : Imports n) (diagnostics : List Diagnostic) (failed : List (Fin n)) :
    Prop :=
  List.Forall₂
    (fun d i => ∃ reason,
      d = .unresolvedImport (imports.get i).pathText (imports.get i).span reason)
    (diagnostics.filter (·.isUnresolvedImport)) failed

/-- A cycle has been reported. -/
def ImportState.Cyclic (s : ImportState n) : Prop :=
  ∃ d ∈ s.diagnostics, d.isImportCycle = true

/-- Whoever has failed has been reported, and nobody else has. -/
structure Balanced (imports : Imports n) (s : ImportState n) : Prop where
  failed : ∃ failed : List (Fin n), failed.Nodup ∧
    (∀ i, i ∈ failed ↔ s.statusOf i = .failed) ∧ ReportsFailures imports s.diagnostics failed
  cyclic : ∀ i, s.statusOf i = .cycleFailed → s.Cyclic

/-- What a part of the import phase leaves behind that is begun in balance. Directives in progress
    wait for it. -/
structure Onward (imports : Imports n) (s s' : ImportState n) : Prop where
  balanced : Balanced imports s'
  inProgress : ∀ i, s.statusOf i = .inProgress → s'.statusOf i = .inProgress
  cyclic : s.Cyclic → s'.Cyclic

/-- An attempt that goes on in balance. If it fails for a cycle, this has been reported. -/
def Attempt.Balances (imports : Imports n) {α : Type} (m : Attempt n α) : Prop :=
  ∀ s log, Balanced imports s → Tries True m s log fun r s' _ =>
    Onward imports s s' ∧ (r = .error .cycle → s'.Cyclic)

end

variable {n : Nat} {imports : Imports n} {s s' s'' : ImportState n} {log : Log} {i : Fin n}
  {directive : Directive} {ns : Namespace} {binding : Binding} {source : ModuleId}

theorem ReportsFailures.append {diagnostics more : List Diagnostic} {failed : List (Fin n)}
    (h : ReportsFailures imports diagnostics failed)
    (others : ∀ d ∈ more, d.isUnresolvedImport = false) :
    ReportsFailures imports (diagnostics ++ more) failed := by
  have none : more.filter (·.isUnresolvedImport) = [] := by
    apply List.filter_eq_nil_iff.mpr
    intro d mem
    simp [others d mem]
  rw [ReportsFailures, List.filter_append, none, List.append_nil]
  exact h

theorem ImportState.Cyclic.append {more : List Diagnostic} (h : s.Cyclic)
    (eq : s'.diagnostics = s.diagnostics ++ more) : s'.Cyclic := by
  obtain ⟨d, mem, isCycle⟩ := h
  exact ⟨d, eq ▸ List.mem_append_left _ mem, isCycle⟩

namespace Onward

theorem refl (balanced : Balanced imports s) : Onward imports s s :=
  ⟨balanced, fun _ h => h, id⟩

theorem trans (h : Onward imports s s') (h' : Onward imports s' s'') : Onward imports s s'' :=
  ⟨h'.balanced, fun i inProgress => h'.inProgress i (h.inProgress i inProgress),
    fun cyclic => h'.cyclic (h.cyclic cyclic)⟩

/-- More diagnostics, none of them about a path that leads nowhere. -/
theorem of_reports (balanced : Balanced imports s) (statusOf : s'.statusOf = s.statusOf)
    {more : List Diagnostic} (eq : s'.diagnostics = s.diagnostics ++ more)
    (others : ∀ d ∈ more, d.isUnresolvedImport = false) : Onward imports s s' := by
  obtain ⟨failed, nodup, mem_iff, reports⟩ := balanced.failed
  have cyclic : s.Cyclic → s'.Cyclic := fun h => h.append eq
  refine ⟨⟨⟨failed, nodup, fun i => ?_, ?_⟩, fun i h => ?_⟩, fun i h => ?_, cyclic⟩
  · rw [statusOf]
    exact mem_iff i
  · rw [eq]
    exact reports.append others
  · rw [statusOf] at h
    exact cyclic (balanced.cyclic i h)
  · rw [statusOf]
    exact h

/-- A directive that was pending comes to its end behind whatever was done in its course. -/
theorem close {status : ImportStatus} (h : Onward imports (s.withStatus i .inProgress) s')
    (pending : s.statusOf i = .pending) (statusOf : s''.statusOf = s'.statusOf)
    (cyclic : s'.Cyclic → s''.Cyclic) (balanced : Balanced imports (s''.withStatus i status)) :
    Onward imports s (s''.withStatus i status) := by
  refine ⟨balanced, fun j inProgress => ?_, fun before => cyclic (h.cyclic before)⟩
  have ne : i ≠ j := by
    rintro rfl
    rw [pending] at inProgress
    cases inProgress
  rw [ImportState.statusOf_withStatus, if_neg ne, statusOf]
  refine h.inProgress j ?_
  rw [ImportState.statusOf_withStatus, if_neg ne, inProgress]

end Onward

namespace Balanced

/-- Who has not failed may come to anything else. -/
theorem withStatus (h : Balanced imports s) {status : ImportStatus}
    (unfailed : s.statusOf i ≠ .failed) (other : status ≠ .failed)
    (cyclic : status = .cycleFailed → s.Cyclic) : Balanced imports (s.withStatus i status) := by
  obtain ⟨failed, nodup, mem_iff, reports⟩ := h.failed
  refine ⟨⟨failed, nodup, fun j => ?_, reports⟩, fun j isCyclic => ?_⟩
  · rw [mem_iff, ImportState.statusOf_withStatus]
    split
    · next same =>
      subst same
      exact iff_of_false unfailed other
    · rfl
  · rw [ImportState.statusOf_withStatus] at isCyclic
    split at isCyclic
    · exact cyclic isCyclic
    · exact h.cyclic j isCyclic

/-- It may also fail, and is reported then. -/
theorem fails (h : Balanced imports s) (unfailed : s.statusOf i ≠ .failed) (reason : String) :
    Balanced imports (ImportState.withStatus { s with diagnostics := s.diagnostics ++
      [.unresolvedImport (imports.get i).pathText (imports.get i).span reason] } i .failed) := by
  obtain ⟨failed, nodup, mem_iff, reports⟩ := h.failed
  have fresh : i ∉ failed := fun mem => unfailed ((mem_iff i).mp mem)
  refine ⟨⟨failed ++ [i], nodup.append (by simp) (by simpa using fresh), fun j => ?_, ?_⟩,
    fun j isCyclic => ?_⟩
  · rw [List.mem_append, List.mem_singleton, mem_iff, ImportState.statusOf_withStatus]
    split
    · next same => simp [same]
    · next ne => simp [Ne.symm ne, ImportState.statusOf]
  · show ReportsFailures imports (s.diagnostics ++ [_]) (failed ++ [i])
    rw [ReportsFailures, List.filter_append]
    exact List.rel_append reports (.cons ⟨reason, rfl⟩ .nil)
  · rw [ImportState.statusOf_withStatus] at isCyclic
    split at isCyclic
    · cases isCyclic
    · exact (h.cyclic j isCyclic).append rfl

end Balanced

/-- A directive that was pending is done. -/
theorem Onward.done (course : Onward imports (s.withStatus i .inProgress) s')
    (pending : s.statusOf i = .pending) (source : Option ModuleId) :
    Onward imports s (s'.withStatus i (.done source)) := by
  have inProgress : s'.statusOf i = .inProgress :=
    course.inProgress i (ImportState.statusOf_withStatus_self ..)
  exact course.close pending rfl id
    (course.balanced.withStatus (by simp [inProgress]) (by simp) (by simp))

/-! ## Binding -/

namespace Importing

theorem yields_isRedefinition {defs : Definitions} {text : String} {span : Span}
    {first : Binding} :
    Yields True (redefinition defs text span first) fun d => d.isRedefinition = true := by
  cases first <;>
    · simp only [redefinition, Yields.bind_iff, Yields.pure_iff]
      exact Yields.trivial_of_true fun _ => rfl

/-- Binding an import reports nothing but names that are taken. -/
theorem Outcome.reports {name : Ident} {publicOnly : Bool}
    (outcome : Outcome directive ns name publicOnly s binding s') :
    ∃ more, s'.diagnostics = s.diagnostics ++ more ∧ ∀ d ∈ more, d.isRedefinition = true := by
  have isRedefinition {defs : Definitions} {text : String} {first : Binding} {d : Diagnostic}
      (reported : redefinition defs text name.span first = .ok d) : d.isRedefinition = true :=
    Yields.true_iff.mp yields_isRedefinition d reported
  cases outcome with
  | refused _ _ _ => exact ⟨[], (List.append_nil _).symm, List.forall_mem_nil _⟩
  | aliased _ _ _ _ _ => exact ⟨[], (List.append_nil _).symm, List.forall_mem_nil _⟩
  | opened _ _ => exact ⟨[], (List.append_nil _).symm, List.forall_mem_nil _⟩
  | aliasTaken _ _ _ reported => exact ⟨_, rfl, by simpa using isRedefinition reported⟩
  | blocked _ _ reported => exact ⟨_, rfl, by simpa using isRedefinition reported⟩
  | joined _ _ reported =>
    refine ⟨_, rfl, fun d mem => ?_⟩
    obtain ⟨k, lt, rfl⟩ := List.getElem_of_mem mem
    exact isRedefinition (reported.get (by rw [reported.length_eq]; exact lt) lt)

theorem run_bindImport_onward (balanced : Balanced imports s) {name : Ident} {publicOnly : Bool} :
    Run True (bindImport directive ns name binding publicOnly) s log fun _ s' _ =>
      Onward imports s s' := by
  apply run_bindImport_outcome.mono
  intro _ s' log' outcome
  obtain ⟨more, eq, redefinitions⟩ := outcome.reports
  refine .of_reports balanced ?_ eq fun d mem => ?_
  · funext j
    rw [ImportState.statusOf, outcome.statuses]
    rfl
  · have isRedefinition := redefinitions d mem
    cases d <;> first | rfl | cases isRedefinition

theorem run_checkPrivate_onward (balanced : Balanced imports s) {text : String} :
    Run True (checkPrivate imports directive source binding text) s log fun _ s' _ =>
      Onward imports s s' := by
  apply run_checkPrivate_flags.mono
  rintro _ _ _ ⟨more, flags, rfl, -⟩
  refine .of_reports balanced rfl rfl fun d mem => ?_
  obtain ⟨-, -, -, _, _, -, -, rfl⟩ := (flags d).mp mem
  rfl

end Importing

namespace Lookup

open Importing

theorem run_bindTargets_onward {target : ImportTarget} {bare : Bool}
    (found : List (Namespace × ModuleId × Binding)) {s : ImportState n} {log : Log}
    (balanced : Balanced imports s) :
    Run True (bindTargets imports directive target bare found) s log fun _ s' _ =>
      Onward imports s s' := by
  induction found generalizing s log with
  | nil => exact .refl balanced
  | cons first others ih =>
    obtain ⟨ns, source, binding⟩ := first
    have bound : Run True (bindTarget imports directive target bare ns source binding) s log
        fun _ s' _ => Onward imports s s' := by
      simp only [bindTarget, lift, Run.bind_iff, Run.get_iff, Run.lift_iff]
      refine Yields.trivial_of_true fun inside => Yields.trivial_of_true fun isPub => ?_
      split
      · exact run_bindImport_onward balanced
      · rw [Run.bind_iff]
        apply (run_checkPrivate_onward balanced).mono
        intro _ s₁ log₁ checked
        exact (run_bindImport_onward checked.balanced).mono fun _ _ _ => checked.trans
    rw [bindTargets, Run.bind_iff]
    apply bound.mono
    intro _ s₁ log₁ first
    exact (ih first.balanced).mono fun _ _ _ => first.trans

/-! ## Resolving an import -/

theorem composes_balances : Attempt.Composes (Attempt.Balances imports) where
  pure a s log balanced := ⟨.refl balanced, by simp⟩
  throw notCycle s log balanced :=
    ⟨.refl balanced, fun isCycle => absurd (Except.error.inj isCycle) notCycle⟩
  lift := by
    intro α result s log balanced
    simp only [Attempt.lift, Importing.lift, Tries.lift_iff, Run.lift_iff]
    exact Yields.trivial_of_true fun a => ⟨.refl balanced, by simp⟩
  get s log balanced := ⟨.refl balanced, by simp⟩
  bind := by
    intro α β m f h h' s log balanced
    rw [Tries.bind_iff]
    apply (h s log balanced).mono
    rintro r s₁ log₁ ⟨first, cycle⟩
    cases r with
    | ok a =>
      apply (h' a s₁ log₁ first.balanced).mono
      rintro r s₂ log₂ ⟨later, cycle'⟩
      exact ⟨first.trans later, cycle'⟩
    | error failure =>
      exact ⟨first, fun isCycle => cycle (congrArg _ (Except.error.inj isCycle))⟩

/-- A lookup that goes on in balance, whoever asks. -/
def Balances (imports : Imports n) (lookup : Lookup n) : Prop :=
  ∀ asker module ns name, Attempt.Balances imports (lookup asker module ns name)

variable {lookup : Lookup n} {asker : Asker n} {opened searched : List (Fin n)}

theorem Balances.importSingle (h : Balances imports lookup) :
    Attempt.Balances imports (importSingle imports lookup asker) := by
  cases hasTarget : (imports.get asker.index).target? with
  | none =>
    rw [Lookup.importSingle, hasTarget]
    exact composes_balances.throw (by simp)
  | some target =>
    rw [importSingle_eq hasTarget]
    refine composes_balances.bind (composes_balances.findSingle (h asker) _ _) fun found => ?_
    intro s log balanced
    rw [Tries.liftM_iff]
    exact (run_bindTargets_onward found balanced).mono fun _ _ _ bound => ⟨bound, by simp⟩

/-- A directive that was pending fails, and is reported unless a cycle has been. -/
theorem run_fail_onward {failure : ImportFailure}
    (course : Onward imports (s.withStatus i .inProgress) s') (pending : s.statusOf i = .pending)
    (cycle : failure = .cycle → s'.Cyclic) :
    Run True (do
      let status ← reportFailure (imports.get i) failure
      setStatus opened searched i status) s' log fun _ s'' _ => Onward imports s s'' := by
  have inProgress : s'.statusOf i = .inProgress :=
    course.inProgress i (ImportState.statusOf_withStatus_self ..)
  have unfailed : s'.statusOf i ≠ .failed := by simp [inProgress]
  simp only [Run.bind_iff, run_setStatus_iff, reportFailure]
  split
  · next reason _ =>
    simp only [report, Run.bind_iff, Run.modify_iff, Run.pure_iff]
    exact course.close pending rfl (fun cyclic => cyclic.append rfl)
      (course.balanced.fails unfailed reason)
  · next noReason =>
    have isCycle : failure = .cycle := by
      cases failure <;> first | rfl | cases noReason
    rw [Run.pure_iff]
    exact course.close pending rfl id
      (course.balanced.withStatus unfailed (by simp) fun _ => cycle isCycle)

theorem Balances.resolveSingle (h : Balances imports lookup) (balanced : Balanced imports s)
    (pending : s.statusOf i = .pending) :
    Run True (resolveSingle imports lookup i opened searched) s log fun _ s' _ =>
      Onward imports s s' := by
  have opens : Balanced imports (s.withStatus i .inProgress) :=
    balanced.withStatus (by simp [pending]) (by simp) (by simp)
  simp only [Lookup.resolveSingle, Run.bind_iff, run_setStatus_iff, Tries.run_iff]
  apply (h.importSingle _ _ opens).mono
  rintro r s₁ log₁ ⟨course, cycle⟩
  cases r with
  | ok _ => exact course.done pending none
  | error failure => exact run_fail_onward course pending fun isCycle => cycle (congrArg _ isCycle)

/-! ## Globs -/

theorem Balances.globSource (h : Balances imports lookup) (balanced : Balanced imports s) :
    Run True (globSource imports lookup i opened searched) s log fun _ s' _ =>
      Onward imports s s' := by
  simp only [Lookup.globSource, Run.bind_iff, run_note_iff, run_status_iff]
  split
  · exact .refl balanced
  · exact .refl balanced
  · exact .refl balanced
  · exact .refl balanced
  · next pending =>
    have opens : Balanced imports (s.withStatus i .inProgress) :=
      balanced.withStatus (by simp [pending]) (by simp) (by simp)
    simp only [Run.bind_iff, run_setStatus_iff, Tries.run_iff]
    apply (composes_balances.globPath (h _) _ _ _ opens).mono
    rintro r s₁ log₁ ⟨course, cycle⟩
    cases r with
    | ok source =>
      simp only [Run.bind_iff, run_setStatus_iff, Run.pure_iff]
      exact course.done pending (some source)
    | error failure =>
      have fails : Run True (do
          let status ← reportFailure (imports.get i) failure
          setStatus (opened ++ [i]) searched i status) s₁ log₁ fun _ s' _ => Onward imports s s' :=
        run_fail_onward course pending fun isCycle => cycle (congrArg _ isCycle)
      simp only [Run.bind_iff, Run.pure_iff] at fails ⊢
      exact fails

theorem run_globBind_onward (balanced : Balanced imports s) {name : String} :
    Run True (globBind imports i source ns name binding) s log fun _ s' _ =>
      Onward imports s s' := by
  simp only [globBind, Importing.lift, Run.bind_iff, Run.get_iff, Run.lift_iff]
  refine Yields.trivial_of_true fun m => ?_
  split
  · exact .refl balanced
  · simp only [Run.bind_iff, Run.lift_iff]
    refine Yields.trivial_of_true fun inside => Yields.trivial_of_true fun isPub => ?_
    split
    · simp only [Run.bind_iff, Run.pure_iff]
      exact run_bindImport_onward balanced
    · exact .refl balanced

theorem Balances.askGlob (h : Balances imports lookup) {module : ModuleId} {name : String}
    (balanced : Balanced imports s) :
    Run True (askGlob imports lookup asker module ns name i) s log fun _ s' _ =>
      Onward imports s s' := by
  simp only [Lookup.askGlob, Run.bind_iff]
  apply reads_bindingOf.mono
  rintro found _ log₀ ⟨rfl, -⟩
  split
  · rw [Run.bind_iff]
    apply (h.globSource balanced).mono
    intro found s₁ log₁ first
    cases found with
    | none => exact first
    | some source =>
      dsimp only
      split
      · rw [Run.bind_iff, Tries.run_iff]
        apply (h _ source ns name s₁ log₁ first.balanced).mono
        rintro r s₂ log₂ ⟨later, -⟩
        split
        · simp only [Run.bind_iff, Run.emit_iff, Run.pure_iff]
          exact (run_globBind_onward later.balanced).mono fun _ _ _ =>
            (first.trans later).trans
        · exact first.trans later
      · exact first
  · exact .refl balanced

theorem Balances.askGlobs (h : Balances imports lookup) {module : ModuleId} {name : String}
    (balanced : Balanced imports s) :
    Run True (askGlobs imports lookup asker module ns name) s log fun _ s' _ =>
      Onward imports s s' := by
  apply Run.forM _ (Onward.refl balanced)
  intro i _ s₁ log₁ soFar
  exact (h.askGlob soFar.balanced).mono fun _ _ _ => soFar.trans

/-! ## Names -/

/-- Waiting for an import. Where that leads into a cycle, this has been reported. -/
theorem Balances.awaitImport (h : Balances imports lookup) (balanced : Balanced imports s) :
    Run True (awaitImport imports lookup asker i) s log fun cycle s' _ =>
      Onward imports s s' ∧ (cycle = true → s'.Cyclic) := by
  rw [Lookup.awaitImport]
  split
  · exact ⟨.refl balanced, by simp⟩
  · simp only [run_status_iff, Run.bind_iff]
    split
    · next pending =>
      simp only [Run.bind_iff, run_status_iff, Run.pure_iff, beq_iff_eq]
      exact (h.resolveSingle balanced pending).mono fun _ _ _ ended =>
        ⟨ended, ended.balanced.cyclic i⟩
    · simp only [reportCycle, report, Run.bind_iff, run_note_iff, Run.emit_iff, Run.modify_iff,
        Run.pure_iff]
      refine ⟨.of_reports balanced rfl rfl (by simp [Diagnostic.isUnresolvedImport]), fun _ => ?_⟩
      exact ⟨_, List.mem_append_right _ (List.mem_singleton_self _), rfl⟩
    · next failed => exact ⟨.refl balanced, fun _ => balanced.cyclic i failed⟩
    · exact ⟨.refl balanced, by simp⟩
    · exact ⟨.refl balanced, by simp⟩

theorem Balances.awaitImports (h : Balances imports lookup) (directives : List (Fin n))
    {s : ImportState n} {log : Log} (balanced : Balanced imports s) :
    Run True (awaitImports imports lookup asker directives) s log fun cycle s' _ =>
      Onward imports s s' ∧ (cycle = true → s'.Cyclic) := by
  induction directives generalizing s log with
  | nil => exact ⟨.refl balanced, by simp⟩
  | cons i others ih =>
    simp only [Lookup.awaitImports, Run.bind_iff, Run.pure_iff]
    apply (h.awaitImport balanced).mono
    rintro first s₁ log₁ ⟨goes, cyclic⟩
    apply (ih goes.balanced).mono
    rintro later s₂ log₂ ⟨goes', cyclic'⟩
    refine ⟨goes.trans goes', fun cycle => ?_⟩
    rcases (Bool.or_eq_true _ _).mp cycle with first | later
    · exact goes'.cyclic (cyclic first)
    · exact cyclic' later

/-- What is bound in the end is the answer, and if it is nothing perhaps a cycle. -/
theorem balances_answer {module : ModuleId} {name : String} {cycle : Bool}
    (goes : Onward imports s s') (cyclic : cycle = true → s'.Cyclic) :
    Tries True (do
      match ← (bindingOf module ns name : Importing n (Option Binding)) with
      | some binding => return some binding
      | none => if cycle then throw .cycle else return none : Attempt n (Option Binding)) s' log
      fun r s'' _ => Onward imports s s'' ∧ (r = .error .cycle → s''.Cyclic) := by
  simp only [Tries.bind_iff, Tries.liftM_iff]
  apply reads_bindingOf.mono
  rintro found _ log₁ ⟨rfl, -⟩
  cases found with
  | some binding => exact ⟨goes, by simp⟩
  | none =>
    cases cycle with
    | true => exact ⟨goes, fun _ => cyclic rfl⟩
    | false => exact ⟨goes, by simp⟩

/-- One more level of nesting. -/
theorem Balances.step (h : Balances imports lookup) : Balances imports (step imports lookup) := by
  intro asker module ns name s log balanced
  rw [Lookup.step]
  simp only [Tries.bind_iff, Tries.liftM_iff, run_note_iff]
  apply reads_bindingOf.mono
  rintro found _ log₀ ⟨rfl, -⟩
  cases found with
  | some binding => exact ⟨.refl balanced, by simp⟩
  | none =>
    simp only [Tries.bind_iff, Tries.liftM_iff]
    apply (h.awaitImports _ balanced).mono
    rintro cycle s₁ log₁ ⟨goes, cyclic⟩
    split
    · rw [Tries.bind_iff, Tries.liftM_iff]
      apply (h.askGlobs goes.balanced).mono
      intro _ s₂ log₂ asked
      exact balances_answer (goes.trans asked) fun cycle => asked.cyclic (cyclic cycle)
    · exact balances_answer goes cyclic

theorem balances_upTo (depth : Nat) : Balances imports (upTo imports depth) := by
  induction depth with
  | zero =>
    intro asker module ns name
    exact composes_balances.lift
  | succ depth ih => exact ih.step

theorem balances_full : Balances imports (full imports) := balances_upTo _

end Lookup

/-! ## The whole phase -/

namespace Importing

open Lookup

theorem run_resolvePending_onward (balanced : Balanced imports s) (i : Fin n) :
    Run True (resolvePending imports i) s log fun _ s' _ => Onward imports s s' := by
  simp only [resolvePending, run_status_iff, Run.bind_iff]
  split
  · next opens =>
    simp only [Bool.and_eq_true, Bool.not_eq_true', beq_iff_eq] at opens
    exact balances_full.resolveSingle balanced opens.2
  · exact .refl balanced

theorem run_globSources_onward (directives : List (Fin n)) {s : ImportState n} {log : Log}
    (balanced : Balanced imports s) :
    Run True (globSources imports directives) s log fun _ s' _ => Onward imports s s' := by
  induction directives generalizing s log with
  | nil => exact .refl balanced
  | cons i others ih =>
    rw [globSources]
    split
    · simp only [Run.bind_iff, Run.pure_iff]
      apply (balances_full.globSource balanced).mono
      intro _ s₁ log₁ first
      exact (ih first.balanced).mono fun _ _ _ => first.trans
    · simp only [Run.bind_iff, Run.pure_iff]
      exact ih balanced

theorem run_allDirectives_onward (balanced : Balanced imports s) :
    Run True (allDirectives imports) s log fun _ s' _ => Onward imports s s' := by
  simp only [allDirectives, Run.bind_iff, Run.get_iff, Run.emit_iff]
  have singles : Run True ((List.finRange n).forM (resolvePending imports)) s log fun _ s' _ =>
      Onward imports s s' :=
    Run.forM _ (.refl balanced) fun i _ s₁ log₁ soFar =>
      (run_resolvePending_onward soFar.balanced i).mono fun _ _ _ => soFar.trans
  apply singles.mono
  intro _ s₁ log₁ first
  apply (run_globSources_onward _ first.balanced).mono
  intro globs s₂ log₂ second
  refine run_saturate_of ?_ globs _ (first.trans second)
  exact fun _ _ _ _ _ _ _ soFar =>
    (run_globBind_onward soFar.balanced).mono fun _ _ _ => soFar.trans

/-- Before the first import is opened nobody has failed, and nothing is reported. -/
theorem balanced_start (defs : Definitions) (tree : ModuleTree) :
    Balanced imports (.start n defs tree) := by
  refine ⟨⟨[], List.nodup_nil, fun i => ?_, .nil⟩, fun i failed => ?_⟩
  · simp [ImportState.statusOf_start]
  · rw [ImportState.statusOf_start] at failed
    cases failed

end Importing

/-- When all imports have been resolved the reports tell which of them have failed. -/
theorem balanced_of_resolveImports {defs : Definitions} {tree : ModuleTree}
    {directives : List Directive} {lint : Bool} {s : ImportState directives.length}
    {log₀ log₁ : Log} (run : resolveImports defs tree lint directives log₀ = .ok s log₁) :
    Balanced (Imports.ofList directives lint) s := by
  have phase := allDirectives_of_resolveImports run
  have balanced : Balanced (Imports.ofList directives lint) (.start _ defs tree) :=
    Importing.balanced_start defs tree
  exact ((Importing.run_allDirectives_onward balanced).of_ok phase).balanced

end NameResolution
